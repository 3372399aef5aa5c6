import Hayven.Util.DateText
import Mathlib.Tactic.Tauto
/-!
# The inbound day window

`assertAcceptableSegmentDay` compares the texts of two days. Texts of dates
are in the order of the dates only where the texts of their years are in the
order of the years, and no year is padded.
-/

open Hayven.Lib Hayven.Util

namespace Hayven.Crdt

/-! ## Dates in order -/

/-- Year, then month, then day. -/
def CivilDate.before (a b : CivilDate) : Prop :=
  a.year < b.year ∨ a.year = b.year ∧ (a.month < b.month ∨ a.month = b.month ∧ a.day < b.day)

/-- The year of a day that starts on 1 March, and the day of that year. -/
def marchYear (days : Int) : Int :=
  let doe := (days + 719468) % 146097
  (doe - doe / 1460 + doe / 36524 - doe / 146096) / 365 + (days + 719468) / 146097 * 400

def marchDay (days : Int) : Int :=
  let doe := (days + 719468) % 146097
  let yoe := (doe - doe / 1460 + doe / 36524 - doe / 146096) / 365
  doe - (365 * yoe + yoe / 4 - yoe / 100)

/-- Within an era a later day is not in an earlier year. -/
theorem yearOfEra_mono {a b : Int} (hab : a ≤ b) :
    (a - a / 1460 + a / 36524 - a / 146096) / 365 ≤ (b - b / 1460 + b / 36524 - b / 146096) / 365 := by
  have h : a - a / 1460 + a / 36524 - a / 146096 ≤ b - b / 1460 + b / 36524 - b / 146096 := by omega
  exact Int.ediv_le_ediv (by decide) h

theorem marchDay_bounds (days : Int) : 0 ≤ marchDay days ∧ marchDay days ≤ 365 := by
  unfold marchDay
  dsimp only
  have h0 : 0 ≤ (days + 719468) % 146097 := Int.emod_nonneg _ (by decide)
  have h1 : (days + 719468) % 146097 < 146097 := Int.emod_lt_of_pos _ (by decide)
  generalize (days + 719468) % 146097 = doe at *
  have hcentury : 0 ≤ doe / 36524 ∧ doe / 36524 ≤ 4 := by omega
  generalize hyoe : (doe - doe / 1460 + doe / 36524 - doe / 146096) / 365 = yoe
  have hyoe01 : 0 ≤ yoe ∧ yoe ≤ 399 := by omega
  exact dayOfYear_bounds (a := doe / 1460) (b := doe / 36524) (c := doe / 146096) h0 (by omega) (by omega) (by omega)
    (by omega) (by omega) (by omega) (by omega) hyoe01.2

theorem yearOfEra_bounds {doe : Int} (h0 : 0 ≤ doe) (h1 : doe < 146097) :
    0 ≤ (doe - doe / 1460 + doe / 36524 - doe / 146096) / 365 ∧
      (doe - doe / 1460 + doe / 36524 - doe / 146096) / 365 ≤ 399 := by
  omega

/-- A later day is in a later year, or is a later day of the same year. -/
theorem march_before {a b : Int} (hab : a < b) :
    marchYear a < marchYear b ∨ marchYear a = marchYear b ∧ marchDay a < marchDay b := by
  have hera : (a + 719468) / 146097 ≤ (b + 719468) / 146097 := Int.ediv_le_ediv (by decide) (by omega)
  have ha : (a + 719468) / 146097 * 146097 + (a + 719468) % 146097 = a + 719468 := Int.ediv_mul_add_emod _ _
  have hb : (b + 719468) / 146097 * 146097 + (b + 719468) % 146097 = b + 719468 := Int.ediv_mul_add_emod _ _
  have hya := yearOfEra_bounds (Int.emod_nonneg (a + 719468) (by decide)) (Int.emod_lt_of_pos (a + 719468) (by decide))
  have hyb := yearOfEra_bounds (Int.emod_nonneg (b + 719468) (by decide)) (Int.emod_lt_of_pos (b + 719468) (by decide))
  have hmono := @yearOfEra_mono ((a + 719468) % 146097) ((b + 719468) % 146097)
  unfold marchYear marchDay
  dsimp only
  generalize (a + 719468) % 146097 = doe at *
  generalize (b + 719468) % 146097 = doe' at *
  generalize (a + 719468) / 146097 = era at *
  generalize (b + 719468) / 146097 = era' at *
  generalize (doe - doe / 1460 + doe / 36524 - doe / 146096) / 365 = yoe at *
  generalize (doe' - doe' / 1460 + doe' / 36524 - doe' / 146096) / 365 = yoe' at *
  rcases hera.lt_or_eq with hlt | rfl
  · left
    omega
  · have hdoe : doe < doe' := by omega
    rcases (hmono hdoe.le).lt_or_eq with hy | rfl
    · left
      omega
    · right
      omega

/-- The date of a day of a year that starts on 1 March. -/
theorem civilOfDays_march (days : Int) :
    civilOfDays days =
      let mp := (5 * marchDay days + 2) / 153
      let month := if mp < 10 then mp + 3 else mp - 9
      ⟨marchYear days + (if month ≤ 2 then 1 else 0), month, marchDay days - (153 * mp + 2) / 5 + 1⟩ := rfl

/-- A later day has a later date. -/
theorem civilOfDays_before {a b : Int} (hab : a < b) : (civilOfDays a).before (civilOfDays b) := by
  have ha := marchDay_bounds a
  have hb := marchDay_bounds b
  have hmarch := march_before hab
  rw [civilOfDays_march, civilOfDays_march, CivilDate.before]
  have hmp : ∀ d : Int, 0 ≤ d ∧ d ≤ 365 → 0 ≤ (5 * d + 2) / 153 ∧ (5 * d + 2) / 153 ≤ 11 := by
    intro d hd
    omega
  have hmpa := hmp _ ha
  have hmpb := hmp _ hb
  generalize marchYear a = y at *
  generalize marchYear b = y' at *
  generalize marchDay a = d at *
  generalize marchDay b = d' at *
  have hmono : d < d' → (5 * d + 2) / 153 < (5 * d' + 2) / 153 ∨ (5 * d + 2) / 153 = (5 * d' + 2) / 153 := by omega
  dsimp only
  generalize (5 * d + 2) / 153 = mp at *
  generalize (5 * d' + 2) / 153 = mp' at *
  -- January and February close the year that began in March
  by_cases hj : mp < 10 <;> by_cases hj' : mp' < 10
  · rw [if_pos hj, if_pos hj', if_neg (show ¬ mp + 3 ≤ 2 by omega), if_neg (show ¬ mp' + 3 ≤ 2 by omega)]
    omega
  · rw [if_pos hj, if_neg hj', if_neg (show ¬ mp + 3 ≤ 2 by omega), if_pos (show mp' - 9 ≤ 2 by omega)]
    omega
  · rw [if_neg hj, if_pos hj', if_pos (show mp - 9 ≤ 2 by omega), if_neg (show ¬ mp' + 3 ≤ 2 by omega)]
    omega
  · rw [if_neg hj, if_neg hj', if_pos (show mp - 9 ≤ 2 by omega), if_pos (show mp' - 9 ≤ 2 by omega)]
    omega

/-- Dates are in the order of their days. -/
theorem lt_iff_before {a b : Int} : a < b ↔ (civilOfDays a).before (civilOfDays b) := by
  constructor
  · exact civilOfDays_before
  · intro h
    by_contra hle
    rcases lt_or_eq_of_le (not_lt.1 hle) with hlt | rfl
    · have h' := civilOfDays_before hlt
      unfold CivilDate.before at h h'
      omega
    · unfold CivilDate.before at h
      omega

/-! ## Texts in order -/

/-- Before a hyphen, texts of units above it are compared alone. -/
theorem append_lt_append {a b r s : JsString} (ha : ∀ u ∈ a, 0x2D < u) (hb : ∀ u ∈ b, 0x2D < u) :
    a ++ 0x2D :: r < b ++ 0x2D :: s ↔ a < b ∨ a = b ∧ r < s := by
  induction a generalizing b with
  | nil =>
    cases b with
    | nil => simp
    | cons v b =>
      have hv := hb v (List.mem_cons_self ..)
      simp [List.cons_lt_cons_iff, hv]
  | cons u a ih =>
    have hu := ha u (List.mem_cons_self ..)
    cases b with
    | nil =>
      have hne : ¬ u < 0x2D := UInt16.lt_asymm hu
      have hne' : u ≠ 0x2D := (UInt16.ne_of_lt hu).symm
      simp [List.cons_lt_cons_iff, hne, hne']
    | cons v b =>
      have hrest := ih (b := b) (fun w hw => ha w (List.mem_cons_of_mem _ hw)) (fun w hw => hb w (List.mem_cons_of_mem _ hw))
      simp only [List.cons_append, List.cons_lt_cons_iff, hrest, List.cons.injEq]
      tauto

theorem digit_above_hyphen {n : Nat} : ∀ u ∈ decDigits n, (0x2D : UInt16) < u := by
  intro u hu
  have hd := (digits_decDigits n).all u hu
  simp only [isDigit, Bool.and_eq_true, decide_eq_true_eq] at hd
  exact UInt16.lt_of_lt_of_le (by decide) hd.1

theorem pad2_lt_pad2 : ∀ m < 32, ∀ n < 32, (pad2 (decDigits m) < pad2 (decDigits n)) ↔ m < n := by
  decide +kernel

theorem pad2_above_hyphen : ∀ m < 32, ∀ u ∈ pad2 (decDigits m), (0x2D : UInt16) < u := by
  decide +kernel

theorem pad2_inj : ∀ m < 32, ∀ n < 32, pad2 (decDigits m) = pad2 (decDigits n) → m = n := by
  decide +kernel

/-- The month and the day of a date. -/
def monthDayText (c : CivilDate) : JsString := pad2 (intText c.month) ++ 0x2D :: pad2 (intText c.day)

def dateText (c : CivilDate) : JsString := intText c.year ++ 0x2D :: monthDayText c

theorem utcDate_eq {ms : Int} (h : ms.natAbs ≤ maxDateMs) : utcDate ms = dateText (civilOfDays (ms / msPerDay)) := by
  unfold utcDate dateText monthDayText
  rw [if_neg (by omega)]
  simp only [List.append_assoc, List.cons_append]

theorem monthDayText_lt {a b : Int} : monthDayText (civilOfDays a) < monthDayText (civilOfDays b) ↔
    (civilOfDays a).month < (civilOfDays b).month ∨
      (civilOfDays a).month = (civilOfDays b).month ∧ (civilOfDays a).day < (civilOfDays b).day := by
  have ha := civilOfDays_spec a
  have hb := civilOfDays_spec b
  have hnat : ∀ x : Int, 1 ≤ x → intText x = decDigits x.toNat := by
    intro x hx
    rw [intText, if_neg (by omega)]
    congr 1
    omega
  unfold monthDayText
  rw [hnat _ ha.month.1, hnat _ hb.month.1, hnat _ ha.day.1, hnat _ hb.day.1]
  have hma : (civilOfDays a).month.toNat < 32 := by have := ha.month; omega
  have hmb : (civilOfDays b).month.toNat < 32 := by have := hb.month; omega
  have hda : (civilOfDays a).day.toNat < 32 := by have := ha.day; omega
  have hdb : (civilOfDays b).day.toNat < 32 := by have := hb.day; omega
  rw [append_lt_append (pad2_above_hyphen _ hma) (pad2_above_hyphen _ hmb), pad2_lt_pad2 _ hma _ hmb, pad2_lt_pad2 _ hda _ hdb]
  have hinj : pad2 (decDigits (civilOfDays a).month.toNat) = pad2 (decDigits (civilOfDays b).month.toNat) ↔
      (civilOfDays a).month.toNat = (civilOfDays b).month.toNat :=
    ⟨pad2_inj _ hma _ hmb, fun h => by rw [h]⟩
  rw [hinj]
  have h₁ := ha.month
  have h₂ := hb.month
  have h₃ := ha.day
  have h₄ := hb.day
  omega

/-- Texts of dates whose years are not negative. -/
theorem dateText_lt {a b : Int} (ha : 0 ≤ (civilOfDays a).year) (hb : 0 ≤ (civilOfDays b).year) :
    dateText (civilOfDays a) < dateText (civilOfDays b) ↔
      intText (civilOfDays a).year < intText (civilOfDays b).year ∨ (civilOfDays a).year = (civilOfDays b).year ∧ a < b := by
  have hnat : ∀ x : Int, 0 ≤ x → intText x = decDigits x.toNat := by
    intro x hx
    rw [intText, if_neg (by omega)]
    congr 1
    omega
  unfold dateText
  rw [hnat _ ha, hnat _ hb, append_lt_append digit_above_hyphen digit_above_hyphen, monthDayText_lt]
  have hyear : decDigits (civilOfDays a).year.toNat = decDigits (civilOfDays b).year.toNat ↔
      (civilOfDays a).year = (civilOfDays b).year := by
    constructor
    · intro h
      have := decDigits_inj h
      omega
    · intro h
      rw [h]
  rw [hyear, lt_iff_before (a := a) (b := b), CivilDate.before]
  constructor
  · rintro (h | ⟨hy, h⟩)
    · exact .inl h
    · exact .inr ⟨hy, .inr ⟨hy, h⟩⟩
  · rintro (h | ⟨hy, h | ⟨-, h⟩⟩)
    · exact .inl h
    · omega
    · exact .inr ⟨hy, h⟩

/-! ## The window -/

/-- The year of the UTC day of a time. -/
def utcYear (ms : Int) : Int := (civilOfDays (ms / msPerDay)).year

def utcDay (ms : Int) : Int := ms / msPerDay

/-- The last instant whose day is accepted. -/
def horizonMs (nowMs : Int) : Int := nowMs + maxFutureSegmentDays * msPerDay

/-- A year's text does not come after another's. -/
def YearsInOrder (a b : Int) : Prop := a = b ∨ intText a < intText b

/-- The texts of the years of a day, of the first day and of the horizon are in the order of the days. -/
def WindowFit (wallMs : Nat) (nowMs : Int) : Prop :=
  (utcDay wallMs ≤ utcDay (horizonMs nowMs) →
      YearsInOrder 1970 (utcYear wallMs) ∧
        ((horizonMs nowMs).natAbs ≤ maxDateMs → YearsInOrder (utcYear wallMs) (utcYear (horizonMs nowMs)))) ∧
    (utcDay (horizonMs nowMs) < utcDay wallMs →
      intText (utcYear wallMs) < ascii "1970" ∨
        (horizonMs nowMs).natAbs ≤ maxDateMs ∧ YearsInOrder (utcYear (horizonMs nowMs)) (utcYear wallMs))

theorem utcYear_nonneg (wallMs : Nat) : 1970 ≤ utcYear wallMs := by
  have hspec := civilOfDays_spec ((wallMs : Int) / msPerDay)
  have hepoch : (civilOfDays 0).year = 1970 := by decide
  unfold utcYear
  rcases (Int.ediv_nonneg (Int.natCast_nonneg wallMs) (by decide : (0 : Int) ≤ msPerDay)).lt_or_eq with h | h
  · have hbefore := civilOfDays_before h
    unfold CivilDate.before at hbefore
    omega
  · rw [← h, hepoch]

/-- A day is refused as too early by the text of its year. -/
theorem lt_minSegmentDay {wallMs : Nat} (h : (wallMs : Int) ≤ maxDateMs) :
    utcDate wallMs < minSegmentDay ↔ intText (utcYear wallMs) < ascii "1970" := by
  have hmin : minSegmentDay = dateText (civilOfDays 0) := by decide +kernel
  have hepoch : (civilOfDays 0).year = 1970 := by decide
  have htext : intText 1970 = ascii "1970" := by decide +kernel
  have hday : 0 ≤ (wallMs : Int) / msPerDay := Int.ediv_nonneg (Int.natCast_nonneg _) (by decide)
  have hyear := utcYear_nonneg wallMs
  unfold utcYear at hyear ⊢
  rw [utcDate_eq (by omega), hmin, dateText_lt (by omega) (by omega), hepoch, htext]
  constructor
  · rintro (h | ⟨-, h⟩)
    · exact h
    · omega
  · exact .inl

/-- A day is refused as too late by the texts of the years, and within a year by its number. -/
theorem horizon_lt {wallMs : Nat} {nowMs : Int} (h : (wallMs : Int) ≤ maxDateMs)
    (hh : (horizonMs nowMs).natAbs ≤ maxDateMs) :
    utcDate (horizonMs nowMs) < utcDate wallMs ↔
      intText (utcYear (horizonMs nowMs)) < intText (utcYear wallMs) ∨
        utcYear (horizonMs nowMs) = utcYear wallMs ∧ utcDay (horizonMs nowMs) < utcDay wallMs := by
  have hyear := utcYear_nonneg wallMs
  rw [utcDate_eq hh, utcDate_eq (by omega)]
  unfold utcYear utcDay at *
  by_cases hneg : (civilOfDays (horizonMs nowMs / msPerDay)).year < 0
  · -- a minus sign comes before every digit
    have htext : ∀ (x y : Int) (r s : JsString), x < 0 → 0 ≤ y → intText x ++ r < intText y ++ s := by
      intro x y r s hx hy
      obtain ⟨u, rest, hu, -⟩ := (digits_decDigits y.natAbs).head
      have hlt : (0x2D : UInt16) < u := digit_above_hyphen u (hu ▸ List.mem_cons_self ..)
      rw [intText, intText, if_pos hx, if_neg (by omega), hu, List.cons_append, List.cons_append, List.cons_lt_cons_iff]
      exact .inl hlt
    have hyears := htext (civilOfDays (horizonMs nowMs / msPerDay)).year (civilOfDays ((wallMs : Int) / msPerDay)).year [] [] hneg
      (by omega)
    rw [List.append_nil, List.append_nil] at hyears
    exact ⟨fun _ => .inl hyears, fun _ => htext _ _ _ _ hneg (by omega)⟩
  · exact dateText_lt (by omega) (by omega)

theorem text_trichotomy (a b : JsString) : a < b ∨ a = b ∨ b < a := by
  by_cases h : a < b
  · exact .inl h
  · by_cases h' : b < a
    · exact .inr (.inr h')
    · exact .inr (.inl (List.le_antisymm h' h))

/-- The text of a year that is no date's comes after every day. -/
theorem not_nan_lt {wallMs : Nat} {nowMs : Int} (h : (wallMs : Int) ≤ maxDateMs)
    (hh : ¬ (horizonMs nowMs).natAbs ≤ maxDateMs) : ¬ utcDate (horizonMs nowMs) < utcDate wallMs := by
  have hnan : utcDate (horizonMs nowMs) = ascii "NaN-NaN-NaN" := by
    unfold utcDate
    rw [if_pos (by omega)]
  have hyear := utcYear_nonneg wallMs
  obtain ⟨u, rest, hu, -⟩ := (digits_decDigits (utcYear wallMs).natAbs).head
  have hdigit := (digits_decDigits (utcYear wallMs).natAbs).all u (hu ▸ List.mem_cons_self ..)
  simp only [isDigit, Bool.and_eq_true, decide_eq_true_eq] at hdigit
  have htext : intText (civilOfDays ((wallMs : Int) / msPerDay)).year = u :: rest := by
    unfold utcYear at hyear hu
    rw [intText, if_neg (by omega), hu]
  have hN : ascii "NaN-NaN-NaN" = 0x4E :: ascii "aN-NaN-NaN" := by decide
  rw [hnan, utcDate_eq (by omega), dateText, htext, hN, List.cons_append, List.cons_lt_cons_iff]
  rintro (hlt | ⟨heq, -⟩)
  · exact absurd (UInt16.lt_of_lt_of_le hlt hdigit.2) (by decide)
  · rw [← heq] at hdigit
    exact absurd hdigit.2 (by decide)

/-- A wall time's day is accepted just when it lies between 1970-01-01 and the horizon's day, exactly when the texts
of the years are in the order of the days. -/
theorem segment_window_exact (wallMs : Nat) (nowMs : Int) (h : (wallMs : Int) ≤ maxDateMs) :
    (acceptableSegmentDay (utcDate wallMs) nowMs = true ↔
        utcDay 0 ≤ utcDay wallMs ∧ utcDay wallMs ≤ utcDay (nowMs + maxFutureSegmentDays * msPerDay)) ↔
      WindowFit wallMs nowMs := by
  have hmin := lt_minSegmentDay h
  have hyear := utcYear_nonneg wallMs
  have hday : utcDay 0 ≤ utcDay wallMs := Int.ediv_le_ediv (by decide) (Int.natCast_nonneg _)
  have hepoch : intText 1970 = ascii "1970" := by decide +kernel
  -- the text of the first year, and that of the day's
  have hfirst : YearsInOrder 1970 (utcYear wallMs) ↔ ¬ intText (utcYear wallMs) < ascii "1970" := by
    unfold YearsInOrder
    rw [hepoch]
    constructor
    · rintro (hy | hlt)
      · rw [← hy, hepoch]
        exact List.lt_irrefl _
      · exact List.lt_asymm hlt
    · intro hnot
      rcases text_trichotomy (intText (utcYear wallMs)) (ascii "1970") with hlt | heq | hgt
      · exact absurd hlt hnot
      · exact .inl (intText_inj (hepoch.trans heq.symm))
      · exact .inr hgt
  have hacc : acceptableSegmentDay (utcDate wallMs) nowMs = true ↔
      ¬ intText (utcYear wallMs) < ascii "1970" ∧ ¬ utcDate (horizonMs nowMs) < utcDate wallMs := by
    rw [← hmin]
    simp [acceptableSegmentDay, horizonMs]
  have hhor : nowMs + maxFutureSegmentDays * msPerDay = horizonMs nowMs := rfl
  rw [hacc, hhor, WindowFit, hfirst]
  by_cases hh : (horizonMs nowMs).natAbs ≤ maxDateMs
  · have hyears : intText (utcYear (horizonMs nowMs)) < intText (utcYear wallMs) ∨ utcYear wallMs = utcYear (horizonMs nowMs) ∨
        intText (utcYear wallMs) < intText (utcYear (horizonMs nowMs)) := by
      rcases text_trichotomy (intText (utcYear (horizonMs nowMs))) (intText (utcYear wallMs)) with hlt | heq | hgt
      · exact .inl hlt
      · exact .inr (.inl (intText_inj heq.symm))
      · exact .inr (.inr hgt)
    have hone : intText (utcYear (horizonMs nowMs)) < intText (utcYear wallMs) →
        ¬ intText (utcYear wallMs) < intText (utcYear (horizonMs nowMs)) := List.lt_asymm
    have hsame : utcYear wallMs = utcYear (horizonMs nowMs) →
        ¬ intText (utcYear (horizonMs nowMs)) < intText (utcYear wallMs) := by
      intro heq
      rw [heq]
      exact List.lt_irrefl _
    rw [horizon_lt h hh, YearsInOrder, YearsInOrder, eq_comm (a := utcYear (horizonMs nowMs))]
    generalize (intText (utcYear wallMs) < ascii "1970") = early
    generalize (intText (utcYear (horizonMs nowMs)) < intText (utcYear wallMs)) = late at *
    generalize (intText (utcYear wallMs) < intText (utcYear (horizonMs nowMs))) = inside at *
    generalize (utcYear wallMs = utcYear (horizonMs nowMs)) = sameYear at *
    have hlate : ¬ late ↔ sameYear ∨ inside :=
      ⟨hyears.resolve_left, fun hy hl => hy.elim (fun he => hsame he hl) (hone hl)⟩
    by_cases hle : utcDay wallMs ≤ utcDay (horizonMs nowMs)
    · simp only [hle, hday, hh, not_lt.2 hle, and_false, or_false, and_self, iff_true, forall_const, false_implies, and_true]
      rw [hlate]
    · simp only [hle, hh, not_le.1 hle, and_true, and_false, iff_false, forall_const, false_implies, true_and]
      rw [not_and_or, not_not, not_not, or_comm (a := late)]

  · have hnot := not_nan_lt h hh
    by_cases hle : utcDay wallMs ≤ utcDay (horizonMs nowMs)
    · simp only [hnot, hle, hday, hh, not_lt.2 hle, not_false_eq_true, and_true, and_self, iff_true, forall_const,
        false_implies]
    · simp only [hnot, hle, hh, not_le.1 hle, not_false_eq_true, and_true, and_false, iff_false, not_not, forall_const,
        false_implies, false_and, or_false, true_and]

theorem segment_window_exact_epoch :
    (0 : Int) ≤ maxDateMs ∧
      ((acceptableSegmentDay (utcDate (0 : Nat)) 0 = true ↔
          utcDay 0 ≤ utcDay (0 : Nat) ∧ utcDay (0 : Nat) ≤ utcDay (0 + maxFutureSegmentDays * msPerDay)) ↔
        WindowFit 0 0) :=
  ⟨by decide, segment_window_exact 0 0 (by decide)⟩

/-- A day of the year 20000 is accepted in 2026. -/
theorem far_day_accepted :
    ¬ ∀ (wallMs : Nat) (nowMs : Int), (wallMs : Int) ≤ maxDateMs →
      (acceptableSegmentDay (utcDate wallMs) nowMs = true ↔
        utcDay 0 ≤ utcDay wallMs ∧ utcDay wallMs ≤ utcDay (nowMs + maxFutureSegmentDays * msPerDay)) := by
  intro h
  have hacc : acceptableSegmentDay (utcDate (568971820800000 : Nat)) 1780000000000 = true := by decide +kernel
  exact absurd ((h 568971820800000 1780000000000 (by decide)).1 hacc).2 (by decide)

end Hayven.Crdt
