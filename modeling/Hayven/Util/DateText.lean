import Hayven.Crdt.SegmentDay
import Hayven.Lib.DecimalText
import Mathlib.Data.Rat.Floor
import Mathlib.Tactic.IntervalCases
/-!
# Date text

`new Date(t).toISOString()`, and what `new Date(text).getTime()` makes of it. The
text of a time comes back as that time, cut to whole milliseconds. Every other
spelling of a date is the runtime's own affair, a parameter.
-/
open Hayven.Lib Hayven.Crdt

namespace Hayven.Util

/-! ## The calendar -/

/-- The days of an era before a year of it, against the day of the era: what is left is
a day of that year. -/
theorem dayOfYear_bounds {doe yoe a b c i j : Int} (h0 : 0 ≤ doe) (h1 : doe ≤ 146096)
    (ha : 1460 * a ≤ doe ∧ doe ≤ 1460 * a + 1459) (hb : 36524 * b ≤ doe ∧ doe ≤ 36524 * b + 36523)
    (hc : 146096 * c ≤ doe ∧ doe ≤ 146096 * c + 146095)
    (hy : 365 * yoe ≤ doe - a + b - c ∧ doe - a + b - c ≤ 365 * yoe + 364)
    (hi : 4 * i ≤ yoe ∧ yoe ≤ 4 * i + 3) (hj : 100 * j ≤ yoe ∧ yoe ≤ 100 * j + 99) (h3 : yoe ≤ 399) :
    0 ≤ doe - (365 * yoe + i - j) ∧ doe - (365 * yoe + i - j) ≤ 365 := by
  have hj0 : 0 ≤ j := by omega
  have hj3 : j ≤ 3 := by omega
  -- centuries, leap years and the era's last day differ by one at most
  have hbj : b = j ∨ b = j + 1 := by omega
  have hai : a = i ∨ a = i + 1 ∨ a + 1 = i := by omega
  have hcc : c = 0 ∨ c = 1 := by omega
  interval_cases j <;> rcases hbj with hbj | hbj <;> subst hbj <;> rcases hcc with hcc | hcc <;> subst hcc <;>
    rcases hai with h | h | h <;> constructor <;> omega

/-- A date of the calendar, and the day number it stands for. -/
structure CivilDate.Of (days : Int) (c : CivilDate) : Prop where
  month : 1 ≤ c.month ∧ c.month ≤ 12
  day : 1 ≤ c.day ∧ c.day ≤ 31
  year : (days + 719468) / 146097 * 400 ≤ c.year ∧ c.year ≤ (days + 719468) / 146097 * 400 + 400
  number : daysOfMonth c.year c.month + (c.day - 1) = days

theorem civilOfDays_spec (days : Int) : CivilDate.Of days (civilOfDays days) := by
  have hdoe0 : 0 ≤ (days + 719468) % 146097 := Int.emod_nonneg _ (by decide)
  have hdoe1 : (days + 719468) % 146097 < 146097 := Int.emod_lt_of_pos _ (by decide)
  have hera : (days + 719468) / 146097 * 146097 + (days + 719468) % 146097 = days + 719468 :=
    Int.ediv_mul_add_emod _ _
  unfold civilOfDays
  dsimp only
  generalize (days + 719468) % 146097 = doe at *
  generalize hera' : (days + 719468) / 146097 = era at *
  have hcentury : 0 ≤ doe / 36524 ∧ doe / 36524 ≤ 4 := by omega
  generalize hyoe : (doe - doe / 1460 + doe / 36524 - doe / 146096) / 365 = yoe
  have hyoe01 : 0 ≤ yoe ∧ yoe ≤ 399 := by omega
  have hdoy : 0 ≤ doe - (365 * yoe + yoe / 4 - yoe / 100) ∧ doe - (365 * yoe + yoe / 4 - yoe / 100) ≤ 365 :=
    dayOfYear_bounds (a := doe / 1460) (b := doe / 36524) (c := doe / 146096) hdoe0 (by omega) (by omega) (by omega)
      (by omega) (by omega) (by omega) (by omega) hyoe01.2
  have hyear : 365 * yoe + yoe / 4 - yoe / 100 + (doe - (365 * yoe + yoe / 4 - yoe / 100)) = doe := by omega
  generalize hstart : 365 * yoe + yoe / 4 - yoe / 100 = start at *
  generalize doe - start = doy at *
  have hmp : 0 ≤ (5 * doy + 2) / 153 ∧ (5 * doy + 2) / 153 ≤ 11 := by omega
  have hday : 0 ≤ doy - (153 * ((5 * doy + 2) / 153) + 2) / 5 ∧ doy - (153 * ((5 * doy + 2) / 153) + 2) / 5 ≤ 30 := by
    omega
  generalize (5 * doy + 2) / 153 = mp at *
  clear hyoe hcentury
  refine ⟨?_, ?_, ?_, ?_⟩
  · dsimp only
    split <;> omega
  · dsimp only
    omega
  · dsimp only
    split <;> split <;> omega
  · have hera400 : (yoe + era * 400) / 400 = era ∧ (yoe + era * 400) % 400 = yoe := by omega
    unfold daysOfMonth
    by_cases hlt : mp < 10
    · have hjan : ¬ mp + 3 ≤ 2 := by omega
      simp only [hlt, hjan, if_true, if_false, Int.add_zero, hera400, show mp + 3 > 2 by omega]
      omega
    · have hjan : mp - 9 ≤ 2 := by omega
      simp only [hlt, hjan, if_true, if_false, Int.add_sub_cancel, hera400, show ¬ mp - 9 > 2 by omega]
      omega

/-! ## Printing -/

/-- The last `width` digits of a number. -/
def padDigits : Nat → Nat → JsString
  | 0, _ => []
  | width + 1, n => padDigits width (n / 10) ++ [(48 + n % 10).toUInt16]

/-- Four digits, or a sign and six. -/
def yearText (year : Int) : JsString :=
  if 0 ≤ year ∧ year ≤ 9999 then padDigits 4 year.toNat
  else (if year < 0 then 0x2D else 0x2B) :: padDigits 6 year.natAbs

def isoText (ms : Int) : JsString :=
  let date := civilOfDays (ms / msPerDay)
  let time := (ms % msPerDay).toNat
  yearText date.year ++ 0x2D :: padDigits 2 date.month.toNat ++ 0x2D :: padDigits 2 date.day.toNat ++
    0x54 :: padDigits 2 (time / 3600000) ++ 0x3A :: padDigits 2 (time / 60000 % 60) ++
    0x3A :: padDigits 2 (time / 1000 % 60) ++ 0x2E :: padDigits 3 (time % 1000) ++ [0x5A]

/-- The whole milliseconds of a time that a `Date` can hold. -/
def timeClip : JsNumber → Option Int
  | .fin q => if |q| ≤ maxDateMs then some (if q < 0 then ⌈q⌉ else ⌊q⌋) else none
  | _ => none

/-- `new Date(t).toISOString()`; it throws on an invalid date. -/
def toISOString (t : JsNumber) : Option JsString := (timeClip t).map isoText

/-! ## Reading -/

/-- A number of exactly `width` digits. -/
def takeNat (width : Nat) (s : JsString) : Option (Nat × JsString) :=
  if (s.take width).length = width ∧ (s.take width).all isDigit then some (decValue (s.take width), s.drop width)
  else none

def takeUnit (u : UInt16) : JsString → Option JsString
  | v :: rest => if v = u then some rest else none
  | [] => none

def takeYear : JsString → Option (Int × JsString)
  | 0x2B :: rest => (takeNat 6 rest).map fun p => ((p.1 : Int), p.2)
  | 0x2D :: rest => (takeNat 6 rest).map fun p => (-(p.1 : Int), p.2)
  | s => (takeNat 4 s).map fun p => ((p.1 : Int), p.2)

/-- The time that the fields of `±YYYYYY-MM-DDTHH:mm:ss.sssZ` add up to. -/
def readIso (s : JsString) : Option Int := do
  let (year, s) ← takeYear s
  let (month, s) ← takeNat 2 (← takeUnit 0x2D s)
  let (day, s) ← takeNat 2 (← takeUnit 0x2D s)
  let (hour, s) ← takeNat 2 (← takeUnit 0x54 s)
  let (minute, s) ← takeNat 2 (← takeUnit 0x3A s)
  let (second, s) ← takeNat 2 (← takeUnit 0x3A s)
  let (milli, _) ← takeNat 3 (← takeUnit 0x2E s)
  return (daysOfMonth year month + (day - 1)) * msPerDay + hour * 3600000 + minute * 60000 + second * 1000 + milli

/-- `new Date(text).getTime()`: the text of a time, or what `otherwise` makes of it. -/
def parseDate (otherwise : JsString → JsNumber) (s : JsString) : JsNumber :=
  match readIso s with
  | some t => if toISOString (.fin t) = some s then .fin t else otherwise s
  | none => otherwise s

/-! ## The text of a time comes back -/

@[simp] theorem length_padDigits (width n : Nat) : (padDigits width n).length = width := by
  induction width generalizing n with
  | zero => rfl
  | succ width ih => simp [padDigits, ih]

theorem isDigit_padDigits (width n : Nat) : ∀ u ∈ padDigits width n, isDigit u = true := by
  induction width generalizing n with
  | zero => intro u hu; cases hu
  | succ width ih =>
    intro u hu
    rcases List.mem_append.1 hu with hu | hu
    · exact ih _ u hu
    · rw [List.mem_singleton.1 hu]
      exact isDigit_digit _ (Nat.mod_lt _ (by decide))

theorem decValue_padDigits {width n : Nat} (h : n < 10 ^ width) : decValue (padDigits width n) = n := by
  induction width generalizing n with
  | zero =>
    obtain rfl : n = 0 := Nat.lt_one_iff.1 h
    rfl
  | succ width ih =>
    have hdiv : n / 10 < 10 ^ width := Nat.div_lt_of_lt_mul (by rwa [pow_succ, Nat.mul_comm] at h)
    rw [padDigits, decValue_append, ih hdiv, digit_toNat (Nat.mod_lt _ (by decide))]
    omega

theorem takeNat_padDigits {width n : Nat} (h : n < 10 ^ width) (rest : JsString) :
    takeNat width (padDigits width n ++ rest) = some (n, rest) := by
  have htake : (padDigits width n ++ rest).take width = padDigits width n := by
    rw [List.take_append_of_le_length (by simp), List.take_of_length_le (by simp)]
  have hdrop : (padDigits width n ++ rest).drop width = rest := by
    rw [List.drop_append_of_le_length (by simp), List.drop_of_length_le (by simp), List.nil_append]
  have hall : (padDigits width n).all isDigit = true := List.all_eq_true.2 (isDigit_padDigits width n)
  rw [takeNat, htake, hdrop, if_pos ⟨length_padDigits width n, hall⟩, decValue_padDigits h]

@[simp] theorem takeUnit_cons (u : UInt16) (rest : JsString) : takeUnit u (u :: rest) = some rest := if_pos rfl

theorem takeYear_yearText {year : Int} (h : year.natAbs ≤ 999999) (rest : JsString) :
    takeYear (yearText year ++ rest) = some (year, rest) := by
  unfold yearText
  split
  case isTrue hyear =>
    obtain ⟨n, rfl⟩ := Int.eq_ofNat_of_zero_le hyear.1
    have hn : n < 10 ^ 4 := by omega
    have hread := takeNat_padDigits hn rest
    rw [Int.toNat_natCast, takeYear, hread]
    · rfl
    -- four digits do not start with a sign
    all_goals
      intro s heq
      have hdigit : isDigit ((padDigits 4 n ++ rest).head?.getD 0x30) = true := by
        obtain ⟨u, us, hu⟩ := List.exists_cons_of_length_pos (l := padDigits 4 n) (by simp)
        rw [hu]
        exact isDigit_padDigits 4 n u (hu ▸ List.mem_cons_self)
      rw [heq, List.head?_cons, Option.getD_some] at hdigit
      exact absurd hdigit (by decide)
  case isFalse hyear =>
    have hyear6 : year.natAbs < 10 ^ 6 := by omega
    have hread := takeNat_padDigits hyear6 rest
    split
    case isTrue hneg =>
      rw [List.cons_append, takeYear, hread, Option.map_some, show -(year.natAbs : Int) = year by omega]
    case isFalse hneg =>
      rw [List.cons_append, takeYear, hread, Option.map_some, show (year.natAbs : Int) = year by omega]

theorem readIso_isoText {ms : Int} (h : |ms| ≤ maxDateMs) : readIso (isoText ms) = some ms := by
  unfold maxDateMs at h
  have hbounds := abs_le.1 h
  have hdate := civilOfDays_spec (ms / msPerDay)
  have hparts : ms / msPerDay * msPerDay + ms % msPerDay = ms := Int.ediv_mul_add_emod _ _
  have htime0 : 0 ≤ ms % msPerDay := Int.emod_nonneg _ (by decide)
  have htime1 : ms % msPerDay < 86400000 := Int.emod_lt_of_pos _ (by decide)
  unfold isoText
  dsimp only
  generalize civilOfDays (ms / msPerDay) = date at *
  obtain ⟨time, htime⟩ := Int.eq_ofNat_of_zero_le htime0
  rw [htime] at hparts htime1 ⊢
  have hyear : date.year.natAbs ≤ 999999 := by
    have := hdate.year
    unfold msPerDay at this
    omega
  obtain ⟨month, hmonth⟩ := Int.eq_ofNat_of_zero_le (show 0 ≤ date.month by have := hdate.month; omega)
  obtain ⟨day, hday⟩ := Int.eq_ofNat_of_zero_le (show 0 ≤ date.day by have := hdate.day; omega)
  have hmonth12 := hdate.month
  have hday31 := hdate.day
  have hnumber := hdate.number
  rw [hmonth] at hmonth12 hnumber ⊢
  rw [hday] at hday31 hnumber ⊢
  simp only [Int.toNat_natCast, List.append_assoc, List.cons_append, readIso, takeYear_yearText hyear,
    takeUnit_cons, takeNat_padDigits (show month < 10 ^ 2 by omega),
    takeNat_padDigits (show day < 10 ^ 2 by omega),
    takeNat_padDigits (show time / 3600000 < 10 ^ 2 by omega),
    takeNat_padDigits (show time / 60000 % 60 < 10 ^ 2 by omega),
    takeNat_padDigits (show time / 1000 % 60 < 10 ^ 2 by omega),
    takeNat_padDigits (show time % 1000 < 10 ^ 3 by omega), bind, Option.bind, pure, hnumber]
  have hclock : time / 3600000 * 3600000 + time / 60000 % 60 * 60000 + time / 1000 % 60 * 1000 + time % 1000 = time := by
    omega
  have hclock' : ((time / 3600000 : Nat) : Int) * 3600000 + (time / 60000 % 60 : Nat) * 60000 +
      (time / 1000 % 60 : Nat) * 1000 + (time % 1000 : Nat) = time := by exact_mod_cast hclock
  congr 1
  omega

theorem timeClip_intCast {n : Int} (h : |n| ≤ maxDateMs) : timeClip (.fin n) = some n := by
  have hcast : |(n : Rat)| ≤ maxDateMs := by exact_mod_cast h
  rw [timeClip, if_pos hcast, Int.ceil_intCast, Int.floor_intCast, ite_self]

theorem abs_le_of_timeClip {t : JsNumber} {ms : Int} (h : timeClip t = some ms) : |ms| ≤ maxDateMs := by
  unfold timeClip at h
  split at h
  · split at h
    case isTrue q hclip =>
      obtain ⟨hlow, hhigh⟩ := abs_le.1 hclip
      have hms := Option.some.inj h
      -- cutting moves a time towards zero
      split at hms
      case isTrue hneg =>
        have h1 : ⌈q⌉ ≤ 0 := Int.ceil_le.2 (by exact_mod_cast hneg.le)
        have h2 : -maxDateMs ≤ ⌈q⌉ := by exact_mod_cast hlow.trans (Int.le_ceil q)
        rw [abs_le, ← hms]
        exact ⟨h2, h1.trans (by decide)⟩
      case isFalse hneg =>
        have h1 : 0 ≤ ⌊q⌋ := Int.floor_nonneg.2 (not_lt.1 hneg)
        have h2 : ⌊q⌋ ≤ maxDateMs := by exact_mod_cast (Int.floor_le q).trans hhigh
        rw [abs_le, ← hms]
        exact ⟨le_trans (by decide) h1, h2⟩
    case isFalse => cases h
  · cases h

/-- What a time was printed as reads as that time, cut to whole milliseconds. -/
theorem parseDate_toISOString {t : JsNumber} {text : JsString} (h : toISOString t = some text)
    (otherwise : JsString → JsNumber) : ∃ ms, timeClip t = some ms ∧ parseDate otherwise text = .fin ms := by
  obtain ⟨ms, hms, rfl⟩ := Option.map_eq_some_iff.1 h
  have hbound := abs_le_of_timeClip hms
  refine ⟨ms, hms, ?_⟩
  rw [parseDate, readIso_isoText hbound]
  exact if_pos (by rw [toISOString, timeClip_intCast hbound, Option.map_some])

/-- A date is written with digits and signs, and has a `T` in the middle. -/
theorem isoText_units (ms : Int) :
    0x54 ∈ isoText ms ∧ ∀ u ∈ isoText ms, isDigit u = true ∨ u ∈ ascii "+-:.TZ" := by
  have hpad (width n : Nat) : ∀ u ∈ padDigits width n, isDigit u = true ∨ u ∈ ascii "+-:.TZ" :=
    fun u hu => .inl (isDigit_padDigits width n u hu)
  have hyear (year : Int) : ∀ u ∈ yearText year, isDigit u = true ∨ u ∈ ascii "+-:.TZ" := by
    intro u hu
    unfold yearText at hu
    split at hu
    · exact hpad _ _ u hu
    · rcases List.mem_cons.1 hu with rfl | hu
      · split <;> decide
      · exact hpad _ _ u hu
  constructor
  · simp [isoText]
  · intro u hu
    simp only [isoText, List.append_assoc, List.cons_append, List.mem_append, List.mem_cons, List.not_mem_nil,
      or_false] at hu
    rcases hu with hu | rfl | hu | rfl | hu | rfl | hu | rfl | hu | rfl | hu | rfl | hu | rfl
    all_goals first
      | exact hyear _ u hu
      | exact hpad _ _ u hu
      | decide

end Hayven.Util
