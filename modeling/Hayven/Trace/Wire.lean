import Hayven.Daemon.Traces
import Hayven.Lib.JsonWriter
/-!
# A collector's batch as the daemon checks it

The three collectors post bodies of one shape. `validate` takes such a body exactly when
its source is named, its sample rate is a positive integer, and every row has names and
two counts that fit 16 bits and agree with the rate to within one.
-/
open Hayven.Lib Hayven.Daemon

namespace Hayven.Trace

/-! ## The shape -/

structure WireRow where
  src : JsString
  dst : JsString
  ts : Json
  observed : Json
  weight : Json
  kind : JsString

def WireRow.json (row : WireRow) : Json :=
  .obj [(ascii "src", .str row.src), (ascii "dst", .str row.dst), (ascii "ts", row.ts), (ascii "observed", row.observed),
    (ascii "weight", row.weight), (ascii "kind", .str row.kind)]

structure WireCoverage where
  test : JsString
  entity : JsString
  weight : Json

def WireCoverage.json (c : WireCoverage) : Json :=
  .obj [(ascii "test", .str c.test), (ascii "entity", .str c.entity), (ascii "weight", c.weight)]

/-- The body; without coverage rows it has no field for them. -/
def wireBody (source : JsString) (sampleRate : Json) (rows : List WireRow) (coverage : List WireCoverage) : Json :=
  .obj ([(ascii "source", .str source), (ascii "sample_rate", sampleRate), (ascii "observations", .arr (rows.map WireRow.json))] ++
    if coverage = [] then [] else [(ascii "test_coverage", .arr (coverage.map WireCoverage.json))])

/-! ## Counts against the rate -/

theorem expectedWeight_eq (observed sampleRate : Nat) : expectedWeight observed sampleRate =
    if (roundNat (observed * sampleRate) : Rat) < (2 ^ 1024 : Nat) then .fin (roundNat (observed * sampleRate))
    else .posInf := by
  have hcast : (observed : Rat) * (sampleRate : Rat) = ((observed * sampleRate : Nat) : Int) := by push_cast; rfl
  have hneg : ¬ (((observed * sampleRate : Nat) : Int) : Rat) < 0 := by
    rw [not_lt]
    exact_mod_cast Nat.zero_le _
  show roundRat ((observed : Rat) * (sampleRate : Rat)) = _
  rw [hcast, roundRat_intCast, if_neg hneg, if_neg hneg, Int.natAbs_natCast]

/-- A difference of natural numbers is seen to be above one. -/
theorem abs_sub_gt_one (a b : Nat) :
    ((JsNumber.fin (a : Rat)).sub (.fin (b : Rat))).abs.gt roundingSlack = decide (1 < ((a : Int) - b).natAbs) := by
  have hcast : (a : Rat) + -(b : Rat) = (((a : Int) - b : Int) : Rat) := by push_cast; ring
  have hround : 1 < roundNat ((a : Int) - b).natAbs ↔ 1 < ((a : Int) - b).natAbs := by
    constructor
    · intro h
      by_contra hle
      rw [roundNat_of_lt (by omega)] at h
      exact hle h
    · intro h
      exact le_roundNat (by norm_num) h
  have hbig : ¬ (roundNat ((a : Int) - b).natAbs : Rat) < (2 ^ 1024 : Nat) → 1 < roundNat ((a : Int) - b).natAbs := by
    intro h
    rw [not_lt] at h
    have hle : 2 ^ 1024 ≤ roundNat ((a : Int) - b).natAbs := by exact_mod_cast h
    exact lt_of_lt_of_le (Nat.one_lt_two_pow (by norm_num)) hle
  show (roundRat ((a : Rat) + -(b : Rat))).abs.gt roundingSlack = _
  have hdecide : decide (1 < ((a : Int) - b).natAbs) = decide (1 < roundNat ((a : Int) - b).natAbs) :=
    decide_eq_decide.2 hround.symm
  rw [hcast, roundRat_intCast, hdecide]
  split
  · rw [JsNumber.abs, JsNumber.gt_fin]
    apply decide_eq_decide.2
    have habs : |if (((a : Int) - b : Int) : Rat) < 0 then -(roundNat ((a : Int) - b).natAbs : Rat)
        else roundNat ((a : Int) - b).natAbs| = roundNat ((a : Int) - b).natAbs := by
      split <;> simp
    rw [habs, roundingSlack, Int.cast_one]
    exact_mod_cast Iff.rfl
  · next h =>
    rw [decide_eq_true (hbig h)]
    split <;> rfl

theorem weightMismatch_eq_false {weight observed sampleRate : Nat} (hw : weight ≤ uint16Max) :
    weightMismatch weight observed sampleRate = false ↔
      weight ≤ observed * sampleRate + 1 ∧ observed * sampleRate ≤ weight + 1 := by
  have hmax : uint16Max = 65535 := rfl
  unfold weightMismatch
  rw [expectedWeight_eq]
  by_cases hsmall : observed * sampleRate < 2 ^ 53
  · have hfits : ((observed * sampleRate : Nat) : Rat) < (2 ^ 1024 : Nat) := by
      have hlt : observed * sampleRate < 2 ^ 1024 := hsmall.trans (by decide +kernel)
      exact_mod_cast hlt
    rw [roundNat_of_lt hsmall, if_pos hfits]
    have hgt := abs_sub_gt_one weight (observed * sampleRate)
    show ((JsNumber.fin (weight : Rat)).sub (.fin ((observed * sampleRate : Nat) : Rat))).abs.gt roundingSlack = false ↔ _
    rw [hgt, decide_eq_false_iff_not]
    omega
  · have hround := le_roundNat_of_le (Nat.le_of_not_lt hsmall)
    refine iff_of_false ?_ (by omega)
    rw [Bool.not_eq_false]
    split
    · have hgt := abs_sub_gt_one weight (roundNat (observed * sampleRate))
      show ((JsNumber.fin (weight : Rat)).sub (.fin ((roundNat (observed * sampleRate) : Nat) : Rat))).abs.gt roundingSlack = true
      rw [hgt, decide_eq_true_eq]
      omega
    · rfl

/-! ## A row -/

/-- `Number(x)` of what a collector writes for a number. -/
def numberValue : Json → JsNumber
  | .num n => n
  | .null => .fin 0
  | _ => .nan

/-- A number, or what is left of one that is not finite. -/
def Numeric (j : Json) : Prop := j = .null ∨ ∃ n, j = .num n

theorem Numeric.toNumber {j : Json} (h : Numeric j) (rt : NumberText) : j.toNumber rt = some (numberValue j) := by
  rcases h with rfl | ⟨n, rfl⟩ <;> rfl

structure WireRow.Numeric (row : WireRow) : Prop where
  ts : Trace.Numeric row.ts
  observed : Trace.Numeric row.observed
  weight : Trace.Numeric row.weight

/-- The row is what the daemon asks for. -/
structure WireRow.Fits (row : WireRow) (sampleRate : Nat) : Prop where
  src : row.src ≠ []
  dst : row.dst ≠ []
  ts : ∃ t, numberValue row.ts = .fin t
  counts : ∃ o w : Nat, numberValue row.observed = .fin o ∧ numberValue row.weight = .fin w ∧ o ≤ uint16Max ∧
    w ≤ uint16Max ∧ w ≤ o * sampleRate + 1 ∧ o * sampleRate ≤ w + 1

section Row
variable {rt : NumberText} {row : WireRow} {source : JsString} {sampleRate i : Nat}

theorem validEnd_ok {name : String} {o : Json} {s : JsString} (h : o.field name = some (.str s)) (hne : s ≠ []) :
    validEnd i name o = .ok s := by
  unfold validEnd
  rw [h]
  cases s with
  | nil => exact absurd rfl hne
  | cons u rest => rfl

theorem validEnd_empty {name : String} {o : Json} (h : o.field name = some (.str [])) :
    ∃ e, validEnd i name o = .error e := by
  unfold validEnd
  rw [h]
  exact ⟨_, rfl⟩

theorem numberOf_eq {name : String} {o j : Json} {n : JsNumber} (h : o.field name = some j)
    (hn : j.toNumber rt = some n) : numberOf rt name o = .ok n := by
  unfold numberOf
  rw [h]
  dsimp only
  rw [hn]

theorem validCount_ok_iff {name : String} {o j : Json} {n : JsNumber} (h : o.field name = some j)
    (hn : j.toNumber rt = some n) {c : { count : Nat // count ≤ uint16Max }} :
    validCount rt i name o = .ok c ↔ n = .fin c.1 := by
  obtain ⟨c, hc⟩ := c
  unfold validCount
  rw [numberOf_eq h hn]
  simp only [bind, Except.bind]
  rw [← JsNumber.natValue_eq_some]
  cases hv : n.natValue with
  | none => simp [throw, throwThe, MonadExceptOf.throw]
  | some k =>
    dsimp only
    split
    · simp [pure, Except.pure]
    · next hk =>
      simp only [throw, throwThe, MonadExceptOf.throw, reduceCtorEq, Option.some.injEq, false_iff]
      rintro rfl
      exact hk hc

theorem validTs_ok_iff {o j : Json} {n : JsNumber} (h : o.field "ts" = some j) (hn : j.toNumber rt = some n) {t : Rat} :
    validTs rt i o = .ok t ↔ n = .fin t := by
  unfold validTs
  rw [numberOf_eq h hn]
  simp only [bind, Except.bind]
  cases n <;> simp [pure, Except.pure, throw, throwThe, MonadExceptOf.throw]

/-- The check of one row. -/
theorem validObservation_isOk (h : row.Numeric) :
    (∃ r, validObservation rt source sampleRate i row.json = .ok r) ↔ row.Fits sampleRate := by
  have hts := h.ts.toNumber rt
  have hobserved := h.observed.toNumber rt
  have hweight := h.weight.toNumber rt
  have hsrc : row.json.field "src" = some (.str row.src) := rfl
  have hdst : row.json.field "dst" = some (.str row.dst) := rfl
  have htsField : row.json.field "ts" = some row.ts := rfl
  have hobservedField : row.json.field "observed" = some row.observed := rfl
  have hweightField : row.json.field "weight" = some row.weight := rfl
  have hobject : row.json.isObject = true := rfl
  constructor
  · rintro ⟨r, h⟩
    unfold validObservation at h
    simp only [hobject, Bool.not_true, Bool.false_eq_true, if_false, bind, Except.bind, pure, Except.pure] at h
    have hsrcNe : row.src ≠ [] := by
      intro hnil
      obtain ⟨e, he⟩ := validEnd_empty (i := i) (hnil ▸ hsrc)
      rw [he] at h
      cases h
    rw [validEnd_ok hsrc hsrcNe] at h
    have hdstNe : row.dst ≠ [] := by
      intro hnil
      obtain ⟨e, he⟩ := validEnd_empty (i := i) (hnil ▸ hdst)
      rw [he] at h
      cases h
    rw [validEnd_ok hdst hdstNe] at h
    cases htsOk : validTs rt i row.json with
    | error e => rw [htsOk] at h; cases h
    | ok t =>
      cases hobservedOk : validCount rt i "observed" row.json with
      | error e => rw [htsOk, hobservedOk] at h; cases h
      | ok o =>
        cases hweightOk : validCount rt i "weight" row.json with
        | error e => rw [htsOk, hobservedOk, hweightOk] at h; cases h
        | ok w =>
          rw [htsOk, hobservedOk, hweightOk] at h
          dsimp only at h
          split at h
          · cases h
          next hagree =>
            rw [Bool.not_eq_true, weightMismatch_eq_false w.2] at hagree
            exact ⟨hsrcNe, hdstNe, ⟨t, (validTs_ok_iff htsField hts).1 htsOk⟩, o.1, w.1,
              (validCount_ok_iff hobservedField hobserved).1 hobservedOk,
              (validCount_ok_iff hweightField hweight).1 hweightOk, o.2, w.2, hagree⟩
  · rintro ⟨hsrcNe, hdstNe, ⟨t, ht⟩, o, w, ho, hw, hoMax, hwMax, hagree⟩
    have htsOk := (validTs_ok_iff (i := i) htsField hts).2 ht
    have hobservedOk := (validCount_ok_iff (i := i) (c := ⟨o, hoMax⟩) hobservedField hobserved).2 ho
    have hweightOk := (validCount_ok_iff (i := i) (c := ⟨w, hwMax⟩) hweightField hweight).2 hw
    have hmatch : weightMismatch w o sampleRate = false := (weightMismatch_eq_false hwMax).2 hagree
    unfold validObservation
    simp only [hobject, Bool.not_true, Bool.false_eq_true, if_false, bind, Except.bind, pure, Except.pure,
      validEnd_ok hsrc hsrcNe, validEnd_ok hdst hdstNe, htsOk, hobservedOk, hweightOk, hmatch]
    exact ⟨_, rfl⟩

/-- A row that passes keeps its names. -/
theorem validObservation_names {r : ObservationRow} (h : validObservation rt source sampleRate i row.json = .ok r) :
    (r.src, r.dst) = (row.src, row.dst) := by
  have hsrc : row.json.field "src" = some (.str row.src) := rfl
  have hdst : row.json.field "dst" = some (.str row.dst) := rfl
  have hobject : row.json.isObject = true := rfl
  unfold validObservation at h
  simp only [hobject, Bool.not_true, Bool.false_eq_true, if_false, bind, Except.bind, pure, Except.pure] at h
  by_cases hsrcNil : row.src = []
  · obtain ⟨e, he⟩ := validEnd_empty (i := i) (hsrcNil ▸ hsrc)
    rw [he] at h
    cases h
  by_cases hdstNil : row.dst = []
  · obtain ⟨e, he⟩ := validEnd_empty (i := i) (hdstNil ▸ hdst)
    rw [validEnd_ok hsrc hsrcNil, he] at h
    cases h
  rw [validEnd_ok hsrc hsrcNil, validEnd_ok hdst hdstNil] at h
  dsimp only at h
  split at h
  · cases h
  split at h
  · cases h
  split at h
  · cases h
  split at h
  · cases h
  cases h
  rfl

end Row

/-! ## A body -/

section Body
variable {rt : NumberText} {source : JsString} {rows : List WireRow} {coverage : List WireCoverage}

theorem validObservations_isOk {sampleRate : Nat} (i : Nat) (h : ∀ row ∈ rows, row.Numeric) :
    (∃ rs, validObservations rt source sampleRate i (rows.map WireRow.json) = .ok rs) ↔
      ∀ row ∈ rows, row.Fits sampleRate := by
  induction rows generalizing i with
  | nil => simp [validObservations]
  | cons row rest ih =>
    have hrest := ih (i + 1) fun r hr => h r (List.mem_cons_of_mem _ hr)
    have hrow : (∃ r, validObservation rt source sampleRate i row.json = .ok r) ↔ row.Fits sampleRate :=
      validObservation_isOk (h row List.mem_cons_self)
    rw [List.forall_mem_cons, ← hrow, ← hrest, List.map_cons, validObservations]
    simp only [bind, Except.bind]
    cases validObservation rt source sampleRate i row.json with
    | error e => simp
    | ok r =>
      cases validObservations rt source sampleRate (i + 1) (rest.map WireRow.json) with
      | error e => simp
      | ok rs => simp [pure, Except.pure]

theorem validObservations_names {sampleRate i : Nat} {rs : List ObservationRow}
    (h : validObservations rt source sampleRate i (rows.map WireRow.json) = .ok rs) :
    rs.map (fun r => (r.src, r.dst)) = rows.map fun row => (row.src, row.dst) := by
  induction rows generalizing i rs with
  | nil =>
    cases h
    rfl
  | cons row rest ih =>
    rw [List.map_cons, validObservations] at h
    simp only [bind, Except.bind] at h
    split at h
    · cases h
    next r hr =>
      split at h
      · cases h
      next more hmore =>
        cases h
        rw [List.map_cons, List.map_cons, validObservation_names hr, ih hmore]

/-- Coverage rows reject nothing. -/
theorem coverageRows_ok (h : ∀ c ∈ coverage, Numeric c.weight) :
    ∃ cs, coverageRows rt source (coverage.map WireCoverage.json) = .ok cs := by
  induction coverage with
  | nil => exact ⟨[], rfl⟩
  | cons c rest ih =>
    obtain ⟨cs, hcs⟩ := ih fun d hd => h d (List.mem_cons_of_mem _ hd)
    have hweight : c.json.field "weight" = some c.weight := rfl
    have hobject : c.json.isObject = true := rfl
    have hrow : ∃ r, coverageRow rt source c.json = .ok r := by
      unfold coverageRow
      simp only [hobject, Bool.not_true, Bool.false_eq_true, if_false, bind, Except.bind, pure, Except.pure]
      split
      · exact ⟨none, rfl⟩
      · rw [hweight, Option.isNone_some, if_neg (by decide), numberOf_eq hweight ((h c List.mem_cons_self).toNumber rt)]
        exact ⟨_, rfl⟩
    obtain ⟨r, hr⟩ := hrow
    rw [List.map_cons, coverageRows]
    simp only [bind, Except.bind, hr, hcs]
    exact ⟨_, rfl⟩

/-- What the daemon asks of a body, rows and all. -/
def BodyFits (source : JsString) (sampleRate : Json) (rows : List WireRow) : Prop :=
  source ≠ [] ∧ ∃ rate : Nat, numberValue sampleRate = .fin ((rate + 1 : Nat)) ∧ ∀ row ∈ rows, row.Fits (rate + 1)

theorem bodyFits_iff {sampleRate : Json} {rate : Nat} (h : numberValue sampleRate = .fin rate) (hpos : 1 ≤ rate) :
    BodyFits source sampleRate rows ↔ source ≠ [] ∧ ∀ row ∈ rows, row.Fits rate := by
  apply and_congr_right
  intro _
  constructor
  · rintro ⟨r, hr, hfits⟩
    have hcast := JsNumber.fin.inj (h.symm.trans hr)
    have heq : rate = r + 1 := by exact_mod_cast hcast
    exact heq ▸ hfits
  · intro hfits
    refine ⟨rate - 1, ?_, ?_⟩
    · rw [Nat.sub_add_cancel hpos, h]
    · rwa [Nat.sub_add_cancel hpos]

theorem validate_wireBody {sampleRate : Json} (hrate : Numeric sampleRate) (hrows : ∀ row ∈ rows, row.Numeric)
    (hcoverage : ∀ c ∈ coverage, Numeric c.weight) :
    ((∃ p, validate rt (some (wireBody source sampleRate rows coverage)) = .ok p) ↔ BodyFits source sampleRate rows) ∧
      ∀ p, validate rt (some (wireBody source sampleRate rows coverage)) = .ok p →
        p.rows.map (fun r => (r.src, r.dst)) = rows.map fun row => (row.src, row.dst) := by
  have hobject : (wireBody source sampleRate rows coverage).isObject = true := rfl
  have hsourceField : (wireBody source sampleRate rows coverage).field "source" = some (.str source) := by
    unfold wireBody
    split <;> rfl
  have hrateField : (wireBody source sampleRate rows coverage).field "sample_rate" = some sampleRate := by
    unfold wireBody
    split <;> rfl
  have hobservations : (wireBody source sampleRate rows coverage).field "observations" =
      some (.arr (rows.map WireRow.json)) := by
    unfold wireBody
    split <;> rfl
  have hcoverageField : (wireBody source sampleRate rows coverage).field "test_coverage" =
      if coverage = [] then none else some (.arr (coverage.map WireCoverage.json)) := by
    unfold wireBody
    split <;> rfl
  have hrateNumber := numberOf_eq hrateField (hrate.toNumber rt)
  unfold BodyFits
  simp only [validate, hobject, Bool.not_true, Bool.false_eq_true, if_false, bind, Except.bind, pure, Except.pure]
  cases hs : source with
  | nil =>
    subst hs
    simp [validSource, hsourceField]
  | cons u more =>
    subst hs
    have hsourceOk : validSource (wireBody (u :: more) sampleRate rows coverage) = .ok (u :: more) := by
      rw [validSource, hsourceField]
    rw [hsourceOk]
    dsimp only
    by_cases hpos : ∃ rate : Nat, numberValue sampleRate = .fin ((rate + 1 : Nat))
    · obtain ⟨rate, hr⟩ := hpos
      have hrateOk : validSampleRate rt (wireBody (u :: more) sampleRate rows coverage) = .ok (rate + 1) := by
        rw [validSampleRate, hrateNumber]
        simp only [bind, Except.bind, JsNumber.natValue_eq_some.2 hr]
        rfl
      rw [hrateOk, hobservations, hcoverageField]
      dsimp only
      have hrowsOk : (∃ rs, validObservations rt (u :: more) (rate + 1) 0 (rows.map WireRow.json) = .ok rs) ↔
          ∀ row ∈ rows, row.Fits (rate + 1) := validObservations_isOk 0 hrows
      have hrate' : ∀ rate' : Nat, numberValue sampleRate = .fin ((rate' + 1 : Nat)) → rate' = rate := by
        intro rate' h
        have heq := JsNumber.fin.inj (h.symm.trans hr)
        have hnat : rate' + 1 = rate + 1 := by exact_mod_cast heq
        omega
      have hfits : (u :: more ≠ [] ∧ ∃ rate' : Nat, numberValue sampleRate = .fin ((rate' + 1 : Nat)) ∧
          ∀ row ∈ rows, row.Fits (rate' + 1)) ↔ ∀ row ∈ rows, row.Fits (rate + 1) := by
        constructor
        · rintro ⟨-, rate', h, hall⟩
          exact hrate' rate' h ▸ hall
        · intro hall
          exact ⟨List.cons_ne_nil u more, rate, hr, hall⟩
      rw [hfits, ← hrowsOk]
      cases hobs : validObservations rt (u :: more) (rate + 1) 0 (rows.map WireRow.json) with
      | error e => simp
      | ok rs =>
        have hnames := validObservations_names hobs
        obtain ⟨cs, hcs⟩ : ∃ cs, coverageRows rt (u :: more) (coverage.map WireCoverage.json) = .ok cs :=
          coverageRows_ok hcoverage
        by_cases hc : coverage = []
        · simp [hc, hnames]
        · simp [hc, hcs, hnames]
    · have hrateBad : ∃ e, validSampleRate rt (wireBody (u :: more) sampleRate rows coverage) = .error e := by
        rw [validSampleRate, hrateNumber]
        simp only [bind, Except.bind]
        cases hv : (numberValue sampleRate).natValue with
        | none => exact ⟨_, rfl⟩
        | some k =>
          cases k with
          | zero => exact ⟨_, rfl⟩
          | succ k => exact absurd ⟨k, JsNumber.natValue_eq_some.1 hv⟩ hpos
      obtain ⟨e, he⟩ := hrateBad
      rw [he]
      refine ⟨iff_of_false (by simp) ?_, by simp⟩
      rintro ⟨-, rate, hr, -⟩
      exact hpos ⟨rate, hr⟩

end Body

/-! ## Integer counts -/

/-- Two integers, rounded, are the counts of a row exactly if their exact product with the rate is in
range; the second is that product unless it overflowed. -/
theorem counts_fit_iff {observed weight : Int} {rate : Nat} (hrate : 1 ≤ rate)
    (hweight : 0 ≤ observed → observed * rate < 2 ^ 63 → weight = observed * rate) :
    (∃ o w : Nat, roundRat observed = .fin o ∧ roundRat weight = .fin w ∧ o ≤ uint16Max ∧ w ≤ uint16Max ∧
      w ≤ o * roundNat rate + 1 ∧ o * roundNat rate ≤ w + 1) ↔ 0 ≤ observed ∧ observed * rate ≤ uint16Max := by
  have hmax : uint16Max = 65535 := rfl
  rw [hmax]
  constructor
  · rintro ⟨o, w, ho, hw, hoMax, hwMax, -, hagree⟩
    obtain rfl := (roundRat_eq_fin_iff (by omega)).1 ho
    obtain rfl := (roundRat_eq_fin_iff (by omega)).1 hw
    refine ⟨by omega, ?_⟩
    by_cases h0 : o = 0
    · subst h0
      simp
    · -- a rate that is not read exactly is far too large
      have hsmall : rate ≤ 65536 := by
        by_contra hbig
        have hround : 65537 ≤ roundNat rate := le_roundNat (by norm_num) (by omega)
        have hmul : 65537 ≤ o * roundNat rate := le_trans hround (Nat.le_mul_of_pos_left _ (by omega))
        omega
      rw [roundNat_of_lt (by omega)] at hagree
      have hfits : ((o : Int)) * rate < 2 ^ 63 := by
        have hmul : o * rate ≤ 65536 := by omega
        have hcast : ((o * rate : Nat) : Int) ≤ 65536 := by exact_mod_cast hmul
        push_cast at hcast
        omega
      have hexact := hweight (by omega) hfits
      omega
  · rintro ⟨hpos, hle⟩
    obtain ⟨o, rfl⟩ := Int.eq_ofNat_of_zero_le hpos
    have hmul : o * rate ≤ 65535 := by exact_mod_cast hle
    have hexact : weight = ((o * rate : Nat) : Int) := by
      rw [hweight hpos (by omega)]
      push_cast
      rfl
    have hoMax : o ≤ 65535 := le_trans (Nat.le_mul_of_pos_right o hrate) hmul
    have hround : o * roundNat rate = o * rate := by
      by_cases h0 : o = 0
      · rw [h0, Nat.zero_mul, Nat.zero_mul]
      · have hrateLe : rate ≤ 65535 := le_trans (Nat.le_mul_of_pos_left rate (by omega)) hmul
        rw [roundNat_of_lt (by omega)]
    refine ⟨o, o * rate, roundRat_of_lt (by omega), ?_, hoMax, hmul, ?_, ?_⟩
    · rw [hexact]
      exact roundRat_of_lt (by omega)
    · omega
    · omega

/-- A machine integer above zero is read as a positive integer. -/
theorem numberValue_rate {rate : Nat} (hrate : 1 ≤ rate) (hmax : rate < 2 ^ 64) :
    numberValue (.num (roundRat ((rate : Int) : Rat))) = .fin (roundNat rate : Nat) ∧ 1 ≤ roundNat rate := by
  have hneg : ¬ (((rate : Int)) : Rat) < 0 := by
    rw [not_lt]
    exact_mod_cast Nat.zero_le rate
  refine ⟨?_, le_roundNat (by norm_num) hrate⟩
  show roundRat ((rate : Int) : Rat) = _
  rw [roundRat_natAbs (by simpa using hmax), if_neg hneg, Int.natAbs_natCast]

/-! ## The law -/

/-- What the daemon makes of a posted body. -/
def readBatch (rt : NumberText) (body : Bytes) : Except TracesError TracesPayload :=
  validate rt (parseJson (textDecode body))

/-- Every posted body is accepted, and the edges the daemon reads are the edges recorded. -/
structure Delivers {ν : Type} (rt : NumberText) (name : JsString → ν) (bodies : List Bytes) (recorded : List (ν × ν)) :
    Prop where
  accepted : ∀ body ∈ bodies, ∃ p, readBatch rt body = .ok p
  names : ∀ edge, edge ∈ recorded ↔
    ∃ body ∈ bodies, ∃ p, readBatch rt body = .ok p ∧ ∃ r ∈ p.rows, edge = (name r.src, name r.dst)

theorem delivers_nil {ν : Type} (rt : NumberText) (name : JsString → ν) : Delivers rt name [] [] :=
  ⟨fun _ h => absurd h List.not_mem_nil, fun _ => ⟨fun h => absurd h List.not_mem_nil, fun ⟨_, h, _⟩ => absurd h List.not_mem_nil⟩⟩

/-- Bodies that are read as wire bodies. -/
theorem delivers_parts {ι ν : Type} {rt : NumberText} {name : JsString → ν} {parts : List ι} {body : ι → Bytes}
    {recorded : List (ν × ν)} {source : JsString} {sampleRate : Json} {rows : ι → List WireRow}
    {coverage : ι → List WireCoverage}
    (hparse : ∀ i ∈ parts, parseJson (textDecode (body i)) = some (wireBody source sampleRate (rows i) (coverage i)))
    (hrate : Numeric sampleRate) (hrows : ∀ i ∈ parts, ∀ row ∈ rows i, row.Numeric)
    (hcoverage : ∀ i ∈ parts, ∀ c ∈ coverage i, Numeric c.weight) :
    Delivers rt name (parts.map body) recorded ↔ (∀ i ∈ parts, BodyFits source sampleRate (rows i)) ∧
      ∀ edge, edge ∈ recorded ↔ ∃ row ∈ parts.flatMap rows, edge = (name row.src, name row.dst) := by
  have hread : ∀ i ∈ parts, readBatch rt (body i) = validate rt (some (wireBody source sampleRate (rows i) (coverage i))) :=
    fun i hi => by rw [readBatch, hparse i hi]
  have hok : ∀ i ∈ parts, (∃ p, readBatch rt (body i) = .ok p) ↔ BodyFits source sampleRate (rows i) := by
    intro i hi
    rw [hread i hi]
    exact (validate_wireBody hrate (hrows i hi) (hcoverage i hi)).1
  have hedges : ∀ i ∈ parts, ∀ p, readBatch rt (body i) = .ok p → ∀ edge,
      (∃ r ∈ p.rows, edge = (name r.src, name r.dst)) ↔ ∃ row ∈ rows i, edge = (name row.src, name row.dst) := by
    intro i hi p hp edge
    have hmap := (validate_wireBody hrate (hrows i hi) (hcoverage i hi)).2 p (hread i hi ▸ hp)
    have hpull : ∀ e : JsString × JsString, (∃ r ∈ p.rows, e = (r.src, r.dst)) ↔ ∃ row ∈ rows i, e = (row.src, row.dst) := by
      intro e
      have hmem : e ∈ p.rows.map (fun r => (r.src, r.dst)) ↔ e ∈ (rows i).map fun row => (row.src, row.dst) := by
        rw [hmap]
      simpa only [List.mem_map, eq_comm] using hmem
    constructor
    · rintro ⟨r, hr, rfl⟩
      obtain ⟨row, hrow, heq⟩ := (hpull (r.src, r.dst)).1 ⟨r, hr, rfl⟩
      exact ⟨row, hrow, by rw [(Prod.mk.inj heq).1, (Prod.mk.inj heq).2]⟩
    · rintro ⟨row, hrow, rfl⟩
      obtain ⟨r, hr, heq⟩ := (hpull (row.src, row.dst)).2 ⟨row, hrow, rfl⟩
      exact ⟨r, hr, by rw [(Prod.mk.inj heq).1, (Prod.mk.inj heq).2]⟩
  have haccepted : (∀ b ∈ parts.map body, ∃ p, readBatch rt b = .ok p) ↔ ∀ i ∈ parts, BodyFits source sampleRate (rows i) := by
    rw [List.forall_mem_map]
    exact forall₂_congr fun i hi => hok i hi
  -- once every body is accepted, what is read is what the bodies hold
  have hnames : (∀ i ∈ parts, BodyFits source sampleRate (rows i)) → ∀ edge,
      (∃ b ∈ parts.map body, ∃ p, readBatch rt b = .ok p ∧ ∃ r ∈ p.rows, edge = (name r.src, name r.dst)) ↔
        ∃ row ∈ parts.flatMap rows, edge = (name row.src, name row.dst) := by
    intro hfits edge
    constructor
    · rintro ⟨b, hb, p, hp, hr⟩
      obtain ⟨i, hi, rfl⟩ := List.mem_map.1 hb
      obtain ⟨row, hrow, heq⟩ := (hedges i hi p hp edge).1 hr
      exact ⟨row, List.mem_flatMap.2 ⟨i, hi, hrow⟩, heq⟩
    · rintro ⟨row, hrow, heq⟩
      obtain ⟨i, hi, hrow⟩ := List.mem_flatMap.1 hrow
      obtain ⟨p, hp⟩ := (hok i hi).2 (hfits i hi)
      exact ⟨body i, List.mem_map_of_mem hi, p, hp, (hedges i hi p hp edge).2 ⟨row, hrow, heq⟩⟩
  constructor
  · rintro ⟨hall, hrecorded⟩
    have hfits := haccepted.1 hall
    exact ⟨hfits, fun edge => (hrecorded edge).trans (hnames hfits edge)⟩
  · rintro ⟨hfits, hrecorded⟩
    exact ⟨haccepted.2 hfits, fun edge => (hrecorded edge).trans (hnames hfits edge).symm⟩

/-- One body. -/
theorem delivers_one {ν : Type} {rt : NumberText} {name : JsString → ν} {body : Bytes} {recorded : List (ν × ν)}
    {source : JsString} {sampleRate : Json} {rows : List WireRow} {coverage : List WireCoverage}
    (hparse : parseJson (textDecode body) = some (wireBody source sampleRate rows coverage)) (hrate : Numeric sampleRate)
    (hrows : ∀ row ∈ rows, row.Numeric) (hcoverage : ∀ c ∈ coverage, Numeric c.weight) :
    Delivers rt name [body] recorded ↔ BodyFits source sampleRate rows ∧
      ∀ edge, edge ∈ recorded ↔ ∃ row ∈ rows, edge = (name row.src, name row.dst) := by
  have hparts : Delivers rt name ([()].map fun _ => body) recorded ↔ _ :=
    delivers_parts (fun _ _ => hparse) hrate (fun _ _ => hrows) (fun _ _ => hcoverage)
  simpa using hparts

/-- What an aggregator holds: an entry for each key that was added by a call it admits. -/
theorem mem_keys_foldl {σ α κ β : Type} [DecidableEq κ] (step : σ → α → σ) (counts : σ → KeyedMap κ β) (key : α → κ)
    (admits : α → Prop) (hset : ∀ s a, admits a → ∃ v, counts (step s a) = (counts s).set (key a) v)
    (hsame : ∀ s a, ¬ admits a → counts (step s a) = counts s) (l : List α) (s : σ) (k : κ) :
    (∃ v, (counts (l.foldl step s)).get k = some v) ↔
      (∃ v, (counts s).get k = some v) ∨ ∃ a ∈ l, admits a ∧ key a = k := by
  induction l generalizing s with
  | nil => simp
  | cons a rest ih =>
    rw [List.foldl_cons, ih, List.exists_mem_cons_iff]
    by_cases ha : admits a
    · obtain ⟨v, hv⟩ := hset s a ha
      rw [hv]
      by_cases hk : key a = k
      · simp [ha, hk]
      · simp [KeyedMap.get_set, hk]
    · simp [hsame s a ha, ha]

end Hayven.Trace
