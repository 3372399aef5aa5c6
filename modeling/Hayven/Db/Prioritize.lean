import Mathlib.Algebra.BigOperators.Group.List.Basic
import Mathlib.Algebra.Order.Ring.Rat
import Mathlib.Tactic.Linarith
import Hayven.Lib.Bytes
import Hayven.Lib.JsNumber
import Hayven.Lib.Ordering
/-!
# Prioritising tests

`db/test_prioritization.ts`, scores and durations being exact rationals. The comparator
falls from the score to the duration where two scores are close, and closeness is not
transitive: `wellOrdered_iff` says when the order is well defined all the same.
-/
open Hayven.Lib

namespace Hayven.Db

/-! ## Scores -/

inductive TestEvidence where
  | trace | static
deriving DecidableEq

/-- The times are finite; the other numbers may be any that the graph holds. -/
structure PrioritizableTest where
  id : JsString
  evidence : TestEvidence
  depth : JsNumber
  weight : JsNumber
  lastFailedAt : Option Rat := none
  lastDurationMs : Option JsNumber := none
deriving DecidableEq

structure PrioritizeOpts where
  now : Option Rat := none
  failureHalfLifeMs : Option Rat := none

structure PrioritizedTest extends PrioritizableTest where
  score : Rat
deriving DecidableEq

def defaultFailureHalfLifeMs : Rat := 7 * 24 * 60 * 60 * 1000

def wRecency : Rat := 1
def wProximity : Rat := 3 / 5
def wIntensity : Rat := 2 / 5

def intensitySaturationK : Rat := 4

def scoreEpsilon : Rat := 1 / 10 ^ 9

def noKnownDurationFallback : Rat := 0

def evidenceRank : TestEvidence → Nat
  | .trace => 0
  | .static => 1

/-- `Math.pow(2, …)` is `pow2`. A failure in the future counts as one right now. -/
def recencyBoost (pow2 : Rat → Rat) (t : PrioritizableTest) (now : Option Rat) (halfLifeMs : Rat) : Rat :=
  match now, t.lastFailedAt with
  | some now, some failed => pow2 (-max 0 (now - failed) / halfLifeMs)
  | _, _ => 0

/-- A number that is finite and positive. -/
def positive : JsNumber → Option Rat
  | .fin q => if 0 < q then some q else none
  | _ => none

def scoreOf (pow2 : Rat → Rat) (now : Option Rat) (halfLifeMs : Rat) (t : PrioritizableTest) : Rat :=
  let recency := recencyBoost pow2 t now halfLifeMs
  let proximity := (positive t.depth).elim 0 (1 / ·)
  let w := (positive t.weight).getD 0
  let intensity := w / (w + intensitySaturationK)
  wRecency * recency + wProximity * proximity + wIntensity * intensity

def PrioritizeOpts.halfLife (opts : PrioritizeOpts) : Rat :=
  match opts.failureHalfLifeMs with
  | some h => if 0 < h then h else defaultFailureHalfLifeMs
  | none => defaultFailureHalfLifeMs

/-! ## The order -/

/-- The duration of a test, if it is known. -/
def PrioritizableTest.knownDuration (t : PrioritizableTest) : Option Rat :=
  match t.lastDurationMs with
  | some (.fin q) => some q
  | _ => none

def averageKnownDuration (tests : List PrioritizableTest) : Rat :=
  let known := tests.filterMap (·.knownDuration)
  if known.length = 0 then noKnownDurationFallback else known.sum / known.length

def durationFor (t : PrioritizableTest) (avgUnknown : Rat) : Rat := t.knownDuration.getD avgUnknown

/-- The cheaper test first, then by id. -/
def cheaper (avgUnknown : Rat) (a b : PrioritizedTest) : Ordering :=
  (compare (durationFor a.toPrioritizableTest avgUnknown) (durationFor b.toPrioritizableTest avgUnknown)).then
    (compare a.id b.id)

/-- The scores are further apart than the epsilon. -/
def ScoresDiffer (a b : PrioritizedTest) : Prop := scoreEpsilon < |b.score - a.score|

instance (a b : PrioritizedTest) : Decidable (ScoresDiffer a b) := inferInstanceAs (Decidable (_ < _))

def compareTests (avgUnknown : Rat) (a b : PrioritizedTest) : Ordering :=
  (compare (evidenceRank a.evidence) (evidenceRank b.evidence)).then
    (if ScoresDiffer a b then compare b.score a.score else cheaper avgUnknown a b)

/-- `prioritize` with any assignment of scores. -/
def prioritizeBy (score : PrioritizableTest → Rat) (tests : List PrioritizableTest) : List PrioritizedTest :=
  sortWith (compareTests (averageKnownDuration tests)) (tests.map fun t => ⟨t, score t⟩)

def prioritize (pow2 : Rat → Rat) (tests : List PrioritizableTest) (opts : PrioritizeOpts) : List PrioritizedTest :=
  prioritizeBy (scoreOf pow2 opts.now opts.halfLife) tests

/-! ## When the order is well defined -/

section Comparing
variable {avg : Rat} {a b c : PrioritizedTest}

theorem cheaper_eq (avg : Rat) :
    cheaper avg = compareLex (compareOn fun t : PrioritizedTest => durationFor t.toPrioritizableTest avg)
      (compareOn fun t : PrioritizedTest => t.id) := by
  funext a b
  rfl

instance (avg : Rat) : Std.TransCmp (cheaper avg) := cheaper_eq avg ▸ inferInstance

theorem id_eq_of_cheaper_eq (h : cheaper avg a b = .eq) : a.id = b.id := by
  rw [cheaper, Ordering.then_eq_eq] at h
  exact Std.LawfulEqCmp.eq_of_compare h.2

theorem scoresDiffer_comm : ScoresDiffer a b ↔ ScoresDiffer b a := by
  rw [ScoresDiffer, ScoresDiffer, abs_sub_comm]

/-- Within an evidence class the scores decide where they differ, and the cost elsewhere. -/
theorem compareTests_same (he : a.evidence = b.evidence) :
    compareTests avg a b = if ScoresDiffer a b then compare b.score a.score else cheaper avg a b := by
  rw [compareTests, he, compare_eq_iff_eq.2 rfl]
  rfl

/-- Before, within an evidence class: a score higher by more than the epsilon, or a
close one and a lower cost. -/
theorem compareTests_lt (he : a.evidence = b.evidence) :
    compareTests avg a b = .lt ↔
      scoreEpsilon < a.score - b.score ∨ (¬ ScoresDiffer a b ∧ cheaper avg a b = .lt) := by
  rw [compareTests_same he]
  by_cases hd : ScoresDiffer a b
  · rw [if_pos hd, compare_lt_iff_lt]
    unfold ScoresDiffer at hd
    have heps : 0 < scoreEpsilon := by decide +kernel
    constructor
    · intro hlt
      left
      rwa [abs_of_neg (by linarith), neg_sub] at hd
    · rintro (hlt | ⟨hnot, -⟩)
      · linarith
      · exact absurd hd hnot
  · rw [if_neg hd]
    constructor
    · intro hlt
      exact .inr ⟨hd, hlt⟩
    · rintro (hlt | ⟨-, hlt⟩)
      · refine absurd ?_ hd
        rw [ScoresDiffer, abs_sub_comm]
        exact lt_of_lt_of_le hlt (le_abs_self _)
      · exact hlt

theorem compareTests_swap (a b : PrioritizedTest) : compareTests avg a b = (compareTests avg b a).swap := by
  unfold compareTests
  rw [Ordering.swap_then, ← Std.OrientedCmp.eq_swap]
  congr 1
  by_cases hd : ScoresDiffer a b
  · rw [if_pos hd, if_pos (scoresDiffer_comm.1 hd), ← Std.OrientedCmp.eq_swap]
  · rw [if_neg hd, if_neg fun h => hd (scoresDiffer_comm.1 h), ← Std.OrientedCmp.eq_swap]

theorem id_eq_of_compareTests_eq (h : compareTests avg a b = .eq) : a.id = b.id := by
  rw [compareTests, Ordering.then_eq_eq] at h
  by_cases hd : ScoresDiffer a b
  · rw [if_pos hd] at h
    have hscore : b.score = a.score := compare_eq_iff_eq.1 h.2
    have heps : 0 < scoreEpsilon := by decide +kernel
    rw [ScoresDiffer, hscore, sub_self, abs_zero] at hd
    exact absurd hd (not_lt.2 heps.le)
  · rw [if_neg hd] at h
    exact id_eq_of_cheaper_eq h.2

end Comparing

/-- The third of three tests of one class comes before the first by way of the second:
the scores of neighbours are close, those of the ends are not, and the costs rise from
the lower end to the higher one. -/
structure Detour (avg : Rat) (a b c : PrioritizedTest) : Prop where
  sameClass : a.evidence = b.evidence ∧ b.evidence = c.evidence
  higher : scoreEpsilon < a.score - c.score
  close : ¬ ScoresDiffer a b ∧ ¬ ScoresDiffer b c
  costs : cheaper avg c b = .lt ∧ cheaper avg b a = .lt

instance (avg : Rat) (a b c : PrioritizedTest) : Decidable (Detour avg a b c) :=
  decidable_of_iff (_ ∧ _ ∧ _ ∧ _) ⟨fun h => ⟨h.1, h.2.1, h.2.2.1, h.2.2.2⟩, fun h => ⟨h.1, h.2, h.3, h.4⟩⟩

def NoDetour (avg : Rat) (l : List PrioritizedTest) : Prop := ∀ a ∈ l, ∀ b ∈ l, ∀ c ∈ l, ¬ Detour avg a b c

section Orders
variable {avg : Rat} {l : List PrioritizedTest}

/-- A detour is a cycle of the comparator. -/
theorem Detour.cycle {a b c : PrioritizedTest} (h : Detour avg a b c) :
    compareTests avg c b = .lt ∧ compareTests avg b a = .lt ∧ compareTests avg a c = .lt := by
  obtain ⟨⟨hab, hbc⟩, hhigh, ⟨hcab, hcbc⟩, hcb, hba⟩ := h
  refine ⟨(compareTests_lt hbc.symm).2 (.inr ⟨?_, hcb⟩), (compareTests_lt hab.symm).2 (.inr ⟨?_, hba⟩),
    (compareTests_lt (hab.trans hbc)).2 (.inl hhigh)⟩
  · rwa [scoresDiffer_comm]
  · rwa [scoresDiffer_comm]

theorem not_scoresDiffer {a b : PrioritizedTest} : ¬ ScoresDiffer a b ↔
    a.score - b.score ≤ scoreEpsilon ∧ b.score - a.score ≤ scoreEpsilon := by
  rw [ScoresDiffer, not_lt, abs_le, neg_le, neg_sub]

/-- Within one class, where no three tests make a detour. -/
theorem lt_trans_of_noDetour (hinj : ∀ a ∈ l, ∀ b ∈ l, a.id = b.id → a = b) (h : NoDetour avg l)
    {a b c : PrioritizedTest} (ha : a ∈ l) (hb : b ∈ l) (hc : c ∈ l) (hab : a.evidence = b.evidence)
    (hbc : b.evidence = c.evidence) (hlt : compareTests avg a b = .lt) (hlt' : compareTests avg b c = .lt) :
    compareTests avg a c = .lt := by
  rw [compareTests_lt hab] at hlt
  rw [compareTests_lt hbc] at hlt'
  rw [compareTests_lt (hab.trans hbc)]
  have hcheaper : ∀ x ∈ l, ∀ y ∈ l, x ≠ y → cheaper avg y x ≠ .lt → cheaper avg x y = .lt := by
    intro x hx y hy hne hyx
    rw [@Std.OrientedCmp.eq_swap _ (cheaper avg) _ y x] at hyx
    cases hcmp : cheaper avg x y with
    | lt => rfl
    | eq => exact absurd (hinj x hx y hy (id_eq_of_cheaper_eq hcmp)) hne
    | gt => exact absurd (by rw [hcmp]; rfl) hyx
  by_cases hhigh : scoreEpsilon < a.score - c.score
  · exact .inl hhigh
  right
  rw [not_lt] at hhigh
  rcases hlt with hfar | ⟨hnear, hcost⟩
  · -- `c` is close to `b` and to `a`, which is far above `b`
    rcases hlt' with hfar' | ⟨hnear', hcost'⟩
    · have heps : 0 < scoreEpsilon := by decide +kernel
      linarith
    · have hclose := not_scoresDiffer.1 hnear'
      have hac : ¬ ScoresDiffer a c := not_scoresDiffer.2 ⟨hhigh, by linarith⟩
      refine ⟨hac, hcheaper a ha c hc ?_ fun hca => ?_⟩
      · rintro rfl
        linarith
      · refine h a ha c hc b hb ⟨⟨hab.trans hbc, hbc.symm⟩, hfar, ⟨hac, ?_⟩, hcost', hca⟩
        rwa [scoresDiffer_comm]
  · rcases hlt' with hfar' | ⟨hnear', hcost'⟩
    · -- `a` is close to `b` and to `c`, which is far below `b`
      have hclose := not_scoresDiffer.1 hnear
      have hac : ¬ ScoresDiffer a c := not_scoresDiffer.2 ⟨hhigh, by linarith⟩
      refine ⟨hac, hcheaper a ha c hc ?_ fun hca => ?_⟩
      · rintro rfl
        linarith
      · refine h b hb a ha c hc ⟨⟨hab.symm, hab.trans hbc⟩, hfar', ⟨?_, hac⟩, hca, hcost⟩
        rwa [scoresDiffer_comm]
    · -- the costs rise from `a` to `c`, which cannot be far above `a`
      refine ⟨?_, Std.TransCmp.lt_trans hcost hcost'⟩
      refine not_scoresDiffer.2 ⟨hhigh, ?_⟩
      by_contra hup
      rw [not_le] at hup
      refine h c hc b hb a ha ⟨⟨hbc.symm, hab.symm⟩, hup, ⟨?_, ?_⟩, hcost, hcost'⟩
      · rwa [scoresDiffer_comm]
      · rwa [scoresDiffer_comm]

theorem compareTests_of_rank_lt {a b : PrioritizedTest} (h : evidenceRank a.evidence < evidenceRank b.evidence) :
    compareTests avg a b = .lt := by
  rw [compareTests, compare_lt_iff_lt.2 h]
  rfl

theorem rank_le_of_lt {a b : PrioritizedTest} (h : compareTests avg a b = .lt) :
    evidenceRank a.evidence ≤ evidenceRank b.evidence := by
  by_contra hgt
  rw [not_le] at hgt
  rw [compareTests, compare_gt_iff_gt.2 hgt] at h
  cases h

theorem evidenceRank_inj {e e' : TestEvidence} (h : evidenceRank e = evidenceRank e') : e = e' := by
  cases e <;> cases e' <;> first | rfl | cases h

/-- With distinct ids the comparator is a strict weak order exactly if no three tests
make a detour. -/
theorem weakOrderOn_iff (hinj : ∀ a ∈ l, ∀ b ∈ l, a.id = b.id → a = b) :
    WeakOrderOn (compareTests avg) l ↔ NoDetour avg l := by
  constructor
  · intro h a ha b hb c hc hd
    obtain ⟨hcb, hba, hac⟩ := hd.cycle
    have hca := h.trans c hc b hb a ha hcb hba
    rw [compareTests_swap, hca] at hac
    cases hac
  · intro h
    refine ⟨fun a _ b _ => compareTests_swap a b, ?_, ?_⟩
    · intro a ha b hb c hc hab hbc
      have hrank := rank_le_of_lt hab
      have hrank' := rank_le_of_lt hbc
      by_cases hlt : evidenceRank a.evidence < evidenceRank c.evidence
      · exact compareTests_of_rank_lt hlt
      · exact lt_trans_of_noDetour hinj h ha hb hc (evidenceRank_inj (by omega)) (evidenceRank_inj (by omega)) hab hbc
    · intro a ha b hb c _ hab hbc
      rwa [hinj a ha b hb (id_eq_of_compareTests_eq hab)]

end Orders

/-! ## What the order promises -/

section Outputs
variable (score : PrioritizableTest → Rat) (tests : List PrioritizableTest)

def scored : List PrioritizedTest := tests.map fun t => ⟨t, score t⟩

/-- The comparator is a strict weak order, and what follows from it: the output is sorted
and the same for every order of the input, the trace tests come first, and in one class
no test comes before one that scores clearly higher. -/
structure WellOrdered : Prop where
  order : WeakOrderOn (compareTests (averageKnownDuration tests)) (scored score tests)
  sorted : (prioritizeBy score tests).Pairwise fun a b => (compareTests (averageKnownDuration tests) a b).isLE = true
  permutation : ∀ tests', tests'.Perm tests → prioritizeBy score tests' = prioritizeBy score tests
  traceFirst : (prioritizeBy score tests).Pairwise fun a b => b.evidence = .trace → a.evidence = .trace
  byScore : (prioritizeBy score tests).Pairwise fun a b =>
    a.evidence = b.evidence → b.score - a.score ≤ scoreEpsilon

variable {tests}

theorem averageKnownDuration_perm {tests' : List PrioritizableTest} (h : tests'.Perm tests) :
    averageKnownDuration tests' = averageKnownDuration tests := by
  have hknown := h.filterMap (·.knownDuration)
  simp only [averageKnownDuration, hknown.length_eq, hknown.sum_eq]

theorem inj_scored (hids : (tests.map (·.id)).Nodup) :
    ∀ a ∈ scored score tests, ∀ b ∈ scored score tests, a.id = b.id → a = b := by
  intro a ha b hb hab
  obtain ⟨s, hs, rfl⟩ := List.mem_map.1 ha
  obtain ⟨t, ht, rfl⟩ := List.mem_map.1 hb
  rw [List.inj_on_of_nodup_map hids hs ht hab]

theorem traceFirst_of_isLE {avg : Rat} {a b : PrioritizedTest} (h : (compareTests avg a b).isLE = true)
    (hb : b.evidence = .trace) : a.evidence = .trace := by
  cases ha : a.evidence with
  | trace => rfl
  | static =>
    rw [compareTests, ha, hb] at h
    cases h

theorem score_le_of_isLE {avg : Rat} {a b : PrioritizedTest} (h : (compareTests avg a b).isLE = true)
    (he : a.evidence = b.evidence) : b.score - a.score ≤ scoreEpsilon := by
  by_contra hgt
  rw [not_le] at hgt
  have hba : compareTests avg b a = .lt := (compareTests_lt he.symm).2 (.inl hgt)
  rw [compareTests_swap, hba] at h
  cases h

/-- Tests with distinct ids are well ordered exactly if no three of them make a detour. -/
theorem wellOrdered_iff (hids : (tests.map (·.id)).Nodup) :
    WellOrdered score tests ↔ NoDetour (averageKnownDuration tests) (scored score tests) := by
  have hinj := inj_scored score hids
  constructor
  · intro h
    exact (weakOrderOn_iff hinj).1 h.order
  · intro h
    have horder := (weakOrderOn_iff hinj).2 h
    have hsorted := horder.sortWith_pairwise_on
    refine ⟨horder, hsorted, ?_, hsorted.imp traceFirst_of_isLE, hsorted.imp score_le_of_isLE⟩
    intro tests' hp
    unfold prioritizeBy
    rw [averageKnownDuration_perm hp]
    refine (horder.sortWith_congr_on (hp.symm.map _) fun a ha b hb hab => ?_).symm
    exact hinj a ha b hb (id_eq_of_compareTests_eq hab)

end Outputs

/-- Three tests of nearly the same coverage, the lighter ones the cheaper. -/
def nearTests : List PrioritizableTest :=
  [⟨ascii "a", .trace, .fin 1, .fin 50002, none, some (.fin 3)⟩,
    ⟨ascii "b", .trace, .fin 1, .fin 50001, none, some (.fin 2)⟩,
    ⟨ascii "c", .trace, .fin 1, .fin 50000, none, some (.fin 1)⟩]

theorem nearTests_cycle : ¬ WellOrdered (scoreOf (fun _ => 0) none defaultFailureHalfLifeMs) nearTests := by
  intro h
  have hdetour : ∃ a ∈ scored (scoreOf (fun _ => 0) none defaultFailureHalfLifeMs) nearTests,
      ∃ b ∈ scored (scoreOf (fun _ => 0) none defaultFailureHalfLifeMs) nearTests,
      ∃ c ∈ scored (scoreOf (fun _ => 0) none defaultFailureHalfLifeMs) nearTests,
        compareTests (averageKnownDuration nearTests) c b = .lt ∧ compareTests (averageKnownDuration nearTests) b a = .lt ∧
          compareTests (averageKnownDuration nearTests) a c = .lt := by decide +kernel
  obtain ⟨a, ha, b, hb, c, hc, hcb, hba, hac⟩ := hdetour
  have hca := h.order.trans c hc b hb a ha hcb hba
  rw [h.order.swap c hc a ha, hac] at hca
  cases hca

theorem wellOrdered_iff_two :
    (nearTests.take 2).length = 2 ∧ (WellOrdered (scoreOf (fun _ => 0) none defaultFailureHalfLifeMs) (nearTests.take 2) ↔
      NoDetour (averageKnownDuration (nearTests.take 2))
        (scored (scoreOf (fun _ => 0) none defaultFailureHalfLifeMs) (nearTests.take 2))) :=
  ⟨by decide, wellOrdered_iff (scoreOf (fun _ => 0) none defaultFailureHalfLifeMs) (by decide +kernel)⟩

end Hayven.Db
