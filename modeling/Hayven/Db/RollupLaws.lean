import Hayven.Db.RollupReach
import Hayven.Lib.Ordering
/-!
# What the class rollup touches

With coverage, the rollup lists more tests as reachable. The observed tests keep their
weights and their place exactly where no sibling weighs more than their own evidence and
no test that is only rolled up goes before them: `rollupContained_iff`.
-/
open Hayven.Lib

namespace Hayven.Db

/-! ## The ranked list -/

section Order
variable (localeCompare : JsString → JsString → Ordering)

theorem testOrder_eq : testOrder localeCompare =
    compareLex (compareOn dispatchRank) (compareLex (compareOn fun t => confidenceRank t.confidence)
      (compareLex (compareOn fun t => evidenceRank t.evidence) (compareLex (compareOn AffectedTest.depth)
        (compareLex (fun a b => compareOn AffectedTest.weight b a) (cmpOn AffectedTest.id localeCompare))))) := by
  funext a b
  rfl

instance [Std.TransCmp localeCompare] : Std.TransCmp (testOrder localeCompare) := by
  have hweight : Std.TransCmp fun a b : AffectedTest => compareOn AffectedTest.weight b a := inferInstance
  exact testOrder_eq localeCompare ▸ inferInstance

variable {localeCompare}

/-- Dispatch-only tests come first, observed ones before reachable ones. -/
theorem ranks_of_isLE {a b : AffectedTest} (h : (testOrder localeCompare a b).isLE = true) :
    dispatchRank a < dispatchRank b ∨
      (dispatchRank a = dispatchRank b ∧ confidenceRank a.confidence ≤ confidenceRank b.confidence) := by
  unfold testOrder at h
  rcases Nat.lt_trichotomy (dispatchRank a) (dispatchRank b) with hlt | heq | hgt
  · exact .inl hlt
  · refine .inr ⟨heq, ?_⟩
    have hself : compare (dispatchRank b) (dispatchRank b) = .eq := Std.ReflCmp.compare_self
    rw [heq, hself, Ordering.eq_then] at h
    by_contra hlt
    rw [not_le] at hlt
    rw [Nat.compare_eq_gt.2 hlt] at h
    cases h
  · rw [Nat.compare_eq_gt.2 hgt] at h
    cases h

end Order

/-- A list of tests, cut where it is dispatch-only or not and observed or not. -/
theorem ranked_blocks {localeCompare : JsString → JsString → Ordering} {l : List AffectedTest}
    (h : l.Pairwise fun a b => (testOrder localeCompare a b).isLE = true) :
    l = (l.filter fun t => t.dispatchOnly && decide (t.confidence = .observed)) ++
      (l.filter fun t => t.dispatchOnly && !decide (t.confidence = .observed)) ++
      ((l.filter fun t => !t.dispatchOnly && decide (t.confidence = .observed)) ++
        l.filter fun t => !t.dispatchOnly && !decide (t.confidence = .observed)) := by
  have hdispatch : l.Pairwise fun a b => b.dispatchOnly = true → a.dispatchOnly = true := by
    refine h.imp fun {a b} hab hb => ?_
    have := ranks_of_isLE hab
    unfold dispatchRank at this
    grind
  have hobserved : ∀ d : Bool, (l.filter (·.dispatchOnly == d)).Pairwise fun a b =>
      decide (b.confidence = .observed) = true → decide (a.confidence = .observed) = true := by
    intro d
    refine (List.Pairwise.filter _ h).imp_of_mem fun {a b} ha hb hab hobs => ?_
    have hranks := ranks_of_isLE hab
    have hda := (List.mem_filter.1 ha).2
    have hdb := (List.mem_filter.1 hb).2
    rw [beq_iff_eq] at hda hdb
    rw [decide_eq_true_eq] at hobs ⊢
    unfold dispatchRank at hranks
    rw [hda, hdb, hobs] at hranks
    cases hconf : a.confidence with
    | observed => rfl
    | reachable =>
      rw [hconf] at hranks
      simp [confidenceRank] at hranks
  have hon := filter_append_filter_not (hobserved true)
  have hoff := filter_append_filter_not (hobserved false)
  have hall := filter_append_filter_not hdispatch
  simp only [List.filter_filter, beq_true, beq_false] at hon hoff
  simp only [Bool.and_comm (decide _), Bool.and_comm (!decide _)] at hon hoff
  rw [hon, hoff, hall]

section Cut
variable {localeCompare : JsString → JsString → Ordering} {l : List AffectedTest}

/-- The observed tests among the first `k` of a ranked list. -/
theorem filter_take (h : l.Pairwise fun a b => (testOrder localeCompare a b).isLE = true) (k : Nat) :
    (l.take k).filter (fun t => decide (t.confidence = .observed)) =
      ((l.filter fun t => decide (t.confidence = .observed)).filter (·.dispatchOnly)).take k ++
        ((l.filter fun t => decide (t.confidence = .observed)).filter fun t => !t.dispatchOnly).take
          (k - ((l.filter fun t => decide (t.confidence = .observed)).filter (·.dispatchOnly)).length -
            (l.filter fun t => t.dispatchOnly && !decide (t.confidence = .observed)).length) := by
  simp only [List.filter_filter]
  generalize hod : l.filter (fun t => t.dispatchOnly && decide (t.confidence = .observed)) = od
  generalize hrd : l.filter (fun t => t.dispatchOnly && !decide (t.confidence = .observed)) = rd
  generalize hon : l.filter (fun t => !t.dispatchOnly && decide (t.confidence = .observed)) = on
  generalize hrn : l.filter (fun t => !t.dispatchOnly && !decide (t.confidence = .observed)) = rn
  have hl := ranked_blocks h
  rw [hod, hrd, hon, hrn] at hl
  have hkeep : ∀ (d : Bool) m, ((l.filter fun t => (t.dispatchOnly == d) && decide (t.confidence = .observed)).take
      m).filter (fun t => decide (t.confidence = .observed)) =
        (l.filter fun t => (t.dispatchOnly == d) && decide (t.confidence = .observed)).take m := by
    intro d m
    rw [List.filter_eq_self]
    intro t ht
    have := (List.mem_filter.1 (List.mem_of_mem_take ht)).2
    rw [Bool.and_eq_true] at this
    exact this.2
  have hdrop : ∀ (d : Bool) m, ((l.filter fun t => (t.dispatchOnly == d) && !decide (t.confidence = .observed)).take
      m).filter (fun t => decide (t.confidence = .observed)) = [] := by
    intro d m
    rw [List.filter_eq_nil_iff]
    intro t ht hobs
    have := (List.mem_filter.1 (List.mem_of_mem_take ht)).2
    rw [hobs, Bool.not_true, Bool.and_false] at this
    cases this
  have hk1 := hkeep true
  have hk2 := hkeep false
  have hd1 := hdrop true
  have hd2 := hdrop false
  simp only [beq_true, beq_false, hod, hrd, hon, hrn] at hk1 hk2 hd1 hd2
  conv_lhs => rw [hl]
  rw [List.take_append, List.take_append, List.take_append, List.filter_append, List.filter_append, List.filter_append,
    hk1, hd1, hk2, hd2, List.append_nil, List.append_nil, List.length_append, Nat.sub_sub]

end Cut

theorem limited_take (limit : Option JsNumber) :
    (∀ l, limited limit l = l) ∨ ∃ k, ∀ l, limited limit l = l.take k := by
  cases limit with
  | none => exact .inl fun _ => rfl
  | some n =>
    cases n with
    | fin q =>
      by_cases hq : 0 ≤ q
      · refine .inr ⟨q.floor.toNat, fun l => ?_⟩
        unfold limited
        dsimp only
        split
        · rfl
        · next hge =>
          have hle : (l.length : Rat) ≤ q := not_lt.1 fun hlt => hge ⟨hq, hlt⟩
          have hfloor : (l.length : Int) ≤ q.floor := Rat.le_floor_iff.2 (by exact_mod_cast hle)
          rw [List.take_of_length_le (by omega)]
      · refine .inl fun l => ?_
        unfold limited
        dsimp only
        rw [if_neg fun h => hq h.1]
    | nan => exact .inl fun _ => rfl
    | posInf => exact .inl fun _ => rfl
    | negInf => exact .inl fun _ => rfl

theorem limited_nat (k : Nat) (l : List AffectedTest) : limited (some (.fin k)) l = l.take k := by
  unfold limited
  dsimp only
  by_cases hk : k < l.length
  · have hfloor : ((k : Nat) : Rat).floor = k := Rat.floor_intCast k
    rw [if_pos ⟨by positivity, by exact_mod_cast hk⟩, hfloor, Int.toNat_natCast]
  · rw [if_neg fun h => hk (by exact_mod_cast h.2), List.take_of_length_le (not_lt.1 hk)]

/-! ## The list of a target -/

def isObserved (t : AffectedTest) : Bool := decide (t.confidence = .observed)

section Ranking
variable {localeCompare : JsString → JsString → Ordering} {db : TestRows} {opts : AffectedTestsOpts}
  {target : ChangedTarget}

/-- All tests that are reached, ranked. -/
def ranking (localeCompare : JsString → JsString → Ordering) (db : TestRows) (opts : AffectedTestsOpts)
    (target : ChangedTarget) : List AffectedTest :=
  rankReached localeCompare db (rankedReach localeCompare db opts target) opts.patterns false none true
    (staticReachableSet db (targetRoots db target) (depthCap opts.maxDepth))

theorem erase_of_get_none {reach : Reach} {id : JsString} (h : reach.get id = none) : reach.erase id = reach := by
  obtain ⟨entries, hnodup⟩ := reach
  have hself : entries.filter (fun row => decide (row.1 ≠ id)) = entries := by
    rw [List.filter_eq_self]
    rintro ⟨k, v⟩ hmem
    rw [decide_eq_true_eq]
    rintro rfl
    rw [KeyedMap.get_eq_some.2 hmem] at h
    cases h
  unfold KeyedMap.erase KeyedMap.filter
  congr 1

variable (localeCompare) in
theorem get_root_none (maxDepth : Option JsNumber) {root s : JsString} (hs : db.resolveSymbol s = some root) :
    (coveredReach localeCompare db maxDepth (.symbol s)).get root = none ∧
      (rolledReach localeCompare db maxDepth (.symbol s)).get root = none := by
  have hroots : targetRoots db (.symbol s) = [root] := by rw [targetRoots, hs, Option.toList_some]
  have hwalk : walkRoots db (.symbol s) = [root] := by rw [walkRoots, hs, Option.toList_some]
  have hnone : ∀ l : List CoverageEntry, (l.filter (·.testId ∉ [root])).filter (·.testId = root) = [] := by
    intro l
    rw [List.filter_filter, List.filter_eq_nil_iff]
    intro e _ he
    simp at he
  have hcovered : (coveredReach localeCompare db maxDepth (.symbol s)).get root = none := by
    rw [coveredReach, get_foldl_inject, coverEntries, hroots, hnone, hwalk, List.foldl_nil, (foldl_touch _ root).1]
    intro p hp
    obtain ⟨r, hr, hpr⟩ := List.mem_flatMap.1 hp
    rw [List.mem_singleton] at hr
    subst hr
    exact (mem_walkEdges.1 hpr).1
  refine ⟨hcovered, ?_⟩
  rw [rolledReach, get_foldl_inject, rollupEntries, hroots, hnone, List.foldl_nil, hcovered]

/-- The list of a symbol: ranked, or what stands in for an empty list of observed tests. -/
theorem testsFor_symbol (hcoverage : db.coverage ≠ []) (s : JsString) :
    testsFor localeCompare db opts (.symbol s) =
      (preciseTests localeCompare db (rankedReach localeCompare db opts (.symbol s)) opts opts.limit
        (staticReachableSet db (targetRoots db (.symbol s)) (depthCap opts.maxDepth))).1 := by
  have hpos : 0 < db.coverage.length := List.length_pos_iff.2 hcoverage
  show (affectedTests localeCompare db s opts).tests = _
  unfold affectedTests
  dsimp only
  cases hs : db.resolveSymbol s with
  | none =>
    have hroots : targetRoots db (.symbol s) = [] := by rw [targetRoots, hs, Option.toList_none]
    have hwalk : walkRoots db (.symbol s) = [] := by rw [walkRoots, hs, Option.toList_none]
    have hreach : rankedReach localeCompare db opts (.symbol s) = .empty := by
      unfold rankedReach rolledReach coveredReach rollupEntries coverEntries
      rw [hroots, hwalk]
      cases opts.classRollup <;> rfl
    simp only [hpos, if_true, notFound]
    rw [hreach]
    have hempty : ∀ traceOnly, rankReached localeCompare db .empty opts.patterns traceOnly opts.limit true
        (staticReachableSet db (targetRoots db (.symbol s)) (depthCap opts.maxDepth)) = [] := by
      intro traceOnly
      have hnil : ∀ limit, limited limit [] = [] := fun limit => by
        rcases limited_take limit with hall | ⟨k, hk⟩
        · exact hall []
        · rw [hk, List.take_nil]
      unfold rankReached
      cases traceOnly <;> exact hnil opts.limit
    unfold preciseTests applyReachableFallback
    rw [hempty, hempty]
    split <;> rfl
  | some root =>
    have hroots : targetRoots db (.symbol s) = [root] := by rw [targetRoots, hs, Option.toList_some]
    have hwalk : walkRoots db (.symbol s) = [root] := by rw [walkRoots, hs, Option.toList_some]
    have hcovered : injectCoverage localeCompare db [root]
        (reverseWalk db root (buildTraceIn db).1 (depthCap opts.maxDepth) .empty) root =
          coveredReach localeCompare db opts.maxDepth (.symbol s) := by
      unfold injectCoverage coveredReach coverEntries
      rw [hroots, hwalk, injectEntries_eq, reverseWalk_eq, List.flatMap_singleton, List.flatMap_singleton]
    have hrolled : injectClassRollup localeCompare db [root]
        (coveredReach localeCompare db opts.maxDepth (.symbol s)) root =
          rolledReach localeCompare db opts.maxDepth (.symbol s) := by
      rw [injectClassRollup_eq, rolledReach, rollupEntries, hroots, List.flatMap_singleton]
    have hreach : (if opts.classRollup = true then rolledReach localeCompare db opts.maxDepth (.symbol s)
        else coveredReach localeCompare db opts.maxDepth (.symbol s)) =
          rankedReach localeCompare db opts (.symbol s) := by
      have hnone := get_root_none localeCompare opts.maxDepth hs
      unfold rankedReach eraseAll
      rw [hroots, List.foldl_cons, List.foldl_nil]
      cases opts.classRollup
      · exact (erase_of_get_none hnone.1).symm
      · exact (erase_of_get_none hnone.2).symm
    simp only [hpos, if_true, hcovered, hrolled, hreach, hroots]

/-- The list of changed files: ranked, and with the tests of uncovered roots. -/
theorem testsFor_files (hcoverage : db.coverage ≠ []) (files : List JsString) :
    testsFor localeCompare db opts (.files files) =
      limited opts.limit
        (let roots := rootsOf db files
         let staticReach := staticReachableSet db roots (depthCap opts.maxDepth)
         let ranked := if opts.traceOnly then (ranking localeCompare db opts (.files files)).filter isObserved
           else ranking localeCompare db opts (.files files)
         let uncovered := if opts.traceOnly ∧ opts.fallbackReachableWhenEmpty then
             (sortWith localeCompare roots).filter fun r => (byEntity localeCompare db r).length = 0 else []
         let acc := perRootFallback localeCompare db opts roots staticReach uncovered ranked
         if acc.fellBack then acc.byId.values else ranked) := by
  have hpos : 0 < db.coverage.length := List.length_pos_iff.2 hcoverage
  have hreach : reachOfFiles localeCompare db files opts = rankedReach localeCompare db opts (.files files) := by
    unfold reachOfFiles rankedReach rolledReach coveredReach rollupEntries coverEntries targetRoots walkRoots walkFiles
    dsimp only
    rw [if_pos hpos, foldl_injectCoverage, foldl_injectClassRollup, foldl_reverseWalk]
  show (affectedTestsForFiles localeCompare db files opts).tests = _
  unfold affectedTestsForFiles
  simp only [hpos, decide_true, true_and, hreach]
  cases htrace : opts.traceOnly <;> rfl

end Ranking

/-! ## The rollup on and off -/

/-- The options with the rollup on or off. -/
def AffectedTestsOpts.rollup (opts : AffectedTestsOpts) (on : Bool) : AffectedTestsOpts :=
  { opts with classRollup := on }

/-- The rollup leaves the observed tests as they are, and the whole list where only those
are asked for; it drops no test. -/
structure RollupContained (localeCompare : JsString → JsString → Ordering) (db : TestRows) (opts : AffectedTestsOpts)
    (target : ChangedTarget) : Prop where
  observed : (testsFor localeCompare db (opts.rollup true) target).filter isObserved =
    (testsFor localeCompare db (opts.rollup false) target).filter isObserved
  traceOnly : opts.traceOnly = true → opts.fallbackReachableWhenEmpty = false →
    testsFor localeCompare db (opts.rollup true) target = testsFor localeCompare db (opts.rollup false) target
  selected : opts.traceOnly = false → opts.limit = none → ∀ t ∈ testsFor localeCompare db (opts.rollup false) target,
    ∃ t' ∈ testsFor localeCompare db (opts.rollup true) target, t'.id = t.id

/-- The coverage of siblings weighs no more than a test's own evidence, and where an observed
test is reached statically too, whatever only covers siblings is reached statically or was
seen to call into the change. -/
structure RollupHarmless (db : TestRows) (roots : List JsString) (cap : Option Nat)
    (patterns : Option (List JsString)) : Prop where
  weights : ∀ t, t ∉ roots → (handleOf db patterns t).isSome = true → (∃ w, OwnCoverage db roots t w) →
    ∀ w, SiblingCoverage db roots t w → ∃ w', w ≤ w' ∧ (OwnCoverage db roots t w' ∨ TraceLink db roots cap t w')
  order : (∃ t, t ∉ roots ∧ (handleOf db patterns t).isSome = true ∧ (∃ w, OwnCoverage db roots t w) ∧
      ∃ n, Within cap n ∧ Chain db roots n false t) →
    ∀ t, t ∉ roots → (handleOf db patterns t).isSome = true → (¬ ∃ w, OwnCoverage db roots t w) →
      (∃ w, SiblingCoverage db roots t w) → (¬ ∃ n, Within cap n ∧ Chain db roots n false t) →
        ∃ w, TraceLink db roots cap t w

section Contained
variable {localeCompare : JsString → JsString → Ordering} {db : TestRows} {opts : AffectedTestsOpts}
  {target : ChangedTarget}

theorem mem_ranking {on : Bool} {t : AffectedTest} :
    t ∈ ranking localeCompare db (opts.rollup on) target ↔
      t.id ∉ targetRoots db target ∧ ∃ r handle,
        (if on then rolledReach localeCompare db opts.maxDepth target
          else coveredReach localeCompare db opts.maxDepth target).get t.id = some r ∧
        handleOf db opts.patterns t.id = some handle ∧
        t = affectedTest (staticReachableSet db (targetRoots db target) (depthCap opts.maxDepth)) t.id r handle := by
  rw [ranking, mem_rankReached, rankedReach, get_eraseAll]
  by_cases ht : t.id ∈ targetRoots db target
  · simp [ht]
  · rw [if_neg ht]
    simp only [ht, not_false_eq_true, true_and]
    rfl

/-- A node that is reached and is a test is ranked. -/
theorem affectedTest_mem_ranking {on : Bool} {id : JsString} {r : NodeReach} {handle : TestHandle}
    (hid : id ∉ targetRoots db target)
    (hget : (if on then rolledReach localeCompare db opts.maxDepth target
      else coveredReach localeCompare db opts.maxDepth target).get id = some r)
    (hhandle : handleOf db opts.patterns id = some handle) :
    affectedTest (staticReachableSet db (targetRoots db target) (depthCap opts.maxDepth)) id r handle ∈
      ranking localeCompare db (opts.rollup on) target := by
  have htid : (affectedTest (staticReachableSet db (targetRoots db target) (depthCap opts.maxDepth)) id r handle).id =
      id := handleOf_id hhandle
  rw [mem_ranking, htid]
  exact ⟨hid, r, handle, hget, hhandle, rfl⟩

theorem pairwise_ranking [Std.TransCmp localeCompare] :
    (ranking localeCompare db opts target).Pairwise fun a b => (testOrder localeCompare a b).isLE = true :=
  sortWith_pairwise _ _

/-! ### The whole list and its observed part -/

theorem testsFor_of_full (hcoverage : db.coverage ≠ []) (htraceOnly : opts.traceOnly = false) :
    testsFor localeCompare db opts target = limited opts.limit (ranking localeCompare db opts target) := by
  cases target with
  | symbol s =>
    rw [testsFor_symbol hcoverage, preciseTests, applyReachableFallback, htraceOnly]
    rfl
  | files fs =>
    rw [testsFor_files hcoverage]
    simp only [htraceOnly, Bool.false_eq_true, false_and, if_false, perRootFallback, List.flatMap_nil, List.foldl_nil]

theorem filter_limited_observed (limit : Option JsNumber) (l : List AffectedTest) :
    (limited limit (l.filter isObserved)).filter isObserved = limited limit (l.filter isObserved) := by
  rw [List.filter_eq_self]
  intro t ht
  rcases limited_take limit with hall | ⟨k, hk⟩
  · rw [hall] at ht
    exact (List.mem_filter.1 ht).2
  · rw [hk] at ht
    exact (List.mem_filter.1 (List.mem_of_mem_take ht)).2

/-- The ranked list that is cut when only the observed tests are asked for. -/
theorem rank_traceOnly {reach : Reach} {patterns : Option (List JsString)} {limit : Option JsNumber}
    {staticReach : List JsString} :
    rankReached localeCompare db reach patterns true limit true staticReach =
      limited limit ((rankReached localeCompare db reach patterns false none true staticReach).filter isObserved) := rfl

/-- What a limit leaves of the observed tests is all that is observed in the list. -/
theorem observed_symbol (hcoverage : db.coverage ≠ []) (htraceOnly : opts.traceOnly = true) (s : JsString) :
    (testsFor localeCompare db opts (.symbol s)).filter isObserved =
      limited opts.limit ((ranking localeCompare db opts (.symbol s)).filter isObserved) := by
  have hrank : rankReached localeCompare db (rankedReach localeCompare db opts (.symbol s)) opts.patterns false none
      true (staticReachableSet db (targetRoots db (.symbol s)) (depthCap opts.maxDepth)) =
        ranking localeCompare db opts (.symbol s) := rfl
  rw [testsFor_symbol hcoverage, preciseTests, applyReachableFallback, htraceOnly, rank_traceOnly, hrank]
  have hself := filter_limited_observed opts.limit (ranking localeCompare db opts (.symbol s))
  by_cases hkeep : (!true || !opts.fallbackReachableWhenEmpty || decide (0 < (limited opts.limit
      ((ranking localeCompare db opts (.symbol s)).filter isObserved)).length)) = true
  · rw [if_pos hkeep]
    exact hself
  · rw [if_neg hkeep]
    simp only [Bool.or_eq_true, not_or, decide_eq_true_eq, Nat.not_lt, Nat.le_zero, List.length_eq_zero_iff] at hkeep
    dsimp only
    split
    · rw [hkeep.2]
      show (limited opts.limit (ranking localeCompare db opts (.symbol s))).filter isObserved = []
      rcases limited_take opts.limit with hall | ⟨k, hk⟩
      · rw [hall] at hkeep ⊢
        exact hkeep.2
      · rw [hk] at hkeep ⊢
        rcases List.take_eq_nil_iff.1 hkeep.2 with rfl | hnil
        · rfl
        · exact List.eq_nil_of_sublist_nil (hnil ▸ (List.take_sublist k _).filter _)
    · exact hself

/-! ### Where the weights are harmless -/

/-- The rows of an accumulator that become observed tests. -/
def keepRow (db : TestRows) (patterns : Option (List JsString)) (roots : List JsString) (row : JsString × NodeReach) :
    Bool :=
  decide (row.1 ∉ roots) && (row.2.observed && (handleOf db patterns row.1).isSome)

theorem entries_eraseAll (reach : Reach) (ids : List JsString) :
    (eraseAll reach ids).entries = reach.entries.filter fun row => decide (row.1 ∉ ids) := by
  unfold eraseAll
  induction ids generalizing reach with
  | nil =>
    rw [List.foldl_nil, List.filter_eq_self.2]
    exact fun _ _ => by simp
  | cons id ids ih =>
    rw [List.foldl_cons, ih, KeyedMap.erase, KeyedMap.filter, List.filter_filter]
    congr 1
    funext row
    simp only [List.mem_cons, not_or]
    rw [Bool.and_comm, Bool.decide_and]

/-- The observed candidates come from the rows kept. -/
theorem observed_candidates {patterns : Option (List JsString)} (reach : Reach) (roots staticReach : List JsString) :
    ((eraseAll reach roots).entries.filterMap fun row =>
        (handleOf db patterns row.1).map (affectedTest staticReach row.1 row.2)).filter isObserved =
      (reach.entries.filter (keepRow db patterns roots)).filterMap fun row =>
        (handleOf db patterns row.1).map (affectedTest staticReach row.1 row.2) := by
  rw [entries_eraseAll, List.filter_filterMap, List.filterMap_filter, List.filterMap_filter]
  congr 1
  funext row
  unfold keepRow
  by_cases hroot : row.1 ∈ roots
  · simp [hroot]
  · cases hhandle : handleOf db patterns row.1 with
    | none => simp
    | some handle => cases hobs : row.2.observed <;> simp [hroot, isObserved, affectedTest, hobs]

theorem filter_setKey {p : JsString × NodeReach → Bool} {k : JsString} {v : NodeReach}
    {l : List (JsString × NodeReach)} (hold : ∀ v', (k, v') ∈ l → p (k, v') = false) (hnew : p (k, v) = false) :
    (setKey k v l).filter p = l.filter p := by
  induction l with
  | nil => simp [setKey, hnew]
  | cons row l ih =>
    obtain ⟨k', v'⟩ := row
    rw [setKey]
    split
    · next hk =>
      subst hk
      rw [List.filter_cons_of_neg (by simp [hnew]), List.filter_cons_of_neg (by simp [hold v' List.mem_cons_self])]
    · rw [List.filter_cons, List.filter_cons, ih fun v'' hmem => hold v'' (List.mem_cons_of_mem _ hmem)]

theorem setKey_self {k : JsString} {v : NodeReach} {l : List (JsString × NodeReach)} (h : lookupKey k l = some v) :
    setKey k v l = l := by
  induction l with
  | nil => cases h
  | cons row l ih =>
    obtain ⟨k', v'⟩ := row
    rw [lookupKey] at h
    rw [setKey]
    split
    · next hk =>
      subst hk
      rw [if_pos rfl] at h
      cases h
      rfl
    · next hk =>
      rw [if_neg hk] at h
      rw [ih h]

/-- Rolling up leaves the rows of observed tests as they are, where nothing outweighs them. -/
theorem keepRow_rolledUp {patterns : Option (List JsString)} {roots : List JsString} (entries : List CoverageEntry)
    (reach : Reach)
    (h : ∀ e ∈ entries, ∀ r, reach.get e.testId = some r → keepRow db patterns roots (e.testId, r) = true →
      r.viaTrace = true ∧ e.weight ≤ r.traceWeight) :
    (entries.foldl (inject NodeReach.rolledUp) reach).entries.filter (keepRow db patterns roots) =
      reach.entries.filter (keepRow db patterns roots) := by
  induction entries generalizing reach with
  | nil => rfl
  | cons e entries ih =>
    rw [List.foldl_cons]
    have hsame : ∀ r, reach.get e.testId = some r → keepRow db patterns roots (e.testId, r) = true →
        NodeReach.rolledUp (some r) e.weight = r := by
      intro r hr hkeep
      obtain ⟨hvia, hweight⟩ := h e List.mem_cons_self r hr hkeep
      rw [NodeReach.rolledUp, if_neg (by omega)]
      cases r
      cases hvia
      rfl
    have hobserved : ∀ prev, (NodeReach.rolledUp prev e.weight).observed = (prev.map (·.observed)).getD false := by
      intro prev
      cases prev <;> rfl
    rw [ih]
    · by_cases hkept : ∃ r, reach.get e.testId = some r ∧ keepRow db patterns roots (e.testId, r) = true
      · obtain ⟨r, hr, hkeep⟩ := hkept
        have hentries : (inject NodeReach.rolledUp reach e).entries = reach.entries := by
          rw [inject, hr, hsame r hr hkeep]
          exact setKey_self hr
        rw [hentries]
      · refine filter_setKey (fun v hv => ?_) ?_
        · rw [← Bool.not_eq_true]
          exact fun hkeep => hkept ⟨v, KeyedMap.get_eq_some.2 hv, hkeep⟩
        · rw [← Bool.not_eq_true]
          intro hkeep
          unfold keepRow at hkeep hkept
          rw [hobserved] at hkeep
          cases hget : reach.get e.testId with
          | none => simp [hget] at hkeep
          | some r =>
            rw [hget, Option.map_some, Option.getD_some] at hkeep
            exact hkept ⟨r, hget, hkeep⟩
    · intro e' he' r hr hkeep
      rw [inject, KeyedMap.get_set] at hr
      by_cases htest : e.testId = e'.testId
      · rw [if_pos htest, Option.some.injEq] at hr
        cases hget : reach.get e.testId with
        | none =>
          have hfalse := hobserved none
          rw [hget] at hr
          rw [hr] at hfalse
          unfold keepRow at hkeep
          simp [hfalse] at hkeep
        | some r₀ =>
          have hobs := hobserved (some r₀)
          rw [hget] at hr
          rw [hr] at hobs
          have hkeep₀ : keepRow db patterns roots (e.testId, r₀) = true := by
            unfold keepRow at hkeep ⊢
            rw [htest]
            rwa [hobs] at hkeep
          rw [hsame r₀ hget hkeep₀] at hr
          subst hr
          exact h e' (List.mem_cons_of_mem _ he') r₀ (htest ▸ hget) hkeep
      · rw [if_neg htest] at hr
        exact h e' (List.mem_cons_of_mem _ he') r hr hkeep

/-- The observed tests of the full list are those without the rollup. -/
theorem observed_ranking [Std.TransCmp localeCompare]
    (h : RollupHarmless db (targetRoots db target) (depthCap opts.maxDepth) opts.patterns) :
    (ranking localeCompare db (opts.rollup true) target).filter isObserved =
      (ranking localeCompare db (opts.rollup false) target).filter isObserved := by
  have hkeep : (rolledReach localeCompare db opts.maxDepth target).entries.filter
      (keepRow db opts.patterns (targetRoots db target)) =
        (coveredReach localeCompare db opts.maxDepth target).entries.filter
          (keepRow db opts.patterns (targetRoots db target)) := by
    refine keepRow_rolledUp _ _ fun e he r hr hkept => ?_
    unfold keepRow at hkept
    simp only [Bool.and_eq_true, decide_eq_true_eq] at hkept
    obtain ⟨hroot, hobserved, htest⟩ := hkept
    have hweighs := (known_covered hroot).some r hr
    have hown := hweighs.observed.1 hobserved
    obtain ⟨w, hw⟩ := hown
    refine ⟨hweighs.viaTrace.2 ⟨w, .inl hw⟩, (hweighs.traceWeight e.weight).2 (.inr ?_)⟩
    exact h.weights e.testId hroot htest ⟨w, hw⟩ e.weight ((mem_rollupEntries hroot).1 he)
  unfold ranking
  rw [rankReached_eq, rankReached_eq, filter_sortWith, filter_sortWith]
  have hon : rankedReach localeCompare db (opts.rollup true) target =
      eraseAll (rolledReach localeCompare db opts.maxDepth target) (targetRoots db target) := rfl
  have hoff : rankedReach localeCompare db (opts.rollup false) target =
      eraseAll (coveredReach localeCompare db opts.maxDepth target) (targetRoots db target) := rfl
  rw [hon, hoff, observed_candidates, observed_candidates]
  simp only [AffectedTestsOpts.rollup]
  rw [hkeep]

/-! ### Where the order is harmless -/

/-- The tests that only reach the change, and only through a traced call. -/
def dispatchReachable (t : AffectedTest) : Bool := t.dispatchOnly && !isObserved t

theorem mem_dispatchReachable {on : Bool} {id : JsString} :
    id ∈ ((ranking localeCompare db (opts.rollup on) target).filter dispatchReachable).map (·.id) ↔
      id ∉ targetRoots db target ∧ (handleOf db opts.patterns id).isSome = true ∧
        (¬ ∃ w, OwnCoverage db (targetRoots db target) id w) ∧
        (¬ ∃ n, Within (depthCap opts.maxDepth) n ∧ Chain db (targetRoots db target) n false id) ∧
        ((∃ w, TraceLink db (targetRoots db target) (depthCap opts.maxDepth) id w) ∨
          (on = true ∧ ∃ w, SiblingCoverage db (targetRoots db target) id w)) := by
  simp only [List.mem_map, List.mem_filter, mem_ranking]
  have hknown : id ∉ targetRoots db target → ∀ r,
      (if on then rolledReach localeCompare db opts.maxDepth target
        else coveredReach localeCompare db opts.maxDepth target).get id = some r →
      ((r.observed = true ↔ ∃ w, OwnCoverage db (targetRoots db target) id w) ∧
        (r.viaTrace = true ↔ (∃ w, OwnCoverage db (targetRoots db target) id w) ∨
          (∃ w, TraceLink db (targetRoots db target) (depthCap opts.maxDepth) id w) ∨
            (on = true ∧ ∃ w, SiblingCoverage db (targetRoots db target) id w))) := by
    intro hid r hr
    cases on with
    | false =>
      have hweighs := (known_covered hid).some r hr
      exact ⟨hweighs.observed, by rw [hweighs.viaTrace, exists_or]; simp⟩
    | true =>
      have hweighs := (known_rolled hid).some r hr
      exact ⟨hweighs.observed, by rw [hweighs.viaTrace, exists_or, exists_or]; simp⟩
  constructor
  · rintro ⟨t, ⟨⟨hid, r, handle, hget, hhandle, ht⟩, hdispatch⟩, rfl⟩
    obtain ⟨hobs, hvia⟩ := hknown hid r hget
    have hfields : r.viaTrace = true ∧
        t.id ∉ staticReachableSet db (targetRoots db target) (depthCap opts.maxDepth) ∧ r.observed = false := by
      unfold dispatchReachable isObserved at hdispatch
      rw [ht] at hdispatch
      clear ht
      cases hv : r.viaTrace <;> cases ho : r.observed <;> simp [affectedTest, hv, ho] at hdispatch ⊢
      exact hdispatch
    obtain ⟨htrace, hstatic, hunobserved⟩ := hfields
    rw [mem_staticReachableSet hid] at hstatic
    have hown : ¬ ∃ w, OwnCoverage db (targetRoots db target) t.id w := by
      rw [← hobs, hunobserved]
      exact Bool.false_ne_true
    exact ⟨hid, by rw [hhandle]; rfl, hown, hstatic, (hvia.1 htrace).resolve_left hown⟩
  · rintro ⟨hid, htest, hown, hstatic, hsource⟩
    obtain ⟨handle, hhandle⟩ := Option.isSome_iff_exists.1 htest
    have hget : ∃ r, (if on then rolledReach localeCompare db opts.maxDepth target
        else coveredReach localeCompare db opts.maxDepth target).get id = some r := by
      rw [← Option.ne_none_iff_exists']
      intro hnone
      cases on with
      | false =>
        have hno := (known_covered hid).none hnone
        rcases hsource with ⟨w, hw⟩ | ⟨⟨⟩, -⟩
        exact hno w (.inr hw)
      | true =>
        have hno := (known_rolled hid).none hnone
        rcases hsource with ⟨w, hw⟩ | ⟨-, w, hw⟩
        · exact hno w (.inr (.inl hw))
        · exact hno w (.inr (.inr hw))
    obtain ⟨r, hr⟩ := hget
    obtain ⟨hobs, hvia⟩ := hknown hid r hr
    refine ⟨_, ⟨mem_ranking.1 (affectedTest_mem_ranking hid hr hhandle), ?_⟩, handleOf_id hhandle⟩
    have htrace := hvia.2 (.inr hsource)
    have hunobserved : r.observed = false := by
      rw [← Bool.not_eq_true, hobs]
      exact hown
    rw [← mem_staticReachableSet hid] at hstatic
    simp [dispatchReachable, isObserved, affectedTest, htrace, hunobserved, hstatic]

theorem nodup_dispatchReachable (on : Bool) :
    (((ranking localeCompare db (opts.rollup on) target).filter dispatchReachable).map (·.id)).Nodup :=
  (nodup_rankReached _ _ _).sublist (List.filter_sublist.map _)

/-- An observed test that is not dispatch-only is reached statically. -/
theorem exists_observed_static :
    (∃ t, t ∈ (ranking localeCompare db (opts.rollup false) target).filter isObserved ∧ t.dispatchOnly = false) ↔
      ∃ t, t ∉ targetRoots db target ∧ (handleOf db opts.patterns t).isSome = true ∧
        (∃ w, OwnCoverage db (targetRoots db target) t w) ∧
        ∃ n, Within (depthCap opts.maxDepth) n ∧ Chain db (targetRoots db target) n false t := by
  constructor
  · rintro ⟨t, ht, hdispatch⟩
    obtain ⟨hmem, hobserved⟩ := List.mem_filter.1 ht
    obtain ⟨hid, r, handle, hget, hhandle, heq⟩ := mem_ranking.1 hmem
    have hweighs := (known_covered hid).some r hget
    have hobs : r.observed = true := by
      unfold isObserved at hobserved
      rw [heq] at hobserved
      cases ho : r.observed <;> simp [affectedTest, ho] at hobserved ⊢
    have hown := hweighs.observed.1 hobs
    have hvia : r.viaTrace = true := hweighs.viaTrace.2 (by rw [exists_or]; exact .inl hown)
    refine ⟨t.id, hid, by rw [hhandle]; rfl, hown, (mem_staticReachableSet hid).1 ?_⟩
    rw [heq] at hdispatch
    have hhid := handleOf_id hhandle
    simpa [affectedTest, hvia, hhid] using hdispatch
  · rintro ⟨id, hid, htest, ⟨w, hw⟩, hstatic⟩
    obtain ⟨handle, hhandle⟩ := Option.isSome_iff_exists.1 htest
    have hget : ∃ r, (coveredReach localeCompare db opts.maxDepth target).get id = some r := by
      rw [← Option.ne_none_iff_exists']
      exact fun hnone => (known_covered hid).none hnone w (.inl hw)
    obtain ⟨r, hr⟩ := hget
    have hweighs := (known_covered hid).some r hr
    refine ⟨_, List.mem_filter.2 ⟨affectedTest_mem_ranking hid hr hhandle, ?_⟩, ?_⟩
    · simp [isObserved, affectedTest, hweighs.observed.2 ⟨w, hw⟩]
    · rw [← mem_staticReachableSet hid] at hstatic
      simp [affectedTest, hstatic]

/-- The observed tests among the first `k` that are ranked. -/
theorem observed_take [Std.TransCmp localeCompare] (k : Nat) :
    ((ranking localeCompare db opts target).take k).filter isObserved =
      (((ranking localeCompare db opts target).filter isObserved).filter (·.dispatchOnly)).take k ++
        (((ranking localeCompare db opts target).filter isObserved).filter fun t => !t.dispatchOnly).take
          (k - (((ranking localeCompare db opts target).filter isObserved).filter (·.dispatchOnly)).length -
            ((ranking localeCompare db opts target).filter dispatchReachable).length) :=
  filter_take pairwise_ranking k

theorem dispatchReachable_rollup_subset :
    ((ranking localeCompare db (opts.rollup false) target).filter dispatchReachable).map (·.id) ⊆
      ((ranking localeCompare db (opts.rollup true) target).filter dispatchReachable).map (·.id) := by
  intro id hid
  rw [mem_dispatchReachable] at hid ⊢
  obtain ⟨hroot, htest, hown, hstatic, hsource⟩ := hid
  exact ⟨hroot, htest, hown, hstatic, .inl (hsource.resolve_right fun h => Bool.false_ne_true h.1)⟩

/-- As many tests stand before the static ones, with the rollup and without. -/
theorem length_dispatchReachable
    (h : RollupHarmless db (targetRoots db target) (depthCap opts.maxDepth) opts.patterns)
    (hstatic : ∃ t, t ∈ (ranking localeCompare db (opts.rollup false) target).filter isObserved ∧
      t.dispatchOnly = false) :
    ((ranking localeCompare db (opts.rollup true) target).filter dispatchReachable).length =
      ((ranking localeCompare db (opts.rollup false) target).filter dispatchReachable).length := by
  have hiff : ∀ id, id ∈ ((ranking localeCompare db (opts.rollup true) target).filter dispatchReachable).map (·.id) ↔
      id ∈ ((ranking localeCompare db (opts.rollup false) target).filter dispatchReachable).map (·.id) := by
    intro id
    refine ⟨fun hid => ?_, fun hid => dispatchReachable_rollup_subset hid⟩
    rw [mem_dispatchReachable] at hid ⊢
    obtain ⟨hroot, htest, hown, hunreached, hsource⟩ := hid
    refine ⟨hroot, htest, hown, hunreached, .inl ?_⟩
    rcases hsource with htrace | ⟨-, hsibling⟩
    · exact htrace
    · exact h.order (exists_observed_static.1 hstatic) id hroot htest hown hsibling hunreached
  have hperm := (List.perm_ext_iff_of_nodup (nodup_dispatchReachable true) (nodup_dispatchReachable false)).2 hiff
  simpa only [List.length_map] using hperm.length_eq

/-- The rollup drops no test. -/
theorem exists_ranking_rollup {t : AffectedTest} (ht : t ∈ ranking localeCompare db (opts.rollup false) target) :
    ∃ t' ∈ ranking localeCompare db (opts.rollup true) target, t'.id = t.id := by
  obtain ⟨hid, r, handle, hget, hhandle, -⟩ := mem_ranking.1 ht
  have hget' : ∃ r', (rolledReach localeCompare db opts.maxDepth target).get t.id = some r' := by
    rw [← Option.ne_none_iff_exists', rolledReach, get_foldl_inject]
    change (coveredReach localeCompare db opts.maxDepth target).get t.id = some r at hget
    rw [hget]
    generalize (rollupEntries localeCompare db (targetRoots db target)).filter _ = entries
    clear hget
    induction entries generalizing r with
    | nil => exact Option.some_ne_none r
    | cons e entries ih => exact ih _
  obtain ⟨r', hr'⟩ := hget'
  exact ⟨_, affectedTest_mem_ranking hid hr' hhandle, handleOf_id hhandle⟩

theorem testsFor_rollup (hcoverage : db.coverage ≠ []) (htraceOnly : opts.traceOnly = false) (on : Bool) :
    testsFor localeCompare db (opts.rollup on) target =
      limited opts.limit (ranking localeCompare db (opts.rollup on) target) := by
  have htrace : (opts.rollup on).traceOnly = false := htraceOnly
  exact testsFor_of_full hcoverage htrace

/-- The observed tests of a list that holds the reachable ones too. -/
theorem observed_full [Std.TransCmp localeCompare] (hcoverage : db.coverage ≠ []) (htraceOnly : opts.traceOnly = false)
    (h : RollupHarmless db (targetRoots db target) (depthCap opts.maxDepth) opts.patterns) :
    (testsFor localeCompare db (opts.rollup true) target).filter isObserved =
      (testsFor localeCompare db (opts.rollup false) target).filter isObserved := by
  have hfull : (ranking localeCompare db (opts.rollup true) target).filter isObserved =
      (ranking localeCompare db (opts.rollup false) target).filter isObserved := observed_ranking h
  rw [testsFor_rollup hcoverage htraceOnly, testsFor_rollup hcoverage htraceOnly]
  rcases limited_take opts.limit with hall | ⟨k, hk⟩
  · rw [hall, hall, hfull]
  · rw [hk, hk]
    rw [observed_take, observed_take, hfull]
    by_cases hstatic : ∃ t, t ∈ (ranking localeCompare db (opts.rollup false) target).filter isObserved ∧
        t.dispatchOnly = false
    · rw [length_dispatchReachable h hstatic]
    · have hnone : ((ranking localeCompare db (opts.rollup false) target).filter isObserved).filter
          (fun t => !t.dispatchOnly) = [] := by
        rw [List.filter_eq_nil_iff]
        intro t ht hdispatch
        rw [Bool.not_eq_true'] at hdispatch
        exact hstatic ⟨t, ht, hdispatch⟩
      rw [hnone, List.take_nil, List.take_nil]

/-- The list of a symbol when only observed tests are asked for, and nothing stands in for them. -/
theorem testsFor_symbol_traceOnly (hcoverage : db.coverage ≠ []) (htraceOnly : opts.traceOnly = true)
    (hfallback : opts.fallbackReachableWhenEmpty = false) (s : JsString) :
    testsFor localeCompare db opts (.symbol s) =
      limited opts.limit ((ranking localeCompare db opts (.symbol s)).filter isObserved) := by
  rw [testsFor_symbol hcoverage, preciseTests, applyReachableFallback, htraceOnly, hfallback]
  rfl

/-- The list of files depends on the rollup only through the observed tests. -/
theorem testsFor_files_traceOnly (hcoverage : db.coverage ≠ []) (htraceOnly : opts.traceOnly = true)
    (files : List JsString)
    (hfull : (ranking localeCompare db (opts.rollup true) (.files files)).filter isObserved =
      (ranking localeCompare db (opts.rollup false) (.files files)).filter isObserved) :
    testsFor localeCompare db (opts.rollup true) (.files files) =
      testsFor localeCompare db (opts.rollup false) (.files files) := by
  have htrace : ∀ on, (opts.rollup on).traceOnly = true := fun _ => htraceOnly
  rw [testsFor_files hcoverage, testsFor_files hcoverage]
  simp only [htrace, if_true, hfull]
  rfl

/-- Where the rollup is harmless it is contained, whatever the limit and the mode. -/
theorem rollupContained_of_harmless [Std.TransCmp localeCompare] (hcoverage : db.coverage ≠ [])
    (h : RollupHarmless db (targetRoots db target) (depthCap opts.maxDepth) opts.patterns) :
    RollupContained localeCompare db opts target := by
  have hfull : (ranking localeCompare db (opts.rollup true) target).filter isObserved =
      (ranking localeCompare db (opts.rollup false) target).filter isObserved := observed_ranking h
  constructor
  · cases htraceOnly : opts.traceOnly with
    | false => exact observed_full hcoverage htraceOnly h
    | true =>
      cases target with
      | symbol s =>
        have htrace : ∀ on, (opts.rollup on).traceOnly = true := fun _ => htraceOnly
        have hlist : ∀ on, (testsFor localeCompare db (opts.rollup on) (.symbol s)).filter isObserved =
            limited opts.limit ((ranking localeCompare db (opts.rollup on) (.symbol s)).filter isObserved) := fun on =>
          observed_symbol hcoverage (htrace on) s
        rw [hlist, hlist, hfull]
      | files fs => rw [testsFor_files_traceOnly hcoverage htraceOnly fs hfull]
  · intro htraceOnly hfallback
    cases target with
    | symbol s =>
      have htrace : ∀ on, (opts.rollup on).traceOnly = true := fun _ => htraceOnly
      have hnone : ∀ on, (opts.rollup on).fallbackReachableWhenEmpty = false := fun _ => hfallback
      have hlist : ∀ on, testsFor localeCompare db (opts.rollup on) (.symbol s) =
          limited opts.limit ((ranking localeCompare db (opts.rollup on) (.symbol s)).filter isObserved) := fun on =>
        testsFor_symbol_traceOnly hcoverage (htrace on) (hnone on) s
      rw [hlist, hlist, hfull]
    | files fs => exact testsFor_files_traceOnly hcoverage htraceOnly fs hfull
  · intro htraceOnly hlimit t ht
    rw [testsFor_rollup hcoverage htraceOnly, hlimit] at ht ⊢
    exact exists_ranking_rollup ht

/-! ### What containment forces -/

/-- An observed test is listed with the rollup with all the weight of its class. -/
theorem weights_of_observed_ranking
    (hfull : (ranking localeCompare db (opts.rollup true) target).filter isObserved =
      (ranking localeCompare db (opts.rollup false) target).filter isObserved) {t : JsString}
    (hid : t ∉ targetRoots db target) (htest : (handleOf db opts.patterns t).isSome = true)
    (hown : ∃ w, OwnCoverage db (targetRoots db target) t w) {w : Nat}
    (hsibling : SiblingCoverage db (targetRoots db target) t w) :
    ∃ w', w ≤ w' ∧ (OwnCoverage db (targetRoots db target) t w' ∨
      TraceLink db (targetRoots db target) (depthCap opts.maxDepth) t w') := by
  obtain ⟨handle, hhandle⟩ := Option.isSome_iff_exists.1 htest
  have hget : ∃ r, (rolledReach localeCompare db opts.maxDepth target).get t = some r := by
    rw [← Option.ne_none_iff_exists']
    exact fun hnone => (known_rolled hid).none hnone w (.inr (.inr hsibling))
  obtain ⟨r, hr⟩ := hget
  have hweighs := (known_rolled hid).some r hr
  obtain ⟨w₀, hw₀⟩ := hown
  have hobs := hweighs.observed.2 ⟨w₀, hw₀⟩
  have hvia := hweighs.viaTrace.2 ⟨w₀, .inl hw₀⟩
  have hon : affectedTest (staticReachableSet db (targetRoots db target) (depthCap opts.maxDepth)) t r handle ∈
      (ranking localeCompare db (opts.rollup true) target).filter isObserved :=
    List.mem_filter.2 ⟨affectedTest_mem_ranking hid hr hhandle, by simp [isObserved, affectedTest, hobs]⟩
  rw [hfull] at hon
  obtain ⟨-, r', handle', hget', -, heq⟩ := mem_ranking.1 (List.mem_filter.1 hon).1
  rw [show (affectedTest _ t r handle).id = t from handleOf_id hhandle] at hget'
  have hweighs' := (known_covered hid).some r' hget'
  have hvia' := hweighs'.viaTrace.2 ⟨w₀, .inl hw₀⟩
  have hweight := congrArg AffectedTest.weight heq
  simp only [affectedTest, hvia, hvia', if_true] at hweight
  have hle := (hweighs.traceWeight w).2 (.inr ⟨w, Nat.le_refl w, .inr (.inr hsibling)⟩)
  rw [hweight] at hle
  rcases (hweighs'.traceWeight w).1 hle with rfl | hheavier
  · exact ⟨w₀, Nat.zero_le _, .inl hw₀⟩
  · exact hheavier

theorem length_lt_of_ssubset {α : Type} {l l' : List α} (hnodup : l.Nodup) (hsub : l ⊆ l') {a : α} (ha : a ∈ l')
    (hnot : a ∉ l) : l.length < l'.length := by
  have hcons : (a :: l).Nodup := List.nodup_cons.2 ⟨hnot, hnodup⟩
  exact hcons.length_le_of_subset (List.cons_subset.2 ⟨ha, hsub⟩)

/-- Where an observed static test is listed, the rollup can put no test before it that is not there without. -/
theorem order_of_observed_take [Std.TransCmp localeCompare]
    (hfull : (ranking localeCompare db (opts.rollup true) target).filter isObserved =
      (ranking localeCompare db (opts.rollup false) target).filter isObserved)
    (htake : ∀ k : Nat, ((ranking localeCompare db (opts.rollup true) target).take k).filter isObserved =
      ((ranking localeCompare db (opts.rollup false) target).take k).filter isObserved)
    (hstatic : ∃ t, t ∈ (ranking localeCompare db (opts.rollup false) target).filter isObserved ∧
      t.dispatchOnly = false) :
    ¬ ((ranking localeCompare db (opts.rollup false) target).filter dispatchReachable).length <
      ((ranking localeCompare db (opts.rollup true) target).filter dispatchReachable).length := by
  intro hlt
  obtain ⟨t, ht, hdispatch⟩ := hstatic
  have hmem : t ∈ ((ranking localeCompare db (opts.rollup false) target).filter isObserved).filter fun t =>
      !t.dispatchOnly := List.mem_filter.2 ⟨ht, by rw [hdispatch]; rfl⟩
  -- the first place after all tests that stand before the static ones without the rollup
  have hcut := htake ((((ranking localeCompare db (opts.rollup false) target).filter isObserved).filter
    (·.dispatchOnly)).length +
      ((ranking localeCompare db (opts.rollup false) target).filter dispatchReachable).length + 1)
  rw [observed_take, observed_take, hfull] at hcut
  have hlen := congrArg List.length (List.append_cancel_left hcut)
  simp only [List.length_take] at hlen
  have hpos := List.length_pos_of_mem hmem
  omega

end Contained

/-- With coverage, the rollup touches only the reachable tests, in every mode and under every
limit, exactly where it is harmless. -/
theorem rollupContained_iff {localeCompare : JsString → JsString → Ordering} [Std.TransCmp localeCompare]
    {db : TestRows} {target : ChangedTarget} {maxDepth : Option JsNumber} {patterns : Option (List JsString)}
    (hcoverage : db.coverage ≠ []) :
    (∀ opts : AffectedTestsOpts, opts.maxDepth = maxDepth → opts.patterns = patterns →
      RollupContained localeCompare db opts target) ↔
      RollupHarmless db (targetRoots db target) (depthCap maxDepth) patterns := by
  constructor
  · intro h
    have hlist : ∀ limit on, testsFor localeCompare db
        (AffectedTestsOpts.rollup { maxDepth := maxDepth, patterns := patterns, limit := limit } on) target =
          limited limit (ranking localeCompare db
            (AffectedTestsOpts.rollup { maxDepth := maxDepth, patterns := patterns } on) target) := fun limit on =>
      testsFor_of_full hcoverage rfl
    have hfull := (h { maxDepth := maxDepth, patterns := patterns } rfl rfl).observed
    rw [hlist, hlist] at hfull
    have htake : ∀ k : Nat, _ := fun k =>
      (h { maxDepth := maxDepth, patterns := patterns, limit := some (.fin k) } rfl rfl).observed
    simp only [hlist, limited_nat] at htake
    refine ⟨fun t hid htest hown w hsibling => weights_of_observed_ranking hfull hid htest hown hsibling, ?_⟩
    intro hstatic t hid htest hown hsibling hunreached
    by_contra htrace
    refine order_of_observed_take hfull htake (exists_observed_static.2 hstatic) ?_
    have hmem : t ∈ ((ranking localeCompare db (AffectedTestsOpts.rollup { maxDepth := maxDepth, patterns := patterns }
        true) target).filter dispatchReachable).map (·.id) :=
      mem_dispatchReachable.2 ⟨hid, htest, hown, hunreached, .inr ⟨rfl, hsibling⟩⟩
    have hnot : t ∉ ((ranking localeCompare db (AffectedTestsOpts.rollup { maxDepth := maxDepth, patterns := patterns }
        false) target).filter dispatchReachable).map (·.id) := by
      rw [mem_dispatchReachable]
      rintro ⟨-, -, -, -, hsource | ⟨⟨⟩, -⟩⟩
      exact htrace hsource
    have hlt := length_lt_of_ssubset (nodup_dispatchReachable false) dispatchReachable_rollup_subset hmem hnot
    simpa only [List.length_map] using hlt
  · intro h opts hdepth hpatterns
    subst hdepth hpatterns
    exact rollupContained_of_harmless hcoverage h

/-! ## A test that runs a sibling more often -/

section Cart

def addId : JsString := ascii "src/cart/Cart.add"

def totalId : JsString := ascii "src/cart/Cart.total"

def testCartId : JsString := ascii "tests/test_cart/test_cart"

/-- A class of two methods and a test. -/
def cartNodes : KeyedMap JsString NodeColumns :=
  ((KeyedMap.empty.set addId
    ⟨ascii "add", ascii "Cart.add", ascii "method", none, some (ascii "src/cart.py")⟩).set totalId
      ⟨ascii "total", ascii "Cart.total", ascii "method", none, some (ascii "src/cart.py")⟩).set testCartId
        ⟨ascii "test_cart", ascii "test_cart", ascii "function", none, some (ascii "tests/test_cart.py")⟩

/-- The test was seen to run `add` alone. -/
def addRows : TestRows := ⟨cartNodes, [], [], [⟨testCartId, addId, 1⟩], fun _ => none⟩

theorem addRows_harmless : RollupHarmless addRows (targetRoots addRows (.symbol addId)) (depthCap none) none := by
  have hnone : ∀ t w, ¬ SiblingCoverage addRows (targetRoots addRows (.symbol addId)) t w := by
    rintro t w ⟨r, hr, s, hs, -, hw⟩
    have hr' : r ∈ [addId] := (show targetRoots addRows (.symbol addId) = [addId] by decide +kernel) ▸ hr
    rw [List.mem_singleton] at hr'
    subst hr'
    have hs' : s ∈ [totalId] := (show classSiblings addRows addId = [totalId] by decide +kernel) ▸ hs
    rw [List.mem_singleton] at hs'
    subst hs'
    rw [coverageWeight, show (resolvedCoverage addRows).filter (·.2.1 = totalId) = [] by decide +kernel] at hw
    cases hw
  refine ⟨fun t _ _ _ w hw => absurd hw (hnone t w), fun _ t _ _ _ hsibling => ?_⟩
  obtain ⟨w, hw⟩ := hsibling
  exact absurd hw (hnone t w)

theorem rollupContained_add :
    RollupHarmless addRows (targetRoots addRows (.symbol addId)) (depthCap none) none ∧
      ∀ opts : AffectedTestsOpts, opts.maxDepth = none → opts.patterns = none →
        RollupContained compare addRows opts (.symbol addId) :=
  ⟨addRows_harmless, (rollupContained_iff (List.cons_ne_nil _ _)).2 addRows_harmless⟩

/-- The test was seen to run `total` five times as often. -/
def cartRows : TestRows :=
  ⟨cartNodes, [], [], [⟨testCartId, addId, 1⟩, ⟨testCartId, totalId, 5⟩], fun _ => none⟩

theorem sibling_outweighs_observed : ¬ RollupContained compare cartRows {} (.symbol addId) := by
  intro h
  have hweights := congrArg (List.map AffectedTest.weight) h.observed
  exact absurd hweights (by decide +kernel)

end Cart

end Hayven.Db
