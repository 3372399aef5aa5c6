import Hayven.Db.RollupLaws
/-!
# What a minimal selection keeps

With coverage, and only observed tests asked for, the tests of a root that nothing covers
stand in for it. Whether a root is covered is read off the coverage rows by
`affectedTestsForFiles`, off the tests that are left by `affectedTests`: `minimalKeeps_iff`.
-/
open Hayven.Lib

namespace Hayven.Db

/-! ## The tests added for uncovered roots -/

section Added
variable {tests : List AffectedTest} {id : JsString}

/-- The tests by id hold each under its own id. -/
def KeyedById (byId : KeyedMap JsString AffectedTest) : Prop := ∀ k t, byId.get k = some t → t.id = k

theorem KeyedById.set {byId : KeyedMap JsString AffectedTest} (h : KeyedById byId) (t : AffectedTest) :
    KeyedById (byId.set t.id t) := by
  intro k t' ht'
  rw [KeyedMap.get_set] at ht'
  split at ht'
  · next hk =>
    cases ht'
    exact hk
  · exact h k t' ht'

theorem has_set {byId : KeyedMap JsString AffectedTest} {t : AffectedTest} :
    (byId.set t.id t).has id = true ↔ t.id = id ∨ byId.has id = true := by
  rw [KeyedMap.has, KeyedMap.get_set]
  by_cases hid : t.id = id
  · simp [hid]
  · simp [hid, KeyedMap.has]

variable (tests id) in
theorem foldl_setById (byId : KeyedMap JsString AffectedTest) (h : KeyedById byId) :
    KeyedById (tests.foldl (fun byId t => byId.set t.id t) byId) ∧
      ((tests.foldl (fun byId t => byId.set t.id t) byId).has id = true ↔
        (∃ t ∈ tests, t.id = id) ∨ byId.has id = true) := by
  induction tests generalizing byId with
  | nil => exact ⟨h, by simp⟩
  | cons t tests ih =>
    obtain ⟨hkeyed, hhas⟩ := ih (byId.set t.id t) (h.set t)
    refine ⟨hkeyed, hhas.trans ?_⟩
    rw [has_set, List.exists_mem_cons_iff, or_left_comm, or_assoc]

variable (tests id) in
theorem Fallback.foldl_add (acc : Fallback) (h : KeyedById acc.byId) :
    KeyedById (tests.foldl Fallback.add acc).byId ∧
      ((tests.foldl Fallback.add acc).byId.has id = true ↔ (∃ t ∈ tests, t.id = id) ∨ acc.byId.has id = true) ∧
      ((tests.foldl Fallback.add acc).fellBack = false ↔
        acc.fellBack = false ∧ ∀ t ∈ tests, acc.byId.has t.id = true) := by
  induction tests generalizing acc with
  | nil => exact ⟨h, by simp, by simp⟩
  | cons t tests ih =>
    rw [List.foldl_cons, Fallback.add]
    by_cases ht : acc.byId.has t.id = true
    · rw [if_pos ht]
      obtain ⟨hkeyed, hhas, hfell⟩ := ih acc h
      refine ⟨hkeyed, hhas.trans ?_, hfell.trans ?_⟩
      · rw [List.exists_mem_cons_iff]
        refine ⟨Or.imp_left .inr, ?_⟩
        rintro ((rfl | htests) | hacc)
        · exact .inr ht
        · exact .inl htests
        · exact .inr hacc
      · rw [List.forall_mem_cons]
        exact and_congr_right fun _ => (and_iff_right ht).symm
    · rw [if_neg ht]
      obtain ⟨hkeyed, hhas, hfell⟩ := ih ⟨acc.byId.set t.id t, true⟩ (h.set t)
      refine ⟨hkeyed, hhas.trans ?_, hfell.trans ?_⟩
      · rw [has_set, List.exists_mem_cons_iff, or_left_comm, or_assoc]
      · rw [List.forall_mem_cons]
        simp [ht]

/-- What is listed after the fallback: the ranked tests and those of the uncovered roots. -/
theorem exists_fallback_iff {ranked added : List AffectedTest} {acc : Fallback}
    (hacc : acc = added.foldl Fallback.add ⟨ranked.foldl (fun byId t => byId.set t.id t) .empty, false⟩) :
    (∃ t ∈ (if acc.fellBack then acc.byId.values else ranked), t.id = id) ↔
      (∃ t ∈ ranked, t.id = id) ∨ ∃ t ∈ added, t.id = id := by
  have hempty : KeyedById .empty := fun _ _ h => by cases h
  have hranked := fun id => foldl_setById ranked id .empty hempty
  have hnone : ∀ id, (KeyedMap.empty : KeyedMap JsString AffectedTest).has id = true ↔ False := fun _ => by
    simp [KeyedMap.has]
  simp only [hnone, or_false] at hranked
  obtain ⟨hkeyed, hhas, hfell⟩ := Fallback.foldl_add added id
    ⟨ranked.foldl (fun byId t => byId.set t.id t) .empty, false⟩ (hranked id).1
  rw [← hacc] at hkeyed hhas hfell
  dsimp only at hhas hfell
  cases hf : acc.fellBack with
  | false =>
    obtain ⟨-, hall⟩ := hfell.1 hf
    rw [if_neg Bool.false_ne_true]
    refine ⟨.inl, fun h => h.elim (fun h => h) ?_⟩
    rintro ⟨t, ht, rfl⟩
    exact (hranked t.id).2.1 (hall t ht)
  | true =>
    rw [if_pos rfl, or_comm, ← (hranked id).2, ← hhas]
    simp only [KeyedMap.mem_values, KeyedMap.has, Option.isSome_iff_exists]
    constructor
    · rintro ⟨t, ⟨k, hk⟩, rfl⟩
      exact ⟨t, (hkeyed k t hk).symm ▸ hk⟩
    · rintro ⟨t, ht⟩
      exact ⟨t, ⟨id, ht⟩, hkeyed id t ht⟩

end Added

/-! ## Covering and reaching -/

/-- The test has a coverage row for the node. -/
def Covers (db : TestRows) (t r : JsString) : Prop := ∃ w, (t, r, w) ∈ resolvedCoverage db

/-- A test that is not changed itself. -/
def OtherTest (db : TestRows) (patterns : Option (List JsString)) (roots : List JsString) (t : JsString) : Prop :=
  t ∉ roots ∧ (handleOf db patterns t).isSome = true

/-- Calls, imports and traced calls lead from the node to the root, within the cap. -/
def Reaches (db : TestRows) (cap : Option Nat) (t r : JsString) : Prop :=
  ∃ n traced, Within cap n ∧ Chain db [r] n traced t

section Selected
variable {localeCompare : JsString → JsString → Ordering} {db : TestRows} {opts : AffectedTestsOpts}
  {target : ChangedTarget} {id : JsString}

theorem exists_coverageWeight_iff {r : JsString} : (∃ w, coverageWeight db id r = some w) ↔ Covers db id r := by
  rw [← Option.ne_none_iff_exists', coverageWeight, ne_eq, total_eq_none]
  constructor
  · intro h
    by_contra hnot
    refine h fun row hrow hid => hnot ?_
    obtain ⟨hmem, hr⟩ := List.mem_filter.1 hrow
    obtain ⟨t, entity, w⟩ := row
    obtain rfl := of_decide_eq_true hr
    subst hid
    exact ⟨w, hmem⟩
  · rintro ⟨w, hw⟩ h
    exact h (id, r, w) (List.mem_filter.2 ⟨hw, decide_eq_true rfl⟩) rfl

theorem exists_ownCoverage_iff {roots : List JsString} :
    (∃ w, OwnCoverage db roots id w) ↔ ∃ r ∈ roots, Covers db id r := by
  simp only [← exists_coverageWeight_iff]
  constructor
  · rintro ⟨w, r, hr, hw⟩
    exact ⟨r, hr, w, hw⟩
  · rintro ⟨r, hr, w, hw⟩
    exact ⟨w, r, hr, hw⟩

/-- A root without an entry is one that no row covers. -/
theorem byEntity_length_eq_zero {r : JsString} :
    (byEntity localeCompare db r).length = 0 ↔ ∀ t, ¬ Covers db t r := by
  rw [List.length_eq_zero_iff, List.eq_nil_iff_forall_not_mem]
  constructor
  · intro h t ht
    obtain ⟨w, hw⟩ := exists_coverageWeight_iff.2 ht
    exact h ⟨t, w⟩ (mem_byEntity.2 hw)
  · rintro h ⟨t, w⟩ he
    exact h t (exists_coverageWeight_iff.1 ⟨w, mem_byEntity.1 he⟩)

theorem exists_away_iff {cap : Option Nat} {roots : List JsString} :
    (∃ m, Within cap m ∧ ∃ r ∈ roots, Away (relaxations db (buildTraceIn db).1) Incoming.src r m id) ↔
      ∃ r ∈ roots, Reaches db cap id r := by
  have hone : ∀ r m, Away (relaxations db (buildTraceIn db).1) Incoming.src r m id ↔
      ∃ traced, Chain db [r] m traced id := by
    intro r m
    rw [exists_chain_iff]
    simp
  simp only [hone, Reaches]
  constructor
  · rintro ⟨m, hm, r, hr, traced, hchain⟩
    exact ⟨r, hr, m, traced, hm, hchain⟩
  · rintro ⟨r, hr, m, traced, hm, hchain⟩
    exact ⟨m, hm, r, hr, traced, hchain⟩

theorem coveredReach_ne_none (hid : id ∉ targetRoots db target) :
    (coveredReach localeCompare db opts.maxDepth target).get id ≠ none ↔
      (∃ r ∈ targetRoots db target, Covers db id r) ∨
        ∃ r ∈ targetRoots db target, Reaches db (depthCap opts.maxDepth) id r := by
  have hwalk : ∀ r, r ∈ walkRoots db target ↔ r ∈ targetRoots db target := fun r => mem_walkRoots db
  have hreached : (((walkRoots db target).flatMap
      (walkEdges db (buildTraceIn db).1 (depthCap opts.maxDepth))).foldl touch .empty).get id ≠ none ↔
        ∃ r ∈ targetRoots db target, Reaches db (depthCap opts.maxDepth) id r := by
    rw [get_reach_ne_none fun h => hid ((hwalk id).1 h)]
    simp only [hwalk]
    exact exists_away_iff
  have hown : (∃ r ∈ targetRoots db target, Covers db id r) ↔
      (coverEntries localeCompare db (targetRoots db target)).filter (·.testId = id) ≠ [] := by
    rw [← exists_ownCoverage_iff, ne_eq, List.eq_nil_iff_forall_not_mem, not_forall_not]
    constructor
    · rintro ⟨w, hw⟩
      exact ⟨⟨id, w⟩, List.mem_filter.2 ⟨(mem_coverEntries (e := ⟨id, w⟩) hid).2 hw, decide_eq_true rfl⟩⟩
    · rintro ⟨e, he⟩
      obtain ⟨hmem, htest⟩ := List.mem_filter.1 he
      obtain rfl := of_decide_eq_true htest
      exact ⟨e.weight, (mem_coverEntries hid).1 hmem⟩
  rw [hown, ← hreached, coveredReach, get_foldl_inject]
  generalize (coverEntries localeCompare db (targetRoots db target)).filter _ = entries
  generalize (((walkRoots db target).flatMap _).foldl touch .empty).get id = prev
  cases entries with
  | nil => simp
  | cons e entries =>
    refine iff_of_true ?_ (.inl (List.cons_ne_nil e entries))
    rw [List.foldl_cons]
    generalize NodeReach.covered prev e.weight = r
    induction entries generalizing r with
    | nil => exact Option.some_ne_none r
    | cons e entries ih => exact ih _

theorem AffectedTestsOpts.rollup_false (hrollup : opts.classRollup = false) : opts.rollup false = opts := by
  obtain ⟨_, _, _, _, _, _⟩ := opts
  cases hrollup
  rfl

/-- The tests that are ranked. -/
theorem exists_ranking_iff (hrollup : opts.classRollup = false) :
    (∃ t ∈ ranking localeCompare db opts target, t.id = id) ↔
      OtherTest db opts.patterns (targetRoots db target) id ∧
        ((∃ r ∈ targetRoots db target, Covers db id r) ∨
          ∃ r ∈ targetRoots db target, Reaches db (depthCap opts.maxDepth) id r) := by
  rw [← AffectedTestsOpts.rollup_false hrollup]
  constructor
  · rintro ⟨t, ht, rfl⟩
    obtain ⟨hid, r, handle, hget, hhandle, -⟩ := mem_ranking.1 ht
    have hfound := Option.ne_none_iff_exists'.2 ⟨r, hget⟩
    exact ⟨⟨hid, Option.isSome_iff_exists.2 ⟨handle, hhandle⟩⟩, (coveredReach_ne_none hid).1 hfound⟩
  · rintro ⟨⟨hid, htest⟩, hfound⟩
    obtain ⟨handle, hhandle⟩ := Option.isSome_iff_exists.1 htest
    obtain ⟨r, hr⟩ := Option.ne_none_iff_exists'.1 ((coveredReach_ne_none hid).2 hfound)
    exact ⟨_, affectedTest_mem_ranking hid hr hhandle, handleOf_id hhandle⟩

/-- The observed tests among them. -/
theorem exists_observed_iff (hrollup : opts.classRollup = false) :
    (∃ t ∈ (ranking localeCompare db opts target).filter isObserved, t.id = id) ↔
      OtherTest db opts.patterns (targetRoots db target) id ∧ ∃ r ∈ targetRoots db target, Covers db id r := by
  rw [← AffectedTestsOpts.rollup_false hrollup]
  constructor
  · rintro ⟨t, ht, rfl⟩
    obtain ⟨hmem, hobserved⟩ := List.mem_filter.1 ht
    obtain ⟨hid, r, handle, hget, hhandle, heq⟩ := mem_ranking.1 hmem
    refine ⟨⟨hid, Option.isSome_iff_exists.2 ⟨handle, hhandle⟩⟩,
      exists_ownCoverage_iff.1 (((known_covered hid).some r hget).observed.1 ?_)⟩
    unfold isObserved at hobserved
    rw [heq] at hobserved
    cases ho : r.observed <;> simp [affectedTest, ho] at hobserved ⊢
  · rintro ⟨⟨hid, htest⟩, hcovers⟩
    obtain ⟨handle, hhandle⟩ := Option.isSome_iff_exists.1 htest
    obtain ⟨r, hr⟩ := Option.ne_none_iff_exists'.1 ((coveredReach_ne_none hid).2 (.inl hcovers))
    have hobs := ((known_covered hid).some r hr).observed.2 (exists_ownCoverage_iff.2 hcovers)
    exact ⟨_, List.mem_filter.2 ⟨affectedTest_mem_ranking hid hr hhandle, by simp [isObserved, affectedTest, hobs]⟩,
      handleOf_id hhandle⟩

theorem exists_testsReaching_iff {roots staticReach : List JsString} {r : JsString} (hr : r ∈ roots) :
    (∃ t ∈ testsReaching localeCompare db opts roots staticReach r, t.id = id) ↔
      OtherTest db opts.patterns roots id ∧ Reaches db (depthCap opts.maxDepth) id r := by
  have hget : ∀ id, id ∉ roots → ((reverseWalk db r (buildTraceIn db).1 (depthCap opts.maxDepth) .empty).get id ≠ none ↔
      Reaches db (depthCap opts.maxDepth) id r) := by
    intro id hid
    have hne : id ∉ [r] := fun h => hid (List.mem_singleton.1 h ▸ hr)
    have hwalk : (([r].flatMap (walkEdges db (buildTraceIn db).1 (depthCap opts.maxDepth))).foldl touch .empty).get id ≠
        none ↔ _ := get_reach_ne_none hne
    rw [List.flatMap_singleton, ← reverseWalk_eq, exists_away_iff] at hwalk
    simpa using hwalk
  unfold testsReaching
  simp only [mem_rankReached, get_eraseAll]
  constructor
  · rintro ⟨t, ⟨reach, handle, hreach, hhandle, -⟩, rfl⟩
    split at hreach
    · cases hreach
    · next hid =>
      refine ⟨⟨hid, Option.isSome_iff_exists.2 ⟨handle, hhandle⟩⟩, (hget _ hid).1 ?_⟩
      rw [hreach]
      exact Option.some_ne_none reach
  · rintro ⟨⟨hid, htest⟩, hreaches⟩
    obtain ⟨handle, hhandle⟩ := Option.isSome_iff_exists.1 htest
    obtain ⟨reach, hreach⟩ := Option.ne_none_iff_exists'.1 ((hget id hid).2 hreaches)
    have htid : (affectedTest staticReach id reach handle).id = id := handleOf_id hhandle
    refine ⟨_, ⟨reach, handle, ?_, by rwa [htid], by rw [htid]⟩, htid⟩
    rw [htid, if_neg hid, hreach]

end Selected

/-! ## The selection -/

/-- Only observed tests are asked for, and tests that reach stand in where there are none. -/
structure MinimalMode (opts : AffectedTestsOpts) : Prop where
  traceOnly : opts.traceOnly = true
  fallbackReachableWhenEmpty : opts.fallbackReachableWhenEmpty = true
  classRollup : opts.classRollup = false
  limit : opts.limit = none

section Minimal
variable {localeCompare : JsString → JsString → Ordering} {db : TestRows} {files : List JsString}
  {opts : AffectedTestsOpts} {id : JsString}

/-- The tests of changed files: those that cover a root, and for a root without rows those that reach it. -/
theorem exists_forFiles_iff (hcoverage : db.coverage ≠ []) (hmode : MinimalMode opts) :
    (∃ t ∈ (affectedTestsForFiles localeCompare db files opts).tests, t.id = id) ↔
      OtherTest db opts.patterns (rootsOf db files) id ∧
        ∃ r ∈ rootsOf db files,
          Covers db id r ∨ ((∀ t, ¬ Covers db t r) ∧ Reaches db (depthCap opts.maxDepth) id r) := by
  have htests : (affectedTestsForFiles localeCompare db files opts).tests =
      testsFor localeCompare db opts (.files files) := rfl
  rw [htests, testsFor_files hcoverage]
  simp only [hmode.traceOnly, hmode.fallbackReachableWhenEmpty, hmode.limit, and_self, if_true, limited,
    perRootFallback]
  rw [exists_fallback_iff rfl, exists_observed_iff hmode.classRollup]
  have hadded : (∃ t ∈ ((sortWith localeCompare (rootsOf db files)).filter
        fun r => (byEntity localeCompare db r).length = 0).flatMap
        (testsReaching localeCompare db opts (rootsOf db files)
          (staticReachableSet db (rootsOf db files) (depthCap opts.maxDepth))), t.id = id) ↔
      ∃ r ∈ rootsOf db files, (∀ t, ¬ Covers db t r) ∧ OtherTest db opts.patterns (rootsOf db files) id ∧
        Reaches db (depthCap opts.maxDepth) id r := by
    simp only [List.mem_flatMap, List.mem_filter, mem_sortWith, decide_eq_true_eq, byEntity_length_eq_zero]
    constructor
    · rintro ⟨t, ⟨r, ⟨hr, hnone⟩, ht⟩, hid⟩
      exact ⟨r, hr, hnone, (exists_testsReaching_iff hr).1 ⟨t, ht, hid⟩⟩
    · rintro ⟨r, hr, hnone, hreaching⟩
      obtain ⟨t, ht, hid⟩ := (exists_testsReaching_iff hr).2 hreaching
      exact ⟨t, ⟨r, ⟨hr, hnone⟩, ht⟩, hid⟩
  rw [hadded]
  constructor
  · rintro (⟨hother, r, hr, hcovers⟩ | ⟨r, hr, hnone, hother, hreaches⟩)
    · exact ⟨hother, r, hr, .inl hcovers⟩
    · exact ⟨hother, r, hr, .inr ⟨hnone, hreaches⟩⟩
  · rintro ⟨hother, r, hr, hcovers | ⟨hnone, hreaches⟩⟩
    · exact .inl ⟨hother, r, hr, hcovers⟩
    · exact .inr ⟨r, hr, hnone, hother, hreaches⟩

/-- The tests of one symbol: those that cover it, and if none is left those that reach it. -/
theorem exists_forSymbol_iff (hcoverage : db.coverage ≠ []) (hmode : MinimalMode opts) {r : JsString}
    (hr : db.nodes.has r = true) :
    (∃ t ∈ (affectedTests localeCompare db r opts).tests, t.id = id) ↔
      OtherTest db opts.patterns [r] id ∧
        (Covers db id r ∨ (¬ ∃ t, OtherTest db opts.patterns [r] t ∧ Covers db t r) ∧
          Reaches db (depthCap opts.maxDepth) id r) := by
  have hroots : targetRoots db (.symbol r) = [r] := by
    rw [targetRoots, TestRows.resolveSymbol, if_pos hr, Option.toList_some]
  have htests : (affectedTests localeCompare db r opts).tests = testsFor localeCompare db opts (.symbol r) := rfl
  have hobserved : ∀ id, (∃ t ∈ (ranking localeCompare db opts (.symbol r)).filter isObserved, t.id = id) ↔ _ :=
    fun id => exists_observed_iff hmode.classRollup
  have hranked : (∃ t ∈ ranking localeCompare db opts (.symbol r), t.id = id) ↔ _ :=
    exists_ranking_iff hmode.classRollup
  simp only [hroots, List.mem_singleton, exists_eq_left] at hobserved hranked
  have hrank : rankReached localeCompare db (rankedReach localeCompare db opts (.symbol r)) opts.patterns false none
      true (staticReachableSet db (targetRoots db (.symbol r)) (depthCap opts.maxDepth)) =
        ranking localeCompare db opts (.symbol r) := rfl
  rw [htests, testsFor_symbol hcoverage, preciseTests, applyReachableFallback, hmode.traceOnly,
    hmode.fallbackReachableWhenEmpty, hmode.limit, rank_traceOnly, hrank]
  by_cases hany : ∃ t, OtherTest db opts.patterns [r] t ∧ Covers db t r
  · obtain ⟨t, ht⟩ := hany
    obtain ⟨x, hx, -⟩ := (hobserved t).2 ht
    have hpos : 0 < (limited none ((ranking localeCompare db opts (.symbol r)).filter isObserved)).length :=
      List.length_pos_of_mem hx
    rw [if_pos (by simp [hpos])]
    refine (hobserved id).trans ⟨fun h => ⟨h.1, .inl h.2⟩, fun h => ⟨h.1, h.2.resolve_right fun hno => ?_⟩⟩
    exact hno.1 ⟨t, ht⟩
  · have hnone : (ranking localeCompare db opts (.symbol r)).filter isObserved = [] := by
      rw [List.eq_nil_iff_forall_not_mem]
      exact fun x hx => hany ⟨x.id, (hobserved x.id).1 ⟨x, hx, rfl⟩⟩
    rw [if_neg (by simp [hnone, limited])]
    have hreached : (∃ t ∈ ranking localeCompare db opts (.symbol r), t.id = id) ↔
        OtherTest db opts.patterns [r] id ∧
          (Covers db id r ∨ (¬ ∃ t, OtherTest db opts.patterns [r] t ∧ Covers db t r) ∧
            Reaches db (depthCap opts.maxDepth) id r) := by
      rw [hranked]
      refine and_congr_right fun hother => or_congr_right (and_iff_right hany).symm
    rw [← hreached]
    dsimp only [limited]
    split
    · rfl
    · next hempty =>
      have hnil : ranking localeCompare db opts (.symbol r) = [] := by simpa using hempty
      rw [hnone, hnil]

/-- A minimal selection keeps the tests of every changed symbol, whatever the order of the
files, and agrees with the selection of one symbol. -/
structure MinimalKeeps (localeCompare : JsString → JsString → Ordering) (db : TestRows) (files : List JsString)
    (opts : AffectedTestsOpts) : Prop where
  covering : ∀ r ∈ rootsOf db files, ∀ t, OtherTest db opts.patterns (rootsOf db files) t → Covers db t r →
    ∃ x ∈ (affectedTestsForFiles localeCompare db files opts).tests, x.id = t
  reaching : ∀ r ∈ rootsOf db files, (¬ ∃ t, OtherTest db opts.patterns (rootsOf db files) t ∧ Covers db t r) →
    ∀ t, OtherTest db opts.patterns (rootsOf db files) t → Reaches db (depthCap opts.maxDepth) t r →
      ∃ x ∈ (affectedTestsForFiles localeCompare db files opts).tests, x.id = t
  empty : (affectedTestsForFiles localeCompare db files opts).tests = [] → ∀ r ∈ rootsOf db files,
    ∀ t, OtherTest db opts.patterns (rootsOf db files) t → ¬ Reaches db (depthCap opts.maxDepth) t r
  order : ∀ files', (∀ f, f ∈ files ↔ f ∈ files') → ∀ id,
    (∃ x ∈ (affectedTestsForFiles localeCompare db files opts).tests, x.id = id) ↔
      ∃ x ∈ (affectedTestsForFiles localeCompare db files' opts).tests, x.id = id
  single : ∀ f r, files = [f] → db.idsIn f = [r] → ∀ id,
    (∃ x ∈ (affectedTestsForFiles localeCompare db files opts).tests, x.id = id) ↔
      ∃ x ∈ (affectedTests localeCompare db r opts).tests, x.id = id

/-- For a root whose rows all come from changed nodes and from nodes that are no tests, every test
that reaches it covers another root, or reaches one without rows. -/
def RowsOfTests (db : TestRows) (roots : List JsString) (cap : Option Nat) (patterns : Option (List JsString)) : Prop :=
  ∀ r ∈ roots, (∃ t, Covers db t r) → (¬ ∃ t, OtherTest db patterns roots t ∧ Covers db t r) →
    ∀ t, OtherTest db patterns roots t → Reaches db cap t r →
      ∃ r' ∈ roots, Covers db t r' ∨ ((∀ t', ¬ Covers db t' r') ∧ Reaches db cap t r')

/-- With coverage, a minimal selection keeps the tests of every changed symbol exactly where a root
with rows has one from a test that is left, or loses nothing without. -/
theorem minimalKeeps_iff (hcoverage : db.coverage ≠ []) (hmode : MinimalMode opts) :
    MinimalKeeps localeCompare db files opts ↔
      RowsOfTests db (rootsOf db files) (depthCap opts.maxDepth) opts.patterns := by
  have hselected : ∀ files id, (∃ x ∈ (affectedTestsForFiles localeCompare db files opts).tests, x.id = id) ↔ _ :=
    fun files id => exists_forFiles_iff hcoverage hmode
  constructor
  · intro h r hr hrows hleft t ht hreaches
    exact ((hselected files t).1 (h.reaching r hr hleft t ht hreaches)).2
  · intro h
    have hreaching : ∀ r ∈ rootsOf db files,
        (¬ ∃ t, OtherTest db opts.patterns (rootsOf db files) t ∧ Covers db t r) →
        ∀ t, OtherTest db opts.patterns (rootsOf db files) t → Reaches db (depthCap opts.maxDepth) t r →
          ∃ x ∈ (affectedTestsForFiles localeCompare db files opts).tests, x.id = t := by
      intro r hr hleft t ht hreaches
      refine (hselected files t).2 ⟨ht, ?_⟩
      by_cases hrows : ∃ t, Covers db t r
      · exact h r hr hrows hleft t ht hreaches
      · exact ⟨r, hr, .inr ⟨not_exists.1 hrows, hreaches⟩⟩
    have hcovering : ∀ r ∈ rootsOf db files, ∀ t, OtherTest db opts.patterns (rootsOf db files) t → Covers db t r →
        ∃ x ∈ (affectedTestsForFiles localeCompare db files opts).tests, x.id = t := fun r hr t ht hcovers =>
      (hselected files t).2 ⟨ht, r, hr, .inl hcovers⟩
    refine ⟨hcovering, hreaching, ?_, ?_, ?_⟩
    · intro hempty r hr t ht hreaches
      have hleft : ¬ ∃ t, OtherTest db opts.patterns (rootsOf db files) t ∧ Covers db t r := by
        rintro ⟨t', ht', hcovers⟩
        obtain ⟨x, hx, -⟩ := hcovering r hr t' ht' hcovers
        rw [hempty] at hx
        cases hx
      obtain ⟨x, hx, -⟩ := hreaching r hr hleft t ht hreaches
      rw [hempty] at hx
      cases hx
    · intro files' hfiles id
      have hroots : ∀ r, r ∈ rootsOf db files ↔ r ∈ rootsOf db files' := fun r => by simp only [mem_rootsOf, hfiles]
      rw [hselected, hselected]
      simp only [OtherTest, hroots]
    · rintro f r rfl hids id
      have hroots : rootsOf db [f] = [r] := by
        rw [rootsOf, List.flatMap_singleton, hids]
        rfl
      have hnode : db.nodes.has r = true := by
        have hmem : r ∈ db.idsIn f := hids ▸ List.mem_singleton_self r
        obtain ⟨⟨k, node⟩, hrow, rfl⟩ := List.mem_map.1 hmem
        rw [KeyedMap.has, KeyedMap.get_eq_some.2 (List.mem_filter.1 hrow).1]
        rfl
      rw [hselected, exists_forSymbol_iff hcoverage hmode hnode]
      unfold RowsOfTests at h
      rw [hroots] at h ⊢
      simp only [List.mem_singleton, exists_eq_left, forall_eq] at h ⊢
      refine and_congr_right fun hother => ?_
      constructor
      · rintro (hcovers | ⟨hnone, hreaches⟩)
        · exact .inl hcovers
        · refine .inr ⟨?_, hreaches⟩
          rintro ⟨t, -, ht⟩
          exact hnone t ht
      · rintro (hcovers | ⟨hleft, hreaches⟩)
        · exact .inl hcovers
        · by_cases hrows : ∃ t, Covers db t r
          · exact h hrows hleft id hother hreaches
          · exact .inr ⟨not_exists.1 hrows, hreaches⟩

end Minimal

/-! ## A helper that only a changed test covers -/

section Helper

def minimalOpts : AffectedTestsOpts := { traceOnly := true, fallbackReachableWhenEmpty := true }

theorem minimalOpts_mode : MinimalMode minimalOpts := ⟨rfl, rfl, rfl, rfl⟩

/-- The test was seen to run `run`. -/
def coveredRows : TestRows := ⟨appNodes, [], [], [⟨testRunId, runId, 1⟩], fun _ => none⟩

theorem coveredRows_ofTests :
    RowsOfTests coveredRows (rootsOf coveredRows [appFile]) (depthCap minimalOpts.maxDepth) minimalOpts.patterns := by
  intro r hr _ hleft
  have hmem : r ∈ [runId] := (show rootsOf coveredRows [appFile] = [runId] by decide +kernel) ▸ hr
  rw [List.mem_singleton] at hmem
  subst hmem
  refine absurd ⟨testRunId, ⟨?_, ?_⟩, 1, ?_⟩ hleft
  · decide +kernel
  · decide +kernel
  · decide +kernel

theorem minimalKeeps_covered :
    RowsOfTests coveredRows (rootsOf coveredRows [appFile]) (depthCap minimalOpts.maxDepth) minimalOpts.patterns ∧
      MinimalKeeps compare coveredRows [appFile] minimalOpts :=
  ⟨coveredRows_ofTests, (minimalKeeps_iff (List.cons_ne_nil _ _) minimalOpts_mode).2 coveredRows_ofTests⟩

def testOtherId : JsString := ascii "tests/test_other/test_other"

/-- One test was seen to run the helper, another calls it. -/
def helperRows : TestRows :=
  ⟨appNodes.set testOtherId
      ⟨ascii "test_other", ascii "test_other", ascii "function", none, some (ascii "tests/test_other.py")⟩,
    [⟨⟨testOtherId, helperId, ascii "call"⟩, 1⟩], [], [⟨testRunId, helperId, 1⟩], fun _ => none⟩

/-- The helper and the test that ran it change together. -/
def helperFiles : List JsString := [ascii "src/util.py", ascii "tests/test_app.py"]

theorem reaching_test_dropped : ¬ MinimalKeeps compare helperRows helperFiles minimalOpts := by
  intro h
  have hhelper : Chain helperRows [helperId] 0 false helperId := .root (List.mem_singleton_self _)
  have hother : Chain helperRows [helperId] 1 false testOtherId :=
    .static (e := ⟨⟨testOtherId, helperId, ascii "call"⟩, 1⟩) hhelper (by decide +kernel) (by decide +kernel)
  have hwithin : Within (depthCap minimalOpts.maxDepth) 1 := ⟨64, by decide +kernel, by decide⟩
  exact h.empty (by decide +kernel) helperId (by decide +kernel) testOtherId ⟨by decide +kernel, by decide +kernel⟩
    ⟨1, false, hwithin, hother⟩

end Helper

end Hayven.Db
