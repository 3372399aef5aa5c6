import Hayven.Db.TestEvidence
/-!
# What coverage and the class rollup inject

The accumulator that is ranked, for a symbol and for changed files: which evidence of a
test it records, without the rollup (`known_covered`) and with it (`known_rolled`).
-/
open Hayven.Lib

namespace Hayven.Db

/-! ## Injection -/

/-- An accumulator that covering entries are folded into, one by one. -/
def inject (update : Option NodeReach → Nat → NodeReach) (reach : Reach) (e : CoverageEntry) : Reach :=
  reach.set e.testId (update (reach.get e.testId) e.weight)

theorem injectEntries_eq (update : Option NodeReach → Nat → NodeReach) (roots : List JsString) (reach : Reach)
    (entries : List CoverageEntry) :
    injectEntries update roots reach entries = (entries.filter (·.testId ∉ roots)).foldl (inject update) reach := by
  unfold injectEntries
  induction entries generalizing reach with
  | nil => rfl
  | cons e entries ih =>
    rw [List.foldl_cons, ih, List.filter_cons]
    by_cases he : e.testId ∈ roots
    · simp [he]
    · simp [he, inject]

theorem get_foldl_inject (update : Option NodeReach → Nat → NodeReach) (entries : List CoverageEntry) (reach : Reach)
    (x : JsString) :
    (entries.foldl (inject update) reach).get x =
      (entries.filter (·.testId = x)).foldl (fun prev e => some (update prev e.weight)) (reach.get x) := by
  induction entries generalizing reach with
  | nil => rfl
  | cons e entries ih =>
    rw [List.foldl_cons, ih, List.filter_cons, inject, KeyedMap.get_set]
    by_cases hx : e.testId = x
    · subst hx
      simp
    · simp [hx]

/-- What an accumulator says of a test: covered by its own evidence, traced by either kind. -/
structure Weighs (own other : Nat → Prop) (r : NodeReach) : Prop where
  observed : r.observed = true ↔ ∃ w, own w
  viaTrace : r.viaTrace = true ↔ ∃ w, own w ∨ other w
  traceWeight : ∀ w, w ≤ r.traceWeight ↔ w = 0 ∨ ∃ w', w ≤ w' ∧ (own w' ∨ other w')

/-- The same of a place that may be empty. -/
structure Known (own other : Nat → Prop) (prev : Option NodeReach) : Prop where
  some : ∀ r, prev = some r → Weighs own other r
  none : prev = none → ∀ w, ¬ (own w ∨ other w)

theorem Known.congr {own own' other other' : Nat → Prop} {prev : Option NodeReach} (h : Known own other prev)
    (hown : ∀ w, own w ↔ own' w) (hother : ∀ w, other w ↔ other' w) : Known own' other' prev := by
  have heq : own = own' := funext fun w => propext (hown w)
  have heq' : other = other' := funext fun w => propext (hother w)
  rwa [← heq, ← heq']

/-- The heaviest of some weights, one more taken in. -/
theorem le_heaviest {P : Nat → Prop} {old : Nat} (h : ∀ w, w ≤ old ↔ w = 0 ∨ ∃ w', w ≤ w' ∧ P w') (weight w : Nat) :
    w ≤ (if weight > old then weight else old) ↔ w = 0 ∨ ∃ w', w ≤ w' ∧ (P w' ∨ w' = weight) := by
  have hsplit : (∃ w', w ≤ w' ∧ (P w' ∨ w' = weight)) ↔ (∃ w', w ≤ w' ∧ P w') ∨ w ≤ weight := by
    simp only [and_or_left, exists_or, exists_eq_right]
  rw [hsplit, ← or_assoc, ← h]
  split <;> omega

theorem Known.covered {own other : Nat → Prop} {prev : Option NodeReach} (h : Known own other prev) (weight : Nat) :
    Known (fun w => own w ∨ w = weight) other (Option.some (NodeReach.covered prev weight)) := by
  refine ⟨?_, nofun⟩
  rintro r ⟨⟩
  refine ⟨iff_of_true (by cases prev <;> rfl) ⟨weight, .inr rfl⟩,
    iff_of_true (by cases prev <;> rfl) ⟨weight, .inl (.inr rfl)⟩, fun w => ?_⟩
  have hsplit : ∀ w', (own w' ∨ w' = weight) ∨ other w' ↔ (own w' ∨ other w') ∨ w' = weight := fun w' => by
    rw [or_assoc, or_assoc, or_comm (a := w' = weight)]
  simp only [hsplit]
  cases prev with
  | none =>
    simp only [NodeReach.covered, h.none rfl, false_or, exists_eq_right]
    omega
  | some p => exact le_heaviest (h.some p rfl).traceWeight weight w

theorem Known.rolledUp {own other : Nat → Prop} {prev : Option NodeReach} (h : Known own other prev) (weight : Nat) :
    Known own (fun w => other w ∨ w = weight) (Option.some (NodeReach.rolledUp prev weight)) := by
  refine ⟨?_, nofun⟩
  rintro r ⟨⟩
  have hsplit : ∀ w', own w' ∨ other w' ∨ w' = weight ↔ (own w' ∨ other w') ∨ w' = weight := fun w' => or_assoc.symm
  cases prev with
  | none =>
    have hnone := h.none rfl
    refine ⟨iff_of_false Bool.false_ne_true ?_, iff_of_true rfl ⟨weight, .inr (.inr rfl)⟩, fun w => ?_⟩
    · rintro ⟨w, hw⟩
      exact hnone w (.inl hw)
    · simp only [hsplit, NodeReach.rolledUp, hnone, false_or, exists_eq_right]
      omega
  | some p =>
    refine ⟨(h.some p rfl).observed, iff_of_true rfl ⟨weight, .inr (.inr rfl)⟩, fun w => ?_⟩
    simp only [hsplit]
    exact le_heaviest (h.some p rfl).traceWeight weight w

theorem Known.foldl_covered {own other : Nat → Prop} {prev : Option NodeReach} (h : Known own other prev)
    (entries : List CoverageEntry) :
    Known (fun w => own w ∨ ∃ e ∈ entries, w = e.weight) other
      (entries.foldl (fun prev e => Option.some (NodeReach.covered prev e.weight)) prev) := by
  induction entries generalizing own prev with
  | nil => exact h.congr (by simp) fun _ => Iff.rfl
  | cons e entries ih =>
    exact (ih (h.covered e.weight)).congr (fun w => by simp only [List.mem_cons, exists_eq_or_imp, or_assoc])
      fun _ => Iff.rfl

theorem Known.foldl_rolledUp {own other : Nat → Prop} {prev : Option NodeReach} (h : Known own other prev)
    (entries : List CoverageEntry) :
    Known own (fun w => other w ∨ ∃ e ∈ entries, w = e.weight)
      (entries.foldl (fun prev e => Option.some (NodeReach.rolledUp prev e.weight)) prev) := by
  induction entries generalizing other prev with
  | nil => exact h.congr (fun _ => Iff.rfl) (by simp)
  | cons e entries ih =>
    exact (ih (h.rolledUp e.weight)).congr (fun _ => Iff.rfl)
      fun w => by simp only [List.mem_cons, exists_eq_or_imp, or_assoc]

/-! ## The entries of the roots and of their siblings -/

section Entries
variable (localeCompare : JsString → JsString → Ordering) (db : TestRows) (roots : List JsString)

def coverEntries : List CoverageEntry :=
  (roots.flatMap (byEntity localeCompare db)).filter (·.testId ∉ roots)

def rollupEntries : List CoverageEntry :=
  (roots.flatMap fun root =>
    ((classSiblings db root).filter (· ∉ roots)).flatMap (byEntity localeCompare db)).filter (·.testId ∉ roots)

theorem foldl_injectCoverage (rs : List JsString) (reach : Reach) :
    rs.foldl (injectCoverage localeCompare db roots) reach =
      ((rs.flatMap (byEntity localeCompare db)).filter (·.testId ∉ roots)).foldl (inject NodeReach.covered) reach := by
  induction rs generalizing reach with
  | nil => rfl
  | cons r rs ih =>
    rw [List.foldl_cons, ih, List.flatMap_cons, List.filter_append, List.foldl_append, injectCoverage, injectEntries_eq]

theorem injectClassRollup_eq (reach : Reach) (root : JsString) :
    injectClassRollup localeCompare db roots reach root =
      ((((classSiblings db root).filter (· ∉ roots)).flatMap (byEntity localeCompare db)).filter
        (·.testId ∉ roots)).foldl (inject NodeReach.rolledUp) reach := by
  unfold injectClassRollup
  induction (classSiblings db root).filter (· ∉ roots) generalizing reach with
  | nil => rfl
  | cons sibling siblings ih =>
    rw [List.foldl_cons, ih, List.flatMap_cons, List.filter_append, List.foldl_append, injectEntries_eq]

theorem foldl_injectClassRollup (rs : List JsString) (reach : Reach) :
    rs.foldl (injectClassRollup localeCompare db roots) reach =
      ((rs.flatMap fun root => ((classSiblings db root).filter (· ∉ roots)).flatMap (byEntity localeCompare db)).filter
        (·.testId ∉ roots)).foldl (inject NodeReach.rolledUp) reach := by
  induction rs generalizing reach with
  | nil => rfl
  | cons r rs ih =>
    rw [List.foldl_cons, ih, List.flatMap_cons, List.filter_append, List.foldl_append, injectClassRollup_eq]

end Entries

/-! ## Changed targets -/

/-- What `affectedTests` or `affectedTestsForFiles` is asked about. -/
inductive ChangedTarget where
  | symbol (s : JsString)
  | files (fs : List JsString)

section Targets
variable (localeCompare : JsString → JsString → Ordering) (db : TestRows)

def testsFor (opts : AffectedTestsOpts) : ChangedTarget → List AffectedTest
  | .symbol s => (affectedTests localeCompare db s opts).tests
  | .files fs => (affectedTestsForFiles localeCompare db fs opts).tests

def targetRoots : ChangedTarget → List JsString
  | .symbol s => (db.resolveSymbol s).toList
  | .files fs => rootsOf db fs

/-- The nodes whose walks are joined, in order and with repetitions. -/
def walkRoots : ChangedTarget → List JsString
  | .symbol s => (db.resolveSymbol s).toList
  | .files fs => fs.flatMap db.idsIn

theorem mem_walkRoots {target : ChangedTarget} {id : JsString} :
    id ∈ walkRoots db target ↔ id ∈ targetRoots db target := by
  cases target with
  | symbol s => exact Iff.rfl
  | files fs =>
    show id ∈ fs.flatMap db.idsIn ↔ id ∈ rootsOf db fs
    rw [mem_rootsOf, List.mem_flatMap]

/-- What the walks and the coverage of the roots reach, before any rollup. -/
def coveredReach (maxDepth : Option JsNumber) (target : ChangedTarget) : Reach :=
  (coverEntries localeCompare db (targetRoots db target)).foldl (inject NodeReach.covered)
    (((walkRoots db target).flatMap (walkEdges db (buildTraceIn db).1 (depthCap maxDepth))).foldl touch .empty)

/-- With the rollup. -/
def rolledReach (maxDepth : Option JsNumber) (target : ChangedTarget) : Reach :=
  (rollupEntries localeCompare db (targetRoots db target)).foldl (inject NodeReach.rolledUp)
    (coveredReach localeCompare db maxDepth target)

/-- The accumulator that is ranked, the roots taken out. -/
def rankedReach (opts : AffectedTestsOpts) (target : ChangedTarget) : Reach :=
  eraseAll (if opts.classRollup then rolledReach localeCompare db opts.maxDepth target
    else coveredReach localeCompare db opts.maxDepth target) (targetRoots db target)

end Targets

/-! ## Evidence by weight -/

section Evidence
variable {localeCompare : JsString → JsString → Ordering} {db : TestRows}

/-- What a test's rows for an entity weigh together. -/
def coverageWeight (db : TestRows) (testId entityId : JsString) : Option Nat :=
  total (·.1) (·.2.2) ((resolvedCoverage db).filter (·.2.1 = entityId)) testId

theorem getD_foldl_addCoverage (rows : List (JsString × JsString × Nat)) (m : KeyedMap JsString (KeyedMap JsString Nat))
    (entityId : JsString) :
    ((rows.foldl addCoverage m).get entityId).getD .empty =
      (rows.filter (·.2.1 = entityId)).foldl (fun m row => tally m row.1 row.2.2) ((m.get entityId).getD .empty) := by
  induction rows generalizing m with
  | nil => rfl
  | cons row rows ih =>
    rw [List.foldl_cons, ih, addCoverage, KeyedMap.get_set, List.filter_cons]
    by_cases hrow : row.2.1 = entityId
    · simp [hrow]
    · simp [hrow]

/-- The coverage index has one entry for each test that covers the entity. -/
theorem mem_byEntity {entityId : JsString} {e : CoverageEntry} :
    e ∈ byEntity localeCompare db entityId ↔ coverageWeight db e.testId entityId = some e.weight := by
  have hcell := getD_foldl_addCoverage (resolvedCoverage db) .empty entityId
  rw [coverageWeight, ← get_tally_empty]
  rw [KeyedMap.get_empty, Option.getD_none] at hcell
  rw [← hcell, byEntity]
  obtain ⟨testId, weight⟩ := e
  cases ((resolvedCoverage db).foldl addCoverage .empty).get entityId with
  | none =>
    show _ ∈ [] ↔ KeyedMap.get .empty testId = some weight
    simp
  | some perTest =>
    show _ ∈ coverageEntries localeCompare perTest ↔ perTest.get testId = some weight
    simp only [coverageEntries, mem_sortWith, List.mem_map, CoverageEntry.mk.injEq, KeyedMap.get_eq_some]
    constructor
    · rintro ⟨p, hp, rfl, rfl⟩
      exact hp
    · exact fun hp => ⟨_, hp, rfl, rfl⟩

/-- The test covers a root, with that weight. -/
def OwnCoverage (db : TestRows) (roots : List JsString) (t : JsString) (w : Nat) : Prop :=
  ∃ r ∈ roots, coverageWeight db t r = some w

/-- The test covers another member of the class of a root, with that weight. -/
def SiblingCoverage (db : TestRows) (roots : List JsString) (t : JsString) (w : Nat) : Prop :=
  ∃ r ∈ roots, ∃ s ∈ classSiblings db r, s ∉ roots ∧ coverageWeight db t s = some w

/-- A traced call of that weight leads from the test to a node within the cap. -/
def TraceLink (db : TestRows) (roots : List JsString) (cap : Option Nat) (t : JsString) (w : Nat) : Prop :=
  ∃ n traced y, Within cap (n + 1) ∧ Chain db roots n traced y ∧
    ∃ e ∈ db.resolvedTraceEdges, e.resolvedSrc = some t ∧ e.resolvedDst = some y ∧ e.weight = w

theorem mem_coverEntries {roots : List JsString} {e : CoverageEntry} (he : e.testId ∉ roots) :
    e ∈ coverEntries localeCompare db roots ↔ OwnCoverage db roots e.testId e.weight := by
  simp [coverEntries, he, mem_byEntity, OwnCoverage]

theorem mem_rollupEntries {roots : List JsString} {e : CoverageEntry} (he : e.testId ∉ roots) :
    e ∈ rollupEntries localeCompare db roots ↔ SiblingCoverage db roots e.testId e.weight := by
  simp [rollupEntries, he, mem_byEntity, SiblingCoverage, and_assoc]

/-- Trace edges that are relaxed. -/
theorem exists_traceEdge_iff {roots walked : List JsString} (hwalked : ∀ id, id ∈ walked ↔ id ∈ roots)
    {cap : Option Nat} {t : JsString} (ht : t ∉ roots) (w : Nat) :
    (∃ p ∈ walked.flatMap (walkEdges db (buildTraceIn db).1 cap), p.1.src = t ∧ p.1.isTrace = true ∧ w ≤ p.1.weight) ↔
      ∃ w', w ≤ w' ∧ TraceLink db roots cap t w' := by
  have hmem : ∀ p, p ∈ walked.flatMap (walkEdges db (buildTraceIn db).1 cap) ↔
      p ∈ roots.flatMap (walkEdges db (buildTraceIn db).1 cap) := fun p => by
    simp only [List.mem_flatMap, hwalked]
  simp only [hmem]
  rw [exists_walkEdge_iff ht fun e => e.isTrace = true ∧ w ≤ e.weight]
  constructor
  · rintro ⟨n, y, hwithin, haway, e, he, hsrc, htrace, hw⟩
    obtain ⟨row, hrow, hs, hd, hweight⟩ := (mem_relaxations_trace htrace).1 he
    obtain ⟨traced, hchain⟩ := exists_chain_iff.2 haway
    exact ⟨e.weight, hw, n, traced, y, hwithin, hchain, row, hrow, hsrc ▸ hs, hd, hweight⟩
  · rintro ⟨w', hw, n, traced, y, hwithin, hchain, row, hrow, hs, hd, rfl⟩
    exact ⟨n, y, hwithin, exists_chain_iff.1 ⟨traced, hchain⟩, ⟨t, true, row.weight⟩,
      (mem_relaxations_trace rfl).2 ⟨row, hrow, hs, hd, rfl⟩, rfl, rfl, hw⟩

variable {maxDepth : Option JsNumber} {target : ChangedTarget} {t : JsString}

/-- What the walks reach of a node that is no root. -/
theorem known_walked (ht : t ∉ targetRoots db target) :
    Known (fun _ => False) (TraceLink db (targetRoots db target) (depthCap maxDepth) t)
      ((((walkRoots db target).flatMap (walkEdges db (buildTraceIn db).1 (depthCap maxDepth))).foldl touch .empty).get
        t) := by
  obtain ⟨hnone, hsome⟩ := foldl_touch
    ((walkRoots db target).flatMap (walkEdges db (buildTraceIn db).1 (depthCap maxDepth))) t
  have hwalked : ∀ id, id ∈ walkRoots db target ↔ id ∈ targetRoots db target := fun id => mem_walkRoots db
  have hedges : ∀ w, (∃ p ∈ (walkRoots db target).flatMap (walkEdges db (buildTraceIn db).1 (depthCap maxDepth)),
      p.1.src = t ∧ p.1.isTrace = true ∧ w ≤ p.1.weight) ↔
        ∃ w', w ≤ w' ∧ TraceLink db (targetRoots db target) (depthCap maxDepth) t w' := fun w =>
    exists_traceEdge_iff hwalked ht w
  constructor
  · intro r hr
    have hsums := hsome r hr
    constructor
    · simp [hsums.observed]
    · have hzero := hedges 0
      simp only [Nat.zero_le, and_true, true_and] at hzero
      simp only [hsums.viaTrace, hzero, false_or]
    · intro w
      simp only [hsums.traceWeight, hedges, false_or]
  · rintro h w (hfalse | hw)
    · exact hfalse
    obtain ⟨p, hp, hpt, -⟩ := (hedges w).2 ⟨w, Nat.le_refl w, hw⟩
    exact hnone.1 h p hp hpt

theorem known_covered (ht : t ∉ targetRoots db target) :
    Known (OwnCoverage db (targetRoots db target) t) (TraceLink db (targetRoots db target) (depthCap maxDepth) t)
      ((coveredReach localeCompare db maxDepth target).get t) := by
  rw [coveredReach, get_foldl_inject]
  refine ((known_walked ht).foldl_covered _).congr (fun w => ?_) fun _ => Iff.rfl
  rw [false_or]
  constructor
  · rintro ⟨e, he, rfl⟩
    obtain ⟨hmem, htest⟩ := List.mem_filter.1 he
    obtain rfl := of_decide_eq_true htest
    exact (mem_coverEntries ht).1 hmem
  · intro hw
    exact ⟨⟨t, w⟩, List.mem_filter.2 ⟨(mem_coverEntries (e := ⟨t, w⟩) ht).2 hw, decide_eq_true rfl⟩, rfl⟩

theorem known_rolled (ht : t ∉ targetRoots db target) :
    Known (OwnCoverage db (targetRoots db target) t)
      (fun w => TraceLink db (targetRoots db target) (depthCap maxDepth) t w ∨
        SiblingCoverage db (targetRoots db target) t w)
      ((rolledReach localeCompare db maxDepth target).get t) := by
  rw [rolledReach, get_foldl_inject]
  refine ((known_covered ht).foldl_rolledUp _).congr (fun _ => Iff.rfl) fun w => or_congr_right ?_
  constructor
  · rintro ⟨e, he, rfl⟩
    obtain ⟨hmem, htest⟩ := List.mem_filter.1 he
    obtain rfl := of_decide_eq_true htest
    exact (mem_rollupEntries ht).1 hmem
  · intro hw
    exact ⟨⟨t, w⟩, List.mem_filter.2 ⟨(mem_rollupEntries (e := ⟨t, w⟩) ht).2 hw, decide_eq_true rfl⟩, rfl⟩

end Evidence

end Hayven.Db
