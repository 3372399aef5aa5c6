import Hayven.Db.AffectedTests
import Hayven.Db.ImpactLaws
/-!
# What the evidence says

Without coverage, `affectedTestsForFiles` lists the tests that reach a changed file,
once and at their distance. The trace colour of a test is that of the last edge relaxed
into it, not that of a path: `evidenceExact_iff`.
-/
open Hayven.Lib

namespace Hayven.Db

/-! ## The accumulator -/

/-- An edge relaxed at some depth. -/
abbrev Relaxed := Incoming × Nat

def touch (reach : Reach) (p : Relaxed) : Reach :=
  reach.set p.1.src (NodeReach.relaxed (reach.get p.1.src) p.2 p.1.isTrace p.1.weight)

/-- The edges that `reverseWalk` relaxes, in order. -/
def walkEdges (db : TestRows) (traceIn : TraceIn) (cap : Option Nat) (root : JsString) : List Relaxed :=
  (Layer.rounds (relaxations db traceIn) Incoming.src root (cap.getD 0) 1 (.start root)).relaxed

section Walk
variable {db : TestRows} {traceIn : TraceIn} {root : JsString} {reach : Reach}

/-- The walk with its accumulator, and the walk that keeps the edges. -/
structure Records (reach : Reach) (w : ReverseWalk) (l : Layer JsString Incoming) : Prop where
  localDepth : w.localDepth = l.depthOf
  frontier : w.frontier = l.frontier
  reach : w.reach = l.relaxed.foldl touch reach

theorem Records.relax {w : ReverseWalk} {l : Layer JsString Incoming} (h : Records reach w l) (d : Nat) (e : Incoming) :
    Records reach (w.relax root d e) (l.relax Incoming.src root d e) := by
  unfold ReverseWalk.relax Layer.relax
  by_cases hroot : e.src = root
  · rw [if_pos hroot, if_pos hroot]
    exact h
  · rw [if_neg hroot, if_neg hroot]
    dsimp only
    have hstep : w.reach.set e.src (NodeReach.relaxed (w.reach.get e.src) d e.isTrace e.weight) =
        (l.relaxed ++ [(e, d)]).foldl touch reach := by
      rw [List.foldl_append, ← h.reach]
      rfl
    rw [h.localDepth, h.frontier]
    split
    · exact ⟨rfl, rfl, hstep⟩
    · exact ⟨rfl, rfl, hstep⟩

theorem Records.foldl {w : ReverseWalk} {l : Layer JsString Incoming} (h : Records reach w l) (d : Nat)
    (es : List Incoming) :
    Records reach (es.foldl (ReverseWalk.relax root d) w) (es.foldl (Layer.relax Incoming.src root d) l) := by
  induction es generalizing w l with
  | nil => exact h
  | cons e es ih => exact ih (h.relax d e)

variable (db traceIn root) in
theorem Records.level {w : ReverseWalk} {l : Layer JsString Incoming} (h : Records reach w l) (d : Nat) :
    Records reach (w.level db traceIn root d) (l.level (relaxations db traceIn) Incoming.src root d) := by
  unfold ReverseWalk.level Layer.level
  rw [h.frontier]
  have hcleared : Records reach { w with frontier := [] } { l with frontier := [] } := ⟨h.localDepth, rfl, h.reach⟩
  exact hcleared.foldl d _

variable (db traceIn root) in
theorem Records.rounds (n : Nat) : ∀ {d : Nat} {w : ReverseWalk} {l : Layer JsString Incoming}, Records reach w l →
    Records reach (ReverseWalk.rounds db traceIn root n d w)
      (Layer.rounds (relaxations db traceIn) Incoming.src root n d l) := by
  induction n with
  | zero => intro d w l h; exact h
  | succ n ih =>
    intro d w l h
    have hnext := h.level db traceIn root d
    rw [ReverseWalk.rounds, Layer.rounds, hnext.frontier]
    split
    · exact hnext
    · exact ih hnext

/-- The walk accumulates the edges it relaxes. -/
theorem reverseWalk_eq (cap : Option Nat) :
    reverseWalk db root traceIn cap reach = (walkEdges db traceIn cap root).foldl touch reach := by
  have hstart : Records reach ⟨KeyedMap.empty.set root 0, [root], reach⟩ (.start root) := ⟨rfl, rfl, rfl⟩
  exact (hstart.rounds db traceIn root (cap.getD 0)).reach

theorem foldl_reverseWalk (cap : Option Nat) (roots : List JsString) :
    roots.foldl (fun reach root => reverseWalk db root traceIn cap reach) reach =
      (roots.flatMap (walkEdges db traceIn cap)).foldl touch reach := by
  induction roots generalizing reach with
  | nil => rfl
  | cons root roots ih => rw [List.foldl_cons, ih, reverseWalk_eq, List.flatMap_cons, List.foldl_append]

end Walk

/-- What an accumulator knows of the edges relaxed so far. -/
structure Sums (edges : List Relaxed) (x : JsString) (r : NodeReach) : Prop where
  depth : (∃ p ∈ edges, p.1.src = x ∧ p.2 = r.depth) ∧ ∀ p ∈ edges, p.1.src = x → r.depth ≤ p.2
  viaTrace : r.viaTrace = true ↔ ∃ p ∈ edges, p.1.src = x ∧ p.1.isTrace = true
  traceWeight : ∀ w, w ≤ r.traceWeight ↔ w = 0 ∨ ∃ p ∈ edges, p.1.src = x ∧ p.1.isTrace = true ∧ w ≤ p.1.weight
  staticWeight : ∀ w, w ≤ r.staticWeight ↔ w = 0 ∨ ∃ p ∈ edges, p.1.src = x ∧ p.1.isTrace = false ∧ w ≤ p.1.weight
  observed : r.observed = false

section Sums
variable {edges : List Relaxed} {x : JsString}

/-- One more edge from `x` after those before. -/
theorem sums_relaxed {prev : Option NodeReach} (e : Incoming) (d : Nat) (hx : e.src = x)
    (hnone : prev = none → ∀ p ∈ edges, p.1.src ≠ x) (hsome : ∀ r, prev = some r → Sums edges x r) :
    Sums (edges ++ [(e, d)]) x (NodeReach.relaxed prev d e.isTrace e.weight) := by
  have hmem : ∀ (P : Relaxed → Prop), (∃ p ∈ edges ++ [(e, d)], P p) ↔ (∃ p ∈ edges, P p) ∨ P (e, d) := by
    intro P
    simp only [List.mem_append, List.mem_singleton, or_and_right, exists_or, exists_eq_left]
  cases prev with
  | none =>
    have hno : ∀ (P : Relaxed → Prop), ¬ ∃ p ∈ edges, p.1.src = x ∧ P p := fun P ⟨p, hp, hpx, _⟩ => hnone rfl p hp hpx
    constructor
    · refine ⟨(hmem _).2 (.inr ⟨hx, rfl⟩), fun p hp hpx => ?_⟩
      rcases List.mem_append.1 hp with hp | hp
      · exact absurd hpx (hnone rfl p hp)
      · rw [List.mem_singleton.1 hp]
        exact Nat.le_refl d
    · rw [hmem]
      simp [NodeReach.relaxed, hno, hx]
    · intro w
      rw [hmem]
      cases htrace : e.isTrace <;> simp [NodeReach.relaxed, hno, hx]
      omega
    · intro w
      rw [hmem]
      cases htrace : e.isTrace <;> simp [NodeReach.relaxed, hno, hx]
      omega
    · rfl
  | some r =>
    have h := hsome r rfl
    constructor
    · obtain ⟨⟨p, hp, hpx, hdepth⟩, hmin⟩ := h.depth
      simp only [NodeReach.relaxed]
      by_cases hd : d < r.depth
      · rw [if_pos hd]
        refine ⟨(hmem _).2 (.inr ⟨hx, rfl⟩), fun q hq hqx => ?_⟩
        rcases List.mem_append.1 hq with hq | hq
        · exact (Nat.le_of_lt hd).trans (hmin q hq hqx)
        · rw [List.mem_singleton.1 hq]
      · rw [if_neg hd]
        refine ⟨(hmem _).2 (.inl ⟨p, hp, hpx, hdepth⟩), fun q hq hqx => ?_⟩
        rcases List.mem_append.1 hq with hq | hq
        · exact hmin q hq hqx
        · rw [List.mem_singleton.1 hq]
          omega
    · rw [hmem, ← h.viaTrace]
      simp [NodeReach.relaxed, hx]
    · intro w
      rw [hmem, ← or_assoc, ← h.traceWeight]
      simp only [NodeReach.relaxed, hx, true_and]
      split <;> grind
    · intro w
      rw [hmem, ← or_assoc, ← h.staticWeight]
      simp only [NodeReach.relaxed, hx, true_and]
      split <;> grind
    · exact h.observed

/-- The accumulator after the edges. -/
theorem foldl_touch (edges : List Relaxed) (x : JsString) :
    ((edges.foldl touch .empty).get x = none ↔ ∀ p ∈ edges, p.1.src ≠ x) ∧
      ∀ r, (edges.foldl touch .empty).get x = some r → Sums edges x r := by
  induction edges using List.reverseRecOn with
  | nil =>
    refine ⟨by simp, ?_⟩
    rintro r ⟨⟩
  | append_singleton edges p ih =>
    obtain ⟨e, d⟩ := p
    rw [List.foldl_append, List.foldl_cons, List.foldl_nil]
    unfold touch
    dsimp only
    rw [KeyedMap.get_set]
    by_cases hx : e.src = x
    · subst hx
      rw [if_pos rfl]
      refine ⟨⟨nofun, fun h => ?_⟩, ?_⟩
      · exact absurd rfl (h (e, d) (List.mem_append_right _ (List.mem_singleton_self _)))
      rintro r ⟨⟩
      exact sums_relaxed e d rfl ih.1.1 ih.2
    · rw [if_neg hx]
      have hother : ∀ p ∈ edges ++ [(e, d)], p.1.src = x → p ∈ edges := by
        intro p hp hpx
        rcases List.mem_append.1 hp with hp | hp
        · exact hp
        · rw [List.mem_singleton.1 hp] at hpx
          exact absurd hpx hx
      refine ⟨ih.1.trans ⟨fun h p hp hpx => h p (hother p hp hpx) hpx,
        fun h p hp => h p (List.mem_append_left _ hp)⟩, fun r hr => ?_⟩
      have hlift : ∀ (P : Relaxed → Prop), (∃ p ∈ edges, p.1.src = x ∧ P p) ↔
          ∃ p ∈ edges ++ [(e, d)], p.1.src = x ∧ P p :=
        fun P => ⟨fun ⟨p, hp, hpx⟩ => ⟨p, List.mem_append_left _ hp, hpx⟩,
          fun ⟨p, hp, hpx, h⟩ => ⟨p, hother p hp hpx, hpx, h⟩⟩
      obtain ⟨hdepth, hvia, htrace, hstatic, hobs⟩ := ih.2 r hr
      exact ⟨⟨(hlift _).1 hdepth.1, fun p hp hpx => hdepth.2 p (hother p hp hpx) hpx⟩, hvia.trans (hlift _),
        fun w => (htrace w).trans (or_congr_right (hlift _)),
        fun w => (hstatic w).trans (or_congr_right (hlift _)), hobs⟩

/-- The accumulator is determined by which edges were relaxed. -/
theorem Sums.unique {edges' : List Relaxed} {r r' : NodeReach} (hmem : ∀ p, p ∈ edges ↔ p ∈ edges') (h : Sums edges x r)
    (h' : Sums edges' x r') : r = r' := by
  have hdepth : r.depth = r'.depth := by
    obtain ⟨⟨p, hp, hpx, hpd⟩, hmin⟩ := h.depth
    obtain ⟨⟨q, hq, hqx, hqd⟩, hmin'⟩ := h'.depth
    have := hmin q ((hmem q).2 hq) hqx
    have := hmin' p ((hmem p).1 hp) hpx
    omega
  have hvia : r.viaTrace = r'.viaTrace := by
    rw [Bool.eq_iff_iff, h.viaTrace, h'.viaTrace]
    simp only [hmem]
  have htrace : r.traceWeight = r'.traceWeight := by
    refine eq_of_forall_le_iff fun w => ?_
    rw [h.traceWeight, h'.traceWeight]
    simp only [hmem]
  have hstatic : r.staticWeight = r'.staticWeight := by
    refine eq_of_forall_le_iff fun w => ?_
    rw [h.staticWeight, h'.staticWeight]
    simp only [hmem]
  exact NodeReach.ext hdepth hvia htrace hstatic (h.observed.trans h'.observed.symm)

theorem get_foldl_touch_congr {edges' : List Relaxed} (hmem : ∀ p, p ∈ edges ↔ p ∈ edges') (x : JsString) :
    (edges.foldl touch .empty).get x = (edges'.foldl touch .empty).get x := by
  have hnone : (edges.foldl touch .empty).get x = none ↔ (edges'.foldl touch .empty).get x = none := by
    rw [(foldl_touch edges x).1, (foldl_touch edges' x).1]
    simp only [hmem]
  cases h : (edges.foldl touch .empty).get x with
  | none => exact (hnone.1 h).symm
  | some r =>
    cases h' : (edges'.foldl touch .empty).get x with
    | none =>
      rw [hnone.2 h'] at h
      cases h
    | some r' => rw [((foldl_touch edges x).2 r h).unique hmem ((foldl_touch edges' x).2 r' h')]

end Sums

/-! ## Chains -/

/-- A chain of `n` calls, imports and traced calls leads from the node to one of the roots;
the flag says whether it uses a traced call. -/
inductive Chain (db : TestRows) (roots : List JsString) : Nat → Bool → JsString → Prop
  | root {r : JsString} : r ∈ roots → Chain db roots 0 false r
  | static {n : Nat} {traced : Bool} {x : JsString} {e : WeightedEdge} : Chain db roots n traced x → e ∈ db.incoming x →
      e.isDependency = true → Chain db roots (n + 1) traced e.src
  | trace {n : Nat} {traced : Bool} {x y : JsString} {e : ResolvedTraceEdge} : Chain db roots n traced x →
      e ∈ db.resolvedTraceEdges → e.resolvedSrc = some y → e.resolvedDst = some x → Chain db roots (n + 1) true y

section Chains
variable {db : TestRows}

theorem get_foldl_traceIn (ends : List (JsString × JsString × Nat)) (m : TraceIn) (x : JsString) :
    ((ends.foldl (fun traceIn e => traceIn.set e.2.1 ((traceIn.get e.2.1).getD [] ++ [(e.1, e.2.2)]))
      m).get x).getD [] =
      (m.get x).getD [] ++ (ends.filter (·.2.1 = x)).map fun e => (e.1, e.2.2) := by
  induction ends generalizing m with
  | nil => simp
  | cons e ends ih =>
    rw [List.foldl_cons, ih, KeyedMap.get_set]
    by_cases hx : e.2.1 = x
    · subst hx
      simp
    · simp [hx]

theorem mem_relaxations_static {traceIn : TraceIn} {x : JsString} {e : Incoming} (h : e.isTrace = false) :
    e ∈ relaxations db traceIn x ↔
      ∃ row ∈ db.incoming x, row.isDependency = true ∧ e = ⟨row.src, false, row.weight⟩ := by
  simp only [relaxations, List.mem_append, List.mem_map, List.mem_filter]
  constructor
  · rintro (⟨row, ⟨hrow, hdep⟩, rfl⟩ | ⟨t, -, rfl⟩)
    · exact ⟨row, hrow, hdep, rfl⟩
    · cases h
  · rintro ⟨row, hrow, hdep, rfl⟩
    exact .inl ⟨row, ⟨hrow, hdep⟩, rfl⟩

theorem mem_relaxations_trace {x : JsString} {e : Incoming} (h : e.isTrace = true) :
    e ∈ relaxations db (buildTraceIn db).1 x ↔
      ∃ row ∈ db.resolvedTraceEdges,
        row.resolvedSrc = some e.src ∧ row.resolvedDst = some x ∧ row.weight = e.weight := by
  obtain ⟨src, isTrace, weight⟩ := e
  obtain rfl : isTrace = true := h
  simp only [relaxations, List.mem_append, List.mem_map, buildTraceIn, get_foldl_traceIn, KeyedMap.get_empty,
    Option.getD_none, List.nil_append, List.mem_filter, List.mem_filterMap, ResolvedTraceEdge.ends, decide_eq_true_eq,
    Incoming.mk.injEq, Option.bind_eq_some_iff, Option.map_eq_some_iff]
  constructor
  · rintro (⟨_, -, -, hfalse, -⟩ | ⟨t, ⟨_, ⟨⟨row, hrow, s, hs, d, hd, rfl⟩, rfl⟩, rfl⟩, rfl, -, rfl⟩)
    · cases hfalse
    · exact ⟨row, hrow, hs, hd, rfl⟩
  · rintro ⟨row, hrow, hs, hd, rfl⟩
    exact .inr ⟨(src, row.weight), ⟨(src, x, row.weight), ⟨⟨row, hrow, src, hs, x, hd, rfl⟩, rfl⟩, rfl⟩, rfl, trivial,
      rfl⟩

theorem relaxations_empty_isTrace {x : JsString} {e : Incoming} (h : e ∈ relaxations db .empty x) :
    e.isTrace = false := by
  simp only [relaxations, KeyedMap.get_empty, Option.getD_none, List.map_nil, List.append_nil, List.mem_map] at h
  obtain ⟨_, -, rfl⟩ := h
  rfl

variable {roots : List JsString}

/-- The chains are those of the walk's links, from any of the roots. -/
theorem exists_chain_iff {n : Nat} {x : JsString} :
    (∃ traced, Chain db roots n traced x) ↔
      ∃ r ∈ roots, Away (relaxations db (buildTraceIn db).1) Incoming.src r n x := by
  constructor
  · rintro ⟨traced, h⟩
    induction h with
    | @root r hr => exact ⟨r, hr, .root⟩
    | @static n traced x e _ he hdep ih =>
      obtain ⟨r, hr, haway⟩ := ih
      exact ⟨r, hr, .step haway ((mem_relaxations_static (e := ⟨e.src, false, e.weight⟩) rfl).2 ⟨e, he, hdep, rfl⟩)⟩
    | @trace n traced x y e _ he hs hd ih =>
      obtain ⟨r, hr, haway⟩ := ih
      exact ⟨r, hr, .step haway ((mem_relaxations_trace (e := ⟨y, true, e.weight⟩) rfl).2 ⟨e, he, hs, hd, rfl⟩)⟩
  · rintro ⟨r, hr, h⟩
    induction h with
    | root => exact ⟨false, .root hr⟩
    | @step n x e _ he ih =>
      obtain ⟨traced, hchain⟩ := ih
      cases htrace : e.isTrace with
      | false =>
        obtain ⟨row, hrow, hdep, rfl⟩ := (mem_relaxations_static htrace).1 he
        exact ⟨traced, .static hchain hrow hdep⟩
      | true =>
        obtain ⟨row, hrow, hs, hd, -⟩ := (mem_relaxations_trace htrace).1 he
        exact ⟨true, .trace hchain hrow hs hd⟩

/-- The chains without a traced call are those of the walk without trace edges. -/
theorem static_chain_iff {n : Nat} {x : JsString} :
    Chain db roots n false x ↔ ∃ r ∈ roots, Away (relaxations db .empty) Incoming.src r n x := by
  constructor
  · intro h
    generalize htraced : false = traced at h
    induction h with
    | @root r hr => exact ⟨r, hr, .root⟩
    | @static n traced x e _ he hdep ih =>
      obtain ⟨r, hr, haway⟩ := ih htraced
      exact ⟨r, hr, .step haway ((mem_relaxations_static (e := ⟨e.src, false, e.weight⟩) rfl).2 ⟨e, he, hdep, rfl⟩)⟩
    | trace => cases htraced
  · rintro ⟨r, hr, h⟩
    induction h with
    | root => exact .root hr
    | @step n x e _ he ih =>
      obtain ⟨row, hrow, hdep, rfl⟩ := (mem_relaxations_static (relaxations_empty_isTrace he)).1 he
      exact .static ih hrow hdep

end Chains

/-! ## What is relaxed -/

section Reached
variable {db : TestRows} {traceIn : TraceIn} {cap : Option Nat} {roots : List JsString}

theorem mem_walkEdges {root : JsString} {p : Relaxed} :
    p ∈ walkEdges db traceIn cap root ↔
      p.1.src ≠ root ∧ ∃ k < cap.getD 0, p.2 = k + 1 ∧
        ∃ y, NearestAway (relaxations db traceIn) Incoming.src root k y ∧ p.1 ∈ relaxations db traceIn y :=
  mem_relaxed (cap.getD 0) p.1 p.2

/-- An edge is relaxed where it leads to a node within the cap. -/
theorem exists_walkEdge_iff {x : JsString} (hx : x ∉ roots) (P : Incoming → Prop) :
    (∃ p ∈ roots.flatMap (walkEdges db traceIn cap), p.1.src = x ∧ P p.1) ↔
      ∃ n y, Within cap (n + 1) ∧ (∃ r ∈ roots, Away (relaxations db traceIn) Incoming.src r n y) ∧
        ∃ e ∈ relaxations db traceIn y, e.src = x ∧ P e := by
  simp only [List.mem_flatMap, mem_walkEdges]
  constructor
  · rintro ⟨p, ⟨r, hr, -, k, hk, -, y, hy, he⟩, hpx, hP⟩
    refine ⟨k, y, (le_getD_iff (Nat.succ_ne_zero k)).1 hk, ⟨r, hr, hy.1⟩, p.1, he, hpx, hP⟩
  · rintro ⟨n, y, hwithin, ⟨r, hr, haway⟩, e, he, rfl, hP⟩
    obtain ⟨k, hk, hnear⟩ := haway.nearest
    have hcap := (le_getD_iff (Nat.succ_ne_zero n)).2 hwithin
    refine ⟨(e, k + 1), ⟨r, hr, ?_, k, by omega, rfl, y, hnear, he⟩, rfl, hP⟩
    rintro rfl
    exact hx hr

/-- The depths at which a node is reached lie between the nearest distance and the cap. -/
theorem depth_of_walkEdge {x : JsString} (hx : x ∉ roots) (n : Nat) :
    (∃ p ∈ roots.flatMap (walkEdges db traceIn cap), p.1.src = x ∧ p.2 ≤ n) ↔
      ∃ m ≤ n, Within cap m ∧ ∃ r ∈ roots, Away (relaxations db traceIn) Incoming.src r m x := by
  simp only [List.mem_flatMap, mem_walkEdges]
  constructor
  · rintro ⟨p, ⟨r, hr, -, k, hk, hp, y, hy, he⟩, rfl, hn⟩
    exact ⟨k + 1, by omega, (le_getD_iff (Nat.succ_ne_zero k)).1 hk, r, hr, .step hy.1 he⟩
  · rintro ⟨m, hm, hwithin, r, hr, haway⟩
    cases haway with
    | root => exact absurd hr hx
    | @step m y e haway he =>
      obtain ⟨k, hk, hnear⟩ := haway.nearest
      have hcap := (le_getD_iff (Nat.succ_ne_zero m)).2 hwithin
      refine ⟨(e, k + 1), ⟨r, hr, ?_, k, by omega, rfl, y, hnear, he⟩, rfl, by omega⟩
      rintro rfl
      exact hx hr

theorem within_of_walkEdge {p : Relaxed} (h : p ∈ roots.flatMap (walkEdges db traceIn cap)) : Within cap p.2 := by
  obtain ⟨r, -, hp⟩ := List.mem_flatMap.1 h
  obtain ⟨-, k, hk, heq, -⟩ := mem_walkEdges.1 hp
  rw [heq]
  exact (le_getD_iff (Nat.succ_ne_zero k)).1 hk

theorem get_reach_ne_none {x : JsString} (hx : x ∉ roots) :
    ((roots.flatMap (walkEdges db traceIn cap)).foldl touch .empty).get x ≠ none ↔
      ∃ m, Within cap m ∧ ∃ r ∈ roots, Away (relaxations db traceIn) Incoming.src r m x := by
  rw [ne_eq, (foldl_touch _ x).1, not_forall]
  simp only [not_forall, exists_prop, not_not]
  constructor
  · rintro ⟨p, hp, hpx⟩
    obtain ⟨m, -, h⟩ := (depth_of_walkEdge hx p.2).1 ⟨p, hp, hpx, Nat.le_refl _⟩
    exact ⟨m, h⟩
  · rintro ⟨m, h⟩
    obtain ⟨p, hp, hpx, -⟩ := (depth_of_walkEdge hx m).2 ⟨m, Nat.le_refl m, h⟩
    exact ⟨p, hp, hpx⟩

end Reached

/-! ## The list -/

section Ranked
variable {localeCompare : JsString → JsString → Ordering} {db : TestRows} {patterns : Option (List JsString)}

theorem get_eraseAll (reach : Reach) (ids : List JsString) (x : JsString) :
    (eraseAll reach ids).get x = if x ∈ ids then none else reach.get x := by
  unfold eraseAll
  induction ids generalizing reach with
  | nil => simp
  | cons id ids ih =>
    rw [List.foldl_cons, ih, KeyedMap.get_erase]
    by_cases hx : x = id
    · subst hx
      simp
    · simp [hx]

theorem handleOf_id {id : JsString} {handle : TestHandle} (h : handleOf db patterns id = some handle) :
    handle.id = id := by
  obtain ⟨node, -, hclass⟩ := Option.bind_eq_some_iff.1 h
  exact (classifyTest_eq_some hclass).2.1

/-- The candidates for the list, before they are ordered. -/
theorem mem_candidates {reach : Reach} {staticReach : List JsString} {t : AffectedTest} :
    t ∈ reach.entries.filterMap (fun row => (handleOf db patterns row.1).map (affectedTest staticReach row.1 row.2)) ↔
      ∃ r handle, reach.get t.id = some r ∧ handleOf db patterns t.id = some handle ∧
        t = affectedTest staticReach t.id r handle := by
  simp only [List.mem_filterMap, Option.map_eq_some_iff]
  constructor
  · rintro ⟨⟨id, r⟩, hmem, handle, hhandle, rfl⟩
    have hid : (affectedTest staticReach id r handle).id = id := handleOf_id hhandle
    rw [hid]
    exact ⟨r, handle, KeyedMap.get_eq_some.2 hmem, hhandle, rfl⟩
  · rintro ⟨r, handle, hget, hhandle, ht⟩
    exact ⟨(t.id, r), KeyedMap.get_eq_some.1 hget, handle, hhandle, ht.symm⟩

theorem nodup_candidates (reach : Reach) (staticReach : List JsString) :
    ((reach.entries.filterMap fun row =>
      (handleOf db patterns row.1).map (affectedTest staticReach row.1 row.2)).map (·.id)).Nodup := by
  have hkeys := reach.nodup
  rw [List.Nodup, List.pairwise_map] at hkeys ⊢
  refine List.Pairwise.filterMap _ (fun row row' hne t ht t' ht' => ?_) hkeys
  obtain ⟨handle, hhandle, rfl⟩ := Option.map_eq_some_iff.1 ht
  obtain ⟨handle', hhandle', rfl⟩ := Option.map_eq_some_iff.1 ht'
  show handle.id ≠ handle'.id
  rwa [handleOf_id hhandle, handleOf_id hhandle']

theorem rankReached_eq {reach : Reach} {staticReach : List JsString} {precise : Bool} :
    rankReached localeCompare db reach patterns false none precise staticReach =
      sortWith (testOrder localeCompare) (reach.entries.filterMap fun row =>
        (handleOf db patterns row.1).map (affectedTest staticReach row.1 row.2)) := rfl

theorem mem_rankReached {reach : Reach} {staticReach : List JsString} {precise : Bool} {t : AffectedTest} :
    t ∈ rankReached localeCompare db reach patterns false none precise staticReach ↔
      ∃ r handle, reach.get t.id = some r ∧ handleOf db patterns t.id = some handle ∧
        t = affectedTest staticReach t.id r handle := by
  rw [rankReached_eq, mem_sortWith, mem_candidates]

theorem nodup_rankReached (reach : Reach) (staticReach : List JsString) (precise : Bool) :
    ((rankReached localeCompare db reach patterns false none precise staticReach).map (·.id)).Nodup := by
  rw [rankReached_eq]
  exact ((sortWith_perm _ _).map _).nodup_iff.2 (nodup_candidates reach staticReach)

end Ranked

/-! ## Without coverage -/

section Fallback
variable {localeCompare : JsString → JsString → Ordering} {db : TestRows} {files : List JsString}
  {opts : AffectedTestsOpts}

theorem mem_rootsOf {id : JsString} : id ∈ rootsOf db files ↔ ∃ file ∈ files, id ∈ db.idsIn file := by
  rw [rootsOf, mem_addAll, List.mem_flatMap, or_iff_right List.not_mem_nil]

theorem mem_staticReachableSet {roots : List JsString} {cap : Option Nat} {id : JsString} (hid : id ∉ roots) :
    id ∈ staticReachableSet db roots cap ↔ ∃ n, Within cap n ∧ Chain db roots n false id := by
  rw [staticReachableSet, foldl_reverseWalk, KeyedMap.mem_keys, ← Option.ne_none_iff_exists', get_reach_ne_none hid]
  simp only [static_chain_iff]

theorem get_reachOfFiles (hcoverage : db.coverage = []) {id : JsString} (hid : id ∉ rootsOf db files) :
    (reachOfFiles localeCompare db files opts).get id =
      (((rootsOf db files).flatMap (walkEdges db (buildTraceIn db).1 (depthCap opts.maxDepth))).foldl touch .empty).get
        id := by
  have hnone : ¬ 0 < db.coverage.length := by simp [hcoverage]
  rw [reachOfFiles]
  dsimp only
  rw [get_eraseAll, if_neg hid, if_neg hnone, walkFiles, foldl_reverseWalk]
  apply get_foldl_touch_congr
  intro p
  simp only [List.mem_flatMap, mem_rootsOf]

theorem get_reachOfFiles_root {id : JsString} (hid : id ∈ rootsOf db files) :
    (reachOfFiles localeCompare db files opts).get id = none := by
  rw [reachOfFiles]
  dsimp only
  rw [get_eraseAll, if_pos hid]

/-- The list in full, without coverage. -/
theorem tests_fallback (hcoverage : db.coverage = []) (htraceOnly : opts.traceOnly = false)
    (hlimit : opts.limit = none) :
    (affectedTestsForFiles localeCompare db files opts).tests =
      rankReached localeCompare db (reachOfFiles localeCompare db files opts) opts.patterns false none false
        (staticReachableSet db (rootsOf db files) (depthCap opts.maxDepth)) := by
  have hnone : ¬ 0 < db.coverage.length := by simp [hcoverage]
  rw [affectedTestsForFiles]
  simp only [hnone, decide_false, Bool.false_eq_true, false_and, if_false, perRootFallback, List.flatMap_nil,
    List.foldl_nil, hlimit, limited, htraceOnly]

/-- What the fields of a listed test are read off. -/
structure Listed (localeCompare : JsString → JsString → Ordering) (db : TestRows) (files : List JsString)
    (opts : AffectedTestsOpts) (t : AffectedTest) (r : NodeReach) (handle : TestHandle) : Prop where
  notRoot : t.id ∉ rootsOf db files
  classified : handleOf db opts.patterns t.id = some handle
  sums : Sums ((rootsOf db files).flatMap (walkEdges db (buildTraceIn db).1 (depthCap opts.maxDepth))) t.id r
  eq : t = affectedTest (staticReachableSet db (rootsOf db files) (depthCap opts.maxDepth)) t.id r handle

theorem listed_of_mem (hcoverage : db.coverage = []) (htraceOnly : opts.traceOnly = false)
    (hlimit : opts.limit = none) {t : AffectedTest}
    (h : t ∈ (affectedTestsForFiles localeCompare db files opts).tests) :
    ∃ r handle, Listed localeCompare db files opts t r handle := by
  rw [tests_fallback hcoverage htraceOnly hlimit, mem_rankReached] at h
  obtain ⟨r, handle, hget, hhandle, ht⟩ := h
  have hid : t.id ∉ rootsOf db files := by
    intro hroot
    rw [get_reachOfFiles_root hroot] at hget
    cases hget
  rw [get_reachOfFiles hcoverage hid] at hget
  exact ⟨r, handle, hid, hhandle, (foldl_touch _ _).2 r hget, ht⟩

/-- The tests listed: those that are no root and from which a chain within the cap leads to one. -/
theorem exists_listed_iff (hcoverage : db.coverage = []) (htraceOnly : opts.traceOnly = false)
    (hlimit : opts.limit = none) (id : JsString) :
    (∃ t ∈ (affectedTestsForFiles localeCompare db files opts).tests, t.id = id) ↔
      id ∉ rootsOf db files ∧ (handleOf db opts.patterns id).isSome = true ∧
        ∃ n traced, Within (depthCap opts.maxDepth) n ∧ Chain db (rootsOf db files) n traced id := by
  have hchains : (∃ n traced, Within (depthCap opts.maxDepth) n ∧ Chain db (rootsOf db files) n traced id) ↔
      ∃ n, Within (depthCap opts.maxDepth) n ∧
        ∃ r ∈ rootsOf db files, Away (relaxations db (buildTraceIn db).1) Incoming.src r n id := by
    simp only [exists_and_left, exists_chain_iff]
  rw [hchains]
  constructor
  · rintro ⟨t, ht, rfl⟩
    obtain ⟨r, handle, hlisted⟩ := listed_of_mem hcoverage htraceOnly hlimit ht
    refine ⟨hlisted.notRoot, by rw [hlisted.classified]; rfl, ?_⟩
    obtain ⟨p, hp, hpx, hpd⟩ := hlisted.sums.depth.1
    obtain ⟨m, -, hm⟩ := (depth_of_walkEdge hlisted.notRoot r.depth).1 ⟨p, hp, hpx, hpd.le⟩
    exact ⟨m, hm⟩
  · rintro ⟨hid, hhandle, hreached⟩
    rw [← get_reach_ne_none hid, Option.ne_none_iff_exists'] at hreached
    obtain ⟨r, hr⟩ := hreached
    obtain ⟨handle, hhandle⟩ := Option.isSome_iff_exists.1 hhandle
    have htid : (affectedTest (staticReachableSet db (rootsOf db files) (depthCap opts.maxDepth)) id r handle).id =
        id := handleOf_id hhandle
    refine ⟨_, ?_, htid⟩
    rw [tests_fallback hcoverage htraceOnly hlimit, mem_rankReached, htid, get_reachOfFiles hcoverage hid]
    exact ⟨r, handle, hr, hhandle, rfl⟩

/-- The depth is the distance to the nearest root. -/
theorem Listed.depth {t : AffectedTest} {r : NodeReach} {handle : TestHandle}
    (h : Listed localeCompare db files opts t r handle) :
    (∃ traced, Chain db (rootsOf db files) t.depth traced t.id) ∧
      ∀ n traced, Chain db (rootsOf db files) n traced t.id → t.depth ≤ n := by
  have hdepth : t.depth = r.depth := by rw [h.eq]; rfl
  rw [hdepth]
  obtain ⟨⟨p, hp, hpx, hpd⟩, hmin⟩ := h.sums.depth
  obtain ⟨m, hm, -, haway⟩ := (depth_of_walkEdge h.notRoot r.depth).1 ⟨p, hp, hpx, hpd.le⟩
  have hwithin := within_of_walkEdge hp
  have hbound : ∀ n, (∃ root ∈ rootsOf db files, Away (relaxations db (buildTraceIn db).1) Incoming.src root n t.id) →
      r.depth ≤ n := by
    intro n haway'
    by_contra hlt
    obtain ⟨c, hc, hcm⟩ := hwithin
    obtain ⟨q, hq, hqx, hqn⟩ := (depth_of_walkEdge h.notRoot n).2 ⟨n, Nat.le_refl n, ⟨c, hc, by omega⟩, haway'⟩
    have := hmin q hq hqx
    omega
  obtain rfl : m = r.depth := by
    have := hbound m haway
    omega
  exact ⟨exists_chain_iff.2 haway, fun n traced hchain => hbound n (exists_chain_iff.1 ⟨traced, hchain⟩)⟩

/-- A traced call leads from the node to one within the cap. -/
def StartsTraced (db : TestRows) (roots : List JsString) (cap : Option Nat) (id : JsString) : Prop :=
  ∃ n traced y, Within cap (n + 1) ∧ Chain db roots n traced y ∧
    ∃ e ∈ db.resolvedTraceEdges, e.resolvedSrc = some id ∧ e.resolvedDst = some y

theorem Listed.evidence {t : AffectedTest} {r : NodeReach} {handle : TestHandle}
    (h : Listed localeCompare db files opts t r handle) :
    t.evidence = .trace ↔ StartsTraced db (rootsOf db files) (depthCap opts.maxDepth) t.id := by
  have hevidence : t.evidence = .trace ↔ r.viaTrace = true := by
    rw [h.eq]
    cases hvia : r.viaTrace <;> simp [affectedTest, hvia]
  rw [hevidence, h.sums.viaTrace, exists_walkEdge_iff h.notRoot fun e => e.isTrace = true]
  constructor
  · rintro ⟨n, y, hwithin, haway, e, he, hsrc, htrace⟩
    obtain ⟨row, hrow, hs, hd, -⟩ := (mem_relaxations_trace htrace).1 he
    obtain ⟨traced, hchain⟩ := exists_chain_iff.2 haway
    exact ⟨n, traced, y, hwithin, hchain, row, hrow, hsrc ▸ hs, hd⟩
  · rintro ⟨n, traced, y, hwithin, hchain, row, hrow, hs, hd⟩
    exact ⟨n, y, hwithin, exists_chain_iff.1 ⟨traced, hchain⟩, ⟨t.id, true, row.weight⟩,
      (mem_relaxations_trace rfl).2 ⟨row, hrow, hs, hd, rfl⟩, rfl, rfl⟩

theorem Listed.staticReachable {t : AffectedTest} {r : NodeReach} {handle : TestHandle}
    (h : Listed localeCompare db files opts t r handle) :
    t.staticReachable = true ↔ ∃ n, Within (depthCap opts.maxDepth) n ∧ Chain db (rootsOf db files) n false t.id := by
  rw [← mem_staticReachableSet h.notRoot, h.eq, affectedTest]
  dsimp only
  rw [decide_eq_true_eq, handleOf_id h.classified]

theorem Listed.dispatchOnly {t : AffectedTest} {r : NodeReach} {handle : TestHandle}
    (h : Listed localeCompare db files opts t r handle) :
    t.dispatchOnly = true ↔ t.evidence = .trace ∧ ¬ t.staticReachable = true := by
  rw [h.eq]
  cases hvia : r.viaTrace <;> simp [affectedTest, hvia]

/-! ## Exact evidence -/

/-- The list is exact, and so is the evidence of every test in it. -/
structure EvidenceExact (db : TestRows) (roots : List JsString) (opts : AffectedTestsOpts) (tests : List AffectedTest) :
    Prop where
  listed : ∀ id, (∃ t ∈ tests, t.id = id) ↔ id ∉ roots ∧ (handleOf db opts.patterns id).isSome = true ∧
    ∃ n traced, Within (depthCap opts.maxDepth) n ∧ Chain db roots n traced id
  once : (tests.map (·.id)).Nodup
  depth : ∀ t ∈ tests, (∃ traced, Chain db roots t.depth traced t.id) ∧
    ∀ n traced, Chain db roots n traced t.id → t.depth ≤ n
  evidence : ∀ t ∈ tests, t.evidence = .trace ↔ ∃ n, Within (depthCap opts.maxDepth) n ∧ Chain db roots n true t.id
  staticReachable : ∀ t ∈ tests, t.staticReachable = true ↔
    ∃ n, Within (depthCap opts.maxDepth) n ∧ Chain db roots n false t.id
  dispatchOnly : ∀ t ∈ tests, t.dispatchOnly = true ↔
    ¬ ∃ n, Within (depthCap opts.maxDepth) n ∧ Chain db roots n false t.id

/-- The same rows in another order. -/
structure SameRows (db db' : TestRows) : Prop where
  nodes : ∀ id, db.nodes.get id = db'.nodes.get id
  edges : db.edges.Perm db'.edges
  resolvedTraceEdges : db.resolvedTraceEdges.Perm db'.resolvedTraceEdges
  coverage : db.coverage.Perm db'.coverage

/-- Every test that a traced call leads to a root within the cap starts with one. -/
def TracedFirst (db : TestRows) (roots : List JsString) (opts : AffectedTestsOpts) : Prop :=
  ∀ id, id ∉ roots → (handleOf db opts.patterns id).isSome = true →
    ∀ n, Within (depthCap opts.maxDepth) n → Chain db roots n true id →
      StartsTraced db roots (depthCap opts.maxDepth) id

theorem StartsTraced.chain {roots : List JsString} {cap : Option Nat} {id : JsString}
    (h : StartsTraced db roots cap id) :
    ∃ n, Within cap n ∧ Chain db roots n true id := by
  obtain ⟨n, traced, y, hwithin, hchain, e, he, hs, hd⟩ := h
  exact ⟨n + 1, hwithin, .trace hchain he hs hd⟩

theorem evidenceExact_of_tracedFirst (hcoverage : db.coverage = []) (htraceOnly : opts.traceOnly = false)
    (hlimit : opts.limit = none) (h : TracedFirst db (rootsOf db files) opts) :
    EvidenceExact db (rootsOf db files) opts (affectedTestsForFiles localeCompare db files opts).tests := by
  have hfirst : ∀ t r handle, Listed localeCompare db files opts t r handle →
      (t.evidence = .trace ↔ ∃ n, Within (depthCap opts.maxDepth) n ∧ Chain db (rootsOf db files) n true t.id) := by
    intro t r handle hlisted
    rw [hlisted.evidence]
    constructor
    · exact StartsTraced.chain
    · rintro ⟨n, hwithin, hchain⟩
      exact h t.id hlisted.notRoot (by rw [hlisted.classified]; rfl) n hwithin hchain
  constructor
  · exact exists_listed_iff hcoverage htraceOnly hlimit
  · rw [tests_fallback hcoverage htraceOnly hlimit]
    exact nodup_rankReached _ _ _
  · intro t ht
    obtain ⟨r, handle, hlisted⟩ := listed_of_mem hcoverage htraceOnly hlimit ht
    exact hlisted.depth
  · intro t ht
    obtain ⟨r, handle, hlisted⟩ := listed_of_mem hcoverage htraceOnly hlimit ht
    exact hfirst t r handle hlisted
  · intro t ht
    obtain ⟨r, handle, hlisted⟩ := listed_of_mem hcoverage htraceOnly hlimit ht
    exact hlisted.staticReachable
  · intro t ht
    obtain ⟨r, handle, hlisted⟩ := listed_of_mem hcoverage htraceOnly hlimit ht
    rw [hlisted.dispatchOnly, ← hlisted.staticReachable, hfirst t r handle hlisted]
    refine ⟨fun h => h.2, fun hstatic => ⟨?_, hstatic⟩⟩
    -- some chain reaches the root, and no static one does
    obtain ⟨-, -, n, traced, hwithin, hchain⟩ := (exists_listed_iff hcoverage htraceOnly hlimit t.id).1 ⟨t, ht, rfl⟩
    cases traced with
    | true => exact ⟨n, hwithin, hchain⟩
    | false => exact absurd (hlisted.staticReachable.2 ⟨n, hwithin, hchain⟩) hstatic

theorem tracedFirst_of_evidenceExact (hcoverage : db.coverage = []) (htraceOnly : opts.traceOnly = false)
    (hlimit : opts.limit = none)
    (h : EvidenceExact db (rootsOf db files) opts (affectedTestsForFiles localeCompare db files opts).tests) :
    TracedFirst db (rootsOf db files) opts := by
  intro id hid hhandle n hwithin hchain
  obtain ⟨t, ht, rfl⟩ := (h.listed id).2 ⟨hid, hhandle, n, true, hwithin, hchain⟩
  obtain ⟨r, handle, hlisted⟩ := listed_of_mem hcoverage htraceOnly hlimit ht
  exact hlisted.evidence.1 ((h.evidence t ht).2 ⟨n, hwithin, hchain⟩)

/-! ## Order -/

theorem SameRows.mem_idsIn {db db' : TestRows} (h : SameRows db db') (file id : JsString) :
    id ∈ db.idsIn file ↔ id ∈ db'.idsIn file := by
  have hrows : ∀ row, row ∈ db.nodes.entries ↔ row ∈ db'.nodes.entries := fun row => by
    rw [← KeyedMap.get_eq_some, ← KeyedMap.get_eq_some, h.nodes]
  simp only [TestRows.idsIn, List.mem_map, List.mem_filter, hrows]

theorem SameRows.mem_relaxations {db db' : TestRows} (h : SameRows db db') (x : JsString) (e : Incoming) :
    (e ∈ relaxations db (buildTraceIn db).1 x ↔ e ∈ relaxations db' (buildTraceIn db').1 x) ∧
      (e ∈ relaxations db .empty x ↔ e ∈ relaxations db' .empty x) := by
  have hincoming : ∀ row, row ∈ db.incoming x ↔ row ∈ db'.incoming x := fun row => by
    simp only [TestRows.incoming, List.mem_filter, h.edges.mem_iff]
  cases htrace : e.isTrace with
  | false => simp only [mem_relaxations_static htrace, hincoming, and_self]
  | true =>
    refine ⟨by simp only [mem_relaxations_trace htrace, h.resolvedTraceEdges.mem_iff], ?_⟩
    constructor
    · intro he
      rw [relaxations_empty_isTrace he] at htrace
      cases htrace
    · intro he
      rw [relaxations_empty_isTrace he] at htrace
      cases htrace

theorem away_congr {into into' : JsString → List Incoming} (h : ∀ x e, e ∈ into x ↔ e ∈ into' x) {r : JsString}
    {n : Nat} {x : JsString} : Away into Incoming.src r n x ↔ Away into' Incoming.src r n x := by
  constructor
  · intro haway
    induction haway with
    | root => exact .root
    | step _ he ih => exact .step ih ((h _ _).1 he)
  · intro haway
    induction haway with
    | root => exact .root
    | step _ he ih => exact .step ih ((h _ _).2 he)

theorem mem_walkEdges_congr {db db' : TestRows} {traceIn traceIn' : TraceIn} {cap : Option Nat} {root : JsString}
    (h : ∀ x e, e ∈ relaxations db traceIn x ↔ e ∈ relaxations db' traceIn' x) (p : Relaxed) :
    p ∈ walkEdges db traceIn cap root ↔ p ∈ walkEdges db' traceIn' cap root := by
  simp only [mem_walkEdges, NearestAway, away_congr h, h]

/-- A listed test is listed, with all its fields, whatever the order of the rows and files. -/
theorem mem_tests_congr {db db' : TestRows} {files files' : List JsString} (hcoverage : db.coverage = [])
    (htraceOnly : opts.traceOnly = false) (hlimit : opts.limit = none) (hrows : SameRows db db')
    (hfiles : ∀ f, f ∈ files ↔ f ∈ files') (t : AffectedTest) :
    t ∈ (affectedTestsForFiles localeCompare db files opts).tests ↔
      t ∈ (affectedTestsForFiles localeCompare db' files' opts).tests := by
  have hcoverage' : db'.coverage = [] := by
    have hperm := hrows.coverage
    rw [hcoverage] at hperm
    exact hperm.symm.eq_nil
  have hroots : ∀ id, id ∈ rootsOf db files ↔ id ∈ rootsOf db' files' := fun id => by
    simp only [mem_rootsOf, hfiles, hrows.mem_idsIn]
  have hget : ∀ id, (reachOfFiles localeCompare db files opts).get id =
      (reachOfFiles localeCompare db' files' opts).get id := by
    intro id
    by_cases hid : id ∈ rootsOf db files
    · rw [get_reachOfFiles_root hid, get_reachOfFiles_root ((hroots id).1 hid)]
    · rw [get_reachOfFiles hcoverage hid, get_reachOfFiles hcoverage' (mt (hroots id).2 hid)]
      apply get_foldl_touch_congr
      intro p
      simp only [List.mem_flatMap, hroots, mem_walkEdges_congr fun x e => (hrows.mem_relaxations x e).1]
  have hhandle : handleOf db opts.patterns t.id = handleOf db' opts.patterns t.id := by
    rw [handleOf, handleOf, hrows.nodes]
  have hstatic : t.id ∈ staticReachableSet db (rootsOf db files) (depthCap opts.maxDepth) ↔
      t.id ∈ staticReachableSet db' (rootsOf db' files') (depthCap opts.maxDepth) := by
    simp only [staticReachableSet, foldl_reverseWalk, KeyedMap.mem_keys]
    rw [get_foldl_touch_congr]
    intro p
    simp only [List.mem_flatMap, hroots, mem_walkEdges_congr fun x e => (hrows.mem_relaxations x e).2]
  rw [tests_fallback hcoverage htraceOnly hlimit, tests_fallback hcoverage' htraceOnly hlimit, mem_rankReached,
    mem_rankReached, hget, hhandle]
  simp only [affectedTest, hstatic]

/-- Without coverage, `traceOnly` and a limit, the list and the evidence in it are exact exactly
where every test from which a chain with a traced call leads to a root starts with one; they
never depend on the order of the files or of the rows. -/
theorem evidenceExact_iff (hcoverage : db.coverage = []) (htraceOnly : opts.traceOnly = false)
    (hlimit : opts.limit = none) :
    (EvidenceExact db (rootsOf db files) opts (affectedTestsForFiles localeCompare db files opts).tests ∧
      ∀ db' files', SameRows db db' → (∀ f, f ∈ files ↔ f ∈ files') → ∀ t,
        t ∈ (affectedTestsForFiles localeCompare db files opts).tests ↔
          t ∈ (affectedTestsForFiles localeCompare db' files' opts).tests) ↔
      TracedFirst db (rootsOf db files) opts := by
  constructor
  · rintro ⟨hexact, -⟩
    exact tracedFirst_of_evidenceExact hcoverage htraceOnly hlimit hexact
  · intro h
    refine ⟨evidenceExact_of_tracedFirst hcoverage htraceOnly hlimit h, fun db' files' hrows hfiles t => ?_⟩
    exact mem_tests_congr hcoverage htraceOnly hlimit hrows hfiles t

end Fallback

/-! ## A traced call behind a static one -/

section Behind

def runId : JsString := ascii "src/app/run"

def helperId : JsString := ascii "src/util/helper"

def testRunId : JsString := ascii "tests/test_app/test_run"

def appFile : JsString := ascii "src/app.py"

def appNodes : KeyedMap JsString NodeColumns :=
  ((KeyedMap.empty.set runId ⟨ascii "run", ascii "run", ascii "function", none, some appFile⟩).set helperId
    ⟨ascii "helper", ascii "helper", ascii "function", none, some (ascii "src/util.py")⟩).set testRunId
      ⟨ascii "test_run", ascii "test_run", ascii "function", none, some (ascii "tests/test_app.py")⟩

/-- The test was seen to call `run`. -/
def tracedRows : TestRows := ⟨appNodes, [], [⟨some testRunId, some runId, 1⟩], [], fun _ => none⟩

theorem tracedRows_first : TracedFirst tracedRows (rootsOf tracedRows [appFile]) {} := by
  intro id _ _ n hwithin hchain
  cases hchain with
  | static _ he => exact absurd he List.not_mem_nil
  | trace hchain he hs hd => exact ⟨_, _, _, hwithin, hchain, _, he, hs, hd⟩

theorem evidenceExact_traced :
    EvidenceExact tracedRows (rootsOf tracedRows [appFile]) {}
        (affectedTestsForFiles compare tracedRows [appFile] {}).tests ∧
      ∀ db' files', SameRows tracedRows db' → (∀ f, f ∈ [appFile] ↔ f ∈ files') → ∀ t,
        t ∈ (affectedTestsForFiles compare tracedRows [appFile] {}).tests ↔
          t ∈ (affectedTestsForFiles compare db' files' {}).tests :=
  (evidenceExact_iff rfl rfl rfl).2 tracedRows_first

/-- The test calls the helper, and the helper was seen to call `run`. -/
def behindRows : TestRows :=
  ⟨appNodes, [⟨⟨testRunId, helperId, ascii "call"⟩, 1⟩], [⟨some helperId, some runId, 1⟩], [], fun _ => none⟩

theorem traced_call_behind_static :
    ¬ (EvidenceExact behindRows (rootsOf behindRows [appFile]) {}
        (affectedTestsForFiles compare behindRows [appFile] {}).tests ∧
      ∀ db' files', SameRows behindRows db' → (∀ f, f ∈ [appFile] ↔ f ∈ files') → ∀ t,
        t ∈ (affectedTestsForFiles compare behindRows [appFile] {}).tests ↔
          t ∈ (affectedTestsForFiles compare db' files' {}).tests) := by
  rintro ⟨hexact, -⟩
  have htests : (affectedTestsForFiles compare behindRows [appFile] {}).tests =
      [⟨testRunId, some (ascii "tests/test_app.py"), .static, .reachable, 2, 1,
        some (ascii "tests/test_app.py::test_run"), .pytest, false, false⟩] := by decide +kernel
  have hroot : Chain behindRows (rootsOf behindRows [appFile]) 0 false runId := .root (by decide +kernel)
  have hhelper : Chain behindRows (rootsOf behindRows [appFile]) 1 true helperId :=
    .trace hroot (List.mem_singleton_self _) rfl rfl
  have htest : Chain behindRows (rootsOf behindRows [appFile]) 2 true testRunId :=
    .static (e := ⟨⟨testRunId, helperId, ascii "call"⟩, 1⟩) hhelper (by decide +kernel) (by decide +kernel)
  have hwithin : Within (depthCap none) 2 := ⟨64, by decide +kernel, by decide⟩
  have htrace := (hexact.evidence _ (htests ▸ List.mem_singleton_self _)).2 ⟨2, hwithin, htest⟩
  cases htrace

end Behind

end Hayven.Db
