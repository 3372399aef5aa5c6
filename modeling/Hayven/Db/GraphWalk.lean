import Hayven.Lib.JsNumber
import Hayven.Lib.KeyedMap
import Hayven.Lib.Bytes
import Hayven.Lib.Ordering
/-!
# Walking the edges

`db/graph_walk.ts`: resolving a symbol and the blast radius of a node. Of the tables
only what the walk reads: the file a node row names, and the ends and kinds of the edge
rows. Full-text search and the locale's collation stand outside and are parameters.
-/
open Hayven.Lib

namespace Hayven.Db

structure EdgeRow where
  src : JsString
  dst : JsString
  kind : JsString
deriving DecidableEq

/-- The rows the walk reads, and the best hit of a search. -/
structure GraphRows where
  nodes : KeyedMap JsString (Option JsString)
  edges : List EdgeRow
  searchFts : JsString → Option JsString

namespace GraphRows

/-- `getNode(id)?.file`. -/
def fileOf (db : GraphRows) (id : JsString) : Option JsString := (db.nodes.get id).join

def incoming (db : GraphRows) (id : JsString) : List EdgeRow := db.edges.filter (·.dst = id)

/-- `SELECT id FROM nodes WHERE file = ?`. -/
def idsIn (db : GraphRows) (file : JsString) : List JsString :=
  (db.nodes.entries.filter fun row => row.2 = some file).map Prod.fst

end GraphRows

structure ResolvedNode where
  id : JsString
  resolved : Bool

def resolveNodeId (db : GraphRows) (id : JsString) : Option ResolvedNode :=
  if db.nodes.has id then some ⟨id, false⟩ else (db.searchFts id).map fun hit => ⟨hit, true⟩

def isCallKind (kind : JsString) : Bool := kind = ascii "call" || (ascii "_call").isSuffixOf kind

def importKind : JsString := ascii "import"

/-! ## The blast radius -/

structure ImpactHit where
  id : JsString
  depth : Nat
deriving DecidableEq

/-- `depth` is the cap that was applied, `none` for not-a-number. -/
structure ImpactResult where
  root : JsString
  depth : Option Nat
  hits : List ImpactHit
  capped : Bool

def maxImpactDepth : Nat := 64

/-- `Math.min(MAX_IMPACT_DEPTH, Math.max(1, Math.trunc(maxDepth)))`. -/
def impactCap : JsNumber → Option Nat
  | .nan => none
  | .negInf => some 1
  | .fin q => some (min maxImpactDepth (max 1 (q.num.tdiv q.den).toNat))
  | .posInf => some maxImpactDepth

/-- Only calls and imports break when their target changes. -/
def EdgeRow.isDependency (e : EdgeRow) : Bool := e.kind = importKind || isCallKind e.kind

structure Walk where
  depthOf : KeyedMap JsString Nat
  frontier : List JsString

def Walk.start (id : JsString) : Walk := ⟨KeyedMap.empty.set id 0, [id]⟩

/-- One edge into the frontier, at depth `d`. -/
def Walk.follow (d : Nat) (w : Walk) (e : EdgeRow) : Walk :=
  if !e.isDependency || w.depthOf.has e.src then w else ⟨w.depthOf.set e.src d, w.frontier ++ [e.src]⟩

def Walk.level (db : GraphRows) (d : Nat) (w : Walk) : Walk :=
  (w.frontier.flatMap db.incoming).foldl (Walk.follow d) ⟨w.depthOf, []⟩

/-- The rounds `d`, `d + 1`, …, until one finds nothing new. -/
def Walk.rounds (db : GraphRows) : Nat → Nat → Walk → Walk
  | 0, _, w => w
  | n + 1, d, w =>
    let next := w.level db d
    if next.frontier.isEmpty then next else Walk.rounds db n (d + 1) next

def Walk.hasMore (db : GraphRows) (w : Walk) : Bool :=
  w.frontier.any fun cur => (db.incoming cur).any fun e => e.isDependency && !w.depthOf.has e.src

section Impact
variable (localeCompare : JsString → JsString → Ordering)

/-- By depth, then by id. -/
def hitOrder (a b : ImpactHit) : Ordering := (compare a.depth b.depth).then (localeCompare a.id b.id)

def impactOf (db : GraphRows) (id : JsString) (maxDepth : Option JsNumber) : ImpactResult :=
  let cap := impactCap (maxDepth.getD maxImpactDepth)
  let w := Walk.rounds db (cap.getD 0) 1 (.start id)
  { root := id
    depth := cap
    hits := sortWith (hitOrder localeCompare)
      ((w.depthOf.entries.filter fun p => p.1 ≠ id).map fun p => ⟨p.1, p.2⟩)
    capped := w.hasMore db }

end Impact

/-! ## What the walk finds -/

/-- A chain of `n` calls or imports leads from the node to the root. -/
inductive DependsIn (db : GraphRows) (root : JsString) : Nat → JsString → Prop
  | root : DependsIn db root 0 root
  | step {n : Nat} {x : JsString} {e : EdgeRow} : DependsIn db root n x → e ∈ db.incoming x →
      e.isDependency = true → DependsIn db root (n + 1) e.src

/-- The shortest such chain has `n` links. -/
def Nearest (db : GraphRows) (root : JsString) (n : Nat) (x : JsString) : Prop :=
  DependsIn db root n x ∧ ∀ m < n, ¬ DependsIn db root m x

section Found
variable {db : GraphRows} {root : JsString}

theorem DependsIn.nearest {n : Nat} {x : JsString} (h : DependsIn db root n x) : ∃ m ≤ n, Nearest db root m x := by
  classical
  have hex : ∃ n, DependsIn db root n x := ⟨n, h⟩
  exact ⟨Nat.find hex, Nat.find_min' hex h, Nat.find_spec hex, fun m hm => Nat.find_min hex hm⟩

theorem Nearest.unique {n m : Nat} {x : JsString} (h : Nearest db root n x) (h' : Nearest db root m x) : n = m := by
  rcases Nat.lt_trichotomy n m with hlt | heq | hlt
  · exact absurd h.1 (h'.2 n hlt)
  · exact heq
  · exact absurd h'.1 (h.2 m hlt)

theorem nearest_zero {x : JsString} : Nearest db root 0 x ↔ x = root := by
  constructor
  · rintro ⟨h, -⟩
    cases h
    rfl
  · rintro rfl
    exact ⟨.root, fun m hm => by omega⟩

/-- A node is nearest at the next depth when an edge leads from it to one nearest at
this depth, and it was not nearer. -/
theorem nearest_succ {d : Nat} {x : JsString} :
    Nearest db root (d + 1) x ↔ (∀ m ≤ d, ¬ Nearest db root m x) ∧
      ∃ y, Nearest db root d y ∧ ∃ e ∈ db.incoming y, e.isDependency = true ∧ e.src = x := by
  constructor
  · rintro ⟨h, hmin⟩
    refine ⟨fun m hm hx => hmin m (by omega) hx.1, ?_⟩
    cases h with
    | @step _ y e hy he hdep =>
      refine ⟨y, ⟨hy, fun m hm hy' => ?_⟩, e, he, hdep, rfl⟩
      exact hmin (m + 1) (by omega) (.step hy' he hdep)
  · rintro ⟨hfar, y, hy, e, he, hdep, rfl⟩
    refine ⟨.step hy.1 he hdep, fun m hm hx => ?_⟩
    obtain ⟨k, hk, hnear⟩ := hx.nearest
    exact hfar k (by omega) hnear

/-- One of the edges is a dependency from `x`. -/
def LeadsFrom (es : List EdgeRow) (x : JsString) : Prop := ∃ e ∈ es, e.isDependency = true ∧ e.src = x

theorem leadsFrom_cons {e : EdgeRow} {es : List EdgeRow} {x : JsString} :
    LeadsFrom (e :: es) x ↔ (e.isDependency = true ∧ e.src = x) ∨ LeadsFrom es x := by
  simp only [LeadsFrom, List.mem_cons, exists_eq_or_imp]

theorem follow_all (d : Nat) (es : List EdgeRow) : ∀ (w : Walk) (x : JsString),
    (∀ m, (es.foldl (Walk.follow d) w).depthOf.get x = some m ↔
      w.depthOf.get x = some m ∨ (w.depthOf.get x = none ∧ LeadsFrom es x ∧ m = d)) ∧
    (x ∈ (es.foldl (Walk.follow d) w).frontier ↔
      x ∈ w.frontier ∨ (w.depthOf.get x = none ∧ LeadsFrom es x)) := by
  induction es with
  | nil => intro w x; simp [LeadsFrom]
  | cons e es ih =>
    intro w x
    rw [List.foldl_cons]
    obtain ⟨hget, hmem⟩ := ih (w.follow d e) x
    simp only [hget, hmem, leadsFrom_cons]
    unfold Walk.follow
    by_cases hskip : (!e.isDependency || w.depthOf.has e.src) = true
    · have hnot : w.depthOf.get x = none → ¬ (e.isDependency = true ∧ e.src = x) := by
        rintro hnone ⟨hdep, rfl⟩
        simp [hdep, KeyedMap.has, hnone] at hskip
      rw [if_pos hskip]
      grind
    · simp only [Bool.or_eq_true, Bool.not_eq_true', not_or, Bool.not_eq_false, Bool.not_eq_true, KeyedMap.has,
        Option.isSome_eq_false_iff, Option.isNone_iff_eq_none] at hskip
      obtain ⟨hdep, hnew⟩ := hskip
      have hgo : (!e.isDependency || w.depthOf.has e.src) = false := by simp [hdep, KeyedMap.has, hnew]
      rw [hgo, if_neg Bool.false_ne_true]
      simp only [KeyedMap.get_set, List.mem_append, List.mem_singleton]
      by_cases hx : e.src = x
      · subst hx
        simp [hnew, hdep, eq_comm]
      · simp [hx, Ne.symm hx]

/-- After the round at depth `d`: every node up to that depth, at its shortest. -/
structure Walked (db : GraphRows) (root : JsString) (d : Nat) (w : Walk) : Prop where
  depths : ∀ x m, w.depthOf.get x = some m ↔ m ≤ d ∧ Nearest db root m x
  frontier : ∀ x, x ∈ w.frontier ↔ Nearest db root d x

theorem walked_start : Walked db root 0 (.start root) := by
  constructor
  · intro x m
    rw [Walk.start, KeyedMap.get_set]
    constructor
    · intro h
      split at h
      · rename_i hx
        obtain rfl : 0 = m := Option.some.inj h
        exact ⟨Nat.le_refl 0, nearest_zero.2 hx.symm⟩
      · cases h
    · rintro ⟨hm, hx⟩
      obtain rfl : m = 0 := by omega
      rw [if_pos (nearest_zero.1 hx).symm]
  · intro x
    rw [nearest_zero]
    exact List.mem_singleton

theorem Walked.level {d : Nat} {w : Walk} (h : Walked db root d w) : Walked db root (d + 1) (w.level db (d + 1)) := by
  have hleads : ∀ x, LeadsFrom (w.frontier.flatMap db.incoming) x ↔
      ∃ y, Nearest db root d y ∧ ∃ e ∈ db.incoming y, e.isDependency = true ∧ e.src = x := by
    intro x
    unfold LeadsFrom
    simp only [List.mem_flatMap, h.frontier]
    grind
  have hnone : ∀ x, w.depthOf.get x = none ↔ ∀ m ≤ d, ¬ Nearest db root m x := by
    intro x
    rw [Option.eq_none_iff_forall_ne_some]
    simp only [ne_eq, h.depths, not_and]
  constructor
  · intro x m
    unfold Walk.level
    rw [(follow_all (d + 1) _ ⟨w.depthOf, []⟩ x).1, hleads, hnone, h.depths, ← and_assoc, ← nearest_succ]
    constructor
    · rintro (⟨hle, hm⟩ | ⟨hx, rfl⟩)
      · exact ⟨by omega, hm⟩
      · exact ⟨Nat.le_refl _, hx⟩
    · rintro ⟨hle, hm⟩
      rcases Nat.lt_or_ge d m with hlt | hge
      · obtain rfl : m = d + 1 := by omega
        exact .inr ⟨hm, rfl⟩
      · exact .inl ⟨hge, hm⟩
  · intro x
    unfold Walk.level
    rw [(follow_all (d + 1) _ ⟨w.depthOf, []⟩ x).2, hleads, hnone, nearest_succ]
    simp

/-- Where a depth has no node, no greater depth has one. -/
theorem nearest_of_empty {d : Nat} (h : ∀ x, ¬ Nearest db root d x) : ∀ n, d ≤ n → ∀ x, ¬ Nearest db root n x := by
  intro n hn
  induction n, hn using Nat.le_induction with
  | base => exact h
  | succ n _ ih =>
    intro x hx
    obtain ⟨-, y, hy, -⟩ := nearest_succ.1 hx
    exact ih y hy

theorem Walked.rounds (n : Nat) : ∀ {d : Nat} {w : Walk}, Walked db root d w → ∀ x m,
    (Walk.rounds db n (d + 1) w).depthOf.get x = some m ↔ m ≤ d + n ∧ Nearest db root m x := by
  induction n with
  | zero => intro d w h x m; exact h.depths x m
  | succ n ih =>
    intro d w h x m
    have hnext := h.level
    rw [Walk.rounds]
    by_cases hempty : (w.level db (d + 1)).frontier.isEmpty = true
    · simp only [hempty, if_true]
      rw [hnext.depths]
      have hnone : ∀ y, ¬ Nearest db root (d + 1) y := by
        intro y hy
        rw [List.isEmpty_iff] at hempty
        rw [← hnext.frontier, hempty] at hy
        cases hy
      constructor
      · rintro ⟨hle, hm⟩
        exact ⟨by omega, hm⟩
      · rintro ⟨-, hm⟩
        refine ⟨?_, hm⟩
        by_contra hgt
        exact nearest_of_empty hnone m (by omega) x hm
    · simp only [hempty]
      rw [show d + (n + 1) = d + 1 + n by omega]
      exact ih hnext x m

/-- The hits are the nodes other than the root that depend on it within the cap, each
at its shortest distance. -/
theorem mem_impactOf {localeCompare : JsString → JsString → Ordering} {maxDepth : Option JsNumber} {hit : ImpactHit} :
    hit ∈ (impactOf localeCompare db root maxDepth).hits ↔
      hit.id ≠ root ∧ hit.depth ≤ (impactOf localeCompare db root maxDepth).depth.getD 0 ∧
        Nearest db root hit.depth hit.id := by
  obtain ⟨id, depth⟩ := hit
  have hstart : Walked db root 0 (.start root) := walked_start
  have hget := hstart.rounds ((impactCap (maxDepth.getD maxImpactDepth)).getD 0) id depth
  simp only [impactOf, mem_sortWith, List.mem_map, List.mem_filter, decide_eq_true_eq, ImpactHit.mk.injEq, Prod.exists]
  rw [Nat.zero_add, Nat.zero_add, KeyedMap.get_eq_some] at hget
  rw [← hget]
  constructor
  · rintro ⟨_, _, ⟨hm, hne⟩, rfl, rfl⟩
    exact ⟨hne, hm⟩
  · rintro ⟨hne, hm⟩
    exact ⟨id, depth, ⟨hm, hne⟩, rfl, rfl⟩

end Found

end Hayven.Db
