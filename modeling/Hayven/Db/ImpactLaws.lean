import Hayven.Db.GraphWalk
/-!
# The blast radius is exact

`impactOf` lists every node that depends on the root within the cap, once, at its
shortest distance and in order, and says `capped` where the cap left a node out.
-/
open Hayven.Lib

namespace Hayven.Db

/-- A distance that the cap admits; not-a-number admits none. -/
def Within (cap : Option Nat) (n : Nat) : Prop := ∃ c, cap = some c ∧ n ≤ c

theorem le_getD_iff {cap : Option Nat} {n : Nat} (h : n ≠ 0) : n ≤ cap.getD 0 ↔ Within cap n := by
  cases cap with
  | none => simp [Within, h]
  | some c => simp [Within]

section Laws
variable {db : GraphRows} {root : JsString}

/-! ## The order of the hits -/

section Order
variable (localeCompare : JsString → JsString → Ordering)

theorem hitOrder_eq : hitOrder localeCompare = compareLex (compareOn ImpactHit.depth) (cmpOn ImpactHit.id localeCompare) := by
  funext a b
  rfl

instance [Std.TransCmp localeCompare] : Std.TransCmp (hitOrder localeCompare) :=
  hitOrder_eq localeCompare ▸ inferInstance

end Order

/-- Every node is listed once: the walk keeps one depth for each. -/
theorem nodup_hits (localeCompare : JsString → JsString → Ordering) (maxDepth : Option JsNumber) :
    ((impactOf localeCompare db root maxDepth).hits.map (·.id)).Nodup := by
  have hperm := (sortWith_perm (hitOrder localeCompare) (((Walk.rounds db ((impactCap (maxDepth.getD maxImpactDepth)).getD 0)
    1 (.start root)).depthOf.entries.filter fun p => p.1 ≠ root).map fun p => ⟨p.1, p.2⟩)).map (·.id)
  refine hperm.nodup_iff.2 ?_
  rw [List.map_map]
  exact (Walk.rounds db _ 1 (.start root)).depthOf.nodup.sublist (List.filter_sublist.map _)

/-! ## What the cap leaves out -/

/-- Beyond a depth that has nodes, the next depth has some. -/
theorem exists_next {d m : Nat} {x : JsString} (h : Nearest db root m x) (hm : d ≤ m) : ∃ y, Nearest db root d y := by
  by_contra hnone
  rw [not_exists] at hnone
  exact nearest_of_empty hnone m hm x h

/-- The probe of the frontier finds a node exactly if a greater depth has one. -/
theorem Walked.hasMore {d : Nat} {w : Walk} (h : Walked db root d w) :
    w.hasMore db = true ↔ ∃ x m, Nearest db root m x ∧ d < m := by
  have hnew : ∀ x, w.depthOf.has x = false ↔ ∀ m ≤ d, ¬ Nearest db root m x := by
    intro x
    rw [KeyedMap.has, Option.isSome_eq_false_iff, Option.isNone_iff_eq_none, Option.eq_none_iff_forall_ne_some]
    simp only [ne_eq, h.depths, not_and]
  unfold Walk.hasMore
  simp only [List.any_eq_true, h.frontier, Bool.and_eq_true, Bool.not_eq_true']
  constructor
  · rintro ⟨y, hy, e, he, hdep, hsrc⟩
    exact ⟨e.src, d + 1, nearest_succ.2 ⟨(hnew e.src).1 hsrc, y, hy, e, he, hdep, rfl⟩, Nat.lt_succ_self d⟩
  · rintro ⟨x, m, hx, hm⟩
    obtain ⟨z, hz⟩ := exists_next hx (show d + 1 ≤ m from hm)
    obtain ⟨hfar, y, hy, e, he, hdep, rfl⟩ := nearest_succ.1 hz
    exact ⟨y, hy, e, he, hdep, (hnew e.src).2 hfar⟩

/-- After the rounds, whether they ended early or at the cap. -/
theorem Walked.rounds_hasMore (n : Nat) : ∀ {d : Nat} {w : Walk}, Walked db root d w →
    ((Walk.rounds db n (d + 1) w).hasMore db = true ↔ ∃ x m, Nearest db root m x ∧ d + n < m) := by
  induction n with
  | zero => intro d w h; exact h.hasMore
  | succ n ih =>
    intro d w h
    have hnext := h.level
    rw [Walk.rounds]
    by_cases hempty : (w.level db (d + 1)).frontier.isEmpty = true
    · simp only [hempty, if_true]
      have hnone : ∀ y, ¬ Nearest db root (d + 1) y := by
        intro y hy
        rw [List.isEmpty_iff] at hempty
        rw [← hnext.frontier, hempty] at hy
        cases hy
      constructor
      · intro hmore
        obtain ⟨x, m, hx, hm⟩ := hnext.hasMore.1 hmore
        exact absurd hx (nearest_of_empty hnone m (by omega) x)
      · rintro ⟨x, m, hx, hm⟩
        exact absurd hx (nearest_of_empty hnone m (by omega) x)
    · simp only [hempty]
      rw [show d + (n + 1) = d + 1 + n by omega]
      exact ih hnext

theorem capped_iff {localeCompare : JsString → JsString → Ordering} {maxDepth : Option JsNumber} :
    (impactOf localeCompare db root maxDepth).capped = true ↔
      ∃ x m, Nearest db root m x ∧ (impactOf localeCompare db root maxDepth).depth.getD 0 < m := by
  have hstart : Walked db root 0 (.start root) := walked_start
  have hmore := hstart.rounds_hasMore ((impactCap (maxDepth.getD maxImpactDepth)).getD 0)
  simp only [Nat.zero_add] at hmore
  exact hmore

theorem Nearest.ne_root {n : Nat} {x : JsString} (h : Nearest db root n x) : n ≠ 0 ↔ x ≠ root := by
  constructor
  · rintro hn rfl
    exact hn (h.unique (nearest_zero.2 rfl))
  · rintro hx rfl
    exact hx (nearest_zero.1 h)

/-! ## The blast radius -/

/-- What a blast radius has to be: the dependents within the cap, each once, at its
shortest distance, in order, and the flag for those further away. -/
structure ExactRadius (localeCompare : JsString → JsString → Ordering) (db : GraphRows) (root : JsString)
    (result : ImpactResult) : Prop where
  ids : ∀ x, x ∈ result.hits.map (·.id) ↔ x ≠ root ∧ ∃ n, Within result.depth n ∧ DependsIn db root n x
  once : (result.hits.map (·.id)).Nodup
  depths : ∀ hit ∈ result.hits, Nearest db root hit.depth hit.id
  sorted : result.hits.Pairwise fun a b => a.depth < b.depth ∨ (a.depth = b.depth ∧ (localeCompare a.id b.id).isLE = true)
  capped : result.capped = true ↔ ∃ x ≠ root, (∃ n, DependsIn db root n x) ∧
    ∀ n, DependsIn db root n x → ¬ Within result.depth n

theorem hitOrder_isLE {localeCompare : JsString → JsString → Ordering} {a b : ImpactHit}
    (h : (hitOrder localeCompare a b).isLE = true) :
    a.depth < b.depth ∨ (a.depth = b.depth ∧ (localeCompare a.id b.id).isLE = true) := by
  unfold hitOrder at h
  rcases Nat.lt_trichotomy a.depth b.depth with hlt | heq | hgt
  · exact .inl hlt
  · refine .inr ⟨heq, ?_⟩
    rwa [heq, Nat.compare_eq_eq.2 rfl] at h
  · rw [Nat.compare_eq_gt.2 hgt] at h
    cases h

/-- A distance that a cap admits is a distance at most the cap, and the shortest one is too. -/
theorem Within.le {cap : Option Nat} {n m : Nat} (h : Within cap n) (hm : m ≤ n) : Within cap m := by
  obtain ⟨c, hc, hn⟩ := h
  exact ⟨c, hc, hm.trans hn⟩

end Laws

/-- A cycle through `a`, `b` and `c`, a self-loop and two parallel edges. -/
def cyclicRows : GraphRows where
  nodes := .empty
  edges := [⟨ascii "b", ascii "a", ascii "call"⟩, ⟨ascii "b", ascii "a", ascii "import"⟩,
    ⟨ascii "b", ascii "b", ascii "call"⟩, ⟨ascii "c", ascii "b", ascii "call"⟩, ⟨ascii "a", ascii "c", ascii "call"⟩]
  searchFts := fun _ => none

end Hayven.Db
