import Hayven.Lib.KeyedMap
import Mathlib.Data.Nat.Find
/-!
# Walking back from a root

A walk follows the links that arrive at a node back to where they leave, one layer at
a time. It keeps the depth at which it came to each node, and every link it relaxes
with the depth of that layer. Links into nodes it has seen are relaxed too:
`mem_relaxed`.
-/

namespace Hayven.Lib

section LayerWalk
variable {α β : Type} (into : α → List β) (src : β → α) (root : α)

/-- A chain of `n` links leads from the node to the root. -/
inductive Away : Nat → α → Prop
  | root : Away 0 root
  | step {n : Nat} {x : α} {b : β} : Away n x → b ∈ into x → Away (n + 1) (src b)

/-- The shortest such chain has `n` links. -/
def NearestAway (n : Nat) (x : α) : Prop := Away into src root n x ∧ ∀ m < n, ¬ Away into src root m x

variable {into src root}

/-! ## Distances -/

theorem Away.nearest {n : Nat} {x : α} (h : Away into src root n x) : ∃ m ≤ n, NearestAway into src root m x := by
  classical
  have hex : ∃ n, Away into src root n x := ⟨n, h⟩
  exact ⟨Nat.find hex, Nat.find_min' hex h, Nat.find_spec hex, fun m hm => Nat.find_min hex hm⟩

theorem nearestAway_zero {x : α} : NearestAway into src root 0 x ↔ x = root := by
  constructor
  · rintro ⟨h, -⟩
    cases h
    rfl
  · rintro rfl
    exact ⟨.root, fun m hm => by omega⟩

/-- A node is nearest at the next depth when a link leads from it to one nearest at this
depth, and it was not nearer. -/
theorem nearestAway_succ {d : Nat} {x : α} :
    NearestAway into src root (d + 1) x ↔ (∀ m ≤ d, ¬ NearestAway into src root m x) ∧
      ∃ y, NearestAway into src root d y ∧ ∃ b ∈ into y, src b = x := by
  constructor
  · rintro ⟨h, hmin⟩
    refine ⟨fun m hm hx => hmin m (by omega) hx.1, ?_⟩
    cases h with
    | @step _ y b hy hb =>
      refine ⟨y, ⟨hy, fun m hm hy' => ?_⟩, b, hb, rfl⟩
      exact hmin (m + 1) (by omega) (.step hy' hb)
  · rintro ⟨hfar, y, hy, b, hb, rfl⟩
    refine ⟨.step hy.1 hb, fun m hm hx => ?_⟩
    obtain ⟨k, hk, hnear⟩ := hx.nearest
    exact hfar k (by omega) hnear

/-- Where a depth has no node, no greater depth has one. -/
theorem nearestAway_of_empty {d : Nat} (h : ∀ x, ¬ NearestAway into src root d x) :
    ∀ n, d ≤ n → ∀ x, ¬ NearestAway into src root n x := by
  intro n hn
  induction n, hn using Nat.le_induction with
  | base => exact h
  | succ n _ ih =>
    intro x hx
    obtain ⟨-, y, hy, -⟩ := nearestAway_succ.1 hx
    exact ih y hy

/-! ## Layers -/

variable [DecidableEq α] (into src root)

structure Layer (α β : Type) where
  depthOf : KeyedMap α Nat
  frontier : List α
  relaxed : List (β × Nat)

namespace Layer

def start : Layer α β := ⟨KeyedMap.empty.set root 0, [root], []⟩

/-- One link into the frontier, at depth `d`; a link from the root is passed over. -/
def relax (d : Nat) (w : Layer α β) (b : β) : Layer α β :=
  if src b = root then w
  else if w.depthOf.has (src b) then { w with relaxed := w.relaxed ++ [(b, d)] }
  else ⟨w.depthOf.set (src b) d, w.frontier ++ [src b], w.relaxed ++ [(b, d)]⟩

def level (d : Nat) (w : Layer α β) : Layer α β :=
  (w.frontier.flatMap into).foldl (relax src root d) { w with frontier := [] }

/-- The layers `d`, `d + 1`, …, until one finds nothing new. -/
def rounds : Nat → Nat → Layer α β → Layer α β
  | 0, _, w => w
  | n + 1, d, w =>
    let next := level into src root d w
    if next.frontier.isEmpty then next else rounds n (d + 1) next

end Layer

variable {into src root}

/-! ## One layer -/

theorem relax_of_seen {d : Nat} {w : Layer α β} {b : β} (h : src b = root ∨ w.depthOf.has (src b) = true) :
    (w.relax src root d b).depthOf = w.depthOf ∧ (w.relax src root d b).frontier = w.frontier := by
  unfold Layer.relax
  split
  · exact ⟨rfl, rfl⟩
  · next hne =>
    rw [if_pos (h.resolve_left hne)]
    exact ⟨rfl, rfl⟩

theorem relax_of_new {d : Nat} {w : Layer α β} {b : β} (h : ¬ (src b = root ∨ w.depthOf.has (src b) = true)) :
    (w.relax src root d b).depthOf = w.depthOf.set (src b) d ∧
      (w.relax src root d b).frontier = w.frontier ++ [src b] := by
  rw [not_or] at h
  unfold Layer.relax
  rw [if_neg h.1, if_neg h.2]
  exact ⟨rfl, rfl⟩

theorem relax_all (d : Nat) (bs : List β) : ∀ (w : Layer α β), w.depthOf.has root = true → ∀ x,
    (∀ m, (bs.foldl (Layer.relax src root d) w).depthOf.get x = some m ↔
      w.depthOf.get x = some m ∨ (w.depthOf.get x = none ∧ (∃ b ∈ bs, src b = x) ∧ m = d)) ∧
    (x ∈ (bs.foldl (Layer.relax src root d) w).frontier ↔
      x ∈ w.frontier ∨ (w.depthOf.get x = none ∧ ∃ b ∈ bs, src b = x)) := by
  induction bs with
  | nil => intro w _ x; simp
  | cons b bs ih =>
    intro w hroot x
    have hroot' : (Layer.relax src root d w b).depthOf.has root = true := by
      by_cases hseen : src b = root ∨ w.depthOf.has (src b) = true
      · rwa [(relax_of_seen hseen).1]
      · rw [(relax_of_new hseen).1, KeyedMap.has, KeyedMap.get_set, if_neg (not_or.1 hseen).1]
        exact hroot
    rw [List.foldl_cons]
    obtain ⟨hget, hmem⟩ := ih (Layer.relax src root d w b) hroot' x
    simp only [hget, hmem, List.mem_cons, exists_eq_or_imp]
    by_cases hseen : src b = root ∨ w.depthOf.has (src b) = true
    · have hhas : w.depthOf.has (src b) = true := hseen.elim (fun h => h ▸ hroot) id
      have hnot : w.depthOf.get x = none → src b ≠ x := by
        rintro hnone rfl
        rw [KeyedMap.has, hnone] at hhas
        cases hhas
      rw [(relax_of_seen hseen).1, (relax_of_seen hseen).2]
      grind
    · have hnew : w.depthOf.get (src b) = none := by
        rw [← Option.isNone_iff_eq_none, ← Option.isSome_eq_false_iff, ← Bool.not_eq_true]
        exact (not_or.1 hseen).2
      rw [(relax_of_new hseen).1, (relax_of_new hseen).2]
      simp only [KeyedMap.get_set, List.mem_append, List.mem_singleton]
      by_cases hx : src b = x
      · subst hx
        simp [hnew, eq_comm]
      · simp [hx, Ne.symm hx]

theorem relaxed_all (d : Nat) (bs : List β) (w : Layer α β) :
    (bs.foldl (Layer.relax src root d) w).relaxed =
      w.relaxed ++ (bs.filter fun b => src b ≠ root).map fun b => (b, d) := by
  induction bs generalizing w with
  | nil => simp
  | cons b bs ih =>
    rw [List.foldl_cons, ih]
    unfold Layer.relax
    by_cases hb : src b = root
    · simp [hb]
    · by_cases hhas : w.depthOf.has (src b) = true <;> simp [hb, hhas]

/-! ## Many layers -/

/-- After the layer at depth `d`: every node up to that depth, at its shortest, and every link
into the layers before. -/
structure WalkedTo (into : α → List β) (src : β → α) (root : α) (d : Nat) (w : Layer α β) : Prop where
  depths : ∀ x m, w.depthOf.get x = some m ↔ m ≤ d ∧ NearestAway into src root m x
  frontier : ∀ x, x ∈ w.frontier ↔ NearestAway into src root d x
  relaxed : ∀ b m, (b, m) ∈ w.relaxed ↔
    src b ≠ root ∧ ∃ k < d, m = k + 1 ∧ ∃ y, NearestAway into src root k y ∧ b ∈ into y

theorem walkedTo_start : WalkedTo into src root 0 (Layer.start root : Layer α β) := by
  constructor
  · intro x m
    rw [Layer.start, KeyedMap.get_set]
    constructor
    · intro h
      split at h
      · next hx =>
        obtain rfl : 0 = m := Option.some.inj h
        exact ⟨Nat.le_refl 0, nearestAway_zero.2 hx.symm⟩
      · cases h
    · rintro ⟨hm, hx⟩
      obtain rfl : m = 0 := by omega
      rw [if_pos (nearestAway_zero.1 hx).symm]
  · intro x
    rw [nearestAway_zero]
    exact List.mem_singleton
  · intro b m
    constructor
    · rintro ⟨⟩
    · rintro ⟨-, k, hk, -⟩
      omega

theorem WalkedTo.level {d : Nat} {w : Layer α β} (h : WalkedTo into src root d w) :
    WalkedTo into src root (d + 1) (w.level into src root (d + 1)) := by
  have hroot : w.depthOf.has root = true := by
    rw [KeyedMap.has, (h.depths root 0).2 ⟨Nat.zero_le d, nearestAway_zero.2 rfl⟩]
    rfl
  have hleads : ∀ x, (∃ b ∈ w.frontier.flatMap into, src b = x) ↔
      ∃ y, NearestAway into src root d y ∧ ∃ b ∈ into y, src b = x := by
    intro x
    simp only [List.mem_flatMap, h.frontier]
    grind
  have hnone : ∀ x, w.depthOf.get x = none ↔ ∀ m ≤ d, ¬ NearestAway into src root m x := by
    intro x
    rw [Option.eq_none_iff_forall_ne_some]
    simp only [ne_eq, h.depths, not_and]
  constructor
  · intro x m
    unfold Layer.level
    rw [(relax_all (d + 1) _ ⟨w.depthOf, [], w.relaxed⟩ hroot x).1, hleads, hnone, h.depths, ← and_assoc,
      ← nearestAway_succ]
    constructor
    · rintro (⟨hle, hm⟩ | ⟨hx, rfl⟩)
      · exact ⟨by omega, hm⟩
      · exact ⟨Nat.le_refl _, hx⟩
    · rintro ⟨hle, hm⟩
      rcases Nat.lt_or_ge d m with hlt | hge
      · obtain rfl : m = d + 1 := by omega
        exact .inr ⟨hm, rfl⟩
      · exact .inl ⟨hge, hm⟩
  · intro x
    unfold Layer.level
    rw [(relax_all (d + 1) _ ⟨w.depthOf, [], w.relaxed⟩ hroot x).2, hleads, hnone, nearestAway_succ]
    simp
  · intro b m
    unfold Layer.level
    rw [relaxed_all]
    simp only [List.mem_append, h.relaxed, List.mem_map, List.mem_filter, List.mem_flatMap, h.frontier, Prod.mk.injEq]
    constructor
    · rintro (⟨hb, k, hk, rfl, hy⟩ | ⟨b', ⟨⟨y, hy, hb'⟩, hne⟩, rfl, rfl⟩)
      · exact ⟨hb, k, by omega, rfl, hy⟩
      · exact ⟨by simpa using hne, d, Nat.lt_succ_self d, rfl, y, hy, hb'⟩
    · rintro ⟨hb, k, hk, rfl, y, hy, hby⟩
      rcases Nat.lt_or_ge k d with hlt | hge
      · exact .inl ⟨hb, k, hlt, rfl, y, hy, hby⟩
      · obtain rfl : k = d := by omega
        exact .inr ⟨b, ⟨⟨y, hy, hby⟩, by simpa using hb⟩, rfl, rfl⟩

/-- What `n` more layers relax. -/
theorem WalkedTo.rounds (n : Nat) : ∀ {d : Nat} {w : Layer α β}, WalkedTo into src root d w → ∀ b m,
    (b, m) ∈ (Layer.rounds into src root n (d + 1) w).relaxed ↔
      src b ≠ root ∧ ∃ k < d + n, m = k + 1 ∧ ∃ y, NearestAway into src root k y ∧ b ∈ into y := by
  induction n with
  | zero => intro d w h b m; exact h.relaxed b m
  | succ n ih =>
    intro d w h b m
    have hnext := h.level
    rw [Layer.rounds]
    by_cases hempty : (w.level into src root (d + 1)).frontier.isEmpty = true
    · simp only [hempty, if_true]
      rw [hnext.relaxed]
      have hnone : ∀ y, ¬ NearestAway into src root (d + 1) y := by
        intro y hy
        rw [List.isEmpty_iff] at hempty
        rw [← hnext.frontier, hempty] at hy
        cases hy
      constructor
      · rintro ⟨hb, k, hk, hm, hy⟩
        exact ⟨hb, k, by omega, hm, hy⟩
      · rintro ⟨hb, k, -, hm, y, hy, hby⟩
        refine ⟨hb, k, ?_, hm, y, hy, hby⟩
        by_contra hgt
        exact nearestAway_of_empty hnone k (by omega) y hy
    · simp only [hempty]
      rw [show d + (n + 1) = d + 1 + n by omega]
      exact ih hnext b m

/-- The walk of `cap` layers relaxes every link into a node nearer than the cap, once for
each, but none from the root. -/
theorem mem_relaxed (cap : Nat) (b : β) (m : Nat) :
    (b, m) ∈ (Layer.rounds into src root cap 1 (.start root)).relaxed ↔
      src b ≠ root ∧ ∃ k < cap, m = k + 1 ∧ ∃ y, NearestAway into src root k y ∧ b ∈ into y := by
  have hstart : WalkedTo into src root 0 (Layer.start root : Layer α β) := walkedTo_start
  have h := hstart.rounds cap b m
  rwa [Nat.zero_add, Nat.zero_add] at h

end LayerWalk

end Hayven.Lib
