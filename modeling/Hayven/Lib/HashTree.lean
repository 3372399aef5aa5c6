import Mathlib.Data.Multiset.AddSub
import Mathlib.Data.Sym.Sym2
/-!
# Hash trees whose nodes do not order their children

A tree over leaf values; an inner node hashes the values of its two children in a way
that forgets which is left. If no two of the hashed pairs collide, nor a pair with a
leaf, the value at the root determines the multiset of leaves. One level is built from
another by pairing neighbours, an unpaired last node being promoted.
-/

namespace Hayven.Lib

inductive HashTree (α : Type) where
  | leaf (a : α)
  | node (left right : HashTree α)

namespace HashTree

variable {α : Type}

/-- The value at the root. -/
def value (f : α → α → α) : HashTree α → α
  | leaf a => a
  | node l r => f (l.value f) (r.value f)

def leaves : HashTree α → Multiset α
  | leaf a => {a}
  | node l r => l.leaves + r.leaves

/-- The pairs of values that are hashed. -/
def Hashes (f : α → α → α) : HashTree α → α → α → Prop
  | leaf _, _, _ => False
  | node l r, a, b => (a = l.value f ∧ b = r.value f) ∨ l.Hashes f a b ∨ r.Hashes f a b

/-- No two hashed pairs collide, and no leaf is the hash of a pair. -/
structure Apart (f : α → α → α) (t u : HashTree α) : Prop where
  node_node : ∀ {a b c d}, t.Hashes f a b → u.Hashes f c d → f a b = f c d → s(a, b) = s(c, d)
  leaf_node : ∀ {a c d}, a ∈ t.leaves → u.Hashes f c d → a ≠ f c d
  node_leaf : ∀ {a b c}, t.Hashes f a b → c ∈ u.leaves → f a b ≠ c

section Value
variable {f : α → α → α}

theorem Apart.left {l r u : HashTree α} (h : Apart f (node l r) u) : Apart f l u where
  node_node ht hu := h.node_node (.inr (.inl ht)) hu
  leaf_node ht hu := h.leaf_node (Multiset.mem_add.2 (.inl ht)) hu
  node_leaf ht hu := h.node_leaf (.inr (.inl ht)) hu

theorem Apart.right {l r u : HashTree α} (h : Apart f (node l r) u) : Apart f r u where
  node_node ht hu := h.node_node (.inr (.inr ht)) hu
  leaf_node ht hu := h.leaf_node (Multiset.mem_add.2 (.inr ht)) hu
  node_leaf ht hu := h.node_leaf (.inr (.inr ht)) hu

theorem Apart.symm {t u : HashTree α} (h : Apart f t u) : Apart f u t where
  node_node hu ht he := (h.node_node ht hu he.symm).symm
  leaf_node hu ht he := h.node_leaf ht hu he.symm
  node_leaf hu ht he := h.leaf_node ht hu he.symm

/-- Trees with one value have the same leaves. -/
theorem leaves_eq_of_value_eq {t u : HashTree α} (h : Apart f t u) (heq : t.value f = u.value f) :
    t.leaves = u.leaves := by
  induction t generalizing u with
  | leaf a =>
    cases u with
    | leaf b =>
      have hab : a = b := heq
      rw [hab]
    | node l r => exact absurd heq (h.leaf_node (Multiset.mem_singleton_self a) (.inl ⟨rfl, rfl⟩))
  | node l r ihl ihr =>
    cases u with
    | leaf b => exact absurd heq (h.node_leaf (.inl ⟨rfl, rfl⟩) (Multiset.mem_singleton_self b))
    | node l' r' =>
      have hpair := h.node_node (.inl ⟨rfl, rfl⟩) (.inl ⟨rfl, rfl⟩) heq
      -- the children agree, possibly the other way round
      rcases Sym2.eq_iff.1 hpair with ⟨hl, hr⟩ | ⟨hl, hr⟩
      · rw [leaves, leaves, ihl h.left.symm.left.symm hl, ihr h.right.symm.right.symm hr]
      · rw [leaves, leaves, ihl h.left.symm.right.symm hl, ihr h.right.symm.left.symm hr, add_comm]

end Value

/-! ## Levels -/

/-- One level up. -/
def pairUp : List (HashTree α) → List (HashTree α)
  | [] => []
  | [t] => [t]
  | l :: r :: rest => node l r :: pairUp rest

/-- The same on values. -/
def pairValues (f : α → α → α) : List α → List α
  | [] => []
  | [a] => [a]
  | a :: b :: rest => f a b :: pairValues f rest

theorem map_pairUp (f : α → α → α) (level : List (HashTree α)) :
    (pairUp level).map (value f) = pairValues f (level.map (value f)) := by
  induction level using pairUp.induct with
  | case1 => rfl
  | case2 t => rfl
  | case3 l r rest ih => simp [pairUp, pairValues, value, ih]

theorem leaves_pairUp (level : List (HashTree α)) :
    ((pairUp level).map leaves).sum = (level.map leaves).sum := by
  induction level using pairUp.induct with
  | case1 => rfl
  | case2 t => rfl
  | case3 l r rest ih => simp [pairUp, leaves, ih, add_assoc]

theorem length_pairUp (level : List (HashTree α)) : (pairUp level).length = (level.length + 1) / 2 := by
  induction level using pairUp.induct with
  | case1 => simp [pairUp]
  | case2 t => simp [pairUp]
  | case3 l r rest ih =>
    rw [pairUp, List.length_cons, ih, List.length_cons, List.length_cons]
    omega

/-- The pairs of one level. -/
def levelPairs : List α → List (α × α)
  | a :: b :: rest => (a, b) :: levelPairs rest
  | _ => []

theorem hashes_pairUp {f : α → α → α} {level : List (HashTree α)} {t : HashTree α} (ht : t ∈ pairUp level) {a b : α}
    (h : t.Hashes f a b) : (∃ u ∈ level, u.Hashes f a b) ∨ (a, b) ∈ levelPairs (level.map (value f)) := by
  induction level using pairUp.induct with
  | case1 => cases ht
  | case2 u => exact .inl ⟨t, ht, h⟩
  | case3 l r rest ih =>
    rcases List.mem_cons.1 ht with rfl | ht
    · rcases h with ⟨rfl, rfl⟩ | h | h
      · exact .inr List.mem_cons_self
      · exact .inl ⟨l, by simp, h⟩
      · exact .inl ⟨r, by simp, h⟩
    · rcases ih ht with ⟨u, hu, h⟩ | h
      · exact .inl ⟨u, by simp [hu], h⟩
      · exact .inr (List.mem_cons_of_mem _ h)

/-! ## The whole tree -/

/-- The value over a level, at most `fuel` levels up. -/
def reduce (f : α → α → α) : Nat → List α → Option α
  | fuel + 1, a :: b :: rest => reduce f fuel (pairValues f (a :: b :: rest))
  | _, level => level.head?

/-- The pairs hashed on the way. -/
def reducePairs (f : α → α → α) : Nat → List α → List (α × α)
  | fuel + 1, a :: b :: rest => levelPairs (a :: b :: rest) ++ reducePairs f fuel (pairValues f (a :: b :: rest))
  | _, _ => []

/-- A level of trees is the bottom of one tree. -/
theorem exists_tree (f : α → α → α) {fuel : Nat} {level : List (HashTree α)} (hne : level ≠ [])
    (hfuel : level.length ≤ fuel + 1) : ∃ t : HashTree α,
      reduce f fuel (level.map (value f)) = some (t.value f) ∧ t.leaves = (level.map leaves).sum ∧
      ∀ a b, t.Hashes f a b → (∃ u ∈ level, u.Hashes f a b) ∨ (a, b) ∈ reducePairs f fuel (level.map (value f)) := by
  induction fuel generalizing level with
  | zero =>
    match level, hne, hfuel with
    | [t], _, _ => exact ⟨t, rfl, by simp, fun a b h => .inl ⟨t, by simp, h⟩⟩
    | _ :: _ :: _, _, hfuel => simp at hfuel
  | succ fuel ih =>
    match level, hne, hfuel with
    | [t], _, _ => exact ⟨t, rfl, by simp, fun a b h => .inl ⟨t, by simp, h⟩⟩
    | l :: r :: rest, _, hfuel =>
      have hlen := length_pairUp (l :: r :: rest)
      have hmap := map_pairUp f (l :: r :: rest)
      rw [List.length_cons, List.length_cons] at hlen hfuel
      have hne' : pairUp (l :: r :: rest) ≠ [] := by simp [pairUp]
      have hfuel' : (pairUp (l :: r :: rest)).length ≤ fuel + 1 := by omega
      obtain ⟨t, ht, hleaves, hpairs⟩ := ih hne' hfuel'
      rw [hmap] at ht hpairs
      refine ⟨t, ht, hleaves.trans (leaves_pairUp _), fun a b h => ?_⟩
      rcases hpairs a b h with ⟨u, hu, h⟩ | h
      · rcases hashes_pairUp hu h with h | h
        · exact .inl h
        · exact .inr (List.mem_append_left _ h)
      · exact .inr (List.mem_append_right _ h)

theorem sum_leaves (level : List α) : ((level.map leaf).map leaves).sum = (level : Multiset α) := by
  induction level with
  | nil => rfl
  | cons a rest ih =>
    rw [List.map_cons, List.map_cons, List.sum_cons, ih]
    rfl

theorem exists_tree_of_level (f : α → α → α) {fuel : Nat} {level : List α} (hne : level ≠ [])
    (hfuel : level.length ≤ fuel + 1) : ∃ t : HashTree α, reduce f fuel level = some (t.value f) ∧
      t.leaves = (level : Multiset α) ∧ ∀ a b, t.Hashes f a b → (a, b) ∈ reducePairs f fuel level := by
  have hvalues : (level.map leaf).map (value f) = level := by
    rw [List.map_map]
    exact List.map_id _
  have hne' : level.map leaf ≠ [] := by simpa using hne
  have hfuel' : (level.map leaf).length ≤ fuel + 1 := by simpa using hfuel
  obtain ⟨t, ht, hleaves, hpairs⟩ := exists_tree f hne' hfuel'
  rw [hvalues] at ht hpairs
  refine ⟨t, ht, hleaves.trans (sum_leaves level), fun a b h => ?_⟩
  rcases hpairs a b h with ⟨u, hu, h⟩ | h
  -- a leaf hashes nothing
  · obtain ⟨x, -, rfl⟩ := List.mem_map.1 hu
    exact h.elim
  · exact h

/-- The value over a level is an entry of it or the hash of a pair. -/
theorem reduce_cases {f : α → α → α} {n : Nat} {xs : List α} (hxs : xs ≠ []) (hn : xs.length ≤ n + 1) :
    ∃ v, reduce f n xs = some v ∧ (v ∈ xs ∨ ∃ p ∈ reducePairs f n xs, v = f p.1 p.2) := by
  obtain ⟨t, ht, hleaves, hpairs⟩ := exists_tree_of_level f hxs hn
  refine ⟨t.value f, ht, ?_⟩
  cases t with
  | leaf a =>
    have ha : a ∈ (xs : Multiset α) := by
      rw [← hleaves]
      exact Multiset.mem_singleton_self a
    exact .inl ha
  | node l r => exact .inr ⟨_, hpairs _ _ (.inl ⟨rfl, rfl⟩), rfl⟩

theorem forall_pairValues {f : α → α → α} {P : α → Prop} (hf : ∀ a b, P (f a b)) {xs : List α} (h : ∀ a ∈ xs, P a) :
    ∀ a ∈ pairValues f xs, P a := by
  induction xs using pairValues.induct with
  | case1 => exact h
  | case2 a => exact h
  | case3 a b rest ih =>
    intro c hc
    rcases List.mem_cons.1 hc with rfl | hc
    · exact hf a b
    · exact ih (fun d hd => h d (by simp [hd])) c hc

theorem forall_levelPairs {P : α → Prop} {xs : List α} (h : ∀ a ∈ xs, P a) : ∀ p ∈ levelPairs xs, P p.1 ∧ P p.2 := by
  induction xs using levelPairs.induct with
  | case1 a b rest ih =>
    intro p hp
    rcases List.mem_cons.1 hp with rfl | hp
    · exact ⟨h a (by simp), h b (by simp)⟩
    · exact ih (fun d hd => h d (by simp [hd])) p hp
  | case2 xs hxs =>
    intro p hp
    rw [levelPairs.eq_2 xs hxs] at hp
    cases hp

/-- What holds of the entries and of every hash holds of the hashed values. -/
theorem forall_reducePairs {f : α → α → α} {P : α → Prop} (hf : ∀ a b, P (f a b)) {n : Nat} {xs : List α}
    (h : ∀ a ∈ xs, P a) : ∀ p ∈ reducePairs f n xs, P p.1 ∧ P p.2 := by
  induction n generalizing xs with
  | zero =>
    intro p hp
    simp [reducePairs] at hp
  | succ n ih =>
    match xs, h with
    | [], _ => intro p hp; simp [reducePairs] at hp
    | [_], _ => intro p hp; simp [reducePairs] at hp
    | a :: b :: rest, h =>
      intro p hp
      rcases List.mem_append.1 hp with hp | hp
      · exact forall_levelPairs h p hp
      · exact ih (forall_pairValues hf h) p hp

/-- Two levels under one value are the same up to order, if no two hashed pairs collide and no
entry is the hash of a pair. -/
theorem perm_of_reduce_eq {f : α → α → α} {n m : Nat} {xs ys : List α} (hxs : xs ≠ []) (hys : ys ≠ [])
    (hn : xs.length ≤ n + 1) (hm : ys.length ≤ m + 1)
    (hnode : ∀ p ∈ reducePairs f n xs, ∀ q ∈ reducePairs f m ys, f p.1 p.2 = f q.1 q.2 → s(p.1, p.2) = s(q.1, q.2))
    (hleft : ∀ a ∈ xs, ∀ q ∈ reducePairs f m ys, a ≠ f q.1 q.2)
    (hright : ∀ p ∈ reducePairs f n xs, ∀ b ∈ ys, f p.1 p.2 ≠ b) (heq : reduce f n xs = reduce f m ys) :
    xs.Perm ys := by
  obtain ⟨t, ht, htl, htp⟩ := exists_tree_of_level f hxs hn
  obtain ⟨u, hu, hul, hup⟩ := exists_tree_of_level f hys hm
  rw [ht, hu, Option.some.injEq] at heq
  have hapart : Apart f t u := {
    node_node := fun h h' => hnode _ (htp _ _ h) _ (hup _ _ h')
    leaf_node := fun h h' => hleft _ (by simpa [htl] using h) _ (hup _ _ h')
    node_leaf := fun h h' => hright _ (htp _ _ h) _ (by simpa [hul] using h') }
  have hleaves := leaves_eq_of_value_eq hapart heq
  rw [htl, hul] at hleaves
  exact Multiset.coe_eq_coe.1 hleaves

end HashTree

end Hayven.Lib
