import Hayven.Lib.KeyedMap
import Mathlib.Data.Finset.Card
import Mathlib.Data.Finset.Range
import Mathlib.Logic.Relation
/-!
# Disjoint sets with path halving

A forest over the indices of a list of parent pointers: a root points at itself.
`find` halves the path it walks and `union` hangs one root under the other, without
ranks. What a forest means is the representative it gives each index (`Represents`):
finding changes none of them, a union merges two classes (`merge`), and linking a list
of pairs leaves the equivalence they generate: `linkAll_spec`.
-/

namespace Hayven.Lib

namespace DisjointSets

def parentOf (p : List Nat) (i : Nat) : Nat := p.getD i i

/-- `none` when the walk takes more than the given number of rounds. -/
def findIn : Nat → List Nat → Nat → Option (Nat × List Nat)
  | 0, _, _ => none
  | rounds + 1, p, i =>
    if parentOf p i = i then some (i, p)
    else
      let p := p.set i (parentOf p (parentOf p i))
      findIn rounds p (parentOf p i)

def find (p : List Nat) (i : Nat) : Option (Nat × List Nat) := findIn p.length p i

def union (p : List Nat) (a b : Nat) : Option (List Nat) := do
  let (ra, p) ← find p a
  let (rb, p) ← find p b
  return if ra ≠ rb then p.set ra rb else p

/-- Every index is its own root. -/
def singletons (n : Nat) : List Nat := List.range n

def linkAll (p : List Nat) (pairs : List (Nat × Nat)) : Option (List Nat) :=
  pairs.foldlM (fun p ab => union p ab.1 ab.2) p

/-! ## Paths to a root -/

/-- `k` parent pointers lead from an index to the root `r`. -/
inductive RootIn (p : List Nat) : Nat → Nat → Nat → Prop
  | root {i : Nat} : parentOf p i = i → RootIn p 0 i i
  | step {k i r : Nat} : parentOf p i ≠ i → RootIn p k (parentOf p i) r → RootIn p (k + 1) i r

theorem RootIn.unique {p : List Nat} {k i r : Nat} (h : RootIn p k i r) :
    ∀ {k' r' : Nat}, RootIn p k' i r' → k = k' ∧ r = r' := by
  induction h with
  | root hi =>
    intro k' r' h'
    cases h' with
    | root => exact ⟨rfl, rfl⟩
    | step hne _ => exact absurd hi hne
  | step hne _ ih =>
    intro k' r' h'
    cases h' with
    | root hi => exact absurd hi hne
    | step _ h' =>
      obtain ⟨rfl, rfl⟩ := ih h'
      exact ⟨rfl, rfl⟩

theorem RootIn.isRoot {p : List Nat} {k i r : Nat} (h : RootIn p k i r) : parentOf p r = r := by
  induction h with
  | root hi => exact hi
  | step _ _ ih => exact ih

theorem RootIn.iterate {p : List Nat} {k i r : Nat} (h : RootIn p k i r) :
    ∀ {a : Nat}, a ≤ k → RootIn p (k - a) ((parentOf p)^[a] i) r := by
  induction h with
  | root hi =>
    intro a ha
    obtain rfl : a = 0 := by omega
    exact .root hi
  | @step k i r hne h ih =>
    intro a ha
    cases a with
    | zero => exact .step hne h
    | succ a =>
      rw [Nat.add_sub_add_right, Function.iterate_succ_apply]
      exact ih (by omega)

/-- The grandparent of a non-root has the same root, nearer by one pointer at least. -/
theorem RootIn.grandparent {p : List Nat} {k i r : Nat} (h : RootIn p k i r) (hne : parentOf p i ≠ i) :
    ∃ k' < k, RootIn p k' (parentOf p (parentOf p i)) r := by
  cases h with
  | root hi => exact absurd hi hne
  | @step k _ _ _ h =>
    generalize parentOf p i = q at h
    cases h with
    | root hq => exact ⟨0, by omega, by rw [hq]; exact .root hq⟩
    | @step k' _ _ _ h => exact ⟨k', by omega, h⟩

theorem parentOf_set {p : List Nat} {i j v : Nat} (hi : i < p.length) :
    parentOf (p.set i v) j = if i = j then v else parentOf p j := by
  unfold parentOf
  by_cases h : i = j
  · subst h
    simp [List.getD_eq_getElem?_getD, hi]
  · simp [List.getD_eq_getElem?_getD, h]

/-! ## Forests -/

/-- The parents stay in range and lead every index to its representative. -/
structure Represents (p : List Nat) (rep : Nat → Nat) : Prop where
  bounded : ∀ i < p.length, parentOf p i < p.length
  rooted : ∀ i < p.length, ∃ k, RootIn p k i (rep i)

theorem represents_singletons (n : Nat) : Represents (singletons n) id := by
  have hself : ∀ i < n, parentOf (singletons n) i = i := by
    intro i hi
    simp [parentOf, singletons, List.getD_eq_getElem?_getD, hi]
  unfold singletons at *
  constructor
  · intro i hi
    rw [hself i (by simpa using hi)]
    exact hi
  · intro i hi
    exact ⟨0, .root (hself i (by simpa using hi))⟩

/-- A path visits no index twice, so it is shorter than the list. -/
theorem Represents.path_lt {p : List Nat} {rep : Nat → Nat} (h : Represents p rep) {k i r : Nat} (hi : i < p.length)
    (hr : RootIn p k i r) : k < p.length := by
  have hmaps : ∀ a ∈ Finset.range (k + 1), (parentOf p)^[a] i ∈ Finset.range p.length := by
    intro a _
    rw [Finset.mem_range]
    induction a with
    | zero => exact hi
    | succ a ih =>
      rw [Function.iterate_succ_apply']
      exact h.bounded _ (ih (by simp at *; omega))
  have hinj : Set.InjOn (fun a => (parentOf p)^[a] i) (Finset.range (k + 1)) := by
    intro a ha b hb hab
    simp only [Finset.coe_range, Set.mem_Iio] at ha hb
    have hpa := hr.iterate (show a ≤ k by omega)
    have hpb := hr.iterate (show b ≤ k by omega)
    simp only at hab
    rw [hab] at hpa
    have := (hpa.unique hpb).1
    omega
  have hcard := Finset.card_le_card_of_injOn _ hmaps hinj
  simp only [Finset.card_range] at hcard
  omega

theorem Represents.isRoot {p : List Nat} {rep : Nat → Nat} (h : Represents p rep) {i : Nat} (hi : i < p.length) :
    parentOf p (rep i) = rep i := by
  obtain ⟨k, hk⟩ := h.rooted i hi
  exact hk.isRoot

theorem Represents.rep_lt {p : List Nat} {rep : Nat → Nat} (h : Represents p rep) {i : Nat} (hi : i < p.length) :
    rep i < p.length := by
  obtain ⟨k, hk⟩ := h.rooted i hi
  generalize rep i = r at hk ⊢
  induction hk with
  | root => exact hi
  | @step k i r _ _ ih => exact ih (h.bounded i hi)

/-! ## Finding -/

/-- Pointing an index at its grandparent shortens paths and moves no root. -/
theorem RootIn.halve {p : List Nat} {i : Nat} (hi : i < p.length) (hne : parentOf p i ≠ i) :
    ∀ {k j s : Nat}, RootIn p k j s → ∃ k' ≤ k, RootIn (p.set i (parentOf p (parentOf p i))) k' j s := by
  intro k
  induction k using Nat.strong_induction_on with
  | _ k ih =>
    intro j s h
    cases h with
    | root hj =>
      refine ⟨0, Nat.le_refl 0, .root ?_⟩
      have hij : i ≠ j := by
        rintro rfl
        exact hne hj
      rw [parentOf_set hi, if_neg hij, hj]
    | @step k _ _ hj h =>
      by_cases hij : i = j
      · subst hij
        have hgp : parentOf (p.set i (parentOf p (parentOf p i))) i = parentOf p (parentOf p i) := by
          rw [parentOf_set hi, if_pos rfl]
        cases h with
        | root hq =>
          -- the parent is the root: nothing moves
          refine ⟨1, by omega, .step ?_ ?_⟩
          · rw [hgp, hq]; exact hne
          · rw [hgp, hq]
            refine .root ?_
            rw [parentOf_set hi, if_neg (Ne.symm hne), hq]
        | @step k' _ _ hq h =>
          obtain ⟨k₁, hle, h₁⟩ := ih k' (by omega) h
          refine ⟨k₁ + 1, by omega, .step ?_ ?_⟩
          · rw [hgp]
            intro hback
            rw [hback] at h
            have := (h.unique (RootIn.step hne (.step hq (by rw [hback]; exact h)))).1
            omega
          · rw [hgp]; exact h₁
      · obtain ⟨k₁, hle, h₁⟩ := ih k (by omega) h
        have hsame : parentOf (p.set i (parentOf p (parentOf p i))) j = parentOf p j := by
          rw [parentOf_set hi, if_neg hij]
        refine ⟨k₁ + 1, by omega, .step ?_ ?_⟩
        · rw [hsame]; exact hj
        · rw [hsame]; exact h₁

theorem Represents.halve {p : List Nat} {rep : Nat → Nat} (h : Represents p rep) {i : Nat} (hi : i < p.length)
    (hne : parentOf p i ≠ i) : Represents (p.set i (parentOf p (parentOf p i))) rep := by
  constructor
  · intro j hj
    rw [List.length_set] at hj ⊢
    rw [parentOf_set hi]
    split
    · exact h.bounded _ (h.bounded i hi)
    · exact h.bounded j hj
  · intro j hj
    rw [List.length_set] at hj
    obtain ⟨k, hk⟩ := h.rooted j hj
    obtain ⟨k', -, hk'⟩ := RootIn.halve hi hne hk
    exact ⟨k', hk'⟩

theorem findIn_spec {rep : Nat → Nat} (rounds : Nat) : ∀ {p : List Nat} {i k : Nat}, Represents p rep →
    i < p.length → RootIn p k i (rep i) → k < rounds →
      ∃ p', findIn rounds p i = some (rep i, p') ∧ Represents p' rep ∧ p'.length = p.length := by
  induction rounds with
  | zero => intro p i k _ _ _ hk; omega
  | succ rounds ih =>
    intro p i k h hi hk hlt
    unfold findIn
    by_cases hroot : parentOf p i = i
    · rw [if_pos hroot]
      obtain ⟨-, hrep⟩ := hk.unique (.root hroot)
      exact ⟨p, by rw [hrep], h, rfl⟩
    · rw [if_neg hroot]
      have hself : parentOf (p.set i (parentOf p (parentOf p i))) i = parentOf p (parentOf p i) := by
        rw [parentOf_set hi, if_pos rfl]
      have hgp : parentOf p (parentOf p i) < p.length := h.bounded _ (h.bounded i hi)
      obtain ⟨k', hk', hpath⟩ := hk.grandparent hroot
      have hrep : rep (parentOf p (parentOf p i)) = rep i := by
        obtain ⟨_, hroot'⟩ := h.rooted _ hgp
        exact (hroot'.unique hpath).2
      obtain ⟨k₁, hle, hpath₁⟩ := RootIn.halve hi hroot hpath
      obtain ⟨p', hfind, hrep', hlen⟩ :=
        ih (h.halve hi hroot) (by rw [List.length_set]; exact hgp) (by rw [hrep]; exact hpath₁) (by omega)
      refine ⟨p', ?_, hrep', by rw [hlen, List.length_set]⟩
      show findIn rounds _ (parentOf (p.set i _) i) = _
      rw [hself, hfind, hrep]

/-- Finding always ends, with the representative, and changes none. -/
theorem find_spec {p : List Nat} {rep : Nat → Nat} (h : Represents p rep) {i : Nat} (hi : i < p.length) :
    ∃ p', find p i = some (rep i, p') ∧ Represents p' rep ∧ p'.length = p.length := by
  obtain ⟨k, hk⟩ := h.rooted i hi
  exact findIn_spec p.length h hi hk (h.path_lt hi hk)

/-! ## Merging -/

/-- The representatives once the class of `a` joined that of `b`. -/
def merge (rep : Nat → Nat) (a b i : Nat) : Nat := if rep i = rep a then rep b else rep i

theorem merge_eq_iff (rep : Nat → Nat) (a b i j : Nat) :
    merge rep a b i = merge rep a b j ↔
      rep i = rep j ∨ (rep i = rep a ∧ rep j = rep b) ∨ (rep i = rep b ∧ rep j = rep a) := by
  unfold merge
  split <;> split <;> grind

/-- Hanging the root `ra` under the root `rb`. -/
theorem RootIn.link {p : List Nat} {ra rb : Nat} (hlt : ra < p.length) (hne : ra ≠ rb) (ha : parentOf p ra = ra)
    (hb : parentOf p rb = rb) {k i r : Nat} (h : RootIn p k i r) :
    ∃ k', RootIn (p.set ra rb) k' i (if r = ra then rb else r) := by
  induction h with
  | @root i hi =>
    by_cases hia : i = ra
    · subst hia
      rw [if_pos rfl]
      refine ⟨1, .step ?_ ?_⟩ <;> rw [parentOf_set hlt, if_pos rfl]
      · exact Ne.symm hne
      · exact .root (by rw [parentOf_set hlt, if_neg hne, hb])
    · rw [if_neg hia]
      exact ⟨0, .root (by rw [parentOf_set hlt, if_neg (Ne.symm hia), hi])⟩
  | @step k i r hi _ ih =>
    obtain ⟨k', hk'⟩ := ih
    have hia : ra ≠ i := by
      rintro rfl
      exact hi ha
    refine ⟨k' + 1, .step ?_ ?_⟩ <;> rw [parentOf_set hlt, if_neg hia]
    · exact hi
    · exact hk'

theorem Represents.link {p : List Nat} {rep : Nat → Nat} (h : Represents p rep) {a b : Nat} (ha : a < p.length)
    (hb : b < p.length) (hne : rep a ≠ rep b) : Represents (p.set (rep a) (rep b)) (merge rep a b) := by
  have hlt := h.rep_lt ha
  constructor
  · intro i hi
    rw [List.length_set] at hi ⊢
    rw [parentOf_set hlt]
    split
    · exact h.rep_lt hb
    · exact h.bounded i hi
  · intro i hi
    rw [List.length_set] at hi
    obtain ⟨k, hk⟩ := h.rooted i hi
    exact hk.link hlt hne (h.isRoot ha) (h.isRoot hb)

theorem union_spec {p : List Nat} {rep : Nat → Nat} (h : Represents p rep) {a b : Nat} (ha : a < p.length)
    (hb : b < p.length) :
    ∃ p', union p a b = some p' ∧ Represents p' (merge rep a b) ∧ p'.length = p.length := by
  obtain ⟨p₁, hfind, h₁, hlen₁⟩ := find_spec h ha
  obtain ⟨p₂, hfind', h₂, hlen₂⟩ := find_spec h₁ (hlen₁ ▸ hb)
  unfold union
  rw [hfind]
  simp only [Option.bind_eq_bind, Option.bind_some, hfind', Option.pure_def, Option.some.injEq, exists_eq_left']
  have hlen : p₂.length = p.length := hlen₂.trans hlen₁
  by_cases hne : rep a = rep b
  · have hsame : merge rep a b = rep := by
      funext i
      unfold merge
      split
      · rename_i hi; rw [hi, hne]
      · rfl
    rw [if_neg (by simpa using hne), hsame]
    exact ⟨h₂, hlen⟩
  · rw [if_pos hne, List.length_set]
    exact ⟨h₂.link (hlen.symm ▸ ha) (hlen.symm ▸ hb) hne, hlen⟩

/-- Two indices end up together exactly when the classes and the pairs link them. -/
theorem linkAll_spec (pairs : List (Nat × Nat)) : ∀ {p : List Nat} {rep : Nat → Nat}, Represents p rep →
    (∀ ab ∈ pairs, ab.1 < p.length ∧ ab.2 < p.length) →
      ∃ p' rep', linkAll p pairs = some p' ∧ Represents p' rep' ∧ p'.length = p.length ∧
        ∀ i j, rep' i = rep' j ↔ Relation.EqvGen (fun a b => rep a = rep b ∨ (a, b) ∈ pairs) i j := by
  induction pairs with
  | nil =>
    intro p rep h _
    refine ⟨p, rep, rfl, h, rfl, fun i j => ⟨fun hij => .rel _ _ (.inl hij), fun hij => ?_⟩⟩
    induction hij with
    | rel a b hab => simpa using hab
    | refl a => rfl
    | symm a b _ ih => exact ih.symm
    | trans a b c _ _ ih₁ ih₂ => exact ih₁.trans ih₂
  | cons ab pairs ih =>
    intro p rep h hin
    obtain ⟨a, b⟩ := ab
    obtain ⟨ha, hb⟩ := hin (a, b) (by simp)
    obtain ⟨p₁, hunion, h₁, hlen₁⟩ := union_spec h ha hb
    obtain ⟨p', rep', hlink, h', hlen', hrep⟩ := ih h₁ (fun cd hcd => by rw [hlen₁]; exact hin cd (by simp [hcd]))
    refine ⟨p', rep', ?_, h', hlen'.trans hlen₁, fun i j => ?_⟩
    · rw [linkAll, List.foldlM_cons]
      simp only [hunion, Option.bind_eq_bind, Option.bind_some]
      exact hlink
    · rw [hrep]
      have hlinked : Relation.EqvGen (fun c d => rep c = rep d ∨ (c, d) ∈ (a, b) :: pairs) a b := .rel _ _ (.inr (by simp))
      have hold {c d : Nat} (hcd : rep c = rep d) :
          Relation.EqvGen (fun c d => rep c = rep d ∨ (c, d) ∈ (a, b) :: pairs) c d := .rel _ _ (.inl hcd)
      constructor <;> intro hij
      · induction hij with
        | rel c d hcd =>
          rcases hcd with hcd | hcd
          · rcases (merge_eq_iff rep a b c d).1 hcd with hcd | ⟨hc, hd⟩ | ⟨hc, hd⟩
            · exact hold hcd
            · exact (hold hc).trans _ _ _ (hlinked.trans _ _ _ (hold hd.symm))
            · exact (hold hc).trans _ _ _ ((hlinked.symm _ _).trans _ _ _ (hold hd.symm))
          · exact .rel _ _ (.inr (by simp [hcd]))
        | refl c => exact .refl c
        | symm c d _ ih => exact ih.symm _ _
        | trans c d e _ _ ih₁ ih₂ => exact ih₁.trans _ _ _ ih₂
      · induction hij with
        | rel c d hcd =>
          rcases hcd with hcd | hcd
          · exact .rel _ _ (.inl ((merge_eq_iff rep a b c d).2 (.inl hcd)))
          · rcases List.mem_cons.1 hcd with hcd | hcd
            · obtain ⟨rfl, rfl⟩ := Prod.mk.inj hcd
              exact .rel _ _ (.inl ((merge_eq_iff rep c d c d).2 (.inr (.inl ⟨rfl, rfl⟩))))
            · exact .rel _ _ (.inr hcd)
        | refl c => exact .refl c
        | symm c d _ ih => exact ih.symm _ _
        | trans c d e _ _ ih₁ ih₂ => exact ih₁.trans _ _ _ ih₂

/-! ## The classes -/

/-- Append an element to the bucket under its key. -/
def addTo (m : KeyedMap Nat (List Nat)) (k i : Nat) : KeyedMap Nat (List Nat) := m.set k ((m.get k).getD [] ++ [i])

/-- The indices bucketed by the root each is found under. -/
def bucketsFrom (p : List Nat) (m : KeyedMap Nat (List Nat)) (is : List Nat) :
    Option (List Nat × KeyedMap Nat (List Nat)) :=
  is.foldlM (fun pm i => (find pm.1 i).map fun found => (found.2, addTo pm.2 found.1 i)) (p, m)

theorem bucketsFrom_spec {rep : Nat → Nat} (is : List Nat) : ∀ {p : List Nat} {m : KeyedMap Nat (List Nat)},
    Represents p rep → (∀ i ∈ is, i < p.length) →
      ∃ p', bucketsFrom p m is = some (p', is.foldl (fun m i => addTo m (rep i) i) m) := by
  induction is with
  | nil => intro p m _ _; exact ⟨p, rfl⟩
  | cons i is ih =>
    intro p m h hin
    obtain ⟨p₁, hfind, h₁, hlen⟩ := find_spec h (hin i (by simp))
    obtain ⟨p', hrest⟩ := ih (m := addTo m (rep i) i) h₁ (fun j hj => by rw [hlen]; exact hin j (by simp [hj]))
    refine ⟨p', ?_⟩
    rw [bucketsFrom, List.foldlM_cons]
    simp only [hfind, Option.map_some, Option.bind_eq_bind, Option.bind_some, List.foldl_cons]
    exact hrest

theorem get_foldl_addTo (rep : Nat → Nat) (k : Nat) (is : List Nat) : ∀ m : KeyedMap Nat (List Nat),
    (is.foldl (fun m i => addTo m (rep i) i) m).get k =
      if is.filter (rep · = k) = [] then m.get k else some ((m.get k).getD [] ++ is.filter (rep · = k)) := by
  induction is with
  | nil => intro m; simp
  | cons i is ih =>
    intro m
    rw [List.foldl_cons, ih]
    by_cases hk : rep i = k
    · subst hk
      simp [addTo]
    · have hget : (addTo m (rep i) i).get k = m.get k := by rw [addTo, KeyedMap.get_set_ne _ _ hk]
      simp [hget, hk]

end DisjointSets

end Hayven.Lib
