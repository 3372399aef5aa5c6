import Mathlib.Data.List.Sort
/-!
# Comparators and sorting

A comparator is a function into `Ordering`, lawful by the classes `Std.TransCmp`
and `Std.LawfulEqCmp`. Sorting by a comparator that separates the elements of a
list forgets the order the list came in: `sortWith_congr`.
-/

namespace Hayven.Lib

/-! ## Comparing by one key, then by another -/

section Keys
variable {α β : Type} {cmp : β → β → Ordering}

/-- Compare through a key. -/
def cmpOn (key : α → β) (cmp : β → β → Ordering) (a b : α) : Ordering := cmp (key a) (key b)

instance (key : α → β) [Std.TransCmp cmp] : Std.TransCmp (cmpOn key cmp) where
  eq_swap {a b} := @Std.OrientedCmp.eq_swap β cmp _ (key a) (key b)
  isLE_trans {a b c} := @Std.TransCmp.isLE_trans β cmp _ (key a) (key b) (key c)

end Keys

/-! ## Sorting -/

section Sorting
variable {α : Type} (cmp : α → α → Ordering)

/-- Stable sort: elements the comparator calls equal keep their order. -/
def sortWith (l : List α) : List α := l.insertionSort (fun a b => (cmp a b).isLE = true)

theorem sortWith_perm (l : List α) : (sortWith cmp l).Perm l := List.perm_insertionSort _ l

@[simp] theorem mem_sortWith {l : List α} {a : α} : a ∈ sortWith cmp l ↔ a ∈ l :=
  (sortWith_perm cmp l).mem_iff

@[simp] theorem sortWith_nil : sortWith cmp [] = [] := rfl

@[simp] theorem length_sortWith (l : List α) : (sortWith cmp l).length = l.length :=
  (sortWith_perm cmp l).length_eq

theorem sortWith_eq_nil {l : List α} : sortWith cmp l = [] ↔ l = [] := by
  rw [← List.length_eq_zero_iff, length_sortWith, List.length_eq_zero_iff]

theorem sortWith_pairwise [Std.TransCmp cmp] (l : List α) :
    (sortWith cmp l).Pairwise (fun a b => (cmp a b).isLE = true) := by
  have total : Std.Total (fun a b => (cmp a b).isLE = true) := ⟨fun a b => by
    rw [← Std.OrientedCmp.isGE_eq_isLE (a := a)]
    cases cmp a b <;> simp⟩
  have trans : IsTrans α (fun a b => (cmp a b).isLE = true) := ⟨fun _ _ _ => Std.TransCmp.isLE_trans⟩
  exact List.pairwise_insertionSort _ l

/-- Where the comparator separates the elements, the sorted list only depends on
which elements there are. -/
theorem sortWith_congr [Std.TransCmp cmp] {l l' : List α} (hp : l.Perm l')
    (hinj : ∀ a ∈ l, ∀ b ∈ l, cmp a b = .eq → a = b) : sortWith cmp l = sortWith cmp l' := by
  refine List.Perm.eq_of_pairwise ?_
    (sortWith_pairwise cmp l) (sortWith_pairwise cmp l') ?_
  · intro a b ha hb hab hba
    have hb' : b ∈ l := hp.symm.subset ((mem_sortWith cmp).1 hb)
    exact hinj a ((mem_sortWith cmp).1 ha) b hb' (Std.OrientedCmp.isLE_antisymm hab hba)
  · exact (sortWith_perm cmp l).trans (hp.trans (sortWith_perm cmp l').symm)

/-- The last element of a sorted list is above every other. -/
theorem getLast_sortWith [Std.TransCmp cmp] {l : List α} {m : α} (h : (sortWith cmp l).getLast? = some m) :
    m ∈ l ∧ ∀ a ∈ l, (cmp a m).isLE = true := by
  obtain ⟨init, hinit⟩ := List.getLast?_eq_some_iff.1 h
  have hsorted := sortWith_pairwise cmp l
  have hmem : ∀ a, a ∈ l ↔ a ∈ init ∨ a = m := by
    intro a
    rw [← mem_sortWith cmp, hinit]
    simp
  refine ⟨(hmem m).2 (.inr rfl), fun a ha => ?_⟩
  rcases (hmem a).1 ha with ha | rfl
  · rw [hinit, List.pairwise_append] at hsorted
    exact hsorted.2.2 a ha m (by simp)
  · exact Std.ReflCmp.isLE_rfl

end Sorting

/-! ### Comparators that are lawful on a list -/

section OnList
variable {α : Type} {cmp : α → α → Ordering} {l : List α}

/-- A strict weak order on the elements of a list: antisymmetric, transitive, and with
a transitive equivalence. -/
structure WeakOrderOn (cmp : α → α → Ordering) (l : List α) : Prop where
  swap : ∀ a ∈ l, ∀ b ∈ l, cmp a b = (cmp b a).swap
  trans : ∀ a ∈ l, ∀ b ∈ l, ∀ c ∈ l, cmp a b = .lt → cmp b c = .lt → cmp a c = .lt
  eqTrans : ∀ a ∈ l, ∀ b ∈ l, ∀ c ∈ l, cmp a b = .eq → cmp b c = .eq → cmp a c = .eq

namespace WeakOrderOn
variable (h : WeakOrderOn cmp l)
include h

theorem eq_comm {a b : α} (ha : a ∈ l) (hb : b ∈ l) (hab : cmp a b = .eq) : cmp b a = .eq := by
  rw [h.swap b hb a ha, hab]
  rfl

theorem lt_of_not_isLE {a b : α} (ha : a ∈ l) (hb : b ∈ l) (hab : (cmp a b).isLE = false) : cmp b a = .lt := by
  rw [h.swap b hb a ha]
  cases hcmp : cmp a b <;> simp_all

theorem isLE_trans {a b c : α} (ha : a ∈ l) (hb : b ∈ l) (hc : c ∈ l) (hab : (cmp a b).isLE = true)
    (hbc : (cmp b c).isLE = true) : (cmp a c).isLE = true := by
  by_contra hac
  have hca : cmp c a = .lt := h.lt_of_not_isLE ha hc (by simpa using hac)
  rcases Ordering.isLE_iff_eq_lt_or_eq_eq.1 hab with hab | hab
  · have hcb := h.trans c hc a ha b hb hca hab
    rw [h.swap b hb c hc, hcb] at hbc
    cases hbc
  · rcases Ordering.isLE_iff_eq_lt_or_eq_eq.1 hbc with hbc | hbc
    · have hba := h.trans b hb c hc a ha hbc hca
      rw [h.swap a ha b hb, hba] at hab
      cases hab
    · have hcaeq := h.eq_comm ha hc (h.eqTrans a ha b hb c hc hab hbc)
      rw [hcaeq] at hca
      cases hca

/-- Sorting by it yields a sorted list. -/
theorem sortWith_pairwise_on : (sortWith cmp l).Pairwise fun a b => (cmp a b).isLE = true := by
  let cmp' : {a // a ∈ l} → {a // a ∈ l} → Ordering := fun a b => cmp a b
  have hlawful : Std.TransCmp cmp' :=
    { eq_swap := fun {a b} => h.swap a.1 a.2 b.1 b.2
      isLE_trans := fun {a b c} => h.isLE_trans a.2 b.2 c.2 }
  have hmap : (sortWith cmp' l.attach).map Subtype.val = sortWith cmp l := by
    unfold sortWith
    rw [List.map_insertionSort _ (fun a b : α => (cmp a b).isLE = true) Subtype.val, List.attach_map_subtype_val]
    intro a _ b _
    rfl
  rw [← hmap, List.pairwise_map]
  exact sortWith_pairwise cmp' l.attach

/-- Where it separates the elements, the sorted list only depends on which they are. -/
theorem sortWith_congr_on {l' : List α} (hp : l.Perm l') (hinj : ∀ a ∈ l, ∀ b ∈ l, cmp a b = .eq → a = b) :
    sortWith cmp l = sortWith cmp l' := by
  have h' : WeakOrderOn cmp l' :=
    ⟨fun a ha b hb => h.swap a (hp.mem_iff.2 ha) b (hp.mem_iff.2 hb),
      fun a ha b hb c hc => h.trans a (hp.mem_iff.2 ha) b (hp.mem_iff.2 hb) c (hp.mem_iff.2 hc),
      fun a ha b hb c hc => h.eqTrans a (hp.mem_iff.2 ha) b (hp.mem_iff.2 hb) c (hp.mem_iff.2 hc)⟩
  refine List.Perm.eq_of_pairwise ?_ h.sortWith_pairwise_on h'.sortWith_pairwise_on ?_
  · intro a b ha hb hab hba
    rw [mem_sortWith] at ha hb
    have hb' := hp.mem_iff.2 hb
    refine hinj a ha b hb' ?_
    rw [h.swap b hb' a ha] at hba
    cases hcmp : cmp a b <;> simp_all
  · exact (sortWith_perm cmp l).trans (hp.trans (sortWith_perm cmp l').symm)

end WeakOrderOn

end OnList

/-! ## Stable parts -/

section Stable
variable {α : Type} {r : α → α → Prop} [DecidableRel r]

theorem filter_orderedInsert {p : α → Bool} {l : List α} (hl : l.Pairwise r) [IsTrans α r] (a : α) :
    (l.orderedInsert r a).filter p = if p a then (l.filter p).orderedInsert r a else l.filter p := by
  induction l with
  | nil => cases hp : p a <;> simp [hp]
  | cons b l ih =>
    rw [List.pairwise_cons] at hl
    by_cases hab : r a b
    · rw [List.orderedInsert_cons_of_le r l hab, List.filter_cons]
      split
      · -- every element that is kept is above `a`
        have habove : ∀ c ∈ (b :: l).filter p, r a c := by
          intro c hc
          rcases List.mem_cons.1 (List.mem_filter.1 hc).1 with rfl | hc
          · exact hab
          · exact IsTrans.trans a b c hab (hl.1 c hc)
        cases hkept : (b :: l).filter p with
        | nil => rfl
        | cons c kept =>
          rw [List.orderedInsert_cons_of_le r kept (habove c (hkept ▸ List.mem_cons_self))]
      · rfl
    · rw [List.orderedInsert_of_not_le r l hab, List.filter_cons, ih hl.2, List.filter_cons]
      by_cases hb : p b = true
      · simp only [hb, if_true]
        split
        · rw [List.orderedInsert_of_not_le r _ hab]
        · rfl
      · simp only [hb]
        rfl

/-- A stable sort sorts a part of the list as it sorts that part alone. -/
theorem filter_sortWith (cmp : α → α → Ordering) [Std.TransCmp cmp] (p : α → Bool) (l : List α) :
    (sortWith cmp l).filter p = sortWith cmp (l.filter p) := by
  have trans : IsTrans α (fun a b => (cmp a b).isLE = true) := ⟨fun _ _ _ => Std.TransCmp.isLE_trans⟩
  induction l with
  | nil => rfl
  | cons a l ih =>
    have hsorted := sortWith_pairwise cmp l
    unfold sortWith at ih hsorted ⊢
    rw [List.insertionSort_cons, filter_orderedInsert hsorted, ih, List.filter_cons]
    split
    · rfl
    · rfl

/-- A list in which all elements with the property come first. -/
theorem filter_append_filter_not {p : α → Bool} {l : List α} (h : l.Pairwise fun a b => p b = true → p a = true) :
    l.filter p ++ l.filter (fun a => !p a) = l := by
  induction l with
  | nil => rfl
  | cons a l ih =>
    rw [List.pairwise_cons] at h
    by_cases ha : p a = true
    · rw [List.filter_cons_of_pos ha, List.filter_cons_of_neg (by simp [ha]), List.cons_append, ih h.2]
    · have hnone : l.filter p = [] := by
        rw [List.filter_eq_nil_iff]
        exact fun b hb hpb => ha (h.1 b hb hpb)
      have hall := ih h.2
      rw [hnone, List.nil_append] at hall
      rw [List.filter_cons_of_neg ha, hnone, List.filter_cons_of_pos (by simp [ha]), List.nil_append, hall]

end Stable

end Hayven.Lib
