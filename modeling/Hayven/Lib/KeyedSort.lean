import Hayven.Lib.Ordering
import Mathlib.Data.Finite.Set
import Mathlib.Data.Fintype.Order
import Mathlib.Data.List.TakeWhile
import Mathlib.Data.Set.Finite.List
/-!
# Sorting, then keeping one element a key

A comparator that orders by a key first and breaks ties after, without having to tell
every two elements apart. The first element of each key after sorting only depends on
which elements there are exactly if no key has two elements that nothing beats:
`canonical_congr_iff`.
-/

namespace Hayven.Lib

variable {α κ : Type}

/-! ## The first of each key -/

section KeepFirst
variable [DecidableEq κ] {key : α → κ}

/-- The elements whose key did not come before. -/
def keepFirst (key : α → κ) (seen : List κ) : List α → List α
  | [] => []
  | a :: l => if key a ∈ seen then keepFirst key seen l else a :: keepFirst key (key a :: seen) l

theorem keepFirst_sublist (seen : List κ) (l : List α) : (keepFirst key seen l).Sublist l := by
  induction l generalizing seen with
  | nil => exact List.Sublist.refl []
  | cons a l ih =>
    unfold keepFirst
    split
    · exact (ih seen).cons a
    · exact (ih _).cons_cons a

theorem not_mem_of_mem_keepFirst {seen : List κ} {l : List α} {a : α} (h : a ∈ keepFirst key seen l) :
    key a ∉ seen := by
  induction l generalizing seen with
  | nil => exact absurd h List.not_mem_nil
  | cons b l ih =>
    unfold keepFirst at h
    split at h
    case isTrue => exact ih h
    case isFalse hb =>
      rcases List.mem_cons.1 h with rfl | h
      · exact hb
      · exact fun ha => ih h (List.mem_cons_of_mem _ ha)

theorem keepFirst_pairwise_ne (seen : List κ) (l : List α) :
    (keepFirst key seen l).Pairwise fun a b => key a ≠ key b := by
  induction l generalizing seen with
  | nil => exact List.Pairwise.nil
  | cons a l ih =>
    unfold keepFirst
    split
    · exact ih seen
    · refine List.Pairwise.cons (fun b hb heq => ?_) (ih _)
      exact not_mem_of_mem_keepFirst hb (heq ▸ List.mem_cons_self)

/-- An element that nothing else of its key comes before is the one kept. -/
theorem mem_keepFirst {seen : List κ} {before after : List α} {d : α} (hseen : key d ∉ seen)
    (hbefore : ∀ a ∈ before, key a = key d → a = d) : d ∈ keepFirst key seen (before ++ d :: after) := by
  induction before generalizing seen with
  | nil =>
    rw [List.nil_append]
    unfold keepFirst
    rw [if_neg hseen]
    exact List.mem_cons_self
  | cons a before ih =>
    have hrest := fun b hb => hbefore b (List.mem_cons_of_mem a hb)
    rw [List.cons_append]
    unfold keepFirst
    by_cases ha : key a ∈ seen
    · rw [if_pos ha]
      exact ih hseen hrest
    · rw [if_neg ha]
      by_cases hda : key a = key d
      · exact hbefore a List.mem_cons_self hda ▸ List.mem_cons_self
      · refine List.mem_cons_of_mem _ (ih ?_ hrest)
        simp only [List.mem_cons, not_or]
        exact ⟨Ne.symm hda, hseen⟩

/-- Keys that tell the same elements apart keep the same ones. -/
theorem keepFirst_congr {ι : Type} [DecidableEq ι] {key' : α → ι} (hkey : ∀ a b, key a = key b ↔ key' a = key' b)
    (seen : List α) (l : List α) : keepFirst key (seen.map key) l = keepFirst key' (seen.map key') l := by
  induction l generalizing seen with
  | nil => rfl
  | cons a l ih =>
    have hmem : key a ∈ seen.map key ↔ key' a ∈ seen.map key' := by
      simp only [List.mem_map]
      constructor
      · rintro ⟨b, hb, heq⟩
        exact ⟨b, hb, (hkey b a).1 heq⟩
      · rintro ⟨b, hb, heq⟩
        exact ⟨b, hb, (hkey b a).2 heq⟩
    unfold keepFirst
    by_cases h : key a ∈ seen.map key
    · rw [if_pos h, if_pos (hmem.1 h), ih]
    · rw [if_neg h, if_neg (mt hmem.2 h), ← List.map_cons, ← List.map_cons, ih]

end KeepFirst

/-! ## One insertion of the sort -/

section Insert
variable (cmp : α → α → Ordering)

/-- Before the first element it does not come after. -/
def insertWith (a : α) (l : List α) : List α := l.orderedInsert (fun a b => (cmp a b).isLE = true) a

theorem sortWith_cons (a : α) (l : List α) : sortWith cmp (a :: l) = insertWith cmp a (sortWith cmp l) := rfl

theorem insertWith_cons (a b : α) (l : List α) :
    insertWith cmp a (b :: l) = if (cmp a b).isLE = true then a :: b :: l else b :: insertWith cmp a l := rfl

@[simp] theorem mem_insertWith {a b : α} {l : List α} : b ∈ insertWith cmp a l ↔ b = a ∨ b ∈ l :=
  List.mem_orderedInsert _

/-- A relation that holds of a sorted list holds after an insertion if it holds between
the new element and what it goes before, and between what stays before it and it. -/
theorem insertWith_pairwise {R : α → α → Prop} {a : α} {l : List α} (hl : l.Pairwise R)
    (hbefore : ∀ b rest, (b :: rest) <:+ l → (cmp a b).isLE = true → ∀ c ∈ b :: rest, R a c)
    (hafter : ∀ b ∈ l, ¬ (cmp a b).isLE = true → R b a) : (insertWith cmp a l).Pairwise R := by
  induction l with
  | nil => exact List.pairwise_singleton R a
  | cons b l ih =>
    rw [List.pairwise_cons] at hl
    rw [insertWith_cons]
    by_cases hab : (cmp a b).isLE = true
    · rw [if_pos hab]
      exact List.Pairwise.cons (hbefore b l (List.suffix_refl _) hab) (List.Pairwise.cons hl.1 hl.2)
    · rw [if_neg hab]
      refine List.Pairwise.cons (fun c hc => ?_) (ih hl.2 ?_ ?_)
      · rcases (mem_insertWith cmp).1 hc with rfl | hc
        · exact hafter b List.mem_cons_self hab
        · exact hl.1 c hc
      · intro c rest hrest
        exact hbefore c rest (hrest.trans (List.suffix_cons b l))
      · intro c hc
        exact hafter c (List.mem_cons_of_mem _ hc)

end Insert

/-! ## Comparing by a key first -/

/-- The comparator decides by the key wherever that differs; its ties need not be transitive. -/
structure KeyFirst (cmp : α → α → Ordering) (key : α → κ) (keyCmp : κ → κ → Ordering) : Prop where
  by_key : ∀ a b, key a ≠ key b → cmp a b = keyCmp (key a) (key b)
  swap : ∀ a b, cmp a b = (cmp b a).swap
  trans : ∀ {a b c}, key a = key b → key b = key c → cmp a b = .lt → cmp b c = .lt → cmp a c = .lt

/-- Nothing of its key comes strictly before it. -/
def Unbeaten (cmp : α → α → Ordering) (key : α → κ) (l : List α) (a : α) : Prop :=
  ∀ b ∈ l, key b = key a → cmp b a ≠ .lt

/-- No key has two elements that nothing beats. -/
def NoTies (cmp : α → α → Ordering) (key : α → κ) (l : List α) : Prop :=
  ∀ a ∈ l, ∀ b ∈ l, key a = key b → Unbeaten cmp key l a → Unbeaten cmp key l b → a = b

/-- Sort, then keep the first of each key. -/
def canonical [DecidableEq κ] (cmp : α → α → Ordering) (key : α → κ) (l : List α) : List α :=
  keepFirst key [] (sortWith cmp l)

section KeyFirst
variable {cmp : α → α → Ordering} {key : α → κ} {keyCmp : κ → κ → Ordering}

theorem mem_of_mem_canonical [DecidableEq κ] {l : List α} {a : α} (h : a ∈ canonical cmp key l) : a ∈ l :=
  (mem_sortWith cmp).1 ((keepFirst_sublist _ _).subset h)

/-- Two elements of the result with one key are one element. -/
theorem canonical_inj [DecidableEq κ] {l : List α} {a b : α} (ha : a ∈ canonical cmp key l) (hb : b ∈ canonical cmp key l)
    (hkey : key a = key b) : a = b := by
  have hinj := List.inj_on_of_nodup_map (List.pairwise_map.2 (@keepFirst_pairwise_ne _ _ _ key [] (sortWith cmp l)))
  exact hinj ha hb hkey

theorem unbeaten_congr {l l' : List α} (h : ∀ a, a ∈ l ↔ a ∈ l') (a : α) :
    Unbeaten cmp key l a ↔ Unbeaten cmp key l' a :=
  forall_congr' fun b => by rw [h b]

theorem noTies_congr {l l' : List α} (h : ∀ a, a ∈ l ↔ a ∈ l') : NoTies cmp key l ↔ NoTies cmp key l' := by
  simp only [NoTies, h, unbeaten_congr h]

namespace KeyFirst
variable (h : KeyFirst cmp key keyCmp)
include h

theorem irrefl (a : α) : cmp a a ≠ .lt := by
  intro hlt
  have hswap := h.swap a a
  rw [hlt] at hswap
  cases hswap

theorem isLE_of_not_gt {a b : α} (hba : cmp b a ≠ .lt) : (cmp a b).isLE = true := by
  rw [h.swap a b]
  revert hba
  cases cmp b a <;> simp [Ordering.swap]

theorem isLE_of_not_isLE {a b : α} (hab : ¬ (cmp a b).isLE = true) : (cmp b a).isLE = true := by
  rw [h.swap b a]
  revert hab
  cases cmp a b <;> simp [Ordering.swap]

/-- Above every element of a list stands one that nothing beats. -/
theorem exists_unbeaten {l : List α} {a : α} (ha : a ∈ l) :
    ∃ u ∈ l, key u = key a ∧ Unbeaten cmp key l u ∧ (u = a ∨ cmp u a = .lt) := by
  -- the finitely many elements of the key, by the well-founded order of beating
  let Mate := {b : α // b ∈ l ∧ key b = key a}
  let beats (b c : Mate) : Prop := cmp b.1 c.1 = .lt
  have hfinite : Finite Mate := Set.Finite.to_subtype
    (Set.Finite.subset (List.finite_toSet l) fun b hb => hb.1)
  have htrans : IsTrans Mate beats :=
    ⟨fun b c d hbc hcd => h.trans (b.2.2.trans c.2.2.symm) (c.2.2.trans d.2.2.symm) hbc hcd⟩
  have hirrefl : Std.Irrefl beats := ⟨fun b => h.irrefl b.1⟩
  have hwf : WellFounded beats := Finite.wellFounded_of_trans_of_irrefl beats
  let above : Set Mate := {b | b.1 = a ∨ cmp b.1 a = .lt}
  obtain ⟨u, hu, hmin⟩ := hwf.has_min above ⟨⟨a, ha, rfl⟩, .inl rfl⟩
  refine ⟨u.1, u.2.1, u.2.2, ?_, hu⟩
  intro b hb hkey hlt
  have hba : cmp b a = .lt := by
    rcases hu with hu | hu
    · rwa [hu] at hlt
    · exact h.trans hkey u.2.2 hlt hu
  exact hmin ⟨b, hb, hkey.trans u.2.2⟩ (.inr hba) hlt

/-- Without ties, what nothing beats beats every other element of its key. -/
theorem beats_of_noTies {l : List α} (hties : NoTies cmp key l) {u a : α} (hu : u ∈ l)
    (hunbeaten : Unbeaten cmp key l u) (ha : a ∈ l) (hkey : key a = key u) : a = u ∨ cmp u a = .lt := by
  obtain ⟨v, hv, hvkey, hvunbeaten, hva⟩ := h.exists_unbeaten ha
  obtain rfl := hties v hv u hu (hvkey.trans hkey) hvunbeaten hunbeaten
  exact hva.imp Eq.symm id

variable [Std.TransCmp keyCmp] [Std.LawfulEqCmp keyCmp]

omit [Std.TransCmp keyCmp] in
theorem key_isLE {a b : α} (hab : (cmp a b).isLE = true) : (keyCmp (key a) (key b)).isLE = true := by
  by_cases hkey : key a = key b
  · rw [hkey]
    exact Std.ReflCmp.isLE_rfl
  · rwa [← h.by_key a b hkey]

/-- A sorted list is sorted by key, ties or not. -/
theorem sortWith_pairwise_key (l : List α) :
    (sortWith cmp l).Pairwise fun a b => (keyCmp (key a) (key b)).isLE = true := by
  induction l with
  | nil => exact List.Pairwise.nil
  | cons a l ih =>
    rw [sortWith_cons]
    refine insertWith_pairwise cmp ih ?_ ?_
    · intro b rest hrest hab c hc
      have hsorted := ih.sublist hrest.sublist
      rw [List.pairwise_cons] at hsorted
      rcases List.mem_cons.1 hc with rfl | hc
      · exact h.key_isLE hab
      · exact Std.TransCmp.isLE_trans (h.key_isLE hab) (hsorted.1 c hc)
    · intro b _ hab
      exact h.key_isLE (h.isLE_of_not_isLE hab)

/-- What goes before an element of its own key went before the first of that key. -/
theorem key_eq_of_isLE {a b c : α} {rest : List α}
    (hsorted : (b :: rest).Pairwise fun a b => (keyCmp (key a) (key b)).isLE = true)
    (hab : (cmp a b).isLE = true) (hc : c ∈ b :: rest) (hac : key a = key c) : key b = key c := by
  rw [List.pairwise_cons] at hsorted
  rcases List.mem_cons.1 hc with rfl | hc
  · rfl
  · have hcb : (keyCmp (key c) (key b)).isLE = true := hac ▸ h.key_isLE hab
    exact Std.LawfulEqCmp.compare_eq_iff_eq.1 (Std.OrientedCmp.isLE_antisymm (hsorted.1 c hc) hcb)

/-- Among its key, only itself is sorted before an element that beats every other. -/
theorem sortWith_pairwise_first {l : List α} {d : α}
    (hd : ∀ a ∈ l, key a = key d → a = d ∨ cmp d a = .lt) :
    (sortWith cmp l).Pairwise fun a b => key a = key b → b = d → a = b := by
  induction l with
  | nil => exact List.Pairwise.nil
  | cons a l ih =>
    specialize ih fun b hb => hd b (List.mem_cons_of_mem _ hb)
    rw [sortWith_cons]
    refine insertWith_pairwise cmp ih ?_ ?_
    · rintro b rest hrest hab c hc hac rfl
      have hkey := h.key_eq_of_isLE ((h.sortWith_pairwise_key l).sublist hrest.sublist) hab hc hac
      -- the first of the key is `c` itself, which `a` cannot go before
      have hbc : b = c := by
        have hfirst := ih.sublist hrest.sublist
        rw [List.pairwise_cons] at hfirst
        rcases List.mem_cons.1 hc with hc | hc
        · exact hc.symm
        · exact hfirst.1 c hc hkey rfl
      subst hbc
      rcases hd a List.mem_cons_self hac with rfl | hlt
      · rfl
      · rw [h.swap a b, hlt] at hab
        cases hab
    · rintro b hb hab hba rfl
      rcases hd b (List.mem_cons_of_mem _ ((mem_sortWith cmp).1 hb)) hba with rfl | hlt
      · rfl
      · exact absurd (by rw [hlt]; rfl) hab

variable [DecidableEq κ]

/-- The result is strictly sorted by key. -/
theorem canonical_pairwise (l : List α) :
    (canonical cmp key l).Pairwise fun a b => keyCmp (key a) (key b) = .lt := by
  have hle : (canonical cmp key l).Pairwise fun a b => (keyCmp (key a) (key b)).isLE = true :=
    (h.sortWith_pairwise_key l).sublist (keepFirst_sublist _ _)
  refine (hle.and (keepFirst_pairwise_ne [] _)).imp fun {a b} hab => ?_
  cases hcmp : keyCmp (key a) (key b) with
  | lt => rfl
  | eq => exact absurd (Std.LawfulEqCmp.compare_eq_iff_eq.1 hcmp) hab.2
  | gt =>
    have := hab.1
    rw [hcmp] at this
    cases this

/-- What beats every other element of its key is the one kept. -/
theorem mem_canonical_of_beats {l : List α} {d : α} (hmem : d ∈ l)
    (hd : ∀ a ∈ l, key a = key d → a = d ∨ cmp d a = .lt) : d ∈ canonical cmp key l := by
  have hfirst := h.sortWith_pairwise_first hd
  obtain ⟨before, after, heq⟩ := List.append_of_mem ((mem_sortWith cmp).2 hmem)
  unfold canonical
  rw [heq] at hfirst ⊢
  rw [List.pairwise_append] at hfirst
  exact mem_keepFirst List.not_mem_nil fun a ha hkey => hfirst.2.2 a ha d List.mem_cons_self hkey rfl

/-- Without ties the result holds what nothing beats. -/
theorem mem_canonical {l : List α} (hties : NoTies cmp key l) {a : α} :
    a ∈ canonical cmp key l ↔ a ∈ l ∧ Unbeaten cmp key l a := by
  constructor
  · intro ha
    have hmem := mem_of_mem_canonical ha
    obtain ⟨u, hu, hkey, hunbeaten, -⟩ := h.exists_unbeaten hmem
    have hkept : u ∈ canonical cmp key l :=
      h.mem_canonical_of_beats hu fun b hb hbu => h.beats_of_noTies hties hu hunbeaten hb hbu
    obtain rfl := canonical_inj hkept ha hkey
    exact ⟨hmem, hunbeaten⟩
  · rintro ⟨hmem, hunbeaten⟩
    exact h.mem_canonical_of_beats hmem fun b hb hba => h.beats_of_noTies hties hmem hunbeaten hb hba

/-- Without ties the result only depends on which elements there are. -/
theorem canonical_congr {l l' : List α} (hties : NoTies cmp key l) (hmem : ∀ a, a ∈ l ↔ a ∈ l') :
    canonical cmp key l = canonical cmp key l' := by
  have hiff : ∀ a, a ∈ canonical cmp key l ↔ a ∈ canonical cmp key l' := by
    intro a
    rw [h.mem_canonical hties, h.mem_canonical ((noTies_congr hmem).1 hties), hmem, unbeaten_congr hmem]
  have hnodup (l : List α) : (canonical cmp key l).Nodup :=
    (h.canonical_pairwise l).imp fun {a b} hlt heq => by
      subst heq
      have hself : keyCmp (key a) (key a) = .eq := Std.ReflCmp.compare_self
      rw [hself] at hlt
      cases hlt
  refine List.Perm.eq_of_pairwise (fun a b _ _ hab hba => ?_) (h.canonical_pairwise l) (h.canonical_pairwise l')
    ((List.perm_ext_iff_of_nodup (hnodup l) (hnodup l')).2 hiff)
  have hswap : keyCmp (key a) (key b) = (keyCmp (key b) (key a)).swap := Std.OrientedCmp.eq_swap
  rw [hswap, hba] at hab
  cases hab

omit [Std.TransCmp keyCmp] [Std.LawfulEqCmp keyCmp] in
/-- What nothing beats is kept if it comes first. -/
theorem mem_canonical_cons {l : List α} {a : α} (hunbeaten : Unbeaten cmp key l a) :
    a ∈ canonical cmp key (a :: l) := by
  unfold canonical
  rw [sortWith_cons, insertWith, List.orderedInsert_eq_take_drop]
  refine mem_keepFirst List.not_mem_nil fun b hb hkey => ?_
  have hbl : b ∈ l := (mem_sortWith cmp).1 ((List.takeWhile_sublist _).subset hb)
  have hstop := List.mem_takeWhile_imp hb
  rw [h.isLE_of_not_gt (hunbeaten b hbl hkey)] at hstop
  simp at hstop

end KeyFirst
end KeyFirst

end Hayven.Lib
