import Mathlib.Data.List.Perm.Basic
import Mathlib.Data.List.Nodup
/-!
# Ends of a rearranged list

A table that keeps the last element of each kind, or the first, depends on the order
its elements come in. What two such tables can hold at once over all orders has a
description that names no order: `lastTogether_iff`, `firstAndLast_iff`.
-/

namespace Hayven.Lib

section Arrangements
variable {α : Type}

/-- What can be at an end of the elements of a kind: one of them, or nothing if there is none. -/
def IsEnd (l : List α) (p : α → Bool) : Option α → Prop
  | some a => a ∈ l ∧ p a = true
  | none => ∀ a ∈ l, p a = false

/-- Two elements can be the last of two kinds at once, unless both are of both kinds. -/
def LastTogether (l : List α) (p q : α → Bool) (x y : Option α) : Prop :=
  IsEnd l p x ∧ IsEnd l q y ∧ ∀ a ∈ x, ∀ b ∈ y, q a = true → p b = true → a = b

/-- One element is the first of a kind and the last of another at once only if it alone is of both kinds. -/
def FirstAndLast (l : List α) (p q : α → Bool) (x y : Option α) : Prop :=
  IsEnd l p x ∧ IsEnd l q y ∧ ∀ a ∈ x, a ∈ y → ∀ b ∈ l, p b = true → q b = true → b = a

variable {l l' : List α} {p q : α → Bool} {x y : Option α}

theorem isEnd_perm (h : l'.Perm l) : IsEnd l' p x ↔ IsEnd l p x := by
  cases x with
  | none => exact forall_congr' fun a => by rw [h.mem_iff]
  | some a => exact and_congr_left fun _ => h.mem_iff

theorem isEnd_getLast? (l : List α) (p : α → Bool) : IsEnd l p (l.filter p).getLast? := by
  cases h : (l.filter p).getLast? with
  | none => simpa [IsEnd] using h
  | some a => exact List.mem_filter.1 (List.mem_of_getLast? h)

theorem isEnd_head? (l : List α) (p : α → Bool) : IsEnd l p (l.filter p).head? := by
  cases h : (l.filter p).head? with
  | none => simpa [IsEnd] using h
  | some a => exact List.mem_filter.1 (List.mem_of_head? h)

theorem filter_eq_nil_of_isEnd (h : IsEnd l p none) : l.filter p = [] := by
  rw [List.filter_eq_nil_iff]
  intro a ha
  simp [h a ha]

theorem getLast?_filter_concat {a : α} (h : p a = true) (l : List α) : ((l ++ [a]).filter p).getLast? = some a := by
  simp [h]

theorem head?_filter_cons {a : α} (h : p a = true) (l : List α) : ((a :: l).filter p).head? = some a := by
  simp [h]

theorem exists_perm_concat {a : α} (h : a ∈ l) : ∃ rest : List α, (rest ++ [a]).Perm l := by
  obtain ⟨s, t, rfl⟩ := List.append_of_mem h
  refine ⟨s ++ t, ?_⟩
  rw [List.append_assoc]
  exact List.Perm.append_left s List.perm_append_comm

theorem exists_perm_cons {a : α} (h : a ∈ l) : ∃ rest : List α, (a :: rest).Perm l := by
  obtain ⟨s, t, rfl⟩ := List.append_of_mem h
  exact ⟨s ++ t, List.perm_middle.symm⟩

/-- Every end is the end of some order. -/
theorem exists_getLast? (h : IsEnd l p x) : ∃ l' : List α, l'.Perm l ∧ (l'.filter p).getLast? = x := by
  cases x with
  | none => exact ⟨l, .refl l, by rw [filter_eq_nil_of_isEnd h, List.getLast?_nil]⟩
  | some a =>
    obtain ⟨rest, hperm⟩ := exists_perm_concat h.1
    exact ⟨_, hperm, getLast?_filter_concat h.2 rest⟩

theorem exists_head? (h : IsEnd l p x) : ∃ l' : List α, l'.Perm l ∧ (l'.filter p).head? = x := by
  cases x with
  | none => exact ⟨l, .refl l, by rw [filter_eq_nil_of_isEnd h, List.head?_nil]⟩
  | some a =>
    obtain ⟨rest, hperm⟩ := exists_perm_cons h.1
    exact ⟨_, hperm, head?_filter_cons h.2 rest⟩

/-! ## The last of two kinds -/

/-- Of two last elements, one that is of the other's kind too comes last of all. -/
theorem exists_last_two {a b : α} (ha : a ∈ l ∧ p a = true) (hb : b ∈ l ∧ q b = true) (hne : a ≠ b)
    (hpb : p b = false) : ∃ l' : List α, l'.Perm l ∧ (l'.filter p).getLast? = some a ∧ (l'.filter q).getLast? = some b := by
  obtain ⟨rest, hrest⟩ := exists_perm_concat hb.1
  have hmem : a ∈ rest := by
    have := hrest.mem_iff.2 ha.1
    rw [List.mem_append, List.mem_singleton] at this
    exact this.resolve_right hne
  obtain ⟨rest', hrest'⟩ := exists_perm_concat hmem
  refine ⟨rest' ++ [a] ++ [b], (hrest'.append_right [b]).trans hrest, ?_, getLast?_filter_concat hb.2 _⟩
  rw [List.filter_append, List.filter_singleton, hpb]
  exact (congrArg List.getLast? (List.append_nil _)).trans (getLast?_filter_concat ha.2 rest')

theorem lastTogether_iff :
    LastTogether l p q x y ↔ ∃ l' : List α, l'.Perm l ∧ (l'.filter p).getLast? = x ∧ (l'.filter q).getLast? = y := by
  constructor
  · rintro ⟨hx, hy, hboth⟩
    cases x with
    | none =>
      obtain ⟨l', hperm, hlast⟩ := exists_getLast? hy
      have hnil := filter_eq_nil_of_isEnd ((isEnd_perm hperm).2 hx)
      exact ⟨l', hperm, by rw [hnil, List.getLast?_nil], hlast⟩
    | some a =>
      cases y with
      | none =>
        obtain ⟨l', hperm, hlast⟩ := exists_getLast? hx
        have hnil := filter_eq_nil_of_isEnd ((isEnd_perm hperm).2 hy)
        exact ⟨l', hperm, hlast, by rw [hnil, List.getLast?_nil]⟩
      | some b =>
        by_cases heq : a = b
        · subst heq
          obtain ⟨rest, hperm⟩ := exists_perm_concat hx.1
          exact ⟨_, hperm, getLast?_filter_concat hx.2 rest, getLast?_filter_concat hy.2 rest⟩
        · cases hpb : p b with
          | false => exact exists_last_two hx hy heq hpb
          | true =>
            have hqa : q a = false := by
              cases hqa : q a with
              | false => rfl
              | true => exact absurd (hboth a rfl b rfl hqa hpb) heq
            obtain ⟨l', hperm, hb, ha⟩ := exists_last_two hy hx (Ne.symm heq) hqa
            exact ⟨l', hperm, ha, hb⟩
  · rintro ⟨l', hperm, rfl, rfl⟩
    refine ⟨(isEnd_perm hperm).1 (isEnd_getLast? l' p), (isEnd_perm hperm).1 (isEnd_getLast? l' q), ?_⟩
    intro a ha b hb hqa hpb
    -- both are the last of the elements that are of both kinds
    have hlast : ∀ {p q : α → Bool} {a : α}, (l'.filter p).getLast? = some a → q a = true →
        ((l'.filter p).filter q).getLast? = some a := by
      intro p q a ha hqa
      obtain ⟨rest, hrest⟩ := List.getLast?_eq_some_iff.1 ha
      rw [hrest]
      exact getLast?_filter_concat hqa rest
    have haa := hlast ha hqa
    have hbb := hlast hb hpb
    rw [List.filter_filter] at haa hbb
    rw [show (fun a => q a && p a) = fun a => p a && q a from funext fun a => Bool.and_comm _ _, hbb] at haa
    exact (Option.some.inj haa).symm

/-! ## The first of one kind and the last of another -/

/-- The elements of the second kind alone, then those of both, then the rest. -/
def byKinds (l : List α) (p q : α → Bool) : List α :=
  l.filter (fun a => q a && !p a) ++ (l.filter (fun a => q a && p a) ++ l.filter (fun a => !q a))

theorem perm_by_kinds (l : List α) (p q : α → Bool) : (byKinds l p q).Perm l := by
  have hp := List.filter_append_perm p (l.filter q)
  rw [List.filter_filter, List.filter_filter] at hp
  simp only [Bool.and_comm (p _), Bool.and_comm (!p _)] at hp
  rw [byKinds, ← List.append_assoc]
  exact ((List.perm_append_comm.trans hp).append_right _).trans (List.filter_append_perm q l)

/-- If one element alone is of both kinds, it is where the two kinds meet. -/
theorem ends_by_kinds {a : α} (hp : a ∈ l ∧ p a = true) (hq : q a = true)
    (hsame : ∀ b ∈ l, p b = true → q b = true → b = a) :
    ((byKinds l p q).filter p).head? = some a ∧ ((byKinds l p q).filter q).getLast? = some a := by
  have hboth : ∀ b ∈ l.filter (fun a => q a && p a), b = a := by
    intro b hb
    rw [List.mem_filter, Bool.and_eq_true] at hb
    exact hsame b hb.1 hb.2.2 hb.2.1
  have hmem : a ∈ l.filter (fun a => q a && p a) := by simp [hp.1, hp.2, hq]
  constructor
  · have hnone : (l.filter fun a => q a && !p a).filter p = [] := by
      simp +contextual [List.filter_eq_nil_iff]
    have hall : (l.filter fun a => q a && p a).filter p = l.filter fun a => q a && p a := by
      refine List.filter_eq_self.2 fun b hb => ?_
      rw [List.mem_filter, Bool.and_eq_true] at hb
      exact hb.2.2
    rw [byKinds, List.filter_append, List.filter_append, hnone, hall, List.nil_append]
    cases hmid : l.filter (fun a => q a && p a) with
    | nil => exact absurd hmem (hmid ▸ List.not_mem_nil)
    | cons b rest =>
      rw [hboth b (hmid ▸ List.mem_cons_self)]
      rfl
  · have hnone : (l.filter fun a => !q a).filter q = [] := by
      simp +contextual
    have hall : (l.filter fun a => q a && p a).filter q = l.filter fun a => q a && p a := by
      simp +contextual
    rw [byKinds, List.filter_append, List.filter_append, hnone, hall, List.append_nil, List.getLast?_append]
    cases hlast : (l.filter fun a => q a && p a).getLast? with
    | none => exact absurd hmem ((List.getLast?_eq_none_iff.1 hlast) ▸ List.not_mem_nil)
    | some b =>
      rw [hboth b (List.mem_of_getLast? hlast)]
      rfl

theorem firstAndLast_iff (hnodup : l.Nodup) :
    FirstAndLast l p q x y ↔ ∃ l' : List α, l'.Perm l ∧ (l'.filter p).head? = x ∧ (l'.filter q).getLast? = y := by
  constructor
  · rintro ⟨hx, hy, hboth⟩
    cases x with
    | none =>
      obtain ⟨l', hperm, hlast⟩ := exists_getLast? hy
      have hnil := filter_eq_nil_of_isEnd ((isEnd_perm hperm).2 hx)
      exact ⟨l', hperm, by rw [hnil, List.head?_nil], hlast⟩
    | some a =>
      cases y with
      | none =>
        obtain ⟨l', hperm, hhead⟩ := exists_head? hx
        have hnil := filter_eq_nil_of_isEnd ((isEnd_perm hperm).2 hy)
        exact ⟨l', hperm, hhead, by rw [hnil, List.getLast?_nil]⟩
      | some b =>
        by_cases heq : a = b
        · subst heq
          exact ⟨_, perm_by_kinds l p q, ends_by_kinds hx hy.2 (hboth a rfl rfl)⟩
        · obtain ⟨rest, hrest⟩ := exists_perm_cons hx.1
          have hmem : b ∈ rest := by
            have := hrest.mem_iff.2 hy.1
            rw [List.mem_cons] at this
            exact this.resolve_left (Ne.symm heq)
          obtain ⟨rest', hrest'⟩ := exists_perm_concat hmem
          exact ⟨a :: (rest' ++ [b]), (hrest'.cons a).trans hrest, head?_filter_cons hx.2 _,
            getLast?_filter_concat hy.2 (a :: rest')⟩
  · rintro ⟨l', hperm, rfl, rfl⟩
    refine ⟨(isEnd_perm hperm).1 (isEnd_head? l' p), (isEnd_perm hperm).1 (isEnd_getLast? l' q), ?_⟩
    intro a ha hlast b hb hpb hqb
    -- nothing comes before the first of its kind, and nothing after the last
    obtain ⟨s, t, hl'⟩ := List.append_of_mem (hperm.mem_iff.2 hb)
    have hnodup' : l'.Nodup := hperm.nodup_iff.2 hnodup
    by_contra hne
    have hafter : a ∈ t := by
      rw [hl', List.filter_append, List.filter_cons_of_pos hqb, List.getLast?_append] at hlast
      have hmem : a ∈ b :: t.filter q := by
        cases h : (b :: t.filter q).getLast? with
        | none => simp at h
        | some c =>
          rw [h] at hlast
          have hc : c = a := by simpa using hlast
          exact hc ▸ List.mem_of_getLast? h
      rcases List.mem_cons.1 hmem with rfl | hmem
      · exact absurd rfl hne
      · exact (List.mem_filter.1 hmem).1
    have hbefore : a ∈ s := by
      rw [hl', List.filter_append, List.filter_cons_of_pos hpb] at ha
      cases hs : s.filter p with
      | nil =>
        rw [hs] at ha
        exact absurd (Option.some.inj ha) hne
      | cons c rest =>
        rw [hs] at ha
        have hc : c = a := Option.some.inj ha
        have hmem : c ∈ s.filter p := hs ▸ List.mem_cons_self
        exact hc ▸ (List.mem_filter.1 hmem).1
    rw [hl'] at hnodup'
    exact (List.nodup_append.1 hnodup').2.2 a hbefore a (List.mem_cons_of_mem b hafter) rfl

end Arrangements

end Hayven.Lib
