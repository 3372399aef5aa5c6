import Mathlib.Data.List.Basic
/-!
# Segments and what is written below them

A path is a list of segments that do not hold the separator. `below` writes a
tail under some segments; two such texts agree only if one tail spells the
segments that the other one has more: `below_eq_below`.
-/

namespace Hayven.Lib

section Segments
variable {α : Type} {sep : α}

/-- `tail`, written under the segments of a path. -/
def below (sep : α) : List (List α) → List α → List α
  | [], tail => tail
  | seg :: segs, tail => seg ++ sep :: below sep segs tail

@[simp] theorem below_nil (tail : List α) : below sep [] tail = tail := rfl

@[simp] theorem below_cons (seg : List α) (segs : List (List α)) (tail : List α) :
    below sep (seg :: segs) tail = seg ++ sep :: below sep segs tail := rfl

theorem below_append (segs rest : List (List α)) (tail : List α) :
    below sep (segs ++ rest) tail = below sep segs (below sep rest tail) := by
  induction segs with
  | nil => rfl
  | cons seg segs ih => simp [ih]

theorem below_eq_intercalate (segs : List (List α)) (tail : List α) :
    below sep segs tail = [sep].intercalate (segs ++ [tail]) := by
  induction segs with
  | nil => simp
  | cons seg segs ih => rw [List.cons_append, List.intercalate_cons_of_ne_nil (by simp), below_cons, ih]; simp

theorem below_of_ne_nil {segs : List (List α)} (h : segs ≠ []) (tail : List α) :
    below sep segs tail = [sep].intercalate segs ++ sep :: tail := by
  induction segs with
  | nil => exact absurd rfl h
  | cons seg segs ih =>
    cases segs with
    | nil => simp
    | cons s ss => rw [below_cons, ih (by simp), List.intercalate_cons_cons]; simp

/-- What stands before the first separator, and what after it, is read off a text. -/
theorem cut_at_sep {a b r s : List α} (ha : sep ∉ a) (hb : sep ∉ b) (h : a ++ sep :: r = b ++ sep :: s) :
    a = b ∧ r = s := by
  induction a generalizing b with
  | nil =>
    cases b with
    | nil => exact ⟨rfl, (List.cons.inj h).2⟩
    | cons y b => exact absurd ((List.cons.inj h).1 ▸ List.mem_cons_self) hb
  | cons x a ih =>
    cases b with
    | nil => exact absurd ((List.cons.inj h).1.symm ▸ List.mem_cons_self) ha
    | cons y b =>
      obtain ⟨hxy, hrest⟩ := List.cons.inj h
      obtain ⟨hab, hrs⟩ := ih (fun hm => ha (List.mem_cons_of_mem x hm)) (fun hm => hb (List.mem_cons_of_mem y hm)) hrest
      exact ⟨by rw [hxy, hab], hrs⟩

/-- So is what stands before the last one, and what after it. -/
theorem cut_at_last_sep {a b r s : List α} (hr : sep ∉ r) (hs : sep ∉ s) (h : a ++ sep :: r = b ++ sep :: s) :
    a = b ∧ r = s := by
  have hrev : r.reverse ++ sep :: a.reverse = s.reverse ++ sep :: b.reverse := by
    simpa using congrArg List.reverse h
  obtain ⟨hrs, hab⟩ := cut_at_sep (by rwa [List.mem_reverse]) (by rwa [List.mem_reverse]) hrev
  exact ⟨List.reverse_inj.1 hab, List.reverse_inj.1 hrs⟩

/-- Two texts below two paths agree exactly if one path goes on where the other
ends, and the tail of the shorter one spells the way. -/
theorem below_eq_below {a b : List (List α)} (ha : ∀ seg ∈ a, sep ∉ seg) (hb : ∀ seg ∈ b, sep ∉ seg)
    (s t : List α) :
    below sep a s = below sep b t ↔
      ∃ rest, (b = a ++ rest ∧ s = below sep rest t) ∨ (a = b ++ rest ∧ t = below sep rest s) := by
  constructor
  · intro h
    induction a generalizing b with
    | nil => exact ⟨b, .inl ⟨rfl, h⟩⟩
    | cons x a ih =>
      cases b with
      | nil => exact ⟨x :: a, .inr ⟨rfl, h.symm⟩⟩
      | cons y b =>
        obtain ⟨rfl, hrest⟩ := cut_at_sep (ha x List.mem_cons_self) (hb y List.mem_cons_self) h
        obtain ⟨rest, hrest⟩ := ih (fun seg hm => ha seg (List.mem_cons_of_mem _ hm))
          (fun seg hm => hb seg (List.mem_cons_of_mem _ hm)) hrest
        refine ⟨rest, hrest.imp ?_ ?_⟩
        · rintro ⟨rfl, hs⟩
          exact ⟨rfl, hs⟩
        · rintro ⟨rfl, ht⟩
          exact ⟨rfl, ht⟩
  · rintro ⟨rest, ⟨rfl, rfl⟩ | ⟨rfl, rfl⟩⟩
    · rw [below_append]
    · rw [below_append]

section FirstSegment
variable [DecidableEq α]

/-- What stands before the first separator. -/
def firstSegment (sep : α) (text : List α) : List α := text.takeWhile (· ≠ sep)

theorem firstSegment_append {seg : List α} (h : sep ∉ seg) (rest : List α) :
    firstSegment sep (seg ++ rest) = seg ++ firstSegment sep rest := by
  refine List.takeWhile_append_of_pos fun a ha => ?_
  have hne : a ≠ sep := by
    rintro rfl
    exact h ha
  simpa using hne

theorem firstSegment_of_not_mem {seg : List α} (h : sep ∉ seg) : firstSegment sep seg = seg := by
  simpa [firstSegment] using firstSegment_append h []

theorem firstSegment_below {seg : List α} (h : sep ∉ seg) (segs : List (List α)) (tail : List α) :
    firstSegment sep (below sep (seg :: segs) tail) = seg := by
  rw [below_cons, firstSegment_append h]
  simp [firstSegment]

end FirstSegment

end Segments

/-! ## Text before and after a mark -/

section Marks
variable {α : Type} [DecidableEq α]

/-- The position of the last `u`: `lastIndexOf`, or `none` for its -1. -/
def lastIndexOf (u : α) (s : List α) : Option Nat :=
  (s.reverse.findIdx? (· = u)).map fun i => s.length - 1 - i

theorem lastIndexOf_append (u : α) (a b : List α) :
    lastIndexOf u (a ++ b) = ((lastIndexOf u b).map (a.length + ·)).or (lastIndexOf u a) := by
  unfold lastIndexOf
  rw [List.reverse_append, List.findIdx?_append]
  cases hb : b.reverse.findIdx? (· = u) with
  | none =>
    cases ha : a.reverse.findIdx? (· = u) with
    | none => simp
    | some i =>
      have hi := (List.findIdx?_eq_some_iff_getElem.1 ha).1
      rw [List.length_reverse] at hi
      simp only [Option.map_some, Option.map_none, Option.none_or, Option.some.injEq, List.length_append,
        List.length_reverse]
      omega
  | some i =>
    have hi := (List.findIdx?_eq_some_iff_getElem.1 hb).1
    rw [List.length_reverse] at hi
    simp only [Option.map_some, Option.some_or, Option.some.injEq, List.length_append]
    omega

theorem lastIndexOf_lt {u : α} {s : List α} {i : Nat} (h : lastIndexOf u s = some i) : i < s.length := by
  unfold lastIndexOf at h
  obtain ⟨j, hj, rfl⟩ := Option.map_eq_some_iff.1 h
  have hlt := (List.findIdx?_eq_some_iff_getElem.1 hj).1
  rw [List.length_reverse] at hlt
  omega

theorem lastIndexOf_of_not_mem {u : α} {s : List α} (h : u ∉ s) : lastIndexOf u s = none := by
  unfold lastIndexOf
  rw [Option.map_eq_none_iff, List.findIdx?_eq_none_iff]
  intro x hx
  exact decide_eq_false fun hxu => h (hxu ▸ List.mem_reverse.1 hx)

theorem drop_lastIndexOf {u : α} {s : List α} {i : Nat} (h : lastIndexOf u s = some i) :
    s.drop i = u :: s.drop (i + 1) := by
  unfold lastIndexOf at h
  obtain ⟨j, hj, rfl⟩ := Option.map_eq_some_iff.1 h
  obtain ⟨hlt, hu, -⟩ := List.findIdx?_eq_some_iff_getElem.1 hj
  rw [List.length_reverse] at hlt
  rw [List.getElem_reverse, decide_eq_true_eq] at hu
  rw [← hu, List.getElem_cons_drop]

theorem lastIndexOf_append_cons {u : α} (b : List α) {e : List α} (h : u ∉ e) :
    lastIndexOf u (b ++ u :: e) = some b.length := by
  have hhead : lastIndexOf u (u :: e) = some 0 := by
    have hone : lastIndexOf u ([u] : List α) = some 0 := by simp [lastIndexOf]
    rw [← List.singleton_append, lastIndexOf_append, lastIndexOf_of_not_mem h, hone]
    rfl
  rw [lastIndexOf_append, hhead]
  rfl

omit [DecidableEq α] in
theorem exists_last_mark {u : α} {s : List α} (h : u ∈ s) : ∃ b e, s = b ++ u :: e ∧ u ∉ e := by
  obtain ⟨e, b, hrev, he⟩ := List.eq_append_cons_of_mem (List.mem_reverse.2 h)
  refine ⟨b.reverse, e.reverse, ?_, fun hm => he (List.mem_reverse.1 hm)⟩
  rw [← List.reverse_reverse s, hrev]
  simp

/-- `s` without a leading `p`. -/
def stripPrefix (p s : List α) : List α := if p.isPrefixOf s then s.drop p.length else s

theorem stripPrefix_append (p s : List α) : stripPrefix p (p ++ s) = s := by
  simp [stripPrefix]

theorem stripPrefix_of_not {p s : List α} (h : p.isPrefixOf s = false) : stripPrefix p s = s := by
  simp [stripPrefix, h]

theorem append_of_isPrefixOf {p s : List α} (h : p.isPrefixOf s = true) : p ++ stripPrefix p s = s := by
  obtain ⟨t, rfl⟩ := List.isPrefixOf_iff_prefix.1 h
  rw [stripPrefix_append]

/-- `s` without the elements of `blank` at its ends. -/
def trimBy (blank : α → Bool) (s : List α) : List α :=
  ((s.dropWhile blank).reverse.dropWhile blank).reverse

omit [DecidableEq α] in
theorem mem_of_mem_trimBy {blank : α → Bool} {s : List α} {a : α} (h : a ∈ trimBy blank s) : a ∈ s := by
  have hdrop : ∀ {l : List α}, a ∈ l.dropWhile blank → a ∈ l := fun hm => (List.dropWhile_suffix blank).subset hm
  exact hdrop (List.mem_reverse.1 (hdrop (List.mem_reverse.1 h)))

end Marks

end Hayven.Lib
