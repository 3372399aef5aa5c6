import Hayven.Lib.KeyedMap
/-!
# Sole values

An index that keeps a key's value while it is the only one seen, and a mark once
there are two. What it holds under a key does not depend on the order in which the
values came: `sole_eq_one`.
-/

namespace Hayven.Lib

section Sole
variable {α : Type}

/-- What a key stands for: one value, or more than one. -/
inductive Sole (α : Type) where
  | one (a : α)
  | many
deriving DecidableEq

namespace Sole

def value : Sole α → Option α
  | one a => some a
  | many => none

variable [DecidableEq α]

/-- One more value under the key. -/
def note (seen : Option (Sole α)) (a : α) : Sole α :=
  match seen with
  | none => one a
  | some (one b) => if b = a then one b else many
  | some many => many

theorem note_one (a b : α) : note (some (one b)) a = if b = a then one b else many := rfl

theorem note_many (a : α) : note (some many) a = many := rfl

end Sole

variable [DecidableEq α]

/-- What the values of a list come to. -/
def sole (l : List α) : Option (Sole α) := l.foldl (fun seen a => some (Sole.note seen a)) none

theorem foldl_note_many (l : List α) :
    l.foldl (fun seen a => some (Sole.note seen a)) (some .many) = some .many := by
  induction l with
  | nil => rfl
  | cons a l ih => rw [List.foldl_cons, Sole.note_many, ih]

theorem foldl_note_one (l : List α) (b : α) :
    l.foldl (fun seen a => some (Sole.note seen a)) (some (.one b)) =
      if ∀ a ∈ l, a = b then some (.one b) else some .many := by
  induction l with
  | nil => simp
  | cons a l ih =>
    rw [List.foldl_cons, Sole.note_one]
    by_cases hab : b = a
    · subst hab
      rw [if_pos rfl, ih]
      simp
    · rw [if_neg hab, foldl_note_many, if_neg]
      intro hall
      exact hab (hall a List.mem_cons_self).symm

theorem sole_nil : sole ([] : List α) = none := rfl

theorem sole_cons (b : α) (l : List α) :
    sole (b :: l) = if ∀ a ∈ l, a = b then some (.one b) else some .many :=
  foldl_note_one l b

theorem sole_eq_one {l : List α} {a : α} : sole l = some (.one a) ↔ a ∈ l ∧ ∀ b ∈ l, b = a := by
  cases l with
  | nil => simp [sole_nil]
  | cons b l =>
    rw [sole_cons]
    by_cases hall : ∀ a ∈ l, a = b
    · rw [if_pos hall]
      constructor
      · rintro ⟨⟩
        exact ⟨List.mem_cons_self, List.forall_mem_cons.2 ⟨rfl, hall⟩⟩
      · rintro ⟨-, hsame⟩
        rw [hsame b List.mem_cons_self]
    · rw [if_neg hall]
      refine ⟨(by simp), ?_⟩
      rintro ⟨-, hsame⟩
      refine absurd (fun c hc => ?_) hall
      rw [hsame c (List.mem_cons_of_mem b hc), hsame b List.mem_cons_self]

/-- The only value of a list. -/
def soleValue (l : List α) : Option α := (sole l).bind Sole.value

theorem soleValue_eq_some {l : List α} {a : α} : soleValue l = some a ↔ a ∈ l ∧ ∀ b ∈ l, b = a := by
  rw [← sole_eq_one, soleValue]
  rcases sole l with _ | s
  · simp
  · cases s <;> simp [Sole.value]

/-- Lists with the same members have the same sole value. -/
theorem soleValue_congr {l l' : List α} (h : ∀ a, a ∈ l ↔ a ∈ l') : soleValue l = soleValue l' := by
  refine Option.ext fun a => ?_
  rw [soleValue_eq_some, soleValue_eq_some, h a]
  exact and_congr_right fun _ => forall_congr' fun b => by rw [h b]

end Sole

section Index
variable {κ α β : Type} [DecidableEq κ] [DecidableEq α]

/-- Index one more value under a key. -/
def noteAt (m : KeyedMap κ (Sole α)) (k : κ) (a : α) : KeyedMap κ (Sole α) := m.set k (Sole.note (m.get k) a)

theorem get_foldl_noteAt (key : β → κ) (val : β → α) (l : List β) (m : KeyedMap κ (Sole α)) (k : κ) :
    (l.foldl (fun m b => noteAt m (key b) (val b)) m).get k =
      ((l.filter (key · = k)).map val).foldl (fun seen a => some (Sole.note seen a)) (m.get k) := by
  induction l generalizing m with
  | nil => rfl
  | cons b l ih =>
    rw [List.foldl_cons, ih, noteAt, KeyedMap.get_set]
    by_cases hk : key b = k
    · rw [if_pos hk, List.filter_cons_of_pos (by simpa using hk), List.map_cons, List.foldl_cons, hk]
    · rw [if_neg hk, List.filter_cons_of_neg (by simpa using hk)]

theorem get_index (key : β → κ) (val : β → α) (l : List β) (k : κ) :
    (l.foldl (fun m b => noteAt m (key b) (val b)) KeyedMap.empty).get k = sole ((l.filter (key · = k)).map val) :=
  get_foldl_noteAt key val l KeyedMap.empty k

end Index

end Hayven.Lib
