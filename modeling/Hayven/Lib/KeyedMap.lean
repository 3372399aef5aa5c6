import Mathlib.Data.List.Nodup
import Mathlib.Data.List.Perm.Basic
/-!
# Maps and sets that remember insertion order

A `KeyedMap` is an association list with unique keys. Setting a present key
replaces its value in place; setting a new key appends, so iteration is in
insertion order. Two maps with the same lookups have the same entries up to
that order: `entries_perm`. A set is the list of its elements in the order they were first added.
-/

namespace Hayven.Lib

section Assoc
variable {κ α : Type} [DecidableEq κ]

/-- The value under a key of an association list. -/
def lookupKey (k : κ) : List (κ × α) → Option α
  | [] => none
  | (k', v) :: rest => if k' = k then some v else lookupKey k rest

/-- Replace the value under `k` in place, or append the pair. -/
def setKey (k : κ) (v : α) : List (κ × α) → List (κ × α)
  | [] => [(k, v)]
  | (k', v') :: rest => if k' = k then (k, v) :: rest else (k', v') :: setKey k v rest

theorem lookupKey_setKey (k k' : κ) (v : α) (l : List (κ × α)) :
    lookupKey k' (setKey k v l) = if k = k' then some v else lookupKey k' l := by
  induction l with
  | nil => rfl
  | cons p l ih =>
    obtain ⟨k₀, v₀⟩ := p
    by_cases h : k₀ = k
    · subst h; by_cases hk : k₀ = k' <;> simp [setKey, lookupKey, hk]
    · by_cases h' : k₀ = k'
      · subst h'; simp [setKey, lookupKey, h, Ne.symm h]
      · simp [setKey, lookupKey, h, h', ih]

theorem mem_keys_setKey (k k' : κ) (v : α) (l : List (κ × α)) :
    k' ∈ (setKey k v l).map Prod.fst ↔ k' = k ∨ k' ∈ l.map Prod.fst := by
  induction l with
  | nil => simp [setKey]
  | cons p l ih =>
    by_cases h : p.1 = k
    · simp [setKey, h]
    · simp only [setKey, h, if_false, List.map_cons, List.mem_cons, ih]
      tauto

theorem nodup_setKey (k : κ) (v : α) (l : List (κ × α)) (h : (l.map Prod.fst).Nodup) :
    ((setKey k v l).map Prod.fst).Nodup := by
  induction l with
  | nil => simp [setKey]
  | cons p l ih =>
    simp only [List.map_cons, List.nodup_cons] at h
    by_cases hp : p.1 = k
    · simp only [setKey, hp, if_true, List.map_cons, List.nodup_cons]
      exact ⟨hp ▸ h.1, h.2⟩
    · simp only [setKey, hp, if_false, List.map_cons, List.nodup_cons]
      refine ⟨fun hm => ?_, ih h.2⟩
      rcases (mem_keys_setKey k p.1 v l).1 hm with rfl | hm
      · exact hp rfl
      · exact h.1 hm

theorem lookupKey_eq_some {k : κ} {v : α} {l : List (κ × α)} (h : (l.map Prod.fst).Nodup) :
    lookupKey k l = some v ↔ (k, v) ∈ l := by
  induction l with
  | nil => simp [lookupKey]
  | cons p l ih =>
    obtain ⟨k₀, v₀⟩ := p
    simp only [List.map_cons, List.nodup_cons] at h
    by_cases hk : k₀ = k
    · subst hk
      have hn : (k₀, v) ∉ l := fun hm => h.1 (List.mem_map.2 ⟨_, hm, rfl⟩)
      simp only [lookupKey, if_true, Option.some.injEq, List.mem_cons, Prod.mk.injEq, true_and, hn, or_false]
      exact eq_comm
    · simp only [lookupKey, hk, if_false, ih h.2, List.mem_cons, Prod.mk.injEq, Ne.symm hk, false_and, false_or]

end Assoc

/-- An insertion-ordered map with unique keys. -/
structure KeyedMap (κ α : Type) where
  entries : List (κ × α)
  nodup : (entries.map Prod.fst).Nodup

namespace KeyedMap
variable {κ α : Type}

def empty : KeyedMap κ α := ⟨[], by simp⟩

def keys (m : KeyedMap κ α) : List κ := m.entries.map Prod.fst

def values (m : KeyedMap κ α) : List α := m.entries.map Prod.snd

variable [DecidableEq κ]

def get (m : KeyedMap κ α) (k : κ) : Option α := lookupKey k m.entries

def has (m : KeyedMap κ α) (k : κ) : Bool := (m.get k).isSome

def set (m : KeyedMap κ α) (k : κ) (v : α) : KeyedMap κ α :=
  ⟨setKey k v m.entries, nodup_setKey k v m.entries m.nodup⟩

@[simp] theorem get_empty (k : κ) : (empty : KeyedMap κ α).get k = none := rfl

theorem get_set (m : KeyedMap κ α) (k k' : κ) (v : α) :
    (m.set k v).get k' = if k = k' then some v else m.get k' :=
  lookupKey_setKey k k' v m.entries

@[simp] theorem get_set_self (m : KeyedMap κ α) (k : κ) (v : α) : (m.set k v).get k = some v := by
  simp [get_set]

theorem get_set_ne (m : KeyedMap κ α) {k k' : κ} (v : α) (h : k ≠ k') : (m.set k v).get k' = m.get k' := by
  simp [get_set, h]

theorem get_eq_some {m : KeyedMap κ α} {k : κ} {v : α} : m.get k = some v ↔ (k, v) ∈ m.entries :=
  lookupKey_eq_some m.nodup

theorem mem_values {m : KeyedMap κ α} {v : α} : v ∈ m.values ↔ ∃ k, m.get k = some v := by
  simp only [values, List.mem_map, get_eq_some]
  constructor
  · rintro ⟨⟨k, v⟩, hm, rfl⟩; exact ⟨k, hm⟩
  · rintro ⟨k, hm⟩; exact ⟨(k, v), hm, rfl⟩

theorem mem_keys {m : KeyedMap κ α} {k : κ} : k ∈ m.keys ↔ ∃ v, m.get k = some v := by
  simp only [keys, List.mem_map, get_eq_some]
  constructor
  · rintro ⟨⟨k, v⟩, hm, rfl⟩; exact ⟨v, hm⟩
  · rintro ⟨v, hm⟩; exact ⟨(k, v), hm, rfl⟩

/-- Maps that agree on every key hold the same entries, in some order. -/
theorem entries_perm {m m' : KeyedMap κ α} (h : ∀ k, m.get k = m'.get k) : m.entries.Perm m'.entries := by
  refine (List.perm_ext_iff_of_nodup (List.Nodup.of_map _ m.nodup) (List.Nodup.of_map _ m'.nodup)).2 ?_
  rintro ⟨k, v⟩
  rw [← get_eq_some, ← get_eq_some, h k]

theorem values_perm {m m' : KeyedMap κ α} (h : ∀ k, m.get k = m'.get k) : m.values.Perm m'.values :=
  (entries_perm h).map _

/-- The same keys with each value replaced. -/
def mapValues (f : α → α) (m : KeyedMap κ α) : KeyedMap κ α where
  entries := m.entries.map (fun p => (p.1, f p.2))
  nodup := by simpa [List.map_map, Function.comp_def] using m.nodup

theorem get_mapValues (f : α → α) (m : KeyedMap κ α) (k : κ) : (m.mapValues f).get k = (m.get k).map f := by
  obtain ⟨l, hl⟩ := m
  show lookupKey k (l.map _) = (lookupKey k l).map f
  clear hl
  induction l with
  | nil => rfl
  | cons p l ih =>
    by_cases hk : p.1 = k
    · simp [lookupKey, hk]
    · simpa [lookupKey, hk] using ih

/-! ### Deleting -/

/-- The entries that `p` keeps. -/
def filter (p : κ → α → Bool) (m : KeyedMap κ α) : KeyedMap κ α where
  entries := m.entries.filter fun e => p e.1 e.2
  nodup := m.nodup.sublist (List.filter_sublist.map _)

theorem get_filter (p : κ → α → Bool) (m : KeyedMap κ α) (k : κ) : (m.filter p).get k = (m.get k).filter (p k) := by
  refine Option.ext fun v => ?_
  rw [Option.filter_eq_some_iff, get_eq_some, get_eq_some]
  exact List.mem_filter

def erase (m : KeyedMap κ α) (k : κ) : KeyedMap κ α := m.filter fun k' _ => k' ≠ k

theorem get_erase (m : KeyedMap κ α) (k k' : κ) : (m.erase k).get k' = if k' = k then none else m.get k' := by
  rw [erase, get_filter]
  by_cases hk : k' = k
  · simp [hk]
  · cases m.get k' <;> simp [hk]

/-- The entries of a map are one entry and those of the map without it. -/
theorem entries_perm_erase {m : KeyedMap κ α} {k : κ} {v : α} (h : m.get k = some v) :
    m.entries.Perm ((k, v) :: (m.erase k).entries) := by
  have hnodup : ((k, v) :: (m.erase k).entries).Nodup := by
    refine List.nodup_cons.2 ⟨fun hm => ?_, List.Nodup.of_map _ (m.erase k).nodup⟩
    have hkeep := (List.mem_filter.1 hm).2
    simp at hkeep
  refine (List.perm_ext_iff_of_nodup (List.Nodup.of_map _ m.nodup) hnodup).2 ?_
  rintro ⟨k', v'⟩
  rw [List.mem_cons, ← get_eq_some, ← get_eq_some, get_erase]
  by_cases hk : k' = k
  · subst hk
    simp [h, eq_comm]
  · simp [hk]

/-! ### Merging -/

/-- Set every pair of `m'`, combining with the value already there. -/
def mergeWith (f : α → α → α) (m m' : KeyedMap κ α) : KeyedMap κ α :=
  m'.entries.foldl (fun m p => m.set p.1 (match m.get p.1 with
    | none => p.2
    | some v => f v p.2)) m

/-- The value two maps combine to under one key. -/
def combine (f : α → α → α) : Option α → Option α → Option α
  | none, y => y
  | some x, none => some x
  | some x, some y => some (f x y)

theorem get_mergeWith (f : α → α → α) (m m' : KeyedMap κ α) (k : κ) :
    (mergeWith f m m').get k = combine f (m.get k) (m'.get k) := by
  obtain ⟨l, hl⟩ := m'
  show (l.foldl _ m).get k = combine f (m.get k) (lookupKey k l)
  induction l generalizing m with
  | nil => cases h : m.get k <;> simp [lookupKey, combine, h]
  | cons p l ih =>
    simp only [List.map_cons, List.nodup_cons] at hl
    rw [List.foldl_cons, ih _ hl.2, get_set]
    by_cases hk : p.1 = k
    · subst hk
      have habsent : lookupKey p.1 l = none := by
        by_contra hne
        obtain ⟨v, hv⟩ := Option.ne_none_iff_exists'.1 hne
        exact hl.1 (List.mem_map.2 ⟨_, (lookupKey_eq_some hl.2).1 hv, rfl⟩)
      cases h : m.get p.1 <;> simp [lookupKey, combine, habsent]
    · obtain ⟨k', v⟩ := p
      simp only [lookupKey, hk, if_false]

/-- Setting a value for every member of a list: the last one of a key stands. -/
theorem get_foldl_set_by {β : Type} (key : β → κ) (val : β → α) (l : List β) (m : KeyedMap κ α) (k : κ) :
    (l.foldl (fun m b => m.set (key b) (val b)) m).get k =
      ((l.filter (key · = k)).getLast?.map val).or (m.get k) := by
  induction l generalizing m with
  | nil => rfl
  | cons b l ih =>
    rw [List.foldl_cons, ih, get_set]
    by_cases hk : key b = k
    · rw [if_pos hk, List.filter_cons_of_pos (by simpa using hk), List.getLast?_cons]
      cases (l.filter (key · = k)).getLast? <;> rfl
    · rw [if_neg hk, List.filter_cons_of_neg (by simpa using hk)]

/-- Setting every pair of `m'` on top of `m`. -/
theorem get_foldl_set (m m' : KeyedMap κ α) (k : κ) :
    (m'.entries.foldl (fun m p => m.set p.1 p.2) m).get k = (m'.get k).or (m.get k) := by
  have hset : m'.entries.foldl (fun m p => m.set p.1 p.2) m = mergeWith (fun _ v => v) m m' := by
    unfold mergeWith
    congr 1
    funext m p
    cases m.get p.1 <;> rfl
  rw [hset, get_mergeWith]
  cases m.get k <;> cases m'.get k <;> rfl

end KeyedMap

/-! ## Sets -/

section InsertionSet
variable {α : Type} [DecidableEq α]

def addNew (s : List α) (x : α) : List α := if x ∈ s then s else s ++ [x]

def addAll (s : List α) (xs : List α) : List α := xs.foldl addNew s

@[simp] theorem mem_addNew {s : List α} {x y : α} : y ∈ addNew s x ↔ y ∈ s ∨ y = x := by
  unfold addNew
  split
  · refine ⟨.inl, ?_⟩
    rintro (h | rfl) <;> assumption
  · simp

theorem nodup_addNew {s : List α} (h : s.Nodup) (x : α) : (addNew s x).Nodup := by
  unfold addNew
  split
  · exact h
  · rename_i hx
    rw [List.nodup_append]
    refine ⟨h, List.nodup_singleton x, ?_⟩
    rintro a ha b hb rfl
    rw [List.mem_singleton] at hb
    exact hx (hb ▸ ha)

@[simp] theorem mem_addAll {xs s : List α} {y : α} : y ∈ addAll s xs ↔ y ∈ s ∨ y ∈ xs := by
  induction xs generalizing s with
  | nil => simp [addAll]
  | cons x xs ih =>
    show y ∈ addAll (addNew s x) xs ↔ _
    rw [ih, mem_addNew, List.mem_cons, or_assoc]

theorem nodup_addAll {s : List α} (h : s.Nodup) (xs : List α) : (addAll s xs).Nodup := by
  induction xs generalizing s with
  | nil => exact h
  | cons x xs ih => exact ih (nodup_addNew h x)

/-- Some element of the smaller set is in the larger one. -/
def intersects (a b : List α) : Bool :=
  let (small, large) := if a.length ≤ b.length then (a, b) else (b, a)
  small.any fun x => x ∈ large

theorem intersects_iff {a b : List α} : intersects a b = true ↔ ∃ x ∈ a, x ∈ b := by
  unfold intersects
  by_cases h : a.length ≤ b.length
  · simp [h]
  · simp only [h, if_false, List.any_eq_true, decide_eq_true_eq]
    exact exists_congr fun x => and_comm

end InsertionSet

end Hayven.Lib
