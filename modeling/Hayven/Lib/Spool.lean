import Mathlib.Data.List.Basic
/-!
# Buffers and pages

Rows that are written through a buffer of any size arrive as if they were written at once,
where one write after the other writes both lists: `drained_foldl_push`. Rows that are
numbered as they come are read back in that order by pages of any size: `flatten_pages`.
-/

namespace Hayven.Lib

/-! ## Buffers -/

/-- A sink, and what has not been written to it yet. -/
structure Buffered (σ α : Type) where
  sink : σ
  buffer : List α

namespace Buffered
variable {σ α : Type} (write : σ → List α → σ) (batch : Nat)

def flush (b : Buffered σ α) : Buffered σ α := if b.buffer = [] then b else ⟨write b.sink b.buffer, []⟩

/-- One more row; a buffer that is full is written. -/
def push (b : Buffered σ α) (a : α) : Buffered σ α :=
  if batch ≤ (b.buffer ++ [a]).length then flush write ⟨b.sink, b.buffer ++ [a]⟩ else ⟨b.sink, b.buffer ++ [a]⟩

/-- The sink with the rest of the buffer written. -/
def drained (b : Buffered σ α) : σ := write b.sink b.buffer

variable {write} (hnil : ∀ s, write s [] = s) (happend : ∀ s l l', write (write s l) l' = write s (l ++ l'))
include hnil

theorem drained_flush (b : Buffered σ α) : drained write (flush write b) = drained write b := by
  unfold flush drained
  split
  · rfl
  · exact hnil _

include happend

theorem drained_push (b : Buffered σ α) (a : α) : drained write (push write batch b a) = write (drained write b) [a] := by
  have hadd : drained write ⟨b.sink, b.buffer ++ [a]⟩ = write (drained write b) [a] := (happend _ _ _).symm
  unfold push
  split
  · rw [drained_flush hnil, hadd]
  · exact hadd

/-- Whatever the size of the buffer, all rows arrive, in order. -/
theorem drained_foldl_push (l : List α) (b : Buffered σ α) :
    drained write (l.foldl (push write batch) b) = write (drained write b) l := by
  induction l generalizing b with
  | nil => exact (hnil _).symm
  | cons a l ih => rw [List.foldl_cons, ih, drained_push batch hnil happend, happend, List.singleton_append]

end Buffered

/-! ## Pages -/

/-- Rows under numbers that grow as they are added. -/
structure Spool (α : Type) where
  rows : List (Nat × α)
  seq : Nat
  ordered : (rows.map Prod.fst).Pairwise (· < ·)
  bounded : ∀ row ∈ rows, 0 < row.1 ∧ row.1 ≤ seq

namespace Spool
variable {α : Type}

def empty : Spool α := ⟨[], 0, List.Pairwise.nil, by simp⟩

def append (s : Spool α) (a : α) : Spool α where
  rows := s.rows ++ [(s.seq + 1, a)]
  seq := s.seq + 1
  ordered := by
    rw [List.map_append, List.pairwise_append]
    refine ⟨s.ordered, List.pairwise_singleton _ _, ?_⟩
    intro k hk k' hk'
    obtain ⟨row, hrow, rfl⟩ := List.mem_map.1 hk
    rw [List.map_singleton, List.mem_singleton] at hk'
    have := (s.bounded row hrow).2
    omega
  bounded := by
    intro row hrow
    rcases List.mem_append.1 hrow with hrow | hrow
    · have := s.bounded row hrow
      omega
    · rw [List.mem_singleton] at hrow
      subst hrow
      exact ⟨Nat.succ_pos _, Nat.le_refl _⟩

def contents (s : Spool α) : List α := s.rows.map Prod.snd

theorem contents_append (s : Spool α) (a : α) : (s.append a).contents = s.contents ++ [a] := by
  rw [contents, append, List.map_append]
  rfl

/-- The first rows after a number among those that are asked for. -/
def page (size : Nat) (keep : α → Bool) (rows : List (Nat × α)) (after : Nat) : List (Nat × α) :=
  (rows.filter fun row => decide (after < row.1) && keep row.2).take (max 1 size)

/-- A page, then those after its last row, until there is none. -/
def pagesAfter (size : Nat) (keep : α → Bool) (rows : List (Nat × α)) (after : Nat) : List (List α) :=
  match _hlast : (page size keep rows after).getLast? with
  | none => []
  | some last => (page size keep rows after).map Prod.snd :: pagesAfter size keep rows last.1
termination_by (rows.filter fun row => decide (after < row.1)).length
decreasing_by
  obtain ⟨hmem, hkeep⟩ := List.mem_filter.1 (List.mem_of_mem_take (List.mem_of_getLast? _hlast))
  rw [Bool.and_eq_true, decide_eq_true_eq] at hkeep
  -- the rows after the last of the page are fewer: the last itself is gone
  have hsub : (rows.filter fun row => decide (last.1 < row.1)) =
      (rows.filter fun row => decide (after < row.1)).filter fun row => decide (last.1 < row.1) := by
    rw [List.filter_filter]
    refine List.filter_congr fun row _ => ?_
    by_cases h : last.1 < row.1
    · simp [h, Nat.lt_trans hkeep.1 h]
    · simp [h]
  rw [hsub]
  refine List.length_filter_lt_length_iff_exists.2 ⟨last, List.mem_filter.2 ⟨hmem, by simpa using hkeep.1⟩, ?_⟩
  simp

def pages (size : Nat) (keep : α → Bool) (s : Spool α) : List (List α) := pagesAfter size keep s.rows 0

/-- The rows after the last one of a page are those that the page leaves. -/
theorem filter_after_last {keep : α → Bool} {rows : List (Nat × α)} (hordered : (rows.map Prod.fst).Pairwise (· < ·))
    {after n : Nat} {last : Nat × α}
    (hlast : ((rows.filter fun row => decide (after < row.1) && keep row.2).take n).getLast? = some last) :
    (rows.filter fun row => decide (last.1 < row.1) && keep row.2) =
      (rows.filter fun row => decide (after < row.1) && keep row.2).drop n := by
  have hwanted : (rows.filter fun row => decide (after < row.1) && keep row.2).Pairwise (·.1 < ·.1) :=
    (List.pairwise_map.1 hordered).filter _
  have hafter : after < last.1 := by
    have hkeep := (List.mem_filter.1 (List.mem_of_mem_take (List.mem_of_getLast? hlast))).2
    rw [Bool.and_eq_true, decide_eq_true_eq] at hkeep
    exact hkeep.1
  have hsub : (rows.filter fun row => decide (last.1 < row.1) && keep row.2) =
      (rows.filter fun row => decide (after < row.1) && keep row.2).filter fun row => decide (last.1 < row.1) := by
    rw [List.filter_filter]
    refine List.filter_congr fun row _ => ?_
    by_cases h : last.1 < row.1
    · simp [h, Nat.lt_trans hafter h]
    · simp [h]
  rw [hsub]
  generalize (rows.filter fun row => decide (after < row.1) && keep row.2) = wanted at hlast hwanted
  obtain ⟨front, hfront⟩ := List.getLast?_eq_some_iff.1 hlast
  have hsplit := List.take_append_drop n wanted
  rw [← hsplit, List.pairwise_append] at hwanted
  obtain ⟨htaken, -, hacross⟩ := hwanted
  conv_lhs => rw [← hsplit]
  rw [List.filter_append, List.filter_eq_nil_iff.2, List.filter_eq_self.2, List.nil_append]
  · intro row hrow
    exact decide_eq_true (hacross last (List.mem_of_getLast? hlast) row hrow)
  · -- nothing on the page comes after its last row
    intro row hrow hlt
    rw [decide_eq_true_eq] at hlt
    rw [hfront] at hrow htaken
    rcases List.mem_append.1 hrow with hrow | hrow
    · have := (List.pairwise_append.1 htaken).2.2 row hrow last (List.mem_singleton_self _)
      omega
    · rw [List.mem_singleton] at hrow
      subst hrow
      exact Nat.lt_irrefl _ hlt

theorem flatten_pagesAfter (size : Nat) (keep : α → Bool) {rows : List (Nat × α)}
    (hordered : (rows.map Prod.fst).Pairwise (· < ·)) (after : Nat) :
    (pagesAfter size keep rows after).flatten =
      (rows.filter fun row => decide (after < row.1) && keep row.2).map Prod.snd := by
  fun_induction pagesAfter size keep rows after with
  | case1 after hlast =>
    have hnil : (rows.filter fun row => decide (after < row.1) && keep row.2) = [] := by
      rw [List.getLast?_eq_none_iff, page, List.take_eq_nil_iff] at hlast
      exact hlast.resolve_left (by omega)
    rw [hnil]
    rfl
  | case2 after last hlast ih =>
    rw [List.flatten_cons, ih, filter_after_last hordered hlast, page, ← List.map_append, List.take_append_drop]

/-- Pages of any size, put together, are the rows that are asked for. -/
theorem flatten_pages (size : Nat) (keep : α → Bool) (s : Spool α) :
    (s.pages size keep).flatten = s.contents.filter keep := by
  rw [pages, flatten_pagesAfter size keep s.ordered, contents, List.filter_map]
  congr 1
  refine List.filter_congr fun row hrow => ?_
  rw [decide_eq_true (s.bounded row hrow).1, Bool.true_and]
  rfl

end Spool

end Hayven.Lib
