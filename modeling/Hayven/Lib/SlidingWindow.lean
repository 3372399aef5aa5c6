import Mathlib.Algebra.Order.Group.Defs
import Mathlib.Algebra.Order.Sub.Basic
import Mathlib.Data.List.Pairwise
import Mathlib.Data.List.TakeWhile
import Mathlib.Tactic.Common
/-!
# Rate limits over any window

The times of admitted events, oldest first, and the list of recent ones that a limiter
keeps: an event is admitted when the recent list has room. Then no window of the width,
wherever it starts, holds more than the limit.
-/

namespace Hayven.Lib

variable {τ : Type} [AddCommGroup τ] [LinearOrder τ] [IsOrderedAddMonoid τ]
  {most : Nat} {gap width now now' last : τ} {times times' recent : List τ}

/-- The times are in order and at least the gap apart. -/
def Spaced (gap : τ) (times : List τ) : Prop := times.Pairwise fun s t => s ≤ t ∧ gap ≤ t - s

/-- The times within the closed window of the width that starts at `a`. -/
def within (width a : τ) (times : List τ) : List τ := times.filter fun t => decide (a ≤ t ∧ t ≤ a + width)

/-- No window of the width holds more than `most` of the times. -/
def Sparse (most : Nat) (width : τ) (times : List τ) : Prop := ∀ a, (within width a times).length ≤ most

/-- The recent list is the times but for some that left the window. -/
def Recent (width now : τ) (times recent : List τ) : Prop :=
  ∃ old, times = old ++ recent ∧ ∀ s ∈ old, width < now - s

/-! ## Spacing -/

omit [IsOrderedAddMonoid τ] in
theorem spaced_nil : Spaced gap ([] : List τ) := .nil

omit [IsOrderedAddMonoid τ] in
theorem Spaced.sublist (h : Spaced gap times) (hsub : times'.Sublist times) : Spaced gap times' :=
  List.Pairwise.sublist hsub h

omit [IsOrderedAddMonoid τ] in
theorem Spaced.le_last (h : Spaced gap times) (hlast : times.getLast? = some last) {s : τ} (hs : s ∈ times) :
    s ≤ last := by
  obtain ⟨init, rfl⟩ := List.getLast?_eq_some_iff.1 hlast
  rcases List.mem_append.1 hs with hs | hs
  · exact ((List.pairwise_append.1 h).2.2 s hs last (List.mem_singleton_self _)).1
  · exact (List.mem_singleton.1 hs).le

theorem Spaced.snoc (h : Spaced gap times)
    (hlast : ∀ last, times.getLast? = some last → last ≤ now ∧ gap ≤ now - last) : Spaced gap (times ++ [now]) := by
  refine List.pairwise_append.2 ⟨h, List.pairwise_singleton _ _, ?_⟩
  intro s hs t ht
  obtain rfl := List.mem_singleton.1 ht
  obtain ⟨last, heq⟩ : ∃ last, times.getLast? = some last :=
    Option.ne_none_iff_exists'.1 fun hnone => List.ne_nil_of_mem hs (List.getLast?_eq_none_iff.1 hnone)
  obtain ⟨hle, hgap⟩ := hlast last heq
  have hs' := h.le_last heq hs
  exact ⟨hs'.trans hle, hgap.trans (sub_le_sub_left hs' t)⟩

/-! ## Windows -/

omit [IsOrderedAddMonoid τ] in
theorem sparse_nil : Sparse most width ([] : List τ) := fun _ => Nat.zero_le _

omit [IsOrderedAddMonoid τ] in
theorem Sparse.sublist (h : Sparse most width times) (hsub : times'.Sublist times) : Sparse most width times' :=
  fun a => (hsub.filter _).length_le.trans (h a)

omit [IsOrderedAddMonoid τ] in
theorem recent_nil : Recent width now ([] : List τ) [] := ⟨[], rfl, by simp⟩

theorem Recent.later (h : Recent width now times recent) (hle : now ≤ now') : Recent width now' times recent := by
  obtain ⟨old, rfl, hold⟩ := h
  exact ⟨old, rfl, fun s hs => (hold s hs).trans_le (sub_le_sub_right hle s)⟩

omit [IsOrderedAddMonoid τ] in
theorem Recent.snoc (h : Recent width now times recent) : Recent width now (times ++ [now]) (recent ++ [now]) := by
  obtain ⟨old, rfl, hold⟩ := h
  exact ⟨old, List.append_assoc .., hold⟩

omit [IsOrderedAddMonoid τ] in
/-- Dropping the times that left the window keeps the list recent. -/
theorem Recent.dropWhile (h : Recent width now times recent) :
    Recent width now times (recent.dropWhile fun s => decide (width < now - s)) := by
  obtain ⟨old, rfl, hold⟩ := h
  refine ⟨old ++ recent.takeWhile fun s => decide (width < now - s), ?_, ?_⟩
  · rw [List.append_assoc, List.takeWhile_append_dropWhile]
  · intro s hs
    rcases List.mem_append.1 hs with hs | hs
    · exact hold s hs
    · have hdrop := List.mem_takeWhile_imp hs
      exact of_decide_eq_true hdrop

theorem Sparse.snoc (h : Sparse most width times) (hrecent : Recent width now times recent)
    (hroom : recent.length < most) : Sparse most width (times ++ [now]) := by
  intro a
  unfold within
  rw [List.filter_append, List.length_append]
  by_cases hin : a ≤ now ∧ now ≤ a + width
  · -- what the recent list dropped lies before every window that holds `now`
    obtain ⟨old, rfl, hold⟩ := hrecent
    have hnone : old.filter (fun t => decide (a ≤ t ∧ t ≤ a + width)) = [] := by
      apply List.filter_eq_nil_iff.2
      intro s hs hdec
      obtain ⟨has, -⟩ := of_decide_eq_true hdec
      apply absurd (hold s hs)
      rw [not_lt, sub_le_iff_le_add']
      exact hin.2.trans (by rw [add_comm a, add_comm s]; exact add_le_add_right has width)
    rw [List.filter_append, hnone, List.nil_append]
    have hle := List.length_filter_le (fun t => decide (a ≤ t ∧ t ≤ a + width)) recent
    have hone : (List.filter (fun t => decide (a ≤ t ∧ t ≤ a + width)) [now]).length ≤ 1 := List.length_filter_le _ _
    omega
  · have hnone : List.filter (fun t => decide (a ≤ t ∧ t ≤ a + width)) [now] = [] := by
      rw [List.filter_cons_of_neg (by simpa using hin), List.filter_nil]
    rw [hnone]
    exact h a

end Hayven.Lib
