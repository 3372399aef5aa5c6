import Mathlib.Data.Set.Basic
/-!
# Refreshing a cache of values

A cache that recomputes some of its keys and keeps the rest agrees with the present
values exactly if the recomputed keys cover every difference.
-/

namespace Hayven.Lib

section Refresh
variable {κ β : Type}

open Classical in
/-- The values after `changed` is recomputed. -/
noncomputable def refresh (changed : Set κ) (now before : κ → β) : κ → β :=
  fun k => if k ∈ changed then now k else before k

theorem refresh_of_mem {changed : Set κ} {k : κ} (now before : κ → β) (h : k ∈ changed) :
    refresh changed now before k = now k := if_pos h

theorem refresh_of_not_mem {changed : Set κ} {k : κ} (now before : κ → β) (h : k ∉ changed) :
    refresh changed now before k = before k := if_neg h

theorem refresh_eq_iff {changed : Set κ} {now before : κ → β} :
    refresh changed now before = now ↔ ∀ k, before k ≠ now k → k ∈ changed := by
  constructor
  · intro h k hne
    by_contra hk
    exact hne (by rw [← h, refresh_of_not_mem now before hk])
  · intro h
    funext k
    by_cases hk : k ∈ changed
    · exact refresh_of_mem now before hk
    · rw [refresh_of_not_mem now before hk]
      by_contra hne
      exact hk (h k hne)

end Refresh

end Hayven.Lib
