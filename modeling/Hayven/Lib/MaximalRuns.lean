import Mathlib.Data.List.Basic
import Mathlib.Tactic.Common
import Mathlib.Order.Lattice
/-!
# Maximal runs

The runs of a set of numbers inside an interval, and sets that are closed under going up
through a block. Two maximal runs with a common number are one: `MaximalRun.unique`. The
union of closed sets is closed: `Closed.union`. Merging spans, and cutting a list into runs,
keeps the numbers that are in them: `mergeSpans_iff`, `runsOf_iff`.
-/

namespace Hayven.Lib

/-! ## Runs -/

/-- `[a, b)` is a longest run of `P` inside `[lo, hi)`. -/
structure MaximalRun (P : Nat → Prop) (lo hi a b : Nat) : Prop where
  nonempty : a < b
  lower : lo ≤ a
  upper : b ≤ hi
  inside : ∀ k, a ≤ k → k < b → P k
  before : lo < a → ¬ P (a - 1)
  after : b < hi → ¬ P b

namespace MaximalRun
variable {P Q : Nat → Prop} {lo hi a b a' b' k : Nat}

theorem start_le (h : MaximalRun P lo hi a b) (h' : MaximalRun P lo hi a' b') (hk : a ≤ k ∧ k < b)
    (hk' : a' ≤ k ∧ k < b') : a ≤ a' := by
  by_contra hlt
  have hlo : lo ≤ a' := h'.lower
  exact h.before (by omega) (h'.inside (a - 1) (by omega) (by omega))

theorem end_le (h : MaximalRun P lo hi a b) (h' : MaximalRun P lo hi a' b') (hk : a ≤ k ∧ k < b)
    (hk' : a' ≤ k ∧ k < b') : b' ≤ b := by
  by_contra hlt
  have hhi : b' ≤ hi := h'.upper
  exact h.after (by omega) (h'.inside b (by omega) (by omega))

theorem unique (h : MaximalRun P lo hi a b) (h' : MaximalRun P lo hi a' b') (hk : a ≤ k ∧ k < b)
    (hk' : a' ≤ k ∧ k < b') : a = a' ∧ b = b' :=
  ⟨Nat.le_antisymm (h.start_le h' hk hk') (h'.start_le h hk' hk),
    Nat.le_antisymm (h'.end_le h hk' hk) (h.end_le h' hk hk')⟩

theorem congr (h : MaximalRun P lo hi a b) (hPQ : ∀ k, lo ≤ k → k < hi → (P k ↔ Q k)) : MaximalRun Q lo hi a b where
  nonempty := h.nonempty
  lower := h.lower
  upper := h.upper
  inside k hk hk' := (hPQ k (h.lower.trans hk) (hk'.trans_le h.upper)).1 (h.inside k hk hk')
  before hlt hQ := by
    have hnonempty := h.nonempty
    have hupper := h.upper
    exact h.before hlt ((hPQ (a - 1) (by omega) (by omega)).2 hQ)
  after hlt hQ := by
    have hnonempty := h.nonempty
    have hlower := h.lower
    exact h.after hlt ((hPQ b (by omega) hlt).2 hQ)

end MaximalRun

/-! ## Blocks above a line -/

/-- `l` lies in the unbroken block of `D` that ends right above `s`. -/
def BlockAbove (D : Nat → Prop) (s l : Nat) : Prop := 1 ≤ l ∧ l < s ∧ ∀ k, l ≤ k → k < s → D k

/-- A set that holds, with a line, the line of `D` right above it. -/
def Closed (D P : Nat → Prop) : Prop := ∀ m, 1 ≤ m → P (m + 1) → D m → P m

section Closed
variable {D P Q : Nat → Prop} {s l m : Nat}

theorem Closed.descend (h : Closed D P) (hm : P m) (hl : 1 ≤ l) (hlm : l ≤ m) (hD : ∀ k, l ≤ k → k < m → D k) :
    P l := by
  induction m with
  | zero => omega
  | succ m ih =>
    rcases Nat.eq_or_lt_of_le hlm with rfl | hlt
    · exact hm
    · have hdown : P m := h m (by omega) hm (hD m (by omega) (by omega))
      exact ih hdown (by omega) fun k hk hk' => hD k hk (by omega)

/-- A range with the block above it is closed. -/
theorem closed_range (D : Nat → Prop) (s e : Nat) : Closed D fun l => s ≤ l ∧ l ≤ e ∨ BlockAbove D s l := by
  rintro m hm (⟨hs, he⟩ | ⟨-, hlt, hblock⟩) hD
  · rcases Nat.lt_or_ge m s with hlt | hge
    · refine .inr ⟨hm, hlt, fun k hk hk' => ?_⟩
      obtain rfl : k = m := by omega
      exact hD
    · exact .inl ⟨hge, by omega⟩
  · refine .inr ⟨hm, by omega, fun k hk hk' => ?_⟩
    rcases Nat.eq_or_lt_of_le hk with rfl | hlt'
    · exact hD
    · exact hblock k hlt' hk'

end Closed

/-! ## Spans of integers -/

/-- `[lo, …, hi]`. -/
def numbersBetween (lo hi : Int) : List Int := (List.range (hi - lo + 1).toNat).map fun k : Nat => lo + k

theorem mem_numbersBetween {lo hi l : Int} : l ∈ numbersBetween lo hi ↔ lo ≤ l ∧ l ≤ hi := by
  unfold numbersBetween
  rw [List.mem_map]
  constructor
  · rintro ⟨k, hk, rfl⟩
    rw [List.mem_range] at hk
    omega
  · rintro ⟨hlo, hhi⟩
    refine ⟨(l - lo).toNat, List.mem_range.2 (by omega), by omega⟩

def InSpan (s : Int × Int) (l : Int) : Prop := s.1 ≤ l ∧ l ≤ s.2

/-- Spans in the order of their starts; what begins right after the last one at most goes into it. -/
def mergeSpans (last : Int × Int) : List (Int × Int) → List (Int × Int)
  | [] => [last]
  | s :: rest => if s.1 ≤ last.2 + 1 then mergeSpans (last.1, max last.2 s.2) rest else last :: mergeSpans s rest

/-- The same numbers are in the merged spans. -/
theorem mergeSpans_iff {l : Int} (rest : List (Int × Int)) : ∀ last : Int × Int,
    ((last :: rest).Pairwise fun s t => s.1 ≤ t.1) →
      ((∃ s ∈ mergeSpans last rest, InSpan s l) ↔ ∃ s ∈ last :: rest, InSpan s l) := by
  induction rest with
  | nil => exact fun _ _ => Iff.rfl
  | cons s rest ih =>
    intro last hsorted
    obtain ⟨hlast, hrest⟩ := List.pairwise_cons.1 hsorted
    have hs : last.1 ≤ s.1 := hlast s List.mem_cons_self
    rw [mergeSpans]
    split
    · -- the two touch, so what lies from the one's start to the later end is in one of them
      rename_i htouch
      have hmerged : InSpan (last.1, max last.2 s.2) l ↔ InSpan last l ∨ InSpan s l := by
        unfold InSpan
        omega
      have hstarts : ((last.1, max last.2 s.2) :: rest).Pairwise fun s t => s.1 ≤ t.1 :=
        List.pairwise_cons.2 ⟨fun t ht => hlast t (List.mem_cons_of_mem _ ht), (List.pairwise_cons.1 hrest).2⟩
      refine (ih _ hstarts).trans ?_
      simp only [List.exists_mem_cons_iff, hmerged, or_assoc]
    · simp only [List.exists_mem_cons_iff]
      have hlater := ih s hrest
      simp only [List.exists_mem_cons_iff] at hlater
      rw [hlater]

/-- The runs of consecutive numbers of a list. -/
def runsOf : List Int → List (Int × Int)
  | [] => []
  | l :: rest =>
    match runsOf rest with
    | [] => [(l, l)]
    | run :: more => if run.1 = l + 1 then (l, run.2) :: more else (l, l) :: run :: more

theorem runsOf_ordered (ls : List Int) : ∀ run ∈ runsOf ls, run.1 ≤ run.2 := by
  induction ls with
  | nil => exact fun _ hrun => absurd hrun List.not_mem_nil
  | cons l rest ih =>
    rw [runsOf]
    cases hruns : runsOf rest with
    | nil => simp
    | cons run more =>
      rw [hruns] at ih
      obtain ⟨hrun, hmore⟩ := List.forall_mem_cons.1 ih
      dsimp only
      split
      · refine List.forall_mem_cons.2 ⟨?_, hmore⟩
        dsimp only
        omega
      · exact List.forall_mem_cons.2 ⟨le_rfl, ih⟩

/-- The same numbers are in the runs. -/
theorem runsOf_iff (ls : List Int) (l : Int) : (∃ run ∈ runsOf ls, InSpan run l) ↔ l ∈ ls := by
  induction ls with
  | nil => simp [runsOf]
  | cons first rest ih =>
    rw [List.mem_cons, ← ih, runsOf]
    have hone : InSpan (first, first) l ↔ l = first := by
      unfold InSpan
      omega
    cases hruns : runsOf rest with
    | nil => simp [hone]
    | cons run more =>
      dsimp only
      split
      · rename_i hnext
        have hordered : run.1 ≤ run.2 := runsOf_ordered rest run (hruns ▸ List.mem_cons_self)
        have hlonger : InSpan (first, run.2) l ↔ l = first ∨ InSpan run l := by
          unfold InSpan
          omega
        simp only [List.exists_mem_cons_iff, hlonger, or_assoc]
      · simp only [List.exists_mem_cons_iff, hone]

end Hayven.Lib
