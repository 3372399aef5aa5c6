import Mathlib.Data.Set.Insert
import Mathlib.Data.Set.Lattice
import Mathlib.Order.ConditionallyCompleteLattice.Basic
import Mathlib.Tactic.Tauto
/-!
# Replicated objects

An object whose replicas apply ops one at a time and absorb one another. Its
state after a history only depends on the set of ops the history delivered, as
far as a view that the predicate `Holds` determines can tell: `converge`. Of a one-sided
exchange between two replicas that hold items under indices, what each side has afterwards.
-/

namespace Hayven.Lib

/-- A replicated object. `Holds S s` says that state `s` has taken in exactly
the ops of `S`. -/
structure Replicated (Op State : Type) where
  init : State
  apply : State → Op → State
  merge : State → State → State
  Consistent : Set Op → Prop
  Holds : Set Op → State → Prop
  consistent_mono : ∀ {S T}, S ⊆ T → Consistent T → Consistent S
  holds_init : Holds ∅ init
  holds_apply : ∀ {S s op}, Consistent (insert op S) → Holds S s → Holds (insert op S) (apply s op)
  holds_merge : ∀ {S T s t}, Consistent (S ∪ T) → Holds S s → Holds T t → Holds (S ∪ T) (merge s t)

/-- How a replica came to its state: ops in any order and any number of times,
and the states of other replicas. -/
inductive History (Op : Type) where
  | fresh
  | deliver (h : History Op) (op : Op)
  | merge (mine theirs : History Op)

namespace History
variable {Op State : Type}

/-- The ops a history delivered. -/
def ops : History Op → Set Op
  | fresh => ∅
  | deliver h op => insert op h.ops
  | merge a b => a.ops ∪ b.ops

/-- The history that delivers a list of ops. -/
def ofList (l : List Op) : History Op := l.foldl deliver fresh

def run (R : Replicated Op State) : History Op → State
  | fresh => R.init
  | deliver h op => R.apply (h.run R) op
  | merge a b => R.merge (a.run R) (b.run R)

/-- Every history ends in a state that holds exactly the ops it delivered. -/
theorem holds_run (R : Replicated Op State) (h : History Op) (hc : R.Consistent h.ops) :
    R.Holds h.ops (h.run R) := by
  induction h with
  | fresh => exact R.holds_init
  | deliver h op ih => exact R.holds_apply hc (ih (R.consistent_mono (Set.subset_insert _ _) hc))
  | merge a b iha ihb =>
    exact R.holds_merge hc (iha (R.consistent_mono Set.subset_union_left hc))
      (ihb (R.consistent_mono Set.subset_union_right hc))

/-- Two histories that delivered the same ops agree on every view `Holds` determines. -/
theorem converge (R : Replicated Op State) {V : Type} (view : State → V)
    (hview : ∀ {S s t}, R.Consistent S → R.Holds S s → R.Holds S t → view s = view t)
    {h h' : History Op} (hops : h.ops = h'.ops) (hc : R.Consistent h.ops) :
    view (h.run R) = view (h'.run R) :=
  hview hc (holds_run R h hc) (hops ▸ holds_run R h' (hops ▸ hc))

end History

end Hayven.Lib

/-!
## One-sided anti-entropy

The initiator takes over the other side's items wherever the two differ, and hands over its
own only where the other side has none at all.
-/

namespace Hayven.Lib.AntiEntropy

variable {ι κ : Type}

open Classical in
/-- What the initiator `a` holds afterwards. -/
noncomputable def pull (a b : ι → Set κ) : ι → Set κ := fun i => if a i = b i then a i else a i ∪ b i

open Classical in
/-- What the other side `b` holds afterwards. -/
noncomputable def push (a b : ι → Set κ) : ι → Set κ := fun i => if b i = ∅ then a i else b i

theorem pull_eq (a b : ι → Set κ) : pull a b = a ⊔ b := by
  funext i
  show pull a b i = a i ∪ b i
  unfold pull
  split
  case isTrue h => rw [h, Set.union_self]
  case isFalse => rfl

/-- The other side gains nothing it could not. -/
theorem push_le (a b : ι → Set κ) : push a b ≤ a ⊔ b := by
  intro i
  show push a b i ⊆ a i ∪ b i
  unfold push
  split
  · exact Set.subset_union_left
  · exact Set.subset_union_right

theorem le_push (a b : ι → Set κ) : b ≤ push a b := by
  intro i
  show b i ⊆ push a b i
  unfold push
  split
  case isTrue h =>
    rw [h]
    exact Set.empty_subset _
  case isFalse => exact subset_rfl

/-- Where the other side still holds nothing, neither does the initiator. -/
theorem pull_empty_of_push {a b : ι → Set κ} {i : ι} (h : push a b i = ∅) : pull a b i = ∅ := by
  rw [pull_eq]
  show a i ∪ b i = ∅
  unfold push at h
  split at h
  case isTrue hb => rw [h, hb, Set.union_self]
  case isFalse hb => exact absurd h hb

/-- A second round from the other side brings both to the union. -/
theorem two_rounds (a b : ι → Set κ) :
    pull (push a b) (pull a b) = a ⊔ b ∧ push (push a b) (pull a b) = a ⊔ b := by
  have hle := push_le a b
  rw [pull_eq, pull_eq]
  refine ⟨sup_eq_right.2 hle, ?_⟩
  funext i
  show push (push a b) (a ⊔ b) i = a i ∪ b i
  have hi : push a b i ⊆ a i ∪ b i := hle i
  simp only [push, Pi.sup_apply, Set.sup_eq_union] at hi ⊢
  split
  case isTrue hempty =>
    rw [hempty] at hi ⊢
    exact Set.subset_eq_empty hi rfl
  case isFalse => rfl

/-- One round settles both sides exactly when the other side had everything wherever it had anything. -/
theorem settled_iff (a b : ι → Set κ) : pull a b = push a b ↔ ∀ i, b i = ∅ ∨ a i ⊆ b i := by
  rw [pull_eq]
  constructor
  · intro h i
    by_cases hb : b i = ∅
    · exact .inl hb
    · have hi : a i ∪ b i = push a b i := congrFun h i
      rw [push, if_neg hb] at hi
      exact .inr (Set.union_eq_right.1 hi)
  · intro h
    funext i
    show a i ∪ b i = push a b i
    unfold push
    split
    case isTrue hb => rw [hb, Set.union_empty]
    case isFalse hb => exact Set.union_eq_right.2 ((h i).resolve_left hb)

/-! ## Rounds among many replicas -/

section Gossip
variable {ν : Type}

/-- What `src` holds at the start, `dst` holds after these rounds of an initiator and a responder:
it stays where it is, or the initiator of the first round takes it over. -/
def Flows : List (ν × ν) → ν → ν → Prop
  | [], src, dst => src = dst
  | (i, j) :: rest, src, dst => Flows rest src dst ∨ src = j ∧ Flows rest i dst

/-- The same where a round may carry items either way. -/
def Spreads : List (ν × ν) → ν → ν → Prop
  | [], src, dst => src = dst
  | (i, j) :: rest, src, dst => Spreads rest src dst ∨ src = j ∧ Spreads rest i dst ∨ src = i ∧ Spreads rest j dst

theorem flows_self (rounds : List (ν × ν)) (i : ν) : Flows rounds i i := by
  induction rounds with
  | nil => rfl
  | cons p rest ih => exact .inl ih

theorem Flows.trans {rounds later : List (ν × ν)} {i j k : ν} (h : Flows rounds i j) (h' : Flows later j k) :
    Flows (rounds ++ later) i k := by
  induction rounds generalizing i with
  | nil =>
    obtain rfl : i = j := h
    exact h'
  | cons p rest ih =>
    rcases h with h | ⟨hi, h⟩
    · exact .inl (ih h)
    · exact .inr ⟨hi, ih h⟩

/-- Each round hands all that its responder holds to its initiator. -/
theorem flows_of_mem {rounds : List (ν × ν)} {i j : ν} (h : (i, j) ∈ rounds) : Flows rounds j i := by
  induction rounds with
  | nil => cases h
  | cons p rest ih =>
    rcases List.mem_cons.1 h with rfl | h
    · exact .inr ⟨rfl, flows_self rest i⟩
    · exact .inl (ih h)

/-- A hub meets each of the others, then each of them meets the hub. -/
theorem flows_hub (hub : ν) (others : List ν) (hall : ∀ i, i = hub ∨ i ∈ others) (i j : ν) :
    Flows (others.map (fun k => (hub, k)) ++ others.map fun k => (k, hub)) i j := by
  have hto : Flows (others.map fun k => (hub, k)) i hub := by
    rcases hall i with rfl | hi
    · exact flows_self _ _
    · exact flows_of_mem (List.mem_map.2 ⟨i, hi, rfl⟩)
  have hfrom : Flows (others.map fun k => (k, hub)) hub j := by
    rcases hall j with rfl | hj
    · exact flows_self _ _
    · exact flows_of_mem (List.mem_map.2 ⟨j, hj, rfl⟩)
  exact hto.trans hfrom

variable [DecidableEq ν]

/-- One round of the replicas at which `i` is the initiator and `j` responds. -/
noncomputable def exchange (s : ν → ι → Set κ) (i j : ν) : ν → ι → Set κ :=
  Function.update (Function.update s i (pull (s i) (s j))) j (push (s i) (s j))

noncomputable def gossip (s : ν → ι → Set κ) (rounds : List (ν × ν)) : ν → ι → Set κ :=
  rounds.foldl (fun s p => exchange s p.1 p.2) s

/-- No replica loses an item. -/
theorem le_exchange (s : ν → ι → Set κ) (i j k : ν) : s k ≤ exchange s i j k := by
  unfold exchange
  by_cases hj : k = j
  · subst hj
    rw [Function.update_self]
    exact le_push _ _
  · rw [Function.update_of_ne hj]
    by_cases hi : k = i
    · subst hi
      rw [Function.update_self, pull_eq]
      exact le_sup_left
    · rw [Function.update_of_ne hi]

/-- The initiator holds all that the responder did. -/
theorem le_exchange_initiator (s : ν → ι → Set κ) (i j : ν) : s j ≤ exchange s i j i := by
  by_cases hij : i = j
  · subst hij
    exact le_exchange s i i i
  · rw [exchange, Function.update_of_ne hij, Function.update_self, pull_eq]
    exact le_sup_right

/-- Only the two that met gain anything, and only from each other. -/
theorem exchange_le (s : ν → ι → Set κ) (i j k : ν) :
    exchange s i j k = s k ∨ (k = i ∨ k = j) ∧ exchange s i j k ≤ s i ⊔ s j := by
  unfold exchange
  by_cases hj : k = j
  · subst hj
    rw [Function.update_self]
    exact .inr ⟨.inr rfl, push_le _ _⟩
  · rw [Function.update_of_ne hj]
    by_cases hi : k = i
    · subst hi
      rw [Function.update_self, pull_eq]
      exact .inr ⟨.inl rfl, le_rfl⟩
    · exact .inl (Function.update_of_ne hi _ _)

/-- What flows to a replica is there after the rounds. -/
theorem Flows.le_gossip {rounds : List (ν × ν)} {i j : ν} (h : Flows rounds i j) (s : ν → ι → Set κ) :
    s i ≤ gossip s rounds j := by
  induction rounds generalizing i s with
  | nil =>
    obtain rfl : i = j := h
    exact le_rfl
  | cons p rest ih =>
    rcases h with h | ⟨rfl, h⟩
    · exact (le_exchange s _ _ i).trans (ih h _)
    · exact (le_exchange_initiator s _ _).trans (ih h _)

/-- What is there after the rounds spread there from a replica that held it. -/
theorem spreads_of_mem_gossip {rounds : List (ν × ν)} {s : ν → ι → Set κ} {j : ν} {p : ι} {x : κ}
    (hx : x ∈ gossip s rounds j p) : ∃ i, Spreads rounds i j ∧ x ∈ s i p := by
  induction rounds generalizing s with
  | nil => exact ⟨j, rfl, hx⟩
  | cons q rest ih =>
    obtain ⟨k, hk, hxk⟩ := ih hx
    have hxk : x ∈ exchange s q.1 q.2 k p := hxk
    rcases exchange_le s q.1 q.2 k with heq | ⟨hkq, hle⟩
    · rw [heq] at hxk
      exact ⟨k, .inl hk, hxk⟩
    · -- it came from one of the two, and is now with `k`, which is one of the two as well
      rcases hle p hxk with hxi | hxj
      · rcases hkq with rfl | rfl
        · exact ⟨_, .inl hk, hxi⟩
        · exact ⟨_, .inr (.inr ⟨rfl, hk⟩), hxi⟩
      · rcases hkq with rfl | rfl
        · exact ⟨_, .inr (.inl ⟨rfl, hk⟩), hxj⟩
        · exact ⟨_, .inl hk, hxj⟩

/-- Once everything has flowed everywhere, each replica holds what any of them held. -/
theorem gossip_eq_iSup {rounds : List (ν × ν)} (h : ∀ i j, Flows rounds i j) (s : ν → ι → Set κ) (j : ν) :
    gossip s rounds j = ⨆ i, s i := by
  apply le_antisymm
  · intro p x hx
    obtain ⟨i, -, hxi⟩ := spreads_of_mem_gossip hx
    exact le_iSup s i p hxi
  · exact iSup_le fun i => (h i j).le_gossip s

end Gossip

end Hayven.Lib.AntiEntropy
