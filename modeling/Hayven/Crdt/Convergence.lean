import Hayven.Crdt.Gset
import Hayven.Crdt.Lww
import Hayven.Crdt.Orset
import Hayven.Lib.Replicated
/-!
# Strong convergence

The whole in-memory state is a registry of LWW registers, a G-Set and an OR-Set.
Replicas that took in the same ops, in whatever order, however often, and through
whatever merges, show the same registers, observations and active claims.
-/
open Hayven.Lib

namespace Hayven.Crdt

inductive CrdtOp (T : Type) where
  | lww (op : LwwOp T)
  | gset (op : GsetOp)
  | orset (op : OrOp)

/-- The three states of a replica. -/
structure MemState (T : Type) where
  lww : LwwRegistry T
  gset : GsetState
  orset : OrSetState

namespace MemState
variable {T : Type}

def empty : MemState T := ⟨.empty, .empty, .empty⟩

/-- Deliver an op. One that its state refuses leaves the state as it was. -/
def deliver (s : MemState T) : CrdtOp T → MemState T
  | .lww op => match s.lww.apply op with
    | .ok lww => { s with lww }
    | .error _ => s
  | .gset op => match s.gset.apply op with
    | .ok gset => { s with gset }
    | .error _ => s
  | .orset op => match s.orset.apply op with
    | .ok orset => { s with orset }
    | .error _ => s

/-- Absorb another replica's state. -/
def merge (s other : MemState T) : MemState T :=
  ⟨s.lww.merge other.lww, (s.gset.merge other.gset).1, s.orset.merge other.orset⟩

/-- Ops with one composite key are equal, and equal content hashes mean equal values. -/
structure Consistent (S : Set (CrdtOp T)) : Prop where
  lww : HashFaithful {op | .lww op ∈ S}
  gset : GsetState.KeyUnique {op | .gset op ∈ S}
  orset : ∀ a b : OrOp, .orset a ∈ S → .orset b ∈ S → a.key = b.key → a = b

theorem Consistent.mono {S S' : Set (CrdtOp T)} (hsub : S ⊆ S') (h : Consistent S') : Consistent S where
  lww _ ha _ hb := h.lww _ (hsub ha) _ (hsub hb)
  gset _ ha _ hb := h.gset _ (hsub ha) _ (hsub hb)
  orset _ _ ha hb := h.orset _ _ (hsub ha) (hsub hb)

theorem Consistent.adds {S : Set (CrdtOp T)} (h : Consistent S) : OrSetState.KeyUnique {op | .orset op ∈ S} :=
  fun _ _ ha hb hab => OrOp.add.inj (h.orset _ _ ha hb hab)

/-- Each state has taken in its ops of `S`. -/
structure Holds (S : Set (CrdtOp T)) (s : MemState T) : Prop where
  lww : s.lww.Holds {op | .lww op ∈ S}
  gset : s.gset.Holds {op | .gset op ∈ S}
  orset : s.orset.Holds {op | .orset op ∈ S}

theorem lwwOps_insert (S : Set (CrdtOp T)) (op : LwwOp T) :
    {o | CrdtOp.lww o ∈ insert (.lww op) S} = insert op {o | CrdtOp.lww o ∈ S} := by
  ext o; simp

theorem gsetOps_insert (S : Set (CrdtOp T)) (op : GsetOp) :
    {o | CrdtOp.gset o ∈ insert (.gset op) S} = insert op {o | CrdtOp.gset o ∈ S} := by
  ext o; simp

theorem orOps_insert (S : Set (CrdtOp T)) (op : OrOp) :
    {o | CrdtOp.orset o ∈ insert (.orset op) S} = insert op {o | CrdtOp.orset o ∈ S} := by
  ext o; simp

theorem holds_deliver {S : Set (CrdtOp T)} {s : MemState T} {op : CrdtOp T} (hc : Consistent (insert op S))
    (h : s.Holds S) : (s.deliver op).Holds (insert op S) := by
  cases op with
  | lww op =>
    refine ⟨?_, by simpa [deliver, LwwRegistry.apply_eq] using h.gset,
      by simpa [deliver, LwwRegistry.apply_eq] using h.orset⟩
    rw [lwwOps_insert]
    have hok := LwwRegistry.apply_eq s.lww op
    simp only [deliver, hok]
    exact LwwRegistry.holds_apply h.lww hok
  | gset op =>
    have hkey := gsetOps_insert S op ▸ hc.gset
    simp only [deliver]
    cases happly : s.gset.apply op with
    | ok gset =>
      exact ⟨by simpa using h.lww, gsetOps_insert S op ▸ GsetState.holds_apply hkey h.gset happly,
        by simpa using h.orset⟩
    | error e =>
      exact ⟨by simpa using h.lww, gsetOps_insert S op ▸ GsetState.holds_refused h.gset happly,
        by simpa using h.orset⟩
  | orset op =>
    have hkey := orOps_insert S op ▸ hc.adds
    simp only [deliver]
    cases happly : s.orset.apply op with
    | ok orset =>
      exact ⟨by simpa using h.lww, by simpa using h.gset,
        orOps_insert S op ▸ OrSetState.holds_apply hkey h.orset happly⟩
    | error e =>
      exact ⟨by simpa using h.lww, by simpa using h.gset,
        orOps_insert S op ▸ OrSetState.holds_refused h.orset happly⟩

theorem holds_merge {S S' : Set (CrdtOp T)} {s s' : MemState T} (hc : Consistent (S ∪ S')) (h : s.Holds S)
    (h' : s'.Holds S') : (s.merge s').Holds (S ∪ S') where
  lww := LwwRegistry.holds_merge h.lww h'.lww
  gset := GsetState.holds_merge hc.gset h.gset h'.gset
  orset := OrSetState.holds_merge hc.adds h.orset h'.orset

/-- The whole state as a replicated object. -/
def replica (T : Type) : Replicated (CrdtOp T) (MemState T) where
  init := empty
  apply := deliver
  merge := merge
  Consistent := Consistent
  Holds := Holds
  consistent_mono := Consistent.mono
  holds_init := ⟨LwwRegistry.holds_empty, GsetState.holds_empty, OrSetState.holds_empty⟩
  holds_apply := holds_deliver
  holds_merge := holds_merge

/-- What a reader of the state can see: the registers, the observations and the active claims. -/
def view (s : MemState T) :
    (JsString → Option (LwwState T)) × List ObservationView × (Option JsNumber → List OrAddOp) :=
  (s.lww.get, materializeGset s.gset, s.orset.active)

theorem view_eq_iff {s t : MemState T} : s.view = t.view ↔
    (∀ e, s.lww.get e = t.lww.get e) ∧ materializeGset s.gset = materializeGset t.gset ∧
      ∀ nowMs, s.orset.active nowMs = t.orset.active nowMs := by
  simp only [view, Prod.mk.injEq, funext_iff]

theorem view_eq_of_holds {S : Set (CrdtOp T)} {s t : MemState T} (hc : Consistent S) (h : s.Holds S)
    (h' : t.Holds S) : s.view = t.view :=
  view_eq_iff.2 ⟨LwwRegistry.get_eq_of_holds hc.lww h.lww h'.lww,
    GsetState.materializeGset_eq_of_holds hc.gset h.gset h'.gset, OrSetState.active_eq_of_holds h.orset h'.orset⟩

/-- Any two ways to take in a consistent set of ops, by delivery and by merging,
show the same registers, observations and active claims. -/
theorem strong_convergence {S : Set (CrdtOp T)} (hc : Consistent S) {h h' : History (CrdtOp T)}
    (hops : h.ops = S) (hops' : h'.ops = S) :
    let s := h.run (replica T)
    let t := h'.run (replica T)
    (∀ e, s.lww.get e = t.lww.get e) ∧ materializeGset s.gset = materializeGset t.gset ∧
      ∀ nowMs, s.orset.active nowMs = t.orset.active nowMs := by
  subst hops
  exact view_eq_iff.1 (History.converge (replica T) view view_eq_of_holds hops'.symm hc)

/-- Two writes that tie on clock and writer, delivered in order here; there each
on its own replica, one of them twice, then merged. -/
theorem strong_convergence_tie :
    let writer : WriterId := ⟨List.replicate 16 7, rfl⟩
    let a : CrdtOp Nat := .lww ⟨[97], 1, [1], ⟨5, 0⟩, writer⟩
    let b : CrdtOp Nat := .lww ⟨[97], 2, [2], ⟨5, 0⟩, writer⟩
    let s := ((History.fresh.deliver a).deliver b).run (replica Nat)
    let t := ((History.fresh.deliver b).merge ((History.fresh.deliver a).deliver a)).run (replica Nat)
    (∀ e, s.lww.get e = t.lww.get e) ∧ materializeGset s.gset = materializeGset t.gset ∧
      ∀ nowMs, s.orset.active nowMs = t.orset.active nowMs := by
  intro writer a b
  refine strong_convergence (S := {a, b}) ⟨?_, ?_, ?_⟩ ?_ ?_
  · intro x hx y hy hxy
    simp only [a, b, Set.mem_ofPred_eq, Set.mem_insert_iff, Set.mem_singleton_iff, CrdtOp.lww.injEq] at hx hy
    rcases hx with rfl | rfl <;> rcases hy with rfl | rfl <;> simp_all
  · intro x hx; simp [a, b] at hx
  · intro x y hx; simp [a, b] at hx
  · ext x; simp [History.ops, or_comm]
  · ext x; simp [History.ops]

end MemState

end Hayven.Crdt
