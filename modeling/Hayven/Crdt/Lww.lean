import Hayven.Crdt.Hlc
import Hayven.Lib.KeyedMap
import Hayven.Lib.Replicated
/-!
# LWW register

`crdt/lww.ts`. A register keeps the op whose version (clock, writer, content
hash) is greatest. A registry has one register per entity; each register carries
its own entity, so applying through the registry never mismatches.
-/
open Hayven.Lib

namespace Hayven.Crdt

structure LwwOp (T : Type) where
  entityId : JsString
  value : T
  contentHash : Bytes
  hlc : Hlc
  writer : WriterId
deriving DecidableEq

structure LwwState (T : Type) where
  entityId : JsString
  value : T
  contentHash : Bytes
  hlc : Hlc
  writer : WriterId
deriving DecidableEq

inductive LwwError where
  | entityMismatch (state op : JsString)
deriving DecidableEq, Repr

variable {T : Type}

def makeLwwOp (blake3 : Bytes → Bytes) (bytesFor : T → Bytes) (entityId : JsString) (value : T) (hlc : Hlc)
    (writer : WriterId) : LwwOp T :=
  { entityId, value, contentHash := blake3 (bytesFor value), hlc, writer }

def verifyLwwOp (blake3 : Bytes → Bytes) (bytesFor : T → Bytes) (op : LwwOp T) : Bool :=
  blake3 (bytesFor op.value) = op.contentHash

def compareVersion (ah : Hlc) (aw : WriterId) (ac : Bytes) (bh : Hlc) (bw : WriterId) (bc : Bytes) : Ordering :=
  let key := compareComposite ah aw bh bw
  if key ≠ .eq then key else byteCompare ac bc

def opToState (op : LwwOp T) : LwwState T :=
  { entityId := op.entityId, value := op.value, contentHash := op.contentHash, hlc := op.hlc, writer := op.writer }

def applyLww (prev : Option (LwwState T)) (op : LwwOp T) : Except LwwError (LwwState T) :=
  match prev with
  | none => .ok (opToState op)
  | some prev =>
    if prev.entityId ≠ op.entityId then .error (.entityMismatch prev.entityId op.entityId)
    else if compareVersion op.hlc op.writer op.contentHash prev.hlc prev.writer prev.contentHash = .gt then
      .ok (opToState op)
    else .ok prev

def mergeLww (a b : LwwState T) : Except LwwError (LwwState T) :=
  if a.entityId ≠ b.entityId then .error (.entityMismatch a.entityId b.entityId)
  else if (compareVersion a.hlc a.writer a.contentHash b.hlc b.writer b.contentHash).isGE then .ok a
  else .ok b

/-- True when two ops of one entity share clock and writer but not content. -/
def lwwConflict (a b : LwwOp T) : Bool :=
  if a.entityId ≠ b.entityId then false
  else if compareComposite a.hlc a.writer b.hlc b.writer ≠ .eq then false
  else a.contentHash ≠ b.contentHash

/-! ## The order of versions -/

/-- The version of a register: clock and writer, then content hash. -/
def LwwState.version (s : LwwState T) : (Hlc × WriterId) × Bytes := ((s.hlc, s.writer), s.contentHash)

/-- `compareVersion` on whole registers. -/
def compareState (a b : LwwState T) : Ordering :=
  compareVersion a.hlc a.writer a.contentHash b.hlc b.writer b.contentHash

theorem compareState_eq : compareState (T := T) =
    compareLex (cmpOn (fun s => (s.hlc, s.writer)) compareKey) (cmpOn LwwState.contentHash byteCompare) := by
  funext a b
  simp only [compareState, compareVersion, compareLex, cmpOn, compareKey]
  cases compareComposite a.hlc a.writer b.hlc b.writer <;> simp

instance : Std.TransCmp (compareState (T := T)) := compareState_eq ▸ inferInstance

theorem compareState_eq_eq {a b : LwwState T} : compareState a b = .eq ↔ a.version = b.version := by
  rw [compareState_eq, compareLex_eq_eq]
  simp only [cmpOn, Std.LawfulEqCmp.compare_eq_iff_eq, LwwState.version, Prod.mk.injEq]

/-- A register that no op of `S` for its entity beats, and that is one of them. -/
def IsNewest (S : Set (LwwOp T)) (e : JsString) (s : LwwState T) : Prop :=
  (∃ op ∈ S, op.entityId = e ∧ opToState op = s) ∧
    ∀ op ∈ S, op.entityId = e → (compareState (opToState op) s).isLE

/-- Ops with equal content hash have equal values. -/
def HashFaithful (S : Set (LwwOp T)) : Prop :=
  ∀ a ∈ S, ∀ b ∈ S, a.contentHash = b.contentHash → a.value = b.value

theorem IsNewest.entityId {S : Set (LwwOp T)} {e : JsString} {s : LwwState T} (h : IsNewest S e s) :
    s.entityId = e := by
  obtain ⟨⟨op, -, rfl, rfl⟩, -⟩ := h
  rfl

theorem IsNewest.unique {S : Set (LwwOp T)} (hc : HashFaithful S) {e : JsString} {s t : LwwState T}
    (hs : IsNewest S e s) (ht : IsNewest S e t) : s = t := by
  obtain ⟨⟨a, ha, hae, rfl⟩, hmaxa⟩ := hs
  obtain ⟨⟨b, hb, hbe, rfl⟩, hmaxb⟩ := ht
  have hversion := compareState_eq_eq.1 (Std.OrientedCmp.isLE_antisymm (hmaxb a ha hae) (hmaxa b hb hbe))
  simp only [LwwState.version, opToState, Prod.mk.injEq] at hversion
  obtain ⟨⟨hh, hw⟩, hch⟩ := hversion
  simp only [opToState, LwwState.mk.injEq]
  exact ⟨hae.trans hbe.symm, hc a ha b hb hch, hch, hh, hw⟩

/-! ## Applying and merging keep the newest -/

theorem applyLww_some {prev : LwwState T} {op : LwwOp T} (h : prev.entityId = op.entityId) :
    applyLww (some prev) op = .ok (if compareState (opToState op) prev = .gt then opToState op else prev) := by
  simp only [applyLww, h, ne_eq, not_true_eq_false, if_false, compareState, opToState]
  exact (apply_ite Except.ok _ _ _).symm

theorem mergeLww_eq {a b : LwwState T} (h : a.entityId = b.entityId) :
    mergeLww a b = .ok (if (compareState a b).isGE then a else b) := by
  simp only [mergeLww, h, ne_eq, not_true_eq_false, if_false, compareState]
  exact (apply_ite Except.ok _ _ _).symm

theorem isNewest_insert_ne {S : Set (LwwOp T)} {e : JsString} {s : LwwState T} {op : LwwOp T}
    (hne : op.entityId ≠ e) : IsNewest (insert op S) e s ↔ IsNewest S e s := by
  simp only [IsNewest, Set.mem_insert_iff, exists_eq_or_imp, forall_eq_or_imp, hne, false_and, false_or,
    false_implies, true_and]

theorem isNewest_apply {S : Set (LwwOp T)} {prev : LwwState T} {op : LwwOp T}
    (h : IsNewest S op.entityId prev) :
    IsNewest (insert op S) op.entityId (if compareState (opToState op) prev = .gt then opToState op else prev) := by
  obtain ⟨⟨a, ha, hae, rfl⟩, hmax⟩ := h
  split
  case isTrue hgt =>
    refine ⟨⟨op, Set.mem_insert _ _, rfl, rfl⟩, ?_⟩
    rintro b (rfl | hb) hbe
    · exact Std.ReflCmp.isLE_rfl
    · exact Std.TransCmp.isLE_trans (hmax b hb hbe) (Ordering.isLE_of_eq_lt (Std.OrientedCmp.lt_of_gt hgt))
  case isFalse hle =>
    refine ⟨⟨a, Set.mem_insert_of_mem _ ha, hae, rfl⟩, ?_⟩
    rintro b (rfl | hb) hbe
    · exact Ordering.ne_gt_iff_isLE.1 hle
    · exact hmax b hb hbe

theorem isNewest_merge {S S' : Set (LwwOp T)} {e : JsString} {a b : LwwState T}
    (ha : IsNewest S e a) (hb : IsNewest S' e b) :
    IsNewest (S ∪ S') e (if (compareState a b).isGE then a else b) := by
  obtain ⟨⟨x, hx, hxe, rfl⟩, hmaxa⟩ := ha
  obtain ⟨⟨y, hy, hye, rfl⟩, hmaxb⟩ := hb
  split
  case isTrue hge =>
    refine ⟨⟨x, .inl hx, hxe, rfl⟩, ?_⟩
    rintro o (ho | ho) hoe
    · exact hmaxa o ho hoe
    · exact Std.TransCmp.isLE_trans (hmaxb o ho hoe) (Std.OrientedCmp.isLE_of_isGE hge)
  case isFalse hlt =>
    refine ⟨⟨y, .inr hy, hye, rfl⟩, ?_⟩
    rintro o (ho | ho) hoe
    · refine Std.TransCmp.isLE_trans (hmaxa o ho hoe) ?_
      generalize compareState (opToState x) (opToState y) = c at hlt
      cases c <;> simp_all
    · exact hmaxb o ho hoe

/-! ## The registry -/

/-- One register per entity, filed under the entity it carries. -/
structure LwwRegistry (T : Type) where
  registers : KeyedMap JsString (LwwState T)
  filed : ∀ e s, registers.get e = some s → s.entityId = e

namespace LwwRegistry

def empty : LwwRegistry T := ⟨.empty, by simp⟩

def get (r : LwwRegistry T) (e : JsString) : Option (LwwState T) := r.registers.get e

/-- File a register under its entity. -/
def put (r : LwwRegistry T) (s : LwwState T) : LwwRegistry T where
  registers := r.registers.set s.entityId s
  filed e t h := by
    rw [KeyedMap.get_set] at h
    split at h
    · cases h; assumption
    · exact r.filed e t h

theorem get_put (r : LwwRegistry T) (s : LwwState T) (e : JsString) :
    (r.put s).get e = if s.entityId = e then some s else r.get e := KeyedMap.get_set _ _ _ _

/-- `lww.set(op.entityId, applyLww(lww.get(op.entityId) ?? null, op))`. -/
def apply (r : LwwRegistry T) (op : LwwOp T) : Except LwwError (LwwRegistry T) := do
  let next ← applyLww (r.get op.entityId) op
  return r.put next

/-- `mergeLww`, keeping the first register where it throws. -/
def mergeOrKeep (a b : LwwState T) : LwwState T :=
  match mergeLww a b with
  | .ok next => next
  | .error _ => a

theorem entityId_mergeOrKeep (a b : LwwState T) : (mergeOrKeep a b).entityId = a.entityId := by
  unfold mergeOrKeep
  by_cases h : a.entityId = b.entityId
  · rw [mergeLww_eq h]
    dsimp only
    split
    · rfl
    · exact h.symm
  · simp [mergeLww, h]

/-- Absorb another registry, register by register. -/
def merge (r other : LwwRegistry T) : LwwRegistry T where
  registers := r.registers.mergeWith mergeOrKeep other.registers
  filed e s h := by
    rw [KeyedMap.get_mergeWith] at h
    cases ha : r.registers.get e <;> cases hb : other.registers.get e <;>
      simp only [ha, hb, KeyedMap.combine, reduceCtorEq, Option.some.injEq] at h <;> subst h
    · exact other.filed e _ hb
    · exact r.filed e _ ha
    · rw [entityId_mergeOrKeep]
      exact r.filed e _ ha

theorem get_merge (r other : LwwRegistry T) (e : JsString) :
    (r.merge other).get e = KeyedMap.combine mergeOrKeep (r.get e) (other.get e) :=
  KeyedMap.get_mergeWith _ _ _ _

theorem apply_eq (r : LwwRegistry T) (op : LwwOp T) :
    r.apply op = .ok (r.put (match r.get op.entityId with
      | none => opToState op
      | some prev => if compareState (opToState op) prev = .gt then opToState op else prev)) := by
  unfold apply
  cases h : r.get op.entityId with
  | none => rfl
  | some prev => rw [applyLww_some (r.filed _ _ h)]; rfl

/-- The registry has taken in the ops of `S`: each register is the newest of its entity. -/
def Holds (S : Set (LwwOp T)) (r : LwwRegistry T) : Prop :=
  ∀ e, match r.get e with
    | none => ∀ op ∈ S, op.entityId ≠ e
    | some s => IsNewest S e s

theorem Holds.of_some {S : Set (LwwOp T)} {r : LwwRegistry T} (h : r.Holds S) {e : JsString} {s : LwwState T}
    (hs : r.get e = some s) : IsNewest S e s := by
  have := h e
  rwa [hs] at this

theorem Holds.of_none {S : Set (LwwOp T)} {r : LwwRegistry T} (h : r.Holds S) {e : JsString}
    (hn : r.get e = none) : ∀ op ∈ S, op.entityId ≠ e := by
  have := h e
  rwa [hn] at this

theorem holds_empty : (empty : LwwRegistry T).Holds ∅ := fun _ _ h => h.elim

theorem holds_apply {S : Set (LwwOp T)} {r r' : LwwRegistry T} {op : LwwOp T} (h : r.Holds S)
    (happly : r.apply op = .ok r') : r'.Holds (insert op S) := by
  rw [apply_eq] at happly
  cases happly
  intro e
  cases hprev : r.get op.entityId with
  | none =>
    have hfresh := h.of_none hprev
    simp only [get_put, opToState]
    by_cases he : op.entityId = e
    · subst he
      simp only [if_true]
      refine ⟨⟨op, Set.mem_insert _ _, rfl, rfl⟩, ?_⟩
      rintro b (rfl | hb) hbe
      · exact Std.ReflCmp.isLE_rfl
      · exact absurd hbe (hfresh b hb)
    · simp only [he, if_false]
      cases hg : r.get e with
      | none => rintro b (rfl | hb); exacts [he, h.of_none hg b hb]
      | some s => exact (isNewest_insert_ne he).2 (h.of_some hg)
  | some prev =>
    have hnew := isNewest_apply (h.of_some hprev)
    simp only [get_put, hnew.entityId]
    by_cases he : op.entityId = e
    · subst he
      simpa only [if_true] using hnew
    · simp only [he, if_false]
      cases hg : r.get e with
      | none => rintro b (rfl | hb); exacts [he, h.of_none hg b hb]
      | some s => exact (isNewest_insert_ne he).2 (h.of_some hg)

theorem holds_merge {S S' : Set (LwwOp T)} {r other : LwwRegistry T} (h : r.Holds S) (h' : other.Holds S') :
    (r.merge other).Holds (S ∪ S') := by
  intro e
  rw [get_merge]
  cases ha : r.get e with
  | none =>
    cases hb : other.get e with
    | none => rintro op (ho | ho); exacts [h.of_none ha op ho, h'.of_none hb op ho]
    | some b =>
      obtain ⟨⟨o, ho, hoe⟩, hmax⟩ := h'.of_some hb
      refine ⟨⟨o, .inr ho, hoe⟩, ?_⟩
      rintro op (hop | hop) hope
      · exact absurd hope (h.of_none ha op hop)
      · exact hmax op hop hope
  | some a =>
    cases hb : other.get e with
    | none =>
      obtain ⟨⟨o, ho, hoe⟩, hmax⟩ := h.of_some ha
      refine ⟨⟨o, .inl ho, hoe⟩, ?_⟩
      rintro op (hop | hop) hope
      · exact hmax op hop hope
      · exact absurd hope (h'.of_none hb op hop)
    | some b =>
      have hentity : a.entityId = b.entityId := (h.of_some ha).entityId.trans (h'.of_some hb).entityId.symm
      simpa only [KeyedMap.combine, mergeOrKeep, mergeLww_eq hentity]
        using isNewest_merge (h.of_some ha) (h'.of_some hb)

/-- Registries that took in the same ops agree on every entity. -/
theorem get_eq_of_holds {S : Set (LwwOp T)} (hc : HashFaithful S) {r r' : LwwRegistry T} (h : r.Holds S)
    (h' : r'.Holds S) (e : JsString) : r.get e = r'.get e := by
  cases ha : r.get e with
  | none =>
    cases hb : r'.get e with
    | none => rfl
    | some b =>
      obtain ⟨⟨o, ho, hoe, -⟩, -⟩ := h'.of_some hb
      exact absurd hoe (h.of_none ha o ho)
  | some a =>
    cases hb : r'.get e with
    | none =>
      obtain ⟨⟨o, ho, hoe, -⟩, -⟩ := h.of_some ha
      exact absurd hoe (h'.of_none hb o ho)
    | some b => rw [(h.of_some ha).unique hc (h'.of_some hb)]

end LwwRegistry

end Hayven.Crdt
