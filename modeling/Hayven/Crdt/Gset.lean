import Hayven.Crdt.Hlc
import Hayven.Lib.KeyedMap
import Mathlib.Data.Set.Basic
import Mathlib.Tactic.Tauto
/-!
# G-Set of trace observations

`crdt/gset.ts`. Ops are filed under the hex of their composite key, the first
one in wins. An op whose clock cannot be encoded is refused. The materialised
view sums the ops of one `(src, dst, tsBucket)` in key order.
-/
open Hayven.Lib

namespace Hayven.Crdt

def tsBucketSeconds : Nat := 60

structure GsetOp where
  src : JsString
  dst : JsString
  tsBucket : Nat
  observed : Nat
  weight : Nat
  hlc : Hlc
  writer : WriterId
deriving DecidableEq

def bucketize (unixSeconds : Nat) : Nat := unixSeconds / tsBucketSeconds * tsBucketSeconds

/-- The composite key of an op. -/
def GsetOp.key (op : GsetOp) : Hlc × WriterId := (op.hlc, op.writer)

def opKey (op : GsetOp) : Except HlcError JsString := do
  let bytes ← encodeComposite op.hlc op.writer
  return bytesToHex bytes

theorem opKey_of_encodable {op : GsetOp} (h : op.hlc.Encodable) : opKey op = .ok (keyHex op.key) := by
  simp only [opKey, encodeComposite_of_encodable h]; rfl

theorem opKey_ok {op : GsetOp} {k : JsString} (h : opKey op = .ok k) : op.hlc.Encodable ∧ k = keyHex op.key := by
  by_cases he : op.hlc.Encodable
  · rw [opKey_of_encodable he] at h
    cases h
    exact ⟨he, rfl⟩
  · obtain ⟨e, he'⟩ := encodeComposite_of_not_encodable he op.writer
    simp only [opKey, he'] at h
    cases h

/-- Ops by the hex of their composite key. -/
structure GsetState where
  ops : KeyedMap JsString GsetOp
  filed : ∀ k op, ops.get k = some op → opKey op = .ok k

namespace GsetState

def empty : GsetState := ⟨.empty, by simp⟩

def size (s : GsetState) : Nat := s.ops.entries.length

/-- File an op under its own key. -/
def put (s : GsetState) (k : JsString) (op : GsetOp) (h : opKey op = .ok k) : GsetState where
  ops := s.ops.set k op
  filed k' op' hg := by
    rw [KeyedMap.get_set] at hg
    split at hg
    · cases hg; subst ‹k = k'›; exact h
    · exact s.filed k' op' hg

def apply (s : GsetState) (op : GsetOp) : Except HlcError GsetState :=
  match h : opKey op with
  | .error e => .error e
  | .ok k => .ok (if s.ops.has k then s else s.put k op h)

/-- One round of `merge`: take in the op under key `k` unless the key is taken. -/
def mergeStep (acc : GsetState × Nat) (p : { p : JsString × GsetOp // opKey p.2 = .ok p.1 }) : GsetState × Nat :=
  if acc.1.ops.has p.1.1 then acc else (acc.1.put p.1.1 p.1.2 p.2, acc.2 + 1)

/-- The filed ops with their keys. -/
def filedOps (s : GsetState) : List { p : JsString × GsetOp // opKey p.2 = .ok p.1 } :=
  s.ops.entries.attachWith _ fun p hm => s.filed p.1 p.2 (KeyedMap.get_eq_some.2 hm)

/-- Take in another state's ops; also the number of ops that were new. -/
def merge (s other : GsetState) : GsetState × Nat := other.filedOps.foldl mergeStep (s, 0)

def sortedOps (s : GsetState) : List GsetOp :=
  sortWith (fun a b => compareComposite a.hlc a.writer b.hlc b.writer) s.ops.values

end GsetState

structure ObservationView where
  src : JsString
  dst : JsString
  tsBucket : Nat
  observed : Nat
  weight : Nat
  observers : Nat
deriving DecidableEq

/-- `${src}\0${dst}\0${tsBucket}`. -/
def viewKey (op : GsetOp) : JsString := op.src ++ 0 :: op.dst ++ 0 :: ascii (Nat.repr op.tsBucket)

def materializeGset (state : GsetState) : List ObservationView :=
  (state.sortedOps.foldl (fun (acc : KeyedMap JsString ObservationView) op =>
    match acc.get (viewKey op) with
    | none => acc.set (viewKey op)
        { src := op.src, dst := op.dst, tsBucket := op.tsBucket, observed := op.observed, weight := op.weight,
          observers := 1 }
    | some v => acc.set (viewKey op)
        { v with observed := v.observed + op.observed, weight := v.weight + op.weight, observers := v.observers + 1 })
    .empty).values

namespace GsetState

/-! ## What a state holds -/

/-- Ops with one composite key are one op. -/
def KeyUnique (S : Set GsetOp) : Prop := ∀ a ∈ S, ∀ b ∈ S, a.key = b.key → a = b

/-- The state has taken in the ops of `S`: exactly the encodable ones are filed. -/
def Holds (S : Set GsetOp) (s : GsetState) : Prop :=
  ∀ k op, s.ops.get k = some op ↔ op ∈ S ∧ opKey op = .ok k

theorem holds_empty : empty.Holds ∅ := by simp [Holds, empty]

theorem eq_of_opKey {S : Set GsetOp} (hc : KeyUnique S) {a b : GsetOp} (ha : a ∈ S) (hb : b ∈ S) {k : JsString}
    (hka : opKey a = .ok k) (hkb : opKey b = .ok k) : a = b := by
  obtain ⟨hea, hk⟩ := opKey_ok hka
  obtain ⟨heb, hk'⟩ := opKey_ok hkb
  exact hc a ha b hb (keyHex_inj hea heb (hk.symm.trans hk'))

theorem get_eq_none_of_has {s : GsetState} {k : JsString} (h : ¬ s.ops.has k = true) : s.ops.get k = none := by
  simpa [KeyedMap.has] using h

/-- Filing an op under a free key, or finding the key taken, adds the op to what the state holds. -/
theorem holds_insert {S : Set GsetOp} {s : GsetState} {op : GsetOp} {k : JsString} (hk : opKey op = .ok k)
    (hc : KeyUnique (insert op S)) (h : s.Holds S) :
    (if s.ops.has k then s else s.put k op hk).Holds (insert op S) := by
  have hsame : ∀ op' ∈ S, opKey op' = .ok k → op' = op := fun op' hm hk' =>
    eq_of_opKey hc (Set.mem_insert_of_mem _ hm) (Set.mem_insert _ _) hk' hk
  intro k' op'
  split
  case isTrue hhas =>
    obtain ⟨o, ho⟩ := Option.isSome_iff_exists.1 hhas
    obtain ⟨hoS, hok⟩ := (h k o).1 ho
    obtain rfl := hsame o hoS hok
    rw [h k' op', Set.insert_eq_of_mem hoS]
  case isFalse hhas =>
    have hfree := get_eq_none_of_has hhas
    simp only [put, KeyedMap.get_set]
    split
    case isTrue hkk =>
      subst hkk
      constructor
      · intro heq; cases heq; exact ⟨Set.mem_insert _ _, hk⟩
      · rintro ⟨rfl | hm, hk'⟩
        · rfl
        · rw [hsame op' hm hk']
    case isFalse hkk =>
      rw [h k' op']
      refine and_congr_left fun hk' => ⟨Set.mem_insert_of_mem _, ?_⟩
      rintro (rfl | hm)
      · rw [hk] at hk'; cases hk'; exact absurd rfl hkk
      · exact hm

/-- What `apply` does: a refused op leaves the caller's state, an accepted one is held. -/
theorem apply_cases (s : GsetState) (op : GsetOp) :
    (¬ op.hlc.Encodable ∧ ∃ e, s.apply op = .error e) ∨
      ∃ k, ∃ hk : opKey op = .ok k, s.apply op = .ok (if s.ops.has k then s else s.put k op hk) := by
  unfold apply
  split
  case h_1 e he =>
    refine .inl ⟨fun henc => ?_, e, rfl⟩
    rw [opKey_of_encodable henc] at he
    cases he
  case h_2 k hk => exact .inr ⟨k, hk, rfl⟩

theorem holds_apply {S : Set GsetOp} {s s' : GsetState} {op : GsetOp} (hc : KeyUnique (insert op S))
    (h : s.Holds S) (happly : s.apply op = .ok s') : s'.Holds (insert op S) := by
  rcases apply_cases s op with ⟨-, e, he⟩ | ⟨k, hk, he⟩ <;> rw [he] at happly <;> cases happly
  exact holds_insert hk hc h

/-- An op that cannot be encoded adds nothing. -/
theorem holds_refused {S : Set GsetOp} {s : GsetState} {op : GsetOp} {e : HlcError} (h : s.Holds S)
    (happly : s.apply op = .error e) : s.Holds (insert op S) := by
  rcases apply_cases s op with ⟨hn, -⟩ | ⟨k, hk, he⟩
  · intro k op'
    rw [h k op']
    refine and_congr_left fun hk' => ⟨Set.mem_insert_of_mem _, ?_⟩
    rintro (rfl | hm)
    · exact absurd (opKey_ok hk').1 hn
    · exact hm
  · rw [he] at happly; cases happly

theorem holds_mergeStep {S : Set GsetOp} {acc : GsetState × Nat}
    {p : { p : JsString × GsetOp // opKey p.2 = .ok p.1 }} (hc : KeyUnique (insert p.1.2 S)) (h : acc.1.Holds S) :
    (mergeStep acc p).1.Holds (insert p.1.2 S) := by
  have := holds_insert p.2 hc h
  unfold mergeStep
  split <;> simp_all

theorem holds_foldl_mergeStep {l : List { p : JsString × GsetOp // opKey p.2 = .ok p.1 }} {S : Set GsetOp}
    {acc : GsetState × Nat} (hc : KeyUnique (S ∪ {op | ∃ p ∈ l, p.1.2 = op})) (h : acc.1.Holds S) :
    (l.foldl mergeStep acc).1.Holds (S ∪ {op | ∃ p ∈ l, p.1.2 = op}) := by
  induction l generalizing S acc with
  | nil => simpa using h
  | cons p l ih =>
    have hset : S ∪ {op | ∃ q ∈ p :: l, q.1.2 = op} = insert p.1.2 S ∪ {op | ∃ q ∈ l, q.1.2 = op} := by
      ext op
      simp only [List.mem_cons, exists_eq_or_imp, Set.mem_union, Set.mem_insert_iff, Set.mem_ofPred_eq]
      rw [eq_comm (a := op)]
      tauto
    rw [hset] at hc ⊢
    exact ih hc (holds_mergeStep (fun a ha b hb => hc a (.inl ha) b (.inl hb)) h)

theorem mem_filedOps {s : GsetState} {op : GsetOp} :
    (∃ p ∈ s.filedOps, p.1.2 = op) ↔ ∃ k, s.ops.get k = some op := by
  simp only [filedOps, List.mem_attachWith, KeyedMap.get_eq_some]
  constructor
  · rintro ⟨p, hp, rfl⟩; exact ⟨p.1.1, hp⟩
  · rintro ⟨k, hk⟩; exact ⟨⟨(k, op), s.filed k op (KeyedMap.get_eq_some.2 hk)⟩, hk, rfl⟩

theorem holds_merge {S S' : Set GsetOp} {s other : GsetState} (hc : KeyUnique (S ∪ S')) (h : s.Holds S)
    (h' : other.Holds S') : (s.merge other).1.Holds (S ∪ S') := by
  have hsub : S ∪ {op | ∃ p ∈ other.filedOps, p.1.2 = op} ⊆ S ∪ S' := by
    refine Set.union_subset_union_right _ fun op hop => ?_
    obtain ⟨k, hk⟩ := mem_filedOps.1 hop
    exact ((h' k op).1 hk).1
  have hfold := @holds_foldl_mergeStep _ _ (s, 0)
    (fun a ha b hb => hc a (hsub ha) b (hsub hb)) h
  intro k op
  rw [merge, hfold k op]
  refine and_congr_left fun hk => ⟨fun hm => hsub hm, ?_⟩
  rintro (hm | hm)
  · exact .inl hm
  · exact .inr (mem_filedOps.2 ⟨k, (h' k op).2 ⟨hm, hk⟩⟩)

/-! ## The views only depend on the ops -/

theorem sortedOps_eq_of_holds {S : Set GsetOp} (hc : KeyUnique S) {s t : GsetState} (h : s.Holds S)
    (h' : t.Holds S) : s.sortedOps = t.sortedOps := by
  refine sortWith_congr (cmpOn GsetOp.key compareKey) (KeyedMap.values_perm fun k => ?_) ?_
  · refine Option.ext fun op => ?_
    rw [h k op, h' k op]
  · intro a ha b hb hab
    obtain ⟨ka, hka⟩ := KeyedMap.mem_values.1 ha
    obtain ⟨kb, hkb⟩ := KeyedMap.mem_values.1 hb
    exact hc a ((h ka a).1 hka).1 b ((h kb b).1 hkb).1 (Std.LawfulEqCmp.eq_of_compare hab)

theorem materializeGset_eq_of_holds {S : Set GsetOp} (hc : KeyUnique S) {s t : GsetState} (h : s.Holds S)
    (h' : t.Holds S) : materializeGset s = materializeGset t := by
  rw [materializeGset, materializeGset, sortedOps_eq_of_holds hc h h']

end GsetState

end Hayven.Crdt
