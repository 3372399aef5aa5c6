import Hayven.Daemon.SyncRoutes
import Hayven.Lib.Blake3
/-!
# What inbound data does to the Merkle tree

Runs of accepted pushes and frames, with snapshots taken in between. The log stays
whole batches that decode and the leaf cache stays right, so the one thing that can
go wrong is an op whose clock the key encoder refuses: the decoder lets any `u64`
through.
-/
open Hayven.Lib Hayven.Crdt

namespace Hayven.Daemon

/-- The snapshot can be taken, and each leaf is the hash of the keys of the ops in its segment. -/
def MerkleExact (bridge : WireBridge) (blake3 : Bytes → Bytes) (s : Store) : Prop :=
  ∃ snap cache, computeMerkle bridge blake3 s.oplog s.cache = .ok (snap, cache) ∧
    ∀ type, snap.leaves type = exactLeaves bridge blake3 s.oplog type

/-- A log that gives no trouble yet. -/
structure Sound (bridge : WireBridge) (blake3 : Bytes → Bytes) (s : Store) : Prop where
  stored : WellStored bridge s.oplog
  coherent : Coherent bridge blake3 s.oplog s.cache
  encodable : ∀ type day, ∀ op ∈ storedOps bridge s.oplog type day, op.hlc.Encodable

/-- The stores that accepted pushes and frames lead to, with the batches they carried. -/
inductive Inbound (bridge : WireBridge) (blake3 : Bytes → Bytes) : List (List WireOp) → Store → Prop
  | start {s : Store} : Sound bridge blake3 s → Inbound bridge blake3 [] s
  | push {batches : List (List WireOp)} {s : Store} {req : PushRequest} {host : PushInput} {log : OpLog}
      {ops : List WireOp} : Inbound bridge blake3 batches s → push bridge s.oplog req host = .ok (log, ops) →
      Inbound bridge blake3 (ops :: batches) ⟨log, s.cache⟩
  | frame {batches : List (List WireOp)} {s : Store} {bytes : Bytes} {host : PushInput} {log : OpLog}
      {ops : List WireOp} : Inbound bridge blake3 batches s →
      applyInboundFrame bridge s.oplog bytes host = some (log, ops) →
      Inbound bridge blake3 (ops :: batches) ⟨log, s.cache⟩
  | merkle {batches : List (List WireOp)} {s : Store} {snap : MerkleSnapshot} {cache : MerkleCache} :
      Inbound bridge blake3 batches s → computeMerkle bridge blake3 s.oplog s.cache = .ok (snap, cache) →
      Inbound bridge blake3 batches ⟨s.oplog, cache⟩

section Runs
variable {bridge : WireBridge} {blake3 : Bytes → Bytes}

/-- What a run keeps: the stored ops can all be encoded exactly when those of the accepted batches can. -/
structure Tracked (bridge : WireBridge) (blake3 : Bytes → Bytes) (batches : List (List WireOp)) (s : Store) :
    Prop where
  stored : WellStored bridge s.oplog
  coherent : Coherent bridge blake3 s.oplog s.cache
  encodable : (∀ type day, ∀ op ∈ storedOps bridge s.oplog type day, op.hlc.Encodable) ↔
    ∀ ops ∈ batches, ∀ op ∈ ops, op.hlc.Encodable

theorem sound_empty (bridge : WireBridge) (blake3 : Bytes → Bytes) : Sound bridge blake3 ⟨.empty, .empty⟩ where
  stored _ _ := ⟨rfl, fun _ hf => nomatch hf⟩
  coherent := coherent_empty
  encodable _ _ _ hop := nomatch hop

theorem length_lt_of_push {batch : Bytes} (h : batch.length ≤ maxPushBatchBytes) : batch.length < 2 ^ 32 := by
  simp only [maxPushBatchBytes] at h
  omega

theorem tracked_append {batches : List (List WireOp)} {s : Store} (h : Tracked bridge blake3 batches s)
    {batch : Bytes} {ops : List WireOp} (hlen : batch.length ≤ maxPushBatchBytes)
    (hdec : bridge.decode batch = some ops) (type : CrdtType) (day : JsString) (m : Rat) :
    Tracked bridge blake3 (ops :: batches) ⟨s.oplog.appendToFile type day (frameBytes batch) m, s.cache⟩ := by
  have hlen' := length_lt_of_push hlen
  refine ⟨wellStored_append h.stored hlen' hdec m, coherent_append h.coherent m, ?_⟩
  simp only [List.forall_mem_cons, ← h.encodable, storedOps_append h.stored hlen' hdec]
  constructor
  · intro henc
    constructor
    · intro op hop
      exact henc type day op (by simp [hop])
    · intro type' day' op hop
      exact henc type' day' op (List.mem_append_left _ hop)
  · rintro ⟨hops, henc⟩ type' day' op hop
    rcases List.mem_append.1 hop with hop | hop
    · exact henc type' day' op hop
    · split at hop
      · exact hops op hop
      · cases hop

theorem coherent_computeMerkle {s : Store} (hb : bridge.SegmentWise) (hlog : WellStored bridge s.oplog)
    (hc : Coherent bridge blake3 s.oplog s.cache) {snap : MerkleSnapshot} {cache : MerkleCache}
    (h : computeMerkle bridge blake3 s.oplog s.cache = .ok (snap, cache)) : Coherent bridge blake3 s.oplog cache := by
  by_cases henc : ∀ type day, ∀ op ∈ storedOps bridge s.oplog type day, op.hlc.Encodable
  · obtain ⟨cache', hok, hc'⟩ := computeMerkle_ok hc fun type =>
      freshLeaves_of_encodable blake3 hb hlog (henc type) (s.oplog.listSegmentDays type)
    cases h.symm.trans hok
    exact hc'
  · simp only [not_forall] at henc
    obtain ⟨type, day, op, hop, hnot⟩ := henc
    obtain ⟨e, he⟩ := freshLeaves_error blake3 hb hlog hop hnot (mem_listSegmentDays hop)
    obtain ⟨e', he'⟩ := computeMerkle_error hc he
    cases h.symm.trans he'

theorem tracked_inbound (hb : bridge.SegmentWise) {batches : List (List WireOp)} {s : Store}
    (h : Inbound bridge blake3 batches s) : Tracked bridge blake3 batches s := by
  induction h with
  | start hs =>
    refine ⟨hs.stored, hs.coherent, ?_⟩
    simp only [List.not_mem_nil, false_implies, implies_true, iff_true]
    exact hs.encodable
  | push _ hpush ih =>
    obtain ⟨type, path, batch, -, -, -, hdec, hlen, rfl⟩ := push_ok hpush
    exact tracked_append ih hlen hdec type path _
  | frame _ hframe ih =>
    obtain ⟨b, envelope, type, -, -, hdec, hcase⟩ := applyInboundFrame_some hframe
    rcases hcase with ⟨rfl, rfl⟩ | ⟨first, rest, -, hlen, rfl⟩
    · refine ⟨ih.stored, ih.coherent, ?_⟩
      simp only [List.forall_mem_cons, List.not_mem_nil, false_implies, implies_true, true_and]
      exact ih.encodable
    · exact tracked_append ih hlen hdec type _ _
  | merkle _ hmerkle ih => exact ⟨ih.stored, coherent_computeMerkle hb ih.stored ih.coherent hmerkle, ih.encodable⟩

theorem inbound_decoded {brotli : Native.Brotli} {text : NumberText} {batches : List (List WireOp)} {s : Store}
    (h : Inbound (nativeBridge brotli text) blake3 batches s) {ops : List WireOp} (hops : ops ∈ batches) {op : WireOp}
    (hop : op ∈ ops) : op.hlc.Encodable ↔ op.hlc.wallMs ≤ maxSafeInteger := by
  induction h with
  | start _ => cases hops
  | push _ hpush ih =>
    rcases List.mem_cons.1 hops with rfl | hops
    · obtain ⟨-, -, batch, -, -, -, hdec, -, -⟩ := push_ok hpush
      exact encodable_of_decode hdec hop
    · exact ih hops
  | frame _ hframe ih =>
    rcases List.mem_cons.1 hops with rfl | hops
    · obtain ⟨-, envelope, -, -, -, hdec, -⟩ := applyInboundFrame_some hframe
      exact encodable_of_decode hdec hop
    · exact ih hops
  | merkle _ _ ih => exact ih hops

end Runs

/-- A batch of one observation. -/
def observationAt (wallMs : Nat) : Bytes :=
  [0, 0x48, 0x59, 0x56, 0x31, 1, 2, 1, 0x61, 1, 0x62, 0x20] ++ beBytes 8 wallMs ++ [0, 0, 0, 0,
    7, 7, 7, 7, 7, 7, 7, 7, 7, 7, 7, 7, 7, 7, 7, 7, 0, 1, 0, 0, 0, 0, 0, 1, 0, 1]

def pushObservation (wallMs : Nat) : PushRequest :=
  ⟨some (ascii "gset"), some (ascii "1970-01-01"), some (base64Of (observationAt wallMs))⟩

def observedAt (wallMs : Nat) : WireOp :=
  .gsetObserve (ascii "a") (ascii "b") 0 1 1 ⟨wallMs, 0⟩ (replicatedWriter 7)

/-- The log after such a push. -/
def pushed (wallMs : Nat) : OpLog :=
  OpLog.empty.appendToFile .gset (ascii "1970-01-01") (frameBytes (observationAt wallMs)) 0

theorem push_observation {wallMs : Nat} {ops : List WireOp}
    (h : (push plainBridge .empty (pushObservation wallMs) ⟨0, 0, 0⟩).map Prod.snd = .ok ops) :
    push plainBridge .empty (pushObservation wallMs) ⟨0, 0, 0⟩ = .ok (pushed wallMs, ops) :=
  have htype : (pushObservation wallMs).type.bind crdtTypeOf = some .gset := crdtTypeOf_typeName .gset
  push_eq_ok htype rfl rfl h

end Hayven.Daemon
