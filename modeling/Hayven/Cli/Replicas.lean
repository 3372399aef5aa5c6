import Hayven.Cli.Transfers
import Hayven.Daemon.InboundRuns
/-!
# Where ops end up on a set of replicas

Runs of any number of replicas: local appends, accepted pushes and frames, whole syncs
between two of them, and single transfers of a sync that others come in between. The
route takes the segment from the path of a push, from the type byte of a frame and from
the first op of a batch, and never looks at the other ops.
-/
open Hayven.Lib Hayven.Crdt Hayven.Daemon

namespace Hayven.Cli

/-- A batch that came in, not by a sync: where it was stored and the ops it decodes to. -/
structure Arrival where
  type : CrdtType
  day : JsString
  ops : List WireOp

/-- Every op of the batch belongs where the batch was stored. -/
def Arrival.Uniform (a : Arrival) : Prop := ∀ op ∈ a.ops, op.BelongsIn a.type a.day

instance (a : Arrival) : Decidable a.Uniform := inferInstanceAs (Decidable (∀ op ∈ a.ops, _))

section Runs
variable {ι : Type} [DecidableEq ι] {bridge : WireBridge} {blake3 : Bytes → Bytes}

def storeLog (r : ι → Store) (i : ι) (log : OpLog) : ι → Store := Function.update r i ⟨log, (r i).cache⟩

/-- The day of a batch in the op log: that of its first op. -/
def dayOf (ops : List WireOp) : JsString :=
  match ops with
  | [] => []
  | first :: _ => utcDate first.hlc.wallMs

/-- The states that any order of these steps leads to, with the batches that came in. -/
inductive Run (bridge : WireBridge) (blake3 : Bytes → Bytes) : List Arrival → (ι → Store) → Prop
  | start {r : ι → Store} : (∀ i, Framed (r i).oplog) → (∀ i, Bucketed bridge (r i).oplog) → Run bridge blake3 [] r
  | local {as : List Arrival} {r : ι → Store} {i : ι} {type : CrdtType} {ops : List WireOp} {m : Rat} {batch : Bytes}
      {log : OpLog} : Run bridge blake3 as r → ops ≠ [] → bridge.encode ops = some batch →
      (r i).oplog.appendOps bridge type ops m = .ok log →
      Run bridge blake3 (⟨type, dayOf ops, (bridge.decode batch).getD []⟩ :: as) (storeLog r i log)
  | push {as : List Arrival} {r : ι → Store} {i : ι} {req : PushRequest} {host : PushInput} {type : CrdtType}
      {path : JsString} {ops : List WireOp} {log : OpLog} : Run bridge blake3 as r →
      req.type.bind crdtTypeOf = some type → req.path = some path →
      push bridge (r i).oplog req host = .ok (log, ops) →
      Run bridge blake3 (⟨type, path, ops⟩ :: as) (storeLog r i log)
  | frame {as : List Arrival} {r : ι → Store} {i : ι} {b : UInt8} {envelope : Bytes} {host : PushInput}
      {type : CrdtType} {ops : List WireOp} {log : OpLog} : Run bridge blake3 as r → byteType b = some type →
      applyInboundFrame bridge (r i).oplog (b :: envelope) host = some (log, ops) →
      Run bridge blake3 (⟨type, dayOf ops, ops⟩ :: as) (storeLog r i log)
  | transfer {as : List Arrival} {r : ι → Store} {i j : ι} {t : Target} {batch : Bytes} {host : PushInput}
      {ops : List WireOp} {log : OpLog} : Run bridge blake3 as r → batch ∈ segmentBatches (r j).oplog t →
      push bridge (r i).oplog (pushRequest t batch) host = .ok (log, ops) →
      Run bridge blake3 as (storeLog r i log)
  | sync {as : List Arrival} {r : ι → Store} {i j : ι} {inputs : Nat → PushInput} : Run bridge blake3 as r → i ≠ j →
      Run bridge blake3 as
        (Function.update
          (Function.update r i (runSync ⟨bridge, blake3, inputs⟩ (.start (r i) (r j))).1.ours) j
          (runSync ⟨bridge, blake3, inputs⟩ (.start (r i) (r j))).1.theirs)

/-! ## What the steps keep -/

/-- The logs are whole frames, and bucketed exactly if every batch that came in was uniform. -/
structure Kept (bridge : WireBridge) (as : List Arrival) (r : ι → Store) : Prop where
  framed : ∀ i, Framed (r i).oplog
  bucketed : (∀ i, Bucketed bridge (r i).oplog) ↔ ∀ a ∈ as, a.Uniform

theorem forall_storeLog {P : OpLog → Prop} {r : ι → Store} {i : ι} {log : OpLog} :
    (∀ j, P (storeLog r i log j).oplog) ↔ P log ∧ ∀ j, j ≠ i → P (r j).oplog := by
  constructor
  · intro h
    constructor
    · have hi := h i
      rwa [storeLog, Function.update_self] at hi
    · intro j hj
      have hj' := h j
      rwa [storeLog, Function.update_of_ne hj] at hj'
  · rintro ⟨hi, hrest⟩ j
    by_cases hj : j = i
    · subst hj
      rwa [storeLog, Function.update_self]
    · rw [storeLog, Function.update_of_ne hj]
      exact hrest j hj

theorem forall_split {P : OpLog → Prop} {r : ι → Store} (i : ι) :
    (∀ j, P (r j).oplog) ↔ P (r i).oplog ∧ ∀ j, j ≠ i → P (r j).oplog :=
  ⟨fun h => ⟨h i, fun j _ => h j⟩, fun ⟨hi, hrest⟩ j => if hj : j = i then hj ▸ hi else hrest j hj⟩

/-- A batch that comes in. -/
theorem kept_append {as : List Arrival} {r : ι → Store} (h : Kept bridge as r) (i : ι) {type : CrdtType}
    {day : JsString} {batch : Bytes} (hlen : batch.length < 2 ^ 32) (m : Rat) :
    Kept bridge (⟨type, day, (bridge.decode batch).getD []⟩ :: as)
      (storeLog r i ((r i).oplog.appendToFile type day (frameBytes batch) m)) where
  framed := forall_storeLog.2 ⟨framed_append (h.framed i) hlen m, fun j _ => h.framed j⟩
  bucketed := by
    rw [forall_storeLog, bucketed_append (h.framed i) hlen, List.forall_mem_cons, ← h.bucketed,
      forall_split (P := Bucketed bridge) i]
    exact ⟨fun ⟨⟨hi, hnew⟩, hrest⟩ => ⟨hnew, hi, hrest⟩, fun ⟨hnew, hi, hrest⟩ => ⟨⟨hi, hnew⟩, hrest⟩⟩

theorem kept_arrival {as : List Arrival} {r : ι → Store} (h : Kept bridge as r) (i : ι) {type : CrdtType}
    {day : JsString} {batch : Bytes} {ops : List WireOp} (hdec : bridge.decode batch = some ops)
    (hlen : batch.length ≤ maxPushBatchBytes) (m : Rat) :
    Kept bridge (⟨type, day, ops⟩ :: as) (storeLog r i ((r i).oplog.appendToFile type day (frameBytes batch) m)) := by
  have happend := @kept_append ι _ bridge as r h i type day batch (length_lt_of_push hlen) m
  rwa [hdec, Option.getD_some] at happend

theorem mem_storedOps {log : OpLog} {type : CrdtType} {day : JsString} {batch : Bytes}
    (hb : batch ∈ (split varintPrefix (log.bytes type day)).bodies) {op : WireOp}
    (hop : op ∈ (bridge.decode batch).getD []) : op ∈ storedOps bridge log type day := by
  rw [storedOps_eq]
  exact List.mem_flatMap.2 ⟨batch, hb, hop⟩

/-- A batch that another replica's segment holds, appended to the same segment. -/
theorem bucketed_move {x y : OpLog} (hx : Framed x) (hy : Bucketed bridge y) {type : CrdtType} {day : JsString}
    {batch : Bytes} (hb : batch ∈ (split varintPrefix (y.bytes type day)).bodies) (hlen : batch.length < 2 ^ 32)
    (m : Rat) : Bucketed bridge (x.appendToFile type day (frameBytes batch) m) ↔ Bucketed bridge x := by
  rw [bucketed_append hx hlen]
  exact and_iff_left fun op hop => hy type day op (mem_storedOps hb hop)

/-- Batches of a bucketed log keep frames and bucketing as they are. -/
theorem bucketed_applyMoves {x y : OpLog} {moves : List Move} (hx : Framed x) (hfrom : From y moves) :
    Framed (applyMoves x moves) ∧ (Bucketed bridge (applyMoves x moves) → Bucketed bridge x) ∧
      (Bucketed bridge y → Bucketed bridge x → Bucketed bridge (applyMoves x moves)) := by
  induction moves generalizing x with
  | nil => exact ⟨hx, id, fun _ => id⟩
  | cons m rest ih =>
    obtain ⟨hb, hlen⟩ := hfrom m List.mem_cons_self
    have hlen' := length_lt_of_push hlen
    have hframed : Framed (x.appendToFile m.type m.path (frameBytes m.batch) m.mtimeMs) :=
      framed_append hx hlen' m.mtimeMs
    obtain ⟨hf, hback, hforth⟩ := ih hframed fun m' hm' => hfrom m' (List.mem_cons_of_mem _ hm')
    exact ⟨hf, fun h => ((bucketed_append hx hlen' m.mtimeMs).1 (hback h)).1,
      fun hy hx' => hforth hy ((bucketed_move hx hy hb hlen' m.mtimeMs).2 hx')⟩

theorem kept_transfer {as : List Arrival} {r : ι → Store} (h : Kept bridge as r) {i j : ι} {t : Target}
    {batch : Bytes} (hb : batch ∈ segmentBatches (r j).oplog t) (hlen : batch.length ≤ maxPushBatchBytes) (m : Rat) :
    Kept bridge as (storeLog r i ((r i).oplog.appendToFile t.type t.path (frameBytes batch) m)) where
  framed := forall_storeLog.2 ⟨framed_append (h.framed i) (length_lt_of_push hlen) m, fun j _ => h.framed j⟩
  bucketed := by
    rw [← h.bucketed]
    constructor
    · intro hafter
      rw [forall_storeLog] at hafter
      obtain ⟨hi, hrest⟩ := hafter
      exact (forall_split i).2 ⟨((bucketed_append (h.framed i) (length_lt_of_push hlen) m).1 hi).1, hrest⟩
    · intro hbefore
      refine forall_storeLog.2 ⟨?_, fun k _ => hbefore k⟩
      exact (bucketed_move (h.framed i) (hbefore j) hb (length_lt_of_push hlen) m).2 (hbefore i)

theorem forall_update_two {P : OpLog → Prop} {r : ι → Store} {i j : ι} (hij : i ≠ j) {x y : Store} :
    (∀ k, P (Function.update (Function.update r i x) j y k).oplog) ↔
      P x.oplog ∧ P y.oplog ∧ ∀ k, k ≠ i → k ≠ j → P (r k).oplog := by
  constructor
  · intro h
    refine ⟨?_, ?_, fun k hi hj => ?_⟩
    · have hi := h i
      rwa [Function.update_of_ne hij, Function.update_self] at hi
    · have hj := h j
      rwa [Function.update_self] at hj
    · have hk := h k
      rwa [Function.update_of_ne hj, Function.update_of_ne hi] at hk
  · rintro ⟨hx, hy, hrest⟩ k
    by_cases hj : k = j
    · subst hj
      rwa [Function.update_self]
    · rw [Function.update_of_ne hj]
      by_cases hi : k = i
      · subst hi
        rwa [Function.update_self]
      · rw [Function.update_of_ne hi]
        exact hrest k hi hj

theorem kept_sync {as : List Arrival} {r : ι → Store} (h : Kept bridge as r) {i j : ι} (hij : i ≠ j)
    (host : SyncHost) : Kept bridge as
      (Function.update (Function.update r i (runSync host (.start (r i) (r j))).1.ours) j
        (runSync host (.start (r i) (r j))).1.theirs) := by
  obtain ⟨pulled, pushed, hours, hpulled, htheirs, hpushed⟩ := runSync_moves host (.start (r i) (r j))
  obtain ⟨hfi, hbacki, hforthi⟩ := @bucketed_applyMoves bridge _ _ _ (h.framed i) hpulled
  obtain ⟨hfj, hbackj, hforthj⟩ := @bucketed_applyMoves bridge _ _ _ (h.framed j) hpushed
  have hours : (runSync host (.start (r i) (r j))).1.ours.oplog = applyMoves (r i).oplog pulled := hours
  have htheirs : (runSync host (.start (r i) (r j))).1.theirs.oplog = applyMoves (r j).oplog pushed := htheirs
  refine ⟨(forall_update_two hij).2 ⟨hours ▸ hfi, htheirs ▸ hfj, fun k _ _ => h.framed k⟩, ?_⟩
  rw [← h.bucketed, forall_update_two (P := Bucketed bridge) hij, hours, htheirs]
  constructor
  · rintro ⟨hi, hj, hrest⟩ k
    by_cases hki : k = i
    · exact hki ▸ hbacki hi
    · by_cases hkj : k = j
      · exact hkj ▸ hbackj hj
      · exact hrest k hki hkj
  · intro hall
    have hi := hforthi (hall j) (hall i)
    -- what goes to the peer was read after the pulls
    have hsource : Bucketed bridge ((runSync host (.start (r i) (r j))).1.oplog .ours) := by
      show Bucketed bridge (runSync host (.start (r i) (r j))).1.ours.oplog
      rw [hours]
      exact hi
    exact ⟨hi, hforthj hsource (hall j), fun k _ _ => hall k⟩

theorem kept_run {as : List Arrival} {r : ι → Store} (h : Run bridge blake3 as r) : Kept bridge as r := by
  induction h with
  | start hframed hbucketed => exact ⟨hframed, iff_of_true hbucketed nofun⟩
  | @«local» as r i type ops m batch log _ hne henc happ ih =>
    rcases OpLog.appendOps_ok happ with ⟨hnil, -⟩ | ⟨first, rest, batch', rfl, henc', hlen, rfl⟩
    · exact absurd hnil hne
    · cases henc.symm.trans henc'
      exact kept_append ih i hlen m
  | push _ htype hpath hpush ih =>
    obtain ⟨type', path', batch, htype', hpath', -, hdec, hlen, rfl⟩ := push_ok hpush
    cases htype.symm.trans htype'
    cases hpath.symm.trans hpath'
    exact kept_arrival ih _ hdec hlen _
  | @frame as r i b envelope host type ops log _ hbyte hframe ih =>
    obtain ⟨b', envelope', type', hbytes, hbyte', hdec, hcase⟩ := applyInboundFrame_some hframe
    cases hbytes
    cases hbyte.symm.trans hbyte'
    rcases hcase with ⟨rfl, rfl⟩ | ⟨first, rest, rfl, hlen, rfl⟩
    -- a frame without ops is not stored
    · have hsame : storeLog r i (r i).oplog = r := Function.update_eq_self i r
      rw [hsame]
      refine ⟨ih.framed, ih.bucketed.trans ?_⟩
      rw [List.forall_mem_cons]
      exact (and_iff_right nofun).symm
    · exact kept_arrival ih _ hdec hlen _
  | transfer _ hb hpush ih =>
    obtain ⟨hlen, rfl⟩ := pushRequest_ok hpush
    exact kept_transfer ih hb hlen _
  | sync _ hij ih => exact kept_sync ih hij _

/-- Every op is in the directory of its type and the file of the UTC day of its clock. -/
def InPlace (bridge : WireBridge) (r : ι → Store) : Prop := ∀ i, Bucketed bridge (r i).oplog

/-- An op is stored under one segment name, whichever replicas hold it. -/
def OneName (bridge : WireBridge) (r : ι → Store) : Prop :=
  ∀ i j type type' day day' op, op ∈ storedOps bridge (r i).oplog type day →
    op ∈ storedOps bridge (r j).oplog type' day' → type = type' ∧ day = day'

/-- In every state of every run, each op is stored where it belongs, and so under one name
on all replicas, exactly when each batch that came in was uniform. -/
theorem inPlace_iff {as : List Arrival} {r : ι → Store} (h : Run bridge blake3 as r) :
    (InPlace bridge r ∧ OneName bridge r) ↔ ∀ a ∈ as, a.Uniform := by
  rw [← (kept_run h).bucketed]
  constructor
  · exact fun hall => hall.1
  · intro hb
    refine ⟨hb, fun i j type type' day day' op hop hop' => ?_⟩
    obtain ⟨htype, -, hday⟩ := hb i type day op hop
    obtain ⟨htype', -, hday'⟩ := hb j type' day' op hop'
    exact ⟨htype.symm.trans htype', hday.symm.trans hday'⟩

end Runs

/-! ## An observation in its place and out of it -/

def noOps : Unit → Store := fun _ => ⟨.empty, .empty⟩

theorem run_noOps : Run plainBridge Blake3.hash [] noOps :=
  .start (fun _ => framed_empty) fun _ _ _ _ hop => nomatch hop

theorem inPlace_pushed :
    InPlace plainBridge (storeLog noOps () (pushed 5)) ∧ OneName plainBridge (storeLog noOps () (pushed 5)) :=
  have htype : (pushObservation 5).type.bind crdtTypeOf = some .gset := crdtTypeOf_typeName .gset
  have hpush : push plainBridge (noOps ()).oplog (pushObservation 5) ⟨0, 0, 0⟩ = .ok (pushed 5, [observedAt 5]) :=
    push_observation (by decide +kernel)
  (inPlace_iff (.push run_noOps htype rfl hpush)).2 (by decide +kernel)

/-- A push of an observation of 1 January as a segment of the other type and the next day. -/
def misfiledPush : PushRequest := ⟨some (ascii "lww"), some (ascii "1970-01-02"), some (base64Of (observationAt 5))⟩

def misfiled : OpLog := OpLog.empty.appendToFile .lww (ascii "1970-01-02") (frameBytes (observationAt 5)) 0

/-- It is accepted, and the op is stored where it does not belong. -/
theorem push_misfiles :
    Run plainBridge Blake3.hash [⟨.lww, ascii "1970-01-02", [observedAt 5]⟩] (storeLog noOps () misfiled) ∧
      observedAt 5 ∈ storedOps plainBridge misfiled .lww (ascii "1970-01-02") ∧
      (observedAt 5).type = .gset ∧ utcDate (observedAt 5).hlc.wallMs = ascii "1970-01-01" := by
  refine ⟨?_, by decide +kernel⟩
  have htype : misfiledPush.type.bind crdtTypeOf = some .lww := crdtTypeOf_typeName .lww
  have hpush : push plainBridge (noOps ()).oplog misfiledPush ⟨0, 0, 0⟩ = .ok (misfiled, [observedAt 5]) :=
    push_eq_ok htype rfl rfl (by decide +kernel)
  exact .push run_noOps htype rfl hpush

end Hayven.Cli
