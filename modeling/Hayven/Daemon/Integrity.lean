import Hayven.Crdt.State
import Hayven.Lib.Blake3
import Hayven.Daemon.SyncRoutes
/-!
# Content hashes of node bodies

Pushes, live-sync frames and hydration all end in `applyWireOpInMemory`, which folds a
register op in without a look at its content hash. What is kept is right as long as
what comes in is.
-/
open Hayven.Lib Hayven.Crdt

namespace Hayven.Daemon

/-- The hash a register op carries is that of its value; other ops carry none. -/
def Genuine (blake3 : Bytes → Bytes) (wireOp : WireOp) : Prop :=
  ∀ op, wireOpToLww wireOp = some op → verifyLwwOp blake3 textEncode op = true

/-- Ops given to `applyWireOpInMemory` one after another, each with its answer. -/
def answers (text : NumberText) (s : CrdtState) (now : Nat → Int) : List WireOp → List (WireOp × Bool)
  | [] => []
  | op :: rest =>
    (op, (s.applyWireOpInMemory text (now 0) op).1) ::
      answers text (s.applyWireOpInMemory text (now 0) op).2 (fun i => now (i + 1)) rest

/-- The states that pushes, frames and hydrations lead to, with the ops that were applied and the answers. -/
inductive Fed (host : Host) : List (WireOp × Bool) → CrdtState → Prop
  | start {writer : WriterId} {log : OpLog} : Fed host [] (.start writer log)
  | push {fed : List (WireOp × Bool)} {s : CrdtState} {req : PushRequest} {input : PushInput} {log : OpLog}
      {ops : List WireOp} (now : Nat → Int) : Fed host fed s →
      push host.bridge s.oplog req input = .ok (log, ops) →
      Fed host (fed ++ answers host.text { s with oplog := log } now ops)
        (({ s with oplog := log } : CrdtState).applyOps host.text now ops)
  | frame {fed : List (WireOp × Bool)} {s : CrdtState} {bytes : Bytes} {input : PushInput} {log : OpLog}
      {ops : List WireOp} (now : Nat → Int) : Fed host fed s →
      applyInboundFrame host.bridge s.oplog bytes input = some (log, ops) →
      Fed host (fed ++ answers host.text { s with oplog := log } now ops)
        (({ s with oplog := log } : CrdtState).applyOps host.text now ops)
  -- a new process has the log and nothing in memory; it hydrates one type after another
  | restart {fed : List (WireOp × Bool)} {s : CrdtState} (writer : WriterId) : Fed host fed s →
      Fed host fed (.start writer s.oplog)
  | hydrate {fed : List (WireOp × Bool)} {s : CrdtState} (call : DecodeCall) (mtimeMs : JsString → Rat)
      (now : Nat → Int) (type : CrdtType) : Fed host fed s →
      Fed host (fed ++ answers host.text
          { s with oplog := ⟨Function.update s.oplog.dir type (hydrate call mtimeMs (s.oplog.dir type)).dir⟩ } now
          (hydrate call mtimeMs (s.oplog.dir type)).ops)
        (s.hydrateType host.text call mtimeMs now type).state

/-- Every register carries the hash of its value, and no op with another hash was merged. -/
structure HashesHold (blake3 : Bytes → Bytes) (fed : List (WireOp × Bool)) (s : CrdtState) : Prop where
  entries : ∀ e st, s.mem.lww.get e = some st → st.contentHash = blake3 (textEncode st.value)
  merged : ∀ p ∈ fed, p.2 = true → Genuine blake3 p.1

section Apply
variable {blake3 : Bytes → Bytes}

/-- Every register carries the hash of its value. -/
def Hashed (blake3 : Bytes → Bytes) (r : LwwRegistry JsString) : Prop :=
  ∀ e st, r.get e = some st → st.contentHash = blake3 (textEncode st.value)

theorem hashed_put {r : LwwRegistry JsString} (h : Hashed blake3 r) {st : LwwState JsString}
    (hst : st.contentHash = blake3 (textEncode st.value)) : Hashed blake3 (r.put st) := by
  intro e st' hget
  rw [LwwRegistry.get_put] at hget
  split at hget
  · cases hget
    exact hst
  · exact h e st' hget

/-- The winner of an entity was there before or is the op. -/
theorem hashed_apply {r r' : LwwRegistry JsString} (h : Hashed blake3 r) {op : LwwOp JsString}
    (hop : verifyLwwOp blake3 textEncode op = true) (happly : r.apply op = .ok r') : Hashed blake3 r' := by
  have hhash : op.contentHash = blake3 (textEncode op.value) := (of_decide_eq_true hop).symm
  rw [LwwRegistry.apply_eq] at happly
  cases happly
  refine hashed_put h ?_
  cases hprev : r.get op.entityId with
  | none => exact hhash
  | some prev =>
    dsimp only
    split
    · exact hhash
    · exact h op.entityId prev hprev

theorem hashed_deliver {s : MemState JsString} (h : Hashed blake3 s.lww) {wireOp : WireOp} {text : NumberText}
    (hop : Genuine blake3 wireOp) {op : CrdtOp JsString} (hlogical : toLogical text wireOp = some op) :
    Hashed blake3 (s.deliver op).lww := by
  cases op with
  | lww op =>
    have hlww : wireOpToLww wireOp = some op := by
      cases wireOp <;> simp_all [toLogical, wireOpToLww, wireOpToGset, wireOpToOr]
    simp only [MemState.deliver]
    split
    case h_1 lww happly => exact hashed_apply h (hop op hlww) happly
    case h_2 => exact h
  | gset op =>
    simp only [MemState.deliver]
    split <;> exact h
  | orset op =>
    simp only [MemState.deliver]
    split <;> exact h

/-- One op: registers stay hashed if it is genuine, and a register op is merged whatever its hash. -/
theorem applyWireOpInMemory_hashed (text : NumberText) (s : CrdtState) (now : Int) (wireOp : WireOp) :
    (Hashed blake3 s.mem.lww → Genuine blake3 wireOp →
        Hashed blake3 (s.applyWireOpInMemory text now wireOp).2.mem.lww) ∧
      ((wireOpToLww wireOp).isSome → (s.applyWireOpInMemory text now wireOp).1 = true) := by
  rcases s.applyWireOpInMemory_cases text now wireOp with ⟨hnot, heq⟩ | ⟨-, op, hlogical, heq⟩
  · rw [heq]
    refine ⟨fun h _ => h, fun hlww => absurd ?_ hnot⟩
    obtain ⟨op, hop⟩ := Option.isSome_iff_exists.1 hlww
    cases wireOp <;> cases hop
    exact ⟨_, rfl, trivial⟩
  · rw [heq]
    exact ⟨fun h hop => hashed_deliver h hop hlogical, fun _ => rfl⟩

/-- A run of ops: the same for each. -/
theorem applyOps_hashed (text : NumberText) (s : CrdtState) (now : Nat → Int) (ops : List WireOp) :
    (Hashed blake3 s.mem.lww → (∀ p ∈ answers text s now ops, Genuine blake3 p.1) →
        Hashed blake3 (s.applyOps text now ops).mem.lww) ∧
      ∀ p ∈ answers text s now ops, (wireOpToLww p.1).isSome → p.2 = true := by
  induction ops generalizing s now with
  | nil => exact ⟨fun h _ => h, nofun⟩
  | cons op rest ih =>
    obtain ⟨hkeep, hmerged⟩ := @applyWireOpInMemory_hashed blake3 text s (now 0) op
    obtain ⟨hrest, hmergedRest⟩ := ih (s.applyWireOpInMemory text (now 0) op).2 fun i => now (i + 1)
    constructor
    · intro h hall
      rw [answers, List.forall_mem_cons] at hall
      exact hrest (hkeep h hall.1) hall.2
    · rw [answers, List.forall_mem_cons]
      exact ⟨hmerged, hmergedRest⟩

end Apply

section Runs
variable {host : Host}

/-- What a run keeps: registers are hashed while only genuine ops came in, and every register op was merged. -/
theorem fed_hashed {fed : List (WireOp × Bool)} {s : CrdtState} (h : Fed host fed s) :
    ((∀ p ∈ fed, Genuine host.blake3 p.1) → Hashed host.blake3 s.mem.lww) ∧
      ∀ p ∈ fed, (wireOpToLww p.1).isSome → p.2 = true := by
  -- the steps that apply ops differ in where these come from and in the log
  have happly : ∀ {fed : List (WireOp × Bool)} {s s' : CrdtState} (now : Nat → Int) (ops : List WireOp),
      s'.mem = s.mem →
      (((∀ p ∈ fed, Genuine host.blake3 p.1) → Hashed host.blake3 s.mem.lww) ∧
        ∀ p ∈ fed, (wireOpToLww p.1).isSome → p.2 = true) →
      ((∀ p ∈ fed ++ answers host.text s' now ops, Genuine host.blake3 p.1) →
          Hashed host.blake3 (s'.applyOps host.text now ops).mem.lww) ∧
        ∀ p ∈ fed ++ answers host.text s' now ops, (wireOpToLww p.1).isSome → p.2 = true := by
    intro fed s s' now ops hmem ih
    obtain ⟨hkeep, hmerged⟩ := @applyOps_hashed host.blake3 host.text s' now ops
    simp only [List.forall_mem_append]
    refine ⟨fun ⟨hold, hnew⟩ => hkeep ?_ hnew, ih.2, hmerged⟩
    rw [hmem]
    exact ih.1 hold
  induction h with
  | start => exact ⟨fun _ _ _ hget => (nomatch hget), nofun⟩
  | push now _ _ ih => exact happly now _ rfl ih
  | frame now _ _ ih => exact happly now _ rfl ih
  | restart writer _ ih => exact ⟨fun _ _ _ hget => (nomatch hget), ih.2⟩
  | hydrate call mtimeMs now type _ ih => exact happly now _ rfl ih

/-- At every point of every run the hashes hold exactly when every register op that came in carries
the hash of its value. -/
theorem hashesHold_iff {fed : List (WireOp × Bool)} {s : CrdtState} (h : Fed host fed s) :
    HashesHold host.blake3 fed s ↔ ∀ p ∈ fed, Genuine host.blake3 p.1 := by
  obtain ⟨hkeep, hmerged⟩ := fed_hashed h
  constructor
  · intro hhold p hp op hop
    exact hhold.merged p hp (hmerged p hp (by rw [hop]; rfl)) op hop
  · intro hall
    exact ⟨hkeep hall, fun p hp _ => hall p hp⟩

end Runs

/-! ## A body and another under its hash -/

def nodeHost : Host := ⟨plainBridge, integerText, Blake3.hash⟩

def peerWriter : WriterId := replicatedWriter 7

/-- A body for one node, under the hash of some bytes. -/
def bodyOp (body hashed : Bytes) (wallMs : Nat) : WireOp :=
  .lww (ascii "node") (Blake3.hash hashed) body ⟨wallMs, 0⟩ peerWriter

def bodyBatch (op : WireOp) : Bytes := (plainBridge.encode [op]).getD []

def pushBody (op : WireOp) : PushRequest :=
  ⟨some (ascii "lww"), some (ascii "1970-01-01"), some (base64Of (bodyBatch op))⟩

/-- The log after such a push. -/
def storedBody (log : OpLog) (op : WireOp) : OpLog :=
  log.appendToFile .lww (ascii "1970-01-01") (frameBytes (bodyBatch op)) 0

/-- The daemon after such a push. -/
def pushedBody (s : CrdtState) (op : WireOp) : CrdtState :=
  ({ s with oplog := storedBody s.oplog op } : CrdtState).applyOps integerText (fun _ => 0) [op]

theorem fed_pushedBody {fed : List (WireOp × Bool)} {s : CrdtState} (h : Fed nodeHost fed s) {op : WireOp}
    (hpush : (push plainBridge s.oplog (pushBody op) ⟨0, 0, 0⟩).map Prod.snd = .ok [op]) :
    Fed nodeHost (fed ++ answers integerText { s with oplog := storedBody s.oplog op } (fun _ => 0) [op])
      (pushedBody s op) :=
  have htype : (pushBody op).type.bind crdtTypeOf = some .lww := crdtTypeOf_typeName .lww
  have hok : push plainBridge s.oplog (pushBody op) ⟨0, 0, 0⟩ = .ok (storedBody s.oplog op, [op]) :=
    push_eq_ok htype rfl rfl hpush
  .push (fun _ => 0) h hok

def bodyStart : CrdtState := .start peerWriter .empty

/-- The op that `makeLwwOp` would give. -/
def trueBody : WireOp := bodyOp [0x78] [0x78] 5

/-- A later op with another body under the same hash. -/
def falseBody : WireOp := bodyOp [0x79] [0x78] 6

theorem hashesHold_trueBody :
    HashesHold Blake3.hash
      ([] ++ answers integerText { bodyStart with oplog := storedBody .empty trueBody } (fun _ => 0) [trueBody])
      (pushedBody bodyStart trueBody) := by
  refine (hashesHold_iff (fed_pushedBody .start (by decide +kernel))).2 ?_
  intro p hp op hop
  cases List.mem_singleton.1 hp
  cases hop
  decide +kernel

/-- The tampered body is merged and wins over the true one. -/
theorem falseBody_wins :
    ¬ HashesHold Blake3.hash
      ([] ++ answers integerText { bodyStart with oplog := storedBody .empty trueBody } (fun _ => 0) [trueBody] ++
        answers integerText { pushedBody bodyStart trueBody with
          oplog := storedBody (pushedBody bodyStart trueBody).oplog falseBody } (fun _ => 0) [falseBody])
      (pushedBody (pushedBody bodyStart trueBody) falseBody) ∧
      Fed nodeHost
        ([] ++ answers integerText { bodyStart with oplog := storedBody .empty trueBody } (fun _ => 0) [trueBody] ++
          answers integerText { pushedBody bodyStart trueBody with
            oplog := storedBody (pushedBody bodyStart trueBody).oplog falseBody } (fun _ => 0) [falseBody])
        (pushedBody (pushedBody bodyStart trueBody) falseBody) := by
  refine ⟨fun h => ?_, fed_pushedBody (fed_pushedBody .start (by decide +kernel)) (by decide +kernel)⟩
  have hget : (pushedBody (pushedBody bodyStart trueBody) falseBody).mem.lww.get (ascii "node") =
      some ⟨ascii "node", ascii "y", Blake3.hash [0x78], ⟨6, 0⟩, peerWriter⟩ := by decide +kernel
  have hhash := h.entries _ _ hget
  revert hhash
  decide +kernel

end Hayven.Daemon
