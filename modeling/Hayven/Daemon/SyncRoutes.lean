import Hayven.Crdt.Merkle
/-!
# Inbound sync

`POST /api/sync/push` of `daemon/routes/sync.ts` and the binary frames of
`daemon/routes/ws.ts`, as far as they touch the op log. Both decode a batch first
and store it second. A request carries the bytes its base64 text stands for and
the length of that text; recording the peer's identity is left out.
-/
open Hayven.Lib Hayven.Crdt

namespace Hayven.Daemon

/-- `Math.ceil((maxPushBatchBytes * 4) / 3) + 4`. -/
def maxPushBase64Chars : Nat := (maxPushBatchBytes * 4 + 2) / 3 + 4

def maxBatchResponseBytes : Nat := 8 * 1024 * 1024

def typeName : CrdtType → JsString
  | .lww => ascii "lww"
  | .gset => ascii "gset"
  | .orset => ascii "orset"

/-- `isCrdtType`. -/
def crdtTypeOf (s : JsString) : Option CrdtType :=
  if s = ascii "lww" then some .lww else if s = ascii "gset" then some .gset
  else if s = ascii "orset" then some .orset else none

@[simp] theorem crdtTypeOf_typeName (type : CrdtType) : crdtTypeOf (typeName type) = some type := by
  cases type <;> decide

/-- What the host supplies while a batch is taken in: the readings of the route's clock and
of the op log's clock, and the modification time of the write. -/
structure PushInput where
  routeNow : Int
  logNow : Int
  mtimeMs : Rat

/-- A batch in base64. -/
structure Base64 where
  chars : Nat
  bytes : Bytes

/-- `buf.toString("base64")`. -/
def base64Of (bytes : Bytes) : Base64 := ⟨(bytes.length + 2) / 3 * 4, bytes⟩

/-- A request body; a field that is missing or not a string is `none`. -/
structure PushRequest where
  type : Option JsString
  path : Option JsString
  batch : Option Base64

/-- The log after the push and the ops it carried, or the status of the refusal. -/
def push (bridge : WireBridge) (log : OpLog) (req : PushRequest) (host : PushInput) :
    Except Nat (OpLog × List WireOp) :=
  match req.type.bind crdtTypeOf with
  | none => .error 400
  | some type =>
    match req.path with
    | none => .error 400
    | some path =>
      if ¬ isSafeSegmentName path then .error 400
      else if ¬ acceptableSegmentDay path host.routeNow then .error 400
      else
        match req.batch with
        | none => .error 400
        | some batch =>
          if batch.chars = 0 then .error 400
          else if batch.chars > maxPushBase64Chars then .error 413
          else
            match bridge.decode batch.bytes with
            | none => .error 400
            | some decoded =>
              match log.appendRawBatchToDate type path batch.bytes host.logNow host.mtimeMs with
              | .error .day => .error 400
              | .error .size => .error 413
              -- any other error is not a refusal: the handler throws
              | .error _ => .error 500
              | .ok log => .ok (log, decoded)

/-- The first byte of a frame. -/
def byteType (b : UInt8) : Option CrdtType :=
  if b = 0x10 then some .lww else if b = 0x20 then some .gset else if b = 0x30 then some .orset else none

/-- `applyInboundFrame`: the log after the frame and the ops it carried, or `none` for an error frame. -/
def applyInboundFrame (bridge : WireBridge) (log : OpLog) (bytes : Bytes) (host : PushInput) :
    Option (OpLog × List WireOp) :=
  match bytes with
  | [] => none
  | b :: envelope =>
    match byteType b with
    | none => none
    | some type =>
      if envelope.length = 0 then none
      else
        match bridge.decode envelope with
        | none => none
        | some [] => some (log, [])
        -- the day is that of the first op
        | some (first :: rest) =>
          match log.appendRawBatchToDate type (utcDate first.hlc.wallMs) envelope host.logNow host.mtimeMs with
          | .error _ => none
          | .ok log => some (log, first :: rest)

/-- The window of `POST /api/sync/batch`: the bytes from `offset`, and whether they reach the end. -/
def batchRoute (log : OpLog) (type : CrdtType) (path : JsString) (offset maxBytes : Nat) : Except Nat (Bytes × Bool) :=
  if ¬ isSafeSegmentName path then .error 400
  else if maxBytes = 0 then .error 400
  else
    match log.readSegmentRange type path offset (min maxBytes maxBatchResponseBytes) with
    | none => .error 404
    | some (bytes, size) => .ok (bytes, offset + bytes.length ≥ size)

/-! ## What an accepted batch does -/

/-- An accepted push stores its batch under its own path. -/
theorem push_ok {bridge : WireBridge} {log log' : OpLog} {req : PushRequest} {host : PushInput} {ops : List WireOp}
    (h : push bridge log req host = .ok (log', ops)) :
    ∃ type path batch, req.type.bind crdtTypeOf = some type ∧ req.path = some path ∧ req.batch = some batch ∧
      bridge.decode batch.bytes = some ops ∧ batch.bytes.length ≤ maxPushBatchBytes ∧
      log' = log.appendToFile type path (frameBytes batch.bytes) host.mtimeMs := by
  unfold push at h
  cases htype : req.type.bind crdtTypeOf with
  | none => simp [htype] at h
  | some type =>
    cases hpath : req.path with
    | none => simp [htype, hpath] at h
    | some path =>
      cases hbatch : req.batch with
      | none =>
        simp only [htype, hpath, hbatch] at h
        split at h <;> [cases h; (split at h <;> cases h)]
      | some batch =>
        simp only [htype, hpath, hbatch] at h
        split at h
        case isTrue => cases h
        split at h
        case isTrue => cases h
        split at h
        case isTrue => cases h
        split at h
        case isTrue => cases h
        split at h
        case h_1 => cases h
        case h_2 decoded hdec =>
          split at h
          case h_1 => cases h
          case h_2 => cases h
          case h_3 => cases h
          case h_4 log₁ happ =>
            cases h
            obtain ⟨hlen, -, -, hlog⟩ := OpLog.appendRawBatchToDate_ok happ
            exact ⟨type, path, batch, rfl, rfl, rfl, hdec, hlen, hlog⟩

/-- What a push stores, from the ops it answers with. -/
theorem push_eq_ok {bridge : WireBridge} {log : OpLog} {req : PushRequest} {host : PushInput} {type : CrdtType}
    {path : JsString} {batch : Base64} {ops : List WireOp} (htype : req.type.bind crdtTypeOf = some type)
    (hpath : req.path = some path) (hbatch : req.batch = some batch)
    (h : (push bridge log req host).map Prod.snd = .ok ops) :
    push bridge log req host = .ok (log.appendToFile type path (frameBytes batch.bytes) host.mtimeMs, ops) := by
  cases hp : push bridge log req host with
  | error status =>
    rw [hp] at h
    cases h
  | ok r =>
    rw [hp] at h
    cases h
    obtain ⟨type', path', batch', htype', hpath', hbatch', -, -, hlog⟩ := push_ok hp
    cases htype.symm.trans htype'
    cases hpath.symm.trans hpath'
    cases hbatch.symm.trans hbatch'
    exact congrArg _ (Prod.ext hlog rfl)

/-- An accepted frame without ops changes nothing; any other is stored under its type byte
and the day of its first op. -/
theorem applyInboundFrame_some {bridge : WireBridge} {log log' : OpLog} {bytes : Bytes} {host : PushInput}
    {ops : List WireOp} (h : applyInboundFrame bridge log bytes host = some (log', ops)) :
    ∃ b envelope type, bytes = b :: envelope ∧ byteType b = some type ∧ bridge.decode envelope = some ops ∧
      ((ops = [] ∧ log' = log) ∨ ∃ first rest, ops = first :: rest ∧ envelope.length ≤ maxPushBatchBytes ∧
        log' = log.appendToFile type (utcDate first.hlc.wallMs) (frameBytes envelope) host.mtimeMs) := by
  unfold applyInboundFrame at h
  cases bytes with
  | nil => cases h
  | cons b envelope =>
    dsimp only at h
    cases htype : byteType b with
    | none => simp [htype] at h
    | some type =>
      simp only [htype] at h
      split at h
      case isTrue => cases h
      split at h
      case h_1 => cases h
      case h_2 hdec =>
        cases h
        exact ⟨b, envelope, type, rfl, htype, hdec, .inl ⟨rfl, rfl⟩⟩
      case h_3 first rest hdec =>
        split at h
        case h_1 => cases h
        case h_2 log₁ happ =>
          cases h
          obtain ⟨hlen, -, -, hlog⟩ := OpLog.appendRawBatchToDate_ok happ
          exact ⟨b, envelope, type, rfl, htype, hdec, .inr ⟨first, rest, rfl, hlen, hlog⟩⟩

end Hayven.Daemon
