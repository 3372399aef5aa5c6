import Hayven.Crdt.SegmentDay
import Hayven.Crdt.Wire
/-!
# Op log

`crdt/oplog.ts`. One directory for each CRDT type, one segment file for each UTC
day, each file a run of length-prefixed batches. A file is its bytes and its
modification time, which the host sets at every write. Descriptors, flushing and
the retention warnings change no file and are left out.
-/
open Hayven.Lib

namespace Hayven.Crdt

inductive CrdtType where
  | lww
  | gset
  | orset
deriving DecidableEq, Repr

/-- `TYPES`. -/
def crdtTypes : List CrdtType := [.lww, .gset, .orset]

def maxPushBatchBytes : Nat := 8 * 1024 * 1024
def maxSegmentBytes : Nat := 512 * 1024 * 1024

/-- The longest typed array the runtime allocates. -/
def maxArrayLength : Nat := 2 ^ 32

structure SegmentFile where
  bytes : Bytes
  mtimeMs : Rat
deriving DecidableEq

/-- The segment files of one type, by day. -/
abbrev Directory := KeyedMap JsString SegmentFile

structure OpLog where
  dir : CrdtType → Directory

/-! ## Framing -/

def varintU32Max : Nat := 4294967295

/-- `encodeVarint`. After the first shift the value is a 32-bit number. -/
def encodeVarint (value : Nat) : Bytes :=
  if value < 0x80 then [value.toUInt8]
  else (value % 0x80 + 0x80).toUInt8 :: lebBytes 3 (value % 2 ^ 32 / 0x80)

/-- `readVarint`: torn is `null`, overlong a thrown error. -/
def readVarint (bytes : Bytes) : LebRead :=
  match readLeb 4 bytes with
  | .value v rest => if v ≤ varintU32Max then .value v rest else .overlong v
  | r => r

/-- The daemon and the serializer read one length. -/
theorem readVarint_eq : readVarint = Native.readSegLenVarint := by
  have hiff (v : Nat) : v ≤ varintU32Max ↔ v < 2 ^ 32 := by simp only [varintU32Max]; omega
  funext bytes
  rw [readVarint, Native.readSegLenVarint]
  cases readLeb 4 bytes with
  | value v rest => simp only [hiff]
  | torn => rfl
  | overlong v => rfl

def varintPrefix : LengthPrefix where
  read := readVarint
  local_ h := by
    rw [readVarint_eq] at h ⊢
    exact Native.segLenPrefix.local_ h

theorem varintPrefix_eq : varintPrefix = Native.segLenPrefix := by
  simp only [varintPrefix, readVarint_eq, Native.segLenPrefix]

/-- One batch as it is stored. -/
def frameBytes (batch : Bytes) : Bytes := encodeVarint batch.length ++ batch

theorem encodeVarint_eq {v : Nat} (h : v < 2 ^ 32) : encodeVarint v = lebBytes 4 v := by
  simp only [encodeVarint, lebBytes, Nat.mod_eq_of_lt h]

theorem readVarint_encodeVarint {v : Nat} (h : v < 2 ^ 32) (rest : Bytes) :
    readVarint (encodeVarint v ++ rest) = .value v rest := by
  have hv : v ≤ varintU32Max := by simp only [varintU32Max]; omega
  simp only [readVarint, encodeVarint_eq h, readLeb_lebBytes 4 v rest (by omega), hv, if_true]

theorem encodeVarint_ne_nil (v : Nat) : encodeVarint v ≠ [] := by
  unfold encodeVarint
  split <;> simp

theorem frameBytes_ne_nil (batch : Bytes) : frameBytes batch ≠ [] := fun h =>
  encodeVarint_ne_nil batch.length (List.append_eq_nil_iff.1 h).1

/-- A stored batch is cut off whole. -/
theorem split_frameBytes {batch : Bytes} (h : batch.length < 2 ^ 32) (rest : Bytes) :
    split varintPrefix (frameBytes batch ++ rest) =
      { split varintPrefix rest with
        frames := ⟨encodeVarint batch.length, batch⟩ :: (split varintPrefix rest).frames } :=
  split_frame varintPrefix rest fun more => readVarint_encodeVarint h more

/-! ## Appending -/

inductive AppendError where
  /-- `SegmentRejectedError` of kind `day`. -/
  | day
  /-- `SegmentRejectedError` of kind `size`. -/
  | size
  /-- The buffer for the frame cannot be allocated. -/
  | alloc
  /-- `bridge.encode` throws. -/
  | encode
deriving DecidableEq

namespace OpLog

def empty : OpLog := ⟨fun _ => .empty⟩

def file (log : OpLog) (type : CrdtType) (day : JsString) : Option SegmentFile := (log.dir type).get day

/-- The bytes of a segment; none are stored in a file that is not there. -/
def bytes (log : OpLog) (type : CrdtType) (day : JsString) : Bytes :=
  ((log.file type day).map SegmentFile.bytes).getD []

def setFile (log : OpLog) (type : CrdtType) (day : JsString) (f : SegmentFile) : OpLog :=
  ⟨Function.update log.dir type ((log.dir type).set day f)⟩

/-- Open for appending, write, close. -/
def appendToFile (log : OpLog) (type : CrdtType) (day : JsString) (buf : Bytes) (mtimeMs : Rat) : OpLog :=
  log.setFile type day ⟨log.bytes type day ++ buf, mtimeMs⟩

def appendBatchBytes (log : OpLog) (type : CrdtType) (date : JsString) (batch : Bytes) (mtimeMs : Rat) :
    Except AppendError OpLog :=
  if (frameBytes batch).length > maxArrayLength then .error .alloc
  else .ok (log.appendToFile type date (frameBytes batch) mtimeMs)

/-- `appendOps`: the day is that of the first op. -/
def appendOps (bridge : WireBridge) (log : OpLog) (type : CrdtType) (ops : List WireOp) (mtimeMs : Rat) :
    Except AppendError OpLog :=
  match ops with
  | [] => .ok log
  | first :: _ =>
    let date := utcDate first.hlc.wallMs
    match bridge.encode ops with
    | none => .error .encode
    | some batch => log.appendBatchBytes type date batch mtimeMs

/-- `appendRawBatchToDate`. The size of the frame's header is not counted. -/
def appendRawBatchToDate (log : OpLog) (type : CrdtType) (date : JsString) (batch : Bytes) (nowMs : Int)
    (mtimeMs : Rat) : Except AppendError OpLog :=
  if batch.length > maxPushBatchBytes then .error .size
  else if ¬ acceptableSegmentDay date nowMs then .error .day
  else if (log.bytes type date).length + batch.length > maxSegmentBytes then .error .size
  else log.appendBatchBytes type date batch mtimeMs

/-! ## Reading -/

/-- `listSegmentDays`. -/
def listSegmentDays (log : OpLog) (type : CrdtType) : List JsString := sortWith compare (log.dir type).keys

end OpLog

/-- The 28-byte key of an op, in hex. -/
def compositeKeyHex (op : WireOp) : Except HlcError JsString := do
  let hlcBytes ← encodeHlc op.hlc
  return bytesToHex (hlcBytes ++ op.writer.1)

/-- Sorted, without repeats. -/
def sortedKeys (keys : List JsString) : List JsString := sortWith compare keys.dedup

namespace OpLog

/-- `segmentCompositeKeys`: a segment that does not decode has no keys, an op whose
clock cannot be encoded makes the call throw. -/
def segmentCompositeKeys (bridge : WireBridge) (log : OpLog) (type : CrdtType) (day : JsString) :
    Except HlcError (List JsString) :=
  match log.file type day with
  | none => .ok []
  | some f =>
    match bridge.decodeSegment f.bytes with
    | none => .ok []
    | some decoded => do
      let keys ← decoded.mapM compositeKeyHex
      return sortedKeys keys

def readSegmentBytes (log : OpLog) (type : CrdtType) (day : JsString) : Option Bytes :=
  (log.file type day).map SegmentFile.bytes

/-- At most `maxBytes` bytes from `offset`, and the length of the whole segment. -/
def readSegmentRange (log : OpLog) (type : CrdtType) (day : JsString) (offset maxBytes : Nat) : Option (Bytes × Nat) :=
  (log.file type day).map fun f => ((f.bytes.drop offset).take maxBytes, f.bytes.length)

structure Stat where
  mtimeMs : Rat
  size : Nat
  /-- The last 16 bytes, or all there are, in hex. -/
  tailHex : JsString
deriving DecidableEq

def segmentStat (log : OpLog) (type : CrdtType) (day : JsString) : Option Stat :=
  (log.file type day).map fun f =>
    ⟨f.mtimeMs, f.bytes.length, bytesToHex (f.bytes.drop (f.bytes.length - min 16 f.bytes.length))⟩

end OpLog

/-- `splitSegmentBatches`; `none` if a length is out of range. -/
def splitSegmentBatches (bytes : Bytes) : Option (List Bytes) :=
  match (split varintPrefix bytes).kind with
  | .overlong _ => none
  | _ => some (split varintPrefix bytes).bodies

/-! ## What the operations do -/

namespace OpLog

theorem file_setFile (log : OpLog) (type type' : CrdtType) (day day' : JsString) (f : SegmentFile) :
    (log.setFile type day f).file type' day' = if type = type' ∧ day = day' then some f else log.file type' day' := by
  simp only [file, setFile, Function.update_apply]
  by_cases ht : type' = type
  · subst ht
    rw [if_pos rfl, KeyedMap.get_set]
    simp
  · rw [if_neg ht, if_neg fun h => ht h.1.symm]

theorem bytes_appendToFile (log : OpLog) (type type' : CrdtType) (day day' : JsString) (buf : Bytes) (m : Rat) :
    (log.appendToFile type day buf m).bytes type' day' =
      log.bytes type' day' ++ if type = type' ∧ day = day' then buf else [] := by
  rw [bytes, appendToFile, file_setFile]
  split
  case isTrue h => obtain ⟨rfl, rfl⟩ := h; rfl
  case isFalse => rw [List.append_nil]; rfl

/-- A successful append stores one frame and touches no other file. -/
theorem appendBatchBytes_ok {log log' : OpLog} {type : CrdtType} {date : JsString} {batch : Bytes} {m : Rat}
    (h : log.appendBatchBytes type date batch m = .ok log') :
    batch.length < 2 ^ 32 ∧ log' = log.appendToFile type date (frameBytes batch) m := by
  unfold appendBatchBytes at h
  split at h
  · cases h
  · have hpos := List.length_pos_iff.2 (encodeVarint_ne_nil batch.length)
    simp only [frameBytes, List.length_append, maxArrayLength] at *
    exact ⟨by omega, (Except.ok.inj h).symm⟩

theorem appendOps_ok {bridge : WireBridge} {log log' : OpLog} {type : CrdtType} {ops : List WireOp} {m : Rat}
    (h : log.appendOps bridge type ops m = .ok log') :
    (ops = [] ∧ log' = log) ∨ ∃ first rest batch, ops = first :: rest ∧ bridge.encode ops = some batch ∧
      batch.length < 2 ^ 32 ∧ log' = log.appendToFile type (utcDate first.hlc.wallMs) (frameBytes batch) m := by
  unfold appendOps at h
  split at h
  case h_1 => exact .inl ⟨rfl, (Except.ok.inj h).symm⟩
  case h_2 first rest =>
    dsimp only at h
    split at h
    · cases h
    case h_2 batch henc =>
      obtain ⟨hlen, rfl⟩ := appendBatchBytes_ok h
      exact .inr ⟨first, rest, batch, rfl, henc, hlen, rfl⟩

/-- What an accepted inbound batch must satisfy, and what it does. -/
theorem appendRawBatchToDate_ok {log log' : OpLog} {type : CrdtType} {date : JsString} {batch : Bytes} {now : Int}
    {m : Rat} (h : log.appendRawBatchToDate type date batch now m = .ok log') :
    batch.length ≤ maxPushBatchBytes ∧ acceptableSegmentDay date now = true ∧
      (log.bytes type date).length + batch.length ≤ maxSegmentBytes ∧
      log' = log.appendToFile type date (frameBytes batch) m := by
  unfold appendRawBatchToDate at h
  split at h
  case isTrue => cases h
  case isFalse hbatch =>
    split at h
    case isTrue => cases h
    case isFalse hday =>
      split at h
      case isTrue => cases h
      case isFalse hsize => exact ⟨by omega, not_not.1 hday, by omega, (appendBatchBytes_ok h).2⟩

end OpLog

theorem compositeKeyHex_of_encodable {op : WireOp} (h : op.hlc.Encodable) :
    compositeKeyHex op = .ok (keyHex op.key) := by
  simp only [compositeKeyHex, encodeHlc_of_encodable h]; rfl

theorem compositeKeyHex_of_not_encodable {op : WireOp} (h : ¬ op.hlc.Encodable) :
    ∃ e, compositeKeyHex op = .error e := by
  obtain ⟨e, he⟩ := encodeHlc_of_not_encodable h
  exact ⟨e, by simp only [compositeKeyHex, he]; rfl⟩

end Hayven.Crdt
