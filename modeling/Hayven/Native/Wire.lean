import Hayven.Lib.Framing
import Hayven.Lib.Text
/-!
# Batch wire format

The Rust serializer, `native/src/serialize/wire.rs`. A batch is a marker byte and
an envelope, raw or compressed; an envelope is the magic, two counts, a string
table and the op records. The decoder reads with a cursor and checks what it
reads; it does not look past the last op. Compression is a third-party crate, a
parameter here.
-/
open Hayven.Lib

namespace Hayven.Native

/-- `HYV1`. -/
def magic : Bytes := [0x48, 0x59, 0x56, 0x31]

def rawMarker : UInt8 := 0x00
def brotliMarker : UInt8 := 0x01
def brotliThreshold : Nat := 128

def opLww : UInt8 := 0x10
def opGset : UInt8 := 0x20
def opOrAdd : UInt8 := 0x30
def opOrRemove : UInt8 := 0x31

def hlcBytes : Nat := 12
def writerBytes : Nat := 16
def tagBytes : Nat := hlcBytes + writerBytes

inductive WireError where
  | badMagic (found : Bytes)
  | truncated (offset : Nat)
  | varintOverflow (offset : Nat)
  | lengthTooLarge (v offset : Nat)
  | stringIndex (index count : Nat)
  | unknownOp (kind : UInt8)
  | utf8
  | brotli
  | hlcReserved
  | badMarker (marker : UInt8)
deriving DecidableEq

structure HlcWire where
  wallMs : UInt64
  counter : UInt16
deriving DecidableEq

/-- A string is its list of scalar values. -/
inductive OpRecord where
  | lww (entityId : List Char) (contentHash body : Bytes) (hlc : HlcWire) (writer : Bytes)
  | gsetObserve (src dst : List Char) (tsBucket : UInt32) (observed weight : UInt16) (hlc : HlcWire) (writer : Bytes)
  | orAdd (claimId agent : List Char) (payloadCbor : Bytes) (hlc : HlcWire) (writer : Bytes)
  | orRemove (claimId : List Char) (observedTags : Bytes) (hlc : HlcWire) (writer : Bytes)
deriving DecidableEq

namespace OpRecord

def hlc : OpRecord → HlcWire
  | lww _ _ _ hlc _ | gsetObserve _ _ _ _ _ hlc _ | orAdd _ _ _ hlc _ | orRemove _ _ hlc _ => hlc

def writer : OpRecord → Bytes
  | lww _ _ _ _ writer | gsetObserve _ _ _ _ _ _ writer | orAdd _ _ _ _ writer | orRemove _ _ _ writer => writer

/-- The strings an op refers to, in the order they are interned. -/
def strings : OpRecord → List (List Char)
  | lww entityId .. => [entityId]
  | gsetObserve src dst .. => [src, dst]
  | orAdd claimId agent .. => [claimId, agent]
  | orRemove claimId .. => [claimId]

def kind : OpRecord → UInt8
  | lww .. => opLww
  | gsetObserve .. => opGset
  | orAdd .. => opOrAdd
  | orRemove .. => opOrRemove

end OpRecord

/-- The compressor and its inverse. -/
structure Brotli where
  compress : Bytes → Bytes
  decompress : Bytes → Option Bytes

/-! ## Encoder -/

/-- LEB128 of a `u64`. -/
def writeVarint (v : Nat) : Bytes := lebBytes 9 v

/-- Insertion-ordered, without repeats. -/
def intern (table : List (List Char)) (s : List Char) : List (List Char) :=
  if s ∈ table then table else table ++ [s]

def stringTable (ops : List OpRecord) : List (List Char) := (ops.flatMap OpRecord.strings).foldl intern []

def encodeHlc (hlc : HlcWire) : Bytes := beBytes 8 hlc.wallMs.toNat ++ beBytes 2 hlc.counter.toNat ++ [0, 0]

/-- The fields after kind, clock and writer. -/
def encodeFields (table : List (List Char)) : OpRecord → Except WireError Bytes
  | .lww entityId contentHash body _ _ =>
    if contentHash.length ≠ 32 then .error (.truncated contentHash.length)
    else .ok (writeVarint (table.idxOf entityId) ++ contentHash ++ writeVarint body.length ++ body)
  | .gsetObserve src dst tsBucket observed weight _ _ =>
    .ok (writeVarint (table.idxOf src) ++ writeVarint (table.idxOf dst) ++ beBytes 4 tsBucket.toNat ++
      beBytes 2 observed.toNat ++ beBytes 2 weight.toNat)
  | .orAdd claimId agent payloadCbor _ _ =>
    .ok (writeVarint (table.idxOf claimId) ++ writeVarint (table.idxOf agent) ++ writeVarint payloadCbor.length ++
      payloadCbor)
  | .orRemove claimId observedTags _ _ =>
    if observedTags.length % tagBytes ≠ 0 then .error (.truncated observedTags.length)
    else .ok (writeVarint (table.idxOf claimId) ++ writeVarint (observedTags.length / tagBytes) ++ observedTags)

def encodeOp (table : List (List Char)) (op : OpRecord) : Except WireError Bytes :=
  if op.writer.length ≠ writerBytes then .error (.truncated op.writer.length)
  else do
    let fields ← encodeFields table op
    return op.kind :: encodeHlc op.hlc ++ op.writer ++ fields

def encodeString (s : List Char) : Bytes := writeVarint (utf8Encode s).length ++ utf8Encode s

def encodeEnvelope (ops : List OpRecord) : Except WireError Bytes := do
  let table := stringTable ops
  let records ← ops.mapM (encodeOp table)
  return magic ++ writeVarint ops.length ++ writeVarint table.length ++ table.flatMap encodeString ++ records.flatten

def encodeBatch (brotli : Brotli) (ops : List OpRecord) : Except WireError Bytes := do
  let buf ← encodeEnvelope ops
  if buf.length < brotliThreshold then return rawMarker :: buf
  let compressed := brotli.compress buf
  if compressed.length ≥ buf.length then return rawMarker :: buf
  return brotliMarker :: compressed

/-! ## Decoder -/

/-- The bytes still to read and the offset of the first one. -/
structure Cursor where
  pos : Nat
  rest : Bytes
deriving DecidableEq

abbrev Reader := StateT Cursor (Except WireError)

def take (n : Nat) : Reader Bytes := fun cur =>
  if n > cur.rest.length then .error (.truncated cur.pos)
  else .ok (cur.rest.take n, ⟨cur.pos + n, cur.rest.drop n⟩)

/-- A `u64`: what the tenth byte holds above bit 63 is shifted out. -/
def readVarint : Reader Nat := fun cur =>
  match readLeb 9 cur.rest with
  | .torn => .error (.truncated (cur.pos + cur.rest.length))
  | .overlong _ => .error (.varintOverflow cur.pos)
  | .value v rest => .ok (v % 2 ^ 64, ⟨cur.pos + (cur.rest.length - rest.length), rest⟩)

/-- A length, count or index: at most `2 ^ 32 - 1`. -/
def readLenVarint : Reader Nat := do
  let start := (← get).pos
  let v ← readVarint
  if v < 2 ^ 32 then return v else throw (.lengthTooLarge v start)

def decodeHlc (bytes : Bytes) : Except WireError HlcWire :=
  if ofBe (bytes.drop 10) ≠ 0 then .error .hlcReserved
  else .ok ⟨(ofBe (bytes.take 8)).toUInt64, (ofBe ((bytes.drop 8).take 2)).toUInt16⟩

def lookupString (strings : List (List Char)) : Reader (List Char) := do
  let idx ← readLenVarint
  match strings[idx]? with
  | some s => return s
  | none => throw (.stringIndex idx strings.length)

/-- A length and that many bytes. -/
def takeCounted (unit : Nat) : Reader Bytes := do
  let count ← readLenVarint
  take (count * unit)

def decodeOp (strings : List (List Char)) : Reader OpRecord := do
  let kind ← take 1
  let hlc ← decodeHlc (← take hlcBytes)
  let writer ← take writerBytes
  match kind with
  | [0x10] =>
    let entityId ← lookupString strings
    let contentHash ← take 32
    let body ← takeCounted 1
    return .lww entityId contentHash body hlc writer
  | [0x20] =>
    let src ← lookupString strings
    let dst ← lookupString strings
    let tsBucket ← take 4
    let observed ← take 2
    let weight ← take 2
    return .gsetObserve src dst (ofBe tsBucket).toUInt32 (ofBe observed).toUInt16 (ofBe weight).toUInt16 hlc writer
  | [0x30] =>
    let claimId ← lookupString strings
    let agent ← lookupString strings
    let payloadCbor ← takeCounted 1
    return .orAdd claimId agent payloadCbor hlc writer
  | [0x31] =>
    let claimId ← lookupString strings
    let observedTags ← takeCounted tagBytes
    return .orRemove claimId observedTags hlc writer
  | other => throw (.unknownOp (other.headD 0))

/-- `n` times over. -/
def repeatRead {α : Type} : Nat → Reader α → Reader (List α)
  | 0, _ => return []
  | n + 1, r => do
    let x ← r
    let xs ← repeatRead n r
    return x :: xs

def decodeString : Reader (List Char) := do
  let bytes ← takeCounted 1
  match utf8DecodeStrict bytes with
  | some s => return s
  | none => throw .utf8

def decodeEnvelope : Reader (List OpRecord) := do
  let found ← take 4
  if found ≠ magic then throw (.badMagic found)
  let opCount ← readLenVarint
  let stCount ← readLenVarint
  let strings ← repeatRead stCount decodeString
  repeatRead opCount (decodeOp strings)

def decodeBatch (brotli : Brotli) (input : Bytes) : Except WireError (List OpRecord) :=
  match input with
  | [] => .error (.truncated 0)
  | marker :: rest =>
    if marker = rawMarker then (decodeEnvelope ⟨0, rest⟩).map Prod.fst
    else if marker = brotliMarker then
      match brotli.decompress rest with
      | none => .error .brotli
      | some body => (decodeEnvelope ⟨0, body⟩).map Prod.fst
    else .error (.badMarker marker)

/-! ## Segments -/

/-- `read_seg_len_varint`: at most five bytes and `2 ^ 32 - 1`. -/
def readSegLenVarint (bytes : Bytes) : LebRead :=
  match readLeb 4 bytes with
  | .value v rest => if v < 2 ^ 32 then .value v rest else .overlong v
  | r => r

def segLenPrefix : LengthPrefix where
  read := readSegLenVarint
  local_ {bytes rest v} h := by
    unfold readSegLenVarint at h
    split at h
    case h_1 v' rest' hread =>
      split at h
      case isTrue hv =>
        cases h
        obtain ⟨header, hne, rfl, hany⟩ := readLeb_value hread
        exact ⟨header, hne, rfl, fun rest' => by simp only [readSegLenVarint, hany rest', hv, if_true]⟩
      case isFalse => cases h
    case h_2 hno => exact absurd h (hno _ _)

/-- The loop of `decode_segment` over the frames it meets: a frame that does not decode is
an error, so is a length out of range, and a torn tail is not. -/
def decodeFrames (brotli : Brotli) (kind : TailKind) (tailOffset : Nat) : List Bytes → Except WireError (List OpRecord)
  | [] => match kind with
    | .overlong v => .error (.lengthTooLarge v tailOffset)
    | _ => .ok []
  | batch :: rest => do
    let ops ← decodeBatch brotli batch
    let more ← decodeFrames brotli kind tailOffset rest
    return ops ++ more

def decodeSegment (brotli : Brotli) (segment : Bytes) : Except WireError (List OpRecord) :=
  let s := split segLenPrefix segment
  decodeFrames brotli s.kind s.good.length s.bodies

end Hayven.Native
