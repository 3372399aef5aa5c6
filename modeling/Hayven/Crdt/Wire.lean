import Hayven.Crdt.Gset
import Hayven.Crdt.Lww
import Hayven.Crdt.Orset
import Hayven.Lib.JsonText
import Hayven.Native.Wire
/-!
# Wire ops and the bridge

`crdt/wire.ts` and the converters of `crdt/state.ts`. A logical op becomes a wire
op, text going through `TextEncoder` and claim payloads through JSON as well; on
the way back every field is coerced. The bridge hands wire ops to the Rust
serializer and back as JSON.
-/
open Hayven.Lib

namespace Hayven.Crdt

inductive WireOp where
  | lww (entityId : JsString) (contentHash body : Bytes) (hlc : Hlc) (writer : WriterId)
  | gsetObserve (src dst : JsString) (tsBucket observed weight : Nat) (hlc : Hlc) (writer : WriterId)
  | orAdd (claimId agent : JsString) (payloadCbor : Bytes) (hlc : Hlc) (writer : WriterId)
  | orRemove (claimId : JsString) (observedTags : Bytes) (hlc : Hlc) (writer : WriterId)
deriving DecidableEq

namespace WireOp

def hlc : WireOp → Hlc
  | lww _ _ _ hlc _ | gsetObserve _ _ _ _ _ hlc _ | orAdd _ _ _ hlc _ | orRemove _ _ hlc _ => hlc

def writer : WireOp → WriterId
  | lww _ _ _ _ writer | gsetObserve _ _ _ _ _ _ writer | orAdd _ _ _ _ writer | orRemove _ _ _ writer => writer

/-- The composite key of an op. -/
def key (op : WireOp) : Hlc × WriterId := (op.hlc, op.writer)

end WireOp

/-! ## Logical ops to wire ops -/

def lwwToWire (op : LwwOp JsString) : WireOp :=
  .lww op.entityId op.contentHash (textEncode op.value) op.hlc op.writer

def gsetToWire (op : GsetOp) : WireOp :=
  .gsetObserve op.src op.dst op.tsBucket op.observed op.weight op.hlc op.writer

/-- `op.payload` as the value `JSON.stringify` walks. -/
def ClaimPayload.toJson (p : ClaimPayload) : Json :=
  .obj [(ascii "intent", .str p.intent), (ascii "scope", .arr (p.scope.map .str)),
    (ascii "fingerprint", .str p.fingerprint), (ascii "createdMs", .num p.createdMs), (ascii "ttlMs", .num p.ttlMs)]

/-- White space that `parseInt` skips. -/
def isStrWhiteSpace (u : UInt16) : Bool :=
  (0x09 ≤ u && u ≤ 0x0D) || u = 0x20 || u = 0xA0 || u = 0x1680 || (0x2000 ≤ u && u ≤ 0x200A) || u = 0x2028 ||
    u = 0x2029 || u = 0x202F || u = 0x205F || u = 0x3000 || u = 0xFEFF

/-- `parseInt` of two characters to the base 16, as far as it gives a byte: `NaN` and
a negative number do not survive the bridge. -/
def parseIntPair (a b : UInt16) : Option UInt8 :=
  match hexValue a, hexValue b with
  | some x, some y => some (x * 16 + y).toUInt8
  | some x, none => if x = 0 ∧ (b = 0x78 ∨ b = 0x58) then none else some x.toUInt8
  | none, some y =>
    if isStrWhiteSpace a ∨ a = 0x2B then some y.toUInt8 else if a = 0x2D ∧ y = 0 then some 0 else none
  | none, none => none

/-- The bytes of one tag. -/
def parseTag : Tag → Option Bytes
  | a :: b :: rest => do
    let byte ← parseIntPair a b
    let bytes ← parseTag rest
    return byte :: bytes
  | _ => some []

def tagToWire (tag : Tag) : Option Bytes := if tag.length ≠ 56 then none else parseTag tag

/-- `none` if a tag is not 56 hex characters. -/
def orToWire (rt : NumberText) : OrOp → Option WireOp
  | .add op => some (.orAdd op.claimId op.agent (textEncode (stringify rt op.payload.toJson)) op.hlc op.writer)
  | .remove op => do
    let tagBytes ← op.observedTags.mapM tagToWire
    return .orRemove op.claimId tagBytes.flatten op.hlc op.writer

/-! ## Wire ops to logical ops -/

def wireOpToLww : WireOp → Option (LwwOp JsString)
  | .lww entityId contentHash body hlc writer => some ⟨entityId, textDecode body, contentHash, hlc, writer⟩
  | _ => none

def wireOpToGset : WireOp → Option GsetOp
  | .gsetObserve src dst tsBucket observed weight hlc writer =>
    some ⟨src, dst, tsBucket, observed, weight, hlc, writer⟩
  | _ => none

/-- `String(parsed.key ?? "")`. -/
def stringField (rt : NumberText) (parsed : Json) (key : String) : Option JsString :=
  Json.toJsString rt (Json.fieldOr key (.str []) parsed)

/-- `Number(parsed.key ?? 0)`. -/
def numberField (rt : NumberText) (parsed : Json) (key : String) : Option JsNumber :=
  Json.toNumber rt (Json.fieldOr key (.num (.fin 0)) parsed)

/-- The body of the `try`: `none` if it throws. -/
def payloadOfJson (rt : NumberText) (parsed : Json) : Option ClaimPayload := do
  let intent ← stringField rt parsed "intent"
  let scope ← match parsed.field "scope" with
    | some (.arr items) => items.mapM (Json.toJsString rt)
    | _ => some []
  let fingerprint ← stringField rt parsed "fingerprint"
  let createdMs ← numberField rt parsed "createdMs"
  let ttlMs ← numberField rt parsed "ttlMs"
  return { intent, scope, fingerprint, createdMs, ttlMs }

/-- Fields of `null` cannot be read; those of anything else can. -/
def decodePayload (rt : NumberText) (payloadCbor : Bytes) : Option ClaimPayload :=
  match parseJson (textDecode payloadCbor) with
  | none | some .null => none
  | some parsed => payloadOfJson rt parsed

/-- The complete 28-byte tags, in hex. -/
def tagsOfBytes (bytes : Bytes) : List Tag :=
  (List.range (bytes.length / compositeBytes)).map fun i =>
    bytesToHex ((bytes.drop (i * compositeBytes)).take compositeBytes)

def wireOpToOr (rt : NumberText) : WireOp → Option OrOp
  | .orAdd claimId agent payloadCbor hlc writer =>
    (decodePayload rt payloadCbor).map fun payload => .add ⟨claimId, agent, payload, hlc, writer⟩
  | .orRemove claimId observedTags hlc writer => some (.remove ⟨claimId, tagsOfBytes observedTags, hlc, writer⟩)
  | _ => none

/-! ## The bridge -/

/-- The serializer as the op log sees it; `none` is a thrown error. -/
structure WireBridge where
  encode : List WireOp → Option Bytes
  decode : Bytes → Option (List WireOp)
  decodeSegment : Bytes → Option (List WireOp)

/-- Every frame of a segment up to its torn tail, or an error if one does not decode or
a length is out of range. -/
def decodeFrames (decode : Bytes → Option (List WireOp)) (s : Split) : Option (List WireOp) :=
  match s.kind with
  | .overlong _ => none
  | _ => (s.bodies.mapM decode).map List.flatten

/-- `decodeSegment` and `decode` agree. -/
def WireBridge.SegmentWise (b : WireBridge) : Prop :=
  ∀ bytes, b.decodeSegment bytes = decodeFrames b.decode (split Native.segLenPrefix bytes)

/-! ## The native bridge -/

/-- `JSON.stringify` of a number read back as an unsigned integer of the given width. -/
def jsonUint (rt : NumberText) (bits n : Nat) : Option Nat :=
  let text := rt.print n
  if text ≠ [] ∧ text.all isDigit ∧ decValue text < 2 ^ bits then some (decValue text) else none

/-- Rust strings hold scalar values, so a lone surrogate is refused. -/
def jsonString (s : JsString) : Option (List Char) := if wellFormed s then some (ofUtf16 s) else none

def jsonHlc (rt : NumberText) (hlc : Hlc) : Option Native.HlcWire := do
  let wallMs ← jsonUint rt 64 hlc.wallMs
  let counter ← jsonUint rt 16 hlc.counter
  return ⟨wallMs.toUInt64, counter.toUInt16⟩

def toRecord (rt : NumberText) : WireOp → Option Native.OpRecord
  | .lww entityId contentHash body hlc writer => do
    return .lww (← jsonString entityId) contentHash body (← jsonHlc rt hlc) writer.1
  | .gsetObserve src dst tsBucket observed weight hlc writer => do
    return .gsetObserve (← jsonString src) (← jsonString dst) (← jsonUint rt 32 tsBucket).toUInt32
      (← jsonUint rt 16 observed).toUInt16 (← jsonUint rt 16 weight).toUInt16 (← jsonHlc rt hlc) writer.1
  | .orAdd claimId agent payloadCbor hlc writer => do
    return .orAdd (← jsonString claimId) (← jsonString agent) payloadCbor (← jsonHlc rt hlc) writer.1
  | .orRemove claimId observedTags hlc writer => do
    return .orRemove (← jsonString claimId) observedTags (← jsonHlc rt hlc) writer.1

/-- `JSON.parse` rounds a `u64` to a double. -/
def ofHlcWire (hlc : Native.HlcWire) : Hlc := ⟨roundNat hlc.wallMs.toNat, hlc.counter.toNat⟩

/-- The decoder takes 16 bytes for a writer, so no record it returns is refused here. -/
def ofWriter (bytes : Bytes) : Option WriterId := if h : bytes.length = writerBytes then some ⟨bytes, h⟩ else none

def ofRecord : Native.OpRecord → Option WireOp
  | .lww entityId contentHash body hlc writer => do
    return .lww (toUtf16 entityId) contentHash body (ofHlcWire hlc) (← ofWriter writer)
  | .gsetObserve src dst tsBucket observed weight hlc writer => do
    return .gsetObserve (toUtf16 src) (toUtf16 dst) tsBucket.toNat observed.toNat weight.toNat (ofHlcWire hlc)
      (← ofWriter writer)
  | .orAdd claimId agent payloadCbor hlc writer => do
    return .orAdd (toUtf16 claimId) (toUtf16 agent) payloadCbor (ofHlcWire hlc) (← ofWriter writer)
  | .orRemove claimId observedTags hlc writer => do
    return .orRemove (toUtf16 claimId) observedTags (ofHlcWire hlc) (← ofWriter writer)

def ofRecords (rs : Except Native.WireError (List Native.OpRecord)) : Option (List WireOp) :=
  rs.toOption.bind fun rs => rs.mapM ofRecord

/-- `openWireBridge`, when every call to the serializer succeeds in running it. -/
def nativeBridge (brotli : Native.Brotli) (rt : NumberText) : WireBridge where
  encode ops := do
    let rs ← ops.mapM (toRecord rt)
    (Native.encodeBatch brotli rs).toOption
  decode bytes := ofRecords (Native.decodeBatch brotli bytes)
  decodeSegment bytes := ofRecords (Native.decodeSegment brotli bytes)

theorem ofRecord_hlc {r : Native.OpRecord} {op : WireOp} (h : ofRecord r = some op) : op.hlc = ofHlcWire r.hlc := by
  cases r <;>
  · simp only [ofRecord, Option.pure_def, Option.bind_eq_bind, Option.bind_eq_some_iff] at h
    obtain ⟨w, -, h⟩ := h
    cases h
    rfl

theorem mem_ofRecords {rs : List Native.OpRecord} {ops : List WireOp} (h : rs.mapM ofRecord = some ops) {op : WireOp}
    (hop : op ∈ ops) : ∃ r, ofRecord r = some op := by
  induction rs generalizing ops with
  | nil =>
    cases h
    cases hop
  | cons r rs ih =>
    rw [List.mapM_cons] at h
    obtain ⟨x, hx, h⟩ := Option.bind_eq_some_iff.1 h
    obtain ⟨xs, hxs, h⟩ := Option.bind_eq_some_iff.1 h
    cases h
    rcases List.mem_cons.1 hop with rfl | hop
    · exact ⟨r, hx⟩
    · exact ih hxs hop

/-- The decoder's counters always fit, so only the wall part can be refused. -/
theorem encodable_of_decode {brotli : Native.Brotli} {text : NumberText} {batch : Bytes} {ops : List WireOp}
    (h : (nativeBridge brotli text).decode batch = some ops) {op : WireOp} (hop : op ∈ ops) :
    op.hlc.Encodable ↔ op.hlc.wallMs ≤ maxSafeInteger := by
  obtain ⟨rs, -, h⟩ := Option.bind_eq_some_iff.1 h
  obtain ⟨r, hr⟩ := mem_ofRecords h hop
  have hcounter : op.hlc.counter ≤ counterMax := by
    have hc := r.hlc.counter.toNat_lt
    rw [ofRecord_hlc hr]
    simp only [ofHlcWire, counterMax]
    omega
  exact and_iff_left hcounter

theorem decodeFrames_overlong (brotli : Native.Brotli) (v tailOffset : Nat) (bodies : List Bytes) :
    ∃ e, Native.decodeFrames brotli (.overlong v) tailOffset bodies = .error e := by
  induction bodies with
  | nil => exact ⟨_, rfl⟩
  | cons batch rest ih =>
    obtain ⟨e, he⟩ := ih
    rw [Native.decodeFrames, he]
    cases Native.decodeBatch brotli batch with
    | error e' => exact ⟨e', rfl⟩
    | ok ops => exact ⟨e, rfl⟩

theorem ofRecords_append (a b : List Native.OpRecord) :
    (do let xs ← ofRecords (.ok a); let ys ← ofRecords (.ok b); return xs ++ ys) = ofRecords (.ok (a ++ b)) := by
  simp [ofRecords, Except.toOption, List.mapM_append]

theorem ofRecords_decodeFrames (brotli : Native.Brotli) {kind : TailKind} (hkind : ∀ v, kind ≠ .overlong v)
    (tailOffset : Nat) (bodies : List Bytes) :
    ofRecords (Native.decodeFrames brotli kind tailOffset bodies) =
      (bodies.mapM fun batch => ofRecords (Native.decodeBatch brotli batch)).map List.flatten := by
  induction bodies with
  | nil => cases kind <;> first | rfl | exact absurd rfl (hkind _)
  | cons batch rest ih =>
    rw [Native.decodeFrames, List.mapM_cons]
    cases hb : Native.decodeBatch brotli batch with
    | error e => rfl
    | ok ops =>
      cases hr : Native.decodeFrames brotli kind tailOffset rest with
      | error e =>
        rw [hr] at ih
        have hnone : rest.mapM (fun batch => ofRecords (Native.decodeBatch brotli batch)) = none := by
          simpa [ofRecords, Except.toOption] using ih.symm
        rw [hnone]
        cases ofRecords (.ok ops) <;> rfl
      | ok more =>
        rw [hr] at ih
        have happend := ofRecords_append ops more
        rw [ih] at happend
        show ofRecords (.ok (ops ++ more)) = _
        rw [← happend]
        cases ofRecords (.ok ops) with
        | none => rfl
        | some xs => cases rest.mapM (fun batch => ofRecords (Native.decodeBatch brotli batch)) <;> rfl

theorem nativeBridge_segmentWise (brotli : Native.Brotli) (rt : NumberText) : (nativeBridge brotli rt).SegmentWise := by
  intro bytes
  simp only [nativeBridge, Native.decodeSegment, decodeFrames]
  cases hk : (split Native.segLenPrefix bytes).kind with
  | overlong v =>
    obtain ⟨e, he⟩ := decodeFrames_overlong brotli v (split Native.segLenPrefix bytes).good.length
      (split Native.segLenPrefix bytes).bodies
    rw [he]
    rfl
  | clean => exact ofRecords_decodeFrames brotli (fun v => by simp) _ _
  | torn => exact ofRecords_decodeFrames brotli (fun v => by simp) _ _

end Hayven.Crdt
