import Hayven.Crdt.State
import Hayven.Lib.JsonUtf8
/-!
# What the conversions keep

A logical op becomes a wire op when it is written and is read back as a logical op when
the log is replayed. Text goes through UTF-8 in between, a claim through JSON as well,
and removed tags through bytes. `Survives` says which ops come back as they were.
-/
open Hayven.Lib

namespace Hayven.Crdt

/-- The wire op of a logical op; `none` if a tag cannot be written. -/
def toWire (text : NumberText) : CrdtOp JsString → Option WireOp
  | .lww op => some (lwwToWire op)
  | .gset op => some (gsetToWire op)
  | .orset op => orToWire text op

/-- A tag as `addOpTag` makes it: the hex of 28 bytes. -/
def IsTag (tag : Tag) : Prop := ∃ bytes : Bytes, bytes.length = compositeBytes ∧ tag = bytesToHex bytes

/-- Registers hold text that UTF-8 keeps, claims hold finite times, removes list tags. -/
def CrdtOp.Survives : CrdtOp JsString → Prop
  | .lww op => TextSafe op.value
  | .gset _ => True
  | .orset (.add op) => op.payload.toJson.Finite
  | .orset (.remove op) => ∀ tag ∈ op.observedTags, IsTag tag

/-! ## Claims -/

theorem payloadOfJson_toJson (text : NumberText) (p : ClaimPayload) : payloadOfJson text p.toJson = some p := by
  have hintent : p.toJson.field "intent" = some (.str p.intent) := rfl
  have hscope : p.toJson.field "scope" = some (.arr (p.scope.map .str)) := rfl
  have hfingerprint : p.toJson.field "fingerprint" = some (.str p.fingerprint) := rfl
  have hcreated : p.toJson.field "createdMs" = some (.num p.createdMs) := rfl
  have httl : p.toJson.field "ttlMs" = some (.num p.ttlMs) := rfl
  have hitems : ∀ scope : List JsString, (scope.map Json.str).mapM (Json.toJsString text) = some scope := by
    intro scope
    induction scope with
    | nil => rfl
    | cons s rest ih => simp [List.mapM_cons, Json.toJsString, ih]
  simp [payloadOfJson, stringField, numberField, Json.fieldOr, Json.toJsString, Json.toNumber, hintent, hscope,
    hfingerprint, hcreated, httl, hitems]

/-- The only numbers of a claim are its times. -/
theorem finite_toJson {p : ClaimPayload} (hcreated : (Json.num p.createdMs).Finite) (httl : (Json.num p.ttlMs).Finite) :
    p.toJson.Finite := by
  have hscope : ∀ scope : List JsString, Json.FiniteItems (scope.map .str) := by
    intro scope
    induction scope with
    | nil => trivial
    | cons s rest ih => exact ⟨trivial, ih⟩
  exact ⟨trivial, hscope p.scope, trivial, hcreated, httl, trivial⟩

/-- A claim whose times are finite is read as it was written. -/
theorem decodePayload_toJson {text : NumberText} (htext : text.Lossless) {p : ClaimPayload} (hp : p.toJson.Finite) :
    decodePayload text (textEncode (stringify text p.toJson)) = some p := by
  simp only [decodePayload, parseJson_textDecode htext hp]
  exact payloadOfJson_toJson text p

/-! ## Tags -/

theorem parseTag_bytesToHex (bytes : Bytes) : parseTag (bytesToHex bytes) = some bytes := by
  induction bytes with
  | nil => rfl
  | cons b rest ih =>
    have hb := b.toNat_lt
    have hhigh := hexValue_hexDigit (b.toNat / 16) (by omega)
    have hlow := hexValue_hexDigit (b.toNat % 16) (by omega)
    have hbyte : (b.toNat / 16 * 16 + b.toNat % 16).toUInt8 = b := by
      rw [show b.toNat / 16 * 16 + b.toNat % 16 = b.toNat by omega]
      exact UInt8.ofNat_toNat
    show parseTag (hexDigit (b.toNat / 16) :: hexDigit (b.toNat % 16) :: bytesToHex rest) = _
    simp [parseTag, parseIntPair, hhigh, hlow, hbyte, ih]

theorem tagToWire_bytesToHex {bytes : Bytes} (h : bytes.length = compositeBytes) :
    tagToWire (bytesToHex bytes) = some bytes := by
  have hlen : (bytesToHex bytes).length = 56 := by rw [length_bytesToHex, h]; rfl
  rw [tagToWire, if_neg (not_not.2 hlen), parseTag_bytesToHex]

/-- The first 28 bytes are the first tag. -/
theorem tagsOfBytes_append {bytes : Bytes} (h : bytes.length = compositeBytes) (rest : Bytes) :
    tagsOfBytes (bytes ++ rest) = bytesToHex bytes :: tagsOfBytes rest := by
  have hpos : 0 < compositeBytes := by decide
  have hcount : (bytes ++ rest).length / compositeBytes = rest.length / compositeBytes + 1 := by
    rw [List.length_append, h, Nat.add_comm, Nat.add_div_right _ hpos]
  rw [tagsOfBytes, hcount, List.range_succ_eq_map, List.map_cons, List.map_map]
  congr 1
  · rw [Nat.zero_mul, List.drop_zero, ← h, List.take_left]
  · rw [tagsOfBytes]
    refine List.map_congr_left fun i _ => ?_
    show bytesToHex (((bytes ++ rest).drop ((i + 1) * compositeBytes)).take compositeBytes) = _
    rw [Nat.succ_mul, Nat.add_comm, ← List.drop_drop, ← h, List.drop_left, h]

theorem tagsOfBytes_of_tagToWire {tags : List Tag} (h : ∀ tag ∈ tags, IsTag tag) :
    ∃ wires, tags.mapM tagToWire = some wires ∧ tagsOfBytes wires.flatten = tags := by
  induction tags with
  | nil => exact ⟨[], rfl, rfl⟩
  | cons tag rest ih =>
    obtain ⟨wires, hwires, hback⟩ := ih fun tag' htag => h tag' (List.mem_cons_of_mem tag htag)
    obtain ⟨bytes, hlen, rfl⟩ := h tag List.mem_cons_self
    refine ⟨bytes :: wires, ?_, ?_⟩
    · rw [List.mapM_cons, tagToWire_bytesToHex hlen, hwires]
      rfl
    · rw [List.flatten_cons, tagsOfBytes_append hlen, hback]

/-- The tags of `addOpTag` can be written. -/
theorem isTag_addOpTag {op : OrAddOp} {tag : Tag} (h : addOpTag op = .ok tag) : IsTag tag := by
  obtain ⟨-, rfl⟩ := addOpTag_ok h
  exact ⟨_, length_compositeCode _ _, rfl⟩

theorem mem_of_mapM_ok {α β ε : Type} {f : α → Except ε β} {xs : List α} {ys : List β} (h : xs.mapM f = .ok ys)
    {y : β} (hy : y ∈ ys) : ∃ x ∈ xs, f x = .ok y := by
  induction xs generalizing ys with
  | nil =>
    cases h
    cases hy
  | cons x xs ih =>
    rw [List.mapM_cons] at h
    cases hx : f x with
    | error e => simp [hx, bind, Except.bind] at h
    | ok b =>
      cases hxs : xs.mapM f with
      | error e => simp [hx, hxs, bind, Except.bind] at h
      | ok bs =>
        simp only [hx, hxs, bind, Except.bind, pure, Except.pure, Except.ok.injEq] at h
        subst h
        rcases List.mem_cons.1 hy with rfl | hy
        · exact ⟨x, List.mem_cons_self, hx⟩
        · obtain ⟨x', hmem, hx'⟩ := ih hxs hy
          exact ⟨x', List.mem_cons_of_mem x hmem, hx'⟩

/-- The remove of a claim's adds survives. -/
theorem survives_makeRemoveOpFor {orset : OrSetState} {claimId : JsString} {hlc : Hlc} {writer : WriterId}
    {op : OrRemoveOp} (h : makeRemoveOpFor orset claimId hlc writer = .ok op) :
    CrdtOp.Survives (.orset (.remove op)) := by
  unfold makeRemoveOpFor at h
  cases hobserved : (orset.sortedAdds.filter fun add => add.claimId = claimId).mapM addOpTag with
  | error e => simp [hobserved, bind, Except.bind] at h
  | ok observed =>
  simp only [hobserved, bind, Except.bind, pure, Except.pure, Except.ok.injEq] at h
  subst h
  intro tag htag
  obtain ⟨add, -, hadd⟩ := mem_of_mapM_ok hobserved htag
  exact isTag_addOpTag hadd

/-! ## Ops -/

/-- An op that survives is read back as it was written. -/
theorem toLogical_toWire {text : NumberText} (htext : text.Lossless) {op : CrdtOp JsString} (hop : op.Survives)
    {wire : WireOp} (h : toWire text op = some wire) : toLogical text wire = some op := by
  cases op with
  | lww op =>
    cases h
    have hvalue := (textDecode_textEncode_eq_self op.value).2 hop
    simp only [toLogical, lwwToWire, wireOpToLww, hvalue, Option.map_some]
  | gset op =>
    cases h
    rfl
  | orset op =>
    cases op with
    | add op =>
      cases h
      simp only [toLogical, wireOpToOr, decodePayload_toJson htext hop, Option.map_some]
    | remove op =>
      obtain ⟨wires, hwires, hback⟩ := tagsOfBytes_of_tagToWire hop
      simp only [toWire, orToWire, hwires, Option.bind_eq_bind, Option.bind_some, Option.pure_def,
        Option.some.injEq] at h
      subst h
      simp only [toLogical, wireOpToOr, hback, Option.map_some]

end Hayven.Crdt
