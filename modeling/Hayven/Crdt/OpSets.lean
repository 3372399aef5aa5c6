import Hayven.Crdt.Merkle
import Hayven.Crdt.MerkleTree
import Hayven.Lib.Blake3
/-!
# Roots and the ops behind them

A root is the same for two logs exactly when they hold the same keys for the type,
however the ops got there. A log holds what `decode_segment` reads from its segments:
all ops up to a torn tail, and none of a segment that does not decode.
-/
open Hayven.Lib

namespace Hayven.Crdt

/-- The ops `decode_segment` reads from a segment. -/
def heldOps (bridge : WireBridge) (log : OpLog) (type : CrdtType) (day : JsString) : List WireOp :=
  (bridge.decodeSegment (log.bytes type day)).getD []

/-- The keys of the ops of a type. -/
def heldKeys (bridge : WireBridge) (log : OpLog) (type : CrdtType) : Set (Hlc × WriterId) :=
  {key | ∃ day, ∃ op ∈ heldOps bridge log type day, op.key = key}

/-- Every op held is in the segment it belongs in. -/
def HeldInPlace (bridge : WireBridge) (log : OpLog) : Prop :=
  ∀ type day, ∀ op ∈ heldOps bridge log type day, op.BelongsIn type day

/-! ## The readable part of a log -/

/-- The part of a segment that `decode_segment` reads. -/
def readableFile (bridge : WireBridge) (f : SegmentFile) : SegmentFile :=
  ⟨if (bridge.decodeSegment f.bytes).isSome then (split varintPrefix f.bytes).good else [], f.mtimeMs⟩

def readable (bridge : WireBridge) (log : OpLog) : OpLog := ⟨fun type => (log.dir type).mapValues (readableFile bridge)⟩

section Readable
variable {bridge : WireBridge}

theorem file_readable (log : OpLog) (type : CrdtType) (day : JsString) :
    (readable bridge log).file type day = (log.file type day).map (readableFile bridge) :=
  KeyedMap.get_mapValues _ _ _

theorem listSegmentDays_readable (log : OpLog) (type : CrdtType) :
    (readable bridge log).listSegmentDays type = log.listSegmentDays type := by
  have hkeys : ((readable bridge log).dir type).keys = (log.dir type).keys := by
    show ((log.dir type).entries.map fun p => (p.1, readableFile bridge p.2)).map Prod.fst = _
    rw [List.map_map]
    rfl
  rw [OpLog.listSegmentDays, hkeys, OpLog.listSegmentDays]

theorem mapM_eq_some_isSome {α β : Type} {f : α → Option β} {xs : List α} {ys : List β} (h : xs.mapM f = some ys) :
    ∀ x ∈ xs, (f x).isSome := by
  induction xs generalizing ys with
  | nil => exact nofun
  | cons x rest ih =>
    rw [List.mapM_cons] at h
    obtain ⟨y, hy, h⟩ := Option.bind_eq_some_iff.1 h
    obtain ⟨zs, hzs, -⟩ := Option.bind_eq_some_iff.1 h
    rw [List.forall_mem_cons]
    exact ⟨Option.isSome_iff_exists.2 ⟨y, hy⟩, ih hzs⟩

/-- The readable part is whole batches that decode, with the ops that `decode_segment` reads. -/
theorem readable_segment (hb : bridge.SegmentWise) (bytes : Bytes) :
    let good := if (bridge.decodeSegment bytes).isSome then (split varintPrefix bytes).good else []
    Intact bridge.decode good ∧ bridge.decodeSegment good = some ((bridge.decodeSegment bytes).getD []) := by
  intro good
  have hdecode : Intact bridge.decode good → bridge.decodeSegment good =
      some ((split varintPrefix good).frames.flatMap fun f => (bridge.decode f.body).getD []) := by
    intro hintact
    rw [hb, ← varintPrefix_eq]
    exact decodeFrames_of_intact hintact
  cases hdec : bridge.decodeSegment bytes with
  | none =>
    have hgood : good = [] := by simp [good, hdec]
    have hintact : Intact bridge.decode good := by
      rw [hgood]
      exact ⟨rfl, nofun⟩
    refine ⟨hintact, ?_⟩
    rw [hdecode hintact, hgood]
    rfl
  | some ops =>
    have hgood : good = (split varintPrefix bytes).good := by simp [good, hdec]
    have hframes := hb bytes
    rw [hdec, ← varintPrefix_eq] at hframes
    have hsome : ((split varintPrefix bytes).bodies.mapM bridge.decode).map List.flatten = some ops := by
      unfold decodeFrames at hframes
      split at hframes
      · cases hframes
      · exact hframes.symm
    obtain ⟨decoded, hdecoded, rfl⟩ := Option.map_eq_some_iff.1 hsome
    have hall := mapM_eq_some_isSome hdecoded
    have hsplit : split varintPrefix good = ⟨(split varintPrefix bytes).frames, [], .clean⟩ := by
      rw [hgood]
      exact split_raw varintPrefix fun _ hf => mem_split_frames varintPrefix hf
    have hintact : Intact bridge.decode good := by
      rw [Intact, hsplit]
      exact ⟨rfl, fun f hf => hall f.body (List.mem_map_of_mem hf)⟩
    refine ⟨hintact, ?_⟩
    have hdec' := hb good
    rw [← varintPrefix_eq] at hdec'
    rw [hdec', decodeFrames, hsplit]
    exact hsome

theorem wellStored_readable (hb : bridge.SegmentWise) (log : OpLog) : WellStored bridge (readable bridge log) := by
  intro type day
  unfold OpLog.bytes
  rw [file_readable]
  cases log.file type day with
  | none => exact ⟨rfl, nofun⟩
  | some f => exact (readable_segment hb f.bytes).1

/-- Nothing is read from no bytes. -/
theorem decodeSegment_nil (hb : bridge.SegmentWise) : bridge.decodeSegment [] = some [] := by
  rw [hb]
  rfl

theorem storedOps_readable (hb : bridge.SegmentWise) (log : OpLog) (type : CrdtType) (day : JsString) :
    storedOps bridge (readable bridge log) type day = heldOps bridge log type day := by
  have hintact := wellStored_readable hb log type day
  have hstored : bridge.decodeSegment ((readable bridge log).bytes type day) =
      some (storedOps bridge (readable bridge log) type day) := by
    rw [hb, ← varintPrefix_eq]
    exact decodeFrames_of_intact hintact
  have hheld : bridge.decodeSegment ((readable bridge log).bytes type day) =
      some (heldOps bridge log type day) := by
    unfold heldOps OpLog.bytes
    rw [file_readable]
    cases log.file type day with
    | none =>
      show bridge.decodeSegment [] = some ((bridge.decodeSegment []).getD [])
      rw [decodeSegment_nil hb]
      rfl
    | some f => exact (readable_segment hb f.bytes).2
  exact Option.some.inj (hstored.symm.trans hheld)

/-- The keys the Merkle tree sees are those of the readable part. -/
theorem segmentCompositeKeys_readable (hb : bridge.SegmentWise) (log : OpLog) (type : CrdtType) (day : JsString) :
    (readable bridge log).segmentCompositeKeys bridge type day = log.segmentCompositeKeys bridge type day := by
  unfold OpLog.segmentCompositeKeys
  rw [file_readable]
  cases log.file type day with
  | none => rfl
  | some f =>
    have hdec : bridge.decodeSegment (readableFile bridge f).bytes = some ((bridge.decodeSegment f.bytes).getD []) :=
      (readable_segment hb f.bytes).2
    simp only [Option.map_some, hdec]
    cases bridge.decodeSegment f.bytes <;> rfl

theorem freshLeaves_readable (hb : bridge.SegmentWise) (blake3 : Bytes → Bytes) (log : OpLog) (type : CrdtType)
    (days : List JsString) :
    freshLeaves bridge blake3 (readable bridge log) type days = freshLeaves bridge blake3 log type days := by
  induction days with
  | nil => rfl
  | cons day rest ih => rw [freshLeaves, freshLeaves, ih, freshHash, freshHash, segmentCompositeKeys_readable hb]

end Readable

/-! ## Keys and segments -/

section Keys
variable {bridge : WireBridge} {x y : OpLog} {type : CrdtType}

/-- Logs that hold the same keys of a type hold the same keys in each of its segments: the
clock of a key tells its day. -/
theorem segmentKeys_eq_of_heldKeys (hb : bridge.SegmentWise) (hx : HeldInPlace bridge x) (hy : HeldInPlace bridge y)
    (h : heldKeys bridge x type = heldKeys bridge y type) (day : JsString) :
    segmentKeys bridge (readable bridge x) type day = segmentKeys bridge (readable bridge y) type day := by
  have hsub : ∀ {x y : OpLog}, HeldInPlace bridge x → HeldInPlace bridge y →
      heldKeys bridge x type = heldKeys bridge y type → ∀ k, k ∈ segmentKeys bridge (readable bridge x) type day →
        k ∈ segmentKeys bridge (readable bridge y) type day := by
    intro x y hx hy h k hk
    rw [mem_segmentKeys, storedOps_readable hb] at hk ⊢
    obtain ⟨op, hop, rfl⟩ := hk
    have hkey : op.key ∈ heldKeys bridge y type := h ▸ ⟨day, op, hop, rfl⟩
    obtain ⟨day', op', hop', hkey'⟩ := hkey
    have hhlc : op'.hlc = op.hlc := congrArg Prod.fst hkey'
    have hday : day' = day := by
      rw [← (hx type day op hop).2.2, ← (hy type day' op' hop').2.2, hhlc]
    exact ⟨op', hday ▸ hop', congrArg keyHex hkey'⟩
  exact segmentKeys_congr fun k => ⟨hsub hx hy h k, hsub hy hx h.symm k⟩

/-- Logs with the same keys in each segment of a type hold the same keys of it. -/
theorem heldKeys_subset_of_segmentKeys (hb : bridge.SegmentWise)
    (hex : ∀ day, ∀ op ∈ heldOps bridge x type day, op.hlc.Encodable)
    (hey : ∀ day, ∀ op ∈ heldOps bridge y type day, op.hlc.Encodable)
    (h : ∀ day, segmentKeys bridge (readable bridge x) type day = segmentKeys bridge (readable bridge y) type day) :
    heldKeys bridge x type ⊆ heldKeys bridge y type := by
  rintro _ ⟨day, op, hop, rfl⟩
  have hk : keyHex op.key ∈ segmentKeys bridge (readable bridge y) type day := by
    rw [← h day, mem_segmentKeys, storedOps_readable hb]
    exact ⟨op, hop, rfl⟩
  rw [mem_segmentKeys, storedOps_readable hb] at hk
  obtain ⟨op', hop', hkey⟩ := hk
  exact ⟨day, op', hop', keyHex_inj (hey day op' hop') (hex day op hop) hkey⟩

end Keys

/-! ## Roots -/

section Roots
variable {brotli : Native.Brotli} {text : NumberText} {blake3 : Bytes → Bytes} {x y : OpLog}

theorem bucketed_readable {bridge : WireBridge} (hb : bridge.SegmentWise) (h : HeldInPlace bridge x) :
    Bucketed bridge (readable bridge x) := by
  intro type day op hop
  rw [storedOps_readable hb] at hop
  exact h type day op hop

/-- The snapshot of a log whose ops are where they belong is the exact one of its readable part. -/
theorem computeMerkle_readable (hx : HeldInPlace (nativeBridge brotli text) x) {cache : MerkleCache}
    (hc : Coherent (nativeBridge brotli text) blake3 x cache) : ∃ cache',
      computeMerkle (nativeBridge brotli text) blake3 x cache =
        .ok (⟨fun type => rootOf blake3 (exactLeaves (nativeBridge brotli text) blake3 (readable (nativeBridge brotli text) x) type),
          exactLeaves (nativeBridge brotli text) blake3 (readable (nativeBridge brotli text) x)⟩, cache') := by
  have hb := nativeBridge_segmentWise brotli text
  have henc := encodable_of_bucketed (bucketed_readable hb hx)
  have hleaves : ∀ type, freshLeaves (nativeBridge brotli text) blake3 x type (x.listSegmentDays type) =
      .ok (exactLeaves (nativeBridge brotli text) blake3 (readable (nativeBridge brotli text) x) type) := by
    intro type
    rw [← freshLeaves_readable hb, freshLeaves_of_encodable blake3 hb (wellStored_readable hb x) (henc type)]
    rw [exactLeaves, listSegmentDays_readable]
  obtain ⟨cache', hok, -⟩ := computeMerkle_ok hc hleaves
  exact ⟨cache', hok⟩

end Roots

/-! ## An op stored once and twice -/

def newYearLog (bytes : Bytes) : OpLog := OpLog.empty.appendToFile .gset (ascii "1970-01-01") bytes 0

theorem heldOps_newYearLog (bytes : Bytes) (type : CrdtType) (day : JsString) :
    heldOps plainBridge (newYearLog bytes) type day =
      if .gset = type ∧ ascii "1970-01-01" = day then (plainBridge.decodeSegment bytes).getD [] else [] := by
  rw [heldOps, newYearLog, OpLog.bytes_appendToFile]
  split <;> rfl

theorem heldInPlace_newYearLog {bytes : Bytes}
    (h : ∀ op ∈ (plainBridge.decodeSegment bytes).getD [], op.BelongsIn .gset (ascii "1970-01-01")) :
    HeldInPlace plainBridge (newYearLog bytes) := by
  intro type day op hop
  rw [heldOps_newYearLog] at hop
  split at hop
  case isTrue hplace =>
    obtain ⟨rfl, rfl⟩ := hplace
    exact h op hop
  case isFalse => cases hop

def observedOnce : WireOp :=
  .gsetObserve (ascii "a") (ascii "b") 0 1 1 ⟨5, 0⟩ (replicatedWriter 7)

end Hayven.Crdt
