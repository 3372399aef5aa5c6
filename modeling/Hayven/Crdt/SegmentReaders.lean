import Hayven.Crdt.MerkleTree
/-!
# The readers of a segment

Hydration reads a segment frame by frame, `splitSegmentBatches` cuts it up for the
sync routes and `decode_segment` decodes it whole for the Merkle tree. They cut the
same frames. They part on a length out of range, which hydration throws out of, and
on a clock that has no key.
-/
open Hayven.Lib

namespace Hayven.Crdt

/-! ## Hydration -/

section Hydration
variable {decode : Bytes → Option (List WireOp)}

/-- The ops of the longest run of complete batches that decode. -/
def goodOps (decode : Bytes → Option (List WireOp)) (bytes : Bytes) : List WireOp :=
  (goodFrames decode bytes).flatMap fun f => (decode f.body).getD []

/-- Batches that all decode, and then a length out of range. -/
def Overruns (decode : Bytes → Option (List WireOp)) (bytes : Bytes) : Prop :=
  (∃ v, (split varintPrefix bytes).kind = .overlong v) ∧
    ∀ fr ∈ (split varintPrefix bytes).frames, (decode fr.body).isSome

theorem steady_eq : steady decode = faulty decode fun _ _ => false := rfl

theorem stops_steady {dir : Directory} {day : JsString} :
    Stops (steady decode) dir day ↔ ∃ f, dir.get day = some f ∧ Overruns decode f.bytes := by
  rw [steady_eq, stops_faulty]
  simp only [Halts, Overruns, implies_true, and_true]

theorem acceptedFrames_steady (day : JsString) (frames : List Frame) :
    acceptedFrames (steady decode day) 0 frames = frames.takeWhile fun f => (decode f.body).isSome :=
  (acceptedFrames_eq_good decode (fun _ _ => false) day 0 frames).2 fun _ _ => rfl

/-- A scan yields the ops of the good batches, whatever comes after them. -/
theorem scanFrames_ops (kind : TailKind) (i : Nat) (frames : List Frame) :
    (scanFrames (fun _ => decode) kind i frames).ops =
      (frames.takeWhile fun f => (decode f.body).isSome).flatMap fun f => (decode f.body).getD [] := by
  induction frames generalizing i with
  | nil => rfl
  | cons f rest ih =>
    rw [scanFrames, List.takeWhile_cons]
    cases hdec : decode f.body with
    | none => rfl
    | some ops => simp [ih (i + 1), hdec]

/-- What a hydration has yielded when it has gone through these files. -/
theorem hydrateSegments_ops (m : JsString → Rat) {days : List JsString} (hnd : days.Nodup) (dir : Directory)
    (h : ∀ day ∈ days, ¬ Stops (steady decode) dir day) : (hydrateSegments (steady decode) m days dir).ops =
      days.flatMap fun day => goodOps decode (((dir.get day).map SegmentFile.bytes).getD []) := by
  induction days generalizing dir with
  | nil => rfl
  | cons day rest ih =>
    obtain ⟨hnot, hnd⟩ := List.nodup_cons.1 hnd
    rw [hydrateSegments, List.flatMap_cons]
    cases hget : dir.get day with
    | none =>
      rw [ih hnd dir fun day' hd => h day' (List.mem_cons_of_mem _ hd)]
      rfl
    | some f =>
      have hself := h day List.mem_cons_self
      have hthrown : (scanSegment (steady decode day) f.bytes).thrown = none := by
        by_contra hne
        exact hself ⟨f, hget, hne⟩
      -- the files still to read are as they were
      have hsame : ∀ g, ∀ day' ∈ rest, (dir.set day g).get day' = dir.get day' := by
        intro g day' hd
        exact KeyedMap.get_set_ne _ _ fun heq => hnot (heq ▸ hd)
      have hrest := ih hnd (dir.set day (truncateTo f (scanSegment (steady decode day) f.bytes).goodEnd (m day)))
        fun day' hd => by
          simp only [Stops, hsame _ day' hd]
          exact h day' (List.mem_cons_of_mem _ hd)
      simp only [hthrown, hrest]
      congr 1
      · exact scanFrames_ops _ 0 _
      · refine List.flatMap_congr fun day' hd => ?_
        rw [hsame _ day' hd]

/-- Hydration runs to its end, yields the ops of the good batches of each segment in file-name
order, and cuts each segment back to them. -/
structure HydratesWhole (decode : Bytes → Option (List WireOp)) (dir : Directory) (h : Hydrated) : Prop where
  total : h.thrown = none
  yields : h.ops = (segmentFiles dir).flatMap fun day =>
    goodOps decode (((dir.get day).map SegmentFile.bytes).getD [])
  keeps : ∀ day, (h.dir.get day).map SegmentFile.bytes = (dir.get day).map fun f => goodBytes decode f.bytes

/-- Without such a segment hydration runs to its end. -/
theorem hydrate_steady (m : JsString → Rat) {dir : Directory}
    (h : ∀ day f, dir.get day = some f → ¬ Overruns decode f.bytes) :
    (hydrate (steady decode) m dir).thrown = none ∧ (hydrate (steady decode) m dir).ops =
      (segmentFiles dir).flatMap fun day => goodOps decode (((dir.get day).map SegmentFile.bytes).getD []) := by
  have hnd : (segmentFiles dir).Nodup := (sortWith_perm _ _).nodup_iff.2 dir.nodup
  have hno : ∀ day, ¬ Stops (steady decode) dir day := by
    intro day hstop
    obtain ⟨f, hf, hover⟩ := stops_steady.1 hstop
    exact h day f hf hover
  refine ⟨?_, hydrateSegments_ops m hnd dir fun day _ => hno day⟩
  by_contra hne
  obtain ⟨day, -, hstop⟩ := (hydrateSegments_thrown (steady decode) m hnd dir).1 hne
  exact hno day hstop

/-- It does so exactly when no segment of good batches ends in a length out of range. -/
theorem hydratesWhole_iff (m : JsString → Rat) (dir : Directory) :
    HydratesWhole decode dir (hydrate (steady decode) m dir) ↔
      ∀ day f, dir.get day = some f → ¬ Overruns decode f.bytes := by
  have hnd : (segmentFiles dir).Nodup := (sortWith_perm _ _).nodup_iff.2 dir.nodup
  have hthrown := hydrateSegments_thrown (steady decode) m hnd dir
  constructor
  · intro h day f hf hover
    have hday : day ∈ segmentFiles dir := (mem_sortWith _).2 (KeyedMap.mem_keys.2 ⟨f, hf⟩)
    exact hthrown.2 ⟨day, hday, stops_steady.2 ⟨f, hf, hover⟩⟩ h.total
  · intro h
    have hno : ∀ day, ¬ Stops (steady decode) dir day := by
      intro day hstop
      obtain ⟨f, hf, hover⟩ := stops_steady.1 hstop
      exact h day f hf hover
    refine ⟨(hydrate_steady m h).1, (hydrate_steady m h).2, fun day => ?_⟩
    cases hf : dir.get day with
    | none =>
      have hnot : day ∉ segmentFiles dir := by
        intro hmem
        obtain ⟨f, hf'⟩ := KeyedMap.mem_keys.1 ((mem_sortWith _).1 hmem)
        rw [hf] at hf'
        cases hf'
      rw [hydrate, hydrateSegments_frame _ m dir hnot, hf]
      rfl
    | some f =>
      rcases hydrate_bytes (steady decode) m hf with ⟨hstop, -⟩ | ⟨-, g, hg, hbytes⟩
      · rcases hstop with ⟨day', -, hstop⟩ | hstop
        · exact absurd hstop (hno day')
        · exact absurd hstop (hno day)
      · rw [hg, Option.map_some, Option.map_some, hbytes, acceptedFrames_steady]
        rfl

/-- A segment whose first byte starts no length hides the next day's. -/
def overrunDir : Directory :=
  (KeyedMap.empty.set (ascii "1970-01-01") ⟨List.replicate 5 0xFF, 0⟩).set (ascii "1970-01-02") ⟨frameBytes oneBatch, 0⟩

/-- Hydration throws at the first segment; the second, a good batch, is not yielded. -/
theorem hydrate_stops_at_overrun :
    ¬ HydratesWhole plainBridge.decode overrunDir (hydrate (steady plainBridge.decode) (fun _ => 1) overrunDir) ∧
      (hydrate (steady plainBridge.decode) (fun _ => 1) overrunDir).ops = [] ∧
      goodOps plainBridge.decode (frameBytes oneBatch) ≠ [] := by
  refine ⟨fun h => ?_, by decide +kernel, by decide +kernel⟩
  have hthrown : (hydrate (steady plainBridge.decode) (fun _ => 1) overrunDir).thrown ≠ none := by decide +kernel
  exact hthrown h.total

end Hydration

/-! ## Two splitters -/

/-- The frames `decode_segment` meets; `none` if it meets a length out of range. -/
def nativeFrames (bytes : Bytes) : Option (List Bytes) :=
  match (split Native.segLenPrefix bytes).kind with
  | .overlong _ => none
  | _ => some (split Native.segLenPrefix bytes).bodies

/-- `splitSegmentBatches` cuts the frames `decode_segment` meets. -/
theorem splitSegmentBatches_eq : splitSegmentBatches = nativeFrames := by
  funext bytes
  have hsplit : split varintPrefix bytes = split Native.segLenPrefix bytes := by rw [varintPrefix_eq]
  unfold splitSegmentBatches nativeFrames
  cases hkind : (split Native.segLenPrefix bytes).kind <;> simp only [hsplit, hkind]

theorem splitSegmentBatches_eq_some {bytes : Bytes} {batches : List Bytes} :
    splitSegmentBatches bytes = some batches ↔
      (∀ v, (split varintPrefix bytes).kind ≠ .overlong v) ∧ batches = (split varintPrefix bytes).bodies := by
  unfold splitSegmentBatches
  cases (split varintPrefix bytes).kind <;> simp [eq_comm]

theorem decodeFrames_ok_iff {brotli : Native.Brotli} {kind : TailKind} {tailOffset : Nat} {bodies : List Bytes}
    {ops : List Native.OpRecord} : Native.decodeFrames brotli kind tailOffset bodies = .ok ops ↔
      (∀ v, kind ≠ .overlong v) ∧
        ∃ decoded, bodies.mapM (Native.decodeBatch brotli) = .ok decoded ∧ ops = decoded.flatten := by
  induction bodies generalizing ops with
  | nil =>
    cases kind <;> simp [Native.decodeFrames, pure, Except.pure, eq_comm]
  | cons batch rest ih =>
    rw [Native.decodeFrames, List.mapM_cons]
    cases hb : Native.decodeBatch brotli batch with
    | error e => simp [bind, Except.bind]
    | ok first =>
      cases hr : Native.decodeFrames brotli kind tailOffset rest with
      | error e =>
        simp only [bind, Except.bind, reduceCtorEq, false_iff, not_and, not_exists]
        rintro hkind decoded hdecoded -
        cases hm : rest.mapM (Native.decodeBatch brotli) with
        | error e' => simp [hm] at hdecoded
        | ok more =>
          have hok := (@ih more.flatten).2 ⟨hkind, more, hm, rfl⟩
          rw [hr] at hok
          cases hok
      | ok more =>
        obtain ⟨hkind, decoded, hm, hmore⟩ := ih.1 hr
        simp only [bind, Except.bind, pure, Except.pure, hm, hmore, Except.ok.injEq]
        constructor
        · rintro rfl
          exact ⟨hkind, _, rfl, rfl⟩
        · rintro ⟨-, _, rfl, rfl⟩
          rfl

/-- `decode_segment` succeeds on what splits into batches that decode, and yields their ops in order. -/
theorem decodeSegment_ok_iff {brotli : Native.Brotli} {bytes : Bytes} {ops : List Native.OpRecord} :
    Native.decodeSegment brotli bytes = .ok ops ↔ ∃ batches, splitSegmentBatches bytes = some batches ∧
      ∃ decoded, batches.mapM (Native.decodeBatch brotli) = .ok decoded ∧ ops = decoded.flatten := by
  simp only [Native.decodeSegment, ← varintPrefix_eq, decodeFrames_ok_iff, splitSegmentBatches_eq_some]
  constructor
  · rintro ⟨hkind, hdecoded⟩
    exact ⟨_, ⟨hkind, rfl⟩, hdecoded⟩
  · rintro ⟨_, ⟨hkind, rfl⟩, hdecoded⟩
    exact ⟨hkind, hdecoded⟩

/-- A length out of range is one whatever follows it. -/
theorem read_overlong {bytes : Bytes} {v : Nat} (h : readVarint bytes = .overlong v) (more : Bytes) :
    readVarint (bytes ++ more) = .overlong v := by
  unfold readVarint at h ⊢
  cases hread : readLeb 4 bytes with
  | torn => simp [hread] at h
  | overlong w =>
    rw [hread] at h
    rw [readLeb_overlong hread]
    exact h
  | value w rest =>
    rw [hread] at h
    obtain ⟨header, -, rfl, hany⟩ := readLeb_value hread
    rw [List.append_assoc, hany]
    dsimp only at h ⊢
    split at h
    case isTrue => cases h
    case isFalse hw => rw [if_neg hw]; exact h

theorem split_append_overlong {bytes : Bytes} {v : Nat} (h : (split varintPrefix bytes).kind = .overlong v)
    (more : Bytes) : (split varintPrefix (bytes ++ more)).kind = .overlong v := by
  induction bytes using split_induction varintPrefix with
  | nil => cases h
  | frame header body rest _ hread hsplit ih =>
    rw [hsplit] at h
    rw [List.append_assoc, split_frame varintPrefix _ hread]
    exact ih h
  | stop bytes hne hframes _ _ =>
    cases hread : varintPrefix.read bytes with
    | torn => rw [split_of_torn varintPrefix hne hread] at h; cases h
    | overlong w =>
      rw [split_of_overlong varintPrefix hne hread] at h
      cases h
      have hne' : bytes ++ more ≠ [] := fun hnil => hne (List.append_eq_nil_iff.1 hnil).1
      rw [split_of_overlong varintPrefix hne' (read_overlong hread more)]
    | value len rest =>
      by_cases hlen : len ≤ rest.length
      · rw [split_value varintPrefix hread hlen] at hframes
        cases hframes
      · rw [split_torn varintPrefix hread (Nat.lt_of_not_le hlen)] at h
        cases h

/-- A batch that is stored behind anything but a torn tail is one frame more, the last. -/
theorem splitSegmentBatches_append {bytes batch : Bytes} (h : (split varintPrefix bytes).kind ≠ .torn)
    (hlen : (frameBytes batch).length ≤ maxArrayLength) :
    splitSegmentBatches (bytes ++ frameBytes batch) = (splitSegmentBatches bytes).map (· ++ [batch]) := by
  have hbatch : batch.length < 2 ^ 32 := by
    have hpos := List.length_pos_iff.2 (encodeVarint_ne_nil batch.length)
    rw [frameBytes, List.length_append] at hlen
    simp only [maxArrayLength] at hlen
    omega
  cases hkind : (split varintPrefix bytes).kind with
  | torn => exact absurd hkind h
  | overlong v => simp [splitSegmentBatches, hkind, split_append_overlong hkind]
  | clean => simp [splitSegmentBatches, hkind, split_append_frame hkind hbatch, Split.bodies]

/-! ## The keys of a hydrated segment -/

section Keys
variable {bridge : WireBridge}

/-- What hydration leaves of a segment it reads to the end. -/
theorem intact_goodBytes (decode : Bytes → Option (List WireOp)) (bytes : Bytes) :
    split varintPrefix (goodBytes decode bytes) = ⟨goodFrames decode bytes, [], .clean⟩ :=
  split_raw varintPrefix fun _ hf => mem_split_frames varintPrefix ((List.takeWhile_prefix _).subset hf)

theorem decodeFrames_goodBytes (decode : Bytes → Option (List WireOp)) (bytes : Bytes) :
    decodeFrames decode (split varintPrefix (goodBytes decode bytes)) = some (goodOps decode bytes) := by
  have hgood := intact_goodBytes decode bytes
  have hintact : Intact decode (goodBytes decode bytes) := by
    rw [Intact, hgood]
    refine ⟨rfl, fun f hf => ?_⟩
    have hmem : f ∈ (split varintPrefix bytes).frames.takeWhile fun f => (decode f.body).isSome := hf
    exact @List.mem_takeWhile_imp _ (fun f => (decode f.body).isSome) _ f hmem
  rw [decodeFrames_of_intact hintact, hgood]
  rfl

/-- Hydration reads the segment to its end: neither it nor an earlier one overruns. -/
def ReadToEnd (decode : Bytes → Option (List WireOp)) (dir : Directory) (day : JsString) : Prop :=
  ¬ ((∃ day', Before day' day ∧ Stops (steady decode) dir day') ∨ Stops (steady decode) dir day)

/-- The log after a type was hydrated. -/
def hydratedLog (decode : Bytes → Option (List WireOp)) (m : JsString → Rat) (log : OpLog) (type : CrdtType) : OpLog :=
  ⟨Function.update log.dir type (hydrate (steady decode) m (log.dir type)).dir⟩

/-- After hydration a segment that was read to its end has the keys of the ops it yielded,
unless one of these cannot be encoded. -/
theorem segmentCompositeKeys_hydrated (hb : bridge.SegmentWise) {log : OpLog} {type : CrdtType} {day : JsString}
    {f : SegmentFile} (hf : log.file type day = some f) (hread : ReadToEnd bridge.decode (log.dir type) day)
    (m : JsString → Rat) : (hydratedLog bridge.decode m log type).segmentCompositeKeys bridge type day =
      ((goodOps bridge.decode f.bytes).mapM compositeKeyHex).map sortedKeys := by
  rcases hydrate_bytes (steady bridge.decode) m hf with ⟨hstop, -⟩ | ⟨-, g, hg, hbytes⟩
  · exact absurd hstop hread
  · have hfile : (hydratedLog bridge.decode m log type).file type day = some g := by
      show (Function.update log.dir type (hydrate (steady bridge.decode) m (log.dir type)).dir type).get day = some g
      rw [Function.update_self]
      exact hg
    have hgood : g.bytes = goodBytes bridge.decode f.bytes := by
      rw [hbytes, acceptedFrames_steady]
      rfl
    have hdec := hb g.bytes
    rw [← varintPrefix_eq, hgood, decodeFrames_goodBytes, ← hgood] at hdec
    simp only [OpLog.segmentCompositeKeys, hfile, hdec]
    rfl

end Keys

/-! ## Agreement -/

/-- The splitter, the serializer and hydration agree: on the frames of any bytes, on what decodes, on
what an append adds, and on the keys of this segment once hydration has cut it back. -/
structure ReadersAgree (brotli : Native.Brotli) (text : NumberText) (log : OpLog) (type : CrdtType) (day : JsString)
    (m : JsString → Rat) : Prop where
  framing : ∀ bytes, splitSegmentBatches bytes = nativeFrames bytes
  decoding : ∀ bytes ops, Native.decodeSegment brotli bytes = .ok ops ↔
    ∃ batches, splitSegmentBatches bytes = some batches ∧
      ∃ decoded, batches.mapM (Native.decodeBatch brotli) = .ok decoded ∧ ops = decoded.flatten
  appending : ∀ bytes batch, (split varintPrefix bytes).kind ≠ .torn → (frameBytes batch).length ≤ maxArrayLength →
    splitSegmentBatches (bytes ++ frameBytes batch) = (splitSegmentBatches bytes).map (· ++ [batch])
  keys : ∀ f, log.file type day = some f → ReadToEnd (nativeBridge brotli text).decode (log.dir type) day →
    (hydratedLog (nativeBridge brotli text).decode m log type).segmentCompositeKeys (nativeBridge brotli text) type day =
      .ok (sortedKeys ((scanSegment (steady (nativeBridge brotli text).decode day) f.bytes).ops.map
        fun op => keyHex op.key))

/-- An observation at 2^53, as the serializer writes it. -/
def lateBatch : Bytes :=
  [0, 0x48, 0x59, 0x56, 0x31, 1, 2, 1, 0x61, 1, 0x62, 0x20, 0, 0x20, 0, 0, 0, 0, 0, 0, 0, 0, 0, 0,
    7, 7, 7, 7, 7, 7, 7, 7, 7, 7, 7, 7, 7, 7, 7, 7, 0, 1, 0, 0, 0, 0, 0, 1, 0, 1]

def lateLog : OpLog := OpLog.empty.appendToFile .gset (ascii "1970-01-01") (frameBytes lateBatch) 0

end Hayven.Crdt
