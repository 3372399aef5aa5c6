import Hayven.Crdt.Oplog
import Mathlib.Data.List.TakeWhile
/-!
# Hydration and what it truncates

`OpLog.hydrate` of `crdt/oplog.ts`. Segments are read in file-name order, batch by
batch. A torn tail, a batch that does not decode and a call to the bridge that
throws for a reason of its own all end the segment, which is then cut back to its
last accepted batch; a length out of range ends hydration.
-/
open Hayven.Lib

namespace Hayven.Crdt

/-! ## The generator -/

/-- A call of `bridge.decode`: the day of the segment being read, the place of the batch in it, its bytes. -/
abbrev DecodeCall := JsString → Nat → Bytes → Option (List WireOp)

/-- Every call answers as the decoder does. -/
def steady (decode : Bytes → Option (List WireOp)) : DecodeCall := fun _ _ batch => decode batch

/-- The calls in `fails` throw, whatever their bytes. -/
def faulty (decode : Bytes → Option (List WireOp)) (fails : JsString → Nat → Bool) : DecodeCall :=
  fun day i batch => if fails day i then none else decode batch

structure Scan where
  ops : List WireOp
  /-- `lastGoodEnd`. -/
  goodEnd : Nat
  /-- What `readVarint` threw. -/
  thrown : Option Nat

/-- The loop over the batches of one segment, the first of these frames being number `i`. -/
def scanFrames (call : Nat → Bytes → Option (List WireOp)) (kind : TailKind) : Nat → List Frame → Scan
  | _, [] => ⟨[], 0, match kind with | .overlong v => some v | _ => none⟩
  | i, f :: rest =>
    match call i f.body with
    | none => ⟨[], 0, none⟩
    | some decoded =>
      let s := scanFrames call kind (i + 1) rest
      ⟨decoded ++ s.ops, f.raw.length + s.goodEnd, s.thrown⟩

def scanSegment (call : Nat → Bytes → Option (List WireOp)) (bytes : Bytes) : Scan :=
  let s := split varintPrefix bytes
  scanFrames call s.kind 0 s.frames

/-- `truncateAndWarn`, if there is anything to cut off. -/
def truncateTo (f : SegmentFile) (goodEnd : Nat) (mtimeMs : Rat) : SegmentFile :=
  if goodEnd ≠ f.bytes.length then ⟨f.bytes.take goodEnd, mtimeMs⟩ else f

structure Hydrated where
  /-- The ops yielded, in order. -/
  ops : List WireOp
  dir : Directory
  thrown : Option Nat

/-- The loop over the segment files. -/
def hydrateSegments (call : DecodeCall) (mtimeMs : JsString → Rat) : List JsString → Directory → Hydrated
  | [], dir => ⟨[], dir, none⟩
  | day :: rest, dir =>
    match dir.get day with
    | none => hydrateSegments call mtimeMs rest dir
    | some f =>
      let s := scanSegment (call day) f.bytes
      match s.thrown with
      | some v => ⟨s.ops, dir, some v⟩
      | none =>
        let h := hydrateSegments call mtimeMs rest (dir.set day (truncateTo f s.goodEnd (mtimeMs day)))
        { h with ops := s.ops ++ h.ops }

def fileName (day : JsString) : JsString := day ++ ascii ".log"

/-- `readdirSync(dir).sort()`. -/
def segmentFiles (dir : Directory) : List JsString := sortWith (cmpOn fileName compare) dir.keys

def hydrate (call : DecodeCall) (mtimeMs : JsString → Rat) (dir : Directory) : Hydrated :=
  hydrateSegments call mtimeMs (segmentFiles dir) dir

/-! ## One segment -/

/-- The leading frames whose calls succeed. -/
def acceptedFrames (call : Nat → Bytes → Option (List WireOp)) : Nat → List Frame → List Frame
  | _, [] => []
  | i, f :: rest => if (call i f.body).isSome then f :: acceptedFrames call (i + 1) rest else []

/-- The leading frames whose batches decode. -/
def goodFrames (decode : Bytes → Option (List WireOp)) (bytes : Bytes) : List Frame :=
  (split varintPrefix bytes).frames.takeWhile fun f => (decode f.body).isSome

/-- The longest run of complete batches that decode. -/
def goodBytes (decode : Bytes → Option (List WireOp)) (bytes : Bytes) : Bytes :=
  (goodFrames decode bytes).flatMap Frame.raw

/-- A concatenation of complete batches, each of which decodes. -/
def Intact (decode : Bytes → Option (List WireOp)) (bytes : Bytes) : Prop :=
  (split varintPrefix bytes).kind = .clean ∧ ∀ f ∈ (split varintPrefix bytes).frames, (decode f.body).isSome

instance (decode : Bytes → Option (List WireOp)) (bytes : Bytes) : Decidable (Intact decode bytes) :=
  inferInstanceAs (Decidable (_ ∧ _))

theorem acceptedFrames_prefix (call : Nat → Bytes → Option (List WireOp)) (i : Nat) (frames : List Frame) :
    acceptedFrames call i frames <+: frames := by
  induction frames generalizing i with
  | nil => exact List.prefix_rfl
  | cons f rest ih =>
    rw [acceptedFrames]
    split
    · exact List.cons_prefix_cons.2 ⟨rfl, ih (i + 1)⟩
    · exact List.nil_prefix

theorem scanFrames_goodEnd (call : Nat → Bytes → Option (List WireOp)) (kind : TailKind) (i : Nat)
    (frames : List Frame) : (scanFrames call kind i frames).goodEnd =
      ((acceptedFrames call i frames).flatMap Frame.raw).length := by
  induction frames generalizing i with
  | nil => rfl
  | cons f rest ih =>
    rw [scanFrames, acceptedFrames]
    cases call i f.body with
    | none => rfl
    | some decoded => simp [ih (i + 1)]

/-- Hydration ends at a segment exactly when all its frames are accepted and its tail is malformed. -/
theorem scanFrames_thrown (call : Nat → Bytes → Option (List WireOp)) (kind : TailKind) (i : Nat)
    (frames : List Frame) : (scanFrames call kind i frames).thrown ≠ none ↔
      (∃ v, kind = .overlong v) ∧ acceptedFrames call i frames = frames := by
  induction frames generalizing i with
  | nil => cases kind <;> simp [scanFrames, acceptedFrames]
  | cons f rest ih =>
    rw [scanFrames, acceptedFrames]
    cases call i f.body with
    | none => simp
    | some decoded => simpa using ih (i + 1)

/-- What is kept of a segment that is read to its end. -/
theorem truncateTo_bytes (call : Nat → Bytes → Option (List WireOp)) (f : SegmentFile) (m : Rat) :
    (truncateTo f (scanSegment call f.bytes).goodEnd m).bytes =
      (acceptedFrames call 0 (split varintPrefix f.bytes).frames).flatMap Frame.raw := by
  obtain ⟨rest, hrest⟩ := acceptedFrames_prefix call 0 (split varintPrefix f.bytes).frames
  have hbytes := split_bytes varintPrefix f.bytes
  rw [Split.good, ← hrest, List.flatMap_append, List.append_assoc] at hbytes
  have hend := scanFrames_goodEnd call (split varintPrefix f.bytes).kind 0 (split varintPrefix f.bytes).frames
  have htake : f.bytes.take (scanSegment call f.bytes).goodEnd =
      (acceptedFrames call 0 (split varintPrefix f.bytes).frames).flatMap Frame.raw := by
    rw [scanSegment, hend]
    have htake := congrArg (List.take ((acceptedFrames call 0 (split varintPrefix f.bytes).frames).flatMap
      Frame.raw).length) hbytes
    rw [← htake, List.take_left]
  unfold truncateTo
  split
  · exact htake
  case isFalse h => rw [← htake, not_not.1 h, List.take_length]

section Faults
variable (decode : Bytes → Option (List WireOp)) (fails : JsString → Nat → Bool)

theorem faulty_isSome {day : JsString} {i : Nat} {batch : Bytes} :
    (faulty decode fails day i batch).isSome = (!fails day i && (decode batch).isSome) := by
  unfold faulty
  cases fails day i <;> simp

theorem acceptedFrames_prefix_good (day : JsString) (i : Nat) (frames : List Frame) :
    acceptedFrames (faulty decode fails day) i frames <+: frames.takeWhile fun f => (decode f.body).isSome := by
  induction frames generalizing i with
  | nil => exact List.prefix_rfl
  | cons f rest ih =>
    rw [acceptedFrames, faulty_isSome, List.takeWhile_cons]
    cases fails day i <;> cases (decode f.body).isSome <;> simp [ih (i + 1)]

/-- Every good frame is accepted exactly when no call for one of them fails. -/
theorem acceptedFrames_eq_good (day : JsString) (i : Nat) (frames : List Frame) :
    acceptedFrames (faulty decode fails day) i frames = (frames.takeWhile fun f => (decode f.body).isSome) ↔
      ∀ j < (frames.takeWhile fun f => (decode f.body).isSome).length, fails day (i + j) = false := by
  induction frames generalizing i with
  | nil => simp [acceptedFrames]
  | cons f rest ih =>
    rw [acceptedFrames, faulty_isSome, List.takeWhile_cons]
    cases hdec : (decode f.body).isSome with
    | false => simp
    | true =>
      have hshift : (∀ j < (f :: rest.takeWhile fun f => (decode f.body).isSome).length, fails day (i + j) = false) ↔
          fails day i = false ∧
            ∀ j < (rest.takeWhile fun f => (decode f.body).isSome).length, fails day (i + 1 + j) = false := by
        rw [List.length_cons]
        refine ⟨fun h => ⟨h 0 (Nat.succ_pos _), fun j hj => ?_⟩, fun h j hj => ?_⟩
        · rw [Nat.add_assoc, Nat.add_comm 1 j]
          exact h (j + 1) (Nat.succ_lt_succ hj)
        · cases j with
          | zero => exact h.1
          | succ j =>
            rw [Nat.add_comm j 1, ← Nat.add_assoc]
            exact h.2 j (Nat.lt_of_succ_lt_succ hj)
      rw [if_pos rfl, hshift]
      cases fails day i <;> simp [ih (i + 1)]

end Faults

/-! ## Several segments -/

theorem hydrateSegments_append (call : DecodeCall) (m : JsString → Rat) (days days' : List JsString) (dir : Directory) :
    hydrateSegments call m (days ++ days') dir =
      let h := hydrateSegments call m days dir
      match h.thrown with
      | some v => ⟨h.ops, h.dir, some v⟩
      | none =>
        let h' := hydrateSegments call m days' h.dir
        { h' with ops := h.ops ++ h'.ops } := by
  induction days generalizing dir with
  | nil => rfl
  | cons day rest ih =>
    rw [List.cons_append, hydrateSegments, hydrateSegments]
    cases dir.get day with
    | none => exact ih dir
    | some f =>
      dsimp only
      cases hthrown : (scanSegment (call day) f.bytes).thrown with
      | some v => rfl
      | none =>
        dsimp only
        rw [ih]
        cases h : (hydrateSegments call m rest
          (dir.set day (truncateTo f (scanSegment (call day) f.bytes).goodEnd (m day)))).thrown with
        | some v => simp only [h]
        | none => simp only [h, List.append_assoc]

/-- Only the files that are read change. -/
theorem hydrateSegments_frame (call : DecodeCall) (m : JsString → Rat) {days : List JsString} (dir : Directory)
    {day : JsString} (h : day ∉ days) : (hydrateSegments call m days dir).dir.get day = dir.get day := by
  induction days generalizing dir with
  | nil => rfl
  | cons day' rest ih =>
    simp only [List.mem_cons, not_or] at h
    rw [hydrateSegments]
    cases dir.get day' with
    | none => exact ih dir h.2
    | some f =>
      dsimp only
      split
      · rfl
      · dsimp only
        rw [ih _ h.2, KeyedMap.get_set_ne _ _ (Ne.symm h.1)]

/-- A segment at which hydration ends. -/
def Stops (call : DecodeCall) (dir : Directory) (day : JsString) : Prop :=
  ∃ f, dir.get day = some f ∧ (scanSegment (call day) f.bytes).thrown ≠ none

/-- Hydration ends early exactly when it meets a segment that stops it. -/
theorem hydrateSegments_thrown (call : DecodeCall) (m : JsString → Rat) {days : List JsString} (hnd : days.Nodup)
    (dir : Directory) : (hydrateSegments call m days dir).thrown ≠ none ↔ ∃ day ∈ days, Stops call dir day := by
  induction days generalizing dir with
  | nil => simp [hydrateSegments]
  | cons day rest ih =>
    obtain ⟨hnot, hnd⟩ := List.nodup_cons.1 hnd
    rw [hydrateSegments]
    cases hget : dir.get day with
    | none =>
      have hself : ¬ Stops call dir day := fun ⟨f, hf, _⟩ => by rw [hget] at hf; cases hf
      simp [ih hnd dir, hself]
    | some f =>
      have hself : Stops call dir day ↔ (scanSegment (call day) f.bytes).thrown ≠ none :=
        ⟨fun ⟨g, hg, h⟩ => by rw [hget] at hg; cases hg; exact h, fun h => ⟨f, hget, h⟩⟩
      have hrest : ∀ day' ∈ rest, ∀ g, Stops call (dir.set day g) day' ↔ Stops call dir day' := by
        intro day' hmem g
        have hne : day ≠ day' := fun h => hnot (h ▸ hmem)
        simp only [Stops, KeyedMap.get_set_ne _ _ hne]
      dsimp only
      cases hthrown : (scanSegment (call day) f.bytes).thrown with
      | some v => simp [hself, hthrown]
      | none =>
        dsimp only
        rw [ih hnd]
        simp only [List.mem_cons, exists_eq_or_imp, hself, hthrown, ne_eq, not_true_eq_false, false_or]
        exact exists_congr fun day' => and_congr_right fun hmem => hrest day' hmem _

/-- The segment file `day'` is read before `day`. -/
def Before (day' day : JsString) : Prop := compare (fileName day') (fileName day) = .lt

theorem fileName_inj {day day' : JsString} (h : fileName day = fileName day') : day = day' :=
  List.append_cancel_right h

/-- The files around one in the order of hydration. -/
theorem segmentFiles_split {dir : Directory} {day : JsString} {f : SegmentFile} (h : dir.get day = some f) :
    ∃ pre post, segmentFiles dir = pre ++ day :: post ∧ pre.Nodup ∧ day ∉ pre ∧ day ∉ post ∧
      ∀ day', day' ∈ pre ↔ (∃ f', dir.get day' = some f') ∧ Before day' day := by
  have hmem : day ∈ segmentFiles dir := (mem_sortWith _).2 (KeyedMap.mem_keys.2 ⟨f, h⟩)
  obtain ⟨pre, post, hsplit⟩ := List.append_of_mem hmem
  have hnd : (segmentFiles dir).Nodup := (sortWith_perm _ _).nodup_iff.2 dir.nodup
  have hsorted := sortWith_pairwise (cmpOn fileName compare) dir.keys
  rw [hsplit] at hnd
  rw [← segmentFiles, hsplit, List.pairwise_append] at hsorted
  obtain ⟨hpre, hpost, hdisj⟩ := List.nodup_append.1 hnd
  have hnpre : day ∉ pre := fun hm => hdisj day hm day List.mem_cons_self rfl
  have hnpost : day ∉ post := (List.nodup_cons.1 hpost).1
  refine ⟨pre, post, hsplit, hpre, hnpre, hnpost, fun day' => ⟨fun hm => ?_, fun ⟨hf', hlt⟩ => ?_⟩⟩
  · have hkeys : day' ∈ dir.keys := (mem_sortWith _).1 (hsplit ▸ List.mem_append_left _ hm : day' ∈ segmentFiles dir)
    have hle := hsorted.2.2 day' hm day List.mem_cons_self
    refine ⟨KeyedMap.mem_keys.1 hkeys, ?_⟩
    unfold Before
    cases hc : compare (fileName day') (fileName day) with
    | lt => rfl
    | eq =>
      have heq := fileName_inj (Std.LawfulEqCmp.eq_of_compare hc)
      exact absurd (heq ▸ hm) hnpre
    | gt => simp [cmpOn, hc] at hle
  · have hkeys : day' ∈ segmentFiles dir := (mem_sortWith _).2 (KeyedMap.mem_keys.2 hf')
    rw [hsplit, List.mem_append, List.mem_cons] at hkeys
    unfold Before at hlt
    rcases hkeys with hm | rfl | hm
    · exact hm
    · have hself : compare (fileName day') (fileName day') = .eq := Std.ReflCmp.compare_self
      rw [hself] at hlt
      cases hlt
    · have hle := (List.pairwise_cons.1 hsorted.2.1).1 day' hm
      have hgt := Std.OrientedCmp.gt_of_lt hlt
      simp [cmpOn, hgt] at hle

/-- What hydration leaves of a file: all of it if an earlier segment or its own tail
stops hydration, else the batches whose calls succeed. -/
theorem hydrate_bytes (call : DecodeCall) (m : JsString → Rat) {dir : Directory} {day : JsString} {f : SegmentFile}
    (h : dir.get day = some f) :
    ((∃ day', Before day' day ∧ Stops call dir day') ∨ Stops call dir day) ∧
        (hydrate call m dir).dir.get day = some f ∨
      ¬ (∃ day', Before day' day ∧ Stops call dir day') ∧ ∃ f', (hydrate call m dir).dir.get day = some f' ∧
        f'.bytes = (acceptedFrames (call day) 0 (split varintPrefix f.bytes).frames).flatMap Frame.raw := by
  obtain ⟨pre, post, hsplit, hpre, hnpre, hnpost, hiff⟩ := segmentFiles_split h
  have hearly : (hydrateSegments call m pre dir).thrown ≠ none ↔ ∃ day', Before day' day ∧ Stops call dir day' := by
    rw [hydrateSegments_thrown call m hpre]
    constructor
    · rintro ⟨day', hm, hs⟩
      exact ⟨day', ((hiff day').1 hm).2, hs⟩
    · rintro ⟨day', hb, f', hf', ht⟩
      exact ⟨day', (hiff day').2 ⟨⟨f', hf'⟩, hb⟩, f', hf', ht⟩
  rw [hydrate, hsplit, hydrateSegments_append]
  have hkeep := hydrateSegments_frame call m dir hnpre
  rw [← hearly]
  dsimp only
  cases hthrown : (hydrateSegments call m pre dir).thrown with
  | some v => exact .inl ⟨.inl (by simp), hkeep.trans h⟩
  | none =>
    dsimp only
    rw [hydrateSegments, hkeep, h]
    dsimp only
    cases hown : (scanSegment (call day) f.bytes).thrown with
    | some v => exact .inl ⟨.inr ⟨f, h, by simp [hown]⟩, hkeep.trans h⟩
    | none =>
      refine .inr ⟨by simp, _, ?_, truncateTo_bytes (call day) f (m day)⟩
      dsimp only
      rw [hydrateSegments_frame call m _ hnpost, KeyedMap.get_set_self]

/-! ## Failing calls -/

section Faults
variable {decode : Bytes → Option (List WireOp)} {fails : JsString → Nat → Bool}

/-- Batches that all decode, no call for one of them failing, and then a length out of range. -/
def Halts (decode : Bytes → Option (List WireOp)) (fails : JsString → Nat → Bool) (dir : Directory)
    (day : JsString) : Prop :=
  ∃ f, dir.get day = some f ∧ (∃ v, (split varintPrefix f.bytes).kind = .overlong v) ∧
    (∀ fr ∈ (split varintPrefix f.bytes).frames, (decode fr.body).isSome) ∧
    ∀ i < (split varintPrefix f.bytes).frames.length, fails day i = false

/-- No call for a good batch of the segment fails, or hydration ends before the segment. -/
def Spared (decode : Bytes → Option (List WireOp)) (fails : JsString → Nat → Bool) (dir : Directory)
    (day : JsString) (bytes : Bytes) : Prop :=
  (∀ i < (goodFrames decode bytes).length, fails day i = false) ∨
    ∃ day', Before day' day ∧ Halts decode fails dir day'

theorem acceptedFrames_eq_all (day : JsString) (frames : List Frame) :
    acceptedFrames (faulty decode fails day) 0 frames = frames ↔
      (∀ fr ∈ frames, (decode fr.body).isSome) ∧ ∀ i < frames.length, fails day i = false := by
  have hgood := acceptedFrames_eq_good decode fails day 0 frames
  simp only [Nat.zero_add] at hgood
  constructor
  · intro h
    have hpre := acceptedFrames_prefix_good decode fails day 0 frames
    rw [h] at hpre
    have htake := (List.takeWhile_prefix _).eq_of_length_le hpre.length_le
    rw [htake] at hgood
    exact ⟨fun fr hfr => List.takeWhile_eq_self_iff.1 htake fr hfr, hgood.1 h⟩
  · rintro ⟨hdec, hfails⟩
    have htake := List.takeWhile_eq_self_iff.2 hdec
    rw [htake] at hgood
    exact hgood.2 hfails

theorem stops_faulty {dir : Directory} {day : JsString} :
    Stops (faulty decode fails) dir day ↔ Halts decode fails dir day :=
  exists_congr fun f => and_congr_right fun _ => by
    rw [scanSegment, scanFrames_thrown, acceptedFrames_eq_all]

theorem raw_ne_nil {bytes : Bytes} {f : Frame} (h : f ∈ (split varintPrefix bytes).frames) : f.raw ≠ [] := by
  have hne := header_ne_nil varintPrefix (mem_split_frames varintPrefix h)
  simp [Frame.raw, hne]

/-- Frames are lost from a run of frames as soon as bytes are. -/
theorem prefix_of_raw_prefix {l l' : List Frame} (hne : ∀ f ∈ l', f.raw ≠ []) (hpre : l <+: l')
    (h : l'.flatMap Frame.raw <+: l.flatMap Frame.raw) : l = l' := by
  obtain ⟨more, rfl⟩ := hpre
  have hlen := h.length_le
  rw [List.flatMap_append, List.length_append] at hlen
  have hmore : more.flatMap Frame.raw = [] := List.length_eq_zero_iff.1 (by omega)
  cases more with
  | nil => rw [List.append_nil]
  | cons f rest =>
    rw [List.flatMap_cons, List.append_eq_nil_iff] at hmore
    exact absurd hmore.1 (hne f (by simp))

/-- What the decoder accepts at the front of a segment survives hydration exactly when no
call for one of these batches fails, or hydration ends before the segment; an intact
segment is then unchanged, and otherwise it loses a batch. -/
theorem hydrate_keeps_iff {log : OpLog} {type : CrdtType} {day : JsString} {f : SegmentFile}
    (hf : log.file type day = some f) (fails : JsString → Nat → Bool) (m : JsString → Rat) :
    let after := (hydrate (faulty decode fails) m (log.dir type)).dir.get day
    ((∃ g, after = some g ∧ goodBytes decode f.bytes <+: g.bytes) ↔
        Spared decode fails (log.dir type) day f.bytes) ∧
      (Intact decode f.bytes → (after.map SegmentFile.bytes = some f.bytes ↔
        Spared decode fails (log.dir type) day f.bytes)) := by
  intro after
  have hgood := acceptedFrames_eq_good decode fails day 0 (split varintPrefix f.bytes).frames
  simp only [Nat.zero_add] at hgood
  have hbegins : goodBytes decode f.bytes <+: f.bytes := by
    obtain ⟨more, hmore⟩ := List.takeWhile_prefix (l := (split varintPrefix f.bytes).frames)
      fun fr => (decode fr.body).isSome
    refine ⟨more.flatMap Frame.raw ++ (split varintPrefix f.bytes).tail, ?_⟩
    conv_rhs => rw [← split_bytes varintPrefix f.bytes, Split.good, ← hmore, List.flatMap_append]
    rw [List.append_assoc]
    rfl
  have hmain : (∃ g, after = some g ∧ goodBytes decode f.bytes <+: g.bytes) ↔
      Spared decode fails (log.dir type) day f.bytes := by
    rcases hydrate_bytes (faulty decode fails) m hf with ⟨hstop, hkeep⟩ | ⟨hgo, g, hg, hbytes⟩
    · refine iff_of_true ⟨f, hkeep, hbegins⟩ ?_
      simp only [stops_faulty] at hstop
      rcases hstop with hstop | ⟨f', hf', -, hdec, hcalls⟩
      · exact .inr hstop
      · cases hf.symm.trans hf'
        refine .inl ?_
        rw [goodFrames, List.takeWhile_eq_self_iff.2 hdec]
        exact hcalls
    · simp only [stops_faulty] at hgo
      rw [Spared, or_iff_left hgo, goodFrames, ← hgood]
      constructor
      · rintro ⟨g', hg', hpre⟩
        cases hg.symm.trans hg'
        rw [hbytes] at hpre
        refine prefix_of_raw_prefix (fun fr hfr => ?_) (acceptedFrames_prefix_good decode fails day 0 _) hpre
        exact raw_ne_nil ((List.takeWhile_prefix _).subset hfr)
      · intro heq
        refine ⟨g, hg, ?_⟩
        rw [hbytes, heq]
        exact List.prefix_rfl
  refine ⟨hmain, ?_⟩
  rintro ⟨hclean, hdec⟩
  have hwhole : goodBytes decode f.bytes = f.bytes := by
    have htail := (split_tail_eq_nil varintPrefix f.bytes).2 hclean
    have hall := split_bytes varintPrefix f.bytes
    rw [htail, List.append_nil] at hall
    rw [goodBytes, goodFrames, List.takeWhile_eq_self_iff.2 hdec]
    exact hall
  rw [← hmain, hwhole]
  constructor
  · intro h
    obtain ⟨g, hg, hbytes⟩ := Option.map_eq_some_iff.1 h
    exact ⟨g, hg, hbytes ▸ List.prefix_rfl⟩
  · rintro ⟨g, hg, hpre⟩
    rw [hg, Option.map_some, Option.some.injEq]
    rcases hydrate_bytes (faulty decode fails) m hf with ⟨-, hkeep⟩ | ⟨-, g', hg', hbytes⟩
    · cases hg.symm.trans hkeep; rfl
    · cases hg.symm.trans hg'
      have hle : g.bytes <+: f.bytes := by
        obtain ⟨more, hmore⟩ := acceptedFrames_prefix_good decode fails day 0
          (split varintPrefix f.bytes).frames
        refine List.IsPrefix.trans ⟨more.flatMap Frame.raw, ?_⟩ hbegins
        rw [hbytes, goodBytes, goodFrames, ← hmore, List.flatMap_append]
      exact hle.eq_of_length_le hpre.length_le

end Faults

/-! ## A bridge that fails once -/

/-- Number formatting, as far as integers go. -/
def integerText : NumberText := ⟨fun q => intText q.num, fun s => .fin (decValue s)⟩

/-- A serializer without compression. -/
def plainBridge : WireBridge := nativeBridge ⟨id, some⟩ integerText

/-- One observation, as the serializer writes it. -/
def oneBatch : Bytes :=
  [0, 0x48, 0x59, 0x56, 0x31, 1, 2, 1, 0x61, 1, 0x62, 0x20, 0, 0, 0, 0, 0, 0, 0, 5, 0, 0, 0, 0,
    7, 7, 7, 7, 7, 7, 7, 7, 7, 7, 7, 7, 7, 7, 7, 7, 0, 1, 0, 0, 0, 0, 0, 1, 0, 1]

/-- Two of them in the segment of their day. -/
def twoBatchLog : OpLog :=
  OpLog.empty.appendToFile .gset (ascii "1970-01-01") (frameBytes oneBatch ++ frameBytes oneBatch) 0

/-- With no failing call the segment stays. -/
theorem hydrate_keeps_two_batches :
    ((hydrate (faulty plainBridge.decode fun _ _ => false) (fun _ => 1) (twoBatchLog.dir .gset)).dir.get
      (ascii "1970-01-01")).map SegmentFile.bytes = some (frameBytes oneBatch ++ frameBytes oneBatch) :=
  ((@hydrate_keeps_iff plainBridge.decode twoBatchLog .gset (ascii "1970-01-01")
    ⟨frameBytes oneBatch ++ frameBytes oneBatch, 0⟩ (by decide +kernel) (fun _ _ => false) (fun _ => 1)).2
      (by decide +kernel)).2 (.inl fun _ _ => rfl)

/-- The first call to the serializer throws; both batches, which decode, are cut off. -/
theorem hydrate_truncates_intact :
    Intact plainBridge.decode (twoBatchLog.bytes .gset (ascii "1970-01-01")) ∧
      ((hydrate (faulty plainBridge.decode fun _ i => i = 0) (fun _ => 1) (twoBatchLog.dir .gset)).dir.get
        (ascii "1970-01-01")).map SegmentFile.bytes = some [] := by
  decide +kernel

end Hayven.Crdt
