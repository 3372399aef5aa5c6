import Hayven.Cli.Replicas
import Hayven.Crdt.MerkleDiff
import Hayven.Lib.Replicated
/-!
# What a sync that goes through achieves

A run without refusals and failed requests, between two logs that are whole batches in
the segments they belong in, is one round of one-sided anti-entropy on the op keys of
each segment. It appends a segment of the peer's where the keys differ, whether or not
its ops are already there, and a segment of ours where the peer has no ops.
-/
open Hayven.Lib Hayven.Crdt Hayven.Daemon

namespace Hayven.Cli

/-! ## Logs and runs -/

/-- Whole batches, each op where it belongs, and a leaf cache that is right. -/
structure Ready (bridge : WireBridge) (blake3 : Bytes → Bytes) (s : Store) : Prop where
  stored : WellStored bridge s.oplog
  bucketed : Bucketed bridge s.oplog
  coherent : Coherent bridge blake3 s.oplog s.cache

/-- No batch is refused, every request is answered, and every pull reaches the end of its segment. -/
structure Clean (host : SyncHost) (ours theirs : Store) : Prop where
  accepted : (runSync host (.start ours theirs)).1.summary.refusedSegments = 0
  answered : ∀ status, (runSync host (.start ours theirs)).2 ≠ .failed (.http status)
  whole : WholePulls theirs.oplog

/-- The keys of the ops in each segment. -/
def keySets (bridge : WireBridge) (log : OpLog) : CrdtType × JsString → Set JsString :=
  fun p => {k | k ∈ segmentKeys bridge log p.1 p.2}

/-- Segments with the same set of keys have the same list of keys. -/
theorem keySets_eq_iff {bridge : WireBridge} {x y : OpLog} {p : CrdtType × JsString} :
    keySets bridge x p = keySets bridge y p ↔ segmentKeys bridge x p.1 p.2 = segmentKeys bridge y p.1 p.2 := by
  constructor
  · intro h
    exact segmentKeys_congr fun k => Set.ext_iff.1 h k
  · intro h
    simp only [keySets, h]

theorem keySets_eq_empty {bridge : WireBridge} {x : OpLog} {p : CrdtType × JsString} :
    keySets bridge x p = ∅ ↔ segmentKeys bridge x p.1 p.2 = [] := by
  rw [List.eq_nil_iff_forall_not_mem, Set.eq_empty_iff_forall_notMem]
  rfl

/-! ## Snapshots -/

section Snapshots
variable {bridge : WireBridge} {blake3 : Bytes → Bytes}

def EncodableLog (bridge : WireBridge) (log : OpLog) : Prop :=
  ∀ type day, ∀ op ∈ storedOps bridge log type day, op.hlc.Encodable

theorem computeMerkle_ready (hb : bridge.SegmentWise) {s : Store} (h : Ready bridge blake3 s)
    (henc : EncodableLog bridge s.oplog) : ∃ cache,
      computeMerkle bridge blake3 s.oplog s.cache = .ok (exactSnapshot bridge blake3 s.oplog, cache) ∧
        Coherent bridge blake3 s.oplog cache :=
  computeMerkle_ok h.coherent fun type =>
    freshLeaves_of_encodable blake3 hb h.stored (henc type) (s.oplog.listSegmentDays type)

/-- Whichever of the two snapshots a type's leaves come from, they are the peer's. -/
theorem exchangeLeaves_ready (hb : bridge.SegmentWise) {inputs : Nat → PushInput} {our : MerkleSnapshot} {s : Session}
    (h : Ready bridge blake3 s.theirs) (henc : EncodableLog bridge s.theirs.oplog)
    (hsame : ∀ type, our.roots type = (exactSnapshot bridge blake3 s.theirs.oplog).roots type →
      our.leaves type = exactLeaves bridge blake3 s.theirs.oplog type)
    (types : List CrdtType) (leaves : CrdtType → List SegmentLeaf) : ∃ s' leaves',
      exchangeLeaves ⟨bridge, blake3, inputs⟩ our (exactSnapshot bridge blake3 s.theirs.oplog).roots types leaves s =
        (s', .ok leaves') ∧ s'.ours = s.ours ∧ s'.theirs.oplog = s.theirs.oplog ∧
        Coherent bridge blake3 s.theirs.oplog s'.theirs.cache ∧
        s'.summary.refusedSegments = s.summary.refusedSegments ∧
        ∀ type, leaves' type = if type ∈ types then exactLeaves bridge blake3 s.theirs.oplog type else leaves type := by
  induction types generalizing leaves s with
  | nil => exact ⟨s, leaves, rfl, rfl, rfl, h.coherent, rfl, fun type => by simp⟩
  | cons type rest ih =>
    rw [exchangeLeaves]
    by_cases hroot : our.roots type = (exactSnapshot bridge blake3 s.theirs.oplog).roots type
    · rw [if_pos hroot]
      obtain ⟨s', leaves', heq, hours, hlog, hcoh, href, hleaves⟩ :=
        ih h henc hsame (Function.update leaves type (our.leaves type))
      refine ⟨s', leaves', heq, hours, hlog, hcoh, href, fun type' => ?_⟩
      rw [hleaves type', Function.update_apply]
      by_cases heq' : type' = type
      · subst heq'
        simp [hsame type' hroot]
      · simp [heq']
    · rw [if_neg hroot]
      obtain ⟨cache, hok, hcoh⟩ := computeMerkle_ready hb h henc
      rw [hok]
      dsimp only
      obtain ⟨s', leaves', heq, hours, hlog, hcoh', href, hleaves⟩ :=
        ih (s := (s.cached .theirs cache).roundTrip) ⟨h.stored, h.bucketed, hcoh⟩ henc hsame
          (Function.update leaves type (exactLeaves bridge blake3 s.theirs.oplog type))
      refine ⟨s', leaves', heq, hours, hlog, hcoh', href, fun type' => ?_⟩
      rw [hleaves type', Function.update_apply]
      by_cases heq' : type' = type
      · subst heq'
        simp [Session.cached, Session.roundTrip]
      · simp [heq', Session.cached, Session.roundTrip]

end Snapshots

/-! ## What moves add -/

/-- The batches sent to one segment. -/
def batchesAt (sent : List (CrdtType × JsString × Bytes)) (type : CrdtType) (day : JsString) : List Bytes :=
  (sent.filter fun b => b.1 = type ∧ b.2.1 = day).map fun b => b.2.2

theorem batchesAt_append (sent sent' : List (CrdtType × JsString × Bytes)) (type : CrdtType) (day : JsString) :
    batchesAt (sent ++ sent') type day = batchesAt sent type day ++ batchesAt sent' type day := by
  simp [batchesAt]

theorem batchesAt_sends (t : Target) (batches : List Bytes) (type : CrdtType) (day : JsString) :
    batchesAt (sends t batches) type day = if t.place = (type, day) then batches else [] := by
  induction batches with
  | nil => simp [batchesAt, sends]
  | cons batch rest ih =>
    simp only [sends, List.map_cons, batchesAt, List.filter_cons, Target.place, Prod.mk.injEq] at ih ⊢
    by_cases hplace : t.type = type ∧ t.path = day
    · simp only [hplace, and_self, decide_true, if_true, List.map_cons] at ih ⊢
      rw [ih]
    · simp only [hplace, decide_false, if_false] at ih ⊢
      exact ih

/-- A segment gets the batches of the one target it is. -/
theorem batchesAt_targets {ts : List Target} (hnd : (ts.map Target.place).Nodup) {f : CrdtType → JsString → List Bytes}
    (type : CrdtType) (day : JsString) : batchesAt (ts.flatMap fun t => sends t (f t.type t.path)) type day =
      if (type, day) ∈ ts.map Target.place then f type day else [] := by
  induction ts with
  | nil => rfl
  | cons t rest ih =>
    obtain ⟨hnot, hnd⟩ := List.nodup_cons.1 hnd
    rw [List.flatMap_cons, batchesAt_append, batchesAt_sends, ih hnd, List.map_cons]
    by_cases hplace : t.place = (type, day)
    · rw [hplace] at hnot
      cases hplace
      simp [hnot, Target.place]
    · have hne : (type, day) ≠ t.place := Ne.symm hplace
      simp [hplace, hne]

theorem bytes_applyMoves (log : OpLog) (moves : List Move) (type : CrdtType) (day : JsString) :
    (applyMoves log moves).bytes type day =
      log.bytes type day ++ (batchesAt (moves.map Move.sent) type day).flatMap frameBytes := by
  induction moves generalizing log with
  | nil => simp [applyMoves, batchesAt]
  | cons m rest ih =>
    rw [applyMoves, List.foldl_cons, ← applyMoves, ih, OpLog.bytes_appendToFile, List.append_assoc, List.map_cons]
    have hcons := batchesAt_append [m.sent] (rest.map Move.sent) type day
    rw [List.singleton_append] at hcons
    rw [hcons, List.flatMap_append]
    congr 2
    by_cases hplace : m.type = type ∧ m.path = day <;> simp [batchesAt, Move.sent, hplace]

theorem bodies_applyMoves {log : OpLog} (h : Framed log) {moves : List Move}
    (hlen : ∀ m ∈ moves, m.batch.length ≤ maxPushBatchBytes) (type : CrdtType) (day : JsString) :
    (split varintPrefix ((applyMoves log moves).bytes type day)).bodies =
      (split varintPrefix (log.bytes type day)).bodies ++ batchesAt (moves.map Move.sent) type day := by
  induction moves generalizing log with
  | nil => simp [applyMoves, batchesAt]
  | cons m rest ih =>
    have hm := length_lt_of_push (hlen m List.mem_cons_self)
    rw [applyMoves, List.foldl_cons, ← applyMoves,
      ih (framed_append h hm m.mtimeMs) fun m' hm' => hlen m' (List.mem_cons_of_mem _ hm'),
      frames_append h hm, List.append_assoc, List.map_cons]
    have hcons := batchesAt_append [m.sent] (rest.map Move.sent) type day
    rw [List.singleton_append] at hcons
    rw [hcons]
    congr 2
    by_cases hplace : m.type = type ∧ m.path = day <;> simp [batchesAt, Move.sent, hplace]

section Moves
variable {bridge : WireBridge} {blake3 : Bytes → Bytes} {x y : OpLog} {moves : List Move}

theorem framed_of_wellStored {log : OpLog} (h : WellStored bridge log) : Framed log := fun type day => (h type day).1

/-- A batch of a well-stored log decodes. -/
theorem decode_of_mem (h : WellStored bridge y) {type : CrdtType} {day : JsString} {batch : Bytes}
    (hb : batch ∈ (split varintPrefix (y.bytes type day)).bodies) : ∃ ops, bridge.decode batch = some ops := by
  obtain ⟨f, hf, rfl⟩ := List.mem_map.1 hb
  exact Option.isSome_iff_exists.1 ((h type day).2 f hf)

/-- Batches of a log that gives no trouble make none elsewhere. -/
theorem ready_applyMoves {cache : MerkleCache} (hx : Ready bridge blake3 ⟨x, cache⟩) (hy : WellStored bridge y)
    (hyb : Bucketed bridge y) (hfrom : From y moves) : Ready bridge blake3 ⟨applyMoves x moves, cache⟩ := by
  have hframed := framed_of_wellStored hx.stored
  refine ⟨?_, (bucketed_applyMoves hframed hfrom).2.2 hyb hx.bucketed, ?_⟩
  all_goals
    obtain ⟨hstored, -, hcoherent⟩ := hx
    clear hframed
    induction moves generalizing x with
    | nil => assumption
    | cons m rest ih =>
      obtain ⟨hb, hlen⟩ := hfrom m List.mem_cons_self
      obtain ⟨ops, hdec⟩ := decode_of_mem hy hb
      exact ih (fun m' hm' => hfrom m' (List.mem_cons_of_mem _ hm'))
        (wellStored_append hstored (length_lt_of_push hlen) hdec m.mtimeMs) (coherent_append hcoherent m.mtimeMs)

theorem storedOps_applyMoves (hx : Framed x) (hlen : ∀ m ∈ moves, m.batch.length ≤ maxPushBatchBytes)
    {type : CrdtType} {day : JsString} : storedOps bridge (applyMoves x moves) type day =
      storedOps bridge x type day ++
        (batchesAt (moves.map Move.sent) type day).flatMap fun batch => (bridge.decode batch).getD [] := by
  rw [storedOps_eq, bodies_applyMoves hx hlen, List.flatMap_append, storedOps_eq]

end Moves

/-! ## Runs that go through -/

theorem splitSegmentBatches_ne_none {bytes : Bytes} (h : (split varintPrefix bytes).kind = .clean) :
    splitSegmentBatches bytes ≠ none := by
  simp [splitSegmentBatches, h]

theorem postBatches_not_threw (host : SyncHost) (side : Side) (t : Target) (batches : List Bytes) (s : Session) :
    (postBatches host side t batches s).2 ≠ some .threw := by
  intro h
  obtain ⟨status, hstatus⟩ := postBatches_ended host side t batches s h
  cases hstatus

theorem pullTarget_not_threw (host : SyncHost) {log : OpLog} (hwhole : WholePulls log) (hframed : Framed log)
    (t : Target) (s : Session) (hs : s.oplog .theirs = log) : (pullTarget host t s).2 ≠ some .threw := by
  have hs : s.theirs.oplog = log := hs
  unfold pullTarget
  rw [hs]
  cases hpull : pullSegment log t with
  | error status => exact nofun
  | ok bytes =>
    dsimp only
    rw [hwhole t bytes hpull]
    cases hsplit : splitSegmentBatches (log.bytes t.type t.path) with
    | none => exact absurd hsplit (splitSegmentBatches_ne_none (hframed t.type t.path))
    | some batches => exact postBatches_not_threw host .ours t batches _

theorem pushTarget_not_threw (host : SyncHost) {log : OpLog} (hframed : Framed log) (t : Target) (s : Session)
    (hs : s.oplog .ours = log) : (pushTarget host t s).2 ≠ some .threw := by
  have hs : s.ours.oplog = log := hs
  unfold pushTarget
  rw [hs]
  cases hf : log.file t.type t.path with
  | none => simp [OpLog.readSegmentBytes, hf]
  | some f =>
    have hclean := hframed t.type t.path
    have hbytes : log.bytes t.type t.path = f.bytes := by simp [OpLog.bytes, hf]
    simp only [OpLog.readSegmentBytes, hf, Option.map_some]
    cases hsplit : splitSegmentBatches f.bytes with
    | none => exact absurd hsplit (splitSegmentBatches_ne_none (hbytes ▸ hclean))
    | some batches => exact postBatches_not_threw host .theirs t batches _

theorem forTargets_not_threw {round : Target → Session → Session × Option SyncError} {side source : Side} {log : OpLog}
    {batches : Target → List Bytes} (hne : source ≠ side)
    (hround : ∀ t s, s.oplog source = log → ∃ moves, Effect side (sends t (batches t)) s (round t s) moves)
    (hthrew : ∀ t s, s.oplog source = log → (round t s).2 ≠ some .threw) (ts : List Target) (s : Session)
    (hs : s.oplog source = log) : (forTargets round ts s).2 ≠ some .threw := by
  induction ts generalizing s with
  | nil => exact nofun
  | cons t rest ih =>
    obtain ⟨moves, h⟩ := hround t s hs
    have hsource := h.other source hne
    have ht := hthrew t s hs
    rw [forTargets]
    rcases hr : round t s with ⟨s', _ | e⟩
    · rw [hr] at hsource
      exact ih s' (hsource.trans hs)
    · rw [hr] at ht
      exact ht

/-- Between framed logs, a run that no daemon fails ends its transfers. -/
theorem transfer_transferred (host : SyncHost) (diff : MerkleDiff) (s : Session) (hwhole : WholePulls s.theirs.oplog)
    (hours : Framed s.ours.oplog) (htheirs : Framed s.theirs.oplog)
    (hanswered : ∀ status, (transfer host diff s).2 ≠ .failed (.http status)) :
    (transfer host diff s).2 = .transferred := by
  have hpulls : ∀ t s', s'.oplog .theirs = s.theirs.oplog →
      ∃ moves, Effect .ours (sends t (pullBatches s.theirs.oplog t)) s' (pullTarget host t s') moves := by
    intro t s' hs
    rw [← hs]
    exact pullTarget_effect host t s'
  have hpull := forTargets_not_threw (show Side.theirs ≠ .ours by decide) hpulls
    (pullTarget_not_threw host hwhole htheirs) diff.pull s rfl
  obtain ⟨moves, heffect⟩ := forTargets_effect (show Side.theirs ≠ .ours by decide) hpulls diff.pull s rfl
  unfold transfer at hanswered ⊢
  rcases hr : forTargets (pullTarget host) diff.pull s with ⟨s₁, _ | e⟩
  · rw [hr] at heffect
    -- the log the pushes read is ours after the pulls
    have hours₁ : Framed s₁.ours.oplog := by
      have hstored : s₁.ours.oplog = applyMoves s.ours.oplog moves := heffect.stored
      rw [hstored]
      exact (@bucketed_applyMoves host.bridge _ _ _ hours
        (from_of_sends (pullBatches_subset s.theirs.oplog) heffect.sub heffect.small)).1
    have hpushes : ∀ t s', s'.oplog .ours = s₁.ours.oplog →
        ∃ moves, Effect .theirs (sends t (segmentBatches s₁.ours.oplog t)) s' (pushTarget host t s') moves := by
      intro t s' hs
      rw [← hs]
      exact pushTarget_effect host t s'
    have hpush := forTargets_not_threw (show Side.ours ≠ .theirs by decide) hpushes
      (pushTarget_not_threw host hours₁) diff.push s₁ rfl
    rw [hr] at hanswered
    dsimp only at hanswered ⊢
    rcases hr' : forTargets (pushTarget host) diff.push s₁ with ⟨s₂, _ | e⟩
    · rfl
    · rw [hr'] at hpush hanswered
      cases e with
      | threw => exact absurd rfl hpush
      | http status => exact absurd rfl (hanswered status)
  · rw [hr] at hpull hanswered
    cases e with
    | threw => exact absurd rfl hpull
    | http status => exact absurd rfl (hanswered status)

/-- What a run between two logs leaves behind when it goes through. -/
structure Reconciled (bridge : WireBridge) (blake3 : Bytes → Bytes) (a b : Store) (r : Session × SyncOutcome)
    (pulled pushed : List Move) : Prop where
  ours : r.1.ours.oplog = applyMoves a.oplog pulled
  theirs : r.1.theirs.oplog = applyMoves b.oplog pushed
  pulls : From b.oplog pulled
  pushes : From r.1.ours.oplog pushed
  oursCache : Coherent bridge blake3 a.oplog r.1.ours.cache
  theirsCache : Coherent bridge blake3 b.oplog r.1.theirs.cache
  pulledAt : ∀ type day, batchesAt (pulled.map Move.sent) type day =
    if Differs bridge a.oplog b.oplog type day then (split varintPrefix (b.oplog.bytes type day)).bodies else []
  pushedAt : ∀ type day, batchesAt (pushed.map Move.sent) type day =
    if Lacks bridge a.oplog b.oplog type day then (split varintPrefix (a.oplog.bytes type day)).bodies else []

theorem rootsMatch_iff {x y : CrdtType → JsString} : rootsMatch x y = true ↔ ∀ type, x type = y type := by
  simp only [rootsMatch, decide_eq_true_eq]
  constructor
  · rintro ⟨hlww, hgset, horset⟩ type
    cases type with
    | lww => exact hlww
    | gset => exact hgset
    | orset => exact horset
  · exact fun h => ⟨h .lww, h .gset, h .orset⟩

/-- The run after the two snapshots. -/
theorem runSync_eq {host : SyncHost} {s : Session} {our their : MerkleSnapshot} {cache cache' : MerkleCache}
    (h : computeMerkle host.bridge host.blake3 s.ours.oplog s.ours.cache = .ok (our, cache))
    (h' : computeMerkle host.bridge host.blake3 s.theirs.oplog s.theirs.cache = .ok (their, cache')) :
    runSync host s = compareRoots host our their.roots ((s.cached .ours cache).cached .theirs cache').roundTrip := by
  have hpeer : computeMerkle host.bridge host.blake3 (s.cached .ours cache).theirs.oplog
      (s.cached .ours cache).theirs.cache = .ok (their, cache') := h'
  unfold runSync
  simp only [h, hpeer]

section Run
variable {bridge : WireBridge} {blake3 : Bytes → Bytes} (hb : bridge.SegmentWise) {inputs : Nat → PushInput}
  {a b : Store} (ha : Ready bridge blake3 a) (hb' : Ready bridge blake3 b)
  (hea : EncodableLog bridge a.oplog) (heb : EncodableLog bridge b.oplog)
include hb ha hb' hea heb

/-- Logs with the same keys are up to date. -/
theorem runSync_upToDate (hkeys : ∀ type day, segmentKeys bridge a.oplog type day = segmentKeys bridge b.oplog type day) :
    ∃ cache cache', runSync ⟨bridge, blake3, inputs⟩ (.start a b) =
        ((((Session.start a b).cached .ours cache).cached .theirs cache').roundTrip, .upToDate) ∧
      Coherent bridge blake3 a.oplog cache ∧ Coherent bridge blake3 b.oplog cache' := by
  obtain ⟨cache, hok, hcoh⟩ := computeMerkle_ready hb ha hea
  obtain ⟨cache', hok', hcoh'⟩ := computeMerkle_ready hb hb' heb
  refine ⟨cache, cache', ?_, hcoh, hcoh'⟩
  rw [@runSync_eq ⟨bridge, blake3, inputs⟩ (.start a b) _ _ _ _ hok hok']
  have hmatch : rootsMatch (exactSnapshot bridge blake3 a.oplog).roots (exactSnapshot bridge blake3 b.oplog).roots =
      true := by
    rw [rootsMatch_iff]
    intro type
    exact congrArg (rootOf blake3) (exactLeaves_congr (hkeys type))
  exact if_pos hmatch

/-- Logs with different keys exchange what their diff names. -/
theorem runSync_differ (h32 : ∀ x, (blake3 x).length = 32)
    (hcol : NoCollision blake3 (snapshotInputs bridge blake3 a.oplog ++ snapshotInputs bridge blake3 b.oplog))
    (hkeys : ¬ ∀ type day, segmentKeys bridge a.oplog type day = segmentKeys bridge b.oplog type day) :
    ∃ s : Session, runSync ⟨bridge, blake3, inputs⟩ (.start a b) = transfer ⟨bridge, blake3, inputs⟩
        (diffSnapshots (exactSnapshot bridge blake3 a.oplog) (exactSnapshot bridge blake3 b.oplog)) s ∧
      s.ours.oplog = a.oplog ∧ s.theirs.oplog = b.oplog ∧ Coherent bridge blake3 a.oplog s.ours.cache ∧
      Coherent bridge blake3 b.oplog s.theirs.cache ∧ s.summary.refusedSegments = 0 := by
  obtain ⟨cache, hok, hcoh⟩ := computeMerkle_ready hb ha hea
  obtain ⟨cache', hok', hcoh'⟩ := computeMerkle_ready hb hb' heb
  have hroots : ∀ type, (exactSnapshot bridge blake3 a.oplog).roots type =
      (exactSnapshot bridge blake3 b.oplog).roots type →
      ∀ day, segmentKeys bridge a.oplog type day = segmentKeys bridge b.oplog type day := fun type heq =>
    segmentKeys_eq_of_rootOf_eq h32 ha.bucketed hb'.bucketed hea heb hcol heq
  have hmatch : ¬ rootsMatch (exactSnapshot bridge blake3 a.oplog).roots
      (exactSnapshot bridge blake3 b.oplog).roots = true := by
    intro h
    rw [rootsMatch_iff] at h
    exact hkeys fun type day => hroots type (h type) day
  -- a type with equal roots has the same keys, so its leaves are the peer's as well
  have hsame : ∀ type, (exactSnapshot bridge blake3 a.oplog).roots type =
      (exactSnapshot bridge blake3 b.oplog).roots type →
      (exactSnapshot bridge blake3 a.oplog).leaves type = exactLeaves bridge blake3 b.oplog type := fun type heq =>
    exactLeaves_congr (hroots type heq)
  let s₁ := (((Session.start a b).cached .ours cache).cached .theirs cache').roundTrip
  have hready : Ready bridge blake3 s₁.theirs := ⟨hb'.stored, hb'.bucketed, hcoh'⟩
  obtain ⟨s₂, leaves, hex, hours, htheirs, hcoh₂, href, hleaves⟩ :=
    @exchangeLeaves_ready bridge blake3 hb inputs (exactSnapshot bridge blake3 a.oplog) s₁ hready heb hsame crdtTypes
      fun _ => []
  have hall : leaves = exactLeaves bridge blake3 b.oplog := by
    funext type
    rw [hleaves type, if_pos (mem_crdtTypes type)]
    rfl
  have hours' : s₂.ours = ⟨a.oplog, cache⟩ := hours
  refine ⟨s₂, ?_, by rw [hours'], htheirs, by rw [hours']; exact hcoh, hcoh₂, href⟩
  have hex' : exchangeLeaves ⟨bridge, blake3, inputs⟩ (exactSnapshot bridge blake3 a.oplog)
      (exactSnapshot bridge blake3 b.oplog).roots crdtTypes (fun _ => [])
      (((Session.start a b).cached .ours cache).cached .theirs cache').roundTrip = (s₂, .ok leaves) := hex
  rw [@runSync_eq ⟨bridge, blake3, inputs⟩ (.start a b) _ _ _ _ hok hok', compareRoots, if_neg hmatch]
  simp only [hex', hall]
  rfl

/-- A run that goes through moves whole segments: the peer's where the keys differ, ours
where the peer has none. -/
theorem reconciled_of_clean (h32 : ∀ x, (blake3 x).length = 32)
    (hcol : NoCollision blake3 (snapshotInputs bridge blake3 a.oplog ++ snapshotInputs bridge blake3 b.oplog))
    (hclean : Clean ⟨bridge, blake3, inputs⟩ a b) :
    ∃ pulled pushed, Reconciled bridge blake3 a b (runSync ⟨bridge, blake3, inputs⟩ (.start a b)) pulled pushed := by
  by_cases hkeys : ∀ type day, segmentKeys bridge a.oplog type day = segmentKeys bridge b.oplog type day
  · obtain ⟨cache, cache', hrun, hcoh, hcoh'⟩ := @runSync_upToDate bridge blake3 hb inputs a b ha hb' hea heb hkeys
    rw [hrun]
    refine ⟨[], [], rfl, rfl, nofun, nofun, hcoh, hcoh', fun type day => ?_, fun type day => ?_⟩
    · rw [if_neg fun h => h.2 (hkeys type day)]
      rfl
    · rw [if_neg fun h => h.2 ((hkeys type day).trans h.1)]
      rfl
  · obtain ⟨s, hrun, hours, htheirs, hcoh, hcoh', href⟩ :=
      @runSync_differ bridge blake3 hb inputs a b ha hb' hea heb h32 hcol hkeys
    obtain ⟨haccepted, hanswered, hwhole⟩ := hclean
    rw [hrun] at haccepted hanswered ⊢
    have hpulls : ∀ t s', s'.oplog .theirs = s.theirs.oplog → ∃ moves, Effect .ours
        (sends t (segmentBatches s.theirs.oplog t)) s' (pullTarget ⟨bridge, blake3, inputs⟩ t s') moves := by
      intro t s' hs
      rw [← hs]
      refine pullTarget_effect_whole _ t s' ?_
      rw [show s'.theirs.oplog = s.theirs.oplog from hs, htheirs]
      exact hwhole
    obtain ⟨pulled, pushed, h⟩ := transfer_synced ⟨bridge, blake3, inputs⟩
      (diffSnapshots (exactSnapshot bridge blake3 a.oplog) (exactSnapshot bridge blake3 b.oplog)) s hpulls
    have hout := transfer_transferred ⟨bridge, blake3, inputs⟩
      (diffSnapshots (exactSnapshot bridge blake3 a.oplog) (exactSnapshot bridge blake3 b.oplog)) s (htheirs ▸ hwhole)
      (hours ▸ framed_of_wellStored ha.stored) (htheirs ▸ framed_of_wellStored hb'.stored) hanswered
    generalize transfer ⟨bridge, blake3, inputs⟩ (diffSnapshots (exactSnapshot bridge blake3 a.oplog)
      (exactSnapshot bridge blake3 b.oplog)) s = r at haccepted h hout ⊢
    obtain ⟨hpulled, hpushed⟩ := h.complete hout (haccepted.trans href.symm)
    have hsmall : ∀ m ∈ pulled, m.batch.length ≤ maxPushBatchBytes := fun m hm =>
      h.small m (List.mem_append_left _ hm)
    have hfrom := from_of_sends (fun t => List.Subset.refl _) h.pulls hsmall
    have hours' : r.1.ours.oplog = applyMoves a.oplog pulled := by rw [h.ours, hours]
    have htheirs' : r.1.theirs.oplog = applyMoves b.oplog pushed := by rw [h.theirs, htheirs]
    have hpulledAt : ∀ type day, batchesAt (pulled.map Move.sent) type day =
        if Differs bridge a.oplog b.oplog type day then (split varintPrefix (b.oplog.bytes type day)).bodies else [] := by
      intro type day
      have hat := batchesAt_targets
        (nodup_pull (exactSnapshot bridge blake3 a.oplog) (exactSnapshot bridge blake3 b.oplog))
        (f := fun type day => (split varintPrefix (b.oplog.bytes type day)).bodies) type day
      simp only [mem_pull_places hcol] at hat
      rw [hpulled, ← hat, htheirs]
      rfl
    have hpushedAt : ∀ type day, batchesAt (pushed.map Move.sent) type day =
        if Lacks bridge a.oplog b.oplog type day then (split varintPrefix (a.oplog.bytes type day)).bodies else [] := by
      intro type day
      have hat := batchesAt_targets
        (nodup_push (exactSnapshot bridge blake3 a.oplog) (exactSnapshot bridge blake3 b.oplog))
        (f := fun type day => (split varintPrefix (r.1.ours.oplog.bytes type day)).bodies) type day
      simp only [mem_push_places hcol] at hat
      rw [hpushed]
      refine hat.trans ?_
      -- a segment that is pushed was not pulled
      by_cases hlacks : Lacks bridge a.oplog b.oplog type day
      · rw [if_pos hlacks, if_pos hlacks, hours', bodies_applyMoves (framed_of_wellStored ha.stored) hsmall, hpulledAt,
          if_neg fun hd => hd.1 hlacks.1, List.append_nil]
      · rw [if_neg hlacks, if_neg hlacks]
    refine ⟨pulled, pushed, hours', htheirs', htheirs ▸ hfrom, ?_, h.caches.1 ▸ hcoh, h.caches.2 ▸ hcoh', hpulledAt,
      hpushedAt⟩
    exact from_of_sends (fun t => List.Subset.refl _) h.pushes fun m hm => h.small m (List.mem_append_right _ hm)

end Run

/-! ## A run as a round of anti-entropy -/

section Round
variable {bridge : WireBridge} {blake3 : Bytes → Bytes} {a b : Store} {r : Session × SyncOutcome}
  {pulled pushed : List Move}

theorem mem_segmentKeys_applyMoves {x : OpLog} (hx : Framed x) {moves : List Move}
    (hlen : ∀ m ∈ moves, m.batch.length ≤ maxPushBatchBytes) {y : OpLog} {P : Prop} [Decidable P] {type : CrdtType}
    {day : JsString} (hat : batchesAt (moves.map Move.sent) type day =
      if P then (split varintPrefix (y.bytes type day)).bodies else []) {k : JsString} :
    k ∈ segmentKeys bridge (applyMoves x moves) type day ↔
      k ∈ segmentKeys bridge x type day ∨ P ∧ k ∈ segmentKeys bridge y type day := by
  simp only [mem_segmentKeys, storedOps_applyMoves hx hlen, hat]
  by_cases hP : P
  · rw [if_pos hP, ← storedOps_eq]
    simp only [List.mem_append, hP, true_and, or_and_right, exists_or]
  · rw [if_neg hP]
    simp [hP]

theorem ready_ours (h : Reconciled bridge blake3 a b r pulled pushed) (ha : Ready bridge blake3 a)
    (hb : Ready bridge blake3 b) : Ready bridge blake3 r.1.ours := by
  have hcached : Ready bridge blake3 ⟨a.oplog, r.1.ours.cache⟩ := ⟨ha.stored, ha.bucketed, h.oursCache⟩
  have hready := ready_applyMoves hcached hb.stored hb.bucketed h.pulls
  rwa [← h.ours] at hready

theorem ready_theirs (h : Reconciled bridge blake3 a b r pulled pushed) (ha : Ready bridge blake3 a)
    (hb : Ready bridge blake3 b) : Ready bridge blake3 r.1.theirs := by
  have hours := ready_ours h ha hb
  have hcached : Ready bridge blake3 ⟨b.oplog, r.1.theirs.cache⟩ := ⟨hb.stored, hb.bucketed, h.theirsCache⟩
  have hready := ready_applyMoves hcached hours.stored hours.bucketed h.pushes
  rwa [← h.theirs] at hready

/-- The initiator's keys after the run. -/
theorem keySets_ours (h : Reconciled bridge blake3 a b r pulled pushed) (ha : Ready bridge blake3 a) :
    keySets bridge r.1.ours.oplog = AntiEntropy.pull (keySets bridge a.oplog) (keySets bridge b.oplog) := by
  rw [AntiEntropy.pull_eq]
  funext p
  ext k
  show k ∈ segmentKeys bridge r.1.ours.oplog p.1 p.2 ↔
    k ∈ segmentKeys bridge a.oplog p.1 p.2 ∨ k ∈ segmentKeys bridge b.oplog p.1 p.2
  rw [h.ours, mem_segmentKeys_applyMoves (framed_of_wellStored ha.stored) (fun m hm => (h.pulls m hm).2)
    (h.pulledAt p.1 p.2)]
  constructor
  · exact Or.imp_right And.right
  · rintro (hk | hk)
    · exact .inl hk
    · by_cases hsame : segmentKeys bridge a.oplog p.1 p.2 = segmentKeys bridge b.oplog p.1 p.2
      · exact .inl (hsame ▸ hk)
      · exact .inr ⟨⟨List.ne_nil_of_mem hk, hsame⟩, hk⟩

/-- The peer's keys after the run. -/
theorem keySets_theirs (h : Reconciled bridge blake3 a b r pulled pushed) (hb : Ready bridge blake3 b) :
    keySets bridge r.1.theirs.oplog = AntiEntropy.push (keySets bridge a.oplog) (keySets bridge b.oplog) := by
  funext p
  ext k
  have hmem : k ∈ keySets bridge r.1.theirs.oplog p ↔ k ∈ segmentKeys bridge b.oplog p.1 p.2 ∨
      Lacks bridge a.oplog b.oplog p.1 p.2 ∧ k ∈ segmentKeys bridge a.oplog p.1 p.2 := by
    show k ∈ segmentKeys bridge r.1.theirs.oplog p.1 p.2 ↔ _
    rw [h.theirs, mem_segmentKeys_applyMoves (framed_of_wellStored hb.stored) (fun m hm => (h.pushes m hm).2)
      (h.pushedAt p.1 p.2)]
  rw [hmem, AntiEntropy.push]
  by_cases hnil : segmentKeys bridge b.oplog p.1 p.2 = []
  · rw [if_pos (keySets_eq_empty.2 hnil), hnil]
    constructor
    · rintro (hk | ⟨-, hk⟩)
      · cases hk
      · exact hk
    · intro hk
      exact .inr ⟨⟨hnil, List.ne_nil_of_mem hk⟩, hk⟩
  · rw [if_neg fun hempty => hnil (keySets_eq_empty.1 hempty)]
    constructor
    · rintro (hk | ⟨hlacks, -⟩)
      · exact hk
      · exact absurd hlacks.1 hnil
    · exact .inl

end Round

/-! ## Over the native serializer -/

section Native
variable {brotli : Native.Brotli} {text : NumberText}

variable {blake3 : Bytes → Bytes} {inputs : Nat → PushInput} {a b : Store}

/-- One run that goes through: the replicas are ready for the next, and their keys are those of
a round of anti-entropy. -/
theorem runSync_round (h32 : ∀ x, (blake3 x).length = 32) (ha : Ready (nativeBridge brotli text) blake3 a)
    (hb : Ready (nativeBridge brotli text) blake3 b)
    (hcol : NoCollision blake3
      (snapshotInputs (nativeBridge brotli text) blake3 a.oplog ++ snapshotInputs (nativeBridge brotli text) blake3 b.oplog))
    (hclean : Clean ⟨nativeBridge brotli text, blake3, inputs⟩ a b) :
    let r := runSync ⟨nativeBridge brotli text, blake3, inputs⟩ (.start a b)
    Ready (nativeBridge brotli text) blake3 r.1.ours ∧ Ready (nativeBridge brotli text) blake3 r.1.theirs ∧
      keySets (nativeBridge brotli text) r.1.ours.oplog =
        AntiEntropy.pull (keySets (nativeBridge brotli text) a.oplog) (keySets (nativeBridge brotli text) b.oplog) ∧
      keySets (nativeBridge brotli text) r.1.theirs.oplog =
        AntiEntropy.push (keySets (nativeBridge brotli text) a.oplog) (keySets (nativeBridge brotli text) b.oplog) := by
  obtain ⟨pulled, pushed, h⟩ := reconciled_of_clean (nativeBridge_segmentWise brotli text) ha hb
    (encodable_of_bucketed ha.bucketed) (encodable_of_bucketed hb.bucketed) h32 hcol hclean
  exact ⟨ready_ours h ha hb, ready_theirs h ha hb, keySets_ours h ha, keySets_theirs h hb⟩

end Native

end Hayven.Cli
