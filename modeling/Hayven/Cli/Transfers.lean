import Hayven.Cli.Sync
import Hayven.Crdt.Merkle
/-!
# What a sync does to the two logs

Whatever the outcome, a sync only appends batches of one replica's segments to the
same segments of the other. Each function of `cli/sync.ts` has one lemma that says
what it leaves behind, refused and failed requests included.
-/
open Hayven.Lib Hayven.Crdt Hayven.Daemon

namespace Hayven.Cli

namespace Session
variable (s : Session) (side side' : Side)

def cache : Side → MerkleCache
  | .ours => s.ours.cache
  | .theirs => s.theirs.cache

@[simp] theorem oplog_sent : (s.sent side).oplog side' = s.oplog side' := by cases side' <;> rfl

@[simp] theorem cache_sent : (s.sent side).cache side' = s.cache side' := by cases side' <;> rfl

@[simp] theorem refusedSegments_sent : (s.sent side).summary.refusedSegments = s.summary.refusedSegments := rfl

@[simp] theorem oplog_refused : s.refused.oplog side' = s.oplog side' := by cases side' <;> rfl

@[simp] theorem cache_refused : s.refused.cache side' = s.cache side' := by cases side' <;> rfl

@[simp] theorem oplog_pulled (bytes : Bytes) : (s.pulled bytes).oplog side' = s.oplog side' := by cases side' <;> rfl

@[simp] theorem cache_pulled (bytes : Bytes) : (s.pulled bytes).cache side' = s.cache side' := by cases side' <;> rfl

@[simp] theorem oplog_pushed (bytes : Bytes) : (s.pushed bytes).oplog side' = s.oplog side' := by cases side' <;> rfl

@[simp] theorem cache_pushed (bytes : Bytes) : (s.pushed bytes).cache side' = s.cache side' := by cases side' <;> rfl

theorem oplog_stored (log : OpLog) : (s.stored side log).oplog side' = if side = side' then log else s.oplog side' := by
  cases side <;> cases side' <;> rfl

@[simp] theorem cache_stored (log : OpLog) : (s.stored side log).cache side' = s.cache side' := by
  cases side <;> cases side' <;> rfl

@[simp] theorem oplog_cached (cache : MerkleCache) : (s.cached side cache).oplog side' = s.oplog side' := by
  cases side <;> cases side' <;> rfl

@[simp] theorem oplog_roundTrip : s.roundTrip.oplog side' = s.oplog side' := by cases side' <;> rfl

@[simp] theorem summary_stored (log : OpLog) : (s.stored side log).summary = s.summary := by cases side <;> rfl

end Session

/-! ## Moves -/

/-- One batch stored. -/
structure Move where
  type : CrdtType
  path : JsString
  batch : Bytes
  mtimeMs : Rat

def Move.sent (m : Move) : CrdtType × JsString × Bytes := (m.type, m.path, m.batch)

def applyMoves (log : OpLog) (moves : List Move) : OpLog :=
  moves.foldl (fun log m => log.appendToFile m.type m.path (frameBytes m.batch) m.mtimeMs) log

/-- What the rounds that send these batches leave behind: some of them are stored, and all
of them if no answer ends the rounds and none is a refusal. -/
structure Effect (side : Side) (batches : List (CrdtType × JsString × Bytes)) (s : Session)
    (r : Session × Option SyncError) (moves : List Move) : Prop where
  sub : ∀ m ∈ moves, m.sent ∈ batches
  small : ∀ m ∈ moves, m.batch.length ≤ maxPushBatchBytes
  stored : r.1.oplog side = applyMoves (s.oplog side) moves
  other : ∀ side', side' ≠ side → r.1.oplog side' = s.oplog side'
  cache : ∀ side', r.1.cache side' = s.cache side'
  refusals : s.summary.refusedSegments ≤ r.1.summary.refusedSegments
  complete : r.2 = none → r.1.summary.refusedSegments = s.summary.refusedSegments → moves.map Move.sent = batches

section Effect
variable {side : Side} {bs bs' : List (CrdtType × JsString × Bytes)} {s : Session} {r r' : Session × Option SyncError}
  {moves moves' : List Move}

theorem Effect.none (side : Side) (s : Session) : Effect side [] s (s, none) [] where
  sub := nofun
  small := nofun
  stored := rfl
  other _ _ := rfl
  cache _ := rfl
  refusals := le_rfl
  complete _ _ := rfl

/-- Later rounds after rounds that went through. -/
theorem Effect.trans (h : Effect side bs s r moves) (hr : r.2 = Option.none) (h' : Effect side bs' r.1 r' moves') :
    Effect side (bs ++ bs') s r' (moves ++ moves') where
  sub m hm := by
    rcases List.mem_append.1 hm with hm | hm
    · exact List.mem_append_left _ (h.sub m hm)
    · exact List.mem_append_right _ (h'.sub m hm)
  small m hm := by
    rcases List.mem_append.1 hm with hm | hm
    · exact h.small m hm
    · exact h'.small m hm
  stored := by rw [h'.stored, h.stored, applyMoves, applyMoves, applyMoves, List.foldl_append]
  other side' hside := by rw [h'.other side' hside, h.other side' hside]
  cache side' := by rw [h'.cache side', h.cache side']
  refusals := h.refusals.trans h'.refusals
  complete hnone heq := by
    have hle := h.refusals
    have hle' := h'.refusals
    rw [List.map_append, h.complete hr (by omega), h'.complete hnone (by omega)]

/-- Rounds that an answer ended. -/
theorem Effect.stop (h : Effect side bs s r moves) (hr : r.2 ≠ Option.none) (bs' : List (CrdtType × JsString × Bytes)) :
    Effect side (bs ++ bs') s r moves where
  sub m hm := List.mem_append_left _ (h.sub m hm)
  small := h.small
  stored := h.stored
  other := h.other
  cache := h.cache
  refusals := h.refusals
  complete hnone := absurd hnone hr

end Effect

/-! ## Posting -/

theorem pushRequest_ok {bridge : WireBridge} {log log' : OpLog} {t : Target} {batch : Bytes} {host : PushInput}
    {ops : List WireOp} (h : push bridge log (pushRequest t batch) host = .ok (log', ops)) :
    batch.length ≤ maxPushBatchBytes ∧ log' = log.appendToFile t.type t.path (frameBytes batch) host.mtimeMs := by
  obtain ⟨type, path, b, htype, hpath, hbatch, -, hlen, hlog⟩ := push_ok h
  cases htype.symm.trans (crdtTypeOf_typeName t.type)
  cases hpath
  cases hbatch
  exact ⟨hlen, hlog⟩

/-- The batches of one target, as they are sent. -/
def sends (t : Target) (batches : List Bytes) : List (CrdtType × JsString × Bytes) :=
  batches.map fun batch => (t.type, t.path, batch)

theorem postBatches_effect (host : SyncHost) (side : Side) (t : Target) (batches : List Bytes) (s : Session) :
    ∃ moves, Effect side (sends t batches) s (postBatches host side t batches s) moves := by
  induction batches generalizing s with
  | nil => exact ⟨[], .none side s⟩
  | cons batch rest ih =>
    rw [postBatches]
    split
    case h_1 log ops hpush =>
      obtain ⟨hlen, rfl⟩ := pushRequest_ok hpush
      obtain ⟨moves, hrest⟩ := ih ((s.sent side).stored side _)
      have hfirst : Effect side [(t.type, t.path, batch)] s ((s.sent side).stored side _, none)
          [⟨t.type, t.path, batch, (host.inputs s.pushes).mtimeMs⟩] := {
        sub := by simp [Move.sent]
        small := by simpa using hlen
        stored := by rw [Session.oplog_stored, if_pos rfl]
        other := fun side' hside => by rw [Session.oplog_stored, if_neg (Ne.symm hside), Session.oplog_sent]
        cache := fun side' => by rw [Session.cache_stored, Session.cache_sent]
        refusals := by rw [Session.summary_stored, Session.refusedSegments_sent]
        complete := fun _ _ => rfl }
      exact ⟨_, hfirst.trans rfl hrest⟩
    case h_2 status hpush =>
      -- nothing is stored: the batch is refused, or the answer ends the run
      split
      · refine ⟨[], nofun, nofun, by simp [applyMoves], by simp, by simp, Nat.le_succ _, ?_⟩
        intro _ heq
        exact absurd heq (Nat.succ_ne_self _)
      · exact ⟨[], nofun, nofun, by simp [applyMoves], by simp, by simp, le_rfl, nofun⟩

/-- Only an answer that is no refusal ends the rounds over a segment. -/
theorem postBatches_ended (host : SyncHost) (side : Side) (t : Target) (batches : List Bytes) (s : Session)
    {e : SyncError} (h : (postBatches host side t batches s).2 = some e) :
    ∃ status, e = .http status := by
  induction batches generalizing s with
  | nil => cases h
  | cons batch rest ih =>
    rw [postBatches] at h
    split at h
    · exact ih _ h
    case h_2 status _ =>
      split at h
      · cases h
      · exact ⟨status, (Option.some.inj h).symm⟩

/-! ## Pulling -/

theorem batchRoute_ok {log : OpLog} {type : CrdtType} {path : JsString} {offset maxBytes : Nat} {bytes : Bytes}
    {eof : Bool} (h : batchRoute log type path offset maxBytes = .ok (bytes, eof)) :
    bytes = ((log.bytes type path).drop offset).take (min maxBytes maxBatchResponseBytes) ∧
      (eof = true ↔ (log.bytes type path).length ≤ offset + bytes.length) := by
  unfold batchRoute at h
  split at h
  · cases h
  · split at h
    · cases h
    · cases hf : log.file type path with
      | none => simp [OpLog.readSegmentRange, hf] at h
      | some f =>
        simp only [OpLog.readSegmentRange, hf, Option.map_some, Except.ok.injEq, Prod.mk.injEq] at h
        obtain ⟨rfl, rfl⟩ := h
        simp [OpLog.bytes, hf]

/-- The pages are a piece of the segment, up to its end unless the pages run out. -/
theorem pullPages_ok {log : OpLog} {t : Target} {pages offset : Nat} {bytes : Bytes}
    (h : pullPages log t pages offset = .ok bytes) :
    ∃ more, (log.bytes t.type t.path).drop offset = bytes ++ more ∧
      ((log.bytes t.type t.path).length ≤ offset + pages * pageBytes → more = []) := by
  induction pages generalizing offset bytes with
  | zero =>
    cases h
    refine ⟨_, rfl, fun hlen => List.drop_eq_nil_of_le ?_⟩
    omega
  | succ pages ih =>
    rw [pullPages] at h
    split at h
    case h_1 => cases h
    case h_2 page eof hroute =>
      obtain ⟨hpage, heof⟩ := batchRoute_ok hroute
      have hmin : min pageBytes maxBatchResponseBytes = pageBytes := by decide
      have hpos : 0 < pageBytes := by decide
      rw [hmin] at hpage
      have hlen := congrArg List.length hpage
      rw [List.length_take, List.length_drop] at hlen
      split at h
      case isTrue hstop =>
        cases h
        -- the end was reached, or there was nothing left
        have hall : (log.bytes t.type t.path).drop offset = bytes := by
          rw [hpage, List.take_of_length_le]
          rw [List.length_drop]
          rcases hstop with hend | hnone
          · have hend := heof.1 hend
            omega
          · omega
        exact ⟨[], by rw [hall, List.append_nil], fun _ => rfl⟩
      case isFalse hgo =>
        rw [not_or, heof] at hgo
        cases hr : pullPages log t pages (offset + page.length) with
        | error e =>
          rw [hr] at h
          cases h
        | ok rest =>
          rw [hr] at h
          cases h
          obtain ⟨more, hmore, hfull⟩ := ih hr
          have hfullPage : page.length = pageBytes := by omega
          refine ⟨more, ?_, fun hle => hfull ?_⟩
          · rw [List.append_assoc, ← hmore, ← List.drop_drop, hfullPage, hpage, List.take_append_drop]
          · rw [Nat.succ_mul] at hle
            omega

/-- What is pulled is the front of the segment. -/
theorem pullSegment_ok {log : OpLog} {t : Target} {bytes : Bytes} (h : pullSegment log t = .ok bytes) :
    ∃ more, log.bytes t.type t.path = bytes ++ more := by
  obtain ⟨more, hmore, -⟩ := pullPages_ok h
  exact ⟨more, hmore⟩

/-- No pull stops before the end of its segment. -/
def WholePulls (log : OpLog) : Prop :=
  ∀ t bytes, pullSegment log t = .ok bytes → bytes = log.bytes t.type t.path

/-- A segment of up to 1 GiB is pulled whole. -/
theorem wholePulls_of_length_le {log : OpLog} (h : ∀ type day, (log.bytes type day).length ≤ maxPages * pageBytes) :
    WholePulls log := by
  intro t bytes hpull
  obtain ⟨more, hmore, hfull⟩ := pullPages_ok hpull
  rw [List.drop_zero] at hmore
  rw [hmore, hfull (by rw [Nat.zero_add]; exact h t.type t.path), List.append_nil]

/-! ## The loops -/

/-- The batches a round of the pull loop posts. -/
def pullBatches (log : OpLog) (t : Target) : List Bytes :=
  match pullSegment log t with
  | .error _ => []
  | .ok bytes => (split varintPrefix bytes).bodies

def segmentBatches (log : OpLog) (t : Target) : List Bytes := (split varintPrefix (log.bytes t.type t.path)).bodies

theorem pullBatches_subset (log : OpLog) (t : Target) : pullBatches log t ⊆ segmentBatches log t := by
  unfold pullBatches
  cases hpull : pullSegment log t with
  | error status => exact nofun
  | ok bytes =>
    obtain ⟨more, hmore⟩ := pullSegment_ok hpull
    rw [segmentBatches, hmore]
    exact ((split_frames_mono varintPrefix bytes more).map Frame.body).subset

theorem splitSegmentBatches_some {bytes : Bytes} {batches : List Bytes} (h : splitSegmentBatches bytes = some batches) :
    batches = (split varintPrefix bytes).bodies := by
  unfold splitSegmentBatches at h
  split at h
  · cases h
  · exact (Option.some.inj h).symm

theorem pullTarget_effect (host : SyncHost) (t : Target) (s : Session) :
    ∃ moves, Effect .ours (sends t (pullBatches s.theirs.oplog t)) s (pullTarget host t s) moves := by
  unfold pullTarget pullBatches
  cases hpull : pullSegment s.theirs.oplog t with
  | error status => exact ⟨[], nofun, nofun, rfl, fun _ _ => rfl, fun _ => rfl, le_rfl, nofun⟩
  | ok bytes =>
    dsimp only
    cases hsplit : splitSegmentBatches bytes with
    | none => exact ⟨[], nofun, nofun, rfl, by simp, by simp, le_rfl, nofun⟩
    | some batches =>
      obtain ⟨moves, h⟩ := postBatches_effect host .ours t batches (s.pulled bytes)
      rw [splitSegmentBatches_some hsplit] at h ⊢
      exact ⟨moves, h.sub, h.small, h.stored, by simpa using h.other, by simpa using h.cache, h.refusals, h.complete⟩

/-- Where pulls are whole, the round posts the segment. -/
theorem pullTarget_effect_whole (host : SyncHost) (t : Target) (s : Session) (hwhole : WholePulls s.theirs.oplog) :
    ∃ moves, Effect .ours (sends t (segmentBatches s.theirs.oplog t)) s (pullTarget host t s) moves := by
  obtain ⟨moves, h⟩ := pullTarget_effect host t s
  cases hpull : pullSegment s.theirs.oplog t with
  | error status =>
    refine ⟨moves, fun m hm => ?_, h.small, h.stored, h.other, h.cache, h.refusals, fun hnone => ?_⟩
    · have hm' := h.sub m hm
      simp [pullBatches, hpull, sends] at hm'
    · simp [pullTarget, hpull] at hnone
  | ok bytes =>
    have hbatches : pullBatches s.theirs.oplog t = segmentBatches s.theirs.oplog t := by
      rw [segmentBatches, ← hwhole t bytes hpull]
      simp only [pullBatches, hpull]
    exact ⟨moves, hbatches ▸ h⟩

theorem pushTarget_effect (host : SyncHost) (t : Target) (s : Session) :
    ∃ moves, Effect .theirs (sends t (segmentBatches s.ours.oplog t)) s (pushTarget host t s) moves := by
  unfold pushTarget segmentBatches
  cases hf : s.ours.oplog.file t.type t.path with
  | none =>
    have hbytes : s.ours.oplog.bytes t.type t.path = [] := by simp [OpLog.bytes, hf]
    simp only [OpLog.readSegmentBytes, hf, Option.map_none, hbytes, split_nil]
    exact ⟨[], .none .theirs s⟩
  | some f =>
    have hbytes : s.ours.oplog.bytes t.type t.path = f.bytes := by simp [OpLog.bytes, hf]
    simp only [OpLog.readSegmentBytes, hf, Option.map_some, hbytes]
    cases hsplit : splitSegmentBatches f.bytes with
    | none => exact ⟨[], by simp, by simp, rfl, by simp, by simp, le_rfl, by simp⟩
    | some batches =>
      obtain ⟨moves, h⟩ := postBatches_effect host .theirs t batches (s.pushed f.bytes)
      rw [splitSegmentBatches_some hsplit] at h ⊢
      exact ⟨moves, h.sub, h.small, h.stored, by simpa using h.other, by simpa using h.cache, h.refusals, h.complete⟩

/-- The rounds of a loop that reads its batches from a log that stays as it is. -/
theorem forTargets_effect {round : Target → Session → Session × Option SyncError} {side source : Side} {log : OpLog}
    {batches : Target → List Bytes} (hne : source ≠ side)
    (hround : ∀ t s, s.oplog source = log → ∃ moves, Effect side (sends t (batches t)) s (round t s) moves)
    (ts : List Target) (s : Session) (hs : s.oplog source = log) :
    ∃ moves, Effect side (ts.flatMap fun t => sends t (batches t)) s (forTargets round ts s) moves := by
  induction ts generalizing s with
  | nil => exact ⟨[], .none side s⟩
  | cons t rest ih =>
    obtain ⟨moves, h⟩ := hround t s hs
    rw [forTargets, List.flatMap_cons]
    have hsource := h.other source hne
    rcases hr : round t s with ⟨s', _ | e⟩
    · rw [hr] at h hsource
      obtain ⟨moves', h'⟩ := ih s' (hsource.trans hs)
      exact ⟨moves ++ moves', h.trans rfl h'⟩
    · rw [hr] at h
      exact ⟨moves, h.stop nofun _⟩

/-! ## The whole run -/

/-- What the transfers of a diff leave behind; a pull of a target posts `batches`. -/
structure Synced (batches : Target → List Bytes) (diff : MerkleDiff) (s : Session) (r : Session × SyncOutcome)
    (pulled pushed : List Move) : Prop where
  ours : r.1.ours.oplog = applyMoves s.ours.oplog pulled
  theirs : r.1.theirs.oplog = applyMoves s.theirs.oplog pushed
  pulls : ∀ m ∈ pulled, m.sent ∈ diff.pull.flatMap fun t => sends t (batches t)
  pushes : ∀ m ∈ pushed, m.sent ∈ diff.push.flatMap fun t => sends t (segmentBatches r.1.ours.oplog t)
  small : ∀ m ∈ pulled ++ pushed, m.batch.length ≤ maxPushBatchBytes
  caches : r.1.ours.cache = s.ours.cache ∧ r.1.theirs.cache = s.theirs.cache
  complete : r.2 = .transferred → r.1.summary.refusedSegments = s.summary.refusedSegments →
    pulled.map Move.sent = diff.pull.flatMap (fun t => sends t (batches t)) ∧
      pushed.map Move.sent = diff.push.flatMap fun t => sends t (segmentBatches r.1.ours.oplog t)

theorem transfer_synced (host : SyncHost) (diff : MerkleDiff) (s : Session) {batches : Target → List Bytes}
    (hpulls : ∀ t s', s'.oplog .theirs = s.theirs.oplog →
      ∃ moves, Effect .ours (sends t (batches t)) s' (pullTarget host t s') moves) :
    ∃ pulled pushed, Synced batches diff s (transfer host diff s) pulled pushed := by
  obtain ⟨pulled, hpull⟩ := forTargets_effect (show Side.theirs ≠ .ours by decide) hpulls diff.pull s rfl
  unfold transfer
  rcases hr : forTargets (pullTarget host) diff.pull s with ⟨s₁, _ | e⟩
  · rw [hr] at hpull
    have hpushes : ∀ t s', s'.oplog .ours = s₁.ours.oplog →
        ∃ moves, Effect .theirs (sends t (segmentBatches s₁.ours.oplog t)) s' (pushTarget host t s') moves := by
      intro t s' hs
      rw [← hs]
      exact pushTarget_effect host t s'
    obtain ⟨pushed, hpush⟩ := forTargets_effect (show Side.ours ≠ .theirs by decide) hpushes diff.push s₁ rfl
    refine ⟨pulled, pushed, ?_⟩
    have hours₁ : s₁.ours.oplog = applyMoves s.ours.oplog pulled := hpull.stored
    have htheirs₁ : s₁.theirs.oplog = s.theirs.oplog := hpull.other .theirs (by decide)
    have hle : s.summary.refusedSegments ≤ s₁.summary.refusedSegments := hpull.refusals
    rcases hr' : forTargets (pushTarget host) diff.push s₁ with ⟨s₂, o⟩
    rw [hr'] at hpush
    have hours₂ : s₂.ours.oplog = s₁.ours.oplog := hpush.other .ours (by decide)
    have htheirs₂ : s₂.theirs.oplog = applyMoves s₁.theirs.oplog pushed := hpush.stored
    have hle' : s₁.summary.refusedSegments ≤ s₂.summary.refusedSegments := hpush.refusals
    have hcaches : s₂.ours.cache = s.ours.cache ∧ s₂.theirs.cache = s.theirs.cache :=
      ⟨(hpush.cache .ours).trans (hpull.cache .ours), (hpush.cache .theirs).trans (hpull.cache .theirs)⟩
    have hsmall : ∀ m ∈ pulled ++ pushed, m.batch.length ≤ maxPushBatchBytes := by
      intro m hm
      rcases List.mem_append.1 hm with hm | hm
      · exact hpull.small m hm
      · exact hpush.small m hm
    rw [htheirs₁] at htheirs₂
    have hsub := hpush.sub
    cases o with
    | none =>
      simp only [hr']
      rw [← hours₂] at hsub
      refine ⟨hours₂.trans hours₁, htheirs₂, hpull.sub, hsub, hsmall, hcaches, fun _ heq => ?_⟩
      have hpulled := hpull.complete rfl (show s₁.summary.refusedSegments = s.summary.refusedSegments by
        dsimp only at heq
        omega)
      have hpushed := hpush.complete rfl (show s₂.summary.refusedSegments = s₁.summary.refusedSegments by
        dsimp only at heq
        omega)
      rw [← hours₂] at hpushed
      exact ⟨hpulled, hpushed⟩
    | some e =>
      simp only [hr']
      rw [← hours₂] at hsub
      exact ⟨hours₂.trans hours₁, htheirs₂, hpull.sub, hsub, hsmall, hcaches, nofun⟩
  · rw [hr] at hpull
    refine ⟨pulled, [], hpull.stored, hpull.other .theirs (by decide), hpull.sub, nofun, ?_,
      ⟨hpull.cache .ours, hpull.cache .theirs⟩, nofun⟩
    rw [List.append_nil]
    exact hpull.small

theorem mem_sends {t : Target} {batches : List Bytes} {m : Move} :
    m.sent ∈ sends t batches ↔ m.type = t.type ∧ m.path = t.path ∧ m.batch ∈ batches := by
  simp only [sends, List.mem_map, Move.sent, Prod.mk.injEq]
  constructor
  · rintro ⟨batch, hbatch, htype, hpath, rfl⟩
    exact ⟨htype.symm, hpath.symm, hbatch⟩
  · rintro ⟨htype, hpath, hbatch⟩
    exact ⟨m.batch, hbatch, htype.symm, hpath.symm, rfl⟩

/-- Moves of batches that the segments of a log hold. -/
def From (log : OpLog) (moves : List Move) : Prop :=
  ∀ m ∈ moves, m.batch ∈ (split varintPrefix (log.bytes m.type m.path)).bodies ∧ m.batch.length ≤ maxPushBatchBytes

theorem from_of_sends {log : OpLog} {moves : List Move} {ts : List Target} {batches : Target → List Bytes}
    (hsub : ∀ t, batches t ⊆ segmentBatches log t) (h : ∀ m ∈ moves, m.sent ∈ ts.flatMap fun t => sends t (batches t))
    (hsmall : ∀ m ∈ moves, m.batch.length ≤ maxPushBatchBytes) : From log moves := by
  intro m hm
  obtain ⟨t, -, ht⟩ := List.mem_flatMap.1 (h m hm)
  obtain ⟨htype, hpath, hbatch⟩ := mem_sends.1 ht
  rw [htype, hpath]
  exact ⟨hsub t hbatch, hsmall m hm⟩

/-- The exchange of leaves changes the peer's cache only. -/
theorem exchangeLeaves_frame (host : SyncHost) (our : MerkleSnapshot) (theirRoots : CrdtType → JsString)
    (types : List CrdtType) (leaves : CrdtType → List SegmentLeaf) (s : Session) (side : Side) :
    (exchangeLeaves host our theirRoots types leaves s).1.oplog side = s.oplog side := by
  induction types generalizing leaves s with
  | nil => rfl
  | cons type rest ih =>
    rw [exchangeLeaves]
    split
    · exact ih _ s
    · split
      · rfl
      · rw [ih, Session.oplog_roundTrip, Session.oplog_cached]

/-- However it ends, a run moves batches of each replica's segments to the same segments of
the other, first to us and then to the peer. -/
theorem runSync_moves (host : SyncHost) (s : Session) : ∃ pulled pushed : List Move,
    (runSync host s).1.oplog .ours = applyMoves (s.oplog .ours) pulled ∧ From (s.oplog .theirs) pulled ∧
      (runSync host s).1.oplog .theirs = applyMoves (s.oplog .theirs) pushed ∧
      From ((runSync host s).1.oplog .ours) pushed := by
  have hquiet : ∀ r : Session × SyncOutcome, (∀ side, r.1.oplog side = s.oplog side) →
      ∃ pulled pushed : List Move, r.1.oplog .ours = applyMoves (s.oplog .ours) pulled ∧
        From (s.oplog .theirs) pulled ∧ r.1.oplog .theirs = applyMoves (s.oplog .theirs) pushed ∧
        From (r.1.oplog .ours) pushed := fun r h => ⟨[], [], h .ours, nofun, h .theirs, nofun⟩
  unfold runSync
  cases computeMerkle host.bridge host.blake3 s.ours.oplog s.ours.cache with
  | error e => exact hquiet _ fun _ => rfl
  | ok our =>
    dsimp only
    cases computeMerkle host.bridge host.blake3 (s.cached .ours our.2).theirs.oplog
        (s.cached .ours our.2).theirs.cache with
    | error e => exact hquiet _ fun side => s.oplog_cached .ours side our.2
    | ok their =>
      dsimp only
      have hsame : ∀ side, (((s.cached .ours our.2).cached .theirs their.2).roundTrip).oplog side = s.oplog side := by
        intro side
        rw [Session.oplog_roundTrip, Session.oplog_cached, Session.oplog_cached]
      have hframe := exchangeLeaves_frame host our.1 their.1.roots crdtTypes (fun _ => [])
        ((s.cached .ours our.2).cached .theirs their.2).roundTrip
      unfold compareRoots
      split
      · exact hquiet _ hsame
      · split
        case h_1 s₁ e hex =>
          rw [hex] at hframe
          exact hquiet _ fun side => (hframe side).trans (hsame side)
        case h_2 s₁ leaves hex =>
          rw [hex] at hframe
          have hours : s₁.oplog .ours = s.oplog .ours := (hframe .ours).trans (hsame .ours)
          have htheirs : s₁.oplog .theirs = s.oplog .theirs := (hframe .theirs).trans (hsame .theirs)
          have hpulls : ∀ t s', s'.oplog .theirs = s₁.theirs.oplog →
              ∃ moves, Effect .ours (sends t (pullBatches s₁.theirs.oplog t)) s' (pullTarget host t s') moves := by
            intro t s' hs
            rw [← hs]
            exact pullTarget_effect host t s'
          obtain ⟨pulled, pushed, h⟩ := transfer_synced host (diffSnapshots our.1 ⟨their.1.roots, leaves⟩) s₁ hpulls
          refine ⟨pulled, pushed, hours ▸ h.ours, ?_, htheirs ▸ h.theirs, ?_⟩
          · rw [← htheirs]
            exact from_of_sends (pullBatches_subset _) h.pulls fun m hm => h.small m (List.mem_append_left _ hm)
          · exact from_of_sends (fun t => List.Subset.refl _) h.pushes
              fun m hm => h.small m (List.mem_append_right _ hm)

end Hayven.Cli
