import Hayven.Cli.Reconcile
/-!
# Syncs one after another

Between two logs of whole batches, a sync from each side brings both to all their ops
and every later sync finds them up to date. Syncs from one side alone append the same
segments again and again where that side has ops the other lacks.
-/
open Hayven.Lib Hayven.Crdt Hayven.Daemon

namespace Hayven.Cli

/-- The segment files are the same, byte for byte. -/
def SameFiles (x y : OpLog) : Prop :=
  ∀ type day, (x.file type day).map SegmentFile.bytes = (y.file type day).map SegmentFile.bytes

theorem bytes_of_sameFiles {x y : OpLog} (h : SameFiles x y) (type : CrdtType) (day : JsString) :
    x.bytes type day = y.bytes type day := by
  have hfile := h type day
  unfold OpLog.bytes
  cases hx : x.file type day <;> cases hy : y.file type day <;> simp_all

/-- Both replicas after a sync at the first one, the initiator. -/
def syncAt (bridge : WireBridge) (blake3 : Bytes → Bytes) (inputs : Nat → PushInput) (a b : Store) : Store × Store :=
  ((runSync ⟨bridge, blake3, inputs⟩ (.start a b)).1.ours, (runSync ⟨bridge, blake3, inputs⟩ (.start a b)).1.theirs)

/-- Both replicas after `n` syncs at the first one; sync number `i` reads `inputs i`. -/
def repeatSync (bridge : WireBridge) (blake3 : Bytes → Bytes) (inputs : Nat → Nat → PushInput) (a b : Store) :
    Nat → Store × Store
  | 0 => (a, b)
  | n + 1 =>
    let s := repeatSync bridge blake3 inputs a b n
    syncAt bridge blake3 (inputs n) s.1 s.2

/-- A sync of `a` with `b` leaves the files of both as they are, whatever the daemons' clocks read. -/
def SyncIdle (bridge : WireBridge) (blake3 : Bytes → Bytes) (a b : Store) : Prop :=
  ∀ inputs, SameFiles (syncAt bridge blake3 inputs a b).1.oplog a.oplog ∧
    SameFiles (syncAt bridge blake3 inputs a b).2.oplog b.oplog

section Native
variable {brotli : Native.Brotli} {text : NumberText} {blake3 : Bytes → Bytes}

/-! ## Replicas with the same ops -/

/-- Two replicas ready for a sync that would move nothing. -/
structure Level (bridge : WireBridge) (blake3 : Bytes → Bytes) (a b : Store) : Prop where
  ours : Ready bridge blake3 a
  theirs : Ready bridge blake3 b
  keys : keySets bridge a.oplog = keySets bridge b.oplog

theorem Level.symm {bridge : WireBridge} {a b : Store} (h : Level bridge blake3 a b) : Level bridge blake3 b a :=
  ⟨h.theirs, h.ours, h.keys.symm⟩

theorem Level.segmentKeys_eq {bridge : WireBridge} {a b : Store} (h : Level bridge blake3 a b) (type : CrdtType)
    (day : JsString) : segmentKeys bridge a.oplog type day = segmentKeys bridge b.oplog type day :=
  (keySets_eq_iff (p := (type, day))).1 (congrFun h.keys (type, day))

/-- A sync of level replicas reports that they are up to date, stores nothing and leaves them level. -/
theorem Level.after_sync {a b : Store} (h : Level (nativeBridge brotli text) blake3 a b) (inputs : Nat → PushInput) :
    (runSync ⟨nativeBridge brotli text, blake3, inputs⟩ (.start a b)).2 = .upToDate ∧
      (syncAt (nativeBridge brotli text) blake3 inputs a b).1.oplog = a.oplog ∧
      (syncAt (nativeBridge brotli text) blake3 inputs a b).2.oplog = b.oplog ∧
      Level (nativeBridge brotli text) blake3 (syncAt (nativeBridge brotli text) blake3 inputs a b).1
        (syncAt (nativeBridge brotli text) blake3 inputs a b).2 := by
  obtain ⟨cache, cache', hrun, hcoh, hcoh'⟩ := @runSync_upToDate _ blake3 (nativeBridge_segmentWise brotli text)
    inputs a b h.ours h.theirs (encodable_of_bucketed h.ours.bucketed) (encodable_of_bucketed h.theirs.bucketed)
    h.segmentKeys_eq
  unfold syncAt
  rw [hrun]
  exact ⟨rfl, rfl, rfl, ⟨h.ours.stored, h.ours.bucketed, hcoh⟩, ⟨h.theirs.stored, h.theirs.bucketed, hcoh'⟩, h.keys⟩

theorem Level.syncIdle {a b : Store} (h : Level (nativeBridge brotli text) blake3 a b) :
    SyncIdle (nativeBridge brotli text) blake3 a b := by
  intro inputs
  obtain ⟨-, hours, htheirs, -⟩ := h.after_sync inputs
  rw [hours, htheirs]
  exact ⟨fun _ _ => rfl, fun _ _ => rfl⟩

/-- Level replicas have the same roots. -/
theorem Level.roots {a b : Store} (h : Level (nativeBridge brotli text) blake3 a b) : ∃ our their cache cache',
    computeMerkle (nativeBridge brotli text) blake3 a.oplog a.cache = .ok (our, cache) ∧
      computeMerkle (nativeBridge brotli text) blake3 b.oplog b.cache = .ok (their, cache') ∧
      ∀ type, our.roots type = their.roots type := by
  have hsegment := nativeBridge_segmentWise brotli text
  obtain ⟨cache, hok, -⟩ := computeMerkle_ready hsegment h.ours (encodable_of_bucketed h.ours.bucketed)
  obtain ⟨cache', hok', -⟩ := computeMerkle_ready hsegment h.theirs (encodable_of_bucketed h.theirs.bucketed)
  exact ⟨_, _, _, _, hok, hok', fun type => congrArg (rootOf blake3) (exactLeaves_congr (h.segmentKeys_eq type))⟩

/-- Once level, the replicas stay so, and the initiator's files as they are. -/
theorem Level.after_syncs {inputs : Nat → Nat → PushInput} {a b : Store} {m : Nat}
    (h : Level (nativeBridge brotli text) blake3 (repeatSync (nativeBridge brotli text) blake3 inputs a b m).1
      (repeatSync (nativeBridge brotli text) blake3 inputs a b m).2) (n : Nat) :
    Level (nativeBridge brotli text) blake3 (repeatSync (nativeBridge brotli text) blake3 inputs a b (m + n)).1
        (repeatSync (nativeBridge brotli text) blake3 inputs a b (m + n)).2 ∧
      (repeatSync (nativeBridge brotli text) blake3 inputs a b (m + n)).1.oplog =
        (repeatSync (nativeBridge brotli text) blake3 inputs a b m).1.oplog := by
  induction n with
  | zero => exact ⟨h, rfl⟩
  | succ n ih =>
    obtain ⟨-, hours, -, hlevel⟩ := ih.1.after_sync (inputs (m + n))
    exact ⟨hlevel, hours.trans ih.2⟩

/-! ## A sync from each side -/

section Rounds
variable {inputs inputs' : Nat → PushInput} {a b : Store} (h32 : ∀ x, (blake3 x).length = 32)
  (ha : Ready (nativeBridge brotli text) blake3 a) (hb : Ready (nativeBridge brotli text) blake3 b)
  (hcol : NoCollision blake3 (snapshotInputs (nativeBridge brotli text) blake3 a.oplog ++
    snapshotInputs (nativeBridge brotli text) blake3 b.oplog))
  (hclean : Clean ⟨nativeBridge brotli text, blake3, inputs⟩ a b)
include h32 ha hb hcol hclean

/-- `runSync_round`, of the two replicas. -/
theorem syncAt_round : Ready (nativeBridge brotli text) blake3 (syncAt (nativeBridge brotli text) blake3 inputs a b).1 ∧
    Ready (nativeBridge brotli text) blake3 (syncAt (nativeBridge brotli text) blake3 inputs a b).2 ∧
    keySets (nativeBridge brotli text) (syncAt (nativeBridge brotli text) blake3 inputs a b).1.oplog =
      AntiEntropy.pull (keySets (nativeBridge brotli text) a.oplog) (keySets (nativeBridge brotli text) b.oplog) ∧
    keySets (nativeBridge brotli text) (syncAt (nativeBridge brotli text) blake3 inputs a b).2.oplog =
      AntiEntropy.push (keySets (nativeBridge brotli text) a.oplog) (keySets (nativeBridge brotli text) b.oplog) :=
  runSync_round h32 ha hb hcol hclean

/-- A sync from one side, then one from the other: both hold the union. -/
theorem level_of_two_syncs
    (hcol' : NoCollision blake3
      (snapshotInputs (nativeBridge brotli text) blake3 (syncAt (nativeBridge brotli text) blake3 inputs a b).2.oplog ++
        snapshotInputs (nativeBridge brotli text) blake3 (syncAt (nativeBridge brotli text) blake3 inputs a b).1.oplog))
    (hclean' : Clean ⟨nativeBridge brotli text, blake3, inputs'⟩
      (syncAt (nativeBridge brotli text) blake3 inputs a b).2 (syncAt (nativeBridge brotli text) blake3 inputs a b).1) :
    let once := syncAt (nativeBridge brotli text) blake3 inputs a b
    let twice := syncAt (nativeBridge brotli text) blake3 inputs' once.2 once.1
    Level (nativeBridge brotli text) blake3 twice.2 twice.1 ∧
      keySets (nativeBridge brotli text) twice.2.oplog =
        keySets (nativeBridge brotli text) a.oplog ⊔ keySets (nativeBridge brotli text) b.oplog := by
  obtain ⟨hra, hrb, hka, hkb⟩ := syncAt_round h32 ha hb hcol hclean
  obtain ⟨hrb', hra', hkb', hka'⟩ := syncAt_round h32 hrb hra hcol' hclean'
  rw [hka, hkb] at hkb' hka'
  obtain ⟨hpull, hpush⟩ := AntiEntropy.two_rounds (keySets (nativeBridge brotli text) a.oplog)
    (keySets (nativeBridge brotli text) b.oplog)
  exact ⟨⟨hra', hrb', (hka'.trans hpush).trans (hkb'.trans hpull).symm⟩, hka'.trans hpush⟩

end Rounds

/-! ## Syncs from one side alone -/

/-- A sync that goes through appends every segment in which the peer has ops and the keys differ. -/
theorem not_sameFiles_of_differs {bridge : WireBridge} {a b : Store} {r : Session × SyncOutcome}
    {pulled pushed : List Move} (h : Reconciled bridge blake3 a b r pulled pushed) {type : CrdtType} {day : JsString}
    (hdiffers : Differs bridge a.oplog b.oplog type day) : ¬ SameFiles r.1.ours.oplog a.oplog := by
  intro hsame
  have hbytes := bytes_of_sameFiles hsame type day
  rw [h.ours, bytes_applyMoves, h.pulledAt, if_pos hdiffers, List.append_right_eq_self, List.flatMap_eq_nil_iff] at hbytes
  -- no frame of the peer's segment is empty, so it has none, and no ops either
  have hnone : (split varintPrefix (b.oplog.bytes type day)).bodies = [] := by
    rw [List.eq_nil_iff_forall_not_mem]
    intro batch hbatch
    exact frameBytes_ne_nil batch (hbytes batch hbatch)
  apply hdiffers.1
  rw [segmentKeys_eq_nil, storedOps_eq, hnone]
  rfl

/-- After a sync at each side, any other leaves the files of both alone; after one at `a`, any
number of others there leaves the files of `a` alone. -/
structure SyncIdempotent (bridge : WireBridge) (blake3 : Bytes → Bytes) (inputs : Nat → Nat → PushInput)
    (inputs' : Nat → PushInput) (a b : Store) : Prop where
  both : let once := repeatSync bridge blake3 inputs a b 1
    let twice := syncAt bridge blake3 inputs' once.2 once.1
    SyncIdle bridge blake3 twice.2 twice.1 ∧ SyncIdle bridge blake3 twice.1 twice.2
  alone : ∀ n, SameFiles (repeatSync bridge blake3 inputs a b (n + 1)).1.oplog
    (repeatSync bridge blake3 inputs a b 1).1.oplog

end Native

/-! ## Replicas that hold an observation each -/

/-- The run ended by itself, without a refusal. -/
def done (r : Session × SyncOutcome) : Bool :=
  match r.2 with
  | .failed _ => false
  | _ => r.1.summary.refusedSegments = 0

theorem clean_of_done {host : SyncHost} {a b : Store} (hwhole : WholePulls b.oplog)
    (h : done (runSync host (.start a b)) = true) : Clean host a b := by
  unfold done at h
  split at h
  · cases h
  · rename_i hne
    exact ⟨of_decide_eq_true h, fun status hfailed => hne _ hfailed, hwhole⟩

/-- Segments of up to 1 GiB are pulled whole; those that are not listed are empty. -/
theorem wholePulls_of_listed {log : OpLog} (h : ∀ type ∈ crdtTypes, ∀ day ∈ log.listSegmentDays type,
    (log.bytes type day).length ≤ maxPages * pageBytes) : WholePulls log := by
  refine wholePulls_of_length_le fun type day => ?_
  cases hf : log.file type day with
  | none => simp [OpLog.bytes, hf]
  | some f => exact h type (mem_crdtTypes type) day ((mem_sortWith _).2 (KeyedMap.mem_keys.2 ⟨f, hf⟩))

/-- Batches are taken in on 1 January 1970. -/
def firstDay : Nat → PushInput := fun _ => ⟨0, 0, 0⟩

def newYear : JsString := ascii "1970-01-01"

/-- A replica that took these observations in. -/
def holding : List Nat → Store
  | [] => ⟨.empty, .empty⟩
  | wallMs :: rest => ⟨(holding rest).oplog.appendToFile .gset newYear (frameBytes (observationAt wallMs)) 0, .empty⟩

theorem length_observationAt (wallMs : Nat) : (observationAt wallMs).length = 50 := by
  simp [observationAt]

theorem storedOps_append_elsewhere {bridge : WireBridge} {log : OpLog} {type type' : CrdtType} {day day' : JsString}
    (h : ¬ (type = type' ∧ day = day')) (buf : Bytes) (m : Rat) :
    storedOps bridge (log.appendToFile type day buf m) type' day' = storedOps bridge log type' day' := by
  rw [storedOps, OpLog.bytes_appendToFile, if_neg h, List.append_nil, storedOps]

theorem ready_holding {ns : List Nat} (hdec : ∀ n ∈ ns, plainBridge.decode (observationAt n) = some [observedAt n])
    (hday : ∀ n ∈ ns, (observedAt n).BelongsIn .gset newYear) : Ready plainBridge Blake3.hash (holding ns) := by
  induction ns with
  | nil => exact ⟨fun _ _ => ⟨rfl, nofun⟩, fun _ _ _ hop => (nomatch hop), coherent_empty⟩
  | cons n rest ih =>
    have hrest := ih (fun m hm => hdec m (List.mem_cons_of_mem _ hm)) fun m hm => hday m (List.mem_cons_of_mem _ hm)
    have hlen : (observationAt n).length < 2 ^ 32 := by
      rw [length_observationAt]
      omega
    have hn := hdec n List.mem_cons_self
    refine ⟨wellStored_append hrest.stored hlen hn 0, ?_, coherent_empty⟩
    refine (bucketed_append (framed_of_wellStored hrest.stored) hlen 0).2 ⟨hrest.bucketed, fun op hop => ?_⟩
    rw [hn, Option.getD_some, List.mem_singleton] at hop
    rw [hop]
    exact hday n List.mem_cons_self

/-- A sync of two such replicas, every batch taken in on the day. -/
def firstSync (ns ms : List Nat) : Store × Store := syncAt plainBridge Blake3.hash firstDay (holding ns) (holding ms)

/-- A replica whose last write was cut off after the first byte. -/
def tornHolding : Store := ⟨(holding [5]).oplog.appendToFile .gset newYear [0x05] 0, .empty⟩

end Hayven.Cli
