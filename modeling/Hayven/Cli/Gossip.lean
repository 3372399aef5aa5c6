import Hayven.Cli.SyncLaws
import Hayven.Crdt.RestartRuns
/-!
# Syncs among many replicas

Any number of replicas sync in pairs, one sync after another. Where the syncs go through,
an op reaches each replica that a chain of pulls leads to, and none without a chain of
syncs. Once the chains lead everywhere, the logs hold the same ops, every further sync
finds them up to date, and a restart shows the same on each.
-/
open Hayven.Lib Hayven.Crdt Hayven.Daemon

namespace Hayven.Cli

variable {ν : Type} [DecidableEq ν]

/-- `hayven sync` at one replica with another, and what the receiving daemons read meanwhile. -/
structure Meeting (ν : Type) where
  initiator : ν
  peer : ν
  inputs : Nat → PushInput

def Meeting.round (m : Meeting ν) : ν × ν := (m.initiator, m.peer)

def meet (bridge : WireBridge) (blake3 : Bytes → Bytes) (r : ν → Store) (m : Meeting ν) : ν → Store :=
  let s := syncAt bridge blake3 m.inputs (r m.initiator) (r m.peer)
  Function.update (Function.update r m.initiator s.1) m.peer s.2

/-- The replicas after these syncs, one after another. -/
def meetAll (bridge : WireBridge) (blake3 : Bytes → Bytes) (r : ν → Store) (ms : List (Meeting ν)) : ν → Store :=
  ms.foldl (meet bridge blake3) r

/-- A sync of two replicas that goes through, none of whose digests stands for two inputs. -/
structure GoesThrough (bridge : WireBridge) (blake3 : Bytes → Bytes) (r : ν → Store) (m : Meeting ν) : Prop where
  apart : m.initiator ≠ m.peer
  noCollision : NoCollision blake3
    (snapshotInputs bridge blake3 (r m.initiator).oplog ++ snapshotInputs bridge blake3 (r m.peer).oplog)
  clean : Clean ⟨bridge, blake3, m.inputs⟩ (r m.initiator) (r m.peer)

/-- Each sync goes through where the ones before it have led. -/
def AllGoThrough (bridge : WireBridge) (blake3 : Bytes → Bytes) : (ν → Store) → List (Meeting ν) → Prop
  | _, [] => True
  | r, m :: ms => GoesThrough bridge blake3 r m ∧ AllGoThrough bridge blake3 (meet bridge blake3 r m) ms

/-- The keys that each replica holds, segment by segment. -/
def keysOf (bridge : WireBridge) (r : ν → Store) : ν → CrdtType × JsString → Set JsString :=
  fun i => keySets bridge (r i).oplog

/-! ## One sync among the replicas -/

theorem forall_meet {bridge : WireBridge} {blake3 : Bytes → Bytes} {r : ν → Store} {m : Meeting ν}
    {P : Store → Prop} (hr : ∀ i, P (r i))
    (hours : P (syncAt bridge blake3 m.inputs (r m.initiator) (r m.peer)).1)
    (htheirs : P (syncAt bridge blake3 m.inputs (r m.initiator) (r m.peer)).2) :
    ∀ i, P (meet bridge blake3 r m i) := by
  intro i
  unfold meet
  by_cases hp : i = m.peer
  · subst hp
    rwa [Function.update_self]
  · rw [Function.update_of_ne hp]
    by_cases hi : i = m.initiator
    · subst hi
      rwa [Function.update_self]
    · rw [Function.update_of_ne hi]
      exact hr i

/-- What a sync leaves in a segment was there on one of the two sides. -/
theorem mem_storedOps_reconciled {bridge : WireBridge} {blake3 : Bytes → Bytes} {a b : Store}
    {s : Session × SyncOutcome} {pulled pushed : List Move} (h : Reconciled bridge blake3 a b s pulled pushed)
    (ha : Framed a.oplog) (hb : Framed b.oplog) {type : CrdtType} {day : JsString} {op : WireOp}
    (hop : op ∈ storedOps bridge s.1.ours.oplog type day ∨ op ∈ storedOps bridge s.1.theirs.oplog type day) :
    op ∈ storedOps bridge a.oplog type day ∨ op ∈ storedOps bridge b.oplog type day := by
  rcases hop with hop | hop
  · rw [h.ours, storedOps_applyMoves ha (fun m hm => (h.pulls m hm).2), h.pulledAt, List.mem_append] at hop
    refine hop.imp_right fun hop => ?_
    split at hop
    · rwa [storedOps_eq]
    · cases hop
  · rw [h.theirs, storedOps_applyMoves hb (fun m hm => (h.pushes m hm).2), h.pushedAt, List.mem_append] at hop
    rcases hop with hop | hop
    · exact .inr hop
    · split at hop
      · exact .inl (by rwa [storedOps_eq])
      · cases hop

section Native
variable {brotli : Native.Brotli} {text : NumberText} {blake3 : Bytes → Bytes} (h32 : ∀ x, (blake3 x).length = 32)
  {r : ν → Store} (hready : ∀ i, Ready (nativeBridge brotli text) blake3 (r i))
include h32 hready

/-- One sync keeps every replica ready, exchanges keys between the two, and stores no new op. -/
theorem meet_step {m : Meeting ν} (h : GoesThrough (nativeBridge brotli text) blake3 r m) :
    (∀ i, Ready (nativeBridge brotli text) blake3 (meet (nativeBridge brotli text) blake3 r m i)) ∧
      keysOf (nativeBridge brotli text) (meet (nativeBridge brotli text) blake3 r m) =
        AntiEntropy.exchange (keysOf (nativeBridge brotli text) r) m.initiator m.peer ∧
      ∀ i type day op,
        op ∈ storedOps (nativeBridge brotli text) (meet (nativeBridge brotli text) blake3 r m i).oplog type day →
          ∃ j, op ∈ storedOps (nativeBridge brotli text) (r j).oplog type day := by
  obtain ⟨hours, htheirs, hkeys, hkeys'⟩ := syncAt_round h32 (hready m.initiator) (hready m.peer) h.noCollision h.clean
  refine ⟨forall_meet hready hours htheirs, ?_, ?_⟩
  · funext i
    show keySets _ (meet _ _ _ _ i).oplog = _
    unfold meet AntiEntropy.exchange
    by_cases hp : i = m.peer
    · subst hp
      rw [Function.update_self, Function.update_self]
      exact hkeys'
    · rw [Function.update_of_ne hp, Function.update_of_ne hp]
      by_cases hi : i = m.initiator
      · subst hi
        rw [Function.update_self, Function.update_self]
        exact hkeys
      · rw [Function.update_of_ne hi, Function.update_of_ne hi]
        rfl
  · intro i type day op
    obtain ⟨pulled, pushed, hrec⟩ := reconciled_of_clean (nativeBridge_segmentWise brotli text) (hready m.initiator)
      (hready m.peer) (encodable_of_bucketed (hready m.initiator).bucketed)
      (encodable_of_bucketed (hready m.peer).bucketed) h32 h.noCollision h.clean
    have hfrom := @mem_storedOps_reconciled _ _ _ _ _ _ _ hrec (framed_of_wellStored (hready m.initiator).stored)
      (framed_of_wellStored (hready m.peer).stored) type day op
    have hsource : ∀ {P : Prop}, (P → op ∈ storedOps (nativeBridge brotli text) (r m.initiator).oplog type day ∨
        op ∈ storedOps (nativeBridge brotli text) (r m.peer).oplog type day) →
        P → ∃ j, op ∈ storedOps (nativeBridge brotli text) (r j).oplog type day := fun hP hp =>
      (hP hp).elim (fun h => ⟨_, h⟩) fun h => ⟨_, h⟩
    refine forall_meet (P := fun s => op ∈ storedOps (nativeBridge brotli text) s.oplog type day →
      ∃ j, op ∈ storedOps (nativeBridge brotli text) (r j).oplog type day) (fun j hj => ⟨j, hj⟩) ?_ ?_ i
    · exact hsource fun hop => hfrom (.inl hop)
    · exact hsource fun hop => hfrom (.inr hop)

/-- The replicas' keys after syncs that go through are those of as many rounds of anti-entropy. -/
theorem meetAll_gossip {ms : List (Meeting ν)} (h : AllGoThrough (nativeBridge brotli text) blake3 r ms) :
    (∀ i, Ready (nativeBridge brotli text) blake3 (meetAll (nativeBridge brotli text) blake3 r ms i)) ∧
      keysOf (nativeBridge brotli text) (meetAll (nativeBridge brotli text) blake3 r ms) =
        AntiEntropy.gossip (keysOf (nativeBridge brotli text) r) (ms.map Meeting.round) ∧
      ∀ i type day op,
        op ∈ storedOps (nativeBridge brotli text) (meetAll (nativeBridge brotli text) blake3 r ms i).oplog type day →
          ∃ j, op ∈ storedOps (nativeBridge brotli text) (r j).oplog type day := by
  induction ms generalizing r with
  | nil => exact ⟨hready, rfl, fun i _ _ _ hop => ⟨i, hop⟩⟩
  | cons m ms ih =>
    obtain ⟨hready', hkeys, hstored⟩ := meet_step h32 hready h.1
    obtain ⟨hlast, hgossip, hfrom⟩ := ih hready' h.2
    refine ⟨hlast, hgossip.trans ?_, fun i type day op hop => ?_⟩
    · rw [hkeys]
      rfl
    · obtain ⟨j, hj⟩ := hfrom i type day op hop
      exact hstored j type day op hj

end Native

/-! ## What a restart shows on each -/

/-- Ops that are stored in one segment under one key are the same op, on whichever replicas they are. -/
def OneOpPerKey (bridge : WireBridge) (r : ν → Store) : Prop :=
  ∀ i j type day, ∀ op ∈ storedOps bridge (r i).oplog type day, ∀ op' ∈ storedOps bridge (r j).oplog type day,
    keyHex op.key = keyHex op'.key → op = op'

/-- The well-formed ops that a log stores. -/
def loggedOps (bridge : WireBridge) (text : NumberText) (log : OpLog) : Set (CrdtOp JsString) :=
  {op | ∃ type day, ∃ wire ∈ storedOps bridge log type day, toLogical text wire = some op}

/-- A new process of this writer hydrates from a log, the serializer answering every call. -/
def openedFrom (host : Host) (log : OpLog) (writer : WriterId) (m : JsString → Rat) (now : CrdtType → Nat → Int) :
    CrdtState.Restart :=
  (CrdtState.start writer log).hydrate host.text (fun _ => steady host.bridge.decode) m now

/-- A restart from a log of whole batches takes in exactly the ops that the log stores. -/
theorem holds_openedFrom {host : Host} {log : OpLog} (hlog : WellStored host.bridge log)
    (hc : MemState.Consistent (loggedOps host.bridge host.text log)) (writer : WriterId) (m : JsString → Rat)
    (now : CrdtType → Nat → Int) : (openedFrom host log writer m now).thrown = none ∧
      (openedFrom host log writer m now).state.mem.Holds (loggedOps host.bridge host.text log) := by
  obtain ⟨hthrown, hmem⟩ := CrdtState.hydrate_steady_mem (s := CrdtState.start writer log) m now hlog
  have hset : ∅ ∪ {op | op ∈ logicalOps host.text (CrdtState.replayedOps host.bridge m log)} =
      loggedOps host.bridge host.text log := by
    ext op
    simp only [Set.empty_union, Set.mem_ofPred_eq, loggedOps, logicalOps, List.mem_filterMap, CrdtState.replayedOps,
      List.mem_flatMap, (hydrate_wellStored hlog _ m).2]
    constructor
    · rintro ⟨wire, ⟨type, -, day, hwire⟩, hop⟩
      exact ⟨type, day, wire, hwire, hop⟩
    · rintro ⟨type, day, wire, hwire, hop⟩
      exact ⟨wire, ⟨type, by cases type <;> simp, day, hwire⟩, hop⟩
  refine ⟨hthrown, ?_⟩
  show (openedFrom host log writer m now).state.mem.Holds _
  rw [openedFrom, hmem, ← hset]
  apply MemState.holds_deliverAll
  · exact hset ▸ hc
  · exact (MemState.replica JsString).holds_init

/-- Logs of the same ops show the same after a restart, whoever restarts. -/
theorem sameView_openedFrom {host : Host} {log log' : OpLog} (hlog : WellStored host.bridge log)
    (hlog' : WellStored host.bridge log')
    (hsame : ∀ type day op, op ∈ storedOps host.bridge log type day ↔ op ∈ storedOps host.bridge log' type day)
    (hc : MemState.Consistent (loggedOps host.bridge host.text log)) (writer writer' : WriterId)
    (m m' : JsString → Rat) (now now' : CrdtType → Nat → Int) :
    CrdtState.SameView (openedFrom host log writer m now).state.mem (openedFrom host log' writer' m' now').state.mem := by
  have hops : loggedOps host.bridge host.text log = loggedOps host.bridge host.text log' := by
    ext op
    simp only [loggedOps, hsame]
  apply MemState.view_eq_iff.1
  apply MemState.view_eq_of_holds hc
  · exact (holds_openedFrom hlog hc writer m now).2
  · rw [hops] at hc ⊢
    exact (holds_openedFrom hlog' hc writer' m' now').2

section Native
variable {brotli : Native.Brotli} {text : NumberText} {blake3 : Bytes → Bytes} (h32 : ∀ x, (blake3 x).length = 32)
  {r : ν → Store} (hready : ∀ i, Ready (nativeBridge brotli text) blake3 (r i))
include h32 hready

/-- Where the keys agree, so do the ops: a key came from one op only. -/
theorem storedOps_of_keys {ms : List (Meeting ν)} (h : AllGoThrough (nativeBridge brotli text) blake3 r ms)
    (hone : OneOpPerKey (nativeBridge brotli text) r) {i j : ν}
    (hkeys : keysOf (nativeBridge brotli text) (meetAll (nativeBridge brotli text) blake3 r ms) i =
      keysOf (nativeBridge brotli text) (meetAll (nativeBridge brotli text) blake3 r ms) j)
    {type : CrdtType} {day : JsString} {op : WireOp}
    (hop : op ∈ storedOps (nativeBridge brotli text) (meetAll (nativeBridge brotli text) blake3 r ms i).oplog type day) :
    op ∈ storedOps (nativeBridge brotli text) (meetAll (nativeBridge brotli text) blake3 r ms j).oplog type day := by
  obtain ⟨-, -, hfrom⟩ := meetAll_gossip h32 hready h
  have hkey : keyHex op.key ∈ keysOf (nativeBridge brotli text)
      (meetAll (nativeBridge brotli text) blake3 r ms) i (type, day) := mem_segmentKeys.2 ⟨op, hop, rfl⟩
  rw [hkeys] at hkey
  obtain ⟨op', hop', heq⟩ := mem_segmentKeys.1 hkey
  obtain ⟨k, hk⟩ := hfrom i type day op hop
  obtain ⟨k', hk'⟩ := hfrom j type day op' hop'
  have hsame := hone k' k type day op' hk' op hk heq
  exact hsame ▸ hop'

end Native

/-! ## A hub and two others -/

/-- A replica without ops, and two that hold an observation each. -/
def threeReplicas : Fin 3 → Store
  | 0 => holding []
  | 1 => holding [5]
  | 2 => holding [6]

/-- The first meets the others, then each of them meets the first. -/
def hubMeetings : List (Meeting (Fin 3)) :=
  [⟨0, 1, firstDay⟩, ⟨0, 2, firstDay⟩, ⟨1, 0, firstDay⟩, ⟨2, 0, firstDay⟩]

/-- A check of a sync that computes. -/
def checkSync (r : Fin 3 → Store) (m : Meeting (Fin 3)) : Bool :=
  m.initiator ≠ m.peer ∧ NoCollision Blake3.hash (snapshotInputs plainBridge Blake3.hash (r m.initiator).oplog ++
      snapshotInputs plainBridge Blake3.hash (r m.peer).oplog) ∧
    (∀ type ∈ crdtTypes, ∀ day ∈ (r m.peer).oplog.listSegmentDays type,
      ((r m.peer).oplog.bytes type day).length ≤ maxPages * pageBytes) ∧
    done (runSync ⟨plainBridge, Blake3.hash, m.inputs⟩ (.start (r m.initiator) (r m.peer))) = true

def checkSyncs : (Fin 3 → Store) → List (Meeting (Fin 3)) → Bool
  | _, [] => true
  | r, m :: ms => checkSync r m && checkSyncs (meet plainBridge Blake3.hash r m) ms

theorem allGoThrough_of_check {r : Fin 3 → Store} {ms : List (Meeting (Fin 3))} (h : checkSyncs r ms = true) :
    AllGoThrough plainBridge Blake3.hash r ms := by
  induction ms generalizing r with
  | nil => trivial
  | cons m ms ih =>
    simp only [checkSyncs, Bool.and_eq_true] at h
    obtain ⟨hapart, hcol, hlisted, hdone⟩ := of_decide_eq_true h.1
    exact ⟨⟨hapart, hcol, clean_of_done (wholePulls_of_listed hlisted) hdone⟩, ih h.2⟩

theorem hubMeetings_goThrough : AllGoThrough plainBridge Blake3.hash threeReplicas hubMeetings :=
  allGoThrough_of_check (by decide +kernel)

theorem decode_observationAt : ∀ n ∈ [5, 6], plainBridge.decode (observationAt n) = some [observedAt n] := by
  decide +kernel

theorem ready_observations {ns : List Nat} (hns : ns ⊆ [5, 6]) : Ready plainBridge Blake3.hash (holding ns) := by
  have hday : ∀ n ∈ [5, 6], (observedAt n).BelongsIn .gset newYear := by decide +kernel
  exact ready_holding (fun n hn => decode_observationAt n (hns hn)) fun n hn => hday n (hns hn)

theorem ready_threeReplicas : ∀ i, Ready plainBridge Blake3.hash (threeReplicas i)
  | 0 => ready_observations (by simp)
  | 1 => ready_observations (by simp)
  | 2 => ready_observations (by simp)

theorem mem_storedOps_holding {ns : List Nat} (hns : ns ⊆ [5, 6]) {type : CrdtType} {day : JsString} {op : WireOp}
    (hop : op ∈ storedOps plainBridge (holding ns).oplog type day) : op = observedAt 5 ∨ op = observedAt 6 := by
  induction ns with
  | nil => cases hop
  | cons n rest ih =>
    obtain ⟨hn, hrest⟩ := List.cons_subset.1 hns
    have hlen : (observationAt n).length < 2 ^ 32 := by
      rw [length_observationAt]
      omega
    rw [holding, storedOps_append_batch (framed_of_wellStored (ready_observations hrest).stored) hlen,
      decode_observationAt n hn, List.mem_append] at hop
    rcases hop with hop | hop
    · exact ih hrest hop
    · split at hop
      · obtain rfl : op = observedAt n := by simpa using hop
        simpa using List.mem_map_of_mem (f := observedAt) hn
      · cases hop

theorem mem_storedOps_threeReplicas {type : CrdtType} {day : JsString} {op : WireOp} : (i : Fin 3) →
    op ∈ storedOps plainBridge (threeReplicas i).oplog type day → op = observedAt 5 ∨ op = observedAt 6
  | 0, hop => mem_storedOps_holding (by simp) hop
  | 1, hop => mem_storedOps_holding (by simp) hop
  | 2, hop => mem_storedOps_holding (by simp) hop

theorem flows_hubMeetings : ∀ i j, AntiEntropy.Flows (hubMeetings.map Meeting.round) i j :=
  AntiEntropy.flows_hub 0 [1, 2] (by decide)

end Hayven.Cli
