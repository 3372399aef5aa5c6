import Hayven.Daemon.SyncRoutes
/-!
# `hayven sync`

`runSyncWith` of `cli/sync.ts`, between our replica and a peer's. Both daemons answer
from the files they share with their command line. Every request reaches its daemon;
what a daemon reads from its clocks while it takes a batch in is input. Peer records
and the rendered summary are left out.
-/
open Hayven.Lib Hayven.Crdt Hayven.Daemon

namespace Hayven.Cli

structure SyncSummary where
  pulledSegments : Nat
  pulledBytes : Nat
  pushedSegments : Nat
  pushedBytes : Nat
  roundTrips : Nat
  refusedSegments : Nat
deriving DecidableEq

/-- What the two daemons bring along; push request number `i` reads `inputs i`. -/
structure SyncHost where
  bridge : WireBridge
  blake3 : Bytes → Bytes
  inputs : Nat → PushInput

structure Session where
  ours : Store
  theirs : Store
  /-- Push requests so far. -/
  pushes : Nat
  summary : SyncSummary

def Session.start (ours theirs : Store) : Session := ⟨ours, theirs, 0, ⟨0, 0, 0, 0, 0, 0⟩⟩

/-- What ends a run early. -/
inductive SyncError where
  /-- An error of our own. -/
  | threw
  /-- A daemon's answer that is not the refusal of a batch. -/
  | http (status : Nat)
deriving DecidableEq

inductive SyncOutcome where
  | upToDate
  | transferred
  | failed (e : SyncError)
deriving DecidableEq

/-- `isRefusal`. -/
def isRefusal (status : Nat) : Bool := 400 ≤ status ∧ status ≤ 499

/-! ## One segment -/

/-- The daemon a batch is posted to. -/
inductive Side where
  | ours
  | theirs
deriving DecidableEq

namespace Session

def oplog (s : Session) : Side → OpLog
  | .ours => s.ours.oplog
  | .theirs => s.theirs.oplog

/-- A push is sent; only those to the peer count as round trips. -/
def sent (s : Session) (side : Side) : Session :=
  { s with
    pushes := s.pushes + 1
    summary := { s.summary with roundTrips := s.summary.roundTrips + (if side = .theirs then 1 else 0) } }

def stored (s : Session) (side : Side) (log : OpLog) : Session :=
  match side with
  | .ours => { s with ours := ⟨log, s.ours.cache⟩ }
  | .theirs => { s with theirs := ⟨log, s.theirs.cache⟩ }

def cached (s : Session) (side : Side) (cache : MerkleCache) : Session :=
  match side with
  | .ours => { s with ours := ⟨s.ours.oplog, cache⟩ }
  | .theirs => { s with theirs := ⟨s.theirs.oplog, cache⟩ }

def roundTrip (s : Session) : Session := { s with summary := { s.summary with roundTrips := s.summary.roundTrips + 1 } }

def refused (s : Session) : Session :=
  { s with summary := { s.summary with refusedSegments := s.summary.refusedSegments + 1 } }

end Session

def pushRequest (t : Target) (batch : Bytes) : PushRequest :=
  ⟨some (typeName t.type), some t.path, some (base64Of batch)⟩

/-- Post the batches of a segment, up to the first that is refused; an error if that ends the run. -/
def postBatches (host : SyncHost) (side : Side) (t : Target) : List Bytes → Session → Session × Option SyncError
  | [], s => (s, none)
  | batch :: rest, s =>
    match push host.bridge (s.oplog side) (pushRequest t batch) (host.inputs s.pushes) with
    | .ok (log, _) => postBatches host side t rest ((s.sent side).stored side log)
    | .error status => if isRefusal status then ((s.sent side).refused, none) else (s.sent side, some (.http status))

def pageBytes : Nat := 1024 * 1024
def maxPages : Nat := 1024

/-- The loop of `pullSegment`, at most `pages` more requests. -/
def pullPages (log : OpLog) (t : Target) : Nat → Nat → Except Nat Bytes
  | 0, _ => .ok []
  | pages + 1, offset =>
    match batchRoute log t.type t.path offset pageBytes with
    | .error status => .error status
    | .ok (bytes, eof) =>
      if eof ∨ bytes.length = 0 then .ok bytes
      else (pullPages log t pages (offset + bytes.length)).map (bytes ++ ·)

def pullSegment (log : OpLog) (t : Target) : Except Nat Bytes := pullPages log t maxPages 0

def Session.pulled (s : Session) (bytes : Bytes) : Session :=
  { s with
    summary :=
      { s.summary with
        pulledSegments := s.summary.pulledSegments + 1
        pulledBytes := s.summary.pulledBytes + bytes.length
        roundTrips := s.summary.roundTrips + 1 } }

def Session.pushed (s : Session) (bytes : Bytes) : Session :=
  { s with
    summary :=
      { s.summary with
        pushedSegments := s.summary.pushedSegments + 1
        pushedBytes := s.summary.pushedBytes + bytes.length } }

/-- One round of the pull loop. -/
def pullTarget (host : SyncHost) (t : Target) (s : Session) : Session × Option SyncError :=
  match pullSegment s.theirs.oplog t with
  | .error status => (s, some (.http status))
  | .ok bytes =>
    match splitSegmentBatches bytes with
    | none => (s.pulled bytes, some .threw)
    | some batches => postBatches host .ours t batches (s.pulled bytes)

/-- One round of the push loop. -/
def pushTarget (host : SyncHost) (t : Target) (s : Session) : Session × Option SyncError :=
  match s.ours.oplog.readSegmentBytes t.type t.path with
  | none => (s, none)
  | some bytes =>
    match splitSegmentBatches bytes with
    | none => (s.pushed bytes, some .threw)
    | some batches => postBatches host .theirs t batches (s.pushed bytes)

/-- A loop over targets that some round may end. -/
def forTargets (round : Target → Session → Session × Option SyncError) :
    List Target → Session → Session × Option SyncError
  | [], s => (s, none)
  | t :: rest, s =>
    match round t s with
    | (s, none) => forTargets round rest s
    | (s, some e) => (s, some e)

/-! ## The exchange -/

/-- The loop over the types: the peer's leaves where its root differs from ours, else our own. -/
def exchangeLeaves (host : SyncHost) (our : MerkleSnapshot) (theirRoots : CrdtType → JsString) :
    List CrdtType → (CrdtType → List SegmentLeaf) → Session → Session × Except SyncError (CrdtType → List SegmentLeaf)
  | [], leaves, s => (s, .ok leaves)
  | type :: rest, leaves, s =>
    if our.roots type = theirRoots type then
      exchangeLeaves host our theirRoots rest (Function.update leaves type (our.leaves type)) s
    else
      match computeMerkle host.bridge host.blake3 s.theirs.oplog s.theirs.cache with
      | .error _ => (s, .error (.http 500))
      | .ok (snap, cache) =>
        exchangeLeaves host our theirRoots rest (Function.update leaves type (snap.leaves type))
          (s.cached .theirs cache).roundTrip

/-- `rootsMatch`. -/
def rootsMatch (a b : CrdtType → JsString) : Bool := a .lww = b .lww ∧ a .gset = b .gset ∧ a .orset = b .orset

/-- The pulls and then the pushes of a diff. -/
def transfer (host : SyncHost) (diff : MerkleDiff) (s : Session) : Session × SyncOutcome :=
  match forTargets (pullTarget host) diff.pull s with
  | (s, some e) => (s, .failed e)
  | (s, none) =>
    match forTargets (pushTarget host) diff.push s with
    | (s, some e) => (s, .failed e)
    | (s, none) => (s, .transferred)

/-- The run from the comparison of the roots on. -/
def compareRoots (host : SyncHost) (our : MerkleSnapshot) (theirRoots : CrdtType → JsString) (s : Session) :
    Session × SyncOutcome :=
  if rootsMatch our.roots theirRoots then (s, .upToDate)
  else
    match exchangeLeaves host our theirRoots crdtTypes (fun _ => []) s with
    | (s, .error e) => (s, .failed e)
    | (s, .ok leaves) => transfer host (diffSnapshots our ⟨theirRoots, leaves⟩) s

/-- `runSyncWith`: the session at its end and how it ended. -/
def runSync (host : SyncHost) (s : Session) : Session × SyncOutcome :=
  match computeMerkle host.bridge host.blake3 s.ours.oplog s.ours.cache with
  | .error _ => (s, .failed .threw)
  | .ok (our, cache) =>
    let s := s.cached .ours cache
    match computeMerkle host.bridge host.blake3 s.theirs.oplog s.theirs.cache with
    | .error _ => (s, .failed (.http 500))
    | .ok (their, cache) => compareRoots host our their.roots (s.cached .theirs cache).roundTrip

end Hayven.Cli
