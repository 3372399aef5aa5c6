import Hayven.Daemon.RegistryOps
import Hayven.Lib.Runs
import Mathlib.Logic.Function.Basic
/-!
# The registry lock

`daemon/registry.ts`: the lock file around the read, modify and write of an operation, one
file-system step at a time. A caller runs one operation and is somewhere in it
(`RegistryPhase`). The lock is a lease: whoever sees the same modification time for
`LOCK_STALE_MS` removes the file, and a holder touches it and looks for its token just
before the rename. The write without a lock, after the acquire budget, and the last-chance
write after three lost leases are not steps of this model.
-/
open Hayven.Lib

namespace Hayven.Daemon

def registryLockStaleMs : Nat := 5000

/-- The lock file: the attempt that created it, which is its token once that was written,
and its modification time. -/
structure RegistryLock where
  token : Nat
  written : Bool
  mtime : Nat
deriving DecidableEq

/-- The lock around the operation, as `withRegistryLock` runs it: the operation, what it
looked up before, and what the file system answers it. -/
structure LockedCall where
  host : RegistryHost
  op : RegistryOp
  before : List ProjectEntry
  readable : Bool

/-- What the operation publishes over a file, if it publishes. -/
def LockedCall.publishes (call : LockedCall) (file : ProjectsFile) : Option ProjectsFile :=
  match call.op.locked call.host call.before (readRegistryRaw call.host file call.readable) with
  | .ok (some next) => some (.text (some (projectsJson next)))
  | _ => none

/-- `pruneStaleProjects` renews the lease at every row. -/
def LockedCall.heartbeats (call : LockedCall) (file : ProjectsFile) : Nat :=
  match call.op with
  | .pruneStale _ => (readRegistryRaw call.host file call.readable).length
  | _ => 0

/-- Where a caller is. Before the lock is taken, `watched` is a modification time and when
it was first seen. From the read on, `base` is the file that was read. -/
inductive RegistryPhase where
  | outside
  | opening (watched : Option (Nat × Nat))
  | refused (watched : Option (Nat × Nat))
  | sighted (watched : Option (Nat × Nat)) (mtime : Nat)
  | reclaiming (mtime : Nat)
  | unlinking (seen : RegistryLock)
  | created (token : Nat)
  | tokened (token : Nat)
  | holding (token : Nat)
  /-- It has read; `beats` more renewals come before it publishes `next` or is done. -/
  | modified (token : Nat) (base : ProjectsFile) (next : Option ProjectsFile) (beats : Nat) (lost : Bool)
  | beating (token : Nat) (base : ProjectsFile) (next : Option ProjectsFile) (beats : Nat)
  | staged (token : Nat) (base next : ProjectsFile) (lost : Bool)
  | fencing (token : Nat) (base next : ProjectsFile) (renewed : Nat)
  | publishing (token : Nat) (base next : ProjectsFile) (renewed : Nat)
  | releasing (token : Nat) (ok : Bool)
  | removing (token : Nat) (ok : Bool)
  | finished (ok : Bool)

structure RegistryState where
  clock : Nat
  lock : Option RegistryLock
  file : ProjectsFile
  issued : Nat
  phases : Nat → RegistryPhase

inductive RegistryAct where
  | wait (ms : Nat)
  /-- The caller takes the next step of its code. -/
  | proceed (caller : Nat)
  /-- Its backup, its write or its rename throws. -/
  | fail (caller : Nat)
deriving DecidableEq

namespace RegistryState

def goto (s : RegistryState) (c : Nat) (phase : RegistryPhase) : RegistryState :=
  { s with phases := Function.update s.phases c phase }

/-- `readLockToken(path)`; an unwritten file reads as an empty text. -/
def holds (s : RegistryState) (token : Nat) : Bool := s.lock.any fun l => l.written && l.token = token

def touch (s : RegistryState) : RegistryState :=
  { s with lock := s.lock.map fun l => { l with mtime := s.clock } }

/-- The pass of the acquire loop after `stat`. -/
def judge (s : RegistryState) (c : Nat) (watched : Option (Nat × Nat)) (mtime : Nat) : RegistryState :=
  match watched with
  | some (m, since) =>
    if m = mtime then
      if s.clock - since ≥ registryLockStaleMs then s.goto c (.reclaiming mtime) else s.goto c (.opening watched)
    else s.goto c (.opening (some (mtime, s.clock)))
  | none => s.goto c (.opening (some (mtime, s.clock)))

/-- The next step of a caller. -/
def proceed (calls : Nat → LockedCall) (s : RegistryState) (c : Nat) : Option RegistryState :=
  match s.phases c with
  | .outside => some (s.goto c (.opening none))
  | .opening watched =>
    match s.lock with
    | some _ => some (s.goto c (.refused watched))
    | none => some { s.goto c (.created s.issued) with
        lock := some ⟨s.issued, false, s.clock⟩, issued := s.issued + 1 }
  | .refused watched =>
    match s.lock with
    | none => some (s.goto c (.opening none))
    | some l => some (s.goto c (.sighted watched l.mtime))
  | .sighted watched mtime => some (s.judge c watched mtime)
  | .reclaiming mtime =>
    match s.lock with
    | none => some (s.goto c (.opening none))
    | some l => some (s.goto c (if l.mtime = mtime then .unlinking l else .opening none))
  | .unlinking _ => some { s.goto c (.opening none) with lock := none }
  -- a file that was unlinked meanwhile is written without its name
  | .created token => some { s.goto c (.tokened token) with
      lock := s.lock.map fun l => if l.token = token then { l with written := true, mtime := s.clock } else l }
  | .tokened token => some (s.goto c (if s.holds token then .holding token else .opening none))
  | .holding token =>
    let next := (calls c).publishes s.file
    some (s.goto c (.modified token s.file next
      ((calls c).heartbeats s.file + if next.isSome then 1 else 0) false))
  | .modified token base next (beats + 1) false =>
    match s.lock with
    | none => some (s.goto c (.modified token base next beats true))
    | some _ => some (s.touch.goto c (.beating token base next beats))
  | .modified token base (some next) _ lost => some (s.goto c (.staged token base next lost))
  | .modified token _ none _ _ => some (s.goto c (.releasing token true))
  | .beating token base next beats => some (s.goto c (.modified token base next beats (! s.holds token)))
  | .staged token base next lost =>
    match lost, s.lock with
    | false, some _ => some (s.touch.goto c (.fencing token base next s.clock))
    | _, _ => some (s.goto c (.opening none))
  | .fencing token base next renewed =>
    some (s.goto c (if s.holds token then .publishing token base next renewed else .opening none))
  | .publishing token _ next _ => some { s.goto c (.releasing token true) with file := next }
  | .releasing token ok => some (s.goto c (if s.holds token then .removing token ok else .finished ok))
  | .removing _ ok => some { s.goto c (.finished ok) with lock := none }
  | .finished _ => none

def fail (s : RegistryState) (c : Nat) : Option RegistryState :=
  match s.phases c with
  | .modified token _ (some _) _ _ | .publishing token _ _ _ => some (s.goto c (.releasing token false))
  | _ => none

def step (calls : Nat → LockedCall) (s : RegistryState) : RegistryAct → Option RegistryState
  | .wait ms => some { s with clock := s.clock + ms }
  | .proceed c => s.proceed calls c
  | .fail c => s.fail c

end RegistryState

/-- A file, and what may be left of a lock of an earlier process. -/
def registryStart (file : ProjectsFile) (now : Nat) (left : Option {l : RegistryLock // l.mtime ≤ now}) :
    RegistryState :=
  ⟨now, left.map Subtype.val, file, (left.map fun l => l.val.token + 1).getD 0, fun _ => .outside⟩

/-! ## What is asked of a run -/

/-- A rename comes within the lease that the last renewal before it started. -/
def Prompt (s : RegistryState) : RegistryAct → Prop
  | .proceed c => ∀ token base next renewed, s.phases c = .publishing token base next renewed →
      s.clock < renewed + registryLockStaleMs
  | _ => True

/-- An unlink meets the file that it was decided on: a reclaim the one of its second `stat`,
a release its own. -/
def MeetsChecked (s : RegistryState) : RegistryAct → Prop
  | .proceed c =>
    (∀ seen, s.phases c = .unlinking seen → ∀ l, s.lock = some l → l = seen) ∧
      ∀ token ok, s.phases c = .removing token ok → ∀ l, s.lock = some l → l.token = token
  | _ => True

/-- The whole call, with its look-ups made on the file that it reads under the lock. -/
def LockedCall.whole (call : LockedCall) : RegistryCall := ⟨call.host, call.op, call.readable, call.readable, true⟩

/-- What an operation looked up before it took the lock leads it to what it would publish
had it looked under the lock. -/
def LooksAgree (calls : Nat → LockedCall) (s : RegistryState) : RegistryAct → Prop
  | .proceed c => ∀ token, s.phases c = .holding token →
      (calls c).publishes s.file = ((calls c).whole.writes s.file).map fun next => .text (some (projectsJson next))
  | _ => True

/-- The operation has done all it does to the registry: it has renamed, or has read and has
nothing to publish. -/
def RegistryPhase.Completed : RegistryPhase → Prop
  | .modified _ _ none _ _ | .beating _ _ none _ => True
  | .releasing _ ok | .removing _ ok | .finished ok => ok = true
  | _ => False

def RegistryPhase.returned : RegistryPhase → Bool
  | .finished ok => ok
  | _ => false

end Hayven.Daemon
