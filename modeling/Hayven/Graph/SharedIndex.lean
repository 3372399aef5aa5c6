import Hayven.Db.IngestMarker
import Hayven.Lib.Runs
import Mathlib.Logic.Function.Basic
/-!
# Ingests that share an index

The runs of `graph/ingest.ts` and of its callers over one index file, one transaction at a
time: the incremental path of `cli/ingest.ts`, the watch batch and the full ingest of
`cli/daemon.ts`. Any number of processes hold any number of `Db` handles, and a process
may be killed between any two transactions. Beside the code's own state stands a record
of what is owed: the files whose rows went and were not derived again.
-/
open Hayven.Lib Hayven.Db

namespace Hayven.Graph.SharedIndex

/-- The numbers of the runtime, and what follows the pid in the `n`-th token: a time and
random digits that never repeat. -/
structure Env where
  rt : NumberText
  stamp : Nat → JsString
  stamp_injective : Function.Injective stamp

/-- What a caller asks of `runIngest`; without a list the parser is handed the whole tree. -/
structure Job where
  files : Option (List JsString)
  fullRebuild : Bool
  clearBeforeIngest : Bool
deriving DecidableEq

def Job.asks (job : Job) (file : JsString) : Bool := job.files.all (file ∈ ·)

def Job.incremental (changed : List JsString) : Job := ⟨some changed, false, false⟩

/-- The daemon clears the graph itself, before `drainIngest`. -/
def Job.afterClear : Job := ⟨none, true, false⟩

def Job.rebuild : Job := ⟨none, true, true⟩

/-- A run inside `drainIntoIndex`. -/
structure Drain where
  job : Job
  callerDeclaredIngest : Bool
  started : Bool
  mutatedIndex : Bool
  /-- The files of the nodes flushed so far. -/
  written : List JsString
  pending : List GraphNode

/-- Where the code on a handle is. -/
inductive Phase where
  | idle
  /-- Before the parse of a batch: files whose rows are still to go. -/
  | purging (marks : Bool) (todo changed : List JsString)
  | cleared
  | draining (d : Drain)
  /-- A refused run has read the marker and not yet written it back. -/
  | refusing (token : JsString) (read : List InFlightIngest)

/-- A `Db` handle in its process. -/
structure Client where
  pid : Pid
  ingestToken : Option JsString
  phase : Phase

structure Shared where
  db : IndexFile
  alive : Nat → Bool
  clients : Nat → Option Client
  issued : Nat
  /-- The files that are owed, each with the token its rows went under. -/
  owed : JsString → Option (Option JsString)
  /-- The files whose rows went after the run on a handle had written them. -/
  lost : Nat → JsString → Bool

inductive Action where
  | spawn (pid : Pid)
  | kill (pid : Pid)
  | openDb (handle : Nat) (pid : Pid)
  | closeDb (handle : Nat)
  /-- A batch of changed and deleted files; the watcher's does not mark the index. -/
  | startBatch (handle : Nat) (marks : Bool) (changed deleted : List JsString) (now : Double)
  | purge (handle : Nat)
  /-- A batch without changed files is over. -/
  | finishBatch (handle : Nat)
  | clearFirst (handle : Nat) (now : Double)
  /-- `drainIntoIndex` marks the index; the parser will emit these nodes. -/
  | drain (handle : Nat) (job : Job) (nodes : List GraphNode) (now : Double)
  | startRecord (handle : Nat) (now : Double)
  | flushNodes (handle : Nat) (count : Nat)
  /-- A cap is exceeded. -/
  | abort (handle : Nat)
  /-- The second half of a refused run's `endIngest`. -/
  | writeBack (handle : Nat)
  /-- The run throws. -/
  | fail (handle : Nat)
  | succeed (handle : Nat)

/-! ## Steps -/

/-- The debts under a token that gives way pass to the token that replaces it. -/
def passOn (drops : JsString → Bool) (token : JsString) (owed : JsString → Option (Option JsString)) :
    JsString → Option (Option JsString) := fun file =>
  match owed file with
  | some (some t) => some (some (if drops t then token else t))
  | debt => debt

namespace Shared

def put (s : Shared) (handle : Nat) (c : Client) : Shared :=
  { s with clients := Function.update s.clients handle (some c) }

/-- A token that a clear reaps or adopts. -/
def givesWay (s : Shared) (token : JsString) : Bool := isAdoptableToken token || isDeadOwnerToken s.alive token

section Writes
variable (env : Env) (s : Shared) (handle : Nat) (c : Client)

/-- The handle's token, minted if it has none. -/
def token : JsString := c.ingestToken.getD (mintToken c.pid (env.stamp s.issued))

/-- `beginIngest`. -/
def declare (phase : Phase) (now : Double) : Shared :=
  let token := s.token env c
  { s.put handle { c with ingestToken := some token, phase := phase } with
    db := s.db.beginIngest env.rt token now
    issued := s.issued + 1
    owed := passOn isAdoptableToken token s.owed
    lost := Function.update s.lost handle fun _ => false }

/-- `clearGraph`: whatever has rows is owed under the handle's token. -/
def clear (phase : Phase) (now : Double) : Shared :=
  let token := s.token env c
  { s.put handle { c with ingestToken := some token, phase := phase } with
    db := s.db.clearGraph env.rt s.alive token now
    issued := s.issued + 1
    owed := fun file => if s.db.hasRows file then some (some token) else passOn s.givesWay token s.owed file
    lost := Function.update (fun k file => s.lost k file || s.db.hasRows file) handle fun _ => false }

/-- The rows of a file go; a file that is still there is owed. -/
def purge (phase : Phase) (file : JsString) (changed : List JsString) : Shared :=
  let s' := { s.put handle { c with phase := phase } with db := s.db.deleteNodesByFile file }
  if file ∈ changed ∧ s.db.hasRows file = true then
    { s' with
      owed := Function.update s.owed file (some c.ingestToken)
      lost := fun k => Function.update (s.lost k) file true }
  else s'

def flush (d : Drain) (count : Nat) : Shared :=
  let batch := d.pending.take count
  let files := batch.map (·.file)
  let d' := { d with mutatedIndex := true, written := d.written ++ files, pending := d.pending.drop count }
  { s.put handle { c with phase := .draining d' } with
    db := s.db.upsertNodes batch
    lost := Function.update s.lost handle fun file =>
      s.lost handle file && !(decide (file ∈ files) && decide (file ∉ d.written)) }

/-- The run is complete: what it asked for, and wrote after the rows went, is derived again. -/
def complete (job : Job) : Shared :=
  { s.put handle { c with ingestToken := none, phase := .idle } with
    db := s.db.succeed env.rt c.ingestToken job.fullRebuild
    owed := fun file => if job.asks file = true ∧ s.lost handle file = false then none else s.owed file }

end Writes

end Shared

/-- What `runIngest` may be called for, and with what. -/
def Phase.calls : Phase → Job → Bool
  | .idle, _ => true
  | .purging _ [] changed, job => changed ≠ [] && job = .incremental changed
  | .cleared, job => job = .afterClear
  | _, _ => false

section Step
variable (env : Env)

/-- The next transaction of the code on a handle. -/
def clientStep (s : Shared) (c : Client) : Action → Option Shared
  | .startBatch h marks changed deleted now =>
    match c.phase with
    | .idle =>
      let phase := .purging marks (deleted ++ changed) changed
      some (if marks then s.declare env h c phase now else s.put h { c with phase := phase })
    | _ => none
  | .purge h =>
    match c.phase with
    | .purging marks (file :: todo) changed => some (s.purge h c (.purging marks todo changed) file changed)
    | _ => none
  | .finishBatch h =>
    match c.phase with
    | .purging true [] [] => some (s.complete env h c (.incremental []))
    | .purging false [] [] => some (s.put h { c with phase := .idle })
    | _ => none
  | .clearFirst h now =>
    match c.phase with
    | .idle => some (s.clear env h c .cleared now)
    | _ => none
  | .drain h job nodes now =>
    if c.phase.calls job then
      some (s.declare env h c (.draining ⟨job, c.ingestToken.isSome, false, false, [], nodes⟩) now)
    else none
  | .startRecord h now =>
    match c.phase with
    | .draining d =>
      if d.started then none
      else if d.job.clearBeforeIngest then
        some (s.clear env h c (.draining { d with started := true, mutatedIndex := true }) now)
      else some (s.put h { c with phase := .draining { d with started := true } })
    | _ => none
  | .flushNodes h count =>
    match c.phase with
    | .draining d => if d.started ∧ 0 < count ∧ d.pending ≠ [] then some (s.flush h c d count) else none
    | _ => none
  | .abort h =>
    match c.phase with
    | .draining d =>
      match d.mutatedIndex || d.callerDeclaredIngest, c.ingestToken with
      | false, some token => some (s.put h ⟨c.pid, none, .refusing token (readInFlight env.rt s.db)⟩)
      | _, _ => some (s.put h { c with phase := .idle })
    | _ => none
  | .writeBack h =>
    match c.phase with
    | .refusing token read => some { s.put h { c with phase := .idle } with db := s.db.retract env.rt read token }
    | _ => none
  | .fail h =>
    match c.phase with
    | .purging .. | .cleared | .draining _ => some (s.put h { c with phase := .idle })
    | _ => none
  | .succeed h =>
    match c.phase with
    | .draining d => if d.started ∧ d.pending = [] then some (s.complete env h c d.job) else none
    | _ => none
  | _ => none

/-- The handle whose code takes the step. -/
def Action.handle : Action → Option Nat
  | .spawn _ | .kill _ | .openDb .. | .closeDb _ => none
  | .startBatch h .. | .purge h | .finishBatch h | .clearFirst h _ | .drain h .. | .startRecord h _ | .flushNodes h _
  | .abort h | .writeBack h | .fail h | .succeed h => some h

def step (s : Shared) (a : Action) : Option Shared :=
  match a with
  | .spawn pid => if s.alive pid.val then none else some { s with alive := Function.update s.alive pid.val true }
  | .kill pid =>
    some { s with
      alive := Function.update s.alive pid.val false
      clients := fun h => (s.clients h).filter (·.pid ≠ pid) }
  | .openDb h pid =>
    if s.clients h = none ∧ s.alive pid.val = true then some (s.put h ⟨pid, none, .idle⟩) else none
  | .closeDb h => some { s with clients := Function.update s.clients h none }
  | a => (a.handle.bind s.clients).bind fun c => clientStep env s c a

end Step

/-! ## What the marker is for -/

section Purpose
variable (env : Env) (s : Shared)

/-- Some run's rows are gone and no run completed since has derived them again. -/
def Shared.Partial : Prop := ∃ file, s.owed file ≠ none

def Client.Holds (c : Client) (token : JsString) : Prop :=
  c.ingestToken = some token ∨ ∃ read, c.phase = .refusing token read

/-- The step takes no token from the marker but the handle's own, and those that give way to
it in the same write. -/
def RetractsOwn (a : Action) (s' : Shared) : Prop :=
  ∀ token ∈ s.db.tokens env.rt, token ∈ s'.db.tokens env.rt ∨
    ∃ h c, a.handle = some h ∧ s.clients h = some c ∧
      (c.Holds token ∨ (s.givesWay token = true ∧ s.token env c ∈ s'.db.tokens env.rt))

/-- The file is owed under a token that becomes the handle's own. -/
def Inherits (c : Client) (drops : JsString → Bool) (file : JsString) : Prop :=
  ∃ token, s.owed file = some (some token) ∧ (c.ingestToken = some token ∨ drops token = true)

/-- The steps that keep the marker sound. -/
def Guarded : Action → Prop
  -- A batch purges changed files under a token of its handle.
  | .purge h => ∀ c marks file todo changed, s.clients h = some c → c.phase = .purging marks (file :: todo) changed →
      file ∈ changed → s.db.hasRows file = true → c.ingestToken ≠ none
  -- A run asks for what earlier runs on its handle, and a marker that it adopts, left owed.
  | .drain h job _ _ => ∀ c file, s.clients h = some c → Inherits s c isAdoptableToken file → job.asks file = true
  | .finishBatch h => ∀ c file, s.clients h = some c → c.phase = .purging true [] [] →
      ¬ Inherits s c (fun _ => false) file
  -- A run that clears asks for all that it clears.
  | .startRecord h _ => ∀ c d file, s.clients h = some c → c.phase = .draining d → d.job.clearBeforeIngest = true →
      (s.db.hasRows file = true ∨ Inherits s c s.givesWay file) → d.job.asks file = true
  -- A run that has adopted what is owed is not refused.
  | .abort h => ∀ c d file, s.clients h = some c → c.phase = .draining d →
      (d.mutatedIndex || d.callerDeclaredIngest) = false → ¬ Inherits s c (fun _ => false) file
  -- Nobody writes the marker between a refusal's read and its write.
  | .writeBack h => ∀ c token read, s.clients h = some c → c.phase = .refusing token read →
      readInFlight env.rt s.db = read
  | _ => True

/-- No handle is open yet; what is owed, is owed under a token in the marker. -/
structure Start : Prop where
  clients : ∀ h, s.clients h = none
  owed : ∀ file debt, s.owed file = some debt → ∃ token ∈ s.db.tokens env.rt, debt = some token
  future : ∀ token ∈ s.db.tokens env.rt, ∀ pid n, s.issued ≤ n → token ≠ mintToken pid (env.stamp n)

end Purpose

end Hayven.Graph.SharedIndex
