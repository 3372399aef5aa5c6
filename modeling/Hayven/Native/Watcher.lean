import Hayven.Lib.JsNumber
import Hayven.Lib.KeyedMap
import Hayven.Lib.Bytes
/-!
# The watch supervisor

`native/watcher.ts`: the pending buffer, the debounce timer and the two handlers, from
the records of the watcher child, and how the daemon's `onBatch` (`cli/daemon.ts`)
classifies a batch. Timers and handlers end whenever they do, so what only sets a delay
is left out, and so are the counters. A supervisor that was stopped is not modelled.
-/
open Hayven.Lib

namespace Hayven.Native

inductive ChangeKind where
  | create | modify | delete | rename
deriving DecidableEq, Repr

/-- A change record, and the event it becomes. -/
structure WatchEvent where
  file : JsString
  kind : ChangeKind
  fromPath : Option JsString
deriving DecidableEq

structure OverflowInfo where
  dropped : Int
  sinceMs : Int
deriving DecidableEq

/-! ## Classifying a batch -/

structure Classified where
  changed : List JsString
  deleted : List JsString
deriving DecidableEq

/-- `if (e.from) deleted.add(e.from)`. -/
def addSource (deleted : List JsString) : Option JsString → List JsString
  | some p => if p = [] then deleted else addNew deleted p
  | none => deleted

def classifyEvent (c : Classified) (e : WatchEvent) : Classified :=
  match e.kind with
  | .delete => { c with deleted := addNew c.deleted e.file }
  | .rename => ⟨addNew c.changed e.file, addSource c.deleted e.fromPath⟩
  | .create | .modify => { c with changed := addNew c.changed e.file }

/-- Changed wins over a stale delete. -/
def classify (events : List WatchEvent) : Classified :=
  let c := events.foldl classifyEvent ⟨[], []⟩
  { c with deleted := c.deleted.filter (· ∉ c.changed) }

/-! ## What is told of a run -/

/-- What a record or a call did, with the files on disk when a batch was handed over. -/
inductive Happening where
  | record (e : WatchEvent)
  | onBatch (events : List WatchEvent) (onDisk : JsString → Bool)
  | onOverflow (info : OverflowInfo)

structure Watch where
  pending : KeyedMap JsString WatchEvent
  debounceTimer : Bool
  batchInFlight : Bool
  overflowInFlight : Bool
  overflowPending : Option OverflowInfo
  /-- Calls of `onBatch` that have not settled. -/
  batches : Nat
  /-- Calls of `onOverflow` that have not settled. -/
  overflows : Nat
  onDisk : JsString → Bool
  /-- The latest first. -/
  log : List Happening

namespace Watch

def start (onDisk : JsString → Bool) : Watch := ⟨.empty, false, false, false, none, 0, 0, onDisk, []⟩

def scheduleFlush (w : Watch) : Watch := { w with debounceTimer := true }

def rearmIfPending (w : Watch) : Watch :=
  if !w.pending.entries.isEmpty && !w.debounceTimer then w.scheduleFlush else w

/-- The call of `onBatch`. -/
def callBatch (w : Watch) : Watch :=
  { w with
    pending := .empty
    batchInFlight := true
    batches := w.batches + 1
    log := .onBatch w.pending.values w.onDisk :: w.log }

def flush (w : Watch) : Watch :=
  let w := { w with debounceTimer := false }
  if w.batchInFlight || w.overflowInFlight then w
  else if w.pending.entries.isEmpty then w
  else w.callBatch

/-- The call of `onOverflow`. -/
def callOverflow (w : Watch) (info : OverflowInfo) : Watch :=
  { w with overflowPending := none, overflows := w.overflows + 1, log := .onOverflow info :: w.log }

def runOverflow (w : Watch) (info : OverflowInfo) : Watch := { w with overflowInFlight := true }.callOverflow info

def clearPending (w : Watch) : Watch := { w with pending := .empty, debounceTimer := false }

/-- Queue the rescan behind the one that runs, or run it. -/
def overflowed (w : Watch) (info : OverflowInfo) : Watch :=
  if w.overflowInFlight then { w with overflowPending := some info } else w.runOverflow info

/-- The handler of a batch settles. -/
def batchDone (w : Watch) : Watch := { w with batches := w.batches - 1, batchInFlight := false }.rearmIfPending

/-- The handler of a rescan settles: the one queued behind it runs. -/
def overflowDone (w : Watch) : Watch :=
  let w := { w with overflows := w.overflows - 1 }
  match w.overflowPending with
  | some info => w.callOverflow info
  | none => { w with overflowInFlight := false }.rearmIfPending

/-- `pending.size >= maxPendingEvents`. -/
def capReached (cap : JsNumber) (pending : KeyedMap JsString WatchEvent) : Bool :=
  JsNumber.le cap (pending.entries.length : Int)

/-- A change record; `now` dates the rescan that a full buffer asks for. -/
def change (cap : JsNumber) (w : Watch) (e : WatchEvent) (now : Int) : Watch :=
  let w := { w with pending := w.pending.set e.file e, log := .record e :: w.log }
  if capReached cap w.pending then w.clearPending.overflowed ⟨w.pending.entries.length, now⟩
  else if w.overflowInFlight then w
  else w.scheduleFlush

end Watch

inductive WatchAct where
  | change (e : WatchEvent) (now : Int)
  | overflow (info : OverflowInfo)
  | timer
  | batchSettles
  | overflowSettles
  /-- A path appears on disk, or disappears. -/
  | disk (p : JsString) (present : Bool)
deriving DecidableEq

def watchStep (cap : JsNumber) (w : Watch) : WatchAct → Option Watch
  | .change e now => some (w.change cap e now)
  | .overflow info => some (w.clearPending.overflowed info)
  | .timer => if w.debounceTimer then some w.flush else none
  | .batchSettles => if 0 < w.batches then some w.batchDone else none
  | .overflowSettles => if 0 < w.overflows then some w.overflowDone else none
  | .disk p present => some { w with onDisk := fun q => if q = p then present else w.onDisk q }

/-! ## What is owed to a path -/

/-- How a record names a path: as the file, or as the source of a rename. -/
inductive PathRole where
  | file | source
deriving DecidableEq

/-- The source of a rename; the empty string names no path. -/
def WatchEvent.source (e : WatchEvent) : Option JsString :=
  if e.kind = .rename then e.fromPath.filter (· ≠ []) else none

def WatchEvent.names (e : WatchEvent) : PathRole → JsString → Prop
  | .file, p => e.file = p
  | .source, p => e.source = some p

def WatchEvent.mentions (e : WatchEvent) (p : JsString) : Prop := e.file = p ∨ e.source = some p

/-- The call covers the path: a rescan covers all; a batch hands it over, and as a
delete if it is the source of a rename and no longer on disk. -/
def Happening.covers : Happening → PathRole → JsString → Prop
  | .record _, _, _ => False
  | .onOverflow _, _, _ => True
  | .onBatch events onDisk, role, p =>
    (∃ e ∈ events, e.mentions p) ∧ (role = .source → onDisk p = false → p ∈ (classify events).deleted)

/-- A record named the path and no later call covered it. -/
def Owed (log : List Happening) (role : PathRole) (p : JsString) : Prop :=
  ∃ later e earlier, log = later ++ .record e :: earlier ∧ e.names role p ∧ ∀ h ∈ later, ¬ h.covers role p

/-- Nothing is pending, no timer is armed and no handler runs. -/
def Watch.Quiet (w : Watch) : Prop :=
  w.pending.entries = [] ∧ w.debounceTimer = false ∧ w.batches = 0 ∧ w.overflows = 0

/-- A record that replaces a pending rename leaves its source named, where that is still
owed; a batch is handed over with no such source missing on disk and pending as changed. -/
def KeepsSources (cap : JsNumber) (w : Watch) : WatchAct → Prop
  | .change e _ => ∀ old p, w.pending.get e.file = some old → old.source = some p → Owed w.log .source p →
      (∃ e' ∈ (w.pending.set e.file e).values, e'.mentions p) ∨
        Watch.capReached cap (w.pending.set e.file e) = true ∨ w.overflowPending.isSome = true
  | .timer => w.batchInFlight = false → w.overflowInFlight = false →
      ∀ p, Owed w.log .source p → w.onDisk p = false → p ∉ (classify w.pending.values).changed
  | _ => True

end Hayven.Native
