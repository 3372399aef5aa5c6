import Hayven.Lib.Json
import Hayven.Lib.KeyedMap
import Mathlib.Logic.Function.Basic
/-!
# The worktree registry

`worktree/registry.ts` and the `add` and `remove` commands of `cli/worktree.ts`: which
linked worktrees have an overlay index, and the pruning of those that are gone. A registry
mutation is one step, taken under its lock; everything else a command does to the file
system is a step of its own. What git says, whether a file can be read and whether a write
goes through is the answer of the system to a step.
-/
open Hayven.Lib

namespace Hayven.Worktree

structure WorktreeEntry where
  path : JsString
  id : JsString
  createdAt : JsString
  seedHead : Option JsString
deriving DecidableEq

/-- The registry file: its text is what `JSON.parse` makes of it, or the message it throws. -/
inductive RegistryFile where
  | absent
  | text (parsed : Except JsString Json)

/-- The file system under `.hayven/`: the registry and the names in `worktrees/`. -/
structure Overlays where
  registry : RegistryFile
  dirs : List JsString

structure WorktreeRegistryCorrupt where
  detail : JsString

inductive WorktreeVerdict where
  | ok (path : JsString)
  | invalid (reason : JsString)
  | unknown (reason : JsString)

/-- What the system answers to a step. -/
structure Answer where
  /-- The file or directory read, if it is there, can be read. -/
  readable : Bool
  /-- `classifyWorktree`. -/
  verdict : WorktreeVerdict
  /-- The write, the creation or the deletion goes through. -/
  done : Bool

/-! ## Reading and writing -/

def stringField (key : String) (e : Json) : Option JsString :=
  match e.field key with
  | some (.str s) => some s
  | _ => none

def parseEntry (e : Json) : Option WorktreeEntry :=
  match stringField "path" e, stringField "id" e with
  | some path, some id => some
      { path, id, createdAt := (stringField "created_at" e).getD [], seedHead := stringField "seed_head" e }
  | _, _ => none

def parseEntries : Except JsString Json → Except WorktreeRegistryCorrupt (List WorktreeEntry)
  | .error message => .error ⟨message⟩
  | .ok parsed =>
    match parsed.field "worktrees" with
    | some (.arr list) => .ok (list.filterMap parseEntry)
    | _ => .error ⟨ascii "no `worktrees` array"⟩

/-- A file that cannot be read counts as absent. -/
def readWorktreeRegistryStrict (file : RegistryFile) (readable : Bool) :
    Except WorktreeRegistryCorrupt (List WorktreeEntry) :=
  match file with
  | .absent => .ok []
  | .text parsed => if readable then parseEntries parsed else .ok []

def readWorktreeRegistry (file : RegistryFile) (readable : Bool) : List WorktreeEntry :=
  match readWorktreeRegistryStrict file readable with
  | .ok entries => entries
  | .error _ => []

def entryJson (e : WorktreeEntry) : Json :=
  .obj [(ascii "path", .str e.path), (ascii "id", .str e.id), (ascii "created_at", .str e.createdAt),
    (ascii "seed_head", (e.seedHead.map Json.str).getD .null)]

def registryJson (entries : List WorktreeEntry) : Json :=
  .obj [(ascii "version", .num (.fin 1)), (ascii "worktrees", .arr (entries.map entryJson))]

/-- Read, modify and publish; nothing is written if the read or `fn` throws or the write fails. -/
def mutateWorktreeRegistry {α : Type} (file : RegistryFile) (ans : Answer)
    (fn : List WorktreeEntry → Option (List WorktreeEntry × α)) : Option (RegistryFile × α) :=
  match readWorktreeRegistryStrict file ans.readable with
  | .error _ => none
  | .ok entries => (fn entries).bind fun r => if ans.done then some (.text (.ok (registryJson r.1)), r.2) else none

/-! ## Overlay directories -/

def isLowerHex (u : UInt16) : Bool := isDigit u || (0x61 ≤ u && u ≤ 0x66)

/-- `/^[0-9a-f]{12}$/`. -/
def isOverlayId (id : JsString) : Bool := id.length = 12 && id.all isLowerHex

def removeOverlayFiles (dirs : List JsString) (id : JsString) : List JsString :=
  if isOverlayId id then dirs.filter (· ≠ id) else dirs

/-! ## Pruning -/

structure PruneResult where
  removed : List (WorktreeEntry × JsString)
  orphanDirs : List JsString

/-- Where a run of `pruneWorktreeOverlays` stands. -/
inductive PrunePhase where
  | idle
  /-- Entries git has not been asked about, and the reasons by id. -/
  | judging (todo : List WorktreeEntry) (verdicts : KeyedMap JsString JsString)
  | deleting (todo : List WorktreeEntry) (removed : List (WorktreeEntry × JsString))
  /-- Before the lenient read. -/
  | scanning (removed : List (WorktreeEntry × JsString))
  | listing (removed : List (WorktreeEntry × JsString)) (live : List JsString)
  | sweeping (removed : List (WorktreeEntry × JsString)) (live todo orphanDirs : List JsString)
  | finished (result : PruneResult)
  | thrown

/-- Positive evidence against an entry, with the reason it is dropped for. -/
def judge (e : WorktreeEntry) : WorktreeVerdict → Option JsString
  | .invalid reason => some reason
  | .ok path => if path ≠ e.path then some (e.path ++ ascii " now resolves to " ++ path) else none
  | .unknown _ => none

def noteVerdict (verdicts : KeyedMap JsString JsString) (e : WorktreeEntry) (v : WorktreeVerdict) :
    KeyedMap JsString JsString :=
  match judge e v with
  | some reason => verdicts.set e.id reason
  | none => verdicts

/-- Drop the rows whose id has a verdict. -/
def dropJudged (verdicts : KeyedMap JsString JsString) (entries : List WorktreeEntry) :
    List WorktreeEntry × List (WorktreeEntry × JsString) :=
  (entries.filter fun e => ! verdicts.has e.id,
    (entries.filter fun e => verdicts.has e.id).map fun e => (e, (verdicts.get e.id).getD []))

/-- The next step of `pruneWorktreeOverlays`. -/
def pruneStep (fs : Overlays) (ans : Answer) : PrunePhase → Overlays × PrunePhase
  | .judging (e :: todo) verdicts => (fs, .judging todo (noteVerdict verdicts e ans.verdict))
  | .judging [] verdicts =>
    if verdicts.keys.isEmpty then (fs, .scanning [])
    else
      match mutateWorktreeRegistry fs.registry ans fun entries => some (dropJudged verdicts entries) with
      | none => (fs, .thrown)
      | some (registry, removed) => ({ fs with registry }, .deleting (removed.map Prod.fst) removed)
  | .deleting (e :: todo) removed =>
    if ans.done then ({ fs with dirs := removeOverlayFiles fs.dirs e.id }, .deleting todo removed) else (fs, .thrown)
  | .deleting [] removed => (fs, .scanning removed)
  | .scanning removed => (fs, .listing removed ((readWorktreeRegistry fs.registry ans.readable).map WorktreeEntry.id))
  | .listing removed live => (fs, .sweeping removed live (if ans.readable then fs.dirs else []) [])
  | .sweeping removed live (d :: todo) orphanDirs =>
    if d ∈ live || ! isOverlayId d then (fs, .sweeping removed live todo orphanDirs)
    else if ans.done then
      ({ fs with dirs := removeOverlayFiles fs.dirs d }, .sweeping removed live todo (orphanDirs ++ [d]))
    else (fs, .thrown)
  | .sweeping removed _ [] orphanDirs => (fs, .finished ⟨removed, orphanDirs⟩)
  | phase => (fs, phase)

/-! ## Registering and removing -/

def maxWorktreeOverlays : Nat := 16

/-- Register a validated path; `none` is the refusal over the cap. -/
def register (entry : WorktreeEntry) (entries : List WorktreeEntry) :
    Option (List WorktreeEntry × WorktreeEntry × Bool) :=
  match entries.find? fun e => e.path = entry.path with
  | some existing => some (entries, existing, false)
  | none => if entries.length ≥ maxWorktreeOverlays then none else some (entries ++ [entry], entry, true)

/-- Drop the row of a path or an id. -/
def unregister (target raw : JsString) (entries : List WorktreeEntry) :
    List WorktreeEntry × Option WorktreeEntry :=
  match entries.find? fun e => e.path = target || e.id = raw with
  | some hit => (entries.erase hit, some hit)
  | none => (entries, none)

/-- Where an `add` or a `remove` stands after its registry mutation. -/
inductive CommandPhase where
  | idle
  /-- The overlay's directory is about to be made. -/
  | building (entry : WorktreeEntry) (added : Bool)
  | ingesting (entry : WorktreeEntry) (added : Bool)
  /-- The build of a new registration failed: the row goes again. -/
  | withdrawing (entry : WorktreeEntry)
  | deleting (id : JsString)

/-- The next step of an `add` or a `remove`. -/
def commandStep (fs : Overlays) (ans : Answer) : CommandPhase → Overlays × CommandPhase
  | .idle => (fs, .idle)
  | .building entry added =>
    if ans.done then ({ fs with dirs := if entry.id ∈ fs.dirs then fs.dirs else fs.dirs ++ [entry.id] },
      .ingesting entry added)
    else (fs, if added then .withdrawing entry else .idle)
  | .ingesting entry added => (fs, if ans.done || ! added then .idle else .withdrawing entry)
  | .withdrawing entry =>
    match mutateWorktreeRegistry fs.registry ans fun entries =>
        some (entries.filter fun e => e.id ≠ entry.id, ()) with
    | none => (fs, .idle)
    | some (registry, _) => ({ fs with registry }, .deleting entry.id)
  | .deleting id => (if ans.done then { fs with dirs := removeOverlayFiles fs.dirs id } else fs, .idle)

end Hayven.Worktree
