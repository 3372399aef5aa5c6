import Hayven.Cli.IngestRuns
import Hayven.Db.IngestDirty
import Hayven.Lib.Runs
/-!
# The main index and its dirty record over time

A checkout that changes as it likes, a worktree registry that comes and goes, and the
ingests of the main index one step at a time: files are read, then HEAD, then git's
status, with changes anywhere between. An ingest's rows and its record are seen when it
ends. The project is the top level of its repository, since a registry is only written
there.
-/
open Hayven.Lib Hayven.Db

namespace Hayven.Cli

section History
variable {Content : Type} [DecidableEq Content]

/-! ## The checkout -/

/-- The files, the commit that HEAD names (no file before the first) and the paths that git tracks. -/
structure Checkout (Content : Type) where
  work : Tree Content
  head : Tree Content
  tracked : List JsString

/-- The verdict of the ignore files of a tree. -/
abbrev Ignores (Content : Type) := Tree Content → JsString → Bool

variable (accepts : Accepts Content) (ignores : Ignores Content)

def Checkout.workTree (g : Checkout Content) : WorkTree Content := ⟨g.work, g.head, g.tracked, ignores g.work⟩

/-- What a full parse of a tree reads for a path. -/
def sourceOf (tree : Tree Content) (path : JsString) : Option Content :=
  (tree.get path).filter fun c => (fromPath path).isSome && accepts path c && !ignores tree path

/-- git lists every path whose file is not as in HEAD's commit, but for the ignored ones
that it does not know. It may list others: what is only staged, the source of a copy. -/
def Checkout.dirty (g : Checkout Content) (path : JsString) : Bool :=
  g.work.get path ≠ g.head.get path && (g.head.has path || g.tracked.contains path || !ignores g.work path)

def Checkout.dirtyPaths (g : Checkout Content) : List JsString :=
  (g.work.keys ++ g.head.keys).filter (g.dirty ignores)

/-! ## Ingests -/

inductive IngestCommand where
  /-- A rebuild of the whole graph. -/
  | full
  /-- `hayven ingest`: what git reports since the recorded commit, or a rebuild if that cannot be had. -/
  | refresh
  /-- A batch of the daemon's watcher. -/
  | batch (changed deleted : List JsString)
  /-- `hayven ingest <path>`, for the files below it; with `--full` it clears the whole graph first. -/
  | below (full : Bool) (files : List JsString)

/-- An ingest under way: the files whose rows it removes (`none` for the whole graph), the
files it has to read (if it is to read the whole tree it may read others, too), those it
has read, their rows, the answer of `readGitHead` and the next dirty record. -/
structure IngestRun (Content : Type) where
  purged : Option (List JsString)
  due : List JsString
  whole : Bool := false
  seen : List JsString := []
  rows : List (JsString × Content) := []
  head : Option (Option (Tree Content)) := none
  record : Option (Option IngestDirty) := none

/-- `opts.fullRebuild`. -/
def IngestRun.fullRebuild (run : IngestRun Content) : Bool := run.purged.isNone

structure MainIndex (Content : Type) where
  git : Checkout Content
  registry : Bool
  index : Index Content
  /-- The stat `last_ingest_dirty`. -/
  dirty : Option JsString
  run : Option (IngestRun Content)

inductive IndexAct (Content : Type) where
  /-- An edit, a commit, a stash, a checkout. -/
  | change (git : Checkout Content)
  /-- `worktrees.json` is there from now on, or not. -/
  | registry (present : Bool)
  /-- A batch of the watcher in which files are only deleted: their rows go, and nothing is ingested. -/
  | deleteBatch (files : List JsString)
  | begin (command : IngestCommand)
  | read (path : JsString)
  /-- `readGitHead`, which may fail. -/
  | head (answered : Bool)
  /-- `nextIngestDirty`; git's answer is `none` if it fails or takes too long. -/
  | record (answer : Option (List StatusEntry))
  /-- The success transaction. -/
  | finish

namespace MainIndex

def start (git : Checkout Content) : MainIndex Content := ⟨git, false, ⟨[], none⟩, none, none⟩

/-- The commit that the index recorded. -/
def recorded (ix : Index Content) : Tree Content := ix.head.getD .empty

def workTree (s : MainIndex Content) : WorkTree Content := s.git.workTree ignores

def rebuild (s : MainIndex Content) : IngestRun Content where
  purged := none
  due := (discover [] accepts (s.workTree ignores)).map Prod.fst
  whole := true

def plan (s : MainIndex Content) : IngestCommand → Option (IngestRun Content)
  | .full => some (s.rebuild accepts ignores)
  | .refresh =>
    match incrementalFrom [] false (s.workTree ignores) s.index with
    | none => some (s.rebuild accepts ignores)
    | some fromRef =>
      let changed := changedFiles [] (s.workTree ignores) fromRef
      some { purged := some (deletedFiles (s.workTree ignores) fromRef ++ changed), due := filesStdin changed }
  | .batch changed deleted =>
    if changed.isEmpty then none else some { purged := some (deleted ++ changed), due := filesStdin changed }
  | .below full files => some { purged := if full then none else some [], due := files }

def begin (s : MainIndex Content) (command : IngestCommand) : Option (MainIndex Content) :=
  if s.run.isSome then none else (s.plan accepts ignores command).map fun run => { s with run := some run }

def read (s : MainIndex Content) (path : JsString) : Option (MainIndex Content) :=
  s.run.bind fun run =>
    if run.head.isNone && !run.seen.contains path && (run.whole || run.due.contains path) then
      some { s with run := some { run with
        seen := path :: run.seen
        rows := run.rows ++ ((visible [] accepts (s.workTree ignores) path).toList.map fun c => (path, c)) } }
    else none

/-- The parse is over once the files that were due are read. -/
def readHead (s : MainIndex Content) (answered : Bool) : Option (MainIndex Content) :=
  s.run.bind fun run =>
    if run.head.isNone && run.due.all run.seen.contains then
      some { s with run := some { run with head := some (if answered then some s.git.head else none) } }
    else none

/-- git's answer names every path that is not as in HEAD. -/
def answerCovers (s : MainIndex Content) (answer : Option (List StatusEntry)) : Bool :=
  answer.all fun entries => (s.git.dirtyPaths ignores).all fun p => entries.any fun e => p = e.path || e.orig = some p

def nextRecord (s : MainIndex Content) (run : IngestRun Content) (answer : Option (List StatusEntry)) :
    Option IngestDirty :=
  nextIngestDirty s.registry s.dirty run.fullRebuild (answer.map fun entries => gitStatus (porcelain entries))

def takeRecord (s : MainIndex Content) (answer : Option (List StatusEntry)) : Option (MainIndex Content) :=
  s.run.bind fun run =>
    if run.head.isSome && run.record.isNone && s.answerCovers ignores answer then
      some { s with run := some { run with record := some (s.nextRecord run answer) } }
    else none

/-- The index that an ingest leaves. -/
def written (ix : Index Content) (run : IngestRun Content) : Index Content where
  rows := (match run.purged with
    | none => []
    | some files => ix.rows.filter fun row => !files.contains row.1) ++ run.rows
  head := (run.head.getD none).orElse fun _ => ix.head

def finish (s : MainIndex Content) : Option (MainIndex Content) :=
  s.run.bind fun run => run.record.map fun record =>
    { s with index := written s.index run, dirty := writeIngestDirty record, run := none }

def deleteBatch (s : MainIndex Content) (files : List JsString) : Option (MainIndex Content) :=
  if s.run.isSome then none
  else some { s with index := { s.index with rows := s.index.rows.filter fun row => !files.contains row.1 } }

def step (s : MainIndex Content) : IndexAct Content → Option (MainIndex Content)
  | .change git => some { s with git := git }
  | .registry present => some { s with registry := present }
  | .deleteBatch files => s.deleteBatch files
  | .begin command => s.begin accepts ignores command
  | .read path => s.read accepts ignores path
  | .head answered => s.readHead answered
  | .record answer => s.takeRecord ignores answer
  | .finish => s.finish

end MainIndex

end History

end Hayven.Cli
