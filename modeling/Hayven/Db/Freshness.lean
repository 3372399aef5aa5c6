import Hayven.Lib.Bytes
import Hayven.Lib.KeyedMap
import Hayven.Lib.Runs
import Hayven.Lib.Segments
import Mathlib.Logic.Function.Basic
/-!
# The staleness check of daemonless reads

`db/freshness.ts`: `evaluateStaleness` compares the newest modification time it probes
with the end of the last ingest, and asks git whether the source differs from the commit
that ingest recorded. The project around it is a working tree, a git repository and an
index, changed one write, one git command and one ingest step at a time.
-/
open Hayven.Lib

namespace Hayven.Db

/-! ## Source paths -/

/-- A path under the repository root, its last segment first. -/
abbrev TreePath := List JsString

def pathText (p : TreePath) : JsString := [0x2F].intercalate p.reverse

def SKIP_DIRS : List JsString :=
  [ascii ".hayven", ascii ".git", ascii "node_modules", ascii "dist", ascii "build", ascii ".next", ascii "coverage"]

def SOURCE_EXTENSIONS : List JsString :=
  [ascii ".ts", ascii ".mts", ascii ".cts", ascii ".tsx", ascii ".js", ascii ".jsx", ascii ".mjs", ascii ".cjs",
    ascii ".py", ascii ".rs", ascii ".go", ascii ".astro"]

/-- `toLowerCase` on ASCII letters; no other unit becomes a letter of an extension. -/
def lowerLetter (u : UInt16) : UInt16 := if 0x41 ≤ u && u ≤ 0x5A then u + 0x20 else u

def isSourcePath (path : JsString) : Bool :=
  match lastIndexOf 0x2E path with
  | none => false
  | some dot =>
    let afterSlash := match lastIndexOf 0x2F path with
      | none => true
      | some slash => slash < dot
    afterSlash && SOURCE_EXTENSIONS.contains ((path.drop dot).map lowerLetter)

/-! ## The project -/

structure StoredFile where
  content : JsString
  mtime : Nat
deriving DecidableEq

abbrev CommitTree := KeyedMap TreePath JsString

/-- An ingest that is under way: its scope, if it has one, when it began, what it has read
of each path and when, and the end time and the commit it took for its record. -/
structure IngestRun where
  scope : Option (List TreePath)
  began : Nat
  visited : TreePath → Option (Option JsString × Nat)
  stamp : Option Nat
  head : Option (Option JsString)

/-- The working tree, the repository and the index. `changedAt` is when a path was last
written or removed, `readAt` when the index last read it; no code looks at these two. -/
structure Project where
  clock : Nat
  files : KeyedMap TreePath StoredFile
  dirs : KeyedMap TreePath Nat
  tracked : CommitTree
  indexMtime : Nat
  headMtime : Nat
  head : Option JsString
  commits : KeyedMap JsString CommitTree
  indexed : TreePath → Option JsString
  lastIngestAt : Option Nat
  lastIngestGitHead : Option JsString
  ingest : Option IngestRun
  changedAt : TreePath → Nat
  readAt : TreePath → Option Nat

namespace Project

/-- What the working tree holds at a path. -/
def content (s : Project) (p : TreePath) : Option JsString := (s.files.get p).map StoredFile.content

/-- `statSync(p).mtimeMs`, if there is anything. -/
def mtime (s : Project) (p : TreePath) : Option Nat := (s.files.get p).map StoredFile.mtime <|> s.dirs.get p

/-- `readdirSync(repoRoot)`. -/
def topLevel (s : Project) : List JsString :=
  (s.files.keys ++ s.dirs.keys).filterMap fun p => match p with
    | [name] => some name
    | _ => none

/-- `git diff --name-only HEAD --`: the tracked files whose content differs from the commit. -/
def changedFrom (s : Project) (tree : CommitTree) : List TreePath :=
  (tree.keys ++ s.tracked.keys).filter fun p => s.content p ≠ tree.get p

/-! ## The probes -/

/-- The newest time seen so far, and whether one was past the threshold. -/
def probe (threshold : Option Nat) (seen : Nat × Bool) (mtime : Option Nat) : Nat × Bool :=
  match mtime with
  | none => seen
  | some m => (max seen.1 m, seen.2 || threshold.any fun t => m > t)

/-- `if (earlyExit) return newest`. -/
def unlessPast (seen : Nat × Bool) : Except Nat (Nat × Bool) := if seen.2 then .error seen.1 else .ok seen

/-- A loop of probes that returns at the first time past the threshold. -/
def probeEach (threshold : Option Nat) : Nat × Bool → List (Option Nat) → Except Nat (Nat × Bool)
  | seen, [] => .ok seen
  | seen, m :: rest => (unlessPast (probe threshold seen m)).bind fun seen => probeEach threshold seen rest

/-- `listSourceFiles` of a git repository: what `git ls-files` prints, up to the cap. -/
def listSourceFiles (s : Project) (cap : Nat) : List TreePath := s.tracked.keys.take cap

def probed (s : Project) (cap : Nat) (threshold : Option Nat) : Except Nat (Nat × Bool) :=
  let entries := (s.topLevel.filter fun name => ! SKIP_DIRS.contains name).map fun name => s.mtime [name]
  (probeEach threshold (probe threshold (0, false) (s.mtime [])) entries).bind fun seen =>
    (unlessPast (probe threshold (probe threshold seen (some s.indexMtime)) (some s.headMtime))).bind fun seen =>
      probeEach threshold seen ((s.listSourceFiles cap).map s.mtime)

/-- `newestSourceMtimeMs` of `defaultProbes`. -/
def newestSourceMtimeMs (s : Project) (cap : Nat) (sinceMs : Option Nat) : Nat :=
  match s.probed cap sinceMs with
  | .ok seen => seen.1
  | .error newest => newest

/-- `gitSourceContentUnchanged` of `defaultProbes`; git answers. -/
def gitSourceContentUnchanged (s : Project) (ingestedHead : JsString) : Bool :=
  ingestedHead ≠ [] && s.head = some ingestedHead &&
    match s.commits.get ingestedHead with
    | none => false
    | some tree => ! (s.changedFrom tree).any fun p => isSourcePath (pathText p)

/-! ## The check -/

inductive IntegrityReason where
  | emptyButClaimsContent
  | unreadable
  | ingestInterrupted
deriving DecidableEq

/-- What `checkIndexIntegrity` finds. -/
structure Integrity where
  reason : Option IntegrityReason
  detail : JsString

structure StalenessResult where
  stale : Bool
  message : JsString
  broken : Option IntegrityReason

def notStale : StalenessResult := ⟨false, [], none⟩

def emDash : JsString := [0x2014]

def evaluateStaleness (s : Project) (cap : Nat) (integrity : Integrity) (daemonRunning : Bool) : StalenessResult :=
  match integrity.reason with
  | some .emptyButClaimsContent =>
    ⟨true, ascii "WARNING: the index is BROKEN, not stale " ++ emDash ++ ascii " " ++ integrity.detail ++
      ascii ". Queries will return NO MATCHES until it is rebuilt; that is a tool " ++
      ascii "failure, not a fact about your code. Run `hayven ingest --full`.", integrity.reason⟩
  | some .unreadable =>
    ⟨true, ascii "WARNING: the index is UNREADABLE " ++ emDash ++ ascii " " ++ integrity.detail ++
      ascii ". This usually means a `hayven reindex` was interrupted before it could rebuild. " ++
      ascii "Run `hayven ingest --full` to recreate it.", integrity.reason⟩
  | reason =>
    if daemonRunning then notStale
    else if reason = some .ingestInterrupted then
      ⟨true, ascii "WARNING: the index may be INCOMPLETE " ++ emDash ++ ascii " " ++ integrity.detail ++
        ascii ", and no daemon is running to finish it. Nodes are written before edges and " ++
        ascii "call sites, so results may be silently partial. Run `hayven ingest --full` to rebuild.", reason⟩
    else
      match s.lastIngestAt with
      | none => notStale
      | some lastIngestMs =>
        if lastIngestMs = 0 then notStale
        else if s.newestSourceMtimeMs cap (some lastIngestMs) ≤ lastIngestMs then notStale
        else if s.lastIngestGitHead.any s.gitSourceContentUnchanged then notStale
        else
          ⟨true, ascii "note: index may be stale (source files changed since last ingest) " ++ emDash ++
            ascii " run `hayven ingest` or start the daemon (`hayven daemon start`)", none⟩

end Project

/-! ## What happens to a project -/

/-- Changes of the working tree, git commands, and the steps of an ingest. A checkout, a
reset or a stash writes and removes files, and moves HEAD. -/
inductive ProjectAct where
  | wait (ms : Nat)
  | write (p : TreePath) (content : JsString)
  | remove (p : TreePath)
  | mkdir (d : TreePath)
  | rmdir (d : TreePath)
  | stage (p : TreePath)
  | commit (id : JsString)
  | moveHead (id : JsString) (tracked : CommitTree)
  | ingestBegin (scope : Option (List TreePath))
  | ingestRead (p : TreePath)
  | ingestStamp
  | ingestHead
  | ingestEnd

/-- Create what is missing of a directory; its parent's time changes with it. -/
def makeDirs (now : Nat) (dirs : KeyedMap TreePath Nat) : TreePath → KeyedMap TreePath Nat
  | [] => dirs
  | name :: parent =>
    if dirs.has (name :: parent) then dirs
    else ((makeDirs now dirs parent).set parent now).set (name :: parent) now

namespace Project

/-- The clock at the next write. -/
def now (s : Project) : Nat := s.clock + 1

/-- Nothing on the way to a path is a file. -/
def reachable (s : Project) (d : TreePath) : Bool := d.tails.all fun e => (s.files.get e).isNone

def write (s : Project) (p : TreePath) (content : JsString) : Option Project :=
  match p with
  | [] => none
  | name :: d =>
    if s.dirs.has (name :: d) || ! s.reachable d then none
    else
      let dirs := makeDirs s.now s.dirs d
      some { s with
        clock := s.now
        files := s.files.set (name :: d) ⟨content, s.now⟩
        dirs := if s.files.has (name :: d) then dirs else dirs.set d s.now
        changedAt := Function.update s.changedAt (name :: d) s.now }

def remove (s : Project) (p : TreePath) : Option Project :=
  match p with
  | [] => none
  | name :: d =>
    if s.files.has (name :: d) && s.dirs.has d then
      some { s with
        clock := s.now
        files := s.files.erase (name :: d)
        dirs := s.dirs.set d s.now
        changedAt := Function.update s.changedAt (name :: d) s.now }
    else none

def mkdir (s : Project) (d : TreePath) : Option Project :=
  if s.reachable d then some { s with clock := s.now, dirs := makeDirs s.now s.dirs d } else none

/-- Only an empty directory is removed. -/
def rmdir (s : Project) (d : TreePath) : Option Project :=
  match d with
  | [] => none
  | name :: parent =>
    if s.dirs.has (name :: parent) && s.dirs.has parent &&
        (s.files.keys ++ s.dirs.keys).all fun p => p = name :: parent || ! (name :: parent).isSuffixOf p then
      some { s with clock := s.now, dirs := (s.dirs.erase (name :: parent)).set parent s.now }
    else none

def stage (s : Project) (p : TreePath) : Project :=
  { s with
    clock := s.now
    indexMtime := s.now
    tracked := match s.content p with
      | some content => s.tracked.set p content
      | none => s.tracked.erase p }

/-- A commit's id is new. -/
def commit (s : Project) (id : JsString) : Option Project :=
  if s.commits.has id then none
  else some { s with clock := s.now, indexMtime := s.now, head := some id, commits := s.commits.set id s.tracked }

def moveHead (s : Project) (id : JsString) (tracked : CommitTree) : Option Project :=
  if s.commits.has id then
    some { s with clock := s.now, indexMtime := s.now, headMtime := s.now, head := some id, tracked := tracked }
  else none

variable (accepts : TreePath → Bool)

/-- A file that the ingest indexes: a source path that the filters of the walk let through. -/
def isSource (p : TreePath) : Bool := isSourcePath (pathText p) && accepts p

/-- The ingest has read all it is to read: the files of its scope, or all that are there
and have not changed since it began. -/
def readAll (s : Project) (run : IngestRun) : Bool :=
  match run.scope with
  | some scope => scope.all fun p => ! isSource accepts p || (run.visited p).isSome
  | none => s.files.keys.all fun p => ! isSource accepts p || (run.visited p).isSome || run.began < s.changedAt p

def ingestBegin (s : Project) (scope : Option (List TreePath)) : Option Project :=
  match s.ingest with
  | some _ => none
  | none => some { s with ingest := some ⟨scope, s.clock, fun _ => none, none, none⟩ }

def ingestRead (s : Project) (p : TreePath) : Option Project :=
  match s.ingest with
  | some run =>
    if run.stamp.isNone && isSource accepts p && run.scope.all fun scope => scope.contains p then
      some { s with ingest := some { run with visited := Function.update run.visited p (some (s.content p, s.clock)) } }
    else none
  | none => none

/-- `const finishedAt = Date.now()`. -/
def ingestStamp (s : Project) : Option Project :=
  match s.ingest with
  | some run =>
    if run.stamp.isNone && s.readAll accepts run then some { s with ingest := some { run with stamp := some s.clock } }
    else none
  | none => none

/-- `const gitHead = readGitHead(…)`. -/
def ingestHead (s : Project) : Option Project :=
  match s.ingest with
  | some run =>
    if run.stamp.isSome && run.head.isNone then some { s with ingest := some { run with head := some s.head } } else none
  | none => none

/-- What the index holds of a path after the ingest. -/
def IngestRun.result (run : IngestRun) (before : TreePath → Option JsString) (p : TreePath) : Option JsString :=
  match run.visited p with
  | some (content, _) => content
  | none => if run.scope.isNone then none else before p

def IngestRun.readTime (run : IngestRun) (before : TreePath → Option Nat) (p : TreePath) : Option Nat :=
  match run.visited p with
  | some (_, time) => some time
  | none => if run.scope.isNone then some run.began else before p

/-- The success transaction. -/
def ingestEnd (s : Project) : Option Project :=
  match s.ingest with
  | some run =>
    match run.stamp, run.head with
    | some finishedAt, some gitHead => some { s with
        indexed := IngestRun.result run s.indexed
        readAt := IngestRun.readTime run s.readAt
        lastIngestAt := some finishedAt
        lastIngestGitHead := gitHead <|> s.lastIngestGitHead
        ingest := none }
    | _, _ => none
  | none => none

def step (s : Project) : ProjectAct → Option Project
  | .wait ms => some { s with clock := s.clock + ms }
  | .write p content => s.write p content
  | .remove p => s.remove p
  | .mkdir d => s.mkdir d
  | .rmdir d => s.rmdir d
  | .stage p => some (s.stage p)
  | .commit id => s.commit id
  | .moveHead id tracked => s.moveHead id tracked
  | .ingestBegin scope => s.ingestBegin scope
  | .ingestRead p => s.ingestRead accepts p
  | .ingestStamp => s.ingestStamp accepts
  | .ingestHead => s.ingestHead
  | .ingestEnd => s.ingestEnd

end Project

/-- An empty directory with a new repository, not indexed. -/
def newProject (now : Nat) : Project where
  clock := now
  files := .empty
  dirs := KeyedMap.empty.set [] now
  tracked := .empty
  indexMtime := now
  headMtime := now
  head := none
  commits := .empty
  indexed := fun _ => none
  lastIngestAt := none
  lastIngestGitHead := none
  ingest := none
  changedAt := fun _ => 0
  readAt := fun _ => none

end Hayven.Db
