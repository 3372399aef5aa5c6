import Mathlib.Data.List.Dedup
import Hayven.Graph.IdScheme
import Hayven.Lib.KeyedMap
/-!
# `hayven ingest`

The run of `cli/ingest.ts` over one index: the change set of `db/branch_index.ts`, the
source filter of `db/freshness.ts`, and the file list that the native parser takes
(`native/src/main.rs`, `native/src/parse/mod.rs`). git is what it documents itself to
be. The rows of a file are the content they were parsed from, so one file may hold the
rows of several contents. A branch's own index starts as a copy of another, so one
index seen through its copies is a history like any other.
-/
open Hayven.Lib Hayven.Native Hayven.Graph

namespace Hayven.Cli

/-! ## Source files -/

def asciiLower (u : UInt16) : UInt16 := if 0x41 ≤ u && u ≤ 0x5A then u + 0x20 else u

/-- Lower case. No letter outside ASCII has the lower case of one in an extension below. -/
def toLowerCase (s : JsString) : JsString := s.map asciiLower

def sourceExtensions : List JsString :=
  [ascii ".ts", ascii ".mts", ascii ".cts", ascii ".tsx", ascii ".js", ascii ".jsx", ascii ".mjs", ascii ".cjs",
    ascii ".py", ascii ".rs", ascii ".go", ascii ".astro"]

/-- `isSourcePath`: the path's last dot comes after its last slash and starts a source extension. -/
def isSourcePath (path : JsString) : Bool :=
  match lastIndexOf dot path with
  | none => false
  | some d =>
    ((lastIndexOf slash path).all fun s => s < d) && sourceExtensions.contains (toLowerCase (path.drop d))

/-- `Path::file_name`: what follows the last slash. -/
def fileName (path : JsString) : JsString := (path.reverse.takeWhile (· ≠ slash)).reverse

/-- `Language::from_path`. -/
def fromPath (path : JsString) : Option Language :=
  (extension (fileName path)).bind fun ext => Language.fromExtension (toLowerCase ext)

/-! ## The work tree -/

section Ingest
variable {Content : Type} [DecidableEq Content]

/-- The files of a commit, or of a work tree, under their paths from the top level. -/
abbrev Tree (Content : Type) := KeyedMap JsString Content

/-- A git work tree: the files on disk, the commit that HEAD names, the paths that git
tracks and the verdict of its ignore rules. -/
structure WorkTree (Content : Type) where
  work : Tree Content
  head : Tree Content
  tracked : List JsString
  ignored : JsString → Bool

structure BranchDiff where
  changed : List JsString
  deleted : List JsString

/-- `git diff --name-status --no-renames <commit>`, whose paths start at the top level
wherever it is run: what is tracked and not as in the commit, and what the commit has
and git no longer tracks or the disk no longer has. -/
def gitDiffSince (g : WorkTree Content) (fromRef : Tree Content) : BranchDiff where
  changed := g.tracked.filter fun p => (g.work.get p).isSome && g.work.get p ≠ fromRef.get p
  deleted := fromRef.keys.filter fun p => (g.work.get p).isNone || !g.tracked.contains p

/-- The part of a path below `root`, a directory with its slash, or nothing for the top level. -/
def relativeTo (root path : JsString) : Option JsString :=
  if root.isPrefixOf path then some (path.drop root.length) else none

/-- `git ls-files --others --exclude-standard`, whose paths start where it is run. -/
def gitUntracked (root : JsString) (g : WorkTree Content) : List JsString :=
  (g.work.keys.filter fun p => !g.tracked.contains p && !g.ignored p).filterMap (relativeTo root)

/-! ## The parser's files -/

/-- What the parser decides by itself: by language, hidden and pruned directories, size and encoding. -/
abbrev Accepts (Content : Type) := JsString → Content → Bool

/-- The content that a full parse of `root` reads for a path below it. -/
def visible (root : JsString) (accepts : Accepts Content) (g : WorkTree Content) (path : JsString) : Option Content :=
  (g.work.get (root ++ path)).filter fun c =>
    (fromPath path).isSome && accepts path c && !g.ignored (root ++ path)

/-- A walk of the whole root. -/
def discover (root : JsString) (accepts : Accepts Content) (g : WorkTree Content) : List (JsString × Content) :=
  (g.work.keys.filterMap (relativeTo root)).filterMap fun p => (visible root accepts g p).map fun c => (p, c)

/-- The list that reaches the parser: joined with newlines, cut at newlines, trimmed, blanks dropped. -/
def filesStdin (files : List JsString) : List JsString :=
  ((([0xA].intercalate files).splitOn 0xA).map (trimBy isRustSpace)).filter fun p => !p.isEmpty

/-- The files of an explicit list, each read if it is there and would be walked. -/
def explicitFiles (root : JsString) (accepts : Accepts Content) (g : WorkTree Content) (files : List JsString) :
    List (JsString × Content) :=
  (filesStdin files).filterMap fun p => (visible root accepts g p).map fun c => (p, c)

/-! ## The run -/

/-- The rows of the index, and the commit it recorded. -/
structure Index (Content : Type) where
  rows : List (JsString × Content)
  head : Option (Tree Content)

def incrementalFileCap : Nat := 2000

/-- The files that the run re-parses. -/
def changedFiles (root : JsString) (g : WorkTree Content) (fromRef : Tree Content) : List JsString :=
  (((gitDiffSince g fromRef).changed ++ gitUntracked root g).dedup).filter isSourcePath

def deletedFiles (g : WorkTree Content) (fromRef : Tree Content) : List JsString :=
  (gitDiffSince g fromRef).deleted.filter isSourcePath

/-- The commit to diff against, if the run is incremental. `full` stands for `--full`,
and for an index or a git that cannot be relied on. -/
def incrementalFrom (root : JsString) (full : Bool) (g : WorkTree Content) (ix : Index Content) :
    Option (Tree Content) :=
  ix.head.filter fun fromRef =>
    !full && !ix.rows.isEmpty &&
      (changedFiles root g fromRef).length + (deletedFiles g fromRef).length ≤ incrementalFileCap

/-- The rows after the purge of the touched files and the parse of the changed ones. -/
def incrementalRows (root : JsString) (accepts : Accepts Content) (g : WorkTree Content) (fromRef : Tree Content)
    (rows : List (JsString × Content)) : List (JsString × Content) :=
  let changed := changedFiles root g fromRef
  let purged := rows.filter fun row => !(deletedFiles g fromRef ++ changed).contains row.1
  if changed.isEmpty then purged else purged ++ explicitFiles root accepts g changed

/-- One run that ends well. HEAD is read when the rows are written; `none` if that fails. -/
def runIngest (root : JsString) (accepts : Accepts Content) (full : Bool) (g : WorkTree Content)
    (headAtEnd : Option (Tree Content)) (ix : Index Content) : Index Content where
  rows := match incrementalFrom root full g ix with
    | some fromRef => incrementalRows root accepts g fromRef ix.rows
    | none => discover root accepts g
  head := headAtEnd.orElse fun _ => ix.head

end Ingest

end Hayven.Cli
