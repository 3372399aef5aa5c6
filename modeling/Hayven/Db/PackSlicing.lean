import Hayven.Db.GraphWalk
import Hayven.Db.PackGate
import Hayven.Lib.Lines
/-!
# Slices of files

`db/pack_slicing.ts`: the module skeleton of a file, which is what its entities leave of it,
the reader behind the path gate, and the body of a node. Of the tables only what the packer
reads.
-/
open Hayven.Lib Hayven.Native Hayven.Graph

namespace Hayven.Db.Pack

/-! ## What the packer reads -/

/-- A row of `nodes` besides its id. -/
structure NodeCells where
  name : JsString
  kind : JsString
  file : Option JsString
  rangeStart : Int
  rangeEnd : Int

structure NodeRow extends NodeCells where
  id : JsString

structure WeightedEdge extends EdgeRow where
  weight : Nat

structure PackDb where
  nodes : KeyedMap JsString NodeCells
  edges : List WeightedEdge
  searchFts : JsString → Option JsString

namespace PackDb

def getNode (db : PackDb) (id : JsString) : Option NodeRow := (db.nodes.get id).map fun cells => ⟨cells, id⟩

def outgoing (db : PackDb) (id : JsString) : List WeightedEdge := db.edges.filter (·.src = id)

def incoming (db : PackDb) (id : JsString) : List WeightedEdge := db.edges.filter (·.dst = id)

/-- `SELECT … FROM nodes WHERE file = ?`. -/
def nodesIn (db : PackDb) (file : JsString) : List NodeRow :=
  (db.nodes.entries.filter fun row => row.2.file = some file).map fun row => ⟨row.2, row.1⟩

/-- The rows that resolving a symbol looks at. -/
def graph (db : PackDb) : GraphRows where
  nodes := ⟨db.nodes.entries.map fun row => (row.1, row.2.file), by
    simpa [List.map_map, Function.comp_def] using db.nodes.nodup⟩
  edges := db.edges.map WeightedEdge.toEdgeRow
  searchFts := db.searchFts

end PackDb

/-- The host with its files: what `statSync` says of a path (a regular file or not, and its
size) and what `readFileSync` returns; none where they throw. -/
structure Files extends Host where
  stat : JsString → Option (Bool × Nat)
  readText : JsString → Option JsString

def MAX_PACK_FILE_BYTES : Nat := 8 * 1024 * 1024

def isPackableFile (h : Files) (abs : JsString) : Bool :=
  (h.stat abs).any fun st => st.1 && st.2 ≤ MAX_PACK_FILE_BYTES

def resolveWithinRepo (h : Files) (repoRoot file : JsString) : Option JsString :=
  (resolveRepoPath h.toHost repoRoot file).map (·.abs)

/-- The reader of `makeFileReader`. It keeps what it read, and the files do not change under it. -/
def readLines (h : Files) (repoRoot file : JsString) : Option (List JsString) :=
  ((resolveWithinRepo h repoRoot file).filter (isPackableFile h)).bind fun abs =>
    (h.readText abs).map (·.splitOn lineFeed)

/-- A file that is there: neither `null` nor empty. -/
def named (file : Option JsString) : Option JsString := file.filter (· ≠ [])

/-! ## The module skeleton -/

structure Segment where
  start : Nat
  lines : List JsString

def Segment.end (s : Segment) : Nat := s.start + s.lines.length - 1

def Segment.text (s : Segment) : JsString := joinLines s.lines

def DECORATIONS : List JsString := ["//", "#[", "#!", "#", "@", "/*", "*/", "*", "///", "//!"].map ascii

def isLeadingDecoration (line : JsString) : Bool :=
  let t := trim line
  t = [] || DECORATIONS.any (·.isPrefixOf t)

/-- Lines, counted from one, that some entity covers. -/
abbrev Covered := Nat → Bool

/-- The first line of the decoration above a line. -/
def withLeadingDecoration (lines : List JsString) (covered : Covered) : Nat → Nat
  | 0 => 0
  | 1 => 1
  | s + 2 =>
    if !covered (s + 1) && isLeadingDecoration (lines.getD s []) then withLeadingDecoration lines covered (s + 1)
    else s + 2

def mark (n : Nat) (covered : Covered) (s : Nat) (e : Int) : Covered := fun l =>
  covered l || (max 1 s ≤ l && l ≤ n && (l : Int) ≤ e)

/-- The lines of the entities in the order of their rows. A range that starts before the
first line starts at it. -/
def coveredBy (lines : List JsString) (rows : List NodeRow) : Covered :=
  rows.foldl (fun covered r =>
    if r.kind = ascii "module" then covered
    else mark lines.length covered (withLeadingDecoration lines covered r.rangeStart.toNat) r.rangeEnd) fun _ => false

/-- The runs of lines that are not covered, from line `l` on. -/
def uncoveredRuns (covered : Covered) : Nat → List JsString → List Segment
  | _, [] => []
  | l, line :: rest =>
    let runs := uncoveredRuns covered (l + 1) rest
    if covered l then runs
    else match runs with
      | run :: more => if run.start = l + 1 then ⟨l, line :: run.lines⟩ :: more else ⟨l, [line]⟩ :: run :: more
      | [] => [⟨l, [line]⟩]

/-- The distance to the nearest anchor; without anchors, the position. -/
def segmentDist (anchorRanges : List (Int × Int)) (s : Segment) : Int :=
  let dist (a : Int × Int) : Int :=
    if (s.end : Int) < a.1 then a.1 - s.end else if (s.start : Int) > a.2 then s.start - a.2 else 0
  match anchorRanges.map dist with
  | [] => s.start
  | d :: ds => ds.foldl min d

def totalLines (segs : List Segment) : Nat := (segs.map fun s => s.lines.length).sum

/-- The loop that drops the runs in turn, up to the cap. Runs are told apart by their starts. -/
def droppedStarts (maxLines : Nat) : Nat → List Segment → List Nat
  | _, [] => []
  | total, s :: rest =>
    if total ≤ maxLines then [] else s.start :: droppedStarts maxLines (total - s.lines.length) rest

def computeModuleScope (db : PackDb) (file : JsString) (lines : List JsString) (anchorRanges : List (Int × Int))
    (maxLines : Nat) : List Segment :=
  let segs := (uncoveredRuns (coveredBy lines (db.nodesIn file)) 1 lines).filter fun s => trim s.text ≠ []
  if totalLines segs > maxLines then
    let farFirst := sortWith (fun a b => compare (segmentDist anchorRanges b) (segmentDist anchorRanges a)) segs
    let dropped := droppedStarts maxLines (totalLines segs) farFirst
    segs.filter fun s => !dropped.contains s.start
  else segs

def moduleScopeSegments (db : PackDb) (target : NodeRow) (lines : List JsString) (maxLines : Nat) : List Segment :=
  computeModuleScope db (target.file.getD []) lines [(target.rangeStart, target.rangeEnd)] maxLines

/-! ## Slices -/

inductive SliceRole where
  | header | target | neighbor | moduleFrame
deriving DecidableEq

inductive SliceVia where
  | call | ref | caller
deriving DecidableEq

structure ContextSlice where
  role : SliceRole
  id : Option JsString
  kind : JsString
  file : JsString
  startLine : Int
  endLine : Int
  text : JsString
  via : Option SliceVia := none
  weight : Option Nat := none
  truncatedFromEndLine : Option Int := none
deriving DecidableEq

/-- `lines.slice(start - 1, end).join("\n")` for a start of one or more. -/
def linesText (lines : List JsString) (start fin : Int) : JsString :=
  joinLines ((lines.take fin.toNat).drop (start - 1).toNat)

def sliceNode (read : JsString → Option (List JsString)) (node : NodeRow) (role : SliceRole) : Option ContextSlice :=
  (named node.file).bind fun file => (read file).bind fun lines =>
    let start := max 1 node.rangeStart
    let fin := min (lines.length : Int) node.rangeEnd
    if fin < start then none
    else some
      { role := role
        id := some node.id
        kind := node.kind
        file := file
        startLine := start
        endLine := fin
        text := linesText lines start fin }

end Hayven.Db.Pack
