import Hayven.Db.ContextPack
import Hayven.Lib.MaximalRuns
/-!
# The pack of a change

`buildContextPackForChange` of `db/context_pack.ts`: the pack of the entities under the regions,
the module frame, the lines of the regions that neither holds, and the whole file where all that
is no smaller.
-/
open Hayven.Lib Hayven.Native Hayven.Graph

namespace Hayven.Db.Pack

structure ChangeRegion where
  startLine : Int
  endLine : Int

namespace ChangeRegion

def lo (region : ChangeRegion) : Int := min region.startLine region.endLine

def hi (region : ChangeRegion) : Int := max region.startLine region.endLine

end ChangeRegion

structure ChangePack extends ContextPack where
  fellBackToWholeFile : Bool

/-! ## What the regions touch -/

def MAX_COVERAGE_LINES : Int := 10000000

/-- The rows of the file that are no modules. -/
def changedRows (db : PackDb) (file : JsString) : List NodeRow :=
  (db.nodesIn file).filter fun r => r.kind ≠ ascii "module"

def maxEntityEnd (rows : List NodeRow) : Int := min MAX_COVERAGE_LINES (rows.foldl (fun m r => max m r.rangeEnd) 0)

/-- The bitmap, which ends at `maxEntityEnd`. -/
def insideEntity (rows : List NodeRow) (l : Int) : Bool :=
  rows.any fun r => max 1 r.rangeStart ≤ l && l ≤ min (maxEntityEnd rows) r.rangeEnd

def regionTouchesModuleScope (rows : List NodeRow) (lo hi : Int) : Bool :=
  lo < 1 || maxEntityEnd rows < hi || (numbersBetween lo hi).any fun l => !insideEntity rows l

/-- The smallest entity around the region, the first of several. -/
def smallestAround (rows : List NodeRow) (lo hi : Int) : Option NodeRow :=
  rows.foldl (fun best r =>
    if r.rangeStart ≤ lo ∧ hi ≤ r.rangeEnd ∧
        best.all fun b => r.rangeEnd - r.rangeStart < b.rangeEnd - b.rangeStart then some r
    else best) none

structure Classified where
  entityIds : List JsString
  anyModuleLevel : Bool

/-- One turn of the loop over the regions. -/
def classifyRegion (rows : List NodeRow) (found : Classified) (region : ChangeRegion) : Classified :=
  match smallestAround rows region.lo region.hi with
  | some best => { found with entityIds := addNew found.entityIds best.id }
  | none =>
    let overlapping := rows.filter fun r => r.rangeStart ≤ region.hi && region.lo ≤ r.rangeEnd
    { entityIds := addAll found.entityIds (overlapping.map (·.id))
      anyModuleLevel := found.anyModuleLevel || overlapping.isEmpty ||
        regionTouchesModuleScope rows region.lo region.hi }

def classify (rows : List NodeRow) (regions : List ChangeRegion) : Classified :=
  regions.foldl (classifyRegion rows) ⟨[], false⟩

/-! ## Merging -/

/-- `sliceKey` of this builder. -/
def placeKey (s : ContextSlice) : JsString :=
  s.file ++ ascii ":" ++ intText s.startLine ++ ascii ":" ++ intText s.endLine

/-- A slice is pushed unless its key is seen. -/
def pushSlice (slices : List ContextSlice) (s : ContextSlice) : List ContextSlice :=
  if (slices.map placeKey).contains (placeKey s) then slices else slices ++ [s]

def pushAll (slices more : List ContextSlice) : List ContextSlice := more.foldl pushSlice slices

def frameSlice (file : JsString) (startLine endLine : Int) (text : JsString) : ContextSlice where
  role := .moduleFrame
  id := none
  kind := ascii "module-frame"
  file := file
  startLine := startLine
  endLine := endLine
  text := text

/-- `finalizePack`; no pass goes on with the slices. -/
def finalizePack (read : JsString → Option (List JsString)) (symbol anchorFile : JsString)
    (slices : List ContextSlice) (notes : List JsString) : ContextPack :=
  finishPack read symbol none (some anchorFile)
    { roots := [], rootIds := [], maxNeighbors := 0, slices := slices, notes := notes, addedIds := [] }

/-! ## The lines that are left -/

def coversLine (file : JsString) (slices : List ContextSlice) (l : Int) : Bool :=
  slices.any fun s => s.file = file && s.startLine ≤ l && l ≤ s.endLine

/-- The regions cut to the lines of the file. -/
def regionSpans (regions : List ChangeRegion) (fileLines : List JsString) : List (Int × Int) :=
  (regions.map fun r => (max 1 r.lo, min (fileLines.length : Int) r.hi)).filter fun s => s.1 ≤ s.2

def mergedSpans (spans : List (Int × Int)) : List (Int × Int) :=
  match sortWith (compareLex (compareOn Prod.fst) (compareOn Prod.snd)) spans with
  | [] => []
  | s :: rest => mergeSpans s rest

def uncoveredLines (file : JsString) (slices : List ContextSlice) (spans : List (Int × Int)) : List Int :=
  sortWith compare (spans.flatMap fun s => (numbersBetween s.1 s.2).filter fun l => !coversLine file slices l)

def gapSlice (file : JsString) (fileLines : List JsString) (run : Int × Int) : ContextSlice :=
  frameSlice file run.1 run.2 (linesText fileLines run.1 run.2)

def fillGaps (file : JsString) (fileLines : List JsString) (regions : List ChangeRegion)
    (slices : List ContextSlice) : List ContextSlice :=
  pushAll slices ((runsOf (uncoveredLines file slices (mergedSpans (regionSpans regions fileLines)))).map
    (gapSlice file fileLines))

/-! ## The builders -/

def wholeFileSlice (file : JsString) (lines : List JsString) : ContextSlice where
  role := .target
  id := none
  kind := ascii "whole-file"
  file := file
  startLine := 1
  endLine := lines.length
  text := joinLines lines

def fellBackNote (file : JsString) : JsString :=
  ascii "pack was not smaller than `" ++ file ++ ascii "` " ++ [0x2014] ++
    ascii " returned the whole file (lossless, never worse than reading it)"

def droppedNote : JsString :=
  ascii "the opt-in caller/imported-symbol slices were dropped by that fallback (the whole file is returned instead)"

section Change
variable (localeCompare : JsString → JsString → Ordering) (db : PackDb) (h : Files) (repoRoot file : JsString)

def buildModuleFrame (maxLines : Option JsNumber) (anchorRanges : List (Int × Int)) : Option ContextPack :=
  (read h repoRoot file).map fun lines =>
    finalizePack (read h repoRoot) file file
      ((computeModuleScope db file lines anchorRanges (countOpt maxLines DEFAULT_MAX_HEADER_LINES 0)).map fun seg =>
        frameSlice file seg.start seg.end seg.text) []

variable (regions : List ChangeRegion) (opts : ContextPackOptions)

/-- The pack of the entities under the regions. -/
def entityPack : Option ContextPack :=
  let entityIds := (classify (changedRows db file) regions).entityIds
  if entityIds = [] then none else buildContextPackForSymbols localeCompare db h repoRoot entityIds opts

def framePack : Option ContextPack :=
  if (classify (changedRows db file) regions).anyModuleLevel then
    buildModuleFrame db h repoRoot file (some (countOpt opts.maxHeaderLines DEFAULT_MAX_HEADER_LINES 0 : Nat))
      (regions.map fun r => (r.lo, r.hi))
  else none

/-- What the assembled pack is replaced by if it is not smaller and the file is read. -/
def fallBack (fin : ContextPack) : ChangePack :=
  match fin.worthwhile, read h repoRoot file with
  | false, some lines =>
    let importedSymbols := opts.importedSymbols = some true
    { fin with
      slices := [wholeFileSlice file lines]
      lineCount := lines.length
      estTokens := estimateTokens (joinLines lines).length
      notes := fin.notes ++ [fellBackNote file] ++
        if countOpt opts.maxCallers DEFAULT_MAX_CALLERS 0 > 0 ∨ importedSymbols then [droppedNote] else []
      fellBackToWholeFile := true }
  | _, _ => { fin with fellBackToWholeFile := false }

def buildContextPackForChange : Option ChangePack :=
  let found := classify (changedRows db file) regions
  let entityPack := entityPack localeCompare db h repoRoot file regions opts
  let framePack := framePack db h repoRoot file regions opts
  if entityPack.isNone ∧ framePack.isNone then none
  else
    let packs := entityPack.toList ++ framePack.toList
    let merged := pushAll [] (packs.flatMap (·.slices))
    let slices := (read h repoRoot file).elim merged fun fileLines => fillGaps file fileLines regions merged
    let firstFile (pack : Option ContextPack) : Option JsString := (pack.bind (·.slices.head?)).map (·.file)
    let anchorFile := (firstFile entityPack).getD ((firstFile framePack).getD file)
    let symbol := [0x2C].intercalate
      (found.entityIds ++ if found.anyModuleLevel then [file ++ ascii "::module-frame"] else [])
    some (fallBack h repoRoot file opts
      (finalizePack (read h repoRoot) symbol anchorFile slices (addAll [] (packs.flatMap (·.notes)))))

end Change

end Hayven.Db.Pack
