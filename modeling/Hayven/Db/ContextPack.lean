import Hayven.Db.PackNeighbors
import Hayven.Lib.WholeNumbers
/-!
# The pack builders

`buildContextPack` and `buildContextPackForSymbols` of `db/context_pack.ts`. The one builds
the pack of a symbol, the other that of several: header, targets and neighbours.
-/
open Hayven.Lib Hayven.Native Hayven.Graph

namespace Hayven.Db.Pack

def DEFAULT_MAX_NEIGHBORS : Nat := 10

def DEFAULT_MAX_CALLERS : Nat := 0

def DEFAULT_MAX_HEADER_LINES : Nat := 120

def DEFAULT_MAX_REF_SLICE_LINES : Nat := 12

structure ContextPackOptions where
  neighbors : Option Bool := none
  maxNeighbors : Option JsNumber := none
  maxHeaderLines : Option JsNumber := none
  maxRefSliceLines : Option JsNumber := none
  maxCallers : Option JsNumber := none
  importedSymbols : Option Bool := none

structure ContextPack where
  symbol : JsString
  resolved : Option JsString
  slices : List ContextSlice
  lineCount : Int
  estTokens : Nat
  notes : List JsString
  targetFileEstTokens : Nat
  worthwhile : Bool

/-- The knob if it is an integer from `least` on. -/
def countOpt (v : Option JsNumber) (dflt least : Nat) : Nat :=
  match v.bind JsNumber.natValue with
  | some n => if least ≤ n then n else dflt
  | none => dflt

def estimateTokens (chars : Nat) : Nat := (chars + 3) / 4

def headerSlice (file : JsString) (seg : Segment) : ContextSlice where
  role := .header
  id := none
  kind := ascii "header"
  file := file
  startLine := seg.start
  endLine := seg.end
  text := seg.text

/-- `lineCount` and the characters of the slices. -/
def lineCountOf (slices : List ContextSlice) : Int := (slices.map fun s => s.endLine - s.startLine + 1).sum

def charsOf (slices : List ContextSlice) : Nat := (slices.map fun s => s.text.length).sum

def fileEstTokens (read : JsString → Option (List JsString)) (file : Option JsString) : Nat :=
  (((named file).bind read).map fun lines => estimateTokens (joinLines lines).length).getD 0

def notWorthwhile (estTokens targetFileEstTokens : Nat) : List JsString :=
  if targetFileEstTokens = 0 ∨ estTokens < targetFileEstTokens then []
  else [ascii "pack (~" ++ decDigits estTokens ++ ascii " tok) is not smaller than the target file (~" ++
    decDigits targetFileEstTokens ++ ascii " tok) " ++ [0x2014] ++ ascii " consider using the whole file"]

/-- The pack of the slices; the yardstick is the file of the first root. -/
def finishPack (read : JsString → Option (List JsString)) (symbol : JsString) (resolved anchorFile : Option JsString)
    (st : PassState) : ContextPack :=
  let estTokens := estimateTokens (charsOf st.slices)
  let targetFileEstTokens := fileEstTokens read anchorFile
  { symbol := symbol
    resolved := resolved
    slices := st.slices
    lineCount := lineCountOf st.slices
    estTokens := estTokens
    notes := st.notes ++ notWorthwhile estTokens targetFileEstTokens
    targetFileEstTokens := targetFileEstTokens
    worthwhile := targetFileEstTokens = 0 || estTokens < targetFileEstTokens }

def notRead (what : String) (file : JsString) : JsString :=
  ascii ("could not read " ++ what ++ " file `") ++ file ++ ascii "`"

def notSliced (id : JsString) : JsString := ascii "could not slice target body for `" ++ id ++ ascii "`"

section Builders
variable (localeCompare : JsString → JsString → Ordering) (db : PackDb) (h : Files) (repoRoot : JsString)

/-- The text of a root's own slice. -/
def targetText (r : NodeRow) : JsString := ((sliceNode (read h repoRoot) r .target).map (·.text)).getD []

/-! ## One symbol -/

/-- Header and target of one symbol. -/
def startOne (maxNeighbors maxHeaderLines : Nat) (target : NodeRow) : PassState :=
  let header : List ContextSlice × List JsString :=
    match named target.file with
    | none => ([], [])
    | some file =>
      match read h repoRoot file with
      | some lines => ((moduleScopeSegments db target lines maxHeaderLines).map (headerSlice file), [])
      | none => ([], [notRead "target" file])
  let targetSlice := sliceNode (read h repoRoot) target .target
  { roots := [target]
    rootIds := [target.id]
    maxNeighbors := maxNeighbors
    slices := header.1 ++ targetSlice.toList
    notes := header.2 ++ if targetSlice.isSome then [] else [notSliced target.id]
    addedIds := [target.id] }

def buildContextPack (rawId : JsString) (opts : ContextPackOptions) : Option ContextPack :=
  (resolveNodeId db.graph rawId).bind fun resolved => (db.getNode resolved.id).map fun target =>
    let includeNeighbors := opts.neighbors ≠ some false
    let maxNeighbors := countOpt opts.maxNeighbors DEFAULT_MAX_NEIGHBORS 0
    let maxHeaderLines := countOpt opts.maxHeaderLines DEFAULT_MAX_HEADER_LINES 0
    let maxRefSliceLines := countOpt opts.maxRefSliceLines DEFAULT_MAX_REF_SLICE_LINES 1
    let maxCallers := countOpt opts.maxCallers DEFAULT_MAX_CALLERS 0
    let importedSymbols := opts.importedSymbols = some true
    let rootText := targetText h repoRoot target
    let passState := startOne db h repoRoot maxNeighbors maxHeaderLines target
    let passState := if includeNeighbors ∧ maxNeighbors > 0 then
        addCalleeNeighbors localeCompare db h repoRoot passState (ascii "unresolved/module")
      else passState
    let passState := match named target.file with
      | some file =>
        if includeNeighbors ∧ maxNeighbors > 0 then
          addRefNeighbors localeCompare db h repoRoot passState rootText [file] maxRefSliceLines
        else passState
      | none => passState
    let passState := addCallerNeighbors localeCompare db h repoRoot passState maxCallers
    let passState := if importedSymbols then
        addImportedSymbolNeighbors db h repoRoot passState (fun id => if id = target.id then rootText else [])
          maxNeighbors
      else passState
    finishPack (read h repoRoot) target.id (if resolved.resolved then some target.id else none) target.file passState

/-! ## Several symbols -/

/-- One turn of the loop over the ids. -/
def addRoot (roots : List NodeRow) (rawId : JsString) : List NodeRow :=
  match resolveNodeId db.graph rawId with
  | none => roots
  | some resolved =>
    if (roots.map (·.id)).contains resolved.id then roots
    else match db.getNode resolved.id with
      | none => roots
      | some node => roots ++ [node]

/-- The roots by their file, the files in the order of their first roots. -/
def rootsByFile (roots : List NodeRow) : KeyedMap JsString (List NodeRow) :=
  roots.foldl (fun m r => (named r.file).elim m fun file => m.set file ((m.get file).getD [] ++ [r])) .empty

/-- The headers of a file, or the note that it could not be read. -/
def rootHeader (maxHeaderLines : Nat) (file : JsString) (fileRoots : List NodeRow) :
    List ContextSlice × List JsString :=
  match read h repoRoot file with
  | none => ([], [notRead "root" file])
  | some lines =>
    ((computeModuleScope db file lines (fileRoots.map fun r => (r.rangeStart, r.rangeEnd)) maxHeaderLines).map
      (headerSlice file), [])

/-- The headers of the roots' files, then the targets. -/
def startAll (maxNeighbors maxHeaderLines : Nat) (roots : List NodeRow) : PassState :=
  let headers := (rootsByFile roots).entries.map fun row => rootHeader db h repoRoot maxHeaderLines row.1 row.2
  let targets := roots.map fun r => (r.id, sliceNode (read h repoRoot) r .target)
  { roots := roots
    rootIds := roots.map (·.id)
    maxNeighbors := maxNeighbors
    slices := headers.flatMap (·.1) ++ targets.filterMap (·.2)
    notes := headers.flatMap (·.2) ++ (targets.filter fun t => t.2.isNone).map fun t => notSliced t.1
    addedIds := roots.map (·.id) }

/-- `targetSlices.get(id)?.text ?? ""`. -/
def rootTextOf (roots : List NodeRow) (id : JsString) : JsString :=
  ((roots.find? fun r => r.id = id).map (targetText h repoRoot)).getD []

def buildContextPackForSymbols (rawIds : List JsString) (opts : ContextPackOptions) : Option ContextPack :=
  let includeNeighbors := opts.neighbors ≠ some false
  let maxNeighbors := countOpt opts.maxNeighbors DEFAULT_MAX_NEIGHBORS 0
  let maxHeaderLines := countOpt opts.maxHeaderLines DEFAULT_MAX_HEADER_LINES 0
  let maxRefSliceLines := countOpt opts.maxRefSliceLines DEFAULT_MAX_REF_SLICE_LINES 1
  let maxCallers := countOpt opts.maxCallers DEFAULT_MAX_CALLERS 0
  let importedSymbols := opts.importedSymbols = some true
  let roots := rawIds.foldl (addRoot db) []
  if roots = [] then none
  else
    let rootText := joinLines (roots.map fun r => rootTextOf h repoRoot roots r.id)
    let passState := startAll db h repoRoot maxNeighbors maxHeaderLines roots
    let passState := if includeNeighbors ∧ maxNeighbors > 0 then
        addRefNeighbors localeCompare db h repoRoot
          (addCalleeNeighbors localeCompare db h repoRoot passState (ascii "unresolved/module/dup"))
          rootText (sortWith compare (rootsByFile roots).keys) maxRefSliceLines
      else passState
    let passState := addCallerNeighbors localeCompare db h repoRoot passState maxCallers
    let passState := if importedSymbols then
        addImportedSymbolNeighbors db h repoRoot passState (rootTextOf h repoRoot roots) maxNeighbors
      else passState
    some (finishPack (read h repoRoot) ([0x2C].intercalate (roots.map (·.id))) none (roots.head?.bind (·.file))
      passState)

end Builders

end Hayven.Db.Pack
