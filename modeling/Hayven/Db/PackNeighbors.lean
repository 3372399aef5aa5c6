import Hayven.Db.PackSlicing
import Hayven.Lib.Json
import Hayven.Lib.Tally
import Hayven.Util.TestFiles
/-!
# Imported declarations

`db/imported_symbol.ts`: names in a body that are no node of the index, declared at the top
level of a file that the body's file imports.
-/
open Hayven.Lib Hayven.Native Hayven.Graph

namespace Hayven.Db.Pack

def DEFAULT_MAX_LINES : Nat := 20

def MIN_IDENT_LEN : Nat := 2

def STOP_IDENTS : List JsString :=
  ["const", "let", "var", "function", "return", "if", "else", "for", "while",
    "switch", "case", "break", "continue", "new", "this", "super", "class",
    "extends", "implements", "interface", "type", "enum", "import", "export",
    "from", "as", "default", "async", "await", "yield", "typeof", "instanceof",
    "in", "of", "void", "delete", "throw", "try", "catch", "finally", "do",
    "true", "false", "null", "undefined", "string", "number", "boolean", "object",
    "any", "unknown", "never", "Promise", "Array", "Map", "Set", "Record",
    "console", "Math", "JSON", "Object", "Date", "Error", "RegExp", "Symbol",
    "require", "module", "exports", "globalThis", "window", "document"].map ascii

/-! ## Identifiers -/

def isLetter (u : UInt16) : Bool := (0x41 ≤ u && u ≤ 0x5A) || (0x61 ≤ u && u ≤ 0x7A)

/-- `[\w$]`. -/
def isIdentUnit (u : UInt16) : Bool := isLetter u || (0x30 ≤ u && u ≤ 0x39) || u = 0x5F || u = 0x24

/-- `[A-Za-z_$]`. -/
def startsIdent (u : UInt16) : Bool := isLetter u || u = 0x5F || u = 0x24

/-- The matches of `/[A-Za-z_$][\w$]*/g`, the current one last unit first. -/
def identifiersFrom : JsString → JsString → List JsString
  | current, [] => if current.isEmpty then [] else [current.reverse]
  | current, u :: rest =>
    if current.isEmpty then
      if startsIdent u then identifiersFrom [u] rest else identifiersFrom [] rest
    else if isIdentUnit u then identifiersFrom (u :: current) rest
    else current.reverse :: identifiersFrom [] rest

/-- The first of each, in order. -/
def firstOnes (names : List JsString) : List JsString :=
  names.foldl (fun out name => if out.contains name then out else out ++ [name]) []

def candidateIdentifiers (targetText : JsString) : List JsString :=
  firstOnes ((identifiersFrom [] targetText).filter fun name =>
    decide (MIN_IDENT_LEN ≤ name.length) && !STOP_IDENTS.contains name)

/-- A node of that name, or with an id that ends in it after `::` in the manner of `LIKE`. -/
def isIndexedNode (db : PackDb) (name : JsString) : Bool :=
  db.nodes.entries.any (fun row => row.2.name = name) ||
    db.nodes.keys.any fun id => (((ascii "::" ++ name).map Cli.asciiLower).isSuffixOf (id.map Cli.asciiLower))

/-! ## Imported files -/

/-- The module node of a file: the first row, where there are several. -/
def moduleNodeOf (db : PackDb) (file : JsString) : Option NodeRow :=
  (db.nodesIn file).find? fun n => n.kind = ascii "module"

/-- The files of the modules that a file's module imports. -/
def importsOf (db : PackDb) (file : JsString) : List JsString :=
  (moduleNodeOf db file).elim [] fun m =>
    ((db.outgoing m.id).filter fun e => e.kind = importKind).filterMap fun e =>
      (db.getNode e.dst).bind fun n => named n.file

def sortedFiles (files : List JsString) : List JsString := sortWith compare files.dedup

def importedFilesOf (db : PackDb) (target : NodeRow) : List JsString :=
  (named target.file).elim [] fun file =>
    sortedFiles ((importsOf db file).filter fun f => f ≠ file && !Util.isTestFile (some f))

/-! ## Declarations -/

/-- One word and the blanks that must follow it. -/
def afterWord (word line : JsString) : Option JsString :=
  if word.isPrefixOf line && ((line.drop word.length).head?.any isJsSpace) then
    some ((line.drop word.length).dropWhile isJsSpace)
  else none

def DECL_KEYWORDS : List JsString :=
  ["const", "let", "var", "type", "interface", "enum", "function", "class"].map ascii

/-- The regular expression of `findDeclLine` on one line. -/
def declares (name line : JsString) : Bool :=
  let afterExport := (afterWord (ascii "export") line).getD line
  let afterDeclare := (afterWord (ascii "declare") afterExport).getD afterExport
  (DECL_KEYWORDS.filterMap fun keyword => afterWord keyword afterDeclare).any fun rest =>
    name.isPrefixOf rest && !((rest.drop name.length).head?.any isIdentUnit)

/-- The line is counted from one. -/
def findDeclLine (lines : List JsString) (name : JsString) : Option Nat :=
  (lines.findIdx? (declares name)).map (· + 1)

def isOpening (u : UInt16) : Bool := u = 0x7B || u = 0x28 || u = 0x5B

def isClosing (u : UInt16) : Bool := u = 0x7D || u = 0x29 || u = 0x5D

/-- The depth after a unit, and whether a bracket was opened. -/
def bracketStep (st : Nat × Bool) (u : UInt16) : Nat × Bool :=
  if isOpening u then (st.1 + 1, true)
  else if isClosing u then (st.1 - 1, st.2)
  else st

def trimEnd (line : JsString) : JsString := (line.reverse.dropWhile isJsSpace).reverse

/-- How many of the lines the declaration takes. -/
def declLength (st : Nat × Bool) : List JsString → Nat
  | [] => 0
  | line :: rest =>
    let st := line.foldl bracketStep st
    let trimmed := trimEnd line
    let done := if st.2 then st.1 = 0
      else trimmed.getLast? = some 0x3B || !(trimmed.getLast?.any fun u => u = 0x3D || u = 0x2C)
    if done then 1 else 1 + declLength st rest

/-- The last line of the declaration, and its text. -/
def extractDecl (lines : List JsString) (startLine maxLines : Nat) : Nat × JsString :=
  let window := (lines.drop (startLine - 1)).take maxLines
  let n := declLength (0, false) window
  (startLine - 1 + n, joinLines (window.take n))

/-! ## The pass -/

/-- The reader of this pass does not ask for the size. -/
def readImported (h : Files) (repoRoot file : JsString) : Option (List JsString) :=
  (resolveWithinRepo h repoRoot file).bind fun abs => (h.readText abs).map (·.splitOn lineFeed)

/-- What is found so far, where it stands, and the ids that are taken. -/
structure Collected where
  out : List ContextSlice := []
  seenLoc : List (JsString × Nat) := []
  addedIds : List JsString

/-- The slice of a name in the first file that declares it and is not passed over. -/
def locate (read : JsString → Option (List JsString)) (maxLines : Nat) (name : JsString) (c : Collected) :
    List JsString → Collected
  | [] => c
  | file :: rest =>
    match (read file).bind fun lines => (findDeclLine lines name).map fun line => (lines, line) with
    | none => locate read maxLines name c rest
    | some (lines, declLine) =>
      let synthId := file ++ ascii "::" ++ name
      if c.addedIds.contains synthId || c.seenLoc.contains (file, declLine) then locate read maxLines name c rest
      else
        let decl := extractDecl lines declLine maxLines
        { out := c.out ++ [{
            role := .neighbor
            id := none
            kind := ascii "other"
            file := file
            startLine := declLine
            endLine := decl.1
            text := decl.2
            via := some .ref }]
          seenLoc := (file, declLine) :: c.seenLoc
          addedIds := synthId :: c.addedIds }

/-- `collectImportedSymbols`; the ids that are taken go on to the next root. -/
def collectImportedSymbols (db : PackDb) (h : Files) (repoRoot : JsString) (target : NodeRow) (targetText : JsString)
    (alreadyAddedIds : List JsString) (maxSymbols : Nat) : List ContextSlice × List JsString :=
  if maxSymbols = 0 ∨ named target.file = none ∨ targetText = [] then ([], alreadyAddedIds)
  else
    let candidateFiles := importedFilesOf db target
    let found := (candidateIdentifiers targetText).foldl (fun c name =>
      if maxSymbols ≤ c.out.length then c
      else if isIndexedNode db name then c
      else locate (readImported h repoRoot) DEFAULT_MAX_LINES name c candidateFiles) { addedIds := alreadyAddedIds }
    (found.out, found.addedIds)

end Hayven.Db.Pack

/-!
## The neighbour passes

`db/pack_neighbors.ts`: callees, referenced types, callers and imported declarations of a
set of roots. Both builders of a pack run the same passes.
-/

namespace Hayven.Db.Pack

def MAX_REF_LINES : Int := 40

def isModuleNode (n : NodeRow) : Bool := n.kind = ascii "module"

def isTypeLikeKind (kind : JsString) : Bool := kind = ascii "class"

def overlapsTarget (n target : NodeRow) : Bool :=
  n.file = target.file && n.rangeStart ≤ target.rangeEnd && n.rangeEnd ≥ target.rangeStart

/-- The name stands somewhere in the text, after `prev`, with no identifier unit on either side. -/
def standsIn (name : JsString) : Option UInt16 → JsString → Bool
  | prev, [] => name.isEmpty && !prev.any isIdentUnit
  | prev, u :: rest =>
    (name.isPrefixOf (u :: rest) && !prev.any isIdentUnit &&
      !((u :: rest).drop name.length).head?.any isIdentUnit) || standsIn name (some u) rest

def referencesName (text name : JsString) : Bool := name ≠ [] && standsIn name none text

/-- `NeighborPassState`: the roots, and what the passes add to. -/
structure PassState where
  roots : List NodeRow
  rootIds : List JsString
  maxNeighbors : Nat
  slices : List ContextSlice
  notes : List JsString
  addedIds : List JsString

def anyRootIsTest (roots : List NodeRow) : Bool := roots.any fun r => Util.isTestFile r.file

def overlapsAnyRoot (roots : List NodeRow) (n : NodeRow) : Bool := roots.any (overlapsTarget n)

/-- The ids of the slices so far. -/
def emittedIds (slices : List ContextSlice) : List JsString := slices.filterMap (·.id)

section Passes
variable (localeCompare : JsString → JsString → Ordering) (db : PackDb) (h : Files) (repoRoot : JsString)

def read (file : JsString) : Option (List JsString) := readLines h repoRoot file

/-! ## Callees and callers -/

/-- The weights of the call edges by their far end, over all roots. -/
def callWeights (edgesOf : JsString → List WeightedEdge) (far : WeightedEdge → JsString) (st : PassState) :
    KeyedMap JsString Nat :=
  ((st.roots.flatMap fun root => edgesOf root.id).filter fun e =>
    isCallKind e.kind && !st.rootIds.contains (far e)).foldl (fun m e => tally m (far e) e.weight) .empty

/-- Heaviest first, then by id. -/
def rankedEnds (weights : KeyedMap JsString Nat) : List (JsString × Nat) :=
  sortWith (fun a b => (compare b.2 a.2).then (localeCompare a.1 b.1)) weights.entries

/-- A loop of `addCalleeNeighbors` or `addCallerNeighbors`: the slices it adds and the ids
that are taken afterwards, while fewer than `cap` are added. -/
def addRanked (roots : List NodeRow) (via : SliceVia) :
    Nat → List JsString → List (JsString × Nat) → List ContextSlice × List JsString
  | 0, taken, _ => ([], taken)
  | _, taken, [] => ([], taken)
  | cap + 1, taken, (id, weight) :: rest =>
    let skip := addRanked roots via (cap + 1) taken rest
    if taken.contains id then skip
    else match db.getNode id with
      | none => skip
      | some node =>
        if isModuleNode node then skip
        else if Util.isTestFile node.file && !anyRootIsTest roots then skip
        else if overlapsAnyRoot roots node then skip
        else match sliceNode (read h repoRoot) node .neighbor with
          | none => skip
          | some slice =>
            let more := addRanked roots via cap (id :: taken) rest
            ({ slice with via := some via, weight := some weight } :: more.1, more.2)

def omitted (count : Nat) (what : String) (cap : Nat) (reason : JsString) : List JsString :=
  if count = 0 then []
  else [decDigits count ++ ascii (" more " ++ what ++ "(s) omitted (cap ") ++ decDigits cap ++ ascii ", or " ++
    reason ++ ascii ")"]

def addCalleeNeighbors (st : PassState) (omitReasonSuffix : JsString) : PassState :=
  let ranked := rankedEnds localeCompare (callWeights db.outgoing (·.dst) st)
  let added := addRanked db h repoRoot st.roots .call st.maxNeighbors st.addedIds ranked
  { st with
    slices := st.slices ++ added.1
    notes := st.notes ++ omitted (ranked.length - added.1.length) "callee" st.maxNeighbors omitReasonSuffix
    addedIds := added.2 }

/-- The callers have ids of their own that are taken: those of the slices. -/
def addCallerNeighbors (st : PassState) (maxCallers : Nat) : PassState :=
  if maxCallers = 0 then st
  else
    let ranked := rankedEnds localeCompare (callWeights db.incoming (·.src) st)
    let added := addRanked db h repoRoot st.roots .caller maxCallers (emittedIds st.slices) ranked
    { st with
      slices := st.slices ++ added.1
      notes := st.notes ++
        omitted (ranked.length - added.1.length) "caller" maxCallers (ascii "unresolved/module/dup") }

/-! ## Referenced types -/

def entitiesIn (file : JsString) : List NodeRow :=
  sortWith (fun a b => localeCompare a.id b.id) (db.nodesIn file)

/-- A slice cut to its first lines, with the note about it. -/
def capRef (id : JsString) (file : Option JsString) (maxRefSliceLines : Nat) (slice : ContextSlice) :
    ContextSlice × List JsString :=
  let sliceLen := slice.endLine - slice.startLine + 1
  if sliceLen > maxRefSliceLines then
    match read h repoRoot (file.getD []) with
    | none => (slice, [])
    | some lines =>
      let newEnd := slice.startLine + maxRefSliceLines - 1
      ({ slice with
          endLine := newEnd
          text := linesText lines slice.startLine newEnd
          truncatedFromEndLine := some slice.endLine },
        [ascii "ref `" ++ id ++ ascii "` truncated to first " ++ decDigits maxRefSliceLines ++ ascii " of " ++
          intText sliceLen ++ ascii " lines"])
  else (slice, [])

/-- What the pass carries along: the state and how many it added. -/
abbrev RefState := PassState × Nat

/-- The slice that `tryAddRef` adds for a row, if it adds one, and its notes. -/
def refSlice (rootText : JsString) (maxRefSliceLines : Nat) (st : RefState) (r : NodeRow) :
    Option (ContextSlice × List JsString) :=
  if st.1.maxNeighbors ≤ st.2 then none
  else if st.1.rootIds.contains r.id || r.kind = ascii "module" then none
  else if !isTypeLikeKind r.kind then none
  else if st.1.addedIds.contains r.id then none
  else if !referencesName rootText r.name then none
  else (db.getNode r.id).bind fun node =>
    if overlapsAnyRoot st.1.roots node then none
    else if Util.isTestFile node.file && !anyRootIsTest st.1.roots then none
    else if node.rangeEnd - node.rangeStart + 1 > MAX_REF_LINES then none
    else (sliceNode (read h repoRoot) node .neighbor).map fun slice =>
      capRef h repoRoot r.id node.file maxRefSliceLines { slice with via := some .ref }

def tryAddRef (rootText : JsString) (maxRefSliceLines : Nat) (st : RefState) (r : NodeRow) : RefState :=
  match refSlice db h repoRoot rootText maxRefSliceLines st r with
  | none => st
  | some (slice, notes) =>
    ({ st.1 with
        slices := st.1.slices ++ [slice]
        notes := st.1.notes ++ notes
        addedIds := r.id :: st.1.addedIds }, st.2 + 1)

/-- The files of the roots first, then the files that they import. -/
def addRefNeighbors (st : PassState) (rootText : JsString) (rootFiles : List JsString) (maxRefSliceLines : Nat) :
    PassState :=
  let importedFiles := sortedFiles ((rootFiles.flatMap (importsOf db)).filter fun f => !rootFiles.contains f)
  (((rootFiles ++ importedFiles).flatMap (entitiesIn localeCompare db)).foldl
    (tryAddRef db h repoRoot rootText maxRefSliceLines) (st, 0)).1

/-! ## Imported declarations -/

/-- The roots in turn, with what is added and the ids that are taken. -/
def importedSlices (maxSymbols : Nat) (rootText : JsString → JsString) :
    List JsString → List NodeRow → List ContextSlice → List ContextSlice
  | _, [], added => added
  | taken, root :: rest, added =>
    if maxSymbols ≤ added.length then added
    else
      let extra := collectImportedSymbols db h repoRoot root (rootText root.id) taken (maxSymbols - added.length)
      importedSlices maxSymbols rootText extra.2 rest (added ++ extra.1)

def addImportedSymbolNeighbors (st : PassState) (rootText : JsString → JsString) (maxSymbols : Nat) : PassState :=
  if maxSymbols = 0 then st
  else
    let added := importedSlices db h repoRoot maxSymbols rootText (emittedIds st.slices) st.roots []
    { st with
      slices := st.slices ++ added
      notes := st.notes ++
        if added.length = 0 then []
        else [ascii "+" ++ decDigits added.length ++ ascii " cross-file imported symbol(s) (opt-in)"] }

end Passes

end Hayven.Db.Pack
