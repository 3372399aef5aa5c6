import Hayven.Graph.IdScheme
import Hayven.Lib.Lines
import Hayven.Util.DateText
/-!
# Node markdown

`renderNodeMarkdown` of `graph/nodeWriter.ts`, and the node it renders with every field that
travels with it: only a summary is free text below the frontmatter, and the name stands raw in
the heading. `parseNodeMarkdown` of `graph/nodeReader.ts`: a frontmatter block, one scalar a
line, and below it the summary, which ends at the first heading that says `Observed`.
-/
open Hayven.Lib Hayven.Util Hayven.Native

namespace Hayven.Graph

/-- `GraphNode` of `graph/types.ts`, whole. -/
structure StoredNode extends GraphNode where
  language : JsString
  /-- Start and end line. -/
  range : JsNumber × JsNumber
  astHash : JsString
  summary : Option JsString
  lastSeen : JsNumber
  logicalClock : JsNumber
  lastModifiedBy : Option JsString
deriving DecidableEq

structure NodeNeighbors where
  callers : List GraphEdge
  callees : List GraphEdge

/-- Number text, and what `Date.parse` makes of a text that `toISOString` does not print. -/
structure Runtime where
  number : NumberText
  otherDate : JsString → JsNumber

def kindText : NodeKind → JsString
  | .function => ascii "function"
  | .method => ascii "method"
  | .class => ascii "class"
  | .struct => ascii "struct"
  | .interface => ascii "interface"
  | .module => ascii "module"
  | .constant => ascii "constant"
  | .type => ascii "type"
  | .trait => ascii "trait"
  | .enum => ascii "enum"
  | .other => ascii "other"

def summaryPlaceholder : JsString :=
  ascii "_Summary pending " ++ 0x2014 :: ascii " run `hayven summarize` to generate one._"

/-! ## Frontmatter -/

/-- `[A-Za-z0-9_./\-]`. -/
def isBareUnit (u : UInt16) : Bool :=
  (0x41 ≤ u && u ≤ 0x5A) || (0x61 ≤ u && u ≤ 0x7A) || isDigit u || u = 0x5F || u = 0x2E || u = 0x2F || u = 0x2D

/-- A text of other units, or none at all, is quoted as JSON. -/
def escapeYaml (value : JsString) : JsString :=
  if value ≠ [] ∧ value.all isBareUnit then value else quote value

/-- `key: value`. -/
def frontmatterLine (key : String) (value : JsString) : JsString := ascii key ++ 0x3A :: 0x20 :: value

def fence : JsString := ascii "---"

def rangeText (rt : Runtime) (range : JsNumber × JsNumber) : JsString :=
  0x5B :: Json.numToString rt.number range.1 ++ 0x2C :: 0x20 :: Json.numToString rt.number range.2 ++ [0x5D]

/-- An empty writer id is left out like a missing one. -/
def modifierLines : Option JsString → List JsString
  | some writer => if writer ≠ [] then [frontmatterLine "last_modified_by" (escapeYaml writer)] else []
  | none => []

/-- The lines between the fences. -/
def frontmatterLines (rt : Runtime) (node : StoredNode) (lastSeen : JsString) : List JsString :=
  [frontmatterLine "id" (escapeYaml node.id),
    frontmatterLine "name" (escapeYaml node.name),
    frontmatterLine "qualified_name" (escapeYaml node.qualifiedName),
    frontmatterLine "kind" (kindText node.kind),
    frontmatterLine "language" node.language,
    frontmatterLine "file" (escapeYaml node.file),
    frontmatterLine "range" (rangeText rt node.range),
    frontmatterLine "ast_hash" (ascii "blake3:" ++ node.astHash),
    frontmatterLine "last_seen" lastSeen,
    frontmatterLine "logical_clock" (Json.numToString rt.number node.logicalClock)] ++
  modifierLines node.lastModifiedBy

/-- It throws on a time that no `Date` can hold. -/
def renderFrontmatter (rt : Runtime) (node : StoredNode) : Option JsString :=
  (toISOString node.lastSeen).map fun lastSeen =>
    joinLines (fence :: frontmatterLines rt node lastSeen ++ [fence])

/-! ## Body -/

def edgeLine (rt : Runtime) (directionField : GraphEdge → JsString) (e : GraphEdge) : JsString :=
  ascii "- [[" ++ directionField e ++ ascii "]] (" ++ rt.number.print e.weight ++ ascii " invocation" ++
    (if e.weight = 1 then [] else ascii "s") ++ ascii ")"

/-- Heaviest first. -/
def renderEdgeList (rt : Runtime) (edges : List GraphEdge) (directionField : GraphEdge → JsString) : JsString :=
  if edges = [] then ascii "_None observed yet._"
  else joinLines ((edges.mergeSort fun a b => decide (b.weight ≤ a.weight)).map (edgeLine rt directionField))

/-- The summary without the blanks around it; an absent or blank one stays absent. -/
def trimmedSummary (summary : Option JsString) : Option JsString :=
  match summary with
  | some s => if trim s ≠ [] then some (trim s) else none
  | none => none

def renderBody (node : StoredNode) : JsString := (trimmedSummary node.summary).getD summaryPlaceholder

def heading (name : JsString) : JsString := 0x23 :: 0x20 :: 0x60 :: (name ++ [0x60])

def callersHeading : JsString := ascii "## Observed callers (from traces)"

def calleesHeading : JsString := ascii "## Observed callees (from traces)"

def renderNodeMarkdown (rt : Runtime) (node : StoredNode) (neighbors : NodeNeighbors) : Option JsString :=
  (renderFrontmatter rt node).map fun front =>
    joinLines [front, [], heading node.name, [], renderBody node, [],
      callersHeading, renderEdgeList rt neighbors.callers GraphEdge.src, [],
      calleesHeading, renderEdgeList rt neighbors.callees GraphEdge.dst, []]

/-! ## The reader -/

/-! ## Frontmatter -/

def isInlineBlank (u : UInt16) : Bool := u = 0x20 || u = 0x09

/-- `\r?\n` at the start. -/
def takeLineEnd : JsString → Option JsString
  | u :: rest =>
    if u = lineFeed then some rest
    else if u = carriageReturn then takeUnit lineFeed rest
    else none
  | [] => none

/-- `---[ \t]*`. -/
def takeFence (s : JsString) : Option JsString :=
  if fence.isPrefixOf s then some ((s.drop fence.length).dropWhile isInlineBlank) else none

/-- `\r?\n---[ \t]*(?:\r?\n|$)`. -/
def takeClosing (s : JsString) : Option JsString :=
  (takeLineEnd s).bind fun s =>
    (takeFence s).bind fun s => if s = [] then some [] else takeLineEnd s

/-- The shortest text up to a closing fence, and what follows that fence. -/
def takeBlock : JsString → Option (JsString × JsString)
  | [] => none
  | u :: s =>
    match takeClosing (u :: s) with
    | some rest => some ([], rest)
    | none => (takeBlock s).map fun p => (u :: p.1, p.2)

/-- `^-?\d+(?:\.\d+)?$`. -/
def isNumeral (s : JsString) : Bool :=
  let s := if s.head? = some 0x2D then s.tail else s
  s.takeWhile isDigit ≠ [] &&
    match s.dropWhile isDigit with
    | [] => true
    | u :: frac => u = 0x2E && frac ≠ [] && frac.all isDigit

/-- A scalar whose brackets are nested `fuel` deep at most. -/
def parseScalarFrom (rt : Runtime) : Nat → JsString → Json
  | 0, value => .str value
  | fuel + 1, value =>
    if value = [] then .str []
    else if value.head? = some 0x22 then (parseJson value).getD (.str value)
    else if value.head? = some 0x5B ∧ value.getLast? = some 0x5D then
      let inner := trim value.tail.dropLast
      if inner = [] then .arr []
      else .arr ((inner.splitOn 0x2C).map fun part => parseScalarFrom rt fuel (trim part))
    else if isNumeral value then .num (rt.number.ofString value)
    else .str value

/-- Each pair of brackets takes two units. -/
def parseScalar (rt : Runtime) (value : JsString) : Json := parseScalarFrom rt (value.length + 1) value

def frontmatterEntry (rt : Runtime) (raw : JsString) : Option (JsString × Json) :=
  let key := raw.takeWhile (· ≠ 0x3A)
  match raw.dropWhile (· ≠ 0x3A) with
  | [] => none
  | _ :: value => if trim key = [] then none else some (trim key, parseScalar rt (trim value))

structure ParsedFrontmatter where
  data : List (JsString × Json)
  content : JsString

def stripByteOrderMark (text : JsString) : JsString := if text.head? = some 0xFEFF then text.tail else text

def parseFrontmatter (rt : Runtime) (text : JsString) : ParsedFrontmatter :=
  let src := stripByteOrderMark text
  match (takeFence src).bind takeLineEnd |>.bind takeBlock with
  | some (block, content) => { data := (splitLines block).filterMap (frontmatterEntry rt), content }
  | none => { data := [], content := src }

/-- `data[key]`: a later line of the same key wins. -/
def dataField (key : String) : List (JsString × Json) → Option Json
  | [] => none
  | (k, v) :: rest =>
    match dataField key rest with
    | some w => some w
    | none => if k = ascii key then some v else none

def stringField (key : String) (data : List (JsString × Json)) : Option JsString :=
  match dataField key data with
  | some (.str s) => some s
  | _ => none

/-! ## Body -/

/-- White space, at least one unit of it. -/
def takeSpaces (s : JsString) : Option JsString :=
  if (s.takeWhile isJsSpace) = [] then none else some (s.dropWhile isJsSpace)

def lowerAscii (u : UInt16) : UInt16 := if 0x41 ≤ u ∧ u ≤ 0x5A then u + 0x20 else u

/-- `/^##\s+Observed\s+/i`. -/
def isObserved (line : JsString) : Bool :=
  (ascii "##").isPrefixOf line &&
    match takeSpaces (line.drop 2) with
    | none => false
    | some rest => (rest.take 8).map lowerAscii = ascii "observed" && (takeSpaces (rest.drop 8)).isSome

/-- `/^#\s+/`. -/
def isHeading : JsString → Bool
  | 0x23 :: rest => (takeSpaces rest).isSome
  | _ => false

/-- The lines of the summary: below the heading, above the first line that says `Observed`. -/
def summaryLines : Bool → List JsString → List JsString
  | _, [] => []
  | pastHeading, line :: rest =>
    if isObserved line then []
    else if pastHeading then line :: summaryLines true rest
    else if isHeading line then summaryLines true rest
    else if trim line = [] then summaryLines false rest
    else line :: summaryLines true rest

def extractSummaryBody (content : JsString) : JsString := trim (joinLines (summaryLines false (splitLines content)))

/-! ## Nodes -/

def knownKinds : List NodeKind :=
  [.function, .method, .class, .struct, .interface, .module, .constant, .type, .trait, .enum, .other]

def asKind (value : Option Json) : NodeKind :=
  match value with
  | some (.str s) => (knownKinds.find? fun k => kindText k = s).getD .other
  | _ => .other

def asRange (value : Option Json) : JsNumber × JsNumber :=
  match value with
  | some (.arr [.num start, .num stop]) => (start, stop)
  | _ => (.fin 0, .fin 0)

def asClock (value : Option Json) : JsNumber :=
  match value with
  | some (.num n) => n
  | _ => .fin 0

def stripBlakePrefix (s : JsString) : JsString := stripPrefix (ascii "blake3:") s

/-- `id.split("/").pop() ?? id`. -/
def lastSegment (id : JsString) : JsString := (id.splitOn slash).getLast?.getD id

structure ParsedNodeFile where
  node : StoredNode
  body : JsString

/-- A time that cannot be read is the present one. -/
def readLastSeen (rt : Runtime) (now : JsNumber) (text : Option JsString) : JsNumber :=
  match text with
  | none => now
  | some s =>
    let date := if s ≠ [] then parseDate rt.otherDate s else now
    if date.isFinite then date else now

def parseNodeMarkdown (rt : Runtime) (now : JsNumber) (text : JsString) : ParsedNodeFile :=
  let parsed := parseFrontmatter rt text
  let data := parsed.data
  let id := (stringField "id" data).getD []
  let name := (stringField "name" data).getD (lastSegment id)
  let body := extractSummaryBody parsed.content
  { node :=
      { id, name
        qualifiedName := (stringField "qualified_name" data).getD name
        kind := asKind (dataField "kind" data)
        file := (stringField "file" data).getD []
        language := (stringField "language" data).getD (ascii "unknown")
        range := asRange (dataField "range" data)
        astHash := ((stringField "ast_hash" data).map stripBlakePrefix).getD []
        summary := some body
        lastSeen := readLastSeen rt now (stringField "last_seen" data)
        logicalClock := asClock (dataField "logical_clock" data)
        lastModifiedBy := (stringField "last_modified_by" data).filter (· ≠ []) }
    body }

end Hayven.Graph
