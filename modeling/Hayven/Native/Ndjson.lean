import Hayven.Graph.IdScheme
import Hayven.Lib.Json
import Hayven.Lib.JsonText
import Hayven.Lib.JsonWriter
import Hayven.Lib.TextStream
import Hayven.Native.Watcher
/-!
# The record stream of the native side

`native/protocol.ts`: the line reader over the child's bytes, and what `parseLine` makes of a
line. On the other side `native/src/proto.rs` and `watch/mod.rs`: the node, edge, change and
overflow records, and the line `serde_json` writes for each.
-/
open Hayven.Lib

namespace Hayven.Native

/-! ## The line reader -/

structure NdjsonLineReader where
  decoder : StreamDecoder
  buf : JsString
  lines : List JsString

namespace NdjsonLineReader

def fresh : NdjsonLineReader := ⟨.fresh, [], []⟩

def push (r : NdjsonLineReader) (chunk : Bytes) : NdjsonLineReader :=
  let decoded := r.decoder.feed chunk
  let cut := cutLines (r.buf ++ decoded.1)
  ⟨decoded.2, cut.2, r.lines ++ cut.1⟩

/-- What is left after the end of the stream is a line. -/
def flush (r : NdjsonLineReader) : NdjsonLineReader :=
  if r.buf.length > 0 then { r with lines := r.lines ++ [r.buf], buf := [] } else r

def drain (r : NdjsonLineReader) : List JsString × NdjsonLineReader := (r.lines, { r with lines := [] })

end NdjsonLineReader

inductive ReaderOp where
  | push (chunk : Bytes)
  | drain

/-- The lines that the drains give, and the reader after them. -/
def NdjsonLineReader.run : NdjsonLineReader → List ReaderOp → List JsString × NdjsonLineReader
  | r, [] => ([], r)
  | r, .push chunk :: ops => (r.push chunk).run ops
  | r, .drain :: ops => (r.drain.1 ++ (r.drain.2.run ops).1, (r.drain.2.run ops).2)

/-- Every line of a stream that is read to its end. -/
def linesRead (ops : List ReaderOp) : List JsString :=
  let done := NdjsonLineReader.fresh.run ops
  done.1 ++ done.2.flush.drain.1

/-- The bytes that were pushed, in order. -/
def pushedBytes : List ReaderOp → Bytes
  | [] => []
  | .push chunk :: ops => chunk ++ pushedBytes ops
  | .drain :: ops => pushedBytes ops

/-! ## Records

Both sides have the same fields; they differ in what a string and a number is. -/

structure WireNode (σ ν : Type) where
  file : σ
  name : σ
  qualifiedName : σ
  kind : σ
  language : σ
  range : ν × ν
  astHash : σ

/-- `{local, imported}` of an aliased import. -/
structure WireAlias (σ : Type) where
  localName : σ
  imported : σ

structure WireEdge (σ ν : Type) where
  srcFile : σ
  srcName : σ
  dstName : σ
  kind : σ
  receiver : Option σ
  receiverChain : Option (List σ)
  localNames : Option (List σ)
  importAliases : Option (List (WireAlias σ))
  line : Option ν
  col : Option ν

structure WireChange (σ ν : Type) where
  file : σ
  kind : ChangeKind
  tsMs : ν
  fromPath : Option σ

structure WireOverflow (ν : Type) where
  dropped : ν
  sinceMs : ν

section Map
variable {σ τ ν μ : Type} (f : σ → τ) (g : ν → μ)

def WireNode.map (n : WireNode σ ν) : WireNode τ μ :=
  ⟨f n.file, f n.name, f n.qualifiedName, f n.kind, f n.language, (g n.range.1, g n.range.2), f n.astHash⟩

def WireAlias.map (a : WireAlias σ) : WireAlias τ := ⟨f a.localName, f a.imported⟩

def WireEdge.map (e : WireEdge σ ν) : WireEdge τ μ :=
  ⟨f e.srcFile, f e.srcName, f e.dstName, f e.kind, e.receiver.map f, e.receiverChain.map (List.map f),
    e.localNames.map (List.map f), e.importAliases.map (List.map (WireAlias.map f)), e.line.map g, e.col.map g⟩

def WireChange.map (c : WireChange σ ν) : WireChange τ μ := ⟨f c.file, c.kind, g c.tsMs, c.fromPath.map f⟩

def WireOverflow.map (o : WireOverflow ν) : WireOverflow μ := ⟨g o.dropped, g o.sinceMs⟩

end Map

/-- `NativeRecord`. -/
inductive NativeRecord where
  | version (major minor patch protocol : JsNumber)
  | start (filesTotal : JsNumber) (version : JsString)
  | node (n : WireNode JsString JsNumber)
  | edge (e : WireEdge JsString JsNumber)
  | progress (filesDone : JsNumber)
  | warn (file : Option JsString) (message : JsString)
  | done (filesDone nodes edges elapsedMs : JsNumber)
  | ready (platform backend : JsString)
  | change (c : WireChange JsString JsNumber)
  | overflow (o : WireOverflow JsNumber)
  | heartbeat (tsMs : JsNumber)
  | fatal (message : JsString)

/-- A `ProtocolError`, or the error of a value that has no text. -/
inductive ProtocolFault where
  | protocolError (message line : JsString)
  | noText

/-! ## Validation -/

section Validate
variable (line : JsString)

def asString (label : String) : Option Json → Except ProtocolFault JsString
  | some (.str s) => .ok s
  | _ => .error (.protocolError (ascii label ++ ascii " must be a string") line)

/-- The finite numbers. -/
def finite? : Option Json → Option JsNumber
  | some (.num (.fin q)) => some (.fin q)
  | _ => none

def asNumber (label : String) (value : Option Json) : Except ProtocolFault JsNumber :=
  match finite? value with
  | some n => .ok n
  | none => .error (.protocolError (ascii label ++ ascii " must be a finite number") line)

def asRange (label : String) : Option Json → Except ProtocolFault (JsNumber × JsNumber)
  | some (.arr [.num a, .num b]) => .ok (a, b)
  | _ => .error (.protocolError (ascii label ++ ascii " must be [number, number]") line)

def string? : Option Json → Option JsString
  | some (.str s) => some s
  | _ => none

def items? : Option Json → Option (List Json)
  | some (.arr items) => some items
  | _ => none

/-- The strings of an array of strings. -/
def everyString (items : List Json) : Option (List JsString) :=
  if items.all fun j => (string? (some j)).isSome then some (items.filterMap fun j => string? (some j)) else none

/-- A well-formed alias pair. -/
def alias? (j : Json) : Option (WireAlias JsString) :=
  match string? (j.field "local"), string? (j.field "imported") with
  | some localName, some imported => some ⟨localName, imported⟩
  | _, _ => none

def changeKind? (kind : JsString) : Option ChangeKind :=
  if kind = ascii "create" then some .create
  else if kind = ascii "modify" then some .modify
  else if kind = ascii "delete" then some .delete
  else if kind = ascii "rename" then some .rename
  else none

def validateNode (obj : Json) : Except ProtocolFault (WireNode JsString JsNumber) := do
  let file ← asString line "node.file" (obj.field "file")
  let name ← asString line "node.name" (obj.field "name")
  let qualifiedName ← asString line "node.qualified_name" (obj.field "qualified_name")
  let kind ← asString line "node.kind" (obj.field "kind")
  let language ← asString line "node.language" (obj.field "language")
  let range ← asRange line "node.range" (obj.field "range")
  let astHash ← asString line "node.ast_hash" (obj.field "ast_hash")
  return ⟨file, name, qualifiedName, kind, language, range, astHash⟩

/-- An empty chain and an empty list of aliases are left out; an empty list of local names is not. -/
def validateEdge (obj : Json) : Except ProtocolFault (WireEdge JsString JsNumber) := do
  let srcFile ← asString line "edge.src_file" (obj.field "src_file")
  let srcName ← asString line "edge.src_name" (obj.field "src_name")
  let dstName ← asString line "edge.dst_name" (obj.field "dst_name")
  let kind ← asString line "edge.kind" (obj.field "kind")
  return {
    srcFile, srcName, dstName, kind
    receiver := string? (obj.field "receiver")
    receiverChain := ((items? (obj.field "receiver_chain")).bind everyString).filter fun chain => !chain.isEmpty
    localNames := (items? (obj.field "local")).map fun items => items.filterMap fun j => string? (some j)
    importAliases := ((items? (obj.field "import_aliases")).map fun items => items.filterMap alias?).filter
      fun aliases => !aliases.isEmpty
    line := finite? (obj.field "line")
    col := finite? (obj.field "col") }

def validateChange (obj : Json) : Except ProtocolFault (WireChange JsString JsNumber) := do
  let kind ← asString line "change.kind" (obj.field "kind")
  match changeKind? kind with
  | none => .error (.protocolError (ascii "change.kind must be create|modify|delete|rename, got " ++ kind) line)
  | some kind =>
    let file ← asString line "change.file" (obj.field "file")
    let tsMs ← asNumber line "change.ts_ms" (obj.field "ts_ms")
    return ⟨file, kind, tsMs, string? (obj.field "from")⟩

def unknownType (rt : NumberText) (type : Option Json) : ProtocolFault :=
  match type with
  | none => .protocolError (ascii "unknown record type: undefined") line
  | some j =>
    match j.toJsString rt with
    | some text => .protocolError (ascii "unknown record type: " ++ text) line
    | none => .noText

def validateRecord (rt : NumberText) (obj : Json) : Except ProtocolFault NativeRecord :=
  if !obj.isObject then .error (.protocolError (ascii "not an object") line)
  else
    let number (label field : String) := asNumber line label (obj.field field)
    let text (label field : String) := asString line label (obj.field field)
    match string? (obj.field "type") with
    | none => .error (unknownType line rt (obj.field "type"))
    | some type =>
      if type = ascii "version" then do
        let major ← number "version.major" "major"
        let minor ← number "version.minor" "minor"
        let patch ← number "version.patch" "patch"
        return .version major minor patch (← number "version.protocol" "protocol")
      else if type = ascii "start" then do
        let filesTotal ← number "start.files_total" "files_total"
        return .start filesTotal (← text "start.version" "version")
      else if type = ascii "node" then .node <$> validateNode line obj
      else if type = ascii "edge" then .edge <$> validateEdge line obj
      else if type = ascii "progress" then .progress <$> number "progress.files_done" "files_done"
      else if type = ascii "warn" then .warn (string? (obj.field "file")) <$> text "warn.message" "message"
      else if type = ascii "done" then do
        let filesDone ← number "done.files_done" "files_done"
        let nodes ← number "done.nodes" "nodes"
        let edges ← number "done.edges" "edges"
        return .done filesDone nodes edges (← number "done.elapsed_ms" "elapsed_ms")
      else if type = ascii "ready" then do
        let platform ← text "ready.platform" "platform"
        return .ready platform (← text "ready.backend" "backend")
      else if type = ascii "change" then .change <$> validateChange line obj
      else if type = ascii "overflow" then do
        let dropped ← number "overflow.dropped" "dropped"
        return .overflow ⟨dropped, ← number "overflow.since_ms" "since_ms"⟩
      else if type = ascii "heartbeat" then .heartbeat <$> number "heartbeat.ts_ms" "ts_ms"
      else if type = ascii "fatal" then .fatal <$> text "fatal.message" "message"
      else .error (unknownType line rt (some (.str type)))

end Validate

/-- `parseLine`; what `JSON.parse` says of a text it rejects is the runtime's. -/
def parseLine (rt : NumberText) (syntaxError : JsString → JsString) (line : JsString) :
    Except ProtocolFault NativeRecord :=
  let trimmed := Graph.trim line
  if trimmed.length = 0 then .error (.protocolError (ascii "empty line") line)
  else
    match parseJson trimmed with
    | none => .error (.protocolError (ascii "invalid JSON: " ++ syntaxError trimmed) line)
    | some parsed => validateRecord line rt parsed

/-! ## What the native side writes -/

/-- A count, a line or a time, below the integers that a double may miss. -/
structure WireCount where
  val : Nat
  exact : val < 2 ^ 53

def WireCount.number (n : WireCount) : JsNumber := .fin n.val

/-- The body of a string literal: `serde_json` escapes quotes, backslashes and control characters. -/
def serdeStr (s : List Char) : Written := .str (quoteBody (toUtf16 s))

def serdeCount (n : WireCount) : Written := .num (intText n.val)

def serdeList {α : Type} (write : α → Written) (items : List α) : Written := .arr (items.map write)

/-- `skip_serializing_if = "Option::is_none"`. -/
def serdeOption {α : Type} (key : String) (write : α → Written) : Option α → List (JsString × Written)
  | none => []
  | some a => [(ascii key, write a)]

def serdeAlias (a : WireAlias (List Char)) : Written :=
  .obj [(ascii "local", serdeStr a.localName), (ascii "imported", serdeStr a.imported)]

/-- A record with its tag. -/
def tagged (type : String) (fields : List (JsString × Written)) : Written :=
  .obj ((ascii "type", .str (ascii type)) :: fields)

def changeKindText : ChangeKind → String
  | .create => "create"
  | .modify => "modify"
  | .delete => "delete"
  | .rename => "rename"

/-- The extractor leaves a list out that it would have nothing to put in. -/
structure EmittedEdge extends WireEdge (List Char) WireCount where
  chain_ne : receiverChain ≠ some []
  aliases_ne : importAliases ≠ some []

inductive EmittedRecord where
  | node (n : WireNode (List Char) WireCount)
  | edge (e : EmittedEdge)
  | change (c : WireChange (List Char) WireCount)
  | overflow (o : WireOverflow WireCount)

namespace EmittedRecord

def written : EmittedRecord → Written
  | node n => tagged "node" [(ascii "file", serdeStr n.file), (ascii "name", serdeStr n.name),
      (ascii "kind", serdeStr n.kind), (ascii "qualified_name", serdeStr n.qualifiedName),
      (ascii "language", serdeStr n.language), (ascii "range", serdeList serdeCount [n.range.1, n.range.2]),
      (ascii "ast_hash", serdeStr n.astHash)]
  | edge e => tagged "edge" ([(ascii "src_file", serdeStr e.srcFile), (ascii "src_name", serdeStr e.srcName),
      (ascii "dst_name", serdeStr e.dstName), (ascii "kind", serdeStr e.kind)] ++
      (serdeOption "receiver" serdeStr e.receiver ++ (serdeOption "receiver_chain" (serdeList serdeStr) e.receiverChain ++
      (serdeOption "local" (serdeList serdeStr) e.localNames ++
      (serdeOption "import_aliases" (serdeList serdeAlias) e.importAliases ++
      (serdeOption "line" serdeCount e.line ++ serdeOption "col" serdeCount e.col))))))
  | change c => tagged "change" ([(ascii "file", serdeStr c.file), (ascii "kind", .str (ascii (changeKindText c.kind))),
      (ascii "ts_ms", serdeCount c.tsMs)] ++ serdeOption "from" serdeStr c.fromPath)
  | overflow o => tagged "overflow" [(ascii "dropped", serdeCount o.dropped), (ascii "since_ms", serdeCount o.sinceMs)]

/-- The line without its end. -/
def text (r : EmittedRecord) : JsString := r.written.text

/-- The record with the same fields on the other side. -/
def received : EmittedRecord → NativeRecord
  | node n => .node (n.map toUtf16 WireCount.number)
  | edge e => .edge (e.toWireEdge.map toUtf16 WireCount.number)
  | change c => .change (c.map toUtf16 WireCount.number)
  | overflow o => .overflow (o.map WireCount.number)

end EmittedRecord

end Hayven.Native
