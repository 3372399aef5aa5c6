import Mathlib.Data.List.Sort
import Hayven.Db.ChangePack
import Hayven.Lib.JsonText
import Hayven.Lib.TextStream
/-!
# The context server

`mcp/context_server.ts`: the tool table, the requests that a model host sends, and the loop that
takes them off standard input, one in a line, and writes the responses. The two packers that the
tools call are parameters, with the runtime's conversions and limits.
-/
open Hayven.Lib Hayven.Db.Pack Hayven.Graph

namespace Hayven.Mcp

def text (s : String) : Json := .str (ascii s)

def number (i : Int) : Json := .num (.fin i)

def object (fields : List (String × Json)) : Json := .obj (fields.map fun p => (ascii p.1, p.2))

/-! ## The tool table -/

def MCP_PROTOCOL_VERSION : String := "2025-06-18"

def SERVER_INFO : Json := object [("name", text "hayven-context"), ("version", text "0.1.0")]

def ERR_PARSE : Int := -32700

def ERR_INVALID_REQUEST : Int := -32600

def ERR_METHOD_NOT_FOUND : Int := -32601

def ERR_INVALID_PARAMS : Int := -32602

def ERR_INTERNAL : Int := -32603

def MAX_REGION_LINE : Int := 10000000

def MAX_REGIONS : Nat := 1024

def MAX_SYMBOLS : Nat := 1024

def lineSchema (description : String) : Json :=
  object [("type", text "integer"), ("minimum", number 1), ("maximum", number MAX_REGION_LINE),
    ("description", text description)]

def CHANGE_REGION_SCHEMA : Json :=
  object [("type", text "object"),
    ("properties", object [("startLine", lineSchema "1-based inclusive first changed line."),
      ("endLine", lineSchema ("1-based inclusive last changed line; must be >= startLine. There is NO " ++
        "\"whole file\" sentinel — pass the file's real last line."))]),
    ("required", .arr [text "startLine", text "endLine"]), ("additionalProperties", .bool false)]

def countSchema (minimum : Int) (description : String) : Json :=
  object [("type", text "integer"), ("minimum", number minimum), ("description", text description)]

def PACK_OPT_PROPERTIES : List (String × Json) :=
  [("neighbors", object [("type", text "boolean"),
      ("description", text "Include 1-hop callee/ref neighbors (default true).")]),
    ("maxNeighbors", countSchema 0 "Max neighbor slices (default 10; 0 = none)."),
    ("maxHeaderLines", countSchema 0 "Max lines pulled into the module-scope header (default 120)."),
    ("maxRefSliceLines", countSchema 1 "Cap an included referenced-type slice to its first N lines (default 12).")]

def UNSUPPORTED_PACK_OPTS : List (String × String) :=
  [("maxCallers", "the incoming-caller hop is implemented but not yet exposed here: the " ++
      "whole-file fallback can discard the cross-file slices it adds"),
    ("importedSymbols", "cross-file imported non-node symbols are implemented but not yet exposed " ++
      "here: the pass costs one uncached scan per root and the root count is uncapped")]

def PRIOR_SCHEMA : Json :=
  object [("type", text "object"),
    ("description", text ("The previous StableContextResult returned by either tool. Pass it back to " ++
      "make this call APPEND-ONLY against it (the preserved prefix keeps a warm " ++
      "prompt cache). The continuation lives entirely in this data — the server " ++
      "holds no session state. Omit on the first call."))]

structure Tool where
  name : String
  description : String
  properties : List (String × Json)
  required : List String

def TOOLS : List Tool :=
  [{ name := "context_for_change"
     description := "Minimal, line-exact context pack for editing REGIONS of a file: the file's " ++
       "module header + each changed entity body + 1-hop callee/ref dependencies, " ++
       "never worse than reading the whole file. Returns a StableContextResult " ++
       "(text + contentKey + order + estTokens + stablePrefixBytes + " ++
       "priorFullyPreserved + notes). Pass the prior result back as `prior` for an " ++
       "append-only, cache-stable extension across a growing change set."
     properties := [("file", object [("type", text "string"),
         ("description", text "Repo-relative path of the file being changed.")]),
       ("regions", object [("type", text "array"), ("items", CHANGE_REGION_SCHEMA),
         ("description", text "The changed line regions (1-based inclusive).")]),
       ("prior", PRIOR_SCHEMA)] ++ PACK_OPT_PROPERTIES
     required := ["file", "regions"] },
   { name := "context_for_symbols"
     description := "Minimal, line-exact context pack for a set of SYMBOLS: each resolved " ++
       "entity's body + its 1-hop callee/ref deps, deduped, with one shared module " ++
       "skeleton per file. Returns a StableContextResult (same shape as " ++
       "context_for_change). Pass the prior result back as `prior` for an " ++
       "append-only, cache-stable extension across a growing symbol set."
     properties := [("symbols", object [("type", text "array"), ("items", object [("type", text "string")]),
         ("description", text "Entity ids (or fuzzy symbol names) to pack.")]),
       ("prior", PRIOR_SCHEMA)] ++ PACK_OPT_PROPERTIES
     required := ["symbols"] }]

/-- A tool as `tools/list` shows it. -/
def Tool.listed (t : Tool) : Json :=
  object [("name", text t.name), ("description", text t.description),
    ("inputSchema", object [("type", text "object"), ("properties", object t.properties),
      ("required", .arr (t.required.map text)), ("additionalProperties", .bool false)])]

/-! ## The host -/

/-- What the runtime adds: its numbers, the text of what `Object.prototype` has under a key, the
messages of its errors, and the longest string it can make. -/
structure Runtime where
  numberText : NumberText
  inherited : JsString → Option JsString
  conversionError : JsString
  stringError : JsString
  maxStringLength : Nat

structure StableContextOptions where
  neighbors : Option Bool
  maxNeighbors : Option Nat
  maxHeaderLines : Option Nat
  maxRefSliceLines : Option Nat
  prior : Option Json

/-- A pack's text, and its other fields as they are written. -/
structure StableContextResult where
  text : JsString
  others : List (JsString × Json)

/-- `db/context_helper.ts` over the open index; an error is the message of what it throws. -/
structure Packers where
  contextForChange : JsString → List ChangeRegion → StableContextOptions → Except JsString (Option StableContextResult)
  contextForSymbols : List JsString → StableContextOptions → Except JsString (Option StableContextResult)

structure ContextMcpServer where
  runtime : Runtime
  files : Files
  repoRoot : JsString
  packers : Packers

/-! ## Reading the arguments -/

/-- An array index: decimal digits with none to spare, below `2 ^ 32 - 1`. -/
def isIndex (k : JsString) : Bool := k = decDigits (decValue k) && decValue k < 2 ^ 32 - 1

/-- `Object.keys`: the indices in order, then the other keys as they first came. -/
def objectKeys : Json → List JsString
  | .arr items => (List.range items.length).map decDigits
  | .obj fields =>
    let keys := (fields.map Prod.fst).eraseDups
    (keys.filter isIndex).insertionSort (fun a b => decValue a ≤ decValue b) ++ keys.filter fun k => !isIndex k
  | _ => []

/-- What `UNSUPPORTED_PACK_OPTS[key]` reads as in a message, its prototype's members included. -/
def unsupportedReason (rt : Runtime) (key : JsString) : Option JsString :=
  match UNSUPPORTED_PACK_OPTS.find? fun p => ascii p.1 = key with
  | some p => some (ascii p.2)
  | none => rt.inherited key

def rejectUnknownArgs (rt : Runtime) (tool : Tool) (args : Json) : Option JsString :=
  ((objectKeys args).find? fun key => tool.properties.all fun p => ascii p.1 ≠ key).map fun key =>
    match unsupportedReason rt key with
    | some reason => ascii "`" ++ key ++ ascii "` is not supported here: " ++ reason ++ ascii "."
    | none => ascii "unknown argument `" ++ key ++ ascii "` for " ++ ascii tool.name ++
        ascii " (schema is additionalProperties: false)."

def MAX_PACK_OPT : Nat := 100000

/-- The integer that a value is: `Number.isInteger(v)`. -/
def integer : Json → Option Int
  | .num (.fin q) => if q.den = 1 then some q.num else none
  | _ => none

/-- One integer knob, which may be absent. -/
def readIntOpt (rt : Runtime) (args : Json) (key : String) (min : Nat) : Except JsString (Option Nat) :=
  match args.field key with
  | none => .ok none
  | some v =>
    match integer v with
    | none => .error (ascii "`" ++ ascii key ++ ascii "` must be an integer.")
    | some n =>
      if n < min then
        .error (ascii "`" ++ ascii key ++ ascii "` must be >= " ++ decDigits min ++ ascii " (got " ++
          rt.numberText.print n ++ ascii ").")
      else if MAX_PACK_OPT < n then
        .error (ascii "`" ++ ascii key ++ ascii "` must be <= " ++ decDigits MAX_PACK_OPT ++ ascii " (got " ++
          rt.numberText.print n ++ ascii ").")
      else .ok (some n.toNat)

def isStableResultish (v : Json) : Bool := (v.arrField "order").isSome

def readNeighbors (args : Json) : Except JsString (Option Bool) :=
  match args.field "neighbors" with
  | none => .ok none
  | some (.bool b) => .ok (some b)
  | some _ => .error (ascii "`neighbors` must be a boolean.")

def packOptsFrom (rt : Runtime) (args : Json) : Except JsString StableContextOptions := do
  let neighbors ← readNeighbors args
  let maxNeighbors ← readIntOpt rt args "maxNeighbors" 0
  let maxHeaderLines ← readIntOpt rt args "maxHeaderLines" 0
  let maxRefSliceLines ← readIntOpt rt args "maxRefSliceLines" 1
  .ok ⟨neighbors, maxNeighbors, maxHeaderLines, maxRefSliceLines, (args.field "prior").filter isStableResultish⟩

def readRegion (rt : Runtime) (r : Json) : Except JsString ChangeRegion :=
  if !r.isObject then .error (ascii "each region must be an object with numeric `startLine` and `endLine`.")
  else
    match (r.field "startLine").bind integer, (r.field "endLine").bind integer with
    | some startLine, some endLine =>
      if startLine < 1 ∨ endLine < 1 then
        .error (ascii "region lines are 1-based; `startLine` and `endLine` must be >= 1.")
      else if endLine < startLine then .error (ascii "each region must have `endLine` >= `startLine`.")
      else if MAX_REGION_LINE < endLine then
        .error (ascii "region `endLine` exceeds the " ++ intText MAX_REGION_LINE ++ ascii "-line limit (got " ++
          rt.numberText.print endLine ++ ascii ").")
      else .ok ⟨startLine, endLine⟩
    | _, _ => .error (ascii "each region must be an object with integer `startLine` and `endLine`.")

def readRegions (rt : Runtime) : Option Json → Except JsString (List ChangeRegion)
  | some (.arr raw) =>
    if MAX_REGIONS < raw.length then
      .error (ascii "too many regions (" ++ decDigits raw.length ++ ascii " > " ++ decDigits MAX_REGIONS ++ ascii ").")
    else raw.mapM (readRegion rt)
  | _ => .error (ascii "`regions` must be an array of \x7bstartLine,endLine\x7d.")

/-! ## The dispatcher -/

def content (message : JsString) : Json := .arr [object [("type", text "text"), ("text", .str message)]]

def toolResult (result : StableContextResult) : Json :=
  object [("content", content result.text),
    ("structuredContent", .obj ((ascii "text", .str result.text) :: result.others))]

def toolError (message : JsString) : Json := object [("content", content message), ("isError", .bool true)]

/-- A response under a request's `id`, which may be absent. -/
def response (id : Option Json) (outcome : String) (value : Json) : Json :=
  object [("jsonrpc", text "2.0"), ("id", id.getD .null), (outcome, value)]

def ok (id : Option Json) (result : Json) : Json := response id "result" result

def fail (id : Option Json) (code : Int) (message : JsString) : Json :=
  response id "error" (object [("code", number code), ("message", .str message)])

/-- The failure that also names what there is. -/
def failWith (id : Option Json) (code : Int) (message : JsString) (data : Json) : Json :=
  response id "error" (object [("code", number code), ("message", .str message), ("data", data)])

def outsideMessage : JsString :=
  ascii ("`file` is not a packable repo-relative source path — it resolves outside the " ++
    "repository, or is a path the indexer does not read (hidden, build output, " ++
    "credential-shaped, or not a supported source language).")

def readFile (args : Json) : Except JsString JsString :=
  match (args.strField "file").filter (· ≠ []) with
  | some file => .ok file
  | none => .error (ascii "`file` (string) is required.")

/-- What the packer is to be called with, or the message of the refusal. -/
def changeArgs (s : ContextMcpServer) (args : Json) :
    Except JsString (JsString × List ChangeRegion × StableContextOptions) := do
  let file ← readFile args
  if isAbsolute file then .error (ascii "`file` must be repo-relative, not absolute.")
  else if (resolveWithinRepo s.files s.repoRoot file).isNone then .error outsideMessage
  else
    let regions ← readRegions s.runtime (args.field "regions")
    let opts ← packOptsFrom s.runtime args
    .ok (file, regions, opts)

def stringItems (items : List Json) : Option (List JsString) :=
  items.mapM fun j => match j with | .str t => some t | _ => none

def readSymbols (args : Json) : Except JsString (List JsString) :=
  match (args.arrField "symbols").bind stringItems with
  | some symbols => .ok symbols
  | none => .error (ascii "`symbols` must be an array of strings.")

def symbolArgs (s : ContextMcpServer) (args : Json) : Except JsString (List JsString × StableContextOptions) := do
  let symbols ← readSymbols args
  if symbols = [] then .error (ascii "`symbols` must be non-empty.")
  else if MAX_SYMBOLS < symbols.length then
    .error (ascii "too many symbols (" ++ decDigits symbols.length ++ ascii " > " ++ decDigits MAX_SYMBOLS ++ ascii ").")
  else
    let opts ← packOptsFrom s.runtime args
    .ok (symbols, opts)

/-- A tool's answer: its arguments are checked against its schema, read, and given to its packer. -/
def answerTool {α : Type} (rt : Runtime) (tool : Tool) (id : Option Json) (args : Json) (read : Except JsString α)
    (pack : α → Except JsString (Option StableContextResult)) (unresolved : α → JsString) : Except JsString Json :=
  match rejectUnknownArgs rt tool args with
  | some message => .ok (fail id ERR_INVALID_PARAMS message)
  | none =>
    match read with
    | .error message => .ok (fail id ERR_INVALID_PARAMS message)
    | .ok a => do
      match ← pack a with
      | none => .ok (ok id (toolError (unresolved a)))
      | some result => .ok (ok id (toolResult result))

def changeUnresolved (file : JsString) : JsString :=
  ascii "no context resolved for changes to `" ++ file ++
    ascii "` (no enclosing entity and no readable module frame)."

def symbolsUnresolved (symbols : List JsString) : JsString :=
  ascii "no context resolved — none of [" ++ (ascii ", ").intercalate symbols ++ ascii "] matched an indexed symbol."

/-- `String(name)`, which throws for some objects. -/
def nameText (rt : Runtime) : Option Json → Except JsString JsString
  | none => .ok (ascii "undefined")
  | some name =>
    match name.toJsString rt.numberText with
    | some s => .ok s
    | none => .error rt.conversionError

def callTool (s : ContextMcpServer) (id params : Option Json) : Except JsString Json :=
  match params.filter Json.isObject with
  | none => .ok (fail id ERR_INVALID_PARAMS (ascii "`tools/call` params must be an object."))
  | some params =>
    let args := ((params.field "arguments").filter Json.isObject).getD (.obj [])
    match TOOLS.find? fun t => params.strField "name" = some (ascii t.name) with
    | some tool =>
      if tool.name = "context_for_change" then
        answerTool s.runtime tool id args (changeArgs s args)
          (fun a => s.packers.contextForChange a.1 a.2.1 a.2.2) (fun a => changeUnresolved a.1)
      else
        answerTool s.runtime tool id args (symbolArgs s args)
          (fun a => s.packers.contextForSymbols a.1 a.2) (fun a => symbolsUnresolved a.1)
    | none => do
      let name ← nameText s.runtime (params.field "name")
      .ok (failWith id ERR_INVALID_PARAMS (ascii "unknown tool: " ++ name)
        (object [("available", .arr (TOOLS.map fun t => text t.name))]))

/-- A request that is a value with fields; an error is the message of an exception. -/
def dispatch (s : ContextMcpServer) (req : Json) : Except JsString (Option Json) :=
  let id := req.field "id"
  match (req.strField "jsonrpc").filter (· = ascii "2.0"), req.strField "method" with
  | some _, some method =>
    if method = ascii "initialize" then
      .ok (some (ok id (object [("protocolVersion", text MCP_PROTOCOL_VERSION),
        ("capabilities", object [("tools", object [])]), ("serverInfo", SERVER_INFO)])))
    else if method = ascii "notifications/initialized" ∨ method = ascii "initialized" then .ok none
    else if method = ascii "tools/list" then .ok (some (ok id (object [("tools", .arr (TOOLS.map Tool.listed))])))
    else if method = ascii "tools/call" then
      if id.isNone then .ok none else (callTool s id (req.field "params")).map some
    else if method = ascii "ping" then .ok (some (ok id (object [])))
    else if id.isNone then .ok none
    else .ok (some (fail id ERR_METHOD_NOT_FOUND (ascii "method not found: " ++ method)))
  | _, _ =>
    if id.isNone then .ok none
    else .ok (some (fail id ERR_INVALID_REQUEST (ascii "not a JSON-RPC 2.0 request.")))

/-- The response, where there is one. On `null` it throws: reading its `id` does, and the guard
around the dispatcher reads it again. -/
def handle (s : ContextMcpServer) : Json → Option (Option Json)
  | .null => none
  | req =>
    match dispatch s req with
    | .ok resp => some resp
    | .error message =>
      if (req.field "id").isNone then some none
      else some (some (fail (req.field "id") ERR_INTERNAL (ascii "internal error: " ++ message)))

/-! ## The loop -/

def MAX_PENDING_LINE_CHARS : Nat := 64 * 1024 * 1024

def MAX_RESPONSE_CHARS : Nat := 16 * 1024 * 1024

def writeLine (rt : Runtime) (resp : Json) : JsString := stringify rt.numberText resp ++ [lineFeed]

def tooLargeMessage (length : Nat) : JsString :=
  ascii "response of " ++ decDigits length ++ ascii " chars exceeds the " ++ decDigits MAX_RESPONSE_CHARS ++
    ascii ("-char limit — narrow the request (fewer regions/symbols, or a smaller file)")

/-- The line that is written for a response. -/
def emit (rt : Runtime) (resp : Json) : JsString :=
  let length := (stringify rt.numberText resp).length
  if rt.maxStringLength < length then
    writeLine rt (fail (resp.field "id") ERR_INTERNAL (ascii "response could not be serialized: " ++ rt.stringError))
  else if MAX_RESPONSE_CHARS < length then
    writeLine rt (fail (resp.field "id") ERR_INTERNAL (tooLargeMessage length))
  else writeLine rt resp

/-- What a line gets written; none where the handler throws. -/
def processLine (s : ContextMcpServer) (line : JsString) : Option (List JsString) :=
  let trimmed := trim line
  if trimmed = [] then some []
  else match parseJson trimmed with
    | none => some [emit s.runtime (fail none ERR_PARSE (ascii "parse error"))]
    | some req => (handle s req).map fun resp => (resp.map (emit s.runtime)).toList

def tooLong (rt : Runtime) : JsString :=
  emit rt (fail none ERR_INVALID_REQUEST
    (ascii "line exceeds " ++ decDigits MAX_PENDING_LINE_CHARS ++ ascii " chars — discarded"))

inductive Chunk where
  | text (s : JsString)
  | bytes (b : Bytes)

/-- The loop between two chunks: the decoder, the pieces of the line under way with their length,
and whether the rest of an over-long line is being discarded. -/
structure Loop where
  decoder : StreamDecoder
  pending : List JsString
  pendingLen : Nat
  skipping : Bool

def Loop.start : Loop := ⟨.fresh, [], 0, false⟩

/-- What was written, and whether no exception has ended the loop. -/
abbrev Output := List JsString × Bool

/-- More output, unless the loop has ended. -/
def Output.andThen (a b : Output) : Output := if a.2 then (a.1 ++ b.1, b.2) else a

def outputOf : Option (List JsString) → Output
  | some written => (written, true)
  | none => ([], false)

/-- The lines that a chunk ends, one after another, and the loop after them. -/
def drain (s : ContextMcpServer) (loop : Loop) : List JsString → Output × Loop
  | [] => (([], true), loop)
  | piece :: pieces =>
    let next : Loop := { loop with pending := [], pendingLen := 0 }
    let first : Output :=
      if MAX_PENDING_LINE_CHARS < loop.pendingLen + piece.length then ([tooLong s.runtime], true)
      else outputOf (processLine s (if loop.pendingLen = 0 then piece else loop.pending.flatten ++ piece))
    let rest := drain s next pieces
    (first.andThen rest.1, rest.2)

/-- What a chunk has after its last line feed. -/
def hold (s : ContextMcpServer) (loop : Loop) (rest : JsString) : Output × Loop :=
  if MAX_PENDING_LINE_CHARS < loop.pendingLen + rest.length then
    (([tooLong s.runtime], true), { loop with pending := [], pendingLen := 0, skipping := true })
  else if 0 < rest.length then
    (([], true), { loop with pending := loop.pending ++ [rest], pendingLen := loop.pendingLen + rest.length })
  else (([], true), loop)

/-- A text that is not inside an over-long line. -/
def takeText (s : ContextMcpServer) (loop : Loop) (text : JsString) : Output × Loop :=
  let drained := drain s loop (rawLines text).1
  let held := hold s drained.2 (rawLines text).2
  (drained.1.andThen held.1, held.2)

/-- The text after the first line feed. -/
def afterLineFeed (text : JsString) : Option JsString := (text.dropWhile (· ≠ lineFeed)).tail?

/-- What a chunk says, and the decoder after it. -/
def decodeChunk (d : StreamDecoder) : Chunk → JsString × StreamDecoder
  | .text t => (t, d)
  | .bytes b => d.feed b

def takeChunk (s : ContextMcpServer) (loop : Loop) (chunk : Chunk) : Output × Loop :=
  let decoded := decodeChunk loop.decoder chunk
  let loop := { loop with decoder := decoded.2 }
  if loop.skipping then
    match afterLineFeed decoded.1 with
    | none => (([], true), loop)
    | some rest => takeText s { loop with skipping := false } rest
  else takeText s loop decoded.1

/-- The rest of the stream, and the line at its end that nothing terminates. -/
def run (s : ContextMcpServer) (loop : Loop) : List Chunk → Output
  | [] =>
    if !loop.skipping && 0 < loop.pendingLen then outputOf (processLine s loop.pending.flatten) else ([], true)
  | chunk :: chunks =>
    let taken := takeChunk s loop chunk
    taken.1.andThen (run s taken.2 chunks)

def runStdioLoop (s : ContextMcpServer) (input : List Chunk) : Output := run s .start input

end Hayven.Mcp
