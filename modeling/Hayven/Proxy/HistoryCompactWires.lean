import Hayven.Lib.JsonText
import Hayven.Proxy.HistoryCompact
/-!
# History compaction over the other two wires

OpenAI answers a call by a message that names it, Gemini by a part that names
only the function.
-/

open Hayven.Lib

namespace Hayven.Proxy

/-! ## OpenAI: messages -/

/-- The path in a call's `arguments`, a JSON text. -/
def pathFromArguments (args : Option Json) : Option JsString := do
  let text ← match args with
    | some (.str text) => some text
    | _ => none
  let parsed ← parseJson text
  let path ← parsed.strFieldOr "path" "file_path"
  nonEmpty path

def scanToolCall (s : CallScan) (tc : Json) : CallScan :=
  match tc.strField "id" with
  | none => s
  | some id =>
    match (tc.field "function").bind (·.strField "name") with
    | none => s
    | some name =>
      let path := pathFromArguments ((tc.field "function").bind (·.field "arguments"))
      s.note name (path.map (id, ·)) path

def scanOpenAI (opts : CompactOptions) (msgs : List Json) : CallScan :=
  (msgs.flatMap fun m => (m.arrField "tool_calls").getD []).foldl scanToolCall (.start opts)

def compactToolMessage (repo : Repo) (intentText : JsString) (opts : CompactOptions) (scan : CallScan) (cutoff : JsNumber)
    (i : Nat) (m : Json) : Json × List CompactStat :=
  if isRecent i cutoff then (m, [])
  else if m.strField "role" = some (ascii "tool") then
    match m.strField "tool_call_id" with
    | none => (m, [])
    | some id =>
      match compactText repo (scan.readPathById.get id) (toolResultText (m.field "content")) intentText
          (optsWithEdits opts scan.editedFiles) with
      | none => (m, [])
      | some (text, stat) => (m.setField "content" (.str text), [stat])
  else (m, [])

def compactOpenAIHistory (repo : Repo) (body : Json) (intentText : JsString) (opts : CompactOptions) : CompactResult :=
  match body.arrField "messages" with
  | none => untouched body
  | some msgs =>
    let cutoff := recencyCutoff msgs.length opts
    if noneOld cutoff then untouched body
    else
      let scan := scanOpenAI opts msgs
      if scan.readPathById.keys = [] then untouched body
      else compactResult body "messages" (gather (msgs.mapIdx (compactToolMessage repo intentText opts scan cutoff)))

/-! ## Gemini: parts -/

def responseTextKeys : List String := ["content", "result", "output", "text"]

/-- The first key that holds a text. -/
def responseTextField (response : Json) : Option (String × JsString) :=
  responseTextKeys.findSome? fun key => (response.strField key).map (key, ·)

/-- The path in a call's `args`. -/
def callPath (args : Option Json) : Option JsString :=
  args.bind fun args => (args.strField "path").or (args.strField "file_path")

/-- The name and the path of the function call a part makes. -/
def partCall (p : Json) : Option (JsString × Option JsString) := do
  let fc ← p.field "functionCall"
  let name ← fc.strField "name"
  return (name, callPath (fc.field "args"))

structure GeminiScan where
  sawReadCall : Bool
  editedFiles : List JsString

def scanPart (s : GeminiScan) (p : Json) : GeminiScan :=
  match partCall p with
  | none => s
  | some (name, path) =>
    if name ∈ readToolNames then { s with sawReadCall := true }
    else if name ∈ editToolNames then
      match path.bind nonEmpty with
      | some path => { s with editedFiles := pushNew s.editedFiles path }
      | none => s
    else s

def scanGemini (opts : CompactOptions) (contents : List Json) : GeminiScan :=
  (contents.flatMap fun turn => (turn.arrField "parts").getD []).foldl scanPart ⟨false, opts.editedFiles.getD []⟩

/-- `latestPathByName`. -/
abbrev LatestPaths := KeyedMap JsString JsString

/-- The name of the read call a part makes, with its path. -/
def partReadCall (p : Json) : Option (JsString × Option JsString) := (partCall p).filter (·.1 ∈ readToolNames)

/-- A part's read call moves its name to the path it carries. -/
def notePart (latest : LatestPaths) (p : Json) : LatestPaths :=
  match partReadCall p with
  | some (name, some path) => if path = [] then latest else latest.set name path
  | _ => latest

/-- The read response a part carries: its name, where its text stands and that text. -/
def partResponse (p : Json) : Option (JsString × String × JsString) := do
  let fr ← p.field "functionResponse"
  let name ← fr.strField "name"
  guard (name ∈ readToolNames)
  let response ← fr.field "response"
  let (key, text) ← responseTextField response
  return (name, key, text)

/-- A part whose response text is swapped. -/
def putResponseText (p : Json) (key : String) (text : JsString) : Json :=
  let fr := (p.field "functionResponse").getD .null
  let response := (fr.field "response").getD .null
  p.setField "functionResponse" (fr.setField "response" (response.setField key (.str text)))

def compactPart (repo : Repo) (intentText : JsString) (opts : CompactOptions) (old : Bool) (latest : LatestPaths)
    (p : Json) : Json × List CompactStat :=
  if (partReadCall p).isSome then (p, [])
  else if !old then (p, [])
  else
    match partResponse p with
    | none => (p, [])
    | some (name, key, text) =>
      match compactText repo (latest.get name) text intentText opts with
      | none => (p, [])
      | some (compacted, stat) => (putResponseText p key compacted, [stat])

/-- The parts of one turn, each under the calls made before it. -/
def compactParts (repo : Repo) (intentText : JsString) (opts : CompactOptions) (old : Bool) :
    LatestPaths → List Json → List (Json × List CompactStat)
  | _, [] => []
  | latest, p :: parts =>
    compactPart repo intentText opts old latest p :: compactParts repo intentText opts old (notePart latest p) parts

def compactTurns (repo : Repo) (intentText : JsString) (opts : CompactOptions) (cutoff : JsNumber) :
    Nat → LatestPaths → List Json → List (Json × List CompactStat)
  | _, _, [] => []
  | i, latest, turn :: contents =>
    match turn.arrField "parts" with
    | none => (turn, []) :: compactTurns repo intentText opts cutoff (i + 1) latest contents
    | some parts =>
      let (newParts, stats) := gather (compactParts repo intentText opts (!isRecent i cutoff) latest parts)
      (if stats.isEmpty then turn else turn.setField "parts" (.arr newParts), stats) ::
        compactTurns repo intentText opts cutoff (i + 1) (parts.foldl notePart latest) contents

/-- `none` is the exception that reading `parts` of a `null` turn raises. -/
def compactGeminiHistory (repo : Repo) (body : Json) (intentText : JsString) (opts : CompactOptions) :
    Option CompactResult := do
  let contents ← body.arrField "contents"
  let cutoff := recencyCutoff contents.length opts
  if noneOld cutoff then return untouched body
  if contents.any (·.isNull) then none
  let scan := scanGemini opts contents
  if !scan.sawReadCall then return untouched body
  return compactResult body "contents"
    (gather (compactTurns repo intentText (optsWithEdits opts scan.editedFiles) cutoff 0 .empty contents))

/-! ## The registry -/

/-- `PROVIDERS[p].compactHistory`. -/
def compactHistory (p : ProviderId) (repo : Repo) (body : Json) (intentText : JsString) (opts : CompactOptions) :
    Option CompactResult :=
  match p with
  | .anthropic =>
    if (body.arrField "messages").isSome then compactAnthropicHistory repo body intentText opts else some (untouched body)
  | .openai => some (compactOpenAIHistory repo body intentText opts)
  | .gemini =>
    if (body.arrField "contents").isSome then compactGeminiHistory repo body intentText opts else some (untouched body)

end Hayven.Proxy
