import Hayven.Lib.Json
import Hayven.Lib.KeyedMap
import Hayven.Lib.Lines
/-!
# What the proxy asks of the repository

Gated paths, file texts, the symbols a file defines, the symbols a task
resolves to and the pack cut for them: answers that the proxy's passes take
as they come.
-/

open Hayven.Lib

namespace Hayven.Proxy

/-- What `resolveRepoPath` gives: the canonical spellings. -/
structure RepoPath where
  rel : JsString
  abs : JsString

structure PackKnobs where
  neighbors : Bool
  maxNeighbors : Option Nat
deriving DecidableEq

structure Repo where
  resolveRepoPath : JsString → Option RepoPath
  isPackableFile : JsString → Bool
  readFileSync : JsString → Option JsString
  /-- The ids of a file's nodes, modules left out. -/
  fileSymbolIds : JsString → List JsString
  resolveTaskToSymbols : JsString → Nat → List JsString
  /-- The pack's text. -/
  contextForSymbols : List JsString → PackKnobs → Option JsString

/-- A repository in which no path resolves. -/
def Repo.empty : Repo where
  resolveRepoPath _ := none
  isPackableFile _ := false
  readFileSync _ := none
  fileSymbolIds _ := []
  resolveTaskToSymbols _ _ := []
  contextForSymbols _ _ := none

structure RewriteOptions where
  maxSymbols : Option Nat := none
  neighbors : Option Bool := none
  maxNeighbors : Option Nat := none
deriving DecidableEq

/-- `Math.ceil(chars / 4)`. -/
def estimateTokens (chars : Nat) : Nat := (chars + 3) / 4

inductive ProviderId where
  | anthropic
  | openai
  | gemini
deriving DecidableEq

end Hayven.Proxy

/-!
## History compaction

What an older file read is replaced by, and the three walks that find older
reads: blocks that carry a call's id, messages that do, and parts that carry
only a function's name.
-/

namespace Hayven.Proxy

/-- Tools whose result is the contents of a file. -/
def readToolNames : List JsString := [ascii "Read", ascii "read_file", ascii "view", ascii "cat"]

/-- Tools whose call modifies a file. -/
def editToolNames : List JsString :=
  [ascii "Edit", ascii "Write", ascii "str_replace", ascii "str_replace_editor", ascii "str_replace_based_edit_tool",
    ascii "create", ascii "NotebookEdit"]

structure CompactOptions extends RewriteOptions where
  keepRecentMessages : Option JsNumber := none
  /-- A `Set`, in insertion order. -/
  editedFiles : Option (List JsString) := none

inductive CompactKind where
  | slice
  | pointer
deriving DecidableEq

structure CompactStat where
  path : JsString
  kind : CompactKind
  tokensBefore : Nat
  tokensAfter : Nat

structure CompactStats where
  occurrencesCompacted : Nat
  tokensBefore : Nat
  tokensAfter : Nat
  savedTokens : Int
  perFile : List CompactStat

structure CompactResult where
  body : Json
  stats : CompactStats
  changed : Bool

def summarizeCompaction (perFile : List CompactStat) : CompactStats where
  occurrencesCompacted := perFile.length
  tokensBefore := (perFile.map (·.tokensBefore)).sum
  tokensAfter := (perFile.map (·.tokensAfter)).sum
  savedTokens := (perFile.map (·.tokensBefore)).sum - ((perFile.map (·.tokensAfter)).sum : Int)
  perFile

def emptyStats : CompactStats := ⟨0, 0, 0, 0, []⟩

/-- `Math.max(0, opts.keepRecentMessages ?? 8)`. -/
def keepRecent (opts : CompactOptions) : JsNumber :=
  match opts.keepRecentMessages.getD (.fin 8) with
  | .nan => .nan
  | n => if n.lt (.fin 0) then .fin 0 else n

/-- The first index that is kept, exact. -/
def recencyCutoff (messageCount : Nat) (opts : CompactOptions) : JsNumber :=
  match keepRecent opts with
  | .fin q => .fin (messageCount - q)
  | .posInf => .negInf
  | .negInf => .posInf
  | .nan => .nan

/-- `cutoff <= 0`: nothing is old. -/
def noneOld (cutoff : JsNumber) : Bool := cutoff.le (.fin 0)

/-- `i >= cutoff`. -/
def isRecent (i : Nat) (cutoff : JsNumber) : Bool := cutoff.le (.fin i)

/-! ## One read -/

/-- A block array or a string, flattened. -/
def toolResultText (content : Option Json) : JsString :=
  match content with
  | some (.str s) => s
  | some (.arr items) => items.flatMap fun b => (b.strField "text").getD []
  | _ => []

/-- `originalText.split("\n").length`. -/
def lineCount (s : JsString) : Nat := s.count lineFeed + 1

def fileWasEdited (repo : Repo) (rel : JsString) (edited : List JsString) : Bool :=
  edited.contains rel || edited.any fun raw => (repo.resolveRepoPath raw).map (·.rel) = some rel

/-- An id pushed unless it is there. -/
def pushNew (acc : List JsString) (id : JsString) : List JsString := if id ∈ acc then acc else acc ++ [id]

/-- The symbols a slice of `rel` is cut for: the task's, then those of an edited file. -/
def sliceSymbols (repo : Repo) (rel intentText : JsString) (opts : CompactOptions) : List JsString :=
  let inFile := repo.fileSymbolIds rel
  let maxSymbols := opts.maxSymbols.getD 6
  let intentSymbols := (repo.resolveTaskToSymbols intentText (maxSymbols * 3)).filter (· ∈ inFile)
  let isEdited := opts.editedFiles.any (fileWasEdited repo rel)
  let ordered := if isEdited then inFile.foldl pushNew intentSymbols else intentSymbols
  ordered.take maxSymbols

def compactKnobs (opts : CompactOptions) : PackKnobs := ⟨opts.neighbors.getD false, opts.maxNeighbors⟩

def sliceText (rawPath : JsString) (lines : Nat) (pack : JsString) : JsString :=
  ascii "[hayven: older read of " ++ rawPath ++ ascii " compacted to the slice relevant to your task (was ~" ++
    decDigits lines ++ ascii " lines; re-read the file for the full text)]\n\n" ++ pack

def pointerText (rawPath : JsString) (lines : Nat) : JsString :=
  ascii "[hayven: older read of " ++ rawPath ++ ascii " (~" ++ decDigits lines ++
    ascii " lines) elided from older context to save tokens — re-read the file if you need it]"

/-- The slice of a file that resolves, is indexed and has a symbol to show. -/
def sliceOf (repo : Repo) (rawPath originalText intentText : JsString) (opts : CompactOptions) : Option JsString := do
  let rp ← repo.resolveRepoPath rawPath
  guard (repo.fileSymbolIds rp.rel ≠ [])
  let symbols := sliceSymbols repo rp.rel intentText opts
  guard (symbols ≠ [])
  let pack ← repo.contextForSymbols symbols (compactKnobs opts)
  let text := sliceText rawPath (lineCount originalText) pack
  guard (text.length < originalText.length)
  return text

def compactOneRead (repo : Repo) (rawPath originalText intentText : JsString) (opts : CompactOptions) :
    Option (JsString × CompactKind) :=
  match sliceOf repo rawPath originalText intentText opts with
  | some text => some (text, .slice)
  | none =>
    let pointer := pointerText rawPath (lineCount originalText)
    if pointer.length < originalText.length then some (pointer, .pointer) else none

/-- What a walk does with an older result of the path `path`: its text swapped, and what that saved. -/
def compactText (repo : Repo) (path : Option JsString) (text intentText : JsString) (opts : CompactOptions) :
    Option (JsString × CompactStat) := do
  let path ← path
  guard (path ≠ [] ∧ text ≠ [])
  let (compacted, kind) ← compactOneRead repo path text intentText opts
  return (compacted, ⟨path, kind, estimateTokens text.length, estimateTokens compacted.length⟩)

/-- The items of a walk and what it saved, in order. -/
def gather (l : List (Json × List CompactStat)) : List Json × List CompactStat := (l.map (·.1), l.flatMap (·.2))

/-! ## Calls -/

/-- The path of each read call by its id, and the edited paths. -/
structure CallScan where
  readPathById : KeyedMap JsString JsString
  editedFiles : List JsString

def CallScan.start (opts : CompactOptions) : CallScan := ⟨.empty, opts.editedFiles.getD []⟩

/-- The options with the edited files of the transcript. -/
def optsWithEdits (opts : CompactOptions) (editedFiles : List JsString) : CompactOptions :=
  if editedFiles ≠ [] then { opts with editedFiles := some editedFiles } else opts

/-- A tool call: under a read name it may set a path, under an edit name it may add one. -/
def CallScan.note (s : CallScan) (name : JsString) (read : Option (JsString × JsString)) (edit : Option JsString) :
    CallScan :=
  if name ∈ readToolNames then
    match read with
    | some (id, path) => { s with readPathById := s.readPathById.set id path }
    | none => s
  else if name ∈ editToolNames then
    match edit with
    | some path => { s with editedFiles := pushNew s.editedFiles path }
    | none => s
  else s

/-- A string that is not empty. -/
def nonEmpty (s : JsString) : Option JsString := if s = [] then none else some s

/-! ## Anthropic: blocks -/

def editPathFromInput (input : Option Json) : Option JsString :=
  (input.bind (·.strFieldOr "file_path" "path")).bind nonEmpty

def anthropicRead (b : Json) : Option (JsString × JsString) := do
  let id ← b.strField "id"
  let path ← (b.field "input").bind (·.strField "file_path")
  return (id, path)

def scanAnthropicBlock (s : CallScan) (b : Json) : CallScan :=
  if b.strField "type" = some (ascii "tool_use") then
    match b.strField "name" with
    | some name => s.note name (anthropicRead b) (editPathFromInput (b.field "input"))
    | none => s
  else s

def scanAnthropic (opts : CompactOptions) (msgs : List Json) : CallScan :=
  (msgs.flatMap fun m => (m.arrField "content").getD []).foldl scanAnthropicBlock (.start opts)

def compactBlock (repo : Repo) (intentText : JsString) (opts : CompactOptions) (readPathById : KeyedMap JsString JsString)
    (b : Json) : Json × List CompactStat :=
  if b.strField "type" = some (ascii "tool_result") then
    match b.strField "tool_use_id" with
    | none => (b, [])
    | some id =>
      match compactText repo (readPathById.get id) (toolResultText (b.field "content")) intentText opts with
      | none => (b, [])
      | some (text, stat) => (b.setField "content" (.str text), [stat])
  else (b, [])

def compactMessage (repo : Repo) (intentText : JsString) (opts : CompactOptions) (scan : CallScan) (cutoff : JsNumber)
    (i : Nat) (m : Json) : Json × List CompactStat :=
  if isRecent i cutoff then (m, [])
  else
    match m.arrField "content" with
    | none => (m, [])
    | some blocks =>
      let (content, stats) := gather (blocks.map (compactBlock repo intentText (optsWithEdits opts scan.editedFiles) scan.readPathById))
      (m.setField "content" (.arr content), stats)

/-- The body a compactor returns for the messages it rebuilt. -/
def compactResult (body : Json) (turns : String) (walked : List Json × List CompactStat) : CompactResult where
  body := if walked.2.isEmpty then body else body.setField turns (.arr walked.1)
  stats := summarizeCompaction walked.2
  changed := !walked.2.isEmpty

def untouched (body : Json) : CompactResult := ⟨body, emptyStats, false⟩

/-- `none` is the exception that reading `content` of a `null` message raises. -/
def compactAnthropicHistory (repo : Repo) (body : Json) (intentText : JsString) (opts : CompactOptions) :
    Option CompactResult := do
  let msgs ← body.arrField "messages"
  let cutoff := recencyCutoff msgs.length opts
  if noneOld cutoff then return untouched body
  if msgs.any (·.isNull) then none
  let scan := scanAnthropic opts msgs
  if scan.readPathById.keys = [] then return untouched body
  return compactResult body "messages" (gather (msgs.mapIdx (compactMessage repo intentText opts scan cutoff)))

end Hayven.Proxy
