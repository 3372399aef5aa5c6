import Hayven.Db.Freshness
import Hayven.Lib.Json
import Hayven.Native.Extract
/-!
# Test nodes

`db/test_nodes.ts`: which nodes are tests, by their file or by their name, and what a
runner is handed for them.
-/
open Hayven.Lib Hayven.Native

namespace Hayven.Db

/-! ## Text -/

/-- `s.includes(part)`. -/
def includesText (part s : JsString) : Bool := s.tails.any part.isPrefixOf

def upperLetter (u : UInt16) : Bool := 0x41 ≤ u && u ≤ 0x5A

/-- What follows the last dot, or the whole name. -/
def qualnameLeaf (name : JsString) : JsString :=
  match lastIndexOf dot name with
  | some d => name.drop (d + 1)
  | none => name

/-- What follows the last slash, or the whole id. -/
def idTailOf (id : JsString) : JsString :=
  match lastIndexOf slash id with
  | some s => id.drop (s + 1)
  | none => id

/-- `/^[A-Z]/`. -/
def isPascalCase (s : JsString) : Bool := s.head?.any upperLetter

/-! ## Paths -/

structure TestCandidate where
  id : JsString
  name : JsString
  file : Option JsString
  language : Option JsString
  kind : Option JsString

inductive TestRunner where
  | pytest | vitest | jest | go | cargo | unknown
deriving DecidableEq

structure TestHandle where
  id : JsString
  file : Option JsString
  runnable : Option JsString
  runner : TestRunner
deriving DecidableEq

def DEFAULT_TEST_PATH_PATTERNS : List JsString :=
  [ascii "/test/", ascii "/tests/", ascii "/__tests__/", ascii "_test.", ascii "test_", ascii ".test.", ascii ".spec.",
    ascii "_spec."]

def normalizePath (file : JsString) : JsString := file.map fun u => if u = 0x5C then slash else u

def isTestFile (file : JsString) (patterns : List JsString) : Bool :=
  let path := normalizePath file
  (ascii "test/").isPrefixOf path || (ascii "tests/").isPrefixOf path || (ascii "__tests__/").isPrefixOf path ||
    patterns.any fun p => includesText p path

/-! ## Names -/

/-- The name, and what follows its last dot. -/
def nameSegments (name : JsString) : List JsString :=
  let last := qualnameLeaf name
  if last = name then [name] else [name, last]

/-- A name that goes on after a prefix with a unit of the class. -/
def continues (stem : String) (next : UInt16 → Bool) (seg : JsString) : Bool :=
  (ascii stem).isPrefixOf seg && (seg.drop stem.length).head?.any next

def isPytestName (seg : JsString) : Bool :=
  (ascii "test_").isPrefixOf seg || continues "Test" (fun u => upperLetter u || isDigit u || u = 0x5F) seg ||
    seg = ascii "Test"

def isJsTsName (seg : JsString) : Bool :=
  continues "test" (fun u => upperLetter u || u = 0x5F) seg || (ascii "Test").isSuffixOf seg ||
    (ascii "Spec").isSuffixOf seg

def isGoName (seg : JsString) : Bool :=
  ["Test", "Benchmark", "Example", "Fuzz"].any fun stem =>
    seg = ascii stem || continues stem (fun u => upperLetter u || isDigit u || u = 0x5F) seg

def isRustName (seg : JsString) : Bool := (ascii "test_").isPrefixOf seg || includesText (ascii "_test") seg

def isTestName (name : JsString) : Bool :=
  (nameSegments name).any fun seg => isPytestName seg || isJsTsName seg || isGoName seg || isRustName seg

def isTestNode (candidate : TestCandidate) (patterns : List JsString) : Bool :=
  candidate.file.any (fun file => isTestFile file patterns) || isTestName candidate.name

/-! ## Runners -/

def extensionOf (file : JsString) : JsString :=
  let base := idTailOf (normalizePath file)
  match lastIndexOf dot base with
  | some d => if 0 < d then (base.drop (d + 1)).map lowerLetter else []
  | none => []

def inferRunner (file language : Option JsString) : TestRunner :=
  let ext := file.elim [] extensionOf
  let lang := (language.getD []).map lowerLetter
  let path := file.elim [] normalizePath
  if ext = ascii "py" ∨ lang = ascii "python" then .pytest
  else if ext ∈ [ascii "ts", ascii "tsx", ascii "mts", ascii "cts", ascii "js", ascii "jsx", ascii "mjs", ascii "cjs"] ∨
      lang ∈ [ascii "typescript", ascii "javascript", ascii "tsx"] then
    if includesText (ascii "jest") path then .jest else .vitest
  else if ext = ascii "go" ∨ lang = ascii "go" then .go
  else if ext = ascii "rs" ∨ lang = ascii "rust" then .cargo
  else .unknown

/-- `.` of a regular expression leaves the line ends out. -/
def isLineEnd (u : UInt16) : Bool := u = 0x0A || u = 0x0D || u = 0x2028 || u = 0x2029

/-- `/^test_.*\.py$/` or `/^.+_test\.py$/` on the name of the file. -/
def isPytestCollectableFile (file : JsString) : Bool :=
  let base := idTailOf (normalizePath file)
  let stem := base.take (base.length - 3)
  (ascii ".py").isSuffixOf base && !stem.any isLineEnd &&
    ((ascii "test_").isPrefixOf stem || ((ascii "_test").isSuffixOf stem && 5 < stem.length))

/-- The class a dotted name is qualified by: the last segment of its head. -/
def qualifierOf (qual : JsString) : Option JsString :=
  match lastIndexOf dot qual with
  | some d => if 0 < d then some (qualnameLeaf (qual.take d)) else none
  | none => none

/-- The dotted name of a test: its name, or else the end of its id. -/
def dottedName (name id : JsString) : JsString :=
  let idTail := idTailOf id
  if dot ∈ name then name else if dot ∈ idTail then idTail else name

def isCollectableTest (candidate : TestCandidate) : Bool :=
  let name := candidate.name
  let idTail := idTailOf candidate.id
  if inferRunner candidate.file candidate.language ≠ .pytest then true
  else if candidate.file.any (fun file => !isPytestCollectableFile file) then false
  else if includesText (ascii ".<locals>.") name || includesText (ascii ".<locals>.") candidate.id then false
  else if qualnameLeaf name = ascii "test" ∨ qualnameLeaf idTail = ascii "test" then false
  else if [name, idTail].any (fun qual => (qualifierOf qual).any fun head =>
      !isPascalCase head || !(ascii "Test").isPrefixOf head) then false
  else
    let leaf := qualnameLeaf (dottedName name candidate.id)
    (ascii "test").isPrefixOf leaf || (ascii "Test").isPrefixOf leaf

def pytestRunnable (file name id : JsString) : JsString :=
  let qual := dottedName name id
  match qualifierOf qual with
  | some cls =>
    if isPascalCase cls then file ++ ascii "::" ++ cls ++ ascii "::" ++ qualnameLeaf qual
    else file ++ ascii "::" ++ name
  | none => file ++ ascii "::" ++ name

def goRunnable (file name : JsString) : JsString :=
  let leaf := qualnameLeaf name
  if isGoName leaf then file ++ ascii "::" ++ leaf else file

/-- What the runner is handed for a test in the file. -/
def runnableIn (candidate : TestCandidate) (runner : TestRunner) (patterns : List JsString) (file : JsString) :
    Option JsString :=
  if candidate.kind = some (ascii "module") then
    if runner = .pytest ∧ isPytestCollectableFile file = false then none else some file
  else
    match runner with
    | .pytest => if isCollectableTest candidate then some (pytestRunnable file candidate.name candidate.id) else none
    | .go => some (goRunnable file candidate.name)
    | .vitest | .jest => if isTestFile file patterns then some file else none
    | .cargo | .unknown => some file

def classifyTest (candidate : TestCandidate) (patterns : List JsString) : Option TestHandle :=
  if isTestNode candidate patterns then
    let runner := inferRunner candidate.file candidate.language
    some ⟨candidate.id, candidate.file, candidate.file.bind (runnableIn candidate runner patterns), runner⟩
  else none

/-- A handle is that of the candidate. -/
theorem classifyTest_eq_some {candidate : TestCandidate} {patterns : List JsString} {handle : TestHandle}
    (h : classifyTest candidate patterns = some handle) :
    isTestNode candidate patterns = true ∧ handle.id = candidate.id ∧ handle.file = candidate.file := by
  unfold classifyTest at h
  split at h
  · next htest =>
    cases h
    exact ⟨htest, rfl, rfl⟩
  · cases h

end Hayven.Db
