import Hayven.Lib.Json
import Hayven.Lib.KeyedSort
import Hayven.Lib.Text
/-!
# Rendering context packs

`db/context_cache.ts` and the append-only render of `db/context_helper.ts`: slices are
sorted, one is kept a span, and each becomes a fenced block. A slice has the fields that
are compared or printed; line numbers count from 1. The digest and the runtime's number
text are parameters.
-/
open Hayven.Lib

namespace Hayven.Db

inductive SliceRole where
  | header
  | moduleFrame
  | target
  | neighbor
deriving DecidableEq, Repr

inductive SliceVia where
  | call
  | ref
  | caller
deriving DecidableEq, Repr

structure ContextSlice where
  role : SliceRole
  file : JsString
  startLine : Nat
  endLine : Nat
  text : JsString
  via : Option SliceVia
  weight : Option JsNumber
deriving DecidableEq, Repr

structure ContextPack where
  slices : List ContextSlice

/-- What the rendering takes from the host. -/
structure RenderHost where
  /-- `createHash("sha256").update(bytes).digest("hex")`. -/
  sha256 : Bytes → JsString
  numbers : NumberText

/-! ## Order and deduplication -/

/-- `ROLE_RANK`. -/
def roleRank : SliceRole → Nat
  | .header => 0
  | .moduleFrame => 0
  | .target => 1
  | .neighbor => 2

def SliceRole.text : SliceRole → JsString
  | .header => ascii "header"
  | .moduleFrame => ascii "module-frame"
  | .target => ascii "target"
  | .neighbor => ascii "neighbor"

def SliceVia.text : SliceVia → JsString
  | .call => ascii "call"
  | .ref => ascii "ref"
  | .caller => ascii "caller"

/-- `${file}:${startLine}-${endLine}`. -/
def spanText (file : JsString) (startLine endLine : Nat) : JsString :=
  file ++ ascii ":" ++ decDigits startLine ++ ascii "-" ++ decDigits endLine

def sliceKey (s : ContextSlice) : JsString := spanText s.file s.startLine s.endLine

/-- The sign of `a - b`, which the sort reads; not-a-number counts as zero. -/
def subtractSign (a b : JsNumber) : Ordering := if a.lt b then .lt else if b.lt a then .gt else .eq

def viaOrEmpty (s : ContextSlice) : JsString := (s.via.map SliceVia.text).getD []

def weightOrMinusOne (s : ContextSlice) : JsNumber := s.weight.getD (.fin (-1))

/-- The comparisons that follow once file and lines agree. Two roles decide by their ranks alone. -/
def compareTies (a b : ContextSlice) : Ordering :=
  if a.role ≠ b.role then compare (roleRank a.role) (roleRank b.role)
  else (compare a.text b.text).then
    ((compare (viaOrEmpty a) (viaOrEmpty b)).then (subtractSign (weightOrMinusOne a) (weightOrMinusOne b)))

def compareSlices (a b : ContextSlice) : Ordering :=
  (compare a.file b.file).then
    ((compare a.startLine b.startLine).then ((compare a.endLine b.endLine).then (compareTies a b)))

/-- Sort, then the first of each span. -/
def canonicalSlices (slices : List ContextSlice) : List ContextSlice := canonical compareSlices sliceKey slices

/-! ## Blocks -/

/-- `s.endsWith(suffix)`. -/
def endsWith (s : JsString) (tail : String) : Bool := (ascii tail).isSuffixOf s

def deriveFenceLang (file : JsString) : JsString :=
  if endsWith file ".tsx" then ascii "tsx"
  else if endsWith file ".ts" || endsWith file ".mts" || endsWith file ".cts" then ascii "typescript"
  else if endsWith file ".py" then ascii "python"
  else if endsWith file ".rs" then ascii "rust"
  else if endsWith file ".go" then ascii "go"
  else []

def provenance (host : RenderHost) (s : ContextSlice) : JsString :=
  s.role.text ++ (s.via.elim [] fun v => ascii " via " ++ v.text) ++
    (s.weight.elim [] fun w => ascii " weight " ++ Json.numToString host.numbers w)

def renderSliceBlock (host : RenderHost) (s : ContextSlice) (lang : JsString) : JsString :=
  ascii "### " ++ spanText s.file s.startLine s.endLine ++ ascii " (" ++ provenance host s ++ ascii ")" ++
    ascii "\n```" ++ lang ++ ascii "\n" ++ s.text ++ ascii "\n```"

/-- `blocks.join("\n\n")`. -/
def joinBlocks (blocks : List JsString) : JsString := (ascii "\n\n").intercalate blocks

/-- `Math.ceil(chars / 4)`. -/
def estimateTokens (chars : Nat) : Nat := (chars + 3) / 4

section Render
variable (host : RenderHost) (fenceLangFor : Option (JsString → JsString))

/-- The block of a slice, under the caller's fence language if there is one. -/
def blockOf (s : ContextSlice) : JsString :=
  renderSliceBlock host s ((fenceLangFor.getD deriveFenceLang) s.file)

def sha256Text (text : JsString) : JsString := host.sha256 (textEncode text)

structure StableRender where
  text : JsString
  contentKey : JsString
  estTokens : Nat
deriving DecidableEq

def renderCanonical (slices : List ContextSlice) : StableRender :=
  let text := joinBlocks (slices.map (blockOf host fenceLangFor))
  { text, contentKey := sha256Text host text, estTokens := estimateTokens text.length }

def renderStablePacks (packs : List ContextPack) : StableRender :=
  renderCanonical host fenceLangFor (canonicalSlices (packs.flatMap ContextPack.slices))

/-! ## Append-only rendering -/

structure SliceRef where
  role : SliceRole
  file : JsString
  startLine : Nat
  endLine : Nat
  via : Option SliceVia
  weight : Option JsNumber
  blockHash : JsString
deriving DecidableEq

structure StableContextResult where
  text : JsString
  contentKey : JsString
  estTokens : Nat
  order : List SliceRef
  stablePrefixBytes : Nat
  priorFullyPreserved : Bool
  notes : List JsString
deriving DecidableEq

def SliceRef.key (ref : SliceRef) : JsString := spanText ref.file ref.startLine ref.endLine

def refOf (s : ContextSlice) : SliceRef where
  role := s.role
  file := s.file
  startLine := s.startLine
  endLine := s.endLine
  via := s.via
  weight := s.weight
  blockHash := sha256Text host (blockOf host fenceLangFor s)

/-- The leading refs of the prior order whose span is still there with the same block. -/
def keepRun (canon : List ContextSlice) : List SliceRef → List ContextSlice
  | [] => []
  | ref :: refs =>
    match canon.find? (fun s => sliceKey s = ref.key) with
    | none => []
    | some cur =>
      if sha256Text host (blockOf host fenceLangFor cur) ≠ ref.blockHash then []
      else cur :: keepRun canon refs

def keptSlices (slices : List ContextSlice) (prior : Option StableContextResult) : List ContextSlice :=
  prior.elim [] fun p => keepRun host fenceLangFor (canonicalSlices slices) p.order

/-- The slices in the order they are rendered. -/
def orderedSlices (slices : List ContextSlice) (prior : Option StableContextResult) : List ContextSlice :=
  let ordered := keptSlices host fenceLangFor slices prior
  let consumed := ordered.map sliceKey
  ordered ++ sortWith compareSlices ((canonicalSlices slices).filter fun s => sliceKey s ∉ consumed)

def byteLength (text : JsString) : Nat := (textEncode text).length

def renderAppendOnly (slices : List ContextSlice) (prior : Option StableContextResult) (notes : List JsString) :
    StableContextResult :=
  let block := blockOf host fenceLangFor
  let ordered := orderedSlices host fenceLangFor slices prior
  let keepCount := (keptSlices host fenceLangFor slices prior).length
  let text := joinBlocks (ordered.map block)
  { text
    contentKey := sha256Text host text
    estTokens := if ordered.length > 0 then estimateTokens text.length else estimateTokens 0
    order := ordered.map (refOf host fenceLangFor)
    stablePrefixBytes := if keepCount > 0 then byteLength (joinBlocks ((ordered.take keepCount).map block)) else 0
    priorFullyPreserved := prior.elim true fun p => keepCount = p.order.length
    notes }

end Render

end Hayven.Db
