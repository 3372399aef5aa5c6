import Hayven.Db.PackGate
import Mathlib.Algebra.Order.Ring.Rat
import Mathlib.Data.List.MinMax
/-!
# The contract-diff oracle

`conflict/contract_diff_oracle.ts`. Two claims conflict when they edit the same entity,
when one edits the contract of something the other depends on, or when both edit the
contract of one module. The verdict on two claims is the strongest one over the
entities their scopes resolve to.
-/
open Hayven.Lib Hayven.Db.Pack

namespace Hayven.Conflict.Contract

/-! ## Signatures -/

inductive Visibility where
  | pub | priv | unknown
deriving DecidableEq, Repr

structure Signature where
  name : JsString
  arity : Nat
  params : List JsString
  returnType : Option JsString
  visibility : Visibility
  hasCallable : Bool
deriving DecidableEq

def bar : UInt16 := 0x7C

/-- `params.join("|")`. -/
def joinBars (params : List JsString) : JsString := [bar].intercalate params

def signatureChangedContract (before after : Signature) : Bool :=
  if before.arity ≠ after.arity then true
  else if before.returnType.getD [] ≠ after.returnType.getD [] then true
  else if joinBars before.params ≠ joinBars after.params then true
  else if before.visibility = .pub ∧ after.visibility = .priv then true
  else false

structure SignatureQuery where
  body : JsString
  language : JsString
  kind : JsString
  name : JsString
  file : Option JsString
  qualifiedName : Option JsString

abbrev SignatureExtractor := SignatureQuery → Option Signature

/-- Nothing is known of the entity: a callable that could be public. -/
def conservativeSignature (name : JsString) : Signature := ⟨name, 0, [], none, .unknown, true⟩

/-! ## Intents -/

def CONTRACT_PHRASES : List JsString :=
  ["signature", "return type", "return value", "parameter", "param ", "argument", "arity", "exported type",
    "public api", "public interface", "rename", "remove the", "add a field", "change the type", "callers must adapt",
    "breaking change", "interface"].map ascii

def INTERNAL_PHRASES : List JsString :=
  ["internal implementation", "internal logic", "public signature is unchanged", "signature is unchanged",
    "signature unchanged", "without changing", "local variable", "rename a local", "refactor the internal",
    "no api change", "behavior-preserving", "behaviour-preserving"].map ascii

inductive Indication where
  | contract | internal | ambiguous
deriving DecidableEq, Repr

/-- `s.includes(part)`. -/
def includes (s part : JsString) : Bool := s.tails.any part.isPrefixOf

/-- `\w`. -/
def wordUnit (u : UInt16) : Bool :=
  (0x30 ≤ u && u ≤ 0x39) || (0x41 ≤ u && u ≤ 0x5A) || u == 0x5F || (0x61 ≤ u && u ≤ 0x7A)

/-- `/\bsignature (is )?unchanged\b/`, tried at every position after `before`. -/
def signatureUnchangedFrom : Option UInt16 → JsString → Bool
  | _, [] => false
  | before, u :: rest =>
    (!before.any wordUnit && [ascii "signature is unchanged", ascii "signature unchanged"].any fun p =>
      p.isPrefixOf (u :: rest) && !((u :: rest).drop p.length).head?.any wordUnit) ||
    signatureUnchangedFrom (some u) rest

/-- Does the text of a claim announce an edit of a contract? -/
def intentIndicatesContractChange (lower : LowerCase) (intent : JsString) : Indication :=
  let t := lower.toLowerCase intent
  let internal := INTERNAL_PHRASES.any (includes t)
  let contract := CONTRACT_PHRASES.any (includes t)
  if internal && !contract then .internal
  else if internal && contract then
    -- the most specific assertion decides
    if signatureUnchangedFrom none t || includes t (ascii "internal implementation") then .internal else .contract
  else if contract then .contract
  else .ambiguous

/-! ## Tasks -/

structure ContractEntity where
  id : JsString
  name : JsString
  kind : JsString
  language : JsString
  file : JsString
  module : JsString
  body : JsString
  imports : List JsString

structure ContractTask where
  target : ContractEntity
  scope : List JsString
  intent : JsString

/-- The question the oracle asks about an entity. -/
def ContractEntity.query (target : ContractEntity) : SignatureQuery :=
  ⟨target.body, target.language, target.kind, target.name, some target.file, none⟩

def signatureFor (target : ContractEntity) (extractor : Option SignatureExtractor) : Signature :=
  match extractor with
  | some signatureOf => (signatureOf target.query).getD (conservativeSignature target.name)
  | none => conservativeSignature target.name

def isContractEdit (lower : LowerCase) (task : ContractTask) (extractor : Option SignatureExtractor) : Bool :=
  let sig := signatureFor task.target extractor
  let couldBePublic := decide (sig.visibility ≠ .priv)
  match intentIndicatesContractChange lower task.intent with
  | .internal => false
  | .contract => couldBePublic
  | .ambiguous => sig.hasCallable && couldBePublic

/-! ## One pair of entities -/

def importsDepend (src dst : ContractEntity) : Bool := src.imports.contains dst.id

abbrev EdgeIndex := JsString → JsString → Bool

abbrev NativeCallGraph := ContractEntity → ContractEntity → Bool

/-- `confidence` is a decimal literal of the source; it is only compared. -/
structure ContractVerdict where
  conflict : Bool
  reason : JsString
  confidence : Rat
  oracle : JsString
deriving DecidableEq

structure ContractDiffOracle where
  id : JsString
  callGraph : Option NativeCallGraph
  edgeIndex : Option EdgeIndex
  signatureExtractor : Option SignatureExtractor

namespace ContractDiffOracle

def depends (o : ContractDiffOracle) (src dst : ContractEntity) : Bool :=
  importsDepend src dst || o.edgeIndex.any (· src.id dst.id) || o.callGraph.any (· src dst)

def assess (lower : LowerCase) (o : ContractDiffOracle) (incoming adjacent : ContractTask) : ContractVerdict :=
  if incoming.target.id = adjacent.target.id then
    ⟨true, ascii "Both claims edit the same entity (scope overlap).", 1, o.id⟩
  else
    let incContract := isContractEdit lower incoming o.signatureExtractor
    let adjContract := isContractEdit lower adjacent o.signatureExtractor
    let incBreaksAdj := incContract && o.depends adjacent.target incoming.target
    let adjBreaksInc := adjContract && o.depends incoming.target adjacent.target
    if incBreaksAdj || adjBreaksInc then
      let (broken, dependent) :=
        if incBreaksAdj then (incoming.target.name, adjacent.target.name)
        else (adjacent.target.name, incoming.target.name)
      ⟨true, ascii "A contract change on " ++ broken ++ ascii " breaks a real dependent (" ++ broken ++ ascii " → " ++
        dependent ++ ascii ").", 0.85, o.id⟩
    else if incContract && adjContract && decide (incoming.target.module = adjacent.target.module) then
      ⟨true, ascii "Two concurrent public-contract changes to distinct symbols in the same module (" ++
        incoming.target.module ++ ascii ") — likely collision on the module surface.", 0.6, o.id⟩
    else
      ⟨false, ascii ("Neither edit changes a public contract that the other entity actually depends on " ++
        "(internal edits and/or no real reference edge)."), 0.7, o.id⟩

end ContractDiffOracle

/-! ## Two claims -/

structure ResolvedEntity where
  id : JsString
  name : JsString
  kind : JsString
  language : JsString
  file : JsString
  module : JsString
  body : JsString
  imports : Option (List JsString)

abbrev EntityResolver := JsString → Option ResolvedEntity

structure ClaimCtx where
  scope : List JsString
  intent : JsString
  neighbors : List JsString

structure ContractDiffClaimOptions where
  signatureExtractor : Option SignatureExtractor
  edgeIndex : Option EdgeIndex
  callGraph : Option NativeCallGraph
  id : Option JsString
  resolver : EntityResolver

structure ContractDiffClaimOracle where
  id : JsString
  inner : ContractDiffOracle
  resolver : EntityResolver

namespace ContractDiffClaimOracle

/-- The constructor: the inner oracle answers under the same id. -/
def ofOptions (opts : ContractDiffClaimOptions) : ContractDiffClaimOracle :=
  let id := opts.id.getD (ascii "contract-diff")
  ⟨id, ⟨id, opts.callGraph, opts.edgeIndex, opts.signatureExtractor⟩, opts.resolver⟩

def entityOf (r : ResolvedEntity) : ContractEntity :=
  ⟨r.id, r.name, r.kind, r.language, r.file, r.module, r.body, r.imports.getD []⟩

def entitiesFor (o : ContractDiffClaimOracle) (ctx : ClaimCtx) : List ContractEntity :=
  ctx.scope.filterMap fun id => (o.resolver id).map entityOf

/-- A conflict replaces the best one so far if it is strictly surer. -/
def consider (best : Option ContractVerdict) (v : ContractVerdict) : Option ContractVerdict :=
  if v.conflict && best.all (fun b => decide (b.confidence < v.confidence)) then some v else best

def assess (lower : LowerCase) (o : ContractDiffClaimOracle) (incoming adjacent : ClaimCtx) : ContractVerdict :=
  let incEnts := o.entitiesFor incoming
  let adjEnts := o.entitiesFor adjacent
  if incEnts.length = 0 ∨ adjEnts.length = 0 then
    ⟨false, ascii ("Contract-diff abstained: a claim scope did not resolve to any indexed entity " ++
      "(no real signature/edge to diff)."), 0, o.id⟩
  else
    let best := incEnts.foldl (fun best ie => adjEnts.foldl (fun best ae => consider best
      (o.inner.assess lower ⟨ie, incoming.scope, incoming.intent⟩ ⟨ae, adjacent.scope, adjacent.intent⟩)) best) none
    best.getD ⟨false, ascii ("Neither edit changes a public contract that the other entity actually depends on " ++
      "(contract-diff)."), 0.7, o.id⟩

end ContractDiffClaimOracle

end Hayven.Conflict.Contract
