import Hayven.Native.Extract
/-!
# Signatures of definitions

`native/src/parse/signature.rs`: the contract of a definition, read from its syntax tree for
each of the languages. The tree is tree-sitter's; a node comes with its text and all of its
children, the anonymous ones included.
-/
open Hayven.Lib

namespace Hayven.Native.Signatures

/-! ## Trees -/

/-- The kinds of node the extractors tell apart; `typeClause` is `type_annotation`. -/
inductive Kind where
  | identifier | typedParameter | typedDefaultParameter | defaultParameter | listSplatPattern
  | dictionarySplatPattern | keywordSeparator | positionalSeparator | parameters
  | formalParameters | requiredParameter | optionalParameter | objectPattern | arrayPattern | restPattern
  | assignmentPattern | typeClause | accessibilityModifier | publicFieldDefinition | fieldDefinition
  | exportStatement | statementBlock | classBody | program
  | selfParameter | parameter | variadicParameter | attributeItem | visibilityModifier
  | parameterDeclaration | variadicParameterDeclaration | parameterList
  | comment | other
deriving DecidableEq, Repr

inductive Field where
  | parameters | parameter | name | type | pattern | returnType | result | other
deriving DecidableEq, Repr

inductive Node where
  | mk (kind : Kind) (named : Bool) (text : JsString) (children : List (Option Field × Node))

namespace Node

def kind : Node → Kind
  | mk kind _ _ _ => kind

def named : Node → Bool
  | mk _ named _ _ => named

def text : Node → JsString
  | mk _ _ text _ => text

def children : Node → List (Option Field × Node)
  | mk _ _ _ children => children

def namedChildren (n : Node) : List Node := (n.children.map (·.2)).filter named

def childrenByFieldName (n : Node) (f : Field) : List Node := (n.children.filter (·.1 = some f)).map (·.2)

def childByFieldName (n : Node) (f : Field) : Option Node := (n.childrenByFieldName f).head?

end Node

/-- A definition with the nodes around it, innermost first. -/
structure Site where
  node : Node
  ancestors : List Node

/-! ## Signatures -/

inductive Visibility where
  | pub | priv | unknown | restricted
deriving DecidableEq, Repr

structure Signature where
  arity : Nat
  params : List JsString
  returnType : Option JsString
  visibility : Visibility
deriving DecidableEq, Repr

/-- `str::trim`. -/
def trim (s : JsString) : JsString := trimBy isRustSpace s

def colon : UInt16 := 0x3A

/-- `trim_start_matches(':').trim()` of a `type_annotation`. -/
def trimTypeText (s : JsString) : JsString := trim (s.dropWhile (· = colon))

def nonEmpty (s : JsString) : Option JsString := if s = [] then none else some s

/-- A signature with the arity of its parameters. -/
def Signature.ofParams (params : List JsString) (returnType : Option JsString) (visibility : Visibility) : Signature :=
  ⟨params.length, params, returnType, visibility⟩

/-- The named children of the list in the field `parameters`; none without it. -/
def listed (defNode : Node) : List Node := ((defNode.childByFieldName .parameters).map Node.namedChildren).getD []

/-! ## Python -/

/-- `None` for the receiver, told by its name. -/
def pythonParamText (child : Node) : Option JsString :=
  match child.kind with
  | .identifier => if child.text = ascii "self" ∨ child.text = ascii "cls" then none else some child.text
  | .typedParameter | .typedDefaultParameter =>
    match child.childByFieldName .type with
    | some ty => some (trim ty.text)
    | none => some (trim child.text)
  | .defaultParameter =>
    match child.childByFieldName .name with
    | some name => some name.text
    | none => some (trim child.text)
  | _ => some (trim child.text)

def pythonVisibility (name : JsString) : Visibility :=
  let isDunder := (ascii "__").isPrefixOf name && (ascii "__").isSuffixOf name
  if !isDunder && (ascii "_").isPrefixOf name then .priv else .pub

def pythonSignature (defNode : Node) (name : JsString) : Signature :=
  .ofParams ((listed defNode).filterMap pythonParamText)
    ((defNode.childByFieldName .returnType).bind fun n => nonEmpty (trim n.text)) (pythonVisibility name)

/-! ## TypeScript and JavaScript -/

/-- The type of a parameter, with `?` behind it if it is optional and `...` before it if it is a
rest parameter; the pattern of a parameter without a type. -/
def tsParamToken (param : Node) : JsString :=
  match param.childByFieldName .type, param.childByFieldName .pattern with
  | some ty, pattern =>
    let isRest := pattern.any (·.kind = .restPattern)
    let token := trimTypeText ty.text ++ if param.kind = .optionalParameter then ascii "?" else []
    if isRest then ascii "..." ++ token else token
  | none, some pattern => trim pattern.text
  | none, none => trim param.text

/-- What a child of the parameter list adds. -/
def tsParamText (child : Node) : Option JsString :=
  match child.kind with
  | .requiredParameter | .optionalParameter => some (tsParamToken child)
  | .identifier | .objectPattern | .arrayPattern | .restPattern | .assignmentPattern => some (trim child.text)
  | _ => nonEmpty (trim child.text)

def tsParamsAndReturn (defNode : Node) : List JsString × Option JsString :=
  match defNode.childByFieldName .parameters, defNode.childByFieldName .parameter with
  | none, some single => ([trim single.text], none)
  | _, _ => ((listed defNode).filterMap tsParamText,
      (defNode.childByFieldName .returnType).bind fun n => nonEmpty (trimTypeText n.text))

def firstChildOfKind (node : Node) (kind : Kind) : Option JsString :=
  ((node.children.map (·.2)).find? (·.kind = kind)).map fun n => trim n.text

/-- What an accessibility modifier says, if there is one that says anything. -/
def modifierVisibility (node : Node) : Option Visibility :=
  match firstChildOfKind node .accessibilityModifier with
  | none => none
  | some modifier =>
    if modifier = ascii "private" ∨ modifier = ascii "protected" then some .priv
    else if modifier = ascii "public" then some .pub
    else none

/-- The climb to an `export`, up to a body or the program. -/
def exportVisibility : List Node → Visibility
  | [] => .unknown
  | p :: rest =>
    match p.kind with
    | .exportStatement => .pub
    | .statementBlock | .classBody | .program => .unknown
    | _ => exportVisibility rest

def tsVisibility (site : Site) (name : JsString) : Visibility :=
  if (ascii "#").isPrefixOf name then .priv
  else
    match modifierVisibility site.node with
    | some v => v
    | none =>
      let field := site.ancestors.head?.filter fun p => p.kind = .publicFieldDefinition ∨ p.kind = .fieldDefinition
      match field.bind modifierVisibility with
      | some v => v
      | none => exportVisibility site.ancestors

def tsSignature (site : Site) (name : JsString) : Signature :=
  let read := tsParamsAndReturn site.node
  .ofParams read.1 read.2 (tsVisibility site name)

def jsSignature (site : Site) (name : JsString) : Signature :=
  .ofParams (tsParamsAndReturn site.node).1 none (tsVisibility site name)

/-! ## Rust -/

def rustParamText (child : Node) : Option JsString :=
  match child.kind with
  | .selfParameter => none
  | .parameter =>
    match child.childByFieldName .type with
    | some ty => some (trim ty.text)
    | none => some (trim child.text)
  | _ => nonEmpty (trim child.text)

/-- `s.contains(part)`. -/
def contains (s part : JsString) : Bool := s.tails.any part.isPrefixOf

def rustVisibility (defNode : Node) : Visibility :=
  match (defNode.children.head?.map (·.2)).filter (·.kind = .visibilityModifier) with
  | none => .priv
  | some modifier =>
    let raw := trim modifier.text
    if raw = ascii "pub" then .pub else if contains raw (ascii "self") then .priv else .restricted

def rustSignature (defNode : Node) : Signature :=
  .ofParams ((listed defNode).filterMap rustParamText)
    ((defNode.childByFieldName .returnType).bind fun n => nonEmpty (trim n.text)) (rustVisibility defNode)

/-! ## Go -/

def isGoDeclaration (n : Node) : Bool := n.kind = .parameterDeclaration || n.kind = .variadicParameterDeclaration

/-- How many slots a declaration takes: one a name, and one without a name. -/
def nameCount (n : Node) : Nat := max (n.childrenByFieldName .name).length 1

def goTypeText (n : Node) : JsString := ((n.childByFieldName .type).map fun t => trim t.text).getD []

def goParamTexts (child : Node) : List JsString :=
  if isGoDeclaration child then
    let ty := goTypeText child
    let marked := if child.kind = .variadicParameterDeclaration ∧ ty ≠ [] then ascii "..." ++ ty else ty
    List.replicate (nameCount child) marked
  else []

/-- The types of a result, without names. -/
def goResultType (result : Node) : Option JsString :=
  if result.kind = .parameterList then
    let types := (result.namedChildren.filter isGoDeclaration).flatMap fun child =>
      if goTypeText child = [] then [] else List.replicate (nameCount child) (goTypeText child)
    if types = [] then nonEmpty (trim result.text) else some ((ascii ", ").intercalate types)
  else nonEmpty (trim result.text)

/-- `isUppercase` is Rust's test on the first character of a text. -/
def goSignature (isUppercase : JsString → Bool) (defNode : Node) : Signature :=
  let name := ((defNode.childByFieldName .name).map Node.text).getD []
  .ofParams ((listed defNode).flatMap goParamTexts)
    (((defNode.childByFieldName .result).bind goResultType).filter (· ≠ []))
    (if isUppercase name then .pub else .priv)

/-! ## All languages -/

def extractSignature (isUppercase : JsString → Bool) (site : Site) (name : JsString) : Language → Signature
  | .python => pythonSignature site.node name
  | .typescript | .tsx | .astro => tsSignature site name
  | .javascript => jsSignature site name
  | .rust => rustSignature site.node
  | .go => goSignature isUppercase site.node

end Hayven.Native.Signatures
