import Hayven.Native.Signature
/-!
# Declarations and their layout

The function and method declarations of the five grammars, with the comments and the blanks
between their tokens, as the trees that tree-sitter gives for them; and what a declaration
says: its tokens without the layout, how many slots it has, and how many positional
arguments a caller may pass.
-/
open Hayven.Lib

namespace Hayven.Native.Signatures

/-! ## Layout -/

/-- No blank at either end. -/
def isSolid (s : JsString) : Bool := s.head?.any (!isRustSpace ·) && s.getLast?.any (!isRustSpace ·)

structure Token where
  text : JsString
  solid : isSolid text = true
deriving DecidableEq

/-- How a language writes comments: `# ..`, or `// ..` and `/* .. */`. -/
inductive CommentStyle where
  | hash | slashes
deriving DecidableEq, Repr

def newline : UInt16 := 0x0A

def CommentStyle.admits : CommentStyle → JsString → Bool
  | .hash, s => (ascii "#").isPrefixOf s && !s.contains newline
  | .slashes, s =>
    ((ascii "//").isPrefixOf s && !s.contains newline) ||
      ((ascii "/*").isPrefixOf s && (ascii "*/").isSuffixOf (s.drop 2))

/-- What may stand between two tokens. -/
inductive Filler (style : CommentStyle) where
  | blank (s : JsString) (h : s ≠ [] ∧ s.all isRustSpace = true)
  | comment (s : JsString) (h : style.admits s = true)
deriving DecidableEq

def Filler.text {style : CommentStyle} : Filler style → JsString
  | .blank s _ => s
  | .comment s _ => s

abbrev Gap (style : CommentStyle) := List (Filler style)

/-- A run of tokens with what stands between them. -/
structure Piece (style : CommentStyle) where
  head : Token
  rest : List (Gap style × Token)
deriving DecidableEq

def Gap.text {style : CommentStyle} (g : Gap style) : JsString := g.flatMap Filler.text

def Piece.text {style : CommentStyle} (p : Piece style) : JsString :=
  p.head.text ++ p.rest.flatMap fun r => r.1.text ++ r.2.text

def Piece.tokens {style : CommentStyle} (p : Piece style) : List Token := p.head :: p.rest.map (·.2)

/-! ## Nodes from parts -/

/-- A part of a node: its text, and the children it gives. -/
abbrev Part := JsString × List (Option Field × Node)

def commentNode (s : JsString) : Node := .mk .comment true s []

def Filler.node? {style : CommentStyle} : Filler style → Option Node
  | .blank _ _ => none
  | .comment s _ => some (commentNode s)

/-- The comments of a gap are nodes in no field. -/
def Gap.part {style : CommentStyle} (g : Gap style) : Part :=
  (g.text, (g.filterMap Filler.node?).map fun n => (none, n))

/-- A token of the grammar itself. -/
def anonymous (s : String) : Part := (ascii s, [(none, .mk .other false (ascii s) [])])

def Piece.comments {style : CommentStyle} (p : Piece style) : List (Option Field × Node) :=
  p.rest.flatMap fun r => (Gap.part r.1).2

def Piece.node {style : CommentStyle} (kind : Kind) (p : Piece style) : Node := .mk kind true p.text p.comments

def Piece.part {style : CommentStyle} (field : Option Field) (kind : Kind) (p : Piece style) : Part :=
  (p.text, [(field, p.node kind)])

def Token.part (field : Option Field) (kind : Kind) (t : Token) : Part := (t.text, [(field, .mk kind true t.text [])])

def nodeOf (kind : Kind) (parts : List Part) : Node := .mk kind true (parts.flatMap (·.1)) (parts.flatMap (·.2))

/-! ## Call shapes -/

/-- What a positional slot asks of a caller. -/
inductive Shape where
  | required | optional | variadic
deriving DecidableEq, Repr

/-- The arguments that reach the last required slot. -/
def requiredCount : List Shape → Nat
  | [] => 0
  | s :: rest => if .required ∈ rest then requiredCount rest + 1 else if s = .required then 1 else 0

/-- The numbers of positional arguments that a caller may pass. -/
def Accepts (shapes : List Shape) (n : Nat) : Prop :=
  requiredCount shapes ≤ n ∧ (n ≤ (shapes.filter (· ≠ .variadic)).length ∨ .variadic ∈ shapes)

/-! ## Python -/

/-- The parameters of Python, over what a gap and a run of tokens are. -/
inductive PyParam (gap piece : Type) where
  | plain (name : Token)
  | typed (name : Token) (g₁ g₂ : gap) (type : piece)
  | defaulted (name : Token) (g₁ g₂ : gap) (value : piece)
  | typedDefault (name : Token) (g₁ g₂ : gap) (type : piece) (g₃ g₄ : gap) (value : piece)
  /-- `*args`, or `**kwargs` -/
  | splat (keywords : Bool) (g : gap) (name : Token)
  | typedSplat (keywords : Bool) (g : gap) (name : Token) (g₁ g₂ : gap) (type : piece)
  | keywordSeparator
  | positionalSeparator

namespace PyParam

def map {gap gap' piece piece' : Type} (f : gap → gap') (h : piece → piece') : PyParam gap piece → PyParam gap' piece'
  | plain name => plain name
  | typed name g₁ g₂ type => typed name (f g₁) (f g₂) (h type)
  | defaulted name g₁ g₂ value => defaulted name (f g₁) (f g₂) (h value)
  | typedDefault name g₁ g₂ type g₃ g₄ value => typedDefault name (f g₁) (f g₂) (h type) (f g₃) (f g₄) (h value)
  | splat keywords g name => splat keywords (f g) name
  | typedSplat keywords g name g₁ g₂ type => typedSplat keywords (f g) name (f g₁) (f g₂) (h type)
  | keywordSeparator => keywordSeparator
  | positionalSeparator => positionalSeparator

def splatNode {style : CommentStyle} (keywords : Bool) (g : Gap style) (name : Token) : Node :=
  nodeOf (if keywords then .dictionarySplatPattern else .listSplatPattern)
    [anonymous (if keywords then "**" else "*"), g.part, name.part none .identifier]

def node {style : CommentStyle} : PyParam (Gap style) (Piece style) → Node
  | plain name => .mk .identifier true name.text []
  | typed name g₁ g₂ type =>
    nodeOf .typedParameter
      [name.part none .identifier, g₁.part, anonymous ":", g₂.part, type.part (some .type) .other]
  | defaulted name g₁ g₂ value =>
    nodeOf .defaultParameter
      [name.part (some .name) .identifier, g₁.part, anonymous "=", g₂.part, value.part (some .other) .other]
  | typedDefault name g₁ g₂ type g₃ g₄ value =>
    nodeOf .typedDefaultParameter
      [name.part (some .name) .identifier, g₁.part, anonymous ":", g₂.part, type.part (some .type) .other, g₃.part,
        anonymous "=", g₄.part, value.part (some .other) .other]
  | splat keywords g name => splatNode keywords g name
  | typedSplat keywords g name g₁ g₂ type =>
    let pattern := splatNode keywords g name
    nodeOf .typedParameter
      [(pattern.text, [(none, pattern)]), g₁.part, anonymous ":", g₂.part, type.part (some .type) .other]
  | keywordSeparator => .mk .keywordSeparator true (ascii "*") []
  | positionalSeparator => .mk .positionalSeparator true (ascii "/") []

variable {gap piece : Type}

def isSeparator : PyParam gap piece → Bool
  | keywordSeparator | positionalSeparator => true
  | _ => false

def isSplat : PyParam gap piece → Bool
  | splat _ _ _ | typedSplat _ _ _ _ _ _ => true
  | _ => false

/-- The parameters without the receiver of a method, which takes the first positional one. -/
def withoutReceiver (method : Bool) : List (PyParam gap piece) → List (PyParam gap piece)
  | [] => []
  | p :: rest => if method && !p.isSeparator && !p.isSplat then rest else p :: rest

/-- The positional slots; those behind a star are passed by name. -/
def shapes : List (PyParam gap piece) → List Shape
  | [] => []
  | plain _ :: rest | typed _ _ _ _ :: rest => .required :: shapes rest
  | defaulted _ _ _ _ :: rest | typedDefault _ _ _ _ _ _ _ :: rest => .optional :: shapes rest
  | splat keywords _ _ :: _ | typedSplat keywords _ _ _ _ _ :: _ => if keywords then [] else [.variadic]
  | keywordSeparator :: _ => []
  | positionalSeparator :: rest => shapes rest

end PyParam

/-! ## JavaScript -/

inductive PatternKind where
  | identifier | object | array
deriving DecidableEq, Repr

def PatternKind.kind : PatternKind → Kind
  | .identifier => .identifier
  | .object => .objectPattern
  | .array => .arrayPattern

inductive JsParam (gap piece : Type) where
  | pattern (kind : PatternKind) (pattern : piece)
  | assignment (kind : PatternKind) (pattern : piece) (g₁ g₂ : gap) (value : piece)
  | rest (g : gap) (kind : PatternKind) (pattern : piece)

namespace JsParam

def map {gap gap' piece piece' : Type} (f : gap → gap') (h : piece → piece') : JsParam gap piece → JsParam gap' piece'
  | pattern kind p => pattern kind (h p)
  | assignment kind p g₁ g₂ value => assignment kind (h p) (f g₁) (f g₂) (h value)
  | rest g kind p => rest (f g) kind (h p)

def restNode {style : CommentStyle} (g : Gap style) (kind : PatternKind) (p : Piece style) : Node :=
  nodeOf .restPattern [anonymous "...", g.part, p.part none kind.kind]

def node {style : CommentStyle} : JsParam (Gap style) (Piece style) → Node
  | pattern kind p => p.node kind.kind
  | assignment kind p g₁ g₂ value =>
    nodeOf .assignmentPattern
      [p.part (some .other) kind.kind, g₁.part, anonymous "=", g₂.part, value.part (some .other) .other]
  | rest g kind p => restNode g kind p

variable {gap piece : Type}

def shape : JsParam gap piece → Shape
  | pattern _ _ => .required
  | assignment _ _ _ _ _ => .optional
  | rest _ _ _ => .variadic

end JsParam

/-! ## TypeScript -/

/-- `fixed` has the gap before its `?` if it is optional, its annotation and its initializer, each
with the gaps around the `:` or the `=`. -/
inductive TsParam (gap piece : Type) where
  | fixed (modifiers : List (piece × gap)) (kind : PatternKind) (pattern : piece) (optional : Option gap)
      (type value : Option (gap × gap × piece))
  | rest (g : gap) (kind : PatternKind) (pattern : piece) (type : Option (gap × gap × piece))
  /-- the type of `this`, which no caller passes -/
  | this (type : Option (gap × gap × piece))

namespace TsParam

def mapClause {gap gap' piece piece' : Type} (f : gap → gap') (h : piece → piece') (c : gap × gap × piece) :
    gap' × gap' × piece' := (f c.1, f c.2.1, h c.2.2)

def map {gap gap' piece piece' : Type} (f : gap → gap') (h : piece → piece') : TsParam gap piece → TsParam gap' piece'
  | fixed modifiers kind p optional type value =>
    fixed (modifiers.map fun m => (h m.1, f m.2)) kind (h p) (optional.map f) (type.map (mapClause f h))
      (value.map (mapClause f h))
  | rest g kind p type => rest (f g) kind (h p) (type.map (mapClause f h))
  | this type => this (type.map (mapClause f h))

/-- The annotation with its colon is one node. -/
def typeParts {style : CommentStyle} : Option (Gap style × Gap style × Piece style) → List Part
  | none => []
  | some (g₁, g₂, p) =>
    let clause := nodeOf .typeClause [anonymous ":", g₂.part, p.part none .other]
    [g₁.part, (clause.text, [(some .type, clause)])]

def valueParts {style : CommentStyle} : Option (Gap style × Gap style × Piece style) → List Part
  | none => []
  | some (g₁, g₂, p) => [g₁.part, anonymous "=", g₂.part, p.part (some .other) .other]

def optionalParts {style : CommentStyle} : Option (Gap style) → List Part
  | none => []
  | some g => [g.part, anonymous "?"]

def node {style : CommentStyle} : TsParam (Gap style) (Piece style) → Node
  | fixed modifiers kind p optional type value =>
    nodeOf (if optional.isSome then .optionalParameter else .requiredParameter)
      (modifiers.flatMap (fun m => [m.1.part none .other, m.2.part]) ++ [p.part (some .pattern) kind.kind] ++
        optionalParts optional ++ typeParts type ++ valueParts value)
  | rest g kind p type =>
    let pattern := JsParam.restNode g kind p
    nodeOf .requiredParameter ((pattern.text, [(some .pattern, pattern)]) :: typeParts type)
  | this type =>
    nodeOf .requiredParameter ((ascii "this", [(some .pattern, .mk .other true (ascii "this") [])]) :: typeParts type)

variable {gap piece : Type}

def isThis : TsParam gap piece → Bool
  | this _ => true
  | _ => false

def shape? : TsParam gap piece → Option Shape
  | fixed _ _ _ optional _ value => some (if optional.isSome || value.isSome then .optional else .required)
  | rest _ _ _ _ => some .variadic
  | this _ => none

end TsParam

/-! ## Rust -/

inductive RsParam (gap piece : Type) where
  /-- `self`, `&self`, `mut self` -/
  | selfParam (text : piece)
  | typedSelf (g₁ g₂ : gap) (type : piece)
  | typed (pattern : piece) (g₁ g₂ : gap) (type : piece)
  /-- a type alone, in a trait of the first edition -/
  | bare (type : piece)
  | variadic (text : piece)
  /-- `#[cfg(..)]` before a parameter -/
  | attributeItem (text : piece)

namespace RsParam

def map {gap gap' piece piece' : Type} (f : gap → gap') (h : piece → piece') : RsParam gap piece → RsParam gap' piece'
  | selfParam p => selfParam (h p)
  | typedSelf g₁ g₂ type => typedSelf (f g₁) (f g₂) (h type)
  | typed p g₁ g₂ type => typed (h p) (f g₁) (f g₂) (h type)
  | bare type => bare (h type)
  | variadic p => variadic (h p)
  | attributeItem p => attributeItem (h p)

def node {style : CommentStyle} : RsParam (Gap style) (Piece style) → Node
  | selfParam p => p.node .selfParameter
  | typedSelf g₁ g₂ type =>
    nodeOf .parameter [(ascii "self", [(some .pattern, .mk .other true (ascii "self") [])]), g₁.part, anonymous ":",
      g₂.part, type.part (some .type) .other]
  | typed p g₁ g₂ type =>
    nodeOf .parameter [p.part (some .pattern) .other, g₁.part, anonymous ":", g₂.part, type.part (some .type) .other]
  | bare type => type.node .other
  | variadic p => p.node .variadicParameter
  | attributeItem p => p.node .attributeItem

variable {gap piece : Type}

def shape? : RsParam gap piece → Option Shape
  | selfParam _ | typedSelf _ _ _ | attributeItem _ => none
  | typed _ _ _ _ | bare _ => some .required
  | variadic _ => some .variadic

end RsParam

/-! ## Go -/

/-- Any number of names, the gaps around the comma behind each but the last, and their type. -/
structure GoParam (gap piece : Type) where
  names : List (Token × gap × gap)
  before : gap
  ellipsis : Option gap
  type : piece

namespace GoParam

def map {gap gap' piece piece' : Type} (f : gap → gap') (h : piece → piece') (p : GoParam gap piece) :
    GoParam gap' piece' :=
  ⟨p.names.map fun n => (n.1, f n.2.1, f n.2.2), f p.before, p.ellipsis.map f, h p.type⟩

def nameParts {style : CommentStyle} : List (Token × Gap style × Gap style) → List Part
  | [] => []
  | [n] => [n.1.part (some .name) .identifier]
  | n :: n' :: rest =>
    n.1.part (some .name) .identifier :: n.2.1.part :: anonymous "," :: n.2.2.part :: nameParts (n' :: rest)

def ellipsisParts {style : CommentStyle} : Option (Gap style) → List Part
  | none => []
  | some g => [anonymous "...", g.part]

def node {style : CommentStyle} (p : GoParam (Gap style) (Piece style)) : Node :=
  nodeOf (if p.ellipsis.isSome then .variadicParameterDeclaration else .parameterDeclaration)
    (nameParts p.names ++ p.before.part :: (ellipsisParts p.ellipsis ++ [p.type.part (some .type) .other]))

variable {gap piece : Type}

/-- The slots that the names share the type of; one without a name. -/
def shapes (p : GoParam gap piece) : List Shape :=
  List.replicate (max p.names.length 1) (if p.ellipsis.isSome then .variadic else .required)

end GoParam

/-! ## Declarations -/

/-- What the five have in common. -/
structure Grammar where
  language : Language
  style : CommentStyle
  Param : Type
  Skeleton : Type
  listKind : Kind
  node : Param → Node
  named : ∀ p, (node p).named = true
  /-- What is left of a parameter without its layout. -/
  skeleton : Param → Skeleton
  legal : Param → Prop
  /-- The declared slots but the receiver, of a method or of a function. -/
  slots : Bool → List Param → Nat
  shapes : Bool → List Param → List Shape

def dot : UInt16 := 0x2E

abbrev python : Grammar where
  language := .python
  style := .hash
  Param := PyParam (Gap .hash) (Piece .hash)
  Skeleton := PyParam Unit (List Token)
  listKind := .parameters
  node := PyParam.node
  named p := by cases p <;> rfl
  skeleton := PyParam.map (fun _ => ()) Piece.tokens
  legal _ := True
  slots method ps := ((PyParam.withoutReceiver method ps).filter (!·.isSeparator)).length
  shapes method ps := PyParam.shapes (PyParam.withoutReceiver method ps)

abbrev typescript (language : Language) : Grammar where
  language := language
  style := .slashes
  Param := TsParam (Gap .slashes) (Piece .slashes)
  Skeleton := TsParam Unit (List Token)
  listKind := .formalParameters
  node := TsParam.node
  named p := by cases p <;> rfl
  skeleton := TsParam.map (fun _ => ()) Piece.tokens
  legal _ := True
  slots _ ps := (ps.filter (!·.isThis)).length
  shapes _ ps := ps.filterMap TsParam.shape?

abbrev javascript : Grammar where
  language := .javascript
  style := .slashes
  Param := JsParam (Gap .slashes) (Piece .slashes)
  Skeleton := JsParam Unit (List Token)
  listKind := .formalParameters
  node := JsParam.node
  named p := by cases p <;> rfl
  skeleton := JsParam.map (fun _ => ()) Piece.tokens
  legal _ := True
  slots _ ps := ps.length
  shapes _ ps := ps.map JsParam.shape

abbrev rust : Grammar where
  language := .rust
  style := .slashes
  Param := RsParam (Gap .slashes) (Piece .slashes)
  Skeleton := RsParam Unit (List Token)
  listKind := .parameters
  node := RsParam.node
  named p := by cases p <;> rfl
  skeleton := RsParam.map (fun _ => ()) Piece.tokens
  legal _ := True
  slots _ ps := (ps.filterMap RsParam.shape?).length
  shapes _ ps := ps.filterMap RsParam.shape?

/-- No type of Go begins with a dot. -/
abbrev go : Grammar where
  language := .go
  style := .slashes
  Param := GoParam (Gap .slashes) (Piece .slashes)
  Skeleton := GoParam Unit (List Token)
  listKind := .parameterList
  node := GoParam.node
  named _ := rfl
  skeleton := GoParam.map (fun _ => ()) Piece.tokens
  legal p := p.type.head.text.head? ≠ some dot
  slots _ ps := (ps.flatMap GoParam.shapes).length
  shapes _ ps := ps.flatMap GoParam.shapes

def grammar : Language → Grammar
  | .python => python
  | .typescript => typescript .typescript
  | .tsx => typescript .tsx
  | .astro => typescript .astro
  | .javascript => javascript
  | .rust => rust
  | .go => go

/-- What stands in a parameter list. -/
inductive Item (G : Grammar) where
  | param (p : G.Param)
  | comma
  | filler (f : Filler G.style)

namespace Item
variable {G : Grammar}

def param? : Item G → Option G.Param
  | param p => some p
  | _ => none

def part : Item G → Part
  | param p => ((G.node p).text, [(none, G.node p)])
  | comma => anonymous ","
  | filler f => Gap.part [f]

end Item

/-- A declaration of a grammar where it stands: its list, what is before and behind the list
(the name, the result, the body), and the nodes around it. -/
structure Decl (G : Grammar) where
  name : JsString
  method : Bool
  items : List (Item G)
  before : List (Option Field × Node)
  after : List (Option Field × Node)
  ancestors : List Node
  text : JsString
  legal : ∀ p ∈ items.filterMap Item.param?, G.legal p
  list_first : ∀ c ∈ before, c.1 ≠ some .parameters

namespace Decl
variable {G : Grammar}

def params (d : Decl G) : List G.Param := d.items.filterMap Item.param?

def listNode (d : Decl G) : Node :=
  nodeOf G.listKind (anonymous "(" :: (d.items.map Item.part ++ [anonymous ")"]))

def node (d : Decl G) : Node := .mk .other true d.text (d.before ++ (some .parameters, d.listNode) :: d.after)

def signature (isUppercase : JsString → Bool) (d : Decl G) : Signature :=
  extractSignature isUppercase ⟨d.node, d.ancestors⟩ d.name G.language

def slots (d : Decl G) : Nat := G.slots d.method d.params

/-- A caller may pass so many positional arguments. -/
def Accepts (d : Decl G) (n : Nat) : Prop := Signatures.Accepts (G.shapes d.method d.params) n

end Decl

end Hayven.Native.Signatures
