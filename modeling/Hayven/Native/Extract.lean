import Hayven.Graph.Types
import Hayven.Lib.Segments
/-!
# Names of the definitions of a file

`native/src/parse/language.rs`, and of `extract.rs` the module name of a file and
the qualified names of its definitions. Parsing and the tree queries belong to
tree-sitter: a `Match` is what a query reports, the captured node together with
the nodes around it, innermost first.
-/
open Hayven.Lib Hayven.Graph

namespace Hayven.Native

/-! ## Paths -/

def slash : UInt16 := 0x2F

def dot : UInt16 := 0x2E

/-- A name that can stand between two slashes. -/
def Segment (s : JsString) : Prop := s ≠ [] ∧ slash ∉ s ∧ s ≠ [dot] ∧ s ≠ [dot, dot]

instance (s : JsString) : Decidable (Segment s) := inferInstanceAs (Decidable (_ ∧ _ ∧ _ ∧ _))

/-- The path of a file relative to the parse root. -/
structure RepoPath where
  dir : List JsString
  name : JsString
  segments : ∀ s ∈ dir, Segment s
  named : Segment name
deriving DecidableEq

namespace RepoPath

/-- The path with forward slashes, as the records of the file carry it. -/
def text (path : RepoPath) : JsString := below slash path.dir path.name

theorem slash_not_mem_dir (path : RepoPath) : ∀ s ∈ path.dir, slash ∉ s := fun s hs => (path.segments s hs).2.1

end RepoPath

/-- The name before its last dot; a name that only starts with a dot is its own stem. -/
def fileStem (name : JsString) : JsString :=
  match lastIndexOf dot name with
  | some (n + 1) => name.take (n + 1)
  | _ => name

/-- What follows the last dot. -/
def extension (name : JsString) : Option JsString :=
  match lastIndexOf dot name with
  | some (n + 1) => some (name.drop (n + 2))
  | _ => none

/-! ## Languages -/

inductive Language where
  | python | typescript | tsx | javascript | rust | go | astro
deriving DecidableEq

namespace Language

def fromExtension (ext : JsString) : Option Language :=
  if ext = ascii "py" then some .python
  else if ext ∈ [ascii "ts", ascii "cts", ascii "mts"] then some .typescript
  else if ext = ascii "tsx" then some .tsx
  else if ext ∈ [ascii "js", ascii "mjs", ascii "cjs", ascii "jsx"] then some .javascript
  else if ext = ascii "rs" then some .rust
  else if ext = ascii "go" then some .go
  else if ext = ascii "astro" then some .astro
  else none

def qualifiedSeparator : Language → JsString
  | .rust => ascii "::"
  | _ => ascii "."

end Language

/-! ## Module names -/

/-- Files that take the name of their directory. -/
def parentNamedFiles : List JsString := [ascii "__init__.py", ascii "mod.rs", ascii "lib.rs", ascii "main.rs"]

def moduleNameFor (path : RepoPath) : JsString :=
  let stem := fileStem path.name
  let own := if stem.isEmpty then path.text else stem
  let parent := path.dir.getLast?.getD []
  if path.name ∈ parentNamedFiles ∧ ¬ parent.isEmpty then parent else own

/-! ## Syntax nodes -/

/-- The kinds of node that the walks below look at. -/
inductive SyntaxKind where
  | classDefinition | classDeclaration | implItem | traitItem
  | functionDeclaration | methodDefinition | arrowFunction | functionExpression
  | variableDeclarator | publicFieldDefinition | fieldDefinition
  | object | pair | callExpression | memberExpression | identifier | string | stringFragment | other
deriving DecidableEq

inductive FieldName where
  | name | type | trait | property | key | value | function | arguments | object | left
deriving DecidableEq

/-- A syntax node with its text and its named children. -/
inductive SyntaxNode where
  | mk (kind : SyntaxKind) (text : JsString) (children : List (Option FieldName × SyntaxNode))

namespace SyntaxNode

def kind : SyntaxNode → SyntaxKind
  | mk kind _ _ => kind

def text : SyntaxNode → JsString
  | mk _ text _ => text

def children : SyntaxNode → List (Option FieldName × SyntaxNode)
  | mk _ _ children => children

/-- `child_by_field_name`. -/
def field (f : FieldName) (n : SyntaxNode) : Option SyntaxNode :=
  (n.children.find? (·.1 = some f)).map (·.2)

def fieldText (f : FieldName) (n : SyntaxNode) : Option JsString := (n.field f).map text

/-- The named children of a kind. -/
def childrenOf (k : SyntaxKind) (n : SyntaxNode) : List SyntaxNode :=
  (n.children.map (·.2)).filter (·.kind = k)

end SyntaxNode

/-- What a query captured a definition as. -/
inductive Capture where
  | function | method
  | class : Capture
  | arrow | pair | field | cjsExport
deriving DecidableEq

structure Match where
  capture : Capture
  name : JsString
  node : SyntaxNode
  /-- The nodes that enclose it, innermost first. -/
  parents : List SyntaxNode

/-! ## Qualified names -/

/-- The name that an enclosing node gives to the definitions in it. -/
def enclosingName (language : Language) (p : SyntaxNode) : Option JsString :=
  match language, p.kind with
  | .python, .classDefinition => p.fieldText .name
  | .javascript, .classDeclaration | .typescript, .classDeclaration
  | .tsx, .classDeclaration | .astro, .classDeclaration => p.fieldText .name
  | .rust, .implItem => p.fieldText .type
  | .rust, .traitItem => p.fieldText .name
  | _, _ => none

def qualifiedName (bare : JsString) (language : Language) (parents : List SyntaxNode) : JsString :=
  let names := (parents.filterMap (enclosingName language)).reverse
  if names.isEmpty then bare else language.qualifiedSeparator.intercalate (names ++ [bare])

/-- The binding that an object literal has: a variable, or the key of a pair. -/
def boundObjectName : List SyntaxNode → Option JsString
  | object :: binder :: _ =>
    if object.kind ≠ .object then none
    else if binder.kind = .variableDeclarator then binder.fieldText .name
    else if binder.kind = .pair then binder.fieldText .key
    else none
  | _ => none

def pairValueIsCallable (pair : SyntaxNode) : Bool :=
  match (pair.field .value).map SyntaxNode.kind with
  | some .arrowFunction | some .functionExpression => true
  | _ => false

/-- The first piece of a string among the arguments of a call. -/
def stringArgument (call : SyntaxNode) : Option JsString :=
  (call.field .arguments).bind fun args =>
    (args.childrenOf .string).findSome? fun arg =>
      ((arg.childrenOf .stringFragment).map SyntaxNode.text).find? fun t => !t.isEmpty

def calleeProperty (call : SyntaxNode) : Option JsString :=
  (call.field .function).bind fun callee =>
    if callee.kind = .memberExpression then callee.fieldText .property else none

/-- The first string given to any call around the pair; without one, the innermost method called. -/
def enclosingBuilderFieldName (parents : List SyntaxNode) : Option JsString :=
  let calls := parents.filter (·.kind = .callExpression)
  (calls.findSome? stringArgument).orElse fun _ => calls.findSome? calleeProperty

/-- The name that a variable or a class field gives to the function it is bound to. -/
def declaratorName (decl : SyntaxNode) : Option JsString :=
  match decl.kind with
  | .variableDeclarator => decl.fieldText .name
  | .publicFieldDefinition | .fieldDefinition => ((decl.field .name).orElse fun _ => decl.field .property).map SyntaxNode.text
  | _ => none

/-- The names of the definitions around a function, innermost first. -/
def enclosingSegments : List SyntaxNode → List JsString
  | [] => []
  | p :: rest =>
    let own := match p.kind with
      | .classDeclaration | .functionDeclaration | .methodDefinition => p.fieldText .name
      | .arrowFunction | .functionExpression => rest.head?.bind declaratorName
      | _ => none
    own.toList ++ enclosingSegments rest

def arrowQualifiedName (bare : JsString) (parents : List SyntaxNode) (isPair : Bool) : JsString :=
  let object := if isPair then (boundObjectName parents).orElse fun _ => enclosingBuilderFieldName parents else none
  let segments := object.toList ++ enclosingSegments parents
  if segments.isEmpty then bare else [slash].intercalate (segments.reverse ++ [bare])

/-! ## Records -/

/-- `exports.foo = …` and `module.exports.foo = …`. -/
def cjsExportTarget (assignment : SyntaxNode) : Bool :=
  match assignment.field .left with
  | none => false
  | some left =>
    if left.kind ≠ .memberExpression then false
    else match left.field .object with
      | none => false
      | some object =>
        match object.kind with
        | .identifier => object.text = ascii "exports"
        | .memberExpression =>
          object.fieldText .object = some (ascii "module") && object.fieldText .property = some (ascii "exports")
        | _ => false

/-- Whether a captured node becomes an entity. -/
def promoted (m : Match) : Bool :=
  match m.capture with
  | .cjsExport => cjsExportTarget m.node
  | .pair =>
    (boundObjectName m.parents).isSome ||
      (pairValueIsCallable m.node && (enclosingBuilderFieldName m.parents).isSome)
  | _ => true

/-- The enclosing nodes that make a function a method. -/
def hasMethodAncestor (language : Language) (parents : List SyntaxNode) : Bool :=
  match language with
  | .python => parents.any (·.kind = .classDefinition)
  | .rust => parents.any fun p => p.kind = .implItem || p.kind = .traitItem
  | _ => false

def resolveKind (language : Language) (m : Match) : NodeKind :=
  match m.capture with
  | .method | .pair | .field => .method
  | .class => .class
  | .function | .arrow | .cjsExport => if hasMethodAncestor language m.parents then .method else .function

def matchQualifiedName (language : Language) (m : Match) : JsString :=
  match m.capture with
  | .arrow => arrowQualifiedName m.name m.parents false
  | .pair => arrowQualifiedName m.name m.parents true
  | _ => qualifiedName m.name language m.parents

/-- White space for Rust: `char::is_whitespace`. -/
def isRustSpace (u : UInt16) : Bool :=
  (0x9 ≤ u && u ≤ 0xD) || u = 0x20 || u = 0x85 || u = 0xA0 || u = 0x1680 || (0x2000 ≤ u && u ≤ 0x200A) ||
    u = 0x2028 || u = 0x2029 || u = 0x202F || u = 0x205F || u = 0x3000

/-- `split_whitespace` and `join(" ")`. -/
def collapse (text : JsString) : JsString :=
  (ascii " ").intercalate ((text.splitOnP isRustSpace).filter fun w => !w.isEmpty)

/-- The name of the node that covers an impl block. -/
def rustImplName (impl : SyntaxNode) : Option JsString :=
  let read (f : FieldName) : Option JsString :=
    ((impl.fieldText f).map collapse).filter fun s => !s.isEmpty
  (read .type).map fun typeText =>
    match read .trait with
    | some tr => ascii "impl " ++ tr ++ ascii " for " ++ typeText
    | none => ascii "impl " ++ typeText

/-- A parsed file: what the queries report on it, and its impl blocks. -/
structure SourceFile where
  path : RepoPath
  language : Language
  captures : List Match
  impls : List SyntaxNode

namespace SourceFile

def moduleRecord (f : SourceFile) : NodeRecord :=
  { file := f.path.text, name := moduleNameFor f.path, kind := .module, qualifiedName := moduleNameFor f.path }

def definitionRecord (f : SourceFile) (m : Match) : NodeRecord :=
  { file := f.path.text, name := m.name, kind := resolveKind f.language m
    qualifiedName := matchQualifiedName f.language m }

def implRecord (f : SourceFile) (name : JsString) : NodeRecord :=
  { file := f.path.text, name := name, kind := .other, qualifiedName := name }

def definitions (f : SourceFile) : List NodeRecord :=
  (f.captures.filter promoted).map f.definitionRecord ++
    if f.language = .rust then (f.impls.filterMap rustImplName).map f.implRecord else []

/-- The node records of a file, its module first. -/
def nodeRecords (f : SourceFile) : List NodeRecord := f.moduleRecord :: f.definitions

theorem file_of_mem {f : SourceFile} {r : NodeRecord} (h : r ∈ f.nodeRecords) : r.file = f.path.text := by
  rw [nodeRecords, List.mem_cons, definitions, List.mem_append, List.mem_map] at h
  rcases h with rfl | ⟨m, -, rfl⟩ | h
  · rfl
  · rfl
  · by_cases hrust : f.language = .rust
    · rw [if_pos hrust, List.mem_map] at h
      obtain ⟨name, -, rfl⟩ := h
      rfl
    · rw [if_neg hrust] at h
      exact absurd h List.not_mem_nil

/-- No definition is of kind `module`: that kind is the file's own node. -/
theorem kind_of_mem_definitions {f : SourceFile} {r : NodeRecord} (h : r ∈ f.definitions) : r.kind ≠ .module := by
  rw [definitions, List.mem_append, List.mem_map] at h
  rcases h with ⟨m, -, rfl⟩ | h
  · show resolveKind f.language m ≠ .module
    have hfunction : ∀ b : Bool, (if b then NodeKind.method else .function) ≠ .module := by decide
    rcases m with ⟨capture, name, node, parents⟩
    cases capture with
    | function | arrow | cjsExport => exact hfunction _
    | _ => exact NodeKind.noConfusion
  · by_cases hrust : f.language = .rust
    · rw [if_pos hrust, List.mem_map] at h
      obtain ⟨name, -, rfl⟩ := h
      exact NodeKind.noConfusion
    · rw [if_neg hrust] at h
      exact absurd h List.not_mem_nil

end SourceFile

end Hayven.Native
