import Hayven.Graph.NameIndex
import Hayven.Graph.SpecifierResolve
/-!
# Resolving edges

`EdgeResolver` and `resolveEdges` of `graph/edgeResolver.ts`. The phases have types:
a `NodeIndex` takes nodes, and only the `EdgeResolver` it is sealed into takes imports
and resolves edges.
-/
open Hayven.Lib Hayven.Native

namespace Hayven.Graph

/-- A definition of a file, as the per-file indexes key it. -/
def fileKey (file name : JsString) : JsString := file ++ ascii "::" ++ name

/-! ## Nodes -/

structure NodeIndex where
  config : RepoConfig
  nodeStubs : List GraphNode
  byFileName : KeyedMap JsString JsString
  byFileQn : KeyedMap JsString JsString
  names : PackageScopedNameIndex
  pkgById : KeyedMap JsString JsString

namespace NodeIndex

def empty (config : RepoConfig) : NodeIndex := ⟨config, [], .empty, .empty, .empty, .empty⟩

def addNode (index : NodeIndex) (n : GraphNode) : NodeIndex where
  config := index.config
  nodeStubs := index.nodeStubs ++ [n]
  byFileName := index.byFileName.set (fileKey n.file n.name) n.id
  byFileQn := index.byFileQn.set (fileKey n.file n.qualifiedName) n.id
  names := index.names.add (index.config.pkgOf n.file) n
  pkgById := index.pkgById.set n.id (index.config.pkgOf n.file)

end NodeIndex

/-! ## Imports -/

/-- The names an import binds in its file. -/
structure ImportBinding where
  localBindings : List JsString
  spec : JsString
  aliases : KeyedMap JsString JsString

structure EdgeResolver extends NodeIndex where
  specs : SpecifierResolver
  importsByFile : KeyedMap JsString (List ImportBinding)

def NodeIndex.sealNodes (index : NodeIndex) : EdgeResolver :=
  { index with specs := .ofNodes index.config index.nodeStubs, importsByFile := .empty }

/-- One resolved call: where the caller calls. -/
structure CallSite where
  dst : JsString
  src : JsString
  kind : EdgeKind
  file : JsString
  line : Nat
  col : Nat
deriving DecidableEq

structure EdgeOutcome where
  edge : GraphEdge
  resolved : Bool
  site : Option CallSite
deriving DecidableEq

def isCallEdgeKind (kind : EdgeKind) : Bool := kind = .staticCall || kind = .traceCall

namespace EdgeResolver

/-- What an import edge with bindings witnesses. -/
def bindingOf (e : RawEdge) : ImportBinding :=
  ⟨e.localBindings, e.dstName, e.importAliases.foldl (fun m p => m.set p.localName p.imported) .empty⟩

def addImportEdge (r : EdgeResolver) (e : RawEdge) : EdgeResolver :=
  if e.kind = .import ∧ e.localBindings ≠ [] then
    let bindings := (r.importsByFile.get e.srcFile).getD []
    { r with importsByFile := r.importsByFile.set e.srcFile (bindings ++ [bindingOf e]) }
  else r

/-- The first import of a file that binds a name. -/
def importBinding (r : EdgeResolver) (file name : JsString) : Option ImportBinding :=
  ((r.importsByFile.get file).getD []).find? (name ∈ ·.localBindings)

/-! ## One edge -/

def lookupInPackage (r : EdgeResolver) (pkg name : JsString) : Option JsString := r.names.lookup pkg name

def hasId (r : EdgeResolver) (id : JsString) : Bool := r.nodeStubs.any (·.id = id)

/-- The file first, then the package. -/
def resolveByName (r : EdgeResolver) (srcFile name : JsString) : Option JsString :=
  (truthy (r.byFileName.get (fileKey srcFile name))).or (truthy (r.lookupInPackage (r.config.pkgOf srcFile) name))

/-- The module that an import of a file resolves to. -/
def boundModule (r : EdgeResolver) (srcFile : JsString) (imp : ImportBinding) : Option JsString :=
  truthy (r.specs.resolve srcFile imp.spec)

/-- The ids a member call may stand for under a module, the most specific first. -/
def memberCandidates (e : RawEdge) (receiver : JsString) (imp : ImportBinding) (moduleId : JsString) : List JsString :=
  let member := slash :: e.dstName
  let deep :=
    if e.receiverChain.length > 1 then
      [moduleId ++ slash :: [slash].intercalate e.receiverChain.tail ++ member]
    else
      let exported := (truthy (imp.aliases.get receiver)).filter (· ≠ receiver)
      (receiver :: exported.toList).map fun recv => moduleId ++ slash :: recv ++ member
  let component := if e.receiverChain = [] ∧ receiver = e.dstName then [moduleId] else []
  deep ++ [moduleId ++ member] ++ component

/-- The name under which a bare callee's import exports it. -/
def exportedName (e : RawEdge) (imp : ImportBinding) : JsString := (imp.aliases.get e.dstName).getD e.dstName

/-- The name that an import has to bind: the callee, or the root of its receivers. -/
def rootName (e : RawEdge) : JsString :=
  match truthy e.receiver with
  | some receiver => e.receiverChain.head?.getD receiver
  | none => e.dstName

/-- The ids a call may stand for under the module that its import pins. -/
def candidateIds (e : RawEdge) (imp : ImportBinding) (moduleId : JsString) : List JsString :=
  match truthy e.receiver with
  | some receiver => memberCandidates e receiver imp moduleId
  | none => [moduleId ++ slash :: exportedName e imp]

/-- The name that is looked up in that module's package if no candidate exists. -/
def memberName (e : RawEdge) (imp : ImportBinding) : JsString :=
  match truthy e.receiver with
  | some _ => e.dstName
  | none => exportedName e imp

/-- What a call stands for in the module that its import pins. -/
def importedTarget (r : EdgeResolver) (e : RawEdge) (imp : ImportBinding) (moduleId : JsString) : Option JsString :=
  let pkg := (r.pkgById.get moduleId).getD []
  truthy (((candidateIds e imp moduleId).find? r.hasId).or (r.lookupInPackage pkg (memberName e imp)))

/-- An import that leaves the repository rules every lookup by name out. -/
def resolveCall (r : EdgeResolver) (e : RawEdge) : Option JsString :=
  match r.importBinding e.srcFile (rootName e) with
  | none => r.resolveByName e.srcFile e.dstName
  | some imp =>
    match r.boundModule e.srcFile imp with
    | none => none
    | some moduleId => (r.importedTarget e imp moduleId).or (r.resolveByName e.srcFile e.dstName)

def dstId (r : EdgeResolver) (e : RawEdge) : Option JsString :=
  match e.kind with
  | .import => truthy (r.specs.resolve e.srcFile e.dstName)
  | .staticCall => r.resolveCall e
  | _ => r.resolveByName e.srcFile e.dstName

/-- The enclosing definition, by its name or its qualified name. A source named like
its file stands for the file's module. -/
def srcId (r : EdgeResolver) (e : RawEdge) : Option JsString :=
  let key := fileKey e.srcFile e.srcName
  (truthy ((r.byFileName.get key).or (r.byFileQn.get key))).or
    (if e.srcName = e.srcFile then truthy (r.specs.byFile.get (normalizePosix e.srcFile)) else none)

def callSite (e : RawEdge) (src dst : JsString) : Option CallSite :=
  if isCallEdgeKind e.kind then
    e.line.bind fun line => e.col.map fun col => ⟨dst, src, e.kind, e.srcFile, line, col⟩
  else none

/-- The outcome of one raw edge; an edge without a source is dropped. -/
def resolveOne (r : EdgeResolver) (e : RawEdge) : Option EdgeOutcome :=
  (r.srcId e).map fun src =>
    match r.dstId e with
    | some dst => ⟨⟨src, dst, e.kind, e.weight⟩, true, callSite e src dst⟩
    | none => ⟨⟨src, unresolvedEdgeId e.dstName, e.kind, e.weight⟩, false, none⟩

end EdgeResolver

/-! ## All edges -/

/-- The resolver of some nodes, sealed, and the imports among some edges. -/
def edgeResolver (config : RepoConfig) (nodes : List GraphNode) (rawEdges : List RawEdge) : EdgeResolver :=
  rawEdges.foldl EdgeResolver.addImportEdge (nodes.foldl NodeIndex.addNode (NodeIndex.empty config)).sealNodes

structure ResolvedEdges where
  resolved : List GraphEdge
  unresolved : List GraphEdge
  sites : List CallSite

def outcomes (config : RepoConfig) (nodes : List GraphNode) (rawEdges : List RawEdge) : List EdgeOutcome :=
  rawEdges.filterMap (edgeResolver config nodes rawEdges).resolveOne

def resolveEdges (config : RepoConfig) (nodes : List GraphNode) (rawEdges : List RawEdge) : ResolvedEdges :=
  let outs := outcomes config nodes rawEdges
  { resolved := (outs.filter (·.resolved)).map (·.edge)
    unresolved := (outs.filter (!·.resolved)).map (·.edge)
    sites := outs.filterMap (·.site) }

/-! ## What the resolver holds -/

namespace EdgeResolver

theorem addImportEdge_toNodeIndex (r : EdgeResolver) (e : RawEdge) : (r.addImportEdge e).toNodeIndex = r.toNodeIndex := by
  unfold addImportEdge
  split <;> rfl

theorem foldl_addImportEdge_toNodeIndex (rawEdges : List RawEdge) (r : EdgeResolver) :
    (rawEdges.foldl addImportEdge r).toNodeIndex = r.toNodeIndex := by
  induction rawEdges generalizing r with
  | nil => rfl
  | cons e rawEdges ih => rw [List.foldl_cons, ih, addImportEdge_toNodeIndex]

theorem foldl_addImportEdge_specs (rawEdges : List RawEdge) (r : EdgeResolver) :
    (rawEdges.foldl addImportEdge r).specs = r.specs := by
  induction rawEdges generalizing r with
  | nil => rfl
  | cons e rawEdges ih =>
    rw [List.foldl_cons, ih, addImportEdge]
    split <;> rfl

end EdgeResolver

/-- Each index of the nodes is filled on its own. -/
theorem foldl_addNode (nodes : List GraphNode) (index : NodeIndex) :
    nodes.foldl NodeIndex.addNode index =
      { config := index.config
        nodeStubs := index.nodeStubs ++ nodes
        byFileName := nodes.foldl (fun m n => m.set (fileKey n.file n.name) n.id) index.byFileName
        byFileQn := nodes.foldl (fun m n => m.set (fileKey n.file n.qualifiedName) n.id) index.byFileQn
        names := nodes.foldl (fun names n => names.add (index.config.pkgOf n.file) n) index.names
        pkgById := nodes.foldl (fun m n => m.set n.id (index.config.pkgOf n.file)) index.pkgById } := by
  induction nodes generalizing index with
  | nil => simp
  | cons n nodes ih =>
    rw [List.foldl_cons, ih]
    simp [NodeIndex.addNode]

section
variable (config : RepoConfig) (nodes : List GraphNode) (rawEdges : List RawEdge)

theorem edgeResolver_toNodeIndex :
    (edgeResolver config nodes rawEdges).toNodeIndex = nodes.foldl NodeIndex.addNode (NodeIndex.empty config) :=
  EdgeResolver.foldl_addImportEdge_toNodeIndex rawEdges _

theorem edgeResolver_config : (edgeResolver config nodes rawEdges).config = config := by
  rw [edgeResolver_toNodeIndex, foldl_addNode]
  rfl

theorem edgeResolver_nodeStubs : (edgeResolver config nodes rawEdges).nodeStubs = nodes := by
  rw [edgeResolver_toNodeIndex, foldl_addNode]
  rfl

theorem edgeResolver_specs : (edgeResolver config nodes rawEdges).specs = .ofNodes config nodes := by
  rw [edgeResolver, EdgeResolver.foldl_addImportEdge_specs, NodeIndex.sealNodes, foldl_addNode]
  rfl

/-- The last definition of a name stands for the name in its file. -/
theorem get_byFileName (key : JsString) :
    (edgeResolver config nodes rawEdges).byFileName.get key =
      (nodes.filter fun n => fileKey n.file n.name = key).getLast?.map (·.id) := by
  rw [edgeResolver_toNodeIndex, foldl_addNode]
  exact (KeyedMap.get_foldl_set_by _ _ nodes .empty key).trans Option.or_none

theorem get_byFileQn (key : JsString) :
    (edgeResolver config nodes rawEdges).byFileQn.get key =
      (nodes.filter fun n => fileKey n.file n.qualifiedName = key).getLast?.map (·.id) := by
  rw [edgeResolver_toNodeIndex, foldl_addNode]
  exact (KeyedMap.get_foldl_set_by _ _ nodes .empty key).trans Option.or_none

/-- The resolver's name index is the index of its nodes. -/
theorem lookupInPackage_eq_owner (pkg name : JsString) :
    (edgeResolver config nodes rawEdges).lookupInPackage pkg name = owner config.pkgOf nodes pkg name := by
  rw [EdgeResolver.lookupInPackage, edgeResolver_toNodeIndex, foldl_addNode, ← PackageScopedNameIndex.lookup_ofNodes]
  rfl

end

/-! ## How the resolver chooses -/

namespace EdgeResolver
variable (r : EdgeResolver) (e : RawEdge)

/-- The import that a call's root is bound by. -/
def binding : Option ImportBinding :=
  if e.kind = .staticCall then r.importBinding e.srcFile (rootName e) else none

/-- An import binds the call, and leads out of the repository. -/
def externallyBound : Bool := (r.binding e).any fun imp => (r.boundModule e.srcFile imp).isNone

/-- What the import of a call says it is. -/
def witnessed : Option JsString :=
  (r.binding e).bind fun imp => (r.boundModule e.srcFile imp).bind (r.importedTarget e imp)

/-- What the call's own file says it is. -/
def sameFile : Option JsString := truthy (r.byFileName.get (fileKey e.srcFile e.dstName))

/-- What a name stands for without a look at the package: the import's word, then the file's. -/
def nearest : Option JsString := (r.witnessed e).or (r.sameFile e)

/-- Only an import out of the repository comes before the three lookups. -/
theorem dstId_eq (h : e.kind ≠ .import) :
    r.dstId e =
      if r.externallyBound e then none
      else (r.nearest e).or (truthy (r.lookupInPackage (r.config.pkgOf e.srcFile) e.dstName)) := by
  by_cases hcall : e.kind = .staticCall
  · have hbinding : r.binding e = r.importBinding e.srcFile (rootName e) := if_pos hcall
    have hdst : r.dstId e = r.resolveCall e := by rw [dstId, hcall]
    rw [hdst, resolveCall, externallyBound, nearest, witnessed, hbinding]
    cases r.importBinding e.srcFile (rootName e) with
    | none => rfl
    | some imp =>
      cases hmodule : r.boundModule e.srcFile imp with
      | none => simp [hmodule]
      | some moduleId => simp [hmodule, resolveByName, sameFile, Option.or_assoc]
  · have hbinding : r.binding e = none := if_neg hcall
    have hdst : r.dstId e = r.resolveByName e.srcFile e.dstName := by
      unfold dstId
      split
      · contradiction
      · contradiction
      · rfl
    rw [hdst, externallyBound, nearest, witnessed, hbinding]
    rfl

end EdgeResolver

end Hayven.Graph
