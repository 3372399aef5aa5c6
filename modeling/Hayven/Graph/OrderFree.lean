import Hayven.Graph.EdgeResolver
import Hayven.Graph.ModuleLookups
/-!
# The order of nodes and edges

The extractor names the definition that encloses a call by its qualified name; the resolver
looks that string up among the bare names of the file first. The maps of a file's names, and
the resolver's module tables, keep the last node of a key or the first: what an edge resolves
to can depend on the order the nodes came in. It does not exactly when all nodes that compete
for the edge's lookups agree.
-/
open Hayven.Lib Hayven.Native

namespace Hayven.Graph

/-! ## The source of an edge -/

section Source
variable (config : RepoConfig) (nodes : List GraphNode) (rawEdges : List RawEdge) (e : RawEdge)

/-- The last node whose bare name in its file is the edge's source, or else the last whose qualified name is. -/
def sourceHit : Option GraphNode :=
  ((nodes.filter fun n => fileKey n.file n.name = fileKey e.srcFile e.srcName).getLast?).or
    (nodes.filter fun n => fileKey n.file n.qualifiedName = fileKey e.srcFile e.srcName).getLast?

/-- The module of a file that stands as a source under its own path. -/
def fileModule : Option JsString :=
  if e.srcName = e.srcFile then
    truthy ((SpecifierResolver.ofNodes config nodes).byFile.get (normalizePosix e.srcFile))
  else none

/-- The node a lookup of the edge's source hits has the id; only an empty id gives way to the file's module. -/
def HitsSource (id : JsString) : Prop :=
  id ≠ [] ∧ ((sourceHit nodes e).map (·.id) = some id ∨
    ((sourceHit nodes e).map (·.id)).getD [] = [] ∧ fileModule config nodes e = some id)

theorem srcId_eq :
    (edgeResolver config nodes rawEdges).srcId e =
      (truthy ((sourceHit nodes e).map (·.id))).or (fileModule config nodes e) := by
  unfold EdgeResolver.srcId sourceHit fileModule
  dsimp only
  rw [get_byFileName, get_byFileQn, edgeResolver_specs, Option.map_or]

/-- An edge's source is a node exactly when the lookup by bare name, then by qualified name, hits that node last. -/
theorem source_is_enclosing_iff (id : JsString) :
    (∃ o, (edgeResolver config nodes rawEdges).resolveOne e = some o ∧ o.edge.src = id) ↔ HitsSource config nodes e id := by
  have hsrc : (∃ o, (edgeResolver config nodes rawEdges).resolveOne e = some o ∧ o.edge.src = id) ↔
      (edgeResolver config nodes rawEdges).srcId e = some id := by
    unfold EdgeResolver.resolveOne
    cases (edgeResolver config nodes rawEdges).srcId e with
    | none => simp
    | some src =>
      cases (edgeResolver config nodes rawEdges).dstId e with
      | none => simp
      | some dst => simp
  rw [hsrc, srcId_eq, HitsSource]
  have hmodule : ∀ m, fileModule config nodes e = some m → m ≠ [] := by
    intro m hm
    unfold fileModule at hm
    split at hm
    · exact (truthy_eq_some.1 hm).2
    · cases hm
  cases hhit : (sourceHit nodes e).map (·.id) with
  | none =>
    simp only [truthy_none, Option.none_or, reduceCtorEq, Option.getD_none, true_and, false_or]
    exact ⟨fun h => ⟨hmodule id h, h⟩, fun h => h.2⟩
  | some hit =>
    by_cases hempty : hit = []
    · have htruthy : truthy (some ([] : JsString)) = none := rfl
      simp only [hempty, htruthy, Option.none_or, Option.some.injEq, Option.getD_some, true_and]
      constructor
      · intro h
        exact ⟨hmodule id h, .inr h⟩
      · rintro ⟨hne, rfl | h⟩
        · exact absurd rfl hne
        · exact h
    · have htruthy : truthy (some hit) = some hit := truthy_eq_some.2 ⟨rfl, hempty⟩
      simp only [htruthy, Option.some_or, Option.some.injEq, Option.getD_some, hempty, false_and, or_false]
      constructor
      · rintro rfl
        exact ⟨hempty, rfl⟩
      · exact fun h => h.2

/-! ### A call in the body of a function -/

def runFunction : GraphNode := ⟨ascii "a.ts/run", ascii "run", ascii "run", .function, ascii "a.ts"⟩

def runMethod : GraphNode := ⟨ascii "a.ts/Job/run", ascii "run", ascii "Job.run", .method, ascii "a.ts"⟩

/-- A call in the body of the function. -/
def callInRun : RawEdge := { srcFile := ascii "a.ts", srcName := ascii "run", dstName := ascii "step", kind := .staticCall }

/-- The call in the function is the method's. -/
theorem call_given_to_method :
    ¬ ∀ (config : RepoConfig) (nodes : List GraphNode) (rawEdges : List RawEdge) (e : RawEdge) (n : GraphNode),
      ((nodes.filter (·.file = e.srcFile)).map (·.qualifiedName)).Nodup → n ∈ nodes → n.file = e.srcFile →
        n.qualifiedName = e.srcName →
          ∃ o, (edgeResolver config nodes rawEdges).resolveOne e = some o ∧ o.edge.src = n.id := by
  intro h
  have hfound := h {} [runFunction, runMethod] [callInRun] callInRun runFunction (by decide) (by decide) rfl rfl
  obtain ⟨o, ho, hsrc⟩ := hfound
  have hmethod : (edgeResolver {} [runFunction, runMethod] [callInRun]).srcId callInRun = some runMethod.id := by
    rw [srcId_eq]
    decide
  have hids : runMethod.id ≠ runFunction.id := by decide
  rw [EdgeResolver.resolveOne, hmethod, Option.map_some, Option.some.injEq] at ho
  rw [← ho] at hsrc
  cases hdst : (edgeResolver {} [runFunction, runMethod] [callInRun]).dstId callInRun with
  | none =>
    rw [hdst] at hsrc
    exact hids hsrc
  | some dst =>
    rw [hdst] at hsrc
    exact hids hsrc

end Source

/-! ## What is promised -/

def isImportOf (file : JsString) (e : RawEdge) : Bool := e.kind = .import ∧ e.srcFile = file

/-- Another order of the same nodes and edges; the imports of each file keep theirs. -/
structure Reordered (nodes nodes' : List GraphNode) (rawEdges rawEdges' : List RawEdge) : Prop where
  nodesPerm : nodes'.Perm nodes
  edgesPerm : rawEdges'.Perm rawEdges
  imports : ∀ file, rawEdges'.filter (isImportOf file) = rawEdges.filter (isImportOf file)

/-- An id is the only one among some candidates. -/
def OnlyCandidate (ids : List JsString) (id : JsString) : Prop := id ∈ ids ∧ ∀ other ∈ ids, other = id

def named (key : JsString) (n : GraphNode) : Bool := fileKey n.file n.name = key

def qualified (key : JsString) (n : GraphNode) : Bool := fileKey n.file n.qualifiedName = key

namespace EdgeResolver
variable (r : EdgeResolver) (e : RawEdge)

/-- No import has a say in what a name stands for. -/
def FallsThrough : Prop := r.externallyBound e = false ∧ r.witnessed e = none

def byQualifiedName : Option JsString :=
  (r.names.byQualified.get (r.config.pkgOf e.srcFile, e.dstName)).bind Sole.value

/-- An id is the only candidate under the first of the three rules that has an answer. -/
def SoleUnderRule (nodes : List GraphNode) (id : JsString) : Prop :=
  let defs := definitions r.config.pkgOf nodes (r.config.pkgOf e.srcFile)
  if (r.sameFile e).isSome then OnlyCandidate ((nodes.filter (named (fileKey e.srcFile e.dstName))).map (·.id)) id
  else if (r.byQualifiedName e).isSome then OnlyCandidate (idsNamed (·.qualifiedName) defs e.dstName) id
  else OnlyCandidate (idsNamed (·.name) defs e.dstName) id

end EdgeResolver

/-- A call that is looked up by name resolves to nothing but an only candidate. -/
def NeverPicks (config : RepoConfig) (nodes : List GraphNode) (rawEdges : List RawEdge) : Prop :=
  let r := edgeResolver config nodes rawEdges
  ∀ e ∈ rawEdges, isCallEdgeKind e.kind = true → ∀ o, r.resolveOne e = some o → o.resolved = true →
    r.FallsThrough e → r.SoleUnderRule e nodes o.edge.dst

/-- Every order gives each edge one outcome, and picks among no candidates. -/
def OrderFree (config : RepoConfig) (nodes : List GraphNode) (rawEdges : List RawEdge) : Prop :=
  ∀ nodes' rawEdges', Reordered nodes nodes' rawEdges rawEdges' →
    (∀ e ∈ rawEdges, (edgeResolver config nodes' rawEdges').resolveOne e = (edgeResolver config nodes rawEdges).resolveOne e) ∧
      NeverPicks config nodes' rawEdges'

/-! ## What no order changes -/

section Invariant
variable {config : RepoConfig} {nodes nodes' : List GraphNode} {rawEdges rawEdges' : List RawEdge}

theorem get_importsByFile (config : RepoConfig) (nodes : List GraphNode) (rawEdges : List RawEdge) (file : JsString) :
    ((edgeResolver config nodes rawEdges).importsByFile.get file).getD [] =
      ((rawEdges.filter (isImportOf file)).filter (·.localBindings ≠ [])).map EdgeResolver.bindingOf := by
  have hfold : ∀ (l : List RawEdge) (r : EdgeResolver),
      ((l.foldl EdgeResolver.addImportEdge r).importsByFile.get file).getD [] =
        (r.importsByFile.get file).getD [] ++
          ((l.filter (isImportOf file)).filter (·.localBindings ≠ [])).map EdgeResolver.bindingOf := by
    intro l
    induction l with
    | nil => simp
    | cons e l ih =>
      intro r
      rw [List.foldl_cons, ih, EdgeResolver.addImportEdge]
      by_cases hkind : e.kind = .import
      · by_cases hlocal : e.localBindings = []
        · simp [hlocal, List.filter_cons, apply_ite]
        · by_cases hfile : e.srcFile = file
          · subst hfile
            have himport : isImportOf e.srcFile e = true := by simp [isImportOf, hkind]
            simp [hkind, hlocal, himport]
          · have himport : isImportOf file e = false := by simp [isImportOf, hfile]
            simp [hkind, hlocal, himport, KeyedMap.get_set_ne _ _ hfile]
      · have himport : isImportOf file e = false := by simp [isImportOf, hkind]
        simp [hkind, himport]
  have hnone : ((nodes.foldl NodeIndex.addNode (NodeIndex.empty config)).sealNodes.importsByFile.get file).getD [] = [] := rfl
  rw [edgeResolver, hfold, hnone, List.nil_append]

variable (h : Reordered nodes nodes' rawEdges rawEdges') (e : RawEdge)
include h

theorem Reordered.binding : (edgeResolver config nodes' rawEdges').binding e = (edgeResolver config nodes rawEdges).binding e := by
  simp only [EdgeResolver.binding, EdgeResolver.importBinding, get_importsByFile, h.imports]

theorem Reordered.lookupInPackage (pkg name : JsString) :
    (edgeResolver config nodes' rawEdges').lookupInPackage pkg name =
      (edgeResolver config nodes rawEdges).lookupInPackage pkg name := by
  rw [lookupInPackage_eq_owner, lookupInPackage_eq_owner]
  exact owner_congr fun n _ => h.nodesPerm.mem_iff

theorem Reordered.hasId (id : JsString) :
    (edgeResolver config nodes' rawEdges').hasId id = (edgeResolver config nodes rawEdges).hasId id := by
  rw [EdgeResolver.hasId, EdgeResolver.hasId, edgeResolver_nodeStubs, edgeResolver_nodeStubs]
  exact h.nodesPerm.any_eq

theorem Reordered.pkgById (hids : (nodes.map (·.id)).Nodup) (id : JsString) :
    (edgeResolver config nodes' rawEdges').pkgById.get id = (edgeResolver config nodes rawEdges).pkgById.get id := by
  have hget : ∀ (nodes : List GraphNode) (rawEdges : List RawEdge),
      (edgeResolver config nodes rawEdges).pkgById.get id =
        (nodes.filter (·.id = id)).getLast?.map fun n => config.pkgOf n.file := by
    intro nodes rawEdges
    rw [edgeResolver_toNodeIndex, foldl_addNode]
    exact (KeyedMap.get_foldl_set_by _ _ nodes .empty id).trans Option.or_none
  have hends := isEnd_getLast? nodes (·.id = id)
  have hends' := (isEnd_perm h.nodesPerm).1 (isEnd_getLast? nodes' (·.id = id))
  rw [hget, hget]
  cases hlast : (nodes.filter (·.id = id)).getLast? with
  | none =>
    rw [hlast] at hends
    cases hlast' : (nodes'.filter (·.id = id)).getLast? with
    | none => rfl
    | some n =>
      rw [hlast'] at hends'
      simpa [hends'.2] using hends n hends'.1
  | some n =>
    rw [hlast] at hends
    cases hlast' : (nodes'.filter (·.id = id)).getLast? with
    | none =>
      rw [hlast'] at hends'
      simpa [hends.2] using hends' n hends.1
    | some n' =>
      rw [hlast'] at hends'
      have hid : n'.id = n.id := (of_decide_eq_true hends'.2).trans (of_decide_eq_true hends.2).symm
      rw [List.inj_on_of_nodup_map hids hends'.1 hends.1 hid]

theorem Reordered.importedTarget (hids : (nodes.map (·.id)).Nodup) (imp : ImportBinding) (moduleId : JsString) :
    (edgeResolver config nodes' rawEdges').importedTarget e imp moduleId =
      (edgeResolver config nodes rawEdges).importedTarget e imp moduleId := by
  simp only [EdgeResolver.importedTarget, h.lookupInPackage, h.pkgById hids, funext h.hasId]

theorem Reordered.ask : (edgeResolver config nodes' rawEdges').specs.ask = (edgeResolver config nodes rawEdges).specs.ask := by
  rw [edgeResolver_specs, edgeResolver_specs]
  exact ask_perm h.nodesPerm

end Invariant

/-! ## What an edge's lookups can find -/

/-- The nodes that compete to be an edge's source: those of its name, or else those of its qualified name. -/
def sourceAsks (nodes : List GraphNode) (e : RawEdge) : GraphNode → Bool :=
  let key := fileKey e.srcFile e.srcName
  if nodes.any (named key) then named key else qualified key

/-- The question for the module of an edge's own file. -/
def ownModule (e : RawEdge) : ModuleQuestion := .ofFile (normalizePosix e.srcFile)

/-- An edge's source, if a given node wins its name and a given module wins its file. -/
def sourceOf (config : RepoConfig) (nodes : List GraphNode) (e : RawEdge) (x y : Option GraphNode) : Option JsString :=
  (truthy (x.map (·.id))).or
    (if e.srcName = e.srcFile then truthy ((ownModule e).answer config nodes y) else none)

section Target
variable (config : RepoConfig) (nodes : List GraphNode) (rawEdges : List RawEdge) (e : RawEdge)

/-- The module question of an import, or of the import that binds a call. -/
def targetQuestion : Option ModuleQuestion :=
  let r := edgeResolver config nodes rawEdges
  if e.kind = .import then r.specs.ask e.srcFile e.dstName
  else (r.binding e).bind fun imp => r.specs.ask e.srcFile imp.spec

/-- The module that a question gives, if a given node wins it. -/
def targetModule (x : Option GraphNode) : Option JsString :=
  truthy ((targetQuestion config nodes rawEdges e).bind fun q => q.answer config nodes x)

/-- The import of a call leads out of the repository. -/
def leadsOut (x : Option GraphNode) : Bool :=
  ((edgeResolver config nodes rawEdges).binding e).isSome && (targetModule config nodes rawEdges e x).isNone

/-- What the import of a call says it is. -/
def importSays (x : Option GraphNode) : Option JsString :=
  let r := edgeResolver config nodes rawEdges
  (r.binding e).bind fun imp => (targetModule config nodes rawEdges e x).bind (r.importedTarget e imp)

/-- An edge's target, if a given node wins its module question and a given node the name in its file. -/
def targetOf (x y : Option GraphNode) : Option JsString :=
  if e.kind = .import then targetModule config nodes rawEdges e x
  else if leadsOut config nodes rawEdges e x then none
  else
    ((importSays config nodes rawEdges e x).or (truthy (y.map (·.id)))).or
      (truthy (owner config.pkgOf nodes (config.pkgOf e.srcFile) e.dstName))

/-- The nodes that can win an edge's module question and the name of its target at once. -/
def TargetReading (x y : Option GraphNode) : Prop :=
  let sameName := named (fileKey e.srcFile e.dstName)
  match targetQuestion config nodes rawEdges e with
  | some (.ofFile file) => LastTogether nodes (isModuleOf file) sameName x y
  | some (.ofPath path _) => FirstAndLast nodes (isModuleAt path) sameName x y
  | none => x = none ∧ IsEnd nodes sameName y

/-- The nodes that can win an edge's source and the module of its file at once. -/
def SourceReading (x y : Option GraphNode) : Prop :=
  LastTogether nodes (sourceAsks nodes e) (isModuleOf (normalizePosix e.srcFile)) x y

/-- All that compete for an edge's source agree, and so do all that compete for its target; a call
that gets to the names of its file finds one node. -/
structure Settled : Prop where
  source : ∀ x y x' y', SourceReading nodes e x y → SourceReading nodes e x' y' →
    sourceOf config nodes e x y = sourceOf config nodes e x' y'
  target : ∀ s s', SourceReading nodes e s s' → sourceOf config nodes e s s' ≠ none →
    ∀ x y x' y', TargetReading config nodes rawEdges e x y → TargetReading config nodes rawEdges e x' y' →
      targetOf config nodes rawEdges e x y = targetOf config nodes rawEdges e x' y'
  sole : ∀ s s', SourceReading nodes e s s' → sourceOf config nodes e s s' ≠ none → isCallEdgeKind e.kind = true →
    ∀ x n, TargetReading config nodes rawEdges e x (some n) → n.id ≠ [] → leadsOut config nodes rawEdges e x = false →
      importSays config nodes rawEdges e x = none → ∀ n' ∈ nodes, named (fileKey e.srcFile e.dstName) n' = true → n'.id = n.id

end Target

/-! ## What a lookup finds in an order -/

/-- The node that wins an edge's module question in some order. -/
def targetWinner (config : RepoConfig) (nodes : List GraphNode) (rawEdges : List RawEdge) (e : RawEdge)
    (order : List GraphNode) : Option GraphNode :=
  (targetQuestion config nodes rawEdges e).bind (·.winner order)

/-- The node of an edge's file that the name of its target stands for in some order. -/
def sameNameWinner (e : RawEdge) (order : List GraphNode) : Option GraphNode :=
  (order.filter (named (fileKey e.srcFile e.dstName))).getLast?

section Order
variable {config : RepoConfig} {nodes nodes' : List GraphNode} {rawEdges rawEdges' : List RawEdge}

theorem sourceReading_iff {e : RawEdge} {x y : Option GraphNode} :
    SourceReading nodes e x y ↔ ∃ order : List GraphNode, order.Perm nodes ∧
      (order.filter (sourceAsks nodes e)).getLast? = x ∧ (ownModule e).winner order = y :=
  lastTogether_iff

theorem targetReading_iff (hnodup : nodes.Nodup) {e : RawEdge} {x y : Option GraphNode} :
    TargetReading config nodes rawEdges e x y ↔ ∃ order : List GraphNode, order.Perm nodes ∧
      targetWinner config nodes rawEdges e order = x ∧ sameNameWinner e order = y := by
  unfold TargetReading targetWinner
  cases targetQuestion config nodes rawEdges e with
  | none =>
    constructor
    · rintro ⟨rfl, hy⟩
      obtain ⟨order, hperm, hlast⟩ := exists_getLast? hy
      exact ⟨order, hperm, rfl, hlast⟩
    · rintro ⟨order, hperm, rfl, rfl⟩
      exact ⟨rfl, (isEnd_perm hperm).1 (isEnd_getLast? order _)⟩
  | some q =>
    cases q with
    | ofFile file => exact lastTogether_iff
    | ofPath path rest => exact firstAndLast_iff hnodup

theorem sourceHit_eq (h : nodes'.Perm nodes) (e : RawEdge) :
    sourceHit nodes' e = (nodes'.filter (sourceAsks nodes e)).getLast? := by
  have hname : sourceHit nodes' e = ((nodes'.filter (named (fileKey e.srcFile e.srcName))).getLast?).or
      (nodes'.filter (qualified (fileKey e.srcFile e.srcName))).getLast? := rfl
  have hends := (isEnd_perm h).1 (isEnd_getLast? nodes' (named (fileKey e.srcFile e.srcName)))
  rw [hname, sourceAsks]
  cases hlast : (nodes'.filter (named (fileKey e.srcFile e.srcName))).getLast? with
  | none =>
    rw [hlast] at hends
    have hany : nodes.any (named (fileKey e.srcFile e.srcName)) = false := by
      rw [List.any_eq_false]
      intro n hn
      rw [hends n hn]
      exact Bool.false_ne_true
    rw [hany, if_neg Bool.false_ne_true, Option.none_or]
  | some n =>
    rw [hlast] at hends
    have hany : nodes.any (named (fileKey e.srcFile e.srcName)) = true := List.any_eq_true.2 ⟨n, hends⟩
    rw [hany, if_pos rfl, hlast, Option.some_or]

theorem targetModule_winner (e : RawEdge) :
    targetModule config nodes rawEdges e (targetWinner config nodes rawEdges e nodes') =
      truthy ((targetQuestion config nodes rawEdges e).bind fun q => q.answer config nodes (q.winner nodes')) := by
  rw [targetModule, targetWinner]
  cases targetQuestion config nodes rawEdges e with
  | none => rfl
  | some q => rfl

theorem binding_import (r : EdgeResolver) {e : RawEdge} (hkind : e.kind = .import) : r.binding e = none := by
  rw [EdgeResolver.binding, hkind]
  exact if_neg (by decide)

theorem sameFile_eq (config : RepoConfig) (nodes : List GraphNode) (rawEdges : List RawEdge) (e : RawEdge) :
    (edgeResolver config nodes rawEdges).sameFile e = truthy ((sameNameWinner e nodes).map (·.id)) := by
  rw [EdgeResolver.sameFile, get_byFileName]
  rfl

variable (h : Reordered nodes nodes' rawEdges rawEdges') (e : RawEdge)
include h

theorem Reordered.srcId :
    (edgeResolver config nodes' rawEdges').srcId e =
      sourceOf config nodes e (nodes'.filter (sourceAsks nodes e)).getLast? ((ownModule e).winner nodes') := by
  have hmodule : (SpecifierResolver.ofNodes config nodes').byFile.get (normalizePosix e.srcFile) =
      (ownModule e).answer config nodes ((ownModule e).winner nodes') :=
    (ModuleQuestion.reply_ofNodes config nodes' (ownModule e)).trans (ModuleQuestion.answer_perm h.nodesPerm _ _)
  rw [srcId_eq, sourceHit_eq h.nodesPerm, sourceOf, fileModule, hmodule]

theorem Reordered.resolve {srcFile spec : JsString} {q : Option ModuleQuestion}
    (hq : (edgeResolver config nodes rawEdges).specs.ask srcFile spec = q) :
    (edgeResolver config nodes' rawEdges').specs.resolve srcFile spec =
      q.bind fun q => q.answer config nodes (q.winner nodes') := by
  have hreply : (SpecifierResolver.ofNodes config nodes').reply = fun q => q.answer config nodes (q.winner nodes') := by
    funext q
    rw [ModuleQuestion.reply_ofNodes, ModuleQuestion.answer_perm h.nodesPerm]
  rw [SpecifierResolver.resolve_eq, h.ask, hq, edgeResolver_specs, hreply]

theorem Reordered.boundModule (hkind : e.kind ≠ .import) {imp : ImportBinding}
    (himp : (edgeResolver config nodes rawEdges).binding e = some imp) :
    (edgeResolver config nodes' rawEdges').boundModule e.srcFile imp =
      targetModule config nodes rawEdges e (targetWinner config nodes rawEdges e nodes') := by
  have hquestion : (edgeResolver config nodes rawEdges).specs.ask e.srcFile imp.spec = targetQuestion config nodes rawEdges e := by
    rw [targetQuestion, if_neg hkind, himp, Option.bind_some]
  rw [EdgeResolver.boundModule, h.resolve hquestion, targetModule_winner]

theorem Reordered.externallyBound :
    (edgeResolver config nodes' rawEdges').externallyBound e =
      leadsOut config nodes rawEdges e (targetWinner config nodes rawEdges e nodes') := by
  rw [EdgeResolver.externallyBound, leadsOut, h.binding]
  cases himp : (edgeResolver config nodes rawEdges).binding e with
  | none => rfl
  | some imp =>
    have hkind : e.kind ≠ .import := by
      intro hkind
      rw [binding_import _ hkind] at himp
      cases himp
    rw [Option.any_some, h.boundModule e hkind himp, Option.isSome_some, Bool.true_and]

theorem Reordered.witnessed (hids : (nodes.map (·.id)).Nodup) :
    (edgeResolver config nodes' rawEdges').witnessed e =
      importSays config nodes rawEdges e (targetWinner config nodes rawEdges e nodes') := by
  rw [EdgeResolver.witnessed, importSays, h.binding]
  cases himp : (edgeResolver config nodes rawEdges).binding e with
  | none => rfl
  | some imp =>
    have hkind : e.kind ≠ .import := by
      intro hkind
      rw [binding_import _ hkind] at himp
      cases himp
    rw [Option.bind_some, Option.bind_some, h.boundModule e hkind himp, funext (h.importedTarget e hids imp)]

theorem Reordered.dstId (hids : (nodes.map (·.id)).Nodup) :
    (edgeResolver config nodes' rawEdges').dstId e =
      targetOf config nodes rawEdges e (targetWinner config nodes rawEdges e nodes') (sameNameWinner e nodes') := by
  unfold targetOf
  by_cases hkind : e.kind = .import
  · have hquestion : (edgeResolver config nodes rawEdges).specs.ask e.srcFile e.dstName = targetQuestion config nodes rawEdges e := by
      rw [targetQuestion, if_pos hkind]
    rw [if_pos hkind, targetModule_winner, ← h.resolve hquestion, EdgeResolver.dstId, hkind]
  · rw [if_neg hkind, EdgeResolver.dstId_eq _ _ hkind, h.externallyBound, EdgeResolver.nearest, h.witnessed e hids,
      sameFile_eq, h.lookupInPackage, lookupInPackage_eq_owner, edgeResolver_config]

end Order

/-! ## When the order does not matter -/

namespace EdgeResolver
variable {r r' : EdgeResolver} {e : RawEdge}

/-- An outcome tells the edge's source, and its target where it has one. -/
theorem ends_of_resolveOne {o : EdgeOutcome} (h : r.resolveOne e = some o) :
    r.srcId e = some o.edge.src ∧ r.dstId e = if o.resolved then some o.edge.dst else none := by
  rw [resolveOne] at h
  obtain ⟨src, hsrc, ho⟩ := Option.map_eq_some_iff.1 h
  cases hdst : r.dstId e with
  | none =>
    rw [hdst] at ho
    subst ho
    exact ⟨hsrc, rfl⟩
  | some dst =>
    rw [hdst] at ho
    subst ho
    exact ⟨hsrc, rfl⟩

theorem srcId_congr (h : r'.resolveOne e = r.resolveOne e) : r'.srcId e = r.srcId e := by
  cases ho : r.resolveOne e with
  | none =>
    have hnone : ∀ {r : EdgeResolver}, r.resolveOne e = none → r.srcId e = none := by
      intro r hnone
      rw [resolveOne] at hnone
      exact Option.map_eq_none_iff.1 hnone
    rw [hnone ho, hnone (h.trans ho)]
  | some o => rw [(ends_of_resolveOne ho).1, (ends_of_resolveOne (h.trans ho)).1]

theorem dstId_congr (h : r'.resolveOne e = r.resolveOne e) (hsrc : r.srcId e ≠ none) : r'.dstId e = r.dstId e := by
  cases ho : r.resolveOne e with
  | none =>
    rw [resolveOne] at ho
    exact absurd (Option.map_eq_none_iff.1 ho) hsrc
  | some o => rw [(ends_of_resolveOne ho).2, (ends_of_resolveOne (h.trans ho)).2]

theorem resolveOne_congr (hsrc : r'.srcId e = r.srcId e) (hdst : r.srcId e ≠ none → r'.dstId e = r.dstId e) :
    r'.resolveOne e = r.resolveOne e := by
  rw [resolveOne, resolveOne, hsrc]
  cases h : r.srcId e with
  | none => rfl
  | some src => rw [hdst (by rw [h]; exact Option.some_ne_none src)]

/-- A name that no import decides is its file's, or else its package's. -/
theorem dstId_of_fallsThrough (hcall : isCallEdgeKind e.kind = true) (h : r.FallsThrough e) :
    r.dstId e = (r.sameFile e).or (truthy (r.lookupInPackage (r.config.pkgOf e.srcFile) e.dstName)) := by
  have hkind : e.kind ≠ .import := by
    intro hkind
    rw [hkind] at hcall
    cases hcall
  rw [r.dstId_eq e hkind, h.1, if_neg Bool.false_ne_true, nearest, h.2, Option.none_or]

end EdgeResolver

section Settled
variable {config : RepoConfig} {nodes : List GraphNode} {rawEdges : List RawEdge}

theorem byQualifiedName_eq (config : RepoConfig) (nodes : List GraphNode) (rawEdges : List RawEdge) (e : RawEdge) :
    (edgeResolver config nodes rawEdges).byQualifiedName e =
      soleValue (idsNamed (·.qualifiedName) (definitions config.pkgOf nodes (config.pkgOf e.srcFile)) e.dstName) := by
  have hnames : (edgeResolver config nodes rawEdges).names = .ofNodes config.pkgOf nodes := by
    rw [edgeResolver_toNodeIndex, foldl_addNode]
    rfl
  rw [EdgeResolver.byQualifiedName, hnames, edgeResolver_config, PackageScopedNameIndex.ofNodes,
    PackageScopedNameIndex.foldl_add, ← PackageScopedNameIndex.filter_key]
  exact congrArg (Option.bind · Sole.value) (get_index _ _ _ _)

/-- The package's rules never pick; the file's may. -/
theorem soleUnderRule_iff {e : RawEdge} (hcall : isCallEdgeKind e.kind = true)
    (hfalls : (edgeResolver config nodes rawEdges).FallsThrough e) {dst : JsString}
    (hdst : (edgeResolver config nodes rawEdges).dstId e = some dst) :
    (edgeResolver config nodes rawEdges).SoleUnderRule e nodes dst ↔
      ∀ n, sameNameWinner e nodes = some n → n.id ≠ [] →
        ∀ n' ∈ nodes, named (fileKey e.srcFile e.dstName) n' = true → n'.id = n.id := by
  rw [EdgeResolver.dstId_of_fallsThrough hcall hfalls, lookupInPackage_eq_owner, edgeResolver_config] at hdst
  rw [EdgeResolver.SoleUnderRule, byQualifiedName_eq, edgeResolver_config]
  cases hsame : (edgeResolver config nodes rawEdges).sameFile e with
  | some id =>
    rw [hsame, Option.some_or, Option.some.injEq] at hdst
    subst hdst
    rw [sameFile_eq] at hsame
    obtain ⟨hid, hne⟩ := truthy_eq_some.1 hsame
    obtain ⟨n, hn, rfl⟩ := Option.map_eq_some_iff.1 hid
    have hmem := List.mem_of_getLast? hn
    rw [Option.isSome_some, if_pos rfl, OnlyCandidate]
    constructor
    · rintro ⟨-, honly⟩ m hm - n' hn' hnamed
      rw [hn, Option.some.injEq] at hm
      subst hm
      exact honly n'.id (List.mem_map_of_mem (List.mem_filter.2 ⟨hn', hnamed⟩))
    · intro honly
      refine ⟨List.mem_map_of_mem hmem, ?_⟩
      intro other hother
      obtain ⟨n', hn', rfl⟩ := List.mem_map.1 hother
      obtain ⟨hn', hnamed⟩ := List.mem_filter.1 hn'
      exact honly n hn hne n' hn' hnamed
  | none =>
    rw [hsame, Option.none_or] at hdst
    obtain ⟨howner, -⟩ := truthy_eq_some.1 hdst
    have hright : ∀ n, sameNameWinner e nodes = some n → n.id ≠ [] →
        ∀ n' ∈ nodes, named (fileKey e.srcFile e.dstName) n' = true → n'.id = n.id := by
      intro n hn hne
      rw [sameFile_eq, hn] at hsame
      have hfound : truthy (Option.map (·.id) (some n)) = some n.id := truthy_eq_some.2 ⟨rfl, hne⟩
      rw [hfound] at hsame
      cases hsame
    refine iff_of_true ?_ hright
    rw [Option.isSome_none, if_neg Bool.false_ne_true]
    rw [owner] at howner
    cases hqualified : soleValue
        (idsNamed (·.qualifiedName) (definitions config.pkgOf nodes (config.pkgOf e.srcFile)) e.dstName) with
    | some id =>
      rw [hqualified, Option.some_or, Option.some.injEq] at howner
      rw [Option.isSome_some, if_pos rfl, ← howner]
      exact soleValue_eq_some.1 hqualified
    | none =>
      rw [hqualified, Option.none_or] at howner
      rw [Option.isSome_none, if_neg Bool.false_ne_true]
      exact soleValue_eq_some.1 howner

theorem reordered_nodes {order : List GraphNode} (h : order.Perm nodes) (rawEdges : List RawEdge) :
    Reordered nodes order rawEdges rawEdges := ⟨h, .refl _, fun _ => rfl⟩

/-- If no order changes an outcome and none picks, then what competes for a lookup agrees. -/
theorem settled_of_orderFree (hids : (nodes.map (·.id)).Nodup) (h : OrderFree config nodes rawEdges) {e : RawEdge}
    (he : e ∈ rawEdges) : Settled config nodes rawEdges e := by
  have hnodup : nodes.Nodup := hids.of_map
  have hsame : ∀ {order : List GraphNode}, order.Perm nodes →
      (edgeResolver config order rawEdges).resolveOne e = (edgeResolver config nodes rawEdges).resolveOne e :=
    fun hperm => (h _ _ (reordered_nodes hperm rawEdges)).1 e he
  have hsource : ∀ {s s'}, SourceReading nodes e s s' →
      sourceOf config nodes e s s' = (edgeResolver config nodes rawEdges).srcId e := by
    intro s s' hread
    obtain ⟨order, hperm, rfl, rfl⟩ := sourceReading_iff.1 hread
    rw [← (reordered_nodes hperm rawEdges).srcId, EdgeResolver.srcId_congr (hsame hperm)]
  refine ⟨?_, ?_, ?_⟩
  · intro x y x' y' hread hread'
    rw [hsource hread, hsource hread']
  · intro s s' hs hsome
    rw [hsource hs] at hsome
    have htarget : ∀ {x y}, TargetReading config nodes rawEdges e x y →
        targetOf config nodes rawEdges e x y = (edgeResolver config nodes rawEdges).dstId e := by
      intro x y hread
      obtain ⟨order, hperm, rfl, rfl⟩ := (targetReading_iff hnodup).1 hread
      rw [← (reordered_nodes hperm rawEdges).dstId e hids, EdgeResolver.dstId_congr (hsame hperm) hsome]
    intro x y x' y' hread hread'
    rw [htarget hread, htarget hread']
  · intro s s' hs hsome hcall x n hread hne hout hsays n' hn' hnamed
    rw [hsource hs] at hsome
    obtain ⟨order, hperm, hx, hn⟩ := (targetReading_iff hnodup).1 hread
    have hre := reordered_nodes hperm rawEdges
    have hfalls : (edgeResolver config order rawEdges).FallsThrough e := by
      refine ⟨?_, ?_⟩
      · rw [hre.externallyBound, hx, hout]
      · rw [hre.witnessed e hids, hx, hsays]
    have hdst : (edgeResolver config order rawEdges).dstId e = some n.id := by
      rw [EdgeResolver.dstId_of_fallsThrough hcall hfalls, sameFile_eq, hn]
      have hfound : truthy (Option.map (·.id) (some n)) = some n.id := truthy_eq_some.2 ⟨rfl, hne⟩
      rw [hfound, Option.some_or]
    have hsrc : (edgeResolver config order rawEdges).srcId e ≠ none := by
      rwa [EdgeResolver.srcId_congr (hsame hperm)]
    obtain ⟨src, hsrc⟩ := Option.ne_none_iff_exists'.1 hsrc
    have hone : (edgeResolver config order rawEdges).resolveOne e =
        some ⟨⟨src, n.id, e.kind, e.weight⟩, true, EdgeResolver.callSite e src n.id⟩ := by
      rw [EdgeResolver.resolveOne, hsrc, Option.map_some, hdst]
    have hsole := (h _ _ hre).2 e he hcall _ hone rfl hfalls
    exact (soleUnderRule_iff hcall hfalls hdst).1 hsole n hn hne n' (hperm.mem_iff.2 hn') hnamed

theorem orderFree_of_settled (hids : (nodes.map (·.id)).Nodup)
    (h : ∀ e ∈ rawEdges, Settled config nodes rawEdges e) : OrderFree config nodes rawEdges := by
  have hnodup : nodes.Nodup := hids.of_map
  intro nodes' rawEdges' hre
  have hself : Reordered nodes nodes rawEdges rawEdges := reordered_nodes (.refl _) rawEdges
  have hsourceRead : ∀ {order : List GraphNode}, order.Perm nodes → ∀ e,
      SourceReading nodes e (order.filter (sourceAsks nodes e)).getLast? ((ownModule e).winner order) :=
    fun hperm e => sourceReading_iff.2 ⟨_, hperm, rfl, rfl⟩
  have htargetRead : ∀ {order : List GraphNode}, order.Perm nodes → ∀ e,
      TargetReading config nodes rawEdges e (targetWinner config nodes rawEdges e order) (sameNameWinner e order) :=
    fun hperm e => (targetReading_iff hnodup).2 ⟨_, hperm, rfl, rfl⟩
  refine ⟨?_, ?_⟩
  · intro e he
    apply EdgeResolver.resolveOne_congr
    · rw [hre.srcId, hself.srcId]
      exact (h e he).source _ _ _ _ (hsourceRead hre.nodesPerm e) (hsourceRead (.refl _) e)
    · intro hsome
      rw [hself.srcId] at hsome
      rw [hre.dstId e hids, hself.dstId e hids]
      exact (h e he).target _ _ (hsourceRead (.refl _) e) hsome _ _ _ _ (htargetRead hre.nodesPerm e) (htargetRead (.refl _) e)
  · intro e he hcall o ho hresolved hfalls
    obtain ⟨hsrc, hdst⟩ := EdgeResolver.ends_of_resolveOne ho
    rw [hresolved, if_pos rfl] at hdst
    refine (soleUnderRule_iff hcall hfalls hdst).2 ?_
    intro n hn hne n' hn' hnamed
    have hsome : sourceOf config nodes e (nodes'.filter (sourceAsks nodes e)).getLast? ((ownModule e).winner nodes') ≠ none := by
      rw [← hre.srcId, hsrc]
      exact Option.some_ne_none _
    obtain ⟨hout, hsays⟩ := hfalls
    rw [hre.externallyBound] at hout
    rw [hre.witnessed e hids] at hsays
    have hread := htargetRead hre.nodesPerm e
    rw [hn] at hread
    exact (h e (hre.edgesPerm.mem_iff.1 he)).sole _ _ (hsourceRead hre.nodesPerm e) hsome hcall _ n hread hne hout hsays n'
      (hre.nodesPerm.mem_iff.1 hn') hnamed

/-- The order of nodes and edges does not matter exactly when, for each edge, all that competes for its lookups agrees. -/
theorem order_free_iff (config : RepoConfig) (nodes : List GraphNode) (rawEdges : List RawEdge)
    (hids : (nodes.map (·.id)).Nodup) :
    OrderFree config nodes rawEdges ↔ ∀ e ∈ rawEdges, Settled config nodes rawEdges e :=
  ⟨fun h _ he => settled_of_orderFree hids h he, orderFree_of_settled hids⟩

end Settled

/-! ## A method and a function of one name -/

def mainFunction : GraphNode := ⟨ascii "a.ts/main", ascii "main", ascii "main", .function, ascii "a.ts"⟩

/-- A call of the name that the function and the method share. -/
def callOfRun : RawEdge := { srcFile := ascii "a.ts", srcName := ascii "main", dstName := ascii "run", kind := .staticCall }

theorem order_free_iff_two_runs :
    OrderFree {} [mainFunction, runFunction, runMethod] [callOfRun] ↔
      ∀ e ∈ [callOfRun], Settled {} [mainFunction, runFunction, runMethod] [callOfRun] e :=
  order_free_iff {} [mainFunction, runFunction, runMethod] [callOfRun] (by decide)

/-- The call goes to the one that comes last. -/
theorem last_of_a_name_picked :
    ¬ ∀ (config : RepoConfig) (nodes : List GraphNode) (rawEdges : List RawEdge),
      (nodes.map (·.id)).Nodup → OrderFree config nodes rawEdges := by
  intro h
  have hfree := h {} [mainFunction, runFunction, runMethod] [callOfRun] (by decide)
  have hperm : [mainFunction, runMethod, runFunction].Perm [mainFunction, runFunction, runMethod] :=
    (List.Perm.swap runFunction runMethod []).cons mainFunction
  have hsame := (hfree _ _ (reordered_nodes hperm [callOfRun])).1 callOfRun List.mem_cons_self
  have hfirst : (edgeResolver {} [mainFunction, runFunction, runMethod] [callOfRun]).srcId callOfRun ≠ none := by decide
  have hdst := EdgeResolver.dstId_congr hsame hfirst
  have hmethod : (edgeResolver {} [mainFunction, runFunction, runMethod] [callOfRun]).dstId callOfRun = some runMethod.id := by
    decide
  have hfunction : (edgeResolver {} [mainFunction, runMethod, runFunction] [callOfRun]).dstId callOfRun = some runFunction.id := by
    decide
  rw [hmethod, hfunction, Option.some.injEq] at hdst
  exact absurd hdst (by decide)

end Hayven.Graph
