import Hayven.Graph.EdgeResolver
import Hayven.Lib.Arrangements
/-!
# Module lookups

Resolving a specifier reads at most one entry of the module tables. Which entry it
reads depends on what the tables hold, not on the order their nodes came in; what the
entry says is the last module of a file, or the first of an import path.
-/
open Hayven.Lib Hayven.Native

namespace Hayven.Graph

/-! ## The tables -/

def isModuleOf (file : JsString) (n : GraphNode) : Bool := n.kind = .module ∧ normalizePosix n.file = file

def isModuleAt (path : JsString) (n : GraphNode) : Bool :=
  n.kind = .module ∧ importPathForFile n.file = path ∧ path ≠ []

/-- The id that a file without a module node goes by, if a node has that id. -/
def derivedId (nodes : List GraphNode) (file : JsString) : Option JsString :=
  if nodes.any (normalizePosix ·.file = file) then (moduleIdForFile file).filter (· ∈ nodes.map (·.id)) else none

namespace SpecifierResolver

theorem get_moduleFiles (nodes : List GraphNode) (file : JsString) :
    (moduleFiles nodes).get file = (nodes.filter (isModuleOf file)).getLast?.map (·.id) := by
  have hfilter : moduleFiles nodes =
      (nodes.filter fun n => n.kind = .module).foldl (fun m n => m.set (normalizePosix n.file) n.id) .empty := by
    rw [moduleFiles, List.foldl_filter]
    simp only [decide_eq_true_eq]
  have hboth : (fun n : GraphNode => decide (normalizePosix n.file = file) && decide (n.kind = .module)) = isModuleOf file := by
    funext n
    rw [isModuleOf, Bool.decide_and, Bool.and_comm]
  rw [hfilter, KeyedMap.get_foldl_set_by, List.filter_filter, hboth, KeyedMap.get_empty, Option.or_none]

theorem get_addDerived (ids : List JsString) (m : KeyedMap JsString JsString) (n : GraphNode) (file : JsString) :
    (addDerived ids m n).get file =
      (m.get file).or (if normalizePosix n.file = file then (moduleIdForFile file).filter (· ∈ ids) else none) := by
  unfold addDerived
  dsimp only
  by_cases hfile : normalizePosix n.file = file
  · subst hfile
    rw [if_pos rfl, KeyedMap.has]
    cases hget : m.get (normalizePosix n.file) with
    | some id => simp [hget]
    | none =>
      cases moduleIdForFile (normalizePosix n.file) with
      | none => simp [hget]
      | some derived =>
        by_cases hmem : derived ∈ ids
        · simp [hmem, Option.filter]
        · simp [hmem, hget, Option.filter]
  · rw [if_neg hfile, Option.or_none]
    split
    · rfl
    · split
      · split
        · exact KeyedMap.get_set_ne m _ hfile
        · rfl
      · rfl

theorem get_foldl_addDerived (ids : List JsString) (file : JsString) (l : List GraphNode) (m : KeyedMap JsString JsString) :
    (l.foldl (addDerived ids) m).get file =
      (m.get file).or (if l.any (normalizePosix ·.file = file) then (moduleIdForFile file).filter (· ∈ ids) else none) := by
  induction l generalizing m with
  | nil => simp
  | cons n l ih =>
    rw [List.foldl_cons, ih, get_addDerived, Option.or_assoc]
    congr 1
    by_cases hfile : normalizePosix n.file = file
    · by_cases hrest : l.any (normalizePosix ·.file = file) = true
      · simp [hfile, hrest]
      · simp [hfile, hrest]
    · simp [hfile]

/-- A file stands for its last module, or for its derived id. -/
theorem get_byFile (config : RepoConfig) (nodes : List GraphNode) (file : JsString) :
    (ofNodes config nodes).byFile.get file =
      ((nodes.filter (isModuleOf file)).getLast?.map (·.id)).or (derivedId nodes file) := by
  rw [ofNodes, get_foldl_addDerived, get_moduleFiles]
  rfl

theorem get_addImportPath (m : KeyedMap JsString JsString) (n : GraphNode) (path : JsString) :
    (addImportPath m n).get path = (m.get path).or (if isModuleAt path n then some n.id else none) := by
  unfold addImportPath isModuleAt
  dsimp only
  by_cases hpath : importPathForFile n.file = path
  · subst hpath
    cases hget : m.get (importPathForFile n.file) with
    | some id => simp [KeyedMap.has, hget]
    | none =>
      by_cases hkind : n.kind = .module
      · by_cases hempty : importPathForFile n.file = []
        · simp [hempty, hempty ▸ hget]
        · simp [KeyedMap.has, hget, hkind, hempty]
      · simp [hkind, hget]
  · simp only [hpath, false_and, and_false, decide_false, Bool.false_eq_true, if_false, Option.or_none]
    split
    · exact KeyedMap.get_set_ne m _ hpath
    · rfl

/-- An import path stands for its first module. -/
theorem get_byImportPath (config : RepoConfig) (nodes : List GraphNode) (path : JsString) :
    (ofNodes config nodes).byImportPath.get path = (nodes.filter (isModuleAt path)).head?.map (·.id) := by
  have hfold : ∀ (l : List GraphNode) (m : KeyedMap JsString JsString),
      (l.foldl addImportPath m).get path = (m.get path).or ((l.filter (isModuleAt path)).head?.map (·.id)) := by
    intro l
    induction l with
    | nil => simp
    | cons n l ih =>
      intro m
      rw [List.foldl_cons, ih, get_addImportPath, Option.or_assoc]
      cases hn : isModuleAt path n with
      | true => simp [hn]
      | false => simp [hn]
  rw [ofNodes, hfold nodes .empty, KeyedMap.get_empty, Option.none_or]

end SpecifierResolver

/-! ## What a specifier asks -/

/-- The one entry of the module tables that a specifier reads: a file's, or an import path's
with the parts that are left of the specifier. -/
inductive ModuleQuestion where
  | ofFile (file : JsString)
  | ofPath (path : JsString) (rest : List JsString)

namespace SpecifierResolver
variable (r : SpecifierResolver)

/-- What the tables say to a question. -/
def reply : ModuleQuestion → Option JsString
  | .ofFile file => r.byFile.get file
  | .ofPath path rest => (r.byImportPath.get path).map fun moduleId => r.dottedTarget moduleId rest

def askProbe (candidate : JsString) : Option ModuleQuestion := ((probePaths candidate).find? r.byFile.has).map .ofFile

def askDotted (spec : JsString) : Option ModuleQuestion :=
  let segs := (spec.splitOn dot).filter fun s => !s.isEmpty
  ((List.range segs.length).reverse.find? fun k => r.byImportPath.has ([slash].intercalate (segs.take (k + 1)))).map
    fun k => .ofPath ([slash].intercalate (segs.take (k + 1))) (segs.drop (k + 1))

def askRelative (srcDir spec : JsString) : Option ModuleQuestion :=
  let joined := if srcDir = [] then spec else srcDir ++ slash :: spec
  let norm := normalizePosix joined
  let swapped := [slash].intercalate (swapDist (norm.splitOn slash))
  (r.askProbe joined).or (if swapped ≠ norm then r.askProbe swapped else none)

/-- The question that resolving a specifier comes down to. -/
def ask (srcFile spec : JsString) : Option ModuleQuestion :=
  let srcDir := posixDir srcFile
  if spec = [] then none
  else if isRelative spec then r.askRelative srcDir spec
  else if isBare spec then none
  else
    let dotted := if isDottedInternalCandidate spec then r.askDotted spec else none
    let aliases := (r.config.nearest srcDir).elim [] (expandAlias spec)
    dotted.or ((aliases ++ r.config.workspace.candidatePaths spec).findSome? r.askProbe)

end SpecifierResolver

theorem findSome?_eq_find?_bind {α β : Type} (f : α → Option β) (l : List α) :
    l.findSome? f = (l.find? fun a => (f a).isSome).bind f := by
  induction l with
  | nil => rfl
  | cons a l ih =>
    rw [List.findSome?_cons, List.find?_cons, ih]
    cases h : f a with
    | none => rfl
    | some b => simp [h]

/-- Two lookups in turn, where the first is asked only what it can tell. -/
theorem bind_or_bind {α β : Type} {o o' : Option α} {f : α → Option β} (h : ∀ a ∈ o, (f a).isSome) :
    (o.bind f).or (o'.bind f) = (o.or o').bind f := by
  cases o with
  | none => rfl
  | some a =>
    obtain ⟨b, hb⟩ := Option.isSome_iff_exists.1 (h a rfl)
    simp [hb]

namespace SpecifierResolver
variable (r : SpecifierResolver)

theorem reply_askProbe {candidate : JsString} : ∀ q ∈ r.askProbe candidate, (r.reply q).isSome := by
  intro q hq
  obtain ⟨file, hfile, rfl⟩ := Option.map_eq_some_iff.1 hq
  exact List.find?_some (p := r.byFile.has) hfile

theorem probeModule_eq (candidate : JsString) : probeModule r.byFile candidate = (r.askProbe candidate).bind r.reply := by
  rw [probeModule, findSome?_eq_find?_bind, askProbe, Option.bind_map]
  rfl

theorem reply_askDotted {spec : JsString} : ∀ q ∈ r.askDotted spec, (r.reply q).isSome := by
  intro q hq
  obtain ⟨k, hk, rfl⟩ := Option.map_eq_some_iff.1 hq
  rw [reply, Option.isSome_map]
  have hhas := List.find?_some hk
  exact hhas

theorem resolveDotted_eq (spec : JsString) : r.resolveDotted spec = (r.askDotted spec).bind r.reply := by
  rw [resolveDotted, findSome?_eq_find?_bind, askDotted, Option.bind_map]
  simp only [Option.isSome_map]
  rfl

theorem resolveRelative_eq (srcDir spec : JsString) : r.resolveRelative srcDir spec = (r.askRelative srcDir spec).bind r.reply := by
  rw [resolveRelative, askRelative, ← bind_or_bind r.reply_askProbe, probeModule_eq, probeModule_eq,
    apply_ite (fun q : Option ModuleQuestion => q.bind r.reply)]
  rfl

/-- A specifier stands for what the tables say to its question. -/
theorem resolve_eq (srcFile spec : JsString) : r.resolve srcFile spec = (r.ask srcFile spec).bind r.reply := by
  have hprobe : ∀ l : List JsString, l.findSome? (probeModule r.byFile) = (l.findSome? r.askProbe).bind r.reply := by
    intro l
    induction l with
    | nil => rfl
    | cons candidate l ih =>
      have hor : ∀ {β : Type} (f : JsString → Option β), (candidate :: l).findSome? f = (f candidate).or (l.findSome? f) := by
        intro β f
        rw [List.findSome?_cons]
        cases f candidate with
        | none => rfl
        | some b => rfl
      rw [hor, hor, ih, probeModule_eq, bind_or_bind r.reply_askProbe]
  unfold resolve ask
  dsimp only
  split
  · rfl
  · split
    · exact r.resolveRelative_eq _ _
    · split
      · rfl
      · split
        · rw [resolveDotted_eq, hprobe, bind_or_bind r.reply_askDotted]
        · rw [hprobe, Option.none_or, Option.none_or]

/-- Tables that hold the same entries are asked the same. -/
theorem ask_congr {r r' : SpecifierResolver} (hconfig : r'.config = r.config)
    (hfile : ∀ file, r'.byFile.has file = r.byFile.has file)
    (hpath : ∀ path, r'.byImportPath.has path = r.byImportPath.has path) : r'.ask = r.ask := by
  have hprobe : r'.askProbe = r.askProbe := by
    funext candidate
    rw [askProbe, askProbe, funext hfile]
  have hdotted : r'.askDotted = r.askDotted := by
    funext spec
    simp only [askDotted, hpath]
  funext srcFile spec
  simp only [ask, askRelative, hprobe, hdotted, hconfig]

end SpecifierResolver

/-! ## Any order of the nodes -/

section Order
variable {config : RepoConfig} {nodes nodes' : List GraphNode}

theorem derivedId_perm (h : nodes'.Perm nodes) (file : JsString) : derivedId nodes' file = derivedId nodes file := by
  have hany : nodes'.any (normalizePosix ·.file = file) = nodes.any (normalizePosix ·.file = file) := h.any_eq
  have hids : ∀ id, id ∈ nodes'.map (·.id) ↔ id ∈ nodes.map (·.id) := fun id => (h.map _).mem_iff
  simp only [derivedId, hany, hids]

/-- Whether a kind has an end does not depend on the order. -/
theorem isSome_end_perm (h : nodes'.Perm nodes) {p : GraphNode → Bool} {x x' : Option GraphNode} (hx : IsEnd nodes p x)
    (hx' : IsEnd nodes' p x') : x'.isSome = x.isSome := by
  rw [isEnd_perm h] at hx'
  cases x with
  | none =>
    cases x' with
    | none => rfl
    | some a => exact absurd hx'.2 (by rw [hx a hx'.1]; exact Bool.false_ne_true)
  | some a =>
    cases x' with
    | none => exact absurd hx.2 (by rw [hx' a hx.1]; exact Bool.false_ne_true)
    | some b => rfl

/-- What a specifier asks does not depend on the order of the nodes. -/
theorem ask_perm (h : nodes'.Perm nodes) :
    (SpecifierResolver.ofNodes config nodes').ask = (SpecifierResolver.ofNodes config nodes).ask := by
  apply SpecifierResolver.ask_congr
  · rfl
  · intro file
    rw [KeyedMap.has, KeyedMap.has, SpecifierResolver.get_byFile, SpecifierResolver.get_byFile, derivedId_perm h]
    rw [Option.isSome_or, Option.isSome_or, Option.isSome_map, Option.isSome_map,
      isSome_end_perm h (isEnd_getLast? nodes _) (isEnd_getLast? nodes' _)]
  · intro path
    rw [KeyedMap.has, KeyedMap.has, SpecifierResolver.get_byImportPath, SpecifierResolver.get_byImportPath]
    rw [Option.isSome_map, Option.isSome_map, isSome_end_perm h (isEnd_head? nodes _) (isEnd_head? nodes' _)]

end Order

namespace ModuleQuestion

/-- The nodes that compete to answer. -/
def asks : ModuleQuestion → GraphNode → Bool
  | ofFile file => isModuleOf file
  | ofPath path _ => isModuleAt path

/-- The competitor whose answer stands in some order of the nodes. -/
def winner : ModuleQuestion → List GraphNode → Option GraphNode
  | ofFile file, nodes => (nodes.filter (isModuleOf file)).getLast?
  | ofPath path _, nodes => (nodes.filter (isModuleAt path)).head?

/-- What a question gets for an answer if a given competitor wins. -/
def answer (config : RepoConfig) (nodes : List GraphNode) : ModuleQuestion → Option GraphNode → Option JsString
  | ofFile file, x => (x.map (·.id)).or (derivedId nodes file)
  | ofPath _ rest, x => x.map fun n => (SpecifierResolver.ofNodes config nodes).dottedTarget n.id rest

theorem reply_ofNodes (config : RepoConfig) (nodes : List GraphNode) (q : ModuleQuestion) :
    (SpecifierResolver.ofNodes config nodes).reply q = q.answer config nodes (q.winner nodes) := by
  cases q with
  | ofFile file => exact SpecifierResolver.get_byFile config nodes file
  | ofPath path rest =>
    rw [SpecifierResolver.reply, SpecifierResolver.get_byImportPath, Option.map_map]
    rfl

theorem answer_perm {config : RepoConfig} {nodes nodes' : List GraphNode} (h : nodes'.Perm nodes) (q : ModuleQuestion)
    (x : Option GraphNode) : q.answer config nodes' x = q.answer config nodes x := by
  cases q with
  | ofFile file => rw [answer, answer, derivedId_perm h]
  | ofPath path rest =>
    have hids : ∀ id, id ∈ nodes'.map (·.id) ↔ id ∈ nodes.map (·.id) := fun id => (h.map _).mem_iff
    have htarget : ∀ moduleId, (SpecifierResolver.ofNodes config nodes').dottedTarget moduleId rest =
        (SpecifierResolver.ofNodes config nodes).dottedTarget moduleId rest := by
      intro moduleId
      unfold SpecifierResolver.dottedTarget SpecifierResolver.ofNodes
      simp only [hids]
    rw [answer, answer, funext fun n : GraphNode => htarget n.id]

end ModuleQuestion

end Hayven.Graph
