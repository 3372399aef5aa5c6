import Hayven.Graph.EdgeResolver
/-!
# Ids that the resolver gives

Whatever the resolver makes of a source or of a callee is the id of one of the nodes
it was fed: `srcId_mem`, `lookedUp_mem`.
-/
open Hayven.Lib

namespace Hayven.Graph

/-- The id of one of the nodes. -/
def IsIdOf (nodes : List GraphNode) (id : JsString) : Prop := ∃ n ∈ nodes, n.id = id

theorem isIdOf_iff {nodes : List GraphNode} {id : JsString} : IsIdOf nodes id ↔ id ∈ nodes.map (·.id) := by
  simp [IsIdOf]

section Files
variable {nodes : List GraphNode}

/-- Every file of a map stands for the id of a node. -/
private def FilesNamed (nodes : List GraphNode) (m : KeyedMap JsString JsString) : Prop :=
  ∀ file id, m.get file = some id → IsIdOf nodes id

private theorem FilesNamed.set {m : KeyedMap JsString JsString} (h : FilesNamed nodes m) {file id : JsString}
    (hid : IsIdOf nodes id) : FilesNamed nodes (m.set file id) := by
  intro file' id' hget
  rw [KeyedMap.get_set] at hget
  split at hget
  · exact Option.some.inj hget ▸ hid
  · exact h file' id' hget

private theorem filesNamed_moduleFiles : FilesNamed nodes (SpecifierResolver.moduleFiles nodes) := by
  have hfold : ∀ l : List GraphNode, l ⊆ nodes → ∀ m, FilesNamed nodes m → FilesNamed nodes
      (l.foldl (fun m n => if n.kind = .module then m.set (normalizePosix n.file) n.id else m) m) := by
    intro l
    induction l with
    | nil => exact fun _ m hm => hm
    | cons n l ih =>
      intro hl m hm
      rw [List.foldl_cons]
      refine ih (fun _ h => hl (List.mem_cons_of_mem n h)) _ ?_
      split
      · exact hm.set ⟨n, hl List.mem_cons_self, rfl⟩
      · exact hm
  exact hfold nodes (fun _ h => h) .empty fun file id h => by cases h

private theorem filesNamed_addDerived {m : KeyedMap JsString JsString} (hm : FilesNamed nodes m) (n : GraphNode) :
    FilesNamed nodes (SpecifierResolver.addDerived (nodes.map (·.id)) m n) := by
  unfold SpecifierResolver.addDerived
  dsimp only
  split
  · exact hm
  · split
    · split
      · next hderived => exact hm.set (isIdOf_iff.2 hderived)
      · exact hm
    · exact hm

/-- A file stands for its module node, or for a node that has its derived id. -/
theorem fileIndex_mem (config : RepoConfig) {file id : JsString}
    (h : (SpecifierResolver.ofNodes config nodes).byFile.get file = some id) : IsIdOf nodes id := by
  have hfold : ∀ l : List GraphNode, ∀ m, FilesNamed nodes m →
      FilesNamed nodes (l.foldl (SpecifierResolver.addDerived (nodes.map (·.id))) m) := by
    intro l
    induction l with
    | nil => exact fun m hm => hm
    | cons n l ih => exact fun m hm => ih _ (filesNamed_addDerived hm n)
  exact hfold nodes _ filesNamed_moduleFiles file id h

end Files

section Edges
variable {config : RepoConfig} {nodes : List GraphNode} {rawEdges : List RawEdge} {e : RawEdge} {id : JsString}

/-- The ids found under a key are ids of nodes with that key. -/
theorem getLast_filter_mem {p : GraphNode → Bool} (h : (nodes.filter p).getLast?.map (·.id) = some id) :
    ∃ n ∈ nodes, p n = true ∧ n.id = id := by
  obtain ⟨n, hn, hid⟩ := Option.map_eq_some_iff.1 h
  obtain ⟨hmem, hp⟩ := List.mem_filter.1 (List.mem_of_getLast? hn)
  exact ⟨n, hmem, hp, hid⟩

theorem srcId_mem (h : (edgeResolver config nodes rawEdges).srcId e = some id) : IsIdOf nodes id := by
  rw [EdgeResolver.srcId] at h
  rcases Option.or_eq_some_iff.1 h with hdefinition | ⟨-, hmodule⟩
  · obtain ⟨hget, -⟩ := truthy_eq_some.1 hdefinition
    rcases Option.or_eq_some_iff.1 hget with hname | ⟨-, hqn⟩
    · rw [get_byFileName] at hname
      obtain ⟨n, hn, -, hid⟩ := getLast_filter_mem hname
      exact ⟨n, hn, hid⟩
    · rw [get_byFileQn] at hqn
      obtain ⟨n, hn, -, hid⟩ := getLast_filter_mem hqn
      exact ⟨n, hn, hid⟩
  · split at hmodule
    · rw [edgeResolver_specs] at hmodule
      exact fileIndex_mem config (truthy_eq_some.1 hmodule).1
    · cases hmodule

theorem owner_isId {pkgOf : JsString → JsString} {pkg name : JsString} (h : owner pkgOf nodes pkg name = some id) :
    IsIdOf nodes id := by
  obtain ⟨n, hn, hid, -⟩ := owner_mem h
  exact ⟨n, hn, hid⟩

theorem sameFile_mem (h : (edgeResolver config nodes rawEdges).sameFile e = some id) :
    ∃ n ∈ nodes, fileKey n.file n.name = fileKey e.srcFile e.dstName ∧ n.id = id := by
  rw [EdgeResolver.sameFile, get_byFileName] at h
  obtain ⟨n, hn, hkey, hid⟩ := getLast_filter_mem (truthy_eq_some.1 h).1
  exact ⟨n, hn, by simpa using hkey, hid⟩

theorem importedTarget_mem {imp : ImportBinding} {moduleId : JsString}
    (h : (edgeResolver config nodes rawEdges).importedTarget e imp moduleId = some id) : IsIdOf nodes id := by
  obtain ⟨htarget, -⟩ := truthy_eq_some.1 h
  rcases Option.or_eq_some_iff.1 htarget with hcandidate | ⟨-, hpackage⟩
  · have hhas := List.find?_some hcandidate
    rw [EdgeResolver.hasId, edgeResolver_nodeStubs] at hhas
    obtain ⟨n, hn, hid⟩ := List.any_eq_true.1 hhas
    exact ⟨n, hn, by simpa using hid⟩
  · rw [lookupInPackage_eq_owner] at hpackage
    exact owner_isId hpackage

theorem nearest_mem (h : (edgeResolver config nodes rawEdges).nearest e = some id) : IsIdOf nodes id := by
  rcases Option.or_eq_some_iff.1 h with himport | ⟨-, hfile⟩
  · obtain ⟨imp, -, hbound⟩ := Option.bind_eq_some_iff.1 himport
    obtain ⟨moduleId, -, htarget⟩ := Option.bind_eq_some_iff.1 hbound
    exact importedTarget_mem htarget
  · obtain ⟨n, hn, -, hid⟩ := sameFile_mem hfile
    exact ⟨n, hn, hid⟩

/-- What the lookups over some nodes make of a callee: nothing behind an import out of
the repository, else the import's word, the file's, the package's. -/
def lookedUp (config : RepoConfig) (nodes : List GraphNode) (r : EdgeResolver) (e : RawEdge) : Option JsString :=
  if r.externallyBound e then none
  else (r.nearest e).or (truthy (owner config.pkgOf nodes (config.pkgOf e.srcFile) e.dstName))

theorem dstId_eq_lookedUp (h : e.kind ≠ .import) :
    (edgeResolver config nodes rawEdges).dstId e = lookedUp config nodes (edgeResolver config nodes rawEdges) e := by
  rw [EdgeResolver.dstId_eq _ e h, edgeResolver_config, lookupInPackage_eq_owner, lookedUp]

theorem lookedUp_mem (h : lookedUp config nodes (edgeResolver config nodes rawEdges) e = some id) : IsIdOf nodes id := by
  rw [lookedUp] at h
  split at h
  · cases h
  · rcases Option.or_eq_some_iff.1 h with hnear | ⟨-, howner⟩
    · exact nearest_mem hnear
    · exact owner_isId (truthy_eq_some.1 howner).1

end Edges

end Hayven.Graph
