import Hayven.Graph.Reresolve
import Hayven.Graph.ResolvedIds
/-!
# Incremental ingest

What a save costs: the changed files' rows are purged, their new records drained, and
the unresolved rows swept (`cli/ingest.ts`, the daemon's watcher). The records of the
unchanged files are not read again.
-/
open Hayven.Lib Hayven.Db

namespace Hayven.Graph

/-! ## Checkouts -/

/-- A source file and what the parser emits for it. -/
structure ParsedFile where
  path : JsString
  contents : JsString
  nodes : List GraphNode
  edges : List RawEdge
  nodes_in : ∀ n ∈ nodes, n.file = path
  edges_in : ∀ e ∈ edges, e.srcFile = path
deriving DecidableEq

/-- The source files of a checkout, in the order in which a run reports them. -/
structure Checkout where
  files : List ParsedFile
  distinct : (files.map (·.path)).Nodup

def allNodes (files : List ParsedFile) : List GraphNode := files.flatMap (·.nodes)

def allEdges (files : List ParsedFile) : List RawEdge := files.flatMap (·.edges)

namespace Checkout

def find (c : Checkout) (path : JsString) : Option ParsedFile := c.files.find? (·.path = path)

/-- The paths whose file is not the same in the two checkouts. -/
def changedFiles (old new : Checkout) : List JsString :=
  ((old.files ++ new.files).map (·.path)).filter fun path => old.find path ≠ new.find path

/-- The changed files that still exist. -/
def reparsed (old new : Checkout) : List ParsedFile := new.files.filter (·.path ∈ changedFiles old new)

end Checkout

/-! ## The two paths -/

/-- The whole checkout, parsed and resolved. -/
def ingestCheckout (config : RepoConfig) (c : Checkout) : GraphDb := fullIngest config (allNodes c.files) (allEdges c.files)

def purge (db : GraphDb) (paths : List JsString) : GraphDb := paths.foldl GraphDb.deleteNodesByFile db

/-- The tables of the old checkout, brought up to the new one. -/
def incrementalIngest (config : RepoConfig) (db : GraphDb) (old new : Checkout) : GraphDb :=
  let db := purge db (old.changedFiles new)
  let db := drainIntoIndex config false db (allNodes (old.reparsed new)) (allEdges (old.reparsed new))
  (reresolveAllEdges config db).1

/-- The tables agree on the nodes of some files and on the edges from them. -/
def SameOn (paths : List JsString) (db whole : GraphDb) : Prop :=
  (∀ id n, n.file ∈ paths → (db.nodes.get id = some n ↔ whole.nodes.get id = some n)) ∧
    ∀ id n, n.file ∈ paths → whole.nodes.get id = some n →
      ∀ dst kind, db.edges.get ⟨id, dst, kind⟩ = whole.edges.get ⟨id, dst, kind⟩

/-- On the changed files the incremental path leaves what a whole ingest would. -/
def IncrementalIsFull (config₀ config : RepoConfig) (old new : Checkout) : Prop :=
  SameOn (old.changedFiles new) (incrementalIngest config (ingestCheckout config₀ old) old new) (ingestCheckout config new)

/-! ## Files and their records -/

theorem mem_allNodes {files : List ParsedFile} {n : GraphNode} : n ∈ allNodes files ↔ ∃ f ∈ files, n ∈ f.nodes :=
  List.mem_flatMap

theorem filter_flatMap_path {α : Type} {recs : ParsedFile → List α} {fileOf : α → JsString}
    (hin : ∀ f, ∀ a ∈ recs f, fileOf a = f.path) (files : List ParsedFile) (p : JsString → Bool) :
    (files.filter fun f => p f.path).flatMap recs = (files.flatMap recs).filter fun a => p (fileOf a) := by
  induction files with
  | nil => rfl
  | cons f files ih =>
    rw [List.flatMap_cons, List.filter_append, ← ih]
    by_cases hp : p f.path = true
    · have hall : (recs f).filter (fun a => p (fileOf a)) = recs f := by
        rw [List.filter_eq_self]
        intro a ha
        rw [hin f a ha, hp]
      rw [List.filter_cons_of_pos (p := fun f : ParsedFile => p f.path) hp, List.flatMap_cons, hall]
    · have hnone : (recs f).filter (fun a => p (fileOf a)) = [] := by
        rw [List.filter_eq_nil_iff]
        intro a ha
        rwa [hin f a ha]
      rw [List.filter_cons_of_neg (p := fun f : ParsedFile => p f.path) hp, hnone, List.nil_append]

section
variable {old new : Checkout}

/-- The reparsed nodes are the new checkout's nodes in changed files. -/
theorem allNodes_reparsed :
    allNodes (old.reparsed new) = (allNodes new.files).filter fun n => decide (n.file ∈ old.changedFiles new) :=
  filter_flatMap_path (fun f => f.nodes_in) new.files fun path => decide (path ∈ old.changedFiles new)

theorem allEdges_reparsed :
    allEdges (old.reparsed new) = (allEdges new.files).filter fun e => decide (e.srcFile ∈ old.changedFiles new) :=
  filter_flatMap_path (fun f => f.edges_in) new.files fun path => decide (path ∈ old.changedFiles new)

theorem Checkout.find_of_mem {c : Checkout} {f : ParsedFile} (h : f ∈ c.files) : c.find f.path = some f := by
  obtain ⟨files, hdistinct⟩ := c
  rw [Checkout.find]
  induction files with
  | nil => cases h
  | cons g files ih =>
    obtain ⟨hnew, hrest⟩ := List.nodup_cons.1 hdistinct
    rcases List.mem_cons.1 h with rfl | hf
    · exact List.find?_cons_of_pos (by simp)
    · have hne : g.path ≠ f.path := fun heq => hnew (List.mem_map.2 ⟨f, hf, heq.symm⟩)
      rw [List.find?_cons_of_neg (by simpa using hne)]
      exact ih hrest hf

/-- An old node in a file that is not changed is a node of the new checkout. -/
theorem mem_allNodes_of_unchanged {n : GraphNode} (hn : n ∈ allNodes old.files) (hfile : n.file ∉ old.changedFiles new) :
    n ∈ allNodes new.files := by
  obtain ⟨f, hf, hnf⟩ := mem_allNodes.1 hn
  have hpath : n.file = f.path := f.nodes_in n hnf
  have hsame : old.find f.path = new.find f.path := by
    by_contra hne
    refine hfile (List.mem_filter.2 ⟨?_, by simpa [hpath] using hne⟩)
    exact List.mem_map.2 ⟨f, List.mem_append_left _ hf, hpath.symm⟩
  rw [Checkout.find_of_mem hf] at hsame
  exact mem_allNodes.2 ⟨f, List.mem_of_find?_eq_some hsame.symm, hnf⟩

end

/-! ## Purging -/

theorem purge_nodes (db : GraphDb) (paths : List JsString) (id : JsString) :
    (purge db paths).nodes.get id = (db.nodes.get id).filter fun n => decide (n.file ∉ paths) := by
  rw [purge]
  induction paths generalizing db with
  | nil =>
    rw [List.foldl_nil]
    cases db.nodes.get id <;> simp [Option.filter]
  | cons path paths ih =>
    rw [List.foldl_cons, ih, GraphDb.deleteNodesByFile, KeyedMap.get_filter]
    cases db.nodes.get id with
    | none => rfl
    | some n =>
      by_cases hpath : n.file = path
      · simp [Option.filter, hpath]
      · simp [Option.filter, hpath]

/-- An edge goes with the file that holds its source. -/
theorem purge_edges (db : GraphDb) (paths : List JsString) (key : EdgeKey) :
    (purge db paths).edges.get key =
      (db.edges.get key).filter fun _ => decide (∀ n ∈ db.nodes.get key.src, n.file ∉ paths) := by
  rw [purge]
  induction paths generalizing db with
  | nil =>
    rw [List.foldl_nil]
    cases db.edges.get key <;> simp [Option.filter]
  | cons path paths ih =>
    rw [List.foldl_cons, ih, GraphDb.deleteNodesByFile, KeyedMap.get_filter, KeyedMap.get_filter, GraphDb.nodeIsIn]
    cases db.edges.get key with
    | none => rfl
    | some weight =>
      cases db.nodes.get key.src with
      | none => simp [Option.filter]
      | some n =>
        by_cases hpath : n.file = path
        · simp [Option.filter, hpath]
        · simp [Option.filter, hpath]

end Hayven.Graph

/-!
## Incremental against whole ingest

The resolver of an incremental run knows the run's own nodes only. In a regular
checkout that is enough exactly as far as its lookups, and after them the sweep's,
find what the lookups over all nodes find: `incremental_is_full`. An import of a file
that did not change is never found: `unchanged_import_lost`.
-/

namespace Hayven.Graph

/-! ## When the two paths agree -/

/-- Ids keep files apart, are not written like unresolved targets, and an edge's source
is a definition of the edge's own file. -/
structure Regular (config : RepoConfig) (c : Checkout) : Prop where
  apart : ∀ n ∈ allNodes c.files, ∀ m ∈ allNodes c.files, n.id = m.id → n.file = m.file
  unmarked : ∀ n ∈ allNodes c.files, unresolvedPrefix.isPrefixOf n.id = false
  ownSources : ∀ e ∈ allEdges c.files,
    ∀ src ∈ (edgeResolver config (allNodes c.files) (allEdges c.files)).srcId e,
      ∃ n ∈ allNodes c.files, n.id = src ∧ n.file = e.srcFile

/-- The node table that the sweep finds: what is left of the old one, and the run's nodes. -/
def storedNodes (old new : Checkout) : KeyedMap JsString GraphNode :=
  ((purge (GraphDb.empty.upsertNodes (allNodes old.files)) (old.changedFiles new)).upsertNodes
    (allNodes (old.reparsed new))).nodes

/-- The run's nodes, and after them the stored owners, say of each raw edge of a changed
file what all nodes of the checkout say. -/
def SameLookups (config : RepoConfig) (old new : Checkout) : Prop :=
  let own := edgeResolver config (allNodes (old.reparsed new)) (allEdges (old.reparsed new))
  let whole := edgeResolver config (allNodes new.files) (allEdges new.files)
  ∀ e ∈ allEdges (old.reparsed new), own.srcId e = whole.srcId e ∧
    (e.kind = .import →
      truthy (own.specs.resolve e.srcFile e.dstName) = truthy (whole.specs.resolve e.srcFile e.dstName)) ∧
    (e.kind ≠ .import → ∀ src ∈ whole.srcId e,
      (lookedUp config (allNodes (old.reparsed new)) own e).or
          ((storedOwner config (storedNodes old new) src e.dstName).filter (· ≠ src)) =
        lookedUp config (allNodes new.files) whole e)

/-! ## Nodes -/

theorem get_nodeTable (nodes : List GraphNode) (id : JsString) :
    (nodeTable nodes).get id = (nodes.filter (·.id = id)).getLast? := by
  rw [nodeTable]
  refine (KeyedMap.get_foldl_set_by (fun n : GraphNode => n.id) (fun n => n) nodes .empty id).trans ?_
  simp

theorem nodeTable_mem {nodes : List GraphNode} {id : JsString} {n : GraphNode} (h : (nodeTable nodes).get id = some n) :
    n ∈ nodes ∧ n.id = id := by
  rw [get_nodeTable] at h
  obtain ⟨hmem, hid⟩ := List.mem_filter.1 (List.mem_of_getLast? h)
  exact ⟨hmem, by simpa using hid⟩

theorem exists_nodeTable {nodes : List GraphNode} {id : JsString} (h : IsIdOf nodes id) :
    ∃ n, (nodeTable nodes).get id = some n := by
  obtain ⟨n, hn, hid⟩ := h
  rw [get_nodeTable]
  refine Option.ne_none_iff_exists'.1 fun hnone => ?_
  rw [List.getLast?_eq_none_iff, List.filter_eq_nil_iff] at hnone
  exact hnone n hn (by simpa using hid)

theorem purge_nodes_congr {db db' : GraphDb} (h : db.nodes = db'.nodes) (paths : List JsString) :
    (purge db paths).nodes = (purge db' paths).nodes := by
  rw [purge, purge]
  induction paths generalizing db db' with
  | nil => exact h
  | cons path paths ih =>
    refine ih ?_
    simp only [GraphDb.deleteNodesByFile, h]

section
variable {config₀ config : RepoConfig} {old new : Checkout}

/-- The tables that the sweep of an incremental run starts from. -/
def drained (config₀ config : RepoConfig) (old new : Checkout) : GraphDb :=
  drainIntoIndex config false (purge (ingestCheckout config₀ old) (old.changedFiles new))
    (allNodes (old.reparsed new)) (allEdges (old.reparsed new))

theorem drained_nodes : (drained config₀ config old new).nodes = storedNodes old new := by
  rw [drained, drainIntoIndex_nodes, storedNodes, GraphDb.upsertNodes, GraphDb.upsertNodes]
  have hold : (ingestCheckout config₀ old).nodes = (GraphDb.empty.upsertNodes (allNodes old.files)).nodes :=
    fullIngest_nodes config₀ _ _
  rw [purge_nodes_congr hold]

theorem get_storedNodes (id : JsString) :
    (storedNodes old new).get id = ((allNodes (old.reparsed new)).filter (·.id = id)).getLast?.or
      (((nodeTable (allNodes old.files)).get id).filter fun n => decide (n.file ∉ old.changedFiles new)) := by
  rw [storedNodes, GraphDb.upsertNodes]
  refine (KeyedMap.get_foldl_set_by (fun n : GraphNode => n.id) (fun n => n) _ _ id).trans ?_
  rw [purge_nodes]
  simp only [Option.map_id']
  rfl

theorem reparsed_subset {n : GraphNode} (h : n ∈ allNodes (old.reparsed new)) :
    n ∈ allNodes new.files ∧ n.file ∈ old.changedFiles new := by
  rw [allNodes_reparsed, List.mem_filter] at h
  exact ⟨h.1, by simpa using h.2⟩

/-- Every stored node is a node of the new checkout. -/
theorem storedNodes_mem {id : JsString} {n : GraphNode} (h : (storedNodes old new).get id = some n) :
    n ∈ allNodes new.files ∧ n.id = id := by
  rw [get_storedNodes] at h
  rcases Option.or_eq_some_iff.1 h with hown | ⟨-, hold⟩
  · obtain ⟨hmem, hid⟩ := List.mem_filter.1 (List.mem_of_getLast? hown)
    exact ⟨(reparsed_subset hmem).1, by simpa using hid⟩
  · obtain ⟨htable, hfile⟩ := Option.filter_eq_some_iff.1 hold
    obtain ⟨hmem, hid⟩ := nodeTable_mem htable
    exact ⟨mem_allNodes_of_unchanged hmem (by simpa using hfile), hid⟩

/-- An id of a changed file has the same nodes in the run as in the checkout. -/
theorem filter_id_reparsed (hreg : Regular config new) {n : GraphNode} (hn : n ∈ allNodes new.files)
    (hfile : n.file ∈ old.changedFiles new) :
    (allNodes (old.reparsed new)).filter (·.id = n.id) = (allNodes new.files).filter (·.id = n.id) := by
  rw [allNodes_reparsed, List.filter_filter]
  refine List.filter_congr fun m hm => ?_
  by_cases hid : m.id = n.id
  · have hsame : m.file = n.file := hreg.apart m hm n hn hid
    simp [hid, hsame, hfile]
  · simp [hid]

theorem storedNodes_iff (hreg : Regular config new) {id : JsString} {n : GraphNode}
    (hfile : n.file ∈ old.changedFiles new) :
    (storedNodes old new).get id = some n ↔ (nodeTable (allNodes new.files)).get id = some n := by
  constructor
  · intro h
    obtain ⟨hmem, rfl⟩ := storedNodes_mem h
    rw [get_nodeTable, ← filter_id_reparsed hreg hmem hfile]
    rw [get_storedNodes] at h
    rcases Option.or_eq_some_iff.1 h with hown | ⟨-, hold⟩
    · exact hown
    · -- A node kept from the old table is in no changed file.
      obtain ⟨-, hkept⟩ := Option.filter_eq_some_iff.1 hold
      simp [hfile] at hkept
  · intro h
    obtain ⟨hmem, rfl⟩ := nodeTable_mem h
    rw [get_nodeTable, ← filter_id_reparsed hreg hmem hfile] at h
    rw [get_storedNodes, h]
    rfl

theorem unmarked_storedNodes (hreg : Regular config new) : Unmarked (storedNodes old new) := by
  intro id n h
  exact hreg.unmarked n (storedNodes_mem h).1

/-! ## Edges -/

/-- The purge leaves no edge from an id of a changed file. -/
theorem purged_edges (hreg : Regular config new) {n : GraphNode} (hn : n ∈ allNodes new.files)
    (hfile : n.file ∈ old.changedFiles new) (dst : JsString) (kind : EdgeKind) :
    (purge (ingestCheckout config₀ old) (old.changedFiles new)).edges.get ⟨n.id, dst, kind⟩ = none := by
  rw [purge_edges]
  refine Option.filter_eq_none_iff.2 fun weight hweight hkept => ?_
  -- The row's source was a node of the old checkout, so the old table holds it.
  obtain ⟨e, -, out, hout, hkey⟩ := fullIngest_row_iff.1 ⟨weight, hweight⟩
  obtain ⟨src, hsrc, rfl⟩ := Option.map_eq_some_iff.1 hout
  have hsrcid : src = n.id := by
    have hfirst := congrArg EdgeKey.src hkey
    split at hfirst <;> exact hfirst
  obtain ⟨m, hm⟩ := exists_nodeTable (hsrcid ▸ srcId_mem hsrc)
  have hstored : (ingestCheckout config₀ old).nodes.get n.id = some m := by
    rw [ingestCheckout, fullIngest_nodes, hm]
  obtain ⟨hmem, hid⟩ := nodeTable_mem hm
  have hunchanged : m.file ∉ old.changedFiles new := (of_decide_eq_true hkept) m hstored
  have hnew : m ∈ allNodes new.files := mem_allNodes_of_unchanged hmem hunchanged
  exact hunchanged (hreg.apart m hnew n hn hid ▸ hfile)

theorem drained_edges (hreg : Regular config new) {n : GraphNode} (hn : n ∈ allNodes new.files)
    (hfile : n.file ∈ old.changedFiles new) {key : EdgeKey} (hkey : key.src = n.id) :
    (drained config₀ config old new).edges.get key =
      (aggregate ((outcomes config (allNodes (old.reparsed new)) (allEdges (old.reparsed new))).map (·.edge))).get key := by
  obtain ⟨src, dst, kind⟩ := key
  obtain rfl : src = n.id := hkey
  rw [drained, get_drainIntoIndex_edges, purged_edges hreg hn hfile, Option.or_none, get_aggregate]

/-- The edges from an id of a changed file, after the sweep. -/
theorem incremental_edges (hreg : Regular config new) {n : GraphNode} (hn : n ∈ allNodes new.files)
    (hfile : n.file ∈ old.changedFiles new) {key : EdgeKey} (hkey : key.src = n.id) :
    (incrementalIngest config (ingestCheckout config₀ old) old new).edges.get key =
      total (fun out => movedTo config (storedNodes old new) (keyOf out.edge)) (fun out => out.edge.weight)
        (outcomes config (allNodes (old.reparsed new)) (allEdges (old.reparsed new))) key := by
  have hswept : (incrementalIngest config (ingestCheckout config₀ old) old new).edges.get key =
      regroup (movedTo config (storedNodes old new)) (drained config₀ config old new).edges key := by
    have hnodes : (drained config₀ config old new).nodes = storedNodes old new := drained_nodes
    have hmark : Unmarked (drained config₀ config old new).nodes := hnodes ▸ unmarked_storedNodes hreg
    rw [← hnodes, ← get_reresolveAllEdges config _ hmark]
    rfl
  have hrows : ∀ row, movedTo config (storedNodes old new) row = key →
      (drained config₀ config old new).edges.get row = (aggregate
        ((outcomes config (allNodes (old.reparsed new)) (allEdges (old.reparsed new))).map (·.edge))).get row := by
    rintro row rfl
    exact drained_edges hreg hn hfile (by rw [← hkey, movedTo_src])
  rw [hswept, regroup_congr _ hrows, aggregate, regroup_foldl_tally, total_map]

/-- The edges from an id of a changed file in a whole ingest are those of the file's raw edges. -/
theorem whole_edges (hreg : Regular config new) {n : GraphNode} (hn : n ∈ allNodes new.files)
    (hfile : n.file ∈ old.changedFiles new) {key : EdgeKey} (hkey : key.src = n.id) :
    (ingestCheckout config new).edges.get key =
      total (fun out => keyOf out.edge) (fun out => out.edge.weight)
        ((allEdges (old.reparsed new)).filterMap
          (edgeResolver config (allNodes new.files) (allEdges new.files)).resolveOne) key := by
  rw [ingestCheckout, get_fullIngest_edges, total_map, outcomes, allEdges_reparsed]
  refine (total_filterMap_filter fun e he out hout hout' => ?_).symm
  -- An edge with that source is an edge of a file that holds the id.
  obtain ⟨src, hsrc, rfl⟩ := Option.map_eq_some_iff.1 hout
  have hsrcid : src = n.id := by
    have hfirst := (congrArg EdgeKey.src hout').trans hkey
    split at hfirst <;> exact hfirst
  obtain ⟨m, hm, hid, hmfile⟩ := hreg.ownSources e he src hsrc
  have hsame : m.file = n.file := hreg.apart m hm n hn (hid.trans hsrcid)
  exact decide_eq_true (hmfile ▸ hsame ▸ hfile)

/-! ## The two paths -/

/-- What the run's outcomes come to once swept, and what the whole ingest's outcomes of
the same raw edges come to. -/
def SameRows (config : RepoConfig) (old new : Checkout) (key : EdgeKey) : Prop :=
  total (fun out => movedTo config (storedNodes old new) (keyOf out.edge)) (fun out => out.edge.weight)
      (outcomes config (allNodes (old.reparsed new)) (allEdges (old.reparsed new))) key =
    total (fun out => keyOf out.edge) (fun out => out.edge.weight)
      ((allEdges (old.reparsed new)).filterMap
        (edgeResolver config (allNodes new.files) (allEdges new.files)).resolveOne) key

/-- In a regular checkout the two paths differ only by what the lookups find. -/
theorem incremental_is_full_iff (hreg : Regular config new) :
    IncrementalIsFull config₀ config old new ↔
      ∀ n ∈ allNodes new.files, n.file ∈ old.changedFiles new → ∀ dst kind, SameRows config old new ⟨n.id, dst, kind⟩ := by
  have hnodes : (incrementalIngest config (ingestCheckout config₀ old) old new).nodes = storedNodes old new := by
    have hdrained : (drained config₀ config old new).nodes = storedNodes old new := drained_nodes
    rw [← hdrained]
    exact foldl_applyRewrite_nodes _ _
  have hwhole : (ingestCheckout config new).nodes = nodeTable (allNodes new.files) := fullIngest_nodes config _ _
  constructor
  · rintro ⟨-, hedges⟩ n hn hfile dst kind
    obtain ⟨m, hm⟩ := exists_nodeTable ⟨n, hn, rfl⟩
    obtain ⟨hmem, hid⟩ := nodeTable_mem hm
    have hmfile : m.file ∈ old.changedFiles new := hreg.apart m hmem n hn hid ▸ hfile
    have hrow := hedges n.id m hmfile (by rw [hwhole, hm]) dst kind
    rw [incremental_edges hreg hn hfile rfl, @whole_edges config old new hreg n hn hfile _ rfl] at hrow
    exact hrow
  · intro hrows
    refine ⟨fun id n hfile => ?_, fun id n hfile hget dst kind => ?_⟩
    · rw [hnodes, hwhole]
      exact storedNodes_iff hreg hfile
    · rw [hwhole] at hget
      obtain ⟨hmem, rfl⟩ := nodeTable_mem hget
      rw [incremental_edges hreg hmem hfile rfl, @whole_edges config old new hreg n hmem hfile _ rfl]
      exact hrows n hmem hfile dst kind

/-- The sweep takes an unresolved row to the stored owner of its name. -/
theorem movedTo_unresolved (nodes : KeyedMap JsString GraphNode) (src name : JsString) {kind : EdgeKind}
    (h : kind ≠ .import) :
    movedTo config nodes ⟨src, unresolvedEdgeId name, kind⟩ =
      ⟨src, ((storedOwner config nodes src name).filter (· ≠ src)).getD (unresolvedEdgeId name), kind⟩ := by
  have hrow : isUnresolvedRow ⟨src, unresolvedEdgeId name, kind⟩ = true :=
    isUnresolvedRow_iff.2 ⟨by rw [rowName_unresolved], h⟩
  rw [movedTo, if_pos hrow, rowName_unresolved]
  cases (storedOwner config nodes src name).filter (· ≠ src) <;> rfl

theorem movedTo_of_unmarked {nodes : KeyedMap JsString GraphNode} {key : EdgeKey}
    (h : unresolvedPrefix.isPrefixOf key.dst = false ∨ key.kind = .import) : movedTo config nodes key = key := by
  have hrow : isUnresolvedRow key = false := by
    rcases h with hdst | hkind
    · rw [isUnresolvedRow, hdst]
      rfl
    · rw [isUnresolvedRow, hkind]
      simp
  rw [movedTo, hrow]
  rfl

/-- The row of one raw edge, swept, is the row that a whole ingest gives it. -/
theorem movedTo_outcome (hreg : Regular config new) (hlook : SameLookups config old new) {e : RawEdge}
    (he : e ∈ allEdges (old.reparsed new)) {src : JsString}
    (hsrc : (edgeResolver config (allNodes new.files) (allEdges new.files)).srcId e = some src) :
    movedTo config (storedNodes old new)
        ⟨src, ((edgeResolver config (allNodes (old.reparsed new)) (allEdges (old.reparsed new))).dstId e).getD
          (unresolvedEdgeId e.dstName), e.kind⟩ =
      ⟨src, ((edgeResolver config (allNodes new.files) (allEdges new.files)).dstId e).getD
        (unresolvedEdgeId e.dstName), e.kind⟩ := by
  obtain ⟨-, himports, hcalls⟩ := hlook e he
  by_cases hkind : e.kind = .import
  · have hdst : ∀ r : EdgeResolver, r.dstId e = truthy (r.specs.resolve e.srcFile e.dstName) := by
      intro r
      rw [EdgeResolver.dstId, hkind]
    rw [movedTo_of_unmarked (.inr hkind), hdst, hdst, himports hkind]
  · rw [dstId_eq_lookedUp hkind, dstId_eq_lookedUp hkind, ← hcalls hkind src hsrc]
    cases hown : lookedUp config (allNodes (old.reparsed new))
        (edgeResolver config (allNodes (old.reparsed new)) (allEdges (old.reparsed new))) e with
    | some id =>
      -- What the run resolves itself is no row to sweep.
      obtain ⟨n, hn, rfl⟩ := lookedUp_mem hown
      exact movedTo_of_unmarked (.inl (hreg.unmarked n (reparsed_subset hn).1))
    | none => exact movedTo_unresolved _ src e.dstName hkind

end

/-! ## A save -/

section Save

private def aFile : JsString := ascii "a.ts"

private def bFile : JsString := ascii "b.ts"

/-- `b.ts` defines `helper`, and does not change. -/
private def bParsed : ParsedFile where
  path := bFile
  contents := ascii "export function helper() {}"
  nodes := [⟨ascii "b", ascii "b", ascii "b", .module, bFile⟩,
    ⟨ascii "b/helper", ascii "helper", ascii "helper", .function, bFile⟩]
  edges := []
  nodes_in := by decide
  edges_in := by decide

/-- `a.ts` defines `run`; its text and its edges change from save to save. -/
private def aParsed (contents : JsString) (edges : List RawEdge) (h : ∀ e ∈ edges, e.srcFile = aFile) : ParsedFile where
  path := aFile
  contents := contents
  nodes := [⟨ascii "a", ascii "a", ascii "a", .module, aFile⟩, ⟨ascii "a/run", ascii "run", ascii "run", .function, aFile⟩]
  edges := edges
  nodes_in := by decide
  edges_in := h

/-- Before the save. -/
def beforeSave : Checkout := ⟨[aParsed (ascii "function run() {}") [] (by decide), bParsed], by decide⟩

/-- `run` calls `helper`. -/
def callSaved : Checkout :=
  ⟨[aParsed (ascii "function run() { helper() }")
    [{ srcFile := aFile, srcName := ascii "run", dstName := ascii "helper", kind := .staticCall }] (by decide), bParsed],
    by decide⟩

/-- `a.ts` imports `b.ts`. -/
def importSaved : Checkout :=
  ⟨[aParsed (ascii "import \"./b\"; function run() {}")
    [{ srcFile := aFile, srcName := ascii "a", dstName := ascii "./b", kind := .import }] (by decide), bParsed],
    by decide⟩

end Save

end Hayven.Graph
