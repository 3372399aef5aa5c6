import Hayven.Graph.Ingest
/-!
# Re-resolving unresolved edges

`reresolveAllEdges` of `graph/edgeResolver.ts`: every row whose target is an
unresolved name, imports apart, gets the id that owns the name in the package of the
row's source. The candidate nodes that the sweep reads decide as the whole table
would: `mem_rewrites`.
-/
open Hayven.Lib Hayven.Db

namespace Hayven.Graph

/-- `dst LIKE '?:%' AND kind != 'import'`. -/
def isUnresolvedRow (key : EdgeKey) : Bool := unresolvedPrefix.isPrefixOf key.dst && key.kind ≠ .import

def unresolvedRows (db : GraphDb) : List (EdgeKey × Nat) := db.edges.entries.filter fun row => isUnresolvedRow row.1

/-- The name an unresolved row asks for. -/
def rowName (key : EdgeKey) : JsString := key.dst.drop unresolvedPrefix.length

/-- The nodes that go by one of the names asked for. -/
def candidateNodes (db : GraphDb) : List GraphNode :=
  let names := (unresolvedRows db).map fun row => rowName row.1
  db.nodes.values.filter fun n => n.name ∈ names ∨ n.qualifiedName ∈ names

/-- The package of a row's source, the root package if the source is gone. -/
def srcPackage (config : RepoConfig) (nodes : KeyedMap JsString GraphNode) (src : JsString) : JsString :=
  (nodes.get src).elim [] fun n => config.pkgOf n.file

structure Rewrite where
  row : EdgeKey
  weight : Nat
  newDst : JsString
deriving DecidableEq

/-- No row is made to point at its own source. -/
def rewriteOf (config : RepoConfig) (db : GraphDb) (index : PackageScopedNameIndex) (row : EdgeKey × Nat) :
    Option Rewrite :=
  ((index.lookup (srcPackage config db.nodes row.1.src) (rowName row.1)).filter (· ≠ row.1.src)).map fun id =>
    ⟨row.1, row.2, id⟩

def rewrites (config : RepoConfig) (db : GraphDb) : List Rewrite :=
  let index := PackageScopedNameIndex.ofNodes config.pkgOf (candidateNodes db)
  (unresolvedRows db).filterMap (rewriteOf config db index)

/-- Drop the unresolved row and add its weight to the resolved one. -/
def applyRewrite (db : GraphDb) (rw : Rewrite) : GraphDb :=
  (db.deleteEdge rw.row).upsertEdge ⟨rw.row.src, rw.newDst, rw.row.kind, rw.weight⟩

/-- The tables after the sweep, and how many rows it rewrote. -/
def reresolveAllEdges (config : RepoConfig) (db : GraphDb) : GraphDb × Nat :=
  let rws := rewrites config db
  (rws.foldl applyRewrite db, rws.length)

/-! ## Which rows are rewritten -/

/-- The stored owner of a name in the package of a source. -/
def storedOwner (config : RepoConfig) (nodes : KeyedMap JsString GraphNode) (src name : JsString) : Option JsString :=
  owner config.pkgOf nodes.values (srcPackage config nodes src) name

theorem isUnresolvedRow_iff {key : EdgeKey} :
    isUnresolvedRow key = true ↔ key.dst = unresolvedEdgeId (rowName key) ∧ key.kind ≠ .import := by
  rw [isUnresolvedRow, Bool.and_eq_true, decide_eq_true_iff, rowName, unresolvedEdgeId]
  refine and_congr_left fun _ => ?_
  constructor
  · intro h
    obtain ⟨name, hname⟩ := List.isPrefixOf_iff_prefix.1 h
    rw [← hname, List.drop_left]
  · intro h
    rw [h]
    exact List.isPrefixOf_iff_prefix.2 ⟨_, rfl⟩

@[simp] theorem rowName_unresolved (src name : JsString) (kind : EdgeKind) :
    rowName ⟨src, unresolvedEdgeId name, kind⟩ = name :=
  List.drop_left

/-- The candidates decide on a name that is asked for as all nodes would. -/
theorem lookup_candidates (config : RepoConfig) (db : GraphDb) {row : EdgeKey × Nat} (h : row ∈ unresolvedRows db) :
    (PackageScopedNameIndex.ofNodes config.pkgOf (candidateNodes db)).lookup (srcPackage config db.nodes row.1.src)
      (rowName row.1) = storedOwner config db.nodes row.1.src (rowName row.1) := by
  rw [PackageScopedNameIndex.lookup_ofNodes, storedOwner]
  refine owner_congr fun n hn => ?_
  have hasked : rowName row.1 ∈ (unresolvedRows db).map fun row => rowName row.1 := List.mem_map_of_mem h
  rw [candidateNodes, List.mem_filter, decide_eq_true_iff]
  refine and_iff_left ?_
  rcases hn with hname | hqn
  · exact .inl (hname ▸ hasked)
  · exact .inr (hqn ▸ hasked)

/-- A row is rewritten exactly if an id other than its source owns its name. -/
theorem mem_rewrites {config : RepoConfig} {db : GraphDb} {rw : Rewrite} :
    rw ∈ rewrites config db ↔
      db.edges.get rw.row = some rw.weight ∧ isUnresolvedRow rw.row = true ∧
        storedOwner config db.nodes rw.row.src (rowName rw.row) = some rw.newDst ∧ rw.newDst ≠ rw.row.src := by
  obtain ⟨key, weight, id⟩ := rw
  simp only [rewrites, List.mem_filterMap, KeyedMap.get_eq_some]
  constructor
  · rintro ⟨row, hrow, hrw⟩
    rw [rewriteOf, lookup_candidates config db hrow] at hrw
    obtain ⟨id', hid, heq⟩ := Option.map_eq_some_iff.1 hrw
    obtain ⟨howner, hne⟩ := Option.filter_eq_some_iff.1 hid
    obtain ⟨hentry, hunresolved⟩ := List.mem_filter.1 hrow
    cases heq
    exact ⟨hentry, hunresolved, howner, by simpa using hne⟩
  · rintro ⟨hentry, hunresolved, howner, hne⟩
    have hrow : (key, weight) ∈ unresolvedRows db := List.mem_filter.2 ⟨hentry, hunresolved⟩
    refine ⟨(key, weight), hrow, ?_⟩
    rw [rewriteOf, lookup_candidates config db hrow]
    simp only [howner, Option.map_eq_some_iff, Option.filter_eq_some_iff]
    exact ⟨id, ⟨rfl, by simpa using hne⟩, rfl⟩

theorem reresolveAllEdges_eq_self {config : RepoConfig} {db : GraphDb} :
    reresolveAllEdges config db = (db, 0) ↔ ∀ rw, rw ∉ rewrites config db := by
  constructor
  · intro h rw hrw
    have hlength : (rewrites config db).length = 0 := congrArg Prod.snd h
    rw [List.length_eq_zero_iff.1 hlength] at hrw
    exact absurd hrw (List.not_mem_nil)
  · intro h
    rw [reresolveAllEdges, List.eq_nil_iff_forall_not_mem.2 h]
    rfl

/-! ## What the sweep leaves -/

/-- Where the sweep takes a row. -/
def movedTo (config : RepoConfig) (nodes : KeyedMap JsString GraphNode) (key : EdgeKey) : EdgeKey :=
  if isUnresolvedRow key then
    ((storedOwner config nodes key.src (rowName key)).filter (· ≠ key.src)).elim key fun id => { key with dst := id }
  else key

theorem movedTo_src (config : RepoConfig) (nodes : KeyedMap JsString GraphNode) (key : EdgeKey) :
    (movedTo config nodes key).src = key.src := by
  unfold movedTo
  split
  · cases (storedOwner config nodes key.src (rowName key)).filter (· ≠ key.src) <;> rfl
  · rfl

theorem movedTo_rewrite {config : RepoConfig} {db : GraphDb} {rw : Rewrite} (h : rw ∈ rewrites config db) :
    movedTo config db.nodes rw.row = { rw.row with dst := rw.newDst } := by
  obtain ⟨-, hrow, howner, hne⟩ := mem_rewrites.1 h
  have hkeep : (some rw.newDst).filter (· ≠ rw.row.src) = some rw.newDst := by simpa [Option.filter] using hne
  rw [movedTo, if_pos hrow, howner, hkeep]
  rfl

/-- No id of a stored node is written like an unresolved target. -/
def Unmarked (nodes : KeyedMap JsString GraphNode) : Prop :=
  ∀ id n, nodes.get id = some n → unresolvedPrefix.isPrefixOf n.id = false

/-- The rows to rewrite are rows of the table. -/
theorem rewrites_sublist (config : RepoConfig) (db : GraphDb) :
    ((rewrites config db).map fun rw => (rw.row, rw.weight)).Sublist db.edges.entries := by
  have hsame : ∀ (index : PackageScopedNameIndex) (l : List (EdgeKey × Nat)),
      (l.filterMap fun row => (rewriteOf config db index row).map fun rw => (rw.row, rw.weight)).Sublist l := by
    intro index l
    induction l with
    | nil => exact List.Sublist.refl _
    | cons row l ih =>
      rw [List.filterMap_cons, rewriteOf]
      cases (index.lookup (srcPackage config db.nodes row.1.src) (rowName row.1)).filter (· ≠ row.1.src) with
      | none => exact ih.cons row
      | some id => exact ih.cons_cons row
  rw [rewrites, List.map_filterMap]
  exact (hsame _ _).trans List.filter_sublist

theorem foldl_applyRewrite_edges (move : EdgeKey → EdgeKey) (rws : List Rewrite)
    (h : ∀ rw ∈ rws, move rw.row = { rw.row with dst := rw.newDst }) (db : GraphDb) :
    (rws.foldl applyRewrite db).edges = moveAll move (rws.map fun rw => (rw.row, rw.weight)) db.edges := by
  induction rws generalizing db with
  | nil => rfl
  | cons rw rws ih =>
    rw [List.foldl_cons, ih (fun rw' h' => h rw' (List.mem_cons_of_mem rw h')), List.map_cons, moveAll, moveAll,
      List.foldl_cons, h rw List.mem_cons_self]
    rfl

theorem foldl_applyRewrite_nodes (rws : List Rewrite) (db : GraphDb) :
    (rws.foldl applyRewrite db).nodes = db.nodes := by
  induction rws generalizing db with
  | nil => rfl
  | cons rw rws ih =>
    rw [List.foldl_cons, ih]
    rfl

/-- The sweep has a new target for a row. -/
def Rewritable (config : RepoConfig) (nodes : KeyedMap JsString GraphNode) (key : EdgeKey) : Prop :=
  isUnresolvedRow key = true ∧ ∃ id, storedOwner config nodes key.src (rowName key) = some id ∧ id ≠ key.src

theorem mem_rewrites_row {config : RepoConfig} {db : GraphDb} {key : EdgeKey} :
    (∃ rw ∈ rewrites config db, rw.row = key) ↔
      (db.edges.get key).isSome = true ∧ Rewritable config db.nodes key := by
  constructor
  · rintro ⟨rw, hrw, rfl⟩
    obtain ⟨hget, hrow, howner, hne⟩ := mem_rewrites.1 hrw
    exact ⟨by rw [hget]; rfl, hrow, rw.newDst, howner, hne⟩
  · rintro ⟨hsome, hrow, id, howner, hne⟩
    obtain ⟨weight, hget⟩ := Option.isSome_iff_exists.1 hsome
    exact ⟨⟨key, weight, id⟩, mem_rewrites.2 ⟨hget, hrow, howner, hne⟩, rfl⟩

/-- A row without a new target stays. -/
theorem movedTo_of_not_rewritable {config : RepoConfig} {nodes : KeyedMap JsString GraphNode} {key : EdgeKey}
    (h : ¬ Rewritable config nodes key) : movedTo config nodes key = key := by
  unfold movedTo
  split
  · next hrow =>
    cases howner : storedOwner config nodes key.src (rowName key) with
    | none => rfl
    | some id =>
      have hself : id = key.src := by
        by_contra hne
        exact h ⟨hrow, id, howner, hne⟩
      simp [hself, Option.filter]
  · rfl

/-- If no row goes where another sweep would take it on, each row has after the sweep what the
old rows that went to it add up to. -/
theorem get_reresolveAllEdges_of_steady (config : RepoConfig) (db : GraphDb)
    (hsteady : ∀ rw ∈ rewrites config db, ¬ Rewritable config db.nodes { rw.row with dst := rw.newDst }) (key : EdgeKey) :
    (reresolveAllEdges config db).1.edges.get key = regroup (movedTo config db.nodes) db.edges key := by
  rw [reresolveAllEdges, foldl_applyRewrite_edges (movedTo config db.nodes) _ (fun rw hrw => movedTo_rewrite hrw)]
  refine get_moveAll _ _ _ (db.edges.nodup.sublist ((rewrites_sublist config db).map Prod.fst)) ?_ ?_ key
  · intro row hrow
    obtain ⟨rw, hrw, rfl⟩ := List.mem_map.1 hrow
    obtain ⟨hget, hunresolved, howner, hne⟩ := mem_rewrites.1 hrw
    have hmoved := movedTo_rewrite hrw
    refine ⟨hget, ?_, ?_⟩
    · intro hsame
      have hnew := hsteady rw hrw
      rw [← hmoved, hsame] at hnew
      exact hnew ⟨hunresolved, rw.newDst, howner, hne⟩
    · rw [hmoved, movedTo_of_not_rewritable (hsteady rw hrw)]
  · intro k hsome hmoves
    by_cases hrewritable : Rewritable config db.nodes k
    · obtain ⟨rw, hrw, rfl⟩ := mem_rewrites_row.2 ⟨hsome, hrewritable⟩
      exact List.mem_map.2 ⟨(rw.row, rw.weight), List.mem_map.2 ⟨rw, hrw, rfl⟩, rfl⟩
    · exact absurd (movedTo_of_not_rewritable hrewritable) hmoves

/-- An id of a node is no unresolved target, so the sweep takes no row on. -/
theorem get_reresolveAllEdges (config : RepoConfig) (db : GraphDb) (hmark : Unmarked db.nodes) (key : EdgeKey) :
    (reresolveAllEdges config db).1.edges.get key = regroup (movedTo config db.nodes) db.edges key := by
  refine get_reresolveAllEdges_of_steady config db ?_ key
  rintro rw hrw ⟨hrow, -⟩
  obtain ⟨-, -, howner, -⟩ := mem_rewrites.1 hrw
  obtain ⟨n, hn, hid, -⟩ := owner_mem howner
  obtain ⟨id, hstored⟩ := KeyedMap.mem_values.1 hn
  rw [isUnresolvedRow, ← hid, hmark id n hstored] at hrow
  cases hrow

end Hayven.Graph

/-!
## What a sweep conserves

The laws of `reresolveAllEdges` over any tables: a second sweep has nothing to do, and
every row's weight is counted once, where the sweep took it. They fail where an entity's
own id is written like an unresolved target that another entity owns.
-/

namespace Hayven.Graph

/-- What the edges of a source and a kind weigh. -/
def weightOf (db : GraphDb) (src : JsString) (kind : EdgeKind) : Option Nat :=
  regroup (fun key => (key.src, key.kind)) db.edges (src, kind)

/-- What one sweep of some tables is to keep to. -/
structure SweepHolds (config : RepoConfig) (db : GraphDb) : Prop where
  again : reresolveAllEdges config (reresolveAllEdges config db).1 = ((reresolveAllEdges config db).1, 0)
  weights : ∀ src kind, weightOf (reresolveAllEdges config db).1 src kind = weightOf db src kind
  /-- Only an unresolved row goes, and only the row it resolves to grows. -/
  touches : ∀ key, (reresolveAllEdges config db).1.edges.get key ≠ db.edges.get key →
    key.kind ≠ .import ∧ ∃ old, (db.edges.get old).isSome = true ∧ isUnresolvedRow old = true ∧
      (key = old ∨ key = movedTo config db.nodes old)
  rest : (reresolveAllEdges config db).1.nodes = db.nodes ∧ (reresolveAllEdges config db).1.callSites = db.callSites
  /-- The occurrences of an old row count at the row it went to, and nowhere else. -/
  once : ∀ key, (reresolveAllEdges config db).1.edges.get key = regroup (movedTo config db.nodes) db.edges key

/-! ## Rows of the sweep -/

section Rows
variable {config : RepoConfig} {db : GraphDb}

theorem reresolveAllEdges_nodes (config : RepoConfig) (db : GraphDb) : (reresolveAllEdges config db).1.nodes = db.nodes :=
  foldl_applyRewrite_nodes _ db

theorem reresolveAllEdges_callSites (config : RepoConfig) (db : GraphDb) :
    (reresolveAllEdges config db).1.callSites = db.callSites := by
  have hfold : ∀ (rws : List Rewrite) (db : GraphDb), (rws.foldl applyRewrite db).callSites = db.callSites := by
    intro rws
    induction rws with
    | nil => exact fun _ => rfl
    | cons rw rws ih => exact fun db => ih (applyRewrite db rw)
  exact hfold _ db

/-- A row that moves is unresolved, and no import. -/
theorem isUnresolvedRow_of_moved {nodes : KeyedMap JsString GraphNode} {key : EdgeKey}
    (h : movedTo config nodes key ≠ key) : isUnresolvedRow key = true := by
  by_contra hrow
  exact h (by rw [movedTo, if_neg hrow])

theorem movedTo_kind (config : RepoConfig) (nodes : KeyedMap JsString GraphNode) (key : EdgeKey) :
    (movedTo config nodes key).kind = key.kind := by
  unfold movedTo
  split
  · cases (storedOwner config nodes key.src (rowName key)).filter (· ≠ key.src) with
    | none => rfl
    | some id => rfl
  · rfl

/-- Where no row of the table goes or comes from, the regrouped table is the table. -/
theorem regroup_of_unmoved {move : EdgeKey → EdgeKey} {m : KeyedMap EdgeKey Nat} {key : EdgeKey}
    (h : ∀ old, (m.get old).isSome = true → (move old = key ↔ old = key)) : regroup move m key = m.get key := by
  rw [← regroup_self m key, regroup, regroup, total, total]
  have hrow : ∀ row ∈ m.entries, (move row.1 = key ↔ row.1 = key) := by
    intro row hmem
    exact h row.1 (by rw [KeyedMap.get_eq_some.2 hmem]; rfl)
  have hfilter : m.entries.filter (fun row => decide (move row.1 = key)) =
      m.entries.filter (fun row => decide (row.1 = key)) :=
    List.filter_congr fun row hmem => by rw [decide_eq_decide.2 (hrow row hmem)]
  have hex : (∃ row ∈ m.entries, move row.1 = key) ↔ ∃ row ∈ m.entries, row.1 = key :=
    exists_congr fun row => and_congr_right fun hmem => hrow row hmem
  simp only [hfilter, hex]

/-- A row of the regrouped table is where some old row went. -/
theorem exists_of_regroup {move : EdgeKey → EdgeKey} {m : KeyedMap EdgeKey Nat} {key : EdgeKey}
    (h : regroup move m key ≠ none) : ∃ old, (m.get old).isSome = true ∧ move old = key := by
  by_contra hnone
  apply h
  refine total_eq_none.2 fun row hrow hkey => hnone ⟨row.1, ?_, hkey⟩
  rw [KeyedMap.get_eq_some.2 hrow]
  rfl

/-- Once every weight is where it went, a second sweep rewrites only what went to a rewritable row. -/
theorem rewritable_of_second {rw : Rewrite}
    (honce : ∀ key, (reresolveAllEdges config db).1.edges.get key = regroup (movedTo config db.nodes) db.edges key)
    (h : rw ∈ rewrites config (reresolveAllEdges config db).1) :
    ∃ first ∈ rewrites config db, Rewritable config db.nodes { first.row with dst := first.newDst } := by
  have hsecond := mem_rewrites_row.1 ⟨rw, h, rfl⟩
  rw [reresolveAllEdges_nodes, honce] at hsecond
  obtain ⟨hsome, hrewritable⟩ := hsecond
  obtain ⟨old, hold, hmoved⟩ := exists_of_regroup (Option.isSome_iff_ne_none.1 hsome)
  have hrewritable' : Rewritable config db.nodes old := by
    by_contra hnot
    rw [movedTo_of_not_rewritable hnot] at hmoved
    exact hnot (hmoved ▸ hrewritable)
  obtain ⟨first, hfirst, rfl⟩ := mem_rewrites_row.2 ⟨hold, hrewritable'⟩
  rw [movedTo_rewrite hfirst] at hmoved
  exact ⟨first, hfirst, hmoved ▸ hrewritable⟩

/-- A sweep keeps to its laws exactly when no row is resolved to an id that reads as an unresolved target with an owner. -/
theorem sweep_holds_iff (config : RepoConfig) (db : GraphDb) :
    SweepHolds config db ↔
      ∀ key id, (db.edges.get key).isSome = true → isUnresolvedRow key = true →
        storedOwner config db.nodes key.src (rowName key) = some id → id ≠ key.src →
          ¬ Rewritable config db.nodes { key with dst := id } := by
  constructor
  · intro h key id hsome hrow howner hne hrewritable
    obtain ⟨weight, hget⟩ := Option.isSome_iff_exists.1 hsome
    have hmem : (⟨key, weight, id⟩ : Rewrite) ∈ rewrites config db := mem_rewrites.2 ⟨hget, hrow, howner, hne⟩
    have hnew : regroup (movedTo config db.nodes) db.edges { key with dst := id } ≠ none := by
      intro hnone
      exact total_eq_none.1 hnone (key, weight) (KeyedMap.get_eq_some.1 hget) (movedTo_rewrite hmem)
    rw [← h.once, ← Option.isSome_iff_ne_none] at hnew
    have hsecond : (reresolveAllEdges config db).1.nodes = db.nodes := h.rest.1
    rw [← hsecond] at hrewritable
    obtain ⟨rw, hrw, -⟩ := mem_rewrites_row.2 ⟨hnew, hrewritable⟩
    exact reresolveAllEdges_eq_self.1 h.again rw hrw
  · intro h
    have hsteady : ∀ rw ∈ rewrites config db, ¬ Rewritable config db.nodes { rw.row with dst := rw.newDst } := by
      intro rw hrw
      obtain ⟨hget, hrow, howner, hne⟩ := mem_rewrites.1 hrw
      exact h rw.row rw.newDst (by rw [hget]; rfl) hrow howner hne
    have honce := get_reresolveAllEdges_of_steady config db hsteady
    refine ⟨?_, ?_, ?_, ⟨reresolveAllEdges_nodes config db, reresolveAllEdges_callSites config db⟩, honce⟩
    · refine reresolveAllEdges_eq_self.2 fun rw hrw => ?_
      obtain ⟨first, hfirst, hrewritable⟩ := rewritable_of_second honce hrw
      exact hsteady first hfirst hrewritable
    · intro src kind
      rw [weightOf, regroup_regroup _ honce]
      simp only [movedTo_src, movedTo_kind]
      rfl
    · intro key hchanged
      by_contra hcon
      apply hchanged
      rw [honce]
      apply regroup_of_unmoved
      intro old hold
      by_cases hmoves : movedTo config db.nodes old = old
      · rw [hmoves]
      · have hrow := isUnresolvedRow_of_moved hmoves
        have himport : old.kind ≠ .import := (isUnresolvedRow_iff.1 hrow).2
        constructor
        · rintro rfl
          exact absurd ⟨movedTo_kind config db.nodes old ▸ himport, old, hold, hrow, .inr rfl⟩ hcon
        · rintro rfl
          exact absurd ⟨himport, old, hold, hrow, .inl rfl⟩ hcon

end Rows

/-! ## A file whose name starts like an unresolved target -/

/-- The function `bar` of the file `?:thing.ts`. -/
def markedBar : GraphNode := ⟨ascii "?:thing/bar", ascii "bar", ascii "bar", .function, ascii "?:thing.ts"⟩

/-- The function `bar` in the function `thing` of another file. -/
def nestedBar : GraphNode := ⟨ascii "b/thing/bar", ascii "bar", ascii "thing/bar", .function, ascii "b.ts"⟩

/-- One unresolved call of `bar`. -/
def markedDb : GraphDb :=
  (GraphDb.empty.upsertNodes [markedBar, nestedBar]).upsertEdge
    ⟨ascii "a/main", unresolvedEdgeId (ascii "bar"), .staticCall, 1⟩

/-- The second sweep takes the call on to the other function. -/
theorem second_sweep_rewrites : ¬ ∀ (config : RepoConfig) (db : GraphDb), SweepHolds config db := by
  intro h
  have hcount : (reresolveAllEdges {} (reresolveAllEdges {} markedDb).1).2 = 0 := congrArg Prod.snd (h {} markedDb).again
  exact absurd hcount (by decide +kernel)

end Hayven.Graph
