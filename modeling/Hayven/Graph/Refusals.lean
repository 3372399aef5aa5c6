import Hayven.Graph.Reresolve
import Hayven.Graph.ResolvedIds
/-!
# What the resolver refuses, re-resolved

The sweep sees the name of a row and the package of its source, and no longer why the
resolver left the row. It keeps to the resolver's word exactly where, for every raw
edge left behind a row, the resolver of the nodes now stored would name the same
owner: `keepsRefusals_iff`.
-/
open Hayven.Lib Hayven.Db

namespace Hayven.Graph

/-! ## Rows and the edges behind them -/

/-- What is left of a raw edge for the sweep is a name: its own, if an import out of
the repository binds it or nothing near and no package owner answers to it; or the rest
of an id that is itself written with the mark of an unresolved target. -/
def LeftWith (config : RepoConfig) (nodes : List GraphNode) (r : EdgeResolver) (e : RawEdge) (name : JsString) : Prop :=
  let packageOwner := truthy (owner config.pkgOf nodes (config.pkgOf e.srcFile) e.dstName)
  (name = e.dstName ∧ (r.externallyBound e = true ∨ (r.nearest e = none ∧ packageOwner = none))) ∨
    (r.externallyBound e = false ∧ (r.nearest e).or packageOwner = some (unresolvedEdgeId name))

section
variable {config : RepoConfig} {nodes : List GraphNode} {rawEdges : List RawEdge} {e : RawEdge}

/-- The row of an edge asks the sweep for a name exactly if that is what is left of the edge. -/
theorem leftWith_iff (h : e.kind ≠ .import) (name : JsString) :
    LeftWith config nodes (edgeResolver config nodes rawEdges) e name ↔
      ((edgeResolver config nodes rawEdges).dstId e).getD (unresolvedEdgeId e.dstName) = unresolvedEdgeId name := by
  have hmark : unresolvedEdgeId e.dstName = unresolvedEdgeId name ↔ name = e.dstName := by
    rw [unresolvedEdgeId, unresolvedEdgeId, List.append_cancel_left_eq]
    exact eq_comm
  rw [dstId_eq_lookedUp h, lookedUp, LeftWith]
  cases (edgeResolver config nodes rawEdges).externallyBound e with
  | true => simpa using hmark.symm
  | false =>
    cases (edgeResolver config nodes rawEdges).nearest e with
    | some id => simp
    | none =>
      cases truthy (owner config.pkgOf nodes (config.pkgOf e.srcFile) e.dstName) with
      | some id => simp
      | none => simpa using hmark.symm

theorem resolveOne_eq_some {r : EdgeResolver} {out : EdgeOutcome} (h : r.resolveOne e = some out) :
    r.srcId e = some out.edge.src ∧ out.edge.kind = e.kind ∧
      out.edge.dst = (r.dstId e).getD (unresolvedEdgeId e.dstName) ∧ out.resolved = (r.dstId e).isSome := by
  obtain ⟨src, hsrc, rfl⟩ := Option.map_eq_some_iff.1 h
  cases r.dstId e <;> exact ⟨hsrc, rfl, rfl, rfl⟩

/-- An edge has an outcome exactly if it has a source. -/
theorem exists_resolveOne {r : EdgeResolver} {src : JsString} (h : r.srcId e = some src) :
    ∃ out, r.resolveOne e = some out ∧ out.edge.src = src := by
  refine ⟨_, by rw [EdgeResolver.resolveOne, h]; rfl, ?_⟩
  cases r.dstId e <;> rfl

theorem resolvesTo_iff (r : EdgeResolver) (e : RawEdge) (id : JsString) :
    (∃ out, r.resolveOne e = some out ∧ out.resolved = true ∧ out.edge.dst = id) ↔
      (r.srcId e).isSome = true ∧ r.dstId e = some id := by
  constructor
  · rintro ⟨out, hout, hresolved, rfl⟩
    obtain ⟨hsrc, -, hdst, hsome⟩ := resolveOne_eq_some hout
    rw [hresolved] at hsome
    obtain ⟨id, hid⟩ := Option.isSome_iff_exists.1 hsome.symm
    rw [hid] at hdst
    exact ⟨by simp [hsrc], by rw [hid, hdst]; rfl⟩
  · rintro ⟨hsrc, hdst⟩
    obtain ⟨src, hsrc⟩ := Option.isSome_iff_exists.1 hsrc
    obtain ⟨out, hout, -⟩ := exists_resolveOne hsrc
    obtain ⟨-, -, hid, hresolved⟩ := resolveOne_eq_some hout
    rw [hdst] at hid hresolved
    exact ⟨out, hout, hresolved, hid⟩

/-- The rows that the sweep looks at, by the raw edges behind them. -/
theorem unresolved_row_iff {out : EdgeOutcome} (hout : (edgeResolver config nodes rawEdges).resolveOne e = some out)
    (name : JsString) :
    (isUnresolvedRow (keyOf out.edge) = true ∧ rowName (keyOf out.edge) = name) ↔
      e.kind ≠ .import ∧ LeftWith config nodes (edgeResolver config nodes rawEdges) e name := by
  obtain ⟨-, hkind, hdst, -⟩ := resolveOne_eq_some hout
  have hkey : (keyOf out.edge).kind = e.kind := hkind
  rw [isUnresolvedRow_iff, hkey]
  constructor
  · rintro ⟨⟨hmark, himport⟩, rfl⟩
    exact ⟨himport, (leftWith_iff himport _).2 (hdst.symm.trans hmark)⟩
  · rintro ⟨himport, hleft⟩
    have hmark : out.edge.dst = unresolvedEdgeId name := hdst.trans ((leftWith_iff himport name).1 hleft)
    have hname : rowName (keyOf out.edge) = name := by
      rw [keyOf, hmark, rowName_unresolved]
    exact ⟨⟨by rw [hname]; exact hmark, himport⟩, hname⟩

end

/-- Every rewrite of the rows of a full run, over the nodes stored at the time, has a
raw edge behind it. -/
theorem mem_rewrites_fullIngest {config : RepoConfig} {nodes : List GraphNode} {rawEdges : List RawEdge}
    {db : GraphDb} (hdb : db.edges = (fullIngest config nodes rawEdges).edges) {row : EdgeKey} {id : JsString} :
    (∃ weight, ⟨row, weight, id⟩ ∈ rewrites config db) ↔
      isUnresolvedRow row = true ∧ storedOwner config db.nodes row.src (rowName row) = some id ∧ id ≠ row.src ∧
        ∃ e ∈ rawEdges, ∃ out, (edgeResolver config nodes rawEdges).resolveOne e = some out ∧ keyOf out.edge = row := by
  simp only [mem_rewrites, hdb]
  constructor
  · rintro ⟨weight, hrow, hunresolved, howner, hne⟩
    exact ⟨hunresolved, howner, hne, fullIngest_row_iff.1 ⟨weight, hrow⟩⟩
  · rintro ⟨hunresolved, howner, hne, hedge⟩
    obtain ⟨weight, hrow⟩ := fullIngest_row_iff.2 hedge
    exact ⟨weight, hrow, hunresolved, howner, hne⟩

/-! ## The sweep and the resolver -/

/-- On the index of a full run the sweep changes nothing; over the nodes added since, it
gives a row only the id to which the resolver of the added nodes takes every raw edge
behind the row. -/
def KeepsRefusals (config : RepoConfig) (nodes : List GraphNode) (rawEdges : List RawEdge) (later : List GraphNode) : Prop :=
  reresolveAllEdges config (fullIngest config nodes rawEdges) = (fullIngest config nodes rawEdges, 0) ∧
    ∀ rw ∈ rewrites config ((fullIngest config nodes rawEdges).upsertNodes later), ∀ e ∈ rawEdges,
      ∀ out, (edgeResolver config nodes rawEdges).resolveOne e = some out → keyOf out.edge = rw.row →
        ∃ out', (edgeResolver config later rawEdges).resolveOne e = some out' ∧ out'.resolved = true ∧
          out'.edge.dst = rw.newDst

/-- No name left by an edge has a stored owner but the edge's source; and where the nodes
added since give it one, that is what the resolver would find: no import leads out
of the repository, and what the import, the file or else the package says is that owner. -/
def OwnersAgree (config : RepoConfig) (nodes : List GraphNode) (rawEdges : List RawEdge) (later : List GraphNode) : Prop :=
  let r := edgeResolver config nodes rawEdges
  let r' := edgeResolver config later rawEdges
  ∀ e ∈ rawEdges, e.kind ≠ .import → ∀ src name, r.srcId e = some src → LeftWith config nodes r e name →
    (∀ id, storedOwner config (nodeTable nodes) src name = some id → id = src) ∧
      ∀ id, storedOwner config (nodeTable (nodes ++ later)) src name = some id → id ≠ src →
        (r'.srcId e).isSome = true ∧ r'.externallyBound e = false ∧
          (r'.nearest e).or (truthy (owner config.pkgOf later (config.pkgOf e.srcFile) e.dstName)) = some id

theorem upsertNodes_fullIngest (config : RepoConfig) (nodes : List GraphNode) (rawEdges : List RawEdge)
    (later : List GraphNode) :
    ((fullIngest config nodes rawEdges).upsertNodes later).nodes = nodeTable (nodes ++ later) := by
  rw [GraphDb.upsertNodes, fullIngest_nodes, nodeTable, nodeTable, List.foldl_append]

theorem keepsRefusals_iff (config : RepoConfig) (nodes : List GraphNode) (rawEdges : List RawEdge)
    (later : List GraphNode) :
    KeepsRefusals config nodes rawEdges later ↔ OwnersAgree config nodes rawEdges later := by
  constructor
  · rintro ⟨hstill, hlater⟩ e he himport src name hsrc hleft
    obtain ⟨out, hout, hedge⟩ := exists_resolveOne hsrc
    obtain ⟨hrow, hname⟩ := (unresolved_row_iff hout name).2 ⟨himport, hleft⟩
    have hrowsrc : (keyOf out.edge).src = src := hedge
    constructor
    · intro id howner
      by_contra hne
      -- A stored owner other than the source would be a rewrite.
      obtain ⟨weight, hrw⟩ : ∃ weight, ⟨keyOf out.edge, weight, id⟩ ∈ rewrites config (fullIngest config nodes rawEdges) :=
        (mem_rewrites_fullIngest rfl).2
          ⟨hrow, by rw [fullIngest_nodes, hrowsrc, hname, howner], by rwa [hrowsrc], e, he, out, hout, rfl⟩
      exact reresolveAllEdges_eq_self.1 hstill _ hrw
    · intro id howner hne
      have hedges : ((fullIngest config nodes rawEdges).upsertNodes later).edges =
          (fullIngest config nodes rawEdges).edges := rfl
      obtain ⟨weight, hrw⟩ : ∃ weight, ⟨keyOf out.edge, weight, id⟩ ∈
          rewrites config ((fullIngest config nodes rawEdges).upsertNodes later) :=
        (mem_rewrites_fullIngest hedges).2
          ⟨hrow, by rw [upsertNodes_fullIngest, hrowsrc, hname, howner], by rwa [hrowsrc], e, he, out, hout, rfl⟩
      obtain ⟨hsome, hdst⟩ := (resolvesTo_iff _ e id).1 (hlater _ hrw e he out hout rfl)
      rw [dstId_eq_lookedUp himport, lookedUp] at hdst
      refine ⟨hsome, ?_⟩
      cases hext : (edgeResolver config later rawEdges).externallyBound e with
      | true => simp [hext] at hdst
      | false => exact ⟨rfl, by simpa [hext] using hdst⟩
  · intro hagree
    constructor
    · rw [reresolveAllEdges_eq_self]
      rintro ⟨row, weight, id⟩ hrw
      obtain ⟨hrow, howner, hne, e, he, out, hout, rfl⟩ := (mem_rewrites_fullIngest rfl).1 ⟨weight, hrw⟩
      obtain ⟨himport, hleft⟩ := (unresolved_row_iff hout _).1 ⟨hrow, rfl⟩
      obtain ⟨hsrc, -⟩ := resolveOne_eq_some hout
      rw [fullIngest_nodes] at howner
      exact hne ((hagree e he himport _ _ hsrc hleft).1 id howner)
    · rintro ⟨row, weight, id⟩ hrw e he out hout rfl
      obtain ⟨hrow, howner, hne, -⟩ := (mem_rewrites_fullIngest
        (show ((fullIngest config nodes rawEdges).upsertNodes later).edges = _ from rfl)).1 ⟨weight, hrw⟩
      obtain ⟨himport, hleft⟩ := (unresolved_row_iff hout _).1 ⟨hrow, rfl⟩
      obtain ⟨hsrc, -⟩ := resolveOne_eq_some hout
      rw [upsertNodes_fullIngest] at howner
      obtain ⟨hsome, hext, hnear⟩ := (hagree e he himport _ _ hsrc hleft).2 id howner hne
      refine (resolvesTo_iff _ e id).2 ⟨hsome, ?_⟩
      rw [dstId_eq_lookedUp himport, lookedUp, hext]
      exact hnear

/-! ## A refusal that does not last -/

section
private def mainFile : JsString := ascii "main.ts"

private def libFile : JsString := ascii "lib.ts"

/-- `run` in one file, and a `helper` of its own in another one. -/
def toolkitNodes : List GraphNode := [
  ⟨ascii "main", ascii "main", ascii "main", .module, mainFile⟩,
  ⟨ascii "main/run", ascii "run", ascii "run", .function, mainFile⟩,
  ⟨ascii "lib", ascii "lib", ascii "lib", .module, libFile⟩,
  ⟨ascii "lib/helper", ascii "helper", ascii "helper", .function, libFile⟩]

/-- `import { helper } from "toolkit"`, and a call of it in `run`. -/
def toolkitEdges : List RawEdge := [
  { srcFile := mainFile, srcName := ascii "main", dstName := ascii "toolkit", kind := .import,
    localBindings := [ascii "helper"] },
  { srcFile := mainFile, srcName := ascii "run", dstName := ascii "helper", kind := .staticCall }]

/-- The call of a package's `helper` is refused, and the sweep takes it to the other file's. -/
theorem refusal_overturned : ¬ KeepsRefusals {} toolkitNodes toolkitEdges toolkitNodes := by
  rintro ⟨hstill, -⟩
  have hone : (reresolveAllEdges {} (fullIngest {} toolkitNodes toolkitEdges)).2 = 1 := by decide +kernel
  rw [hstill] at hone
  contradiction

end

end Hayven.Graph
