import Hayven.Db.Queries
/-!
# Ingesting a run's records

The passes of `drainIntoIndex` (`graph/ingest.ts`) over the nodes and raw edges of a
run, the batches in which they reach the tables left out.
-/
open Hayven.Lib Hayven.Db

namespace Hayven.Graph

/-- One row for each key, its occurrences' weights summed. -/
def aggregate (edges : List GraphEdge) : KeyedMap EdgeKey Nat :=
  edges.foldl (fun m e => tally m (keyOf e) e.weight) .empty

def clearCallSites (db : GraphDb) : GraphDb := { db with callSites := [] }

/-- The tables after a run that parsed these nodes and raw edges. -/
def drainIntoIndex (config : RepoConfig) (fullRebuild : Bool) (db : GraphDb) (nodes : List GraphNode)
    (rawEdges : List RawEdge) : GraphDb :=
  let db := db.upsertNodes nodes
  let outs := outcomes config nodes rawEdges
  let db := if fullRebuild then clearCallSites db else db.deleteCallSitesByFile (nodes.map (·.file))
  let db := db.insertCallSites (outs.filterMap (·.site))
  db.replaceEdges (aggregate (outs.map (·.edge))).entries

/-- A whole-repository run, which clears the graph first. -/
def fullIngest (config : RepoConfig) (nodes : List GraphNode) (rawEdges : List RawEdge) : GraphDb :=
  drainIntoIndex config true .empty nodes rawEdges

/-! ## What a run leaves in the tables -/

/-- The node table of some nodes, the last one of an id standing. -/
def nodeTable (nodes : List GraphNode) : KeyedMap JsString GraphNode :=
  nodes.foldl (fun m n => m.set n.id n) .empty

theorem get_aggregate (edges : List GraphEdge) (key : EdgeKey) :
    (aggregate edges).get key = total keyOf (·.weight) edges key :=
  get_tally_empty keyOf (·.weight) edges key

theorem drainIntoIndex_nodes (config : RepoConfig) (fullRebuild : Bool) (db : GraphDb) (nodes : List GraphNode)
    (rawEdges : List RawEdge) :
    (drainIntoIndex config fullRebuild db nodes rawEdges).nodes = (db.upsertNodes nodes).nodes := by
  unfold drainIntoIndex
  cases fullRebuild <;> rfl

theorem get_drainIntoIndex_edges (config : RepoConfig) (fullRebuild : Bool) (db : GraphDb) (nodes : List GraphNode)
    (rawEdges : List RawEdge) (key : EdgeKey) :
    (drainIntoIndex config fullRebuild db nodes rawEdges).edges.get key =
      (total keyOf (·.weight) ((outcomes config nodes rawEdges).map (·.edge)) key).or (db.edges.get key) := by
  rw [← get_aggregate, ← KeyedMap.get_foldl_set]
  unfold drainIntoIndex
  cases fullRebuild <;> rfl

theorem fullIngest_nodes (config : RepoConfig) (nodes : List GraphNode) (rawEdges : List RawEdge) :
    (fullIngest config nodes rawEdges).nodes = nodeTable nodes :=
  drainIntoIndex_nodes config true .empty nodes rawEdges

theorem get_fullIngest_edges (config : RepoConfig) (nodes : List GraphNode) (rawEdges : List RawEdge) (key : EdgeKey) :
    (fullIngest config nodes rawEdges).edges.get key =
      total keyOf (·.weight) ((outcomes config nodes rawEdges).map (·.edge)) key := by
  rw [fullIngest, get_drainIntoIndex_edges]
  exact Option.or_none

/-- The rows of a whole-repository run are those of its raw edges' outcomes. -/
theorem fullIngest_row_iff {config : RepoConfig} {nodes : List GraphNode} {rawEdges : List RawEdge} {key : EdgeKey} :
    (∃ weight, (fullIngest config nodes rawEdges).edges.get key = some weight) ↔
      ∃ e ∈ rawEdges, ∃ out, (edgeResolver config nodes rawEdges).resolveOne e = some out ∧ keyOf out.edge = key := by
  rw [← Option.ne_none_iff_exists', get_fullIngest_edges, ne_eq, total_eq_none]
  push Not
  simp only [outcomes, List.mem_map, List.mem_filterMap]
  constructor
  · rintro ⟨-, ⟨out, ⟨e, he, hout⟩, rfl⟩, hkey⟩
    exact ⟨e, he, out, hout, hkey⟩
  · rintro ⟨e, he, out, hout, hkey⟩
    exact ⟨out.edge, ⟨out, ⟨e, he, hout⟩, rfl⟩, hkey⟩

end Hayven.Graph
