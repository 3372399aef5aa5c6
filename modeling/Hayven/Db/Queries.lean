import Hayven.Graph.EdgeResolver
import Hayven.Lib.Tally
/-!
# The graph tables

Of `db/queries.ts` the node, edge and call-site tables. Rows are keyed as the schema
keys them: a node by its id, an edge by its ends and kind.
-/
open Hayven.Lib Hayven.Graph

namespace Hayven.Db

structure EdgeKey where
  src : JsString
  dst : JsString
  kind : EdgeKind
deriving DecidableEq

def keyOf (e : GraphEdge) : EdgeKey := ⟨e.src, e.dst, e.kind⟩

/-- The tables; an edge row's value is its weight. -/
structure GraphDb where
  nodes : KeyedMap JsString GraphNode
  edges : KeyedMap EdgeKey Nat
  callSites : List CallSite

namespace GraphDb

def empty : GraphDb := ⟨.empty, .empty, []⟩

def upsertNodes (db : GraphDb) (nodes : List GraphNode) : GraphDb :=
  { db with nodes := nodes.foldl (fun m n => m.set n.id n) db.nodes }

/-- The weights of a key's rows add up. -/
def upsertEdge (db : GraphDb) (e : GraphEdge) : GraphDb := { db with edges := tally db.edges (keyOf e) e.weight }

/-- The new row replaces the old one. -/
def replaceEdges (db : GraphDb) (rows : List (EdgeKey × Nat)) : GraphDb :=
  { db with edges := rows.foldl (fun m row => m.set row.1 row.2) db.edges }

def deleteEdge (db : GraphDb) (key : EdgeKey) : GraphDb := { db with edges := db.edges.erase key }

def nodeIsIn (db : GraphDb) (file id : JsString) : Bool := (db.nodes.get id).any (·.file = file)

/-- The nodes of a file go, with the edges from them and the file's call sites; edges
to them stay. -/
def deleteNodesByFile (db : GraphDb) (file : JsString) : GraphDb where
  nodes := db.nodes.filter fun _ n => n.file ≠ file
  edges := db.edges.filter fun key _ => !db.nodeIsIn file key.src
  callSites := db.callSites.filter (·.file ≠ file)

def deleteCallSitesByFile (db : GraphDb) (files : List JsString) : GraphDb :=
  { db with callSites := db.callSites.filter (·.file ∉ files) }

def insertCallSites (db : GraphDb) (sites : List CallSite) : GraphDb := { db with callSites := db.callSites ++ sites }

end GraphDb

end Hayven.Db
