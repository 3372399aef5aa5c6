import Hayven.Db.Queries
import Hayven.Lib.Spool
/-!
# Draining the native stream

`drainIntoIndex` of `graph/ingest.ts` over the records that the parser streams: the
buffers before the tables, the spill that holds the raw edges until the last node is
in, and the stamps of the rows. Counters that only the result reports are left out.
-/
open Hayven.Lib Hayven.Db

namespace Hayven.Graph

/-! ## Records and rows -/

/-- A node record with the columns that are stored and never read here. -/
structure NodeLine extends NodeRecord where
  language : JsString
  range : Nat × Nat
  astHash : JsString

/-- An edge record; its optional lists are empty where they are left out. -/
structure EdgeLine where
  srcFile : JsString
  srcName : JsString
  dstName : JsString
  kind : EdgeKind
  receiver : Option JsString := none
  receiverChain : List JsString := []
  localBindings : List JsString := []
  importAliases : List ImportAliasPair := []
  line : Option Nat := none
  col : Option Nat := none

/-- One record is one occurrence. -/
def EdgeLine.raw (e : EdgeLine) : RawEdge where
  srcFile := e.srcFile
  srcName := e.srcName
  dstName := e.dstName
  kind := e.kind
  receiver := e.receiver
  receiverChain := e.receiverChain
  localBindings := e.localBindings
  importAliases := e.importAliases
  line := e.line
  col := e.col

/-- Of the records that are no start, node or edge only counters and log lines are kept. -/
inductive NativeRecord where
  | start (filesTotal : Nat)
  | node (line : NodeLine)
  | edge (e : EdgeLine)
  | progress | warn | done

/-- A row of `nodes`. -/
structure NodeRow where
  node : GraphNode
  language : JsString
  range : Nat × Nat
  astHash : JsString
  summary : Option JsString
  lastSeen : Nat
  logicalClock : Nat
  lastModifiedBy : Option JsString
deriving DecidableEq

/-- What a row of `edges` holds under its key. -/
structure EdgeCell where
  weight : Nat
  lastSeen : Nat
deriving DecidableEq

structure StampedEdge extends GraphEdge where
  lastSeen : Nat

structure IndexRows where
  nodes : KeyedMap JsString NodeRow
  edges : KeyedMap EdgeKey EdgeCell
  callSites : List CallSite

namespace IndexRows

def empty : IndexRows := ⟨.empty, .empty, []⟩

def clearGraph (db : IndexRows) : IndexRows := { db with nodes := .empty, edges := .empty }

/-- A summary stays where the new row has none, and the greater clock stays. -/
def upsertRow (old : Option NodeRow) (row : NodeRow) : NodeRow :=
  match old with
  | none => row
  | some old =>
    { row with summary := row.summary.or old.summary, logicalClock := max old.logicalClock row.logicalClock }

def upsertNodes (db : IndexRows) (rows : List NodeRow) : IndexRows :=
  { db with
    nodes := rows.foldl (fun m row => m.set row.node.id (upsertRow (m.get row.node.id) row)) db.nodes }

def replaceEdges (db : IndexRows) (edges : List StampedEdge) : IndexRows :=
  { db with edges := edges.foldl (fun m e => m.set (keyOf e.toGraphEdge) ⟨e.weight, e.lastSeen⟩) db.edges }

def clearCallSites (db : IndexRows) : IndexRows := { db with callSites := [] }

def deleteCallSitesByFile (db : IndexRows) (files : List JsString) : IndexRows :=
  { db with callSites := db.callSites.filter (·.file ∉ files) }

def insertCallSites (db : IndexRows) (sites : List CallSite) : IndexRows :=
  { db with callSites := db.callSites ++ sites }

end IndexRows

/-! ## Taking the stream in -/

/-- The caps and batch sizes of a run, what its caller asked for, and the clock it reads:
`seenAt i` at the `i`-th node, `now` when the edges are resolved. -/
structure DrainOptions where
  config : RepoConfig
  maxFiles : Nat
  maxNodes : Nat
  maxEdges : Nat
  nodeBatch : Nat
  edgeBatch : Nat
  fullRebuild : Bool
  clearBeforeIngest : Bool
  seenAt : Nat → Nat
  now : Nat

structure Drain where
  index : NodeIndex
  moduleByFile : KeyedMap JsString JsString
  parsedFiles : List JsString
  nodeCount : Nat
  edgeCount : Nat
  nodes : Buffered IndexRows NodeRow
  edges : Buffered (Spool RawEdge) RawEdge
  aborted : Bool

namespace Drain

def begin (opts : DrainOptions) (db : IndexRows) : Drain :=
  ⟨.empty opts.config, .empty, [], 0, 0, ⟨db, []⟩, ⟨.empty, []⟩, false⟩

/-- A file's module record names the module of the records after it. -/
def seeModule (moduleByFile : KeyedMap JsString JsString) (r : NodeRecord) : KeyedMap JsString JsString :=
  if r.kind = .module then moduleByFile.set r.file (recordName r) else moduleByFile

def rowOf (id : JsString) (line : NodeLine) (lastSeen : Nat) : NodeRow where
  node := ⟨id, line.name, recordName line.toNodeRecord, line.kind, line.file⟩
  language := line.language
  range := line.range
  astHash := line.astHash
  summary := none
  lastSeen := lastSeen
  logicalClock := 0
  lastModifiedBy := none

def appendEdges (spill : Spool RawEdge) (edges : List RawEdge) : Spool RawEdge := edges.foldl Spool.append spill

def handleNode (opts : DrainOptions) (s : Drain) (line : NodeLine) : Drain :=
  let moduleByFile := seeModule s.moduleByFile line.toNodeRecord
  let row := rowOf (recordId moduleByFile.get line.toNodeRecord) line (opts.seenAt s.nodeCount)
  { s with
    index := s.index.addNode row.node
    moduleByFile := moduleByFile
    parsedFiles := s.parsedFiles ++ [line.file]
    nodeCount := s.nodeCount + 1
    nodes := s.nodes.push IndexRows.upsertNodes opts.nodeBatch row
    aborted := s.aborted || opts.maxNodes < s.nodeCount + 1 }

def handleEdge (opts : DrainOptions) (s : Drain) (e : EdgeLine) : Drain :=
  { s with
    edgeCount := s.edgeCount + 1
    edges := s.edges.push appendEdges opts.edgeBatch e.raw
    aborted := s.aborted || opts.maxEdges < s.edgeCount + 1 }

/-- The graph is cleared only when the start record shows that the run is within bounds. -/
def handleStart (opts : DrainOptions) (s : Drain) (filesTotal : Nat) : Drain :=
  if opts.maxFiles < filesTotal then { s with aborted := true }
  else if opts.clearBeforeIngest then { s with nodes := { s.nodes with sink := s.nodes.sink.clearGraph } }
  else s

def handleRecord (opts : DrainOptions) (s : Drain) : NativeRecord → Drain
  | .start filesTotal => s.handleStart opts filesTotal
  | .node line => s.handleNode opts line
  | .edge e => s.handleEdge opts e
  | .progress | .warn | .done => s

/-- The loop over the records breaks off at an abort. -/
def step (opts : DrainOptions) (s : Drain) (rec : NativeRecord) : Drain :=
  if s.aborted then s else s.handleRecord opts rec

end Drain

/-! ## Resolving what was spilled -/

def edgeKindText : EdgeKind → JsString
  | .staticCall => ascii "static_call"
  | .traceCall => ascii "trace_call"
  | .import => ascii "import"
  | .inherits => ascii "inherits"
  | .implements => ascii "implements"
  | .references => ascii "references"
  | .other => ascii "other"

/-- The text under which an edge is aggregated. -/
def aggregateKey (e : GraphEdge) : JsString := e.src ++ 0 :: (e.dst ++ 0 :: edgeKindText e.kind)

structure Resolving where
  aggregated : KeyedMap JsString StampedEdge
  sites : Buffered IndexRows CallSite

namespace Resolving

def take (opts : DrainOptions) (s : Resolving) (out : EdgeOutcome) : Resolving where
  aggregated :=
    let key := aggregateKey out.edge
    match s.aggregated.get key with
    | none => s.aggregated.set key { out.edge with lastSeen := opts.now }
    | some prior => s.aggregated.set key { prior with weight := prior.weight + out.edge.weight }
  sites :=
    match out.site with
    | none => s.sites
    | some site => s.sites.push IndexRows.insertCallSites opts.edgeBatch site

def resolveEdge (opts : DrainOptions) (resolver : EdgeResolver) (s : Resolving) (e : RawEdge) : Resolving :=
  match resolver.resolveOne e with
  | none => s
  | some out => s.take opts out

end Resolving

/-- What a run leaves in the tables, and whether it threw. -/
structure DrainResult where
  threw : Bool
  db : IndexRows

structure NativeStream where
  records : List NativeRecord
  exitCode : Int

namespace NativeStream

/-- The passes after the last record. -/
def secondPass (opts : DrainOptions) (s : Drain) : IndexRows :=
  let spill := s.edges.drained Drain.appendEdges
  let imports := spill.pages opts.edgeBatch fun e => decide (e.kind = .import)
  let resolver := imports.foldl (fun r page => page.foldl EdgeResolver.addImportEdge r) s.index.sealNodes
  let db := s.nodes.drained IndexRows.upsertNodes
  let db :=
    if opts.fullRebuild then db.clearCallSites
    else if 0 < s.parsedFiles.length then db.deleteCallSitesByFile s.parsedFiles else db
  let pages := spill.pages opts.edgeBatch fun _ => true
  let resolved := pages.foldl (fun r page => page.foldl (Resolving.resolveEdge opts resolver) r) ⟨.empty, ⟨db, []⟩⟩
  let db := resolved.sites.drained IndexRows.insertCallSites
  (resolved.aggregated.values.foldl (Buffered.push IndexRows.replaceEdges opts.edgeBatch) ⟨db, []⟩).drained
    IndexRows.replaceEdges

def drainIntoIndex (opts : DrainOptions) (stream : NativeStream) (db : IndexRows) : DrainResult :=
  let s := stream.records.foldl (Drain.step opts) (.begin opts db)
  if s.aborted then ⟨true, s.nodes.sink⟩
  else if stream.exitCode ≠ 0 then ⟨true, s.nodes.drained IndexRows.upsertNodes⟩
  else ⟨false, secondPass opts s⟩

end NativeStream

end Hayven.Graph
