import Hayven.Db.GraphWalk
import Hayven.Db.Prioritize
import Hayven.Db.TestNodes
import Hayven.Graph.TraceResolve
import Hayven.Lib.LayerWalk
import Hayven.Lib.Tally
/-!
# Affected tests

`db/affected_tests.ts` and the coverage index of `db/test_coverage.ts`: the tests that
reach a changed symbol back over calls, imports and observed calls, with the evidence for
each. Full-text search and the locale's collation are parameters, and a weight is a count.
-/
open Hayven.Lib Hayven.Graph

namespace Hayven.Db

/-! ## The tables -/

structure NodeColumns where
  name : JsString
  qualifiedName : JsString
  kind : JsString
  language : Option JsString
  file : Option JsString

structure WeightedEdge extends EdgeRow where
  weight : Nat
deriving DecidableEq

/-- A row of `resolvedTraceEdges()`. -/
structure ResolvedTraceEdge where
  resolvedSrc : Option JsString
  resolvedDst : Option JsString
  weight : Nat

structure CoverageRow where
  test : JsString
  entity : JsString
  weight : Nat

structure TestRows where
  nodes : KeyedMap JsString NodeColumns
  edges : List WeightedEdge
  resolvedTraceEdges : List ResolvedTraceEdge
  coverage : List CoverageRow
  searchFts : JsString → Option JsString

namespace TestRows

def incoming (db : TestRows) (id : JsString) : List WeightedEdge := db.edges.filter (·.dst = id)

/-- `SELECT id FROM nodes WHERE file = ?`. -/
def idsIn (db : TestRows) (file : JsString) : List JsString :=
  (db.nodes.entries.filter fun row => row.2.file = some file).map Prod.fst

def resolveSymbol (db : TestRows) (symbol : JsString) : Option JsString :=
  if db.nodes.has symbol then some symbol else db.searchFts symbol

end TestRows

/-! ## Results -/

inductive TestConfidence where
  | observed | reachable
deriving DecidableEq

structure AffectedTest where
  id : JsString
  file : Option JsString
  evidence : TestEvidence
  confidence : TestConfidence
  depth : Nat
  weight : Nat
  runnable : Option JsString
  runner : TestRunner
  staticReachable : Bool
  dispatchOnly : Bool
deriving DecidableEq

structure AffectedTestsOpts where
  maxDepth : Option JsNumber := none
  traceOnly : Bool := false
  fallbackReachableWhenEmpty : Bool := false
  limit : Option JsNumber := none
  patterns : Option (List JsString) := none
  classRollup : Bool := false

structure AffectedTestsResult where
  roots : List JsString
  tests : List AffectedTest
  traceEdgeCount : Nat
  precise : Bool
  note : Option JsString
  dispatchOnlyCount : Nat
  hub : Bool
  blastRadiusFraction : JsNumber

def COLD_TRACE_NOTE : JsString :=
  ascii "no traces yet — static only, may UNDER-report (run the suite once with HAYVEN_TRACE=1)"

def PRECISE_NOTE : JsString := ascii "precise (per-test coverage)"

def REACHABLE_FALLBACK_NOTE : JsString :=
  ascii "precise (per-test coverage); no observed coverage for the change — fell back to the reachable safety set (a minimal selector must never return zero tests for a change)"

def symbolNotFoundNote : JsString := ascii "symbol not found"

def HUB_BLAST_RADIUS_THRESHOLD : JsNumber := roundRat (3 / 10)

def depthCap (maxDepth : Option JsNumber) : Option Nat := impactCap (maxDepth.getD maxImpactDepth)

/-! ## Candidates -/

section Candidates
variable (db : TestRows) (patterns : Option (List JsString))

/-- The handle of a node that is a test, `none` for one that is missing or no test. -/
def handleOf (id : JsString) : Option TestHandle :=
  (db.nodes.get id).bind fun node =>
    classifyTest ⟨id, node.name, node.file, node.language, some node.kind⟩ (patterns.getD DEFAULT_TEST_PATH_PATTERNS)

def totalTestNodeCount : Nat :=
  db.nodes.entries.countP fun row =>
    (classifyTest ⟨row.1, row.2.name, row.2.file, row.2.language, none⟩ (patterns.getD DEFAULT_TEST_PATH_PATTERNS)).isSome

def blastRadiusFraction (affectedCount : Nat) : JsNumber :=
  if 0 < totalTestNodeCount db patterns then roundRat (affectedCount / totalTestNodeCount db patterns) else .fin 0

def isHubFraction (fraction : JsNumber) : Bool := !fraction.lt HUB_BLAST_RADIUS_THRESHOLD

end Candidates

/-! ## The reverse walk -/

@[ext]
structure NodeReach where
  depth : Nat
  viaTrace : Bool
  traceWeight : Nat
  staticWeight : Nat
  observed : Bool
deriving DecidableEq

abbrev Reach := KeyedMap JsString NodeReach

/-- An edge into a node: where it comes from, whether it is a traced call, and its weight. -/
structure Incoming where
  src : JsString
  isTrace : Bool
  weight : Nat
deriving DecidableEq

abbrev TraceIn := KeyedMap JsString (List (JsString × Nat))

/-- A trace edge with both ends resolved. -/
def ResolvedTraceEdge.ends (e : ResolvedTraceEdge) : Option (JsString × JsString × Nat) :=
  e.resolvedSrc.bind fun src => e.resolvedDst.map fun dst => (src, dst, e.weight)

/-- The trace edges under their targets, and how many there are. -/
def buildTraceIn (db : TestRows) : TraceIn × Nat :=
  let ends := db.resolvedTraceEdges.filterMap (·.ends)
  (ends.foldl (fun traceIn e => traceIn.set e.2.1 ((traceIn.get e.2.1).getD [] ++ [(e.1, e.2.2)])) .empty, ends.length)

/-- The edges that `reverseWalk` relaxes into a node: calls and imports, then traced calls. -/
def relaxations (db : TestRows) (traceIn : TraceIn) (cur : JsString) : List Incoming :=
  ((db.incoming cur).filter (·.isDependency)).map (fun e => ⟨e.src, false, e.weight⟩) ++
    ((traceIn.get cur).getD []).map fun t => ⟨t.1, true, t.2⟩

/-- The accumulator of a node, one more edge into it relaxed at depth `d`. -/
def NodeReach.relaxed (prev : Option NodeReach) (d : Nat) (isTrace : Bool) (weight : Nat) : NodeReach :=
  match prev with
  | none => ⟨d, isTrace, if isTrace then weight else 0, if isTrace then 0 else weight, false⟩
  | some prev =>
    { prev with
      depth := if d < prev.depth then d else prev.depth
      viaTrace := prev.viaTrace || isTrace
      traceWeight := if isTrace ∧ weight > prev.traceWeight then weight else prev.traceWeight
      staticWeight := if ¬ isTrace ∧ weight > prev.staticWeight then weight else prev.staticWeight }

structure ReverseWalk where
  localDepth : KeyedMap JsString Nat
  frontier : List JsString
  reach : Reach

/-- One edge into the frontier at depth `d`. -/
def ReverseWalk.relax (root : JsString) (d : Nat) (w : ReverseWalk) (e : Incoming) : ReverseWalk :=
  if e.src = root then w
  else
    let reach := w.reach.set e.src (NodeReach.relaxed (w.reach.get e.src) d e.isTrace e.weight)
    if w.localDepth.has e.src then { w with reach := reach }
    else ⟨w.localDepth.set e.src d, w.frontier ++ [e.src], reach⟩

def ReverseWalk.level (db : TestRows) (traceIn : TraceIn) (root : JsString) (d : Nat) (w : ReverseWalk) : ReverseWalk :=
  (w.frontier.flatMap (relaxations db traceIn)).foldl (relax root d) { w with frontier := [] }

def ReverseWalk.rounds (db : TestRows) (traceIn : TraceIn) (root : JsString) : Nat → Nat → ReverseWalk → ReverseWalk
  | 0, _, w => w
  | n + 1, d, w =>
    let next := w.level db traceIn root d
    if next.frontier.isEmpty then next else ReverseWalk.rounds db traceIn root n (d + 1) next

/-- A cap that is not a number admits no layer. -/
def reverseWalk (db : TestRows) (root : JsString) (traceIn : TraceIn) (cap : Option Nat) (reach : Reach) : Reach :=
  (ReverseWalk.rounds db traceIn root (cap.getD 0) 1 ⟨KeyedMap.empty.set root 0, [root], reach⟩).reach

def staticReachableSet (db : TestRows) (roots : List JsString) (cap : Option Nat) : List JsString :=
  (roots.foldl (fun reach root => reverseWalk db root .empty cap reach) .empty).keys

/-! ## Ranking -/

section Ranking
variable (localeCompare : JsString → JsString → Ordering)

def affectedTest (staticReach : List JsString) (id : JsString) (r : NodeReach) (handle : TestHandle) : AffectedTest where
  id := handle.id
  file := handle.file
  evidence := if r.viaTrace then .trace else .static
  confidence := if r.observed then .observed else .reachable
  depth := r.depth
  weight := if r.viaTrace then r.traceWeight else r.staticWeight
  runnable := handle.runnable
  runner := handle.runner
  staticReachable := decide (id ∈ staticReach)
  dispatchOnly := r.viaTrace && !decide (id ∈ staticReach)

def confidenceRank : TestConfidence → Nat
  | .observed => 0
  | .reachable => 1

def dispatchRank (t : AffectedTest) : Nat := if t.dispatchOnly then 0 else 1

/-- Dispatch-only tests, then observed ones, traced ones, the nearest, the heaviest, and by id. -/
def testOrder (a b : AffectedTest) : Ordering :=
  (compare (dispatchRank a) (dispatchRank b)).then <|
    (compare (confidenceRank a.confidence) (confidenceRank b.confidence)).then <|
      (compare (evidenceRank a.evidence) (evidenceRank b.evidence)).then <|
        (compare a.depth b.depth).then <| (compare b.weight a.weight).then (localeCompare a.id b.id)

/-- `tests.slice(0, limit)`, where the limit is a number that is not negative. -/
def limited (limit : Option JsNumber) (tests : List AffectedTest) : List AffectedTest :=
  match limit with
  | some (.fin q) => if 0 ≤ q ∧ q < tests.length then tests.take q.floor.toNat else tests
  | _ => tests

def rankReached (db : TestRows) (reach : Reach) (patterns : Option (List JsString)) (traceOnly : Bool)
    (limit : Option JsNumber) (preciseMode : Bool) (staticReach : List JsString) : List AffectedTest :=
  let tests := reach.entries.filterMap fun row => (handleOf db patterns row.1).map (affectedTest staticReach row.1 row.2)
  let sorted := sortWith (testOrder localeCompare) tests
  let filtered :=
    if traceOnly then
      sorted.filter fun t => if preciseMode then t.confidence = .observed else t.evidence = .trace
    else sorted
  limited limit filtered

def noteFor (traceEdgeCount : Nat) : Option JsString := if traceEdgeCount = 0 then some COLD_TRACE_NOTE else none

/-- The tests, and whether they are the reachable ones in place of no observed ones. -/
def applyReachableFallback (db : TestRows) (reach : Reach) (opts : AffectedTestsOpts) (limit : Option JsNumber)
    (observedTests : List AffectedTest) (staticReach : List JsString) : List AffectedTest × Bool :=
  if !opts.traceOnly || !opts.fallbackReachableWhenEmpty || 0 < observedTests.length then (observedTests, false)
  else
    let reachable := rankReached localeCompare db reach opts.patterns false limit true staticReach
    if 0 < reachable.length then (reachable, true) else (observedTests, false)

/-! ## Coverage -/

structure CoverageEntry where
  testId : JsString
  weight : Nat
deriving DecidableEq

abbrev ByEntity := KeyedMap JsString (List CoverageEntry)

/-- By weight, the heaviest first, then by id. -/
def coverageOrder (a b : CoverageEntry) : Ordering :=
  (compare b.weight a.weight).then (localeCompare a.testId b.testId)

def traceResolver (db : TestRows) : TraceNameResolver :=
  .ofNodes (db.nodes.entries.map fun row => ⟨row.1, row.2.name, row.2.qualifiedName⟩)

/-- A coverage row of which both names resolve: test, entity, weight. -/
def resolvedCoverage (db : TestRows) : List (JsString × JsString × Nat) :=
  let resolver := traceResolver db
  db.coverage.filterMap fun row =>
    (resolver.resolve row.test).bind fun testId =>
      (resolver.resolve row.entity).map fun entityId => (testId, entityId, row.weight)

def addCoverage (accum : KeyedMap JsString (KeyedMap JsString Nat)) (row : JsString × JsString × Nat) :
    KeyedMap JsString (KeyedMap JsString Nat) :=
  accum.set row.2.1 (tally ((accum.get row.2.1).getD .empty) row.1 row.2.2)

/-- `byEntity` of `buildTestCoverageIndex`, the only part that is read. -/
def coverageEntries (perTest : KeyedMap JsString Nat) : List CoverageEntry :=
  sortWith (coverageOrder localeCompare) (perTest.entries.map fun p => ⟨p.1, p.2⟩)

def byEntity (db : TestRows) (entityId : JsString) : List CoverageEntry :=
  ((((resolvedCoverage db).foldl addCoverage .empty).get entityId).map (coverageEntries localeCompare)).getD []

/-- A test that was seen to run the change. -/
def NodeReach.covered (prev : Option NodeReach) (weight : Nat) : NodeReach :=
  match prev with
  | none => ⟨1, true, weight, 0, true⟩
  | some prev =>
    { prev with
      viaTrace := true
      observed := true
      traceWeight := if weight > prev.traceWeight then weight else prev.traceWeight
      depth := if prev.depth > 1 then 1 else prev.depth }

def injectEntries (touch : Option NodeReach → Nat → NodeReach) (roots : List JsString) (reach : Reach)
    (entries : List CoverageEntry) : Reach :=
  entries.foldl (fun reach e => if e.testId ∈ roots then reach else reach.set e.testId (touch (reach.get e.testId) e.weight))
    reach

def injectCoverage (db : TestRows) (roots : List JsString) (reach : Reach) (entityId : JsString) : Reach :=
  injectEntries NodeReach.covered roots reach (byEntity localeCompare db entityId)

/-! ## Class rollup -/

/-- The class of a method, from its qualified name. -/
def enclosingClassOf (qualifiedName : JsString) : Option JsString := (qualifierOf qualifiedName).filter isPascalCase

/-- The other members of the class that `root` is a method of, in its file. -/
def classSiblings (db : TestRows) (root : JsString) : List JsString :=
  ((db.nodes.get root).bind fun node => node.file.bind fun file =>
    (enclosingClassOf node.qualifiedName).map fun cls =>
      (db.nodes.entries.filter fun row => row.2.file = some file ∧ row.1 ≠ root ∧
        (cls ++ [0x2E]).isPrefixOf row.2.qualifiedName = true ∧ enclosingClassOf row.2.qualifiedName = some cls).map
          Prod.fst).getD []

/-- A test that was seen to run a sibling: never the observed tier. -/
def NodeReach.rolledUp (prev : Option NodeReach) (weight : Nat) : NodeReach :=
  match prev with
  | none => ⟨1, true, weight, 0, false⟩
  | some prev =>
    { prev with
      viaTrace := true
      traceWeight := if weight > prev.traceWeight then weight else prev.traceWeight }

def injectClassRollup (db : TestRows) (roots : List JsString) (reach : Reach) (root : JsString) : Reach :=
  ((classSiblings db root).filter (· ∉ roots)).foldl
    (fun reach sibling => injectEntries NodeReach.rolledUp roots reach (byEntity localeCompare db sibling)) reach

/-! ## Affected tests -/

/-- The list on the precise path, its limit given apart: the hub is measured without one. -/
def preciseTests (db : TestRows) (reach : Reach) (opts : AffectedTestsOpts) (limit : Option JsNumber)
    (staticReach : List JsString) : List AffectedTest × Bool :=
  applyReachableFallback localeCompare db reach opts limit
    (rankReached localeCompare db reach opts.patterns opts.traceOnly limit true staticReach) staticReach

def notFound (precise : Bool) (traceEdgeCount : Nat) : AffectedTestsResult :=
  ⟨[], [], traceEdgeCount, precise, some symbolNotFoundNote, 0, false, .fin 0⟩

def affectedTests (db : TestRows) (symbol : JsString) (opts : AffectedTestsOpts) : AffectedTestsResult :=
  let (traceIn, traceEdgeCount) := buildTraceIn db
  let cap := depthCap opts.maxDepth
  match db.resolveSymbol symbol with
  | none => if 0 < db.coverage.length then notFound true 0 else notFound false traceEdgeCount
  | some root =>
    let reach := reverseWalk db root traceIn cap .empty
    let staticReach := staticReachableSet db [root] cap
    if 0 < db.coverage.length then
      let reach := injectCoverage localeCompare db [root] reach root
      let reach := if opts.classRollup then injectClassRollup localeCompare db [root] reach root else reach
      let (tests, fellBack) := preciseTests localeCompare db reach opts opts.limit staticReach
      let fullForHub :=
        if opts.limit.isSome then (preciseTests localeCompare db reach opts none staticReach).1 else tests
      let fraction := blastRadiusFraction db opts.patterns fullForHub.length
      ⟨[root], tests, traceEdgeCount, true, some (if fellBack then REACHABLE_FALLBACK_NOTE else PRECISE_NOTE),
        tests.countP (·.dispatchOnly), isHubFraction fraction, fraction⟩
    else
      let tests := rankReached localeCompare db reach opts.patterns opts.traceOnly opts.limit false staticReach
      let fullForHub :=
        if opts.limit.isSome then rankReached localeCompare db reach opts.patterns opts.traceOnly none false staticReach
        else tests
      let fraction := blastRadiusFraction db opts.patterns fullForHub.length
      ⟨[root], tests, traceEdgeCount, false, noteFor traceEdgeCount, tests.countP (·.dispatchOnly), isHubFraction fraction,
        fraction⟩

/-- The nodes of the changed files, each once. -/
def rootsOf (db : TestRows) (files : List JsString) : List JsString := addAll [] (files.flatMap db.idsIn)

/-- What the walks from the roots reached, before the roots are taken out. -/
def walkFiles (db : TestRows) (files : List JsString) (traceIn : TraceIn) (cap : Option Nat) : Reach :=
  (files.flatMap db.idsIn).foldl (fun reach id => reverseWalk db id traceIn cap reach) .empty

def eraseAll (reach : Reach) (ids : List JsString) : Reach := ids.foldl KeyedMap.erase reach

def reachOfFiles (db : TestRows) (files : List JsString) (opts : AffectedTestsOpts) : Reach :=
  let roots := rootsOf db files
  let reach := walkFiles db files (buildTraceIn db).1 (depthCap opts.maxDepth)
  let reach :=
    if 0 < db.coverage.length then
      let covered := roots.foldl (injectCoverage localeCompare db roots) reach
      if opts.classRollup then roots.foldl (injectClassRollup localeCompare db roots) covered else covered
    else reach
  eraseAll reach roots

/-- The tests by id, and whether one was added for an uncovered root. -/
structure Fallback where
  byId : KeyedMap JsString AffectedTest
  fellBack : Bool

def Fallback.add (acc : Fallback) (t : AffectedTest) : Fallback :=
  if acc.byId.has t.id then acc else ⟨acc.byId.set t.id t, true⟩

/-- The tests that reach an uncovered root. -/
def testsReaching (db : TestRows) (opts : AffectedTestsOpts) (roots staticReach : List JsString) (r : JsString) :
    List AffectedTest :=
  let reach := eraseAll (reverseWalk db r (buildTraceIn db).1 (depthCap opts.maxDepth) .empty) roots
  rankReached localeCompare db reach opts.patterns false none true staticReach

def perRootFallback (db : TestRows) (opts : AffectedTestsOpts) (roots staticReach uncovered : List JsString)
    (ranked : List AffectedTest) : Fallback :=
  (uncovered.flatMap (testsReaching localeCompare db opts roots staticReach)).foldl Fallback.add
    ⟨ranked.foldl (fun byId t => byId.set t.id t) .empty, false⟩

def affectedTestsForFiles (db : TestRows) (files : List JsString) (opts : AffectedTestsOpts) : AffectedTestsResult :=
  let precise := decide (0 < db.coverage.length)
  let traceEdgeCount := (buildTraceIn db).2
  let seenRoot := rootsOf db files
  let reach := reachOfFiles localeCompare db files opts
  let roots := sortWith localeCompare seenRoot
  let staticReach := staticReachableSet db seenRoot (depthCap opts.maxDepth)
  let ranked := rankReached localeCompare db reach opts.patterns opts.traceOnly none precise staticReach
  let uncovered :=
    if precise ∧ opts.traceOnly ∧ opts.fallbackReachableWhenEmpty then
      roots.filter fun r => (byEntity localeCompare db r).length = 0
    else []
  let acc := perRootFallback localeCompare db opts seenRoot staticReach uncovered ranked
  let full := if acc.fellBack then acc.byId.values else ranked
  let fraction := blastRadiusFraction db opts.patterns full.length
  let tests := limited opts.limit full
  ⟨roots, tests, traceEdgeCount, precise,
    if precise then some (if acc.fellBack then REACHABLE_FALLBACK_NOTE else PRECISE_NOTE) else noteFor traceEdgeCount,
    tests.countP (·.dispatchOnly), isHubFraction fraction, fraction⟩

end Ranking

end Hayven.Db
