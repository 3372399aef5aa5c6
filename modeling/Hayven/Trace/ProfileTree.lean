import Hayven.Lib.Json
import Hayven.Lib.Segments
import Hayven.Lib.Tally
/-!
# Edges from CPU profiles

A profile lists the nodes of a call tree, each with the ids of its children. The Bun
collector (`trace/bun/src/profile.ts`) walks down from the roots and splices out the
frames that its resolver drops; the browser collector (`trace/browser/src/profile-tree.ts`)
takes every link and climbs to the nearest frame that is kept. On the listing of a call
forest, in whatever order, both count the same.
-/
open Hayven.Lib

namespace Hayven.Trace

/-! ## Profiles -/

structure CallFrame where
  functionName : Option JsString
  url : Option JsString
  lineNumber : Option Int
deriving DecidableEq

structure ProfileNode where
  id : Int
  callFrame : CallFrame
  hitCount : Option Nat
  children : Option (List Int)
deriving DecidableEq

namespace ProfileNode

def hits (n : ProfileNode) : Nat := n.hitCount.getD 0

def calls (n : ProfileNode) : List Int := n.children.getD []

/-- The absent fields filled in. -/
def plain (n : ProfileNode) : ProfileNode := ⟨n.id, n.callFrame, some n.hits, some n.calls⟩

end ProfileNode

def uint16Ceiling : Nat := 65535

/-- The last node of an id. -/
def byId (nodes : List ProfileNode) : KeyedMap Int ProfileNode := nodes.foldl (fun m n => m.set n.id n) .empty

/-- The sums known so far, and the ids whose sum is being computed. -/
structure Sums where
  cached : KeyedMap Int Nat
  computing : List Int

/-- The sums of these children, each computed where the ones before it left the cache. -/
def addSums (sum : Int → Sums → Nat × Sums) : List Int → Nat → Sums → Nat × Sums
  | [], total, s => (total, s)
  | c :: cs, total, s => addSums sum cs (total + (sum c s).1) (sum c s).2

/-- The hits of a node and of all below it; `cachesMissing` where an id without a node is cached as well.
The guard against cycles bounds the depth by the number of nodes. -/
def sumOf (cachesMissing : Bool) (nodes : KeyedMap Int ProfileNode) : Nat → Int → Sums → Nat × Sums
  | 0, _, s => (0, s)
  | fuel + 1, id, s =>
    match s.cached.get id with
    | some total => (total, s)
    | none =>
      if id ∈ s.computing then (0, s)
      else
        match nodes.get id with
        | none => (0, if cachesMissing then { s with cached := s.cached.set id 0 } else s)
        | some node =>
          let r := addSums (sumOf cachesMissing nodes fuel) node.calls node.hits { s with computing := id :: s.computing }
          (r.1, ⟨r.2.cached.set id r.1, r.2.computing.erase id⟩)

/-! ## Walking down: the Bun collector -/

/-- The key of an edge, two names with a NUL between. -/
def edgeKey (src dst : JsString) : JsString := src ++ 0 :: dst

def addEdge (edges : KeyedMap JsString Nat) (src dst : JsString) (observed : Nat) : KeyedMap JsString Nat :=
  if observed ≤ 0 ∨ src = dst then edges else tally edges (edgeKey src dst) observed

structure Walk where
  visited : List Int
  sums : Sums
  edges : KeyedMap JsString Nat

section Bun
variable (nameOf : CallFrame → Option JsString)

/-- The edge into a node from the nearest kept caller. -/
def enter (nodes : KeyedMap Int ProfileNode) (fuel : Nat) (ancestorName name : Option JsString) (id : Int) (w : Walk) :
    Walk :=
  match name, ancestorName with
  | some name, some ancestor =>
    let r := sumOf true nodes fuel id w.sums
    { w with sums := r.2, edges := addEdge w.edges ancestor name r.1 }
  | _, _ => w

def walk (nodes : KeyedMap Int ProfileNode) (depth : Nat) : Nat → Option JsString → Int → Walk → Walk
  | 0, _, _, w => w
  | fuel + 1, ancestorName, id, w =>
    if id ∈ w.visited then w
    else
      let w := { w with visited := id :: w.visited }
      match nodes.get id with
      | none => w
      | some node =>
        let name := nameOf node.callFrame
        let w := enter nodes depth ancestorName name id w
        node.calls.foldl (fun w c => walk nodes depth fuel (name.or ancestorName) c w) w

structure DerivedEdge where
  src : JsString
  dst : JsString
  observed : Nat
deriving DecidableEq

/-- `key.split("\x00") as [string, string]`: what is before the first NUL and between it and the next. -/
def splitEdgeKey (key : JsString) : JsString × JsString :=
  (key.takeWhile (· ≠ 0), ((key.dropWhile (· ≠ 0)).drop 1).takeWhile (· ≠ 0))

def childIds (nodes : List ProfileNode) : List Int := nodes.flatMap ProfileNode.calls

def deriveEdges (nodes : List ProfileNode) : List DerivedEdge :=
  let roots := (nodes.filter fun n => n.id ∉ childIds nodes).map ProfileNode.id
  let w := roots.foldl (fun w id => walk nameOf (byId nodes) nodes.length nodes.length none id w) ⟨[], ⟨.empty, []⟩, .empty⟩
  w.edges.entries.map fun e => ⟨(splitEdgeKey e.1).1, (splitEdgeKey e.1).2, min e.2 uint16Ceiling⟩

structure CoveredName where
  name : JsString
  observed : Nat
deriving DecidableEq

/-- One node of the listing, with the sums and the counts so far. -/
def cover (nodes : KeyedMap Int ProfileNode) (depth : Nat) (r : Sums × KeyedMap JsString Nat) (n : ProfileNode) :
    Sums × KeyedMap JsString Nat :=
  match nameOf n.callFrame with
  | none => r
  | some name =>
    let s := sumOf true nodes depth n.id r.1
    (s.2, if s.1 ≤ 0 then r.2 else tally r.2 name s.1)

def deriveCoverage (nodes : List ProfileNode) : List CoveredName :=
  let r := nodes.foldl (cover nameOf (byId nodes) nodes.length) (⟨.empty, []⟩, .empty)
  r.2.entries.map fun e => ⟨e.1, min e.2 uint16Ceiling⟩

end Bun

/-! ## Climbing up: the browser collector -/

def startsWith (s : JsString) (lead : String) : Bool := (ascii lead).isPrefixOf s

def keepFrame (frame : CallFrame) (urlPrefixes : List JsString) : Bool :=
  let url := frame.url.getD []
  let name := frame.functionName.getD []
  if url = [] ∧ startsWith name "(" ∧ (ascii ")").isSuffixOf name then false
  else if urlPrefixes ≠ [] then urlPrefixes.any (·.isPrefixOf url)
  else if startsWith url "chrome-extension://" then false
  else if startsWith url "chrome://" then false
  else if startsWith url "devtools://" then false
  else if startsWith url "node:" then false
  else if startsWith url "extensions::" then false
  else if url = [] then false
  else true

/-- The last segment of the path, without query, fragment and one extension. -/
def moduleFromUrl (url : JsString) : JsString :=
  let u := url.takeWhile fun c => c ≠ 0x3F ∧ c ≠ 0x23
  let base := match lastIndexOf 0x2F u with
    | some slash => u.drop (slash + 1)
    | none => u
  match lastIndexOf 0x2E base with
  | some dot => if dot > 0 then base.take dot else base
  | none => base

def frameId (frame : CallFrame) : JsString :=
  let mod := moduleFromUrl (frame.url.getD [])
  let given := frame.functionName.getD []
  let name := if given ≠ [] then given else ascii "(anonymous):" ++ intText (frame.lineNumber.getD 0)
  if mod ≠ [] then mod ++ ascii ":" ++ name else name

/-- The last node that lists an id as a child. -/
def parentIndex (nodes : KeyedMap Int ProfileNode) : KeyedMap Int Int :=
  nodes.values.foldl (fun m n => n.calls.foldl (fun m c => m.set c n.id) m) .empty

/-- The name of the nearest kept frame from here up. -/
def nearestKept (nameOf : CallFrame → Option JsString) (nodes : KeyedMap Int ProfileNode) (parents : KeyedMap Int Int) :
    Nat → List Int → ProfileNode → Option JsString
  | 0, _, _ => none
  | fuel + 1, seen, cur =>
    if cur.id ∈ seen then none
    else
      match nameOf cur.callFrame with
      | some name => some name
      | none =>
        match (parents.get cur.id).bind nodes.get with
        | some up => nearestKept nameOf nodes parents fuel (cur.id :: seen) up
        | none => none

/-- `keepFrame` and `frameId` as one resolver. -/
def keptName (urlPrefixes : List JsString) (frame : CallFrame) : Option JsString :=
  if keepFrame frame urlPrefixes then some (frameId frame) else none

def addProfileEdge (agg : KeyedMap JsString DerivedEdge) (src dst : JsString) (count : Nat) : KeyedMap JsString DerivedEdge :=
  if src = [] ∨ dst = [] ∨ src = dst ∨ count ≤ 0 then agg
  else
    match agg.get (edgeKey src dst) with
    | some existing => agg.set (edgeKey src dst) { existing with observed := existing.observed + count }
    | none => agg.set (edgeKey src dst) ⟨src, dst, count⟩

/-- One link of the tree. -/
def link (urlPrefixes : List JsString) (nodes : List ProfileNode) (node : ProfileNode)
    (r : Sums × KeyedMap JsString DerivedEdge) (childId : Int) : Sums × KeyedMap JsString DerivedEdge :=
  match (byId nodes).get childId with
  | none => r
  | some child =>
    match keptName urlPrefixes child.callFrame with
    | none => r
    | some dst =>
      match nearestKept (keptName urlPrefixes) (byId nodes) (parentIndex (byId nodes)) nodes.length [] node with
      | none => r
      | some src =>
        let s := sumOf false (byId nodes) nodes.length childId r.1
        (s.2, addProfileEdge r.2 src dst s.1)

def edgesFromProfile (urlPrefixes : List JsString) (nodes : List ProfileNode) : List DerivedEdge :=
  let r := nodes.foldl (fun r node => node.calls.foldl (link urlPrefixes nodes node) r) (⟨.empty, []⟩, .empty)
  r.2.values.map fun e => { e with observed := min e.observed uint16Ceiling }

end Hayven.Trace
