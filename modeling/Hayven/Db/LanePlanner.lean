import Hayven.Db.GraphWalk
import Hayven.Lib.DisjointSets
/-!
# Planning parallel lanes

`db/lane_planner.ts`: the seeds of a change, the blast radius of each, and one lane per
group of seeds whose radii touch. The memo of in-degrees is left out; the hubs it
collects on the way are the hub hits of the seeds.
-/
open Hayven.Lib Hayven.Lib.DisjointSets

namespace Hayven.Db

structure PlannedLane where
  seeds : List JsString
  files : List JsString
  symbols : List JsString
deriving DecidableEq

structure LanePlan where
  lanes : List PlannedLane
  note : JsString
  hubsExcluded : Option (List JsString)
deriving DecidableEq

structure LaneInput where
  files : List JsString
  symbols : List JsString

structure LaneOptions where
  maxDepth : Option JsNumber
  maxHubDegree : Option JsNumber

/-! ## Step 1: the seeds -/

structure SeedList where
  seeds : List JsString
  unresolvedSymbols : Nat
  emptyFiles : Nat

def addSymbol (db : GraphRows) (s : SeedList) (sym : JsString) : SeedList :=
  match resolveNodeId db sym with
  | none => { s with unresolvedSymbols := s.unresolvedSymbols + 1 }
  | some r => { s with seeds := addNew s.seeds r.id }

/-- Every node defined in the file is a seed. -/
def addFile (db : GraphRows) (s : SeedList) (file : JsString) : SeedList :=
  match db.idsIn file with
  | [] => { s with emptyFiles := s.emptyFiles + 1 }
  | rows => { s with seeds := addAll s.seeds rows }

def seedList (db : GraphRows) (input : LaneInput) : SeedList :=
  input.files.foldl (addFile db) (input.symbols.foldl (addSymbol db) ⟨[], 0, 0⟩)

/-! ## Step 2: the blast radius of a seed -/

structure SeedRadius where
  seed : JsString
  symbols : List JsString
  files : List JsString

def isHub (db : GraphRows) (opts : LaneOptions) (id : JsString) : Bool :=
  match opts.maxHubDegree with
  | none => false
  | some max => JsNumber.gt (db.incoming id).length max

section Radius
variable (localeCompare : JsString → JsString → Ordering) (db : GraphRows) (opts : LaneOptions)

def impactHits (seed : JsString) : List JsString := (impactOf localeCompare db seed opts.maxDepth).hits.map (·.id)

/-- The seed and its hits, without the hubs. -/
def radiusSymbols (seed : JsString) : List JsString :=
  addAll [seed] ((impactHits localeCompare db opts seed).filter fun id => id = seed || !isHub db opts id)

def seedRadius (seed : JsString) : SeedRadius :=
  let symbols := radiusSymbols localeCompare db opts seed
  ⟨seed, symbols, addAll [] (symbols.filterMap db.fileOf)⟩

/-- The hubs met on the way. -/
def hubsMet (seeds : List JsString) : List JsString :=
  addAll [] (seeds.flatMap fun seed =>
    (impactHits localeCompare db opts seed).filter fun id => id ≠ seed && isHub db opts id)

end Radius

/-! ## Steps 3 and 4: grouping -/

def overlaps (a b : SeedRadius) : Bool := intersects a.symbols b.symbols || intersects a.files b.files

/-- `for (i …) for (j = i + 1 …)`. -/
def indexPairs (n : Nat) : List (Nat × Nat) :=
  (List.range n).flatMap fun i => ((List.range n).filter (i < ·)).map fun j => (i, j)

def radiusAt (radii : List SeedRadius) (i : Nat) : SeedRadius := radii.getD i ⟨[], [], []⟩

def coupledPairs (radii : List SeedRadius) : List (Nat × Nat) :=
  (indexPairs radii.length).filter fun ij => overlaps (radiusAt radii ij.1) (radiusAt radii ij.2)

/-- The indices of the radii by component, `none` if a root is not found. -/
def components (radii : List SeedRadius) : Option (KeyedMap Nat (List Nat)) := do
  let parent ← linkAll (singletons radii.length) (coupledPairs radii)
  let (_, buckets) ← bucketsFrom parent .empty (List.range radii.length)
  return buckets

def laneOf (radii : List SeedRadius) (idxs : List Nat) : PlannedLane where
  seeds := sortWith compare (idxs.map fun i => (radiusAt radii i).seed)
  files := sortWith compare (addAll [] (idxs.flatMap fun i => (radiusAt radii i).files))
  symbols := sortWith compare (addAll [] (idxs.flatMap fun i => (radiusAt radii i).symbols))

def coupledSeeds (buckets : List (List Nat)) : Nat := ((buckets.filter (1 < ·.length)).map List.length).sum

/-- By the first seed. -/
def laneOrder (a b : PlannedLane) : Ordering := compare (a.seeds.head?.getD []) (b.seeds.head?.getD [])

/-! ## Step 5: the tripwire -/

def clashText (i j : Nat) (what name : JsString) : JsString :=
  ascii "lane_planner: lanes " ++ ascii (Nat.repr i) ++ ascii " and " ++ ascii (Nat.repr j) ++ ascii " both contain " ++
    what ++ ascii " \"" ++ name ++ ascii "\" — not disjoint"

/-- What `assertDisjoint` throws for a pair of lanes. -/
def clash (i j : Nat) (a b : PlannedLane) : Option JsString :=
  ((b.symbols.find? (· ∈ a.symbols)).map (clashText i j (ascii "symbol"))).or
    ((b.files.find? (· ∈ a.files)).map (clashText i j (ascii "file")))

def laneAt (lanes : List PlannedLane) (i : Nat) : PlannedLane := lanes.getD i ⟨[], [], []⟩

def assertDisjoint (lanes : List PlannedLane) : Except JsString Unit :=
  match (indexPairs lanes.length).findSome? fun ij => clash ij.1 ij.2 (laneAt lanes ij.1) (laneAt lanes ij.2) with
  | some text => .error text
  | none => .ok ()

/-! ## Step 6: the summary -/

def counted (n : Nat) (one many : String) : JsString := ascii (Nat.repr n) ++ ascii " " ++ ascii (if n = 1 then one else many)

def noteSkipped (unresolvedSymbols emptyFiles : Nat) : JsString :=
  (ascii ", ").intercalate
    ((if 0 < unresolvedSymbols then [counted unresolvedSymbols "unresolved symbol" "unresolved symbols"] else []) ++
      (if 0 < emptyFiles then [counted emptyFiles "empty file" "empty files"] else []))

def buildNote (seedCount laneCount coupled unresolvedSymbols emptyFiles : Nat) : JsString :=
  let skipped := noteSkipped unresolvedSymbols emptyFiles
  counted seedCount "seed" "seeds" ++ ascii " → " ++ counted laneCount "disjoint lane" "disjoint lanes" ++
    (if 0 < coupled then ascii "; " ++ ascii (Nat.repr coupled) ++ ascii " seeds coupled via shared blast radius" else []) ++
    (if skipped = [] then [] else ascii " (skipped " ++ skipped ++ ascii ")")

def hubNote (hubs : List JsString) : JsString :=
  if hubs = [] then []
  else ascii "; excluded " ++ counted hubs.length "hub" "hubs" ++ ascii " from coupling"

def emptyPlan (s : SeedList) : LanePlan :=
  let skipped := noteSkipped s.unresolvedSymbols s.emptyFiles
  ⟨[], if skipped = [] then ascii "no seeds" else ascii "no seeds (" ++ skipped ++ ascii ")", none⟩

/-- `none` would be a plan that never ends, an error one that throws. -/
def planLanes (localeCompare : JsString → JsString → Ordering) (db : GraphRows) (input : LaneInput)
    (opts : LaneOptions) : Option (Except JsString LanePlan) :=
  let s := seedList db input
  if s.seeds = [] then some (.ok (emptyPlan s))
  else
    let radii := s.seeds.map (seedRadius localeCompare db opts)
    (components radii).map fun comps => do
      let lanes := sortWith laneOrder (comps.values.map (laneOf radii))
      assertDisjoint lanes
      let note := buildNote s.seeds.length lanes.length (coupledSeeds comps.values) s.unresolvedSymbols s.emptyFiles
      match opts.maxHubDegree with
      | none => return ⟨lanes, note, none⟩
      | some _ =>
        let hubs := hubsMet localeCompare db opts s.seeds
        return ⟨lanes, note ++ hubNote hubs, some (sortWith compare hubs)⟩

end Hayven.Db
