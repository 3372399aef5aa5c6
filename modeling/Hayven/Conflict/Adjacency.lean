import Hayven.Lib.Bytes
import Mathlib.Data.List.Basic
/-!
# Overlap and adjacency of scopes

`conflict/adjacency.ts`. Two claims overlap when their scopes share an entity;
they are adjacent when the graph connects their scopes or, by default, when
they share a containing module.
-/
open Hayven.Lib

namespace Hayven.Conflict

structure ClaimLike where
  id : JsString
  scope : List JsString
deriving DecidableEq

abbrev NeighborLookup := JsString → List JsString

/-- The entries of `b` that are in `a`. -/
def intersects (a b : List JsString) : List JsString := b.filter (a.contains ·)

/-- The text before the last slash, if that slash is not the first character. -/
def modulePrefix (entityId : JsString) : Option JsString :=
  match (entityId.reverse.dropWhile (· ≠ 0x2F)) with
  | [] => none
  | _ :: before => if before = [] then none else some before.reverse

/-- Insert into a set that remembers insertion order. -/
def addNew (out : List JsString) (x : JsString) : List JsString := if out.contains x then out else out ++ [x]

def modulePrefixes (scope : List JsString) : List JsString := (scope.filterMap modulePrefix).foldl addNew []

/-- The first active claim whose scope meets the incoming one, with the shared entities. -/
def findOverlap (incomingScope : List JsString) : List ClaimLike → Option (ClaimLike × List JsString)
  | [] => none
  | claim :: rest =>
    let shared := intersects incomingScope claim.scope
    if shared.length > 0 then some (claim, shared) else findOverlap incomingScope rest

def edgeAdjacency (scopeA scopeB : List JsString) (neighbors : NeighborLookup) : Bool :=
  scopeA.any (fun a => (neighbors a).any (scopeB.contains ·)) ||
    scopeB.any (fun b => (neighbors b).any (scopeA.contains ·))

/-- The neighbours of a scope outside it, each once. -/
def scopeNeighbors (scope : List JsString) (neighbors : NeighborLookup) : List JsString :=
  ((scope.flatMap neighbors).filter (fun n => !scope.contains n)).foldl addNew []

def scopesGraphConnected (scopeA scopeB : List JsString) (neighbors : NeighborLookup) : Bool :=
  if edgeAdjacency scopeA scopeB neighbors then true
  else
    let aNeighbors := scopeNeighbors scopeA neighbors
    if aNeighbors.length = 0 then false else (scopeNeighbors scopeB neighbors).any (aNeighbors.contains ·)

def shareModulePrefix (scopeA scopeB : List JsString) : Bool :=
  let aPrefixes := modulePrefixes scopeA
  if aPrefixes.length = 0 then false else (modulePrefixes scopeB).any (aPrefixes.contains ·)

def isAdjacent (scopeA scopeB : List JsString) (neighbors : NeighborLookup) : Bool :=
  if edgeAdjacency scopeA scopeB neighbors then true else shareModulePrefix scopeA scopeB

inductive AdjacencyGate where
  | moduleEdge
  | edge
  | graph
deriving DecidableEq, Repr

def gatePredicate (gate : AdjacencyGate) (neighbors : NeighborLookup) (a b : List JsString) : Bool :=
  match gate with
  | .edge => edgeAdjacency a b neighbors
  | .graph => scopesGraphConnected a b neighbors
  | .moduleEdge => isAdjacent a b neighbors

def findAdjacent (incomingScope : List JsString) (active : List ClaimLike) (neighbors : NeighborLookup)
    (gate : AdjacencyGate) : List ClaimLike :=
  active.filter (fun claim => gatePredicate gate neighbors incomingScope claim.scope)

/-- The claimed entities and their neighbours outside the claim. -/
def suggestScope (scope : List JsString) (neighbors : NeighborLookup) : List JsString × List JsString :=
  (scope, scopeNeighbors scope neighbors)

/-! ## Overlap -/

/-- Two scopes share no entity. -/
def DisjointScopes (a b : List JsString) : Prop := ∀ x ∈ a, x ∉ b

instance (a b : List JsString) : Decidable (DisjointScopes a b) := inferInstanceAs (Decidable (∀ x ∈ a, x ∉ b))

theorem DisjointScopes.symm {a b : List JsString} (h : DisjointScopes a b) : DisjointScopes b a :=
  fun x hb ha => h x ha hb

theorem intersects_eq_nil {a b : List JsString} : intersects a b = [] ↔ DisjointScopes a b := by
  simp only [intersects, List.filter_eq_nil_iff, List.contains_iff_mem]
  exact ⟨fun h x ha hb => h x hb ha, fun h x hb ha => h x ha hb⟩

/-- No overlap is found exactly when every active claim is disjoint from the scope. -/
theorem findOverlap_eq_none {scope : List JsString} {active : List ClaimLike} :
    findOverlap scope active = none ↔ ∀ c ∈ active, DisjointScopes scope c.scope := by
  induction active with
  | nil => simp [findOverlap]
  | cons c rest ih =>
    simp only [findOverlap, gt_iff_lt, List.length_pos_iff, ne_eq, intersects_eq_nil, List.forall_mem_cons]
    split
    case isTrue h => simp [h]
    case isFalse h => rw [ih]; simp [not_not.1 h]

theorem findOverlap_some {scope : List JsString} {active : List ClaimLike} {c : ClaimLike} {shared : List JsString}
    (h : findOverlap scope active = some (c, shared)) : c ∈ active ∧ ¬ DisjointScopes scope c.scope := by
  induction active with
  | nil => simp [findOverlap] at h
  | cons c' rest ih =>
    simp only [findOverlap, gt_iff_lt, List.length_pos_iff, ne_eq, intersects_eq_nil] at h
    split at h
    case isTrue hd => cases h; exact ⟨List.mem_cons_self, hd⟩
    case isFalse => exact ⟨List.mem_cons_of_mem _ (ih h).1, (ih h).2⟩

end Hayven.Conflict
