import Mathlib.Data.List.TakeWhile
import Hayven.Trace.ProfileTree
import Mathlib.Data.List.Pairwise
/-!
# What the profile collectors count

On the listing of a call forest, in whatever order, the cached sums are the samples of the
subtrees, the walk from the roots meets every link between a kept frame and its nearest
kept caller, and so does the climb from every node.
-/
open Hayven.Lib

namespace Hayven.Trace

/-! ## Call forests -/

inductive CallTree where
  | node (id : Int) (frame : CallFrame) (hits : Nat) (calls : List CallTree)

namespace CallTree

def id : CallTree → Int
  | node id _ _ _ => id

def frame : CallTree → CallFrame
  | node _ frame _ _ => frame

def calls : CallTree → List CallTree
  | node _ _ _ calls => calls

/-- How the tree's root is listed. -/
def record : CallTree → ProfileNode
  | node id frame hits calls => ⟨id, frame, some hits, some (calls.map CallTree.id)⟩

mutual
/-- The samples taken in a frame or in anything it called. -/
def samples : CallTree → Nat
  | node _ _ hits calls => hits + samplesAll calls
def samplesAll : List CallTree → Nat
  | [] => 0
  | t :: ts => t.samples + samplesAll ts
end

mutual
/-- The calls of the tree, itself included. -/
def subtrees : CallTree → List CallTree
  | node id frame hits calls => node id frame hits calls :: subtreesAll calls
def subtreesAll : List CallTree → List CallTree
  | [] => []
  | t :: ts => t.subtrees ++ subtreesAll ts
end

/-- The nodes of the listing, in preorder. -/
def nodes (t : CallTree) : List ProfileNode := t.subtrees.map record

def nodesAll (ts : List CallTree) : List ProfileNode := (subtreesAll ts).map record

/-- The samples under each id. -/
def totals (t : CallTree) : List (Int × Nat) := t.subtrees.map fun u => (u.id, u.samples)

def totalsAll (ts : List CallTree) : List (Int × Nat) := (subtreesAll ts).map fun u => (u.id, u.samples)

end CallTree

/-- A kept caller, a kept callee and the samples under this call. -/
abbrev Link := (JsString × JsString) × Nat

def ownLink (caller name : Option JsString) (samples : Nat) : List Link :=
  match name, caller with
  | some name, some caller => [((caller, name), samples)]
  | _, _ => []

section Links
variable (nameOf : CallFrame → Option JsString)

mutual
/-- Every kept frame with its nearest kept caller. -/
def CallTree.links (caller : Option JsString) : CallTree → List Link
  | .node id frame hits calls =>
    ownLink caller (nameOf frame) (CallTree.samples (.node id frame hits calls)) ++
      linksAll ((nameOf frame).or caller) calls
def linksAll (caller : Option JsString) : List CallTree → List Link
  | [] => []
  | t :: ts => t.links caller ++ linksAll caller ts
end

/-- How many samples were taken below the calls of `dst` by `src`. -/
def callsBetween (forest : List CallTree) (src dst : JsString) : Nat :=
  sumAt Prod.fst Prod.snd (linksAll nameOf none forest) (src, dst)

end Links

namespace CallTree

theorem nodes_node (id : Int) (frame : CallFrame) (hits : Nat) (calls : List CallTree) :
    (node id frame hits calls).nodes = (node id frame hits calls).record :: nodesAll calls := by
  rw [nodes, subtrees, List.map_cons, nodesAll]

theorem nodesAll_cons (t : CallTree) (ts : List CallTree) : nodesAll (t :: ts) = t.nodes ++ nodesAll ts := by
  rw [nodesAll, subtreesAll, List.map_append, nodes, nodesAll]

theorem totals_node (id : Int) (frame : CallFrame) (hits : Nat) (calls : List CallTree) :
    (node id frame hits calls).totals = (id, samples (node id frame hits calls)) :: totalsAll calls := by
  rw [totals, subtrees, List.map_cons, totalsAll]
  rfl

theorem totalsAll_cons (t : CallTree) (ts : List CallTree) : totalsAll (t :: ts) = t.totals ++ totalsAll ts := by
  rw [totalsAll, subtreesAll, List.map_append, totals, totalsAll]

@[simp] theorem id_record (t : CallTree) : t.record.id = t.id := by cases t; rfl

@[simp] theorem callFrame_record (t : CallTree) : t.record.callFrame = t.frame := by cases t; rfl

@[simp] theorem calls_record (t : CallTree) : t.record.calls = t.calls.map CallTree.id := by cases t; rfl

theorem ids_nodesAll (ts : List CallTree) : (nodesAll ts).map ProfileNode.id = (subtreesAll ts).map CallTree.id := by
  rw [nodesAll, List.map_map]
  exact List.map_congr_left fun t _ => id_record t

theorem keys_totalsAll (ts : List CallTree) : (totalsAll ts).map Prod.fst = (subtreesAll ts).map CallTree.id := by
  rw [totalsAll, List.map_map]
  rfl

mutual
/-- What a call leads to is part of what its callers lead to. -/
theorem subtrees_sublist : (t : CallTree) → ∀ u ∈ t.subtrees, u.subtrees.Sublist t.subtrees
  | node id frame hits calls, u, hu => by
    rw [subtrees] at hu
    rcases List.mem_cons.1 hu with rfl | hu
    · exact List.Sublist.refl _
    · rw [subtrees]
      exact (subtreesAll_sublist calls u hu).cons _
theorem subtreesAll_sublist : (ts : List CallTree) → ∀ u ∈ subtreesAll ts, u.subtrees.Sublist (subtreesAll ts)
  | t :: ts, u, hu => by
    rw [subtreesAll] at hu ⊢
    rcases List.mem_append.1 hu with hu | hu
    · exact (subtrees_sublist t u hu).trans (List.sublist_append_left _ _)
    · exact (subtreesAll_sublist ts u hu).trans (List.sublist_append_right _ _)
end

mutual
/-- Every call is a root or a call of another. -/
theorem ids_subtrees : (t : CallTree) → (t.subtrees.map CallTree.id).Perm
    (t.id :: t.subtrees.flatMap fun u => u.calls.map CallTree.id)
  | node id frame hits calls => by
    rw [subtrees, List.map_cons, List.flatMap_cons]
    exact (ids_subtreesAll calls).cons _
theorem ids_subtreesAll : (ts : List CallTree) → ((subtreesAll ts).map CallTree.id).Perm
    (ts.map CallTree.id ++ (subtreesAll ts).flatMap fun u => u.calls.map CallTree.id)
  | [] => List.Perm.refl _
  | t :: ts => by
    rw [subtreesAll, List.map_append, List.flatMap_append, List.map_cons]
    refine ((ids_subtrees t).append (ids_subtreesAll ts)).trans ?_
    rw [List.cons_append, List.cons_append]
    refine List.Perm.cons _ ?_
    rw [← List.append_assoc, ← List.append_assoc]
    exact List.perm_append_comm.append_right _
end

theorem mem_subtreesAll {ts : List CallTree} {t : CallTree} (h : t ∈ ts) : t ∈ subtreesAll ts := by
  induction ts with
  | nil => cases h
  | cons u ts ih =>
    rw [subtreesAll]
    rcases List.mem_cons.1 h with rfl | h
    · cases t
      exact List.mem_append_left _ (by rw [subtrees]; exact List.mem_cons_self)
    · exact List.mem_append_right _ (ih h)

theorem samples_mem_totals (t : CallTree) : (t.id, t.samples) ∈ t.totals := by
  cases t
  rw [totals_node]
  exact List.mem_cons_self

end CallTree

open CallTree (nodesAll subtreesAll totalsAll samplesAll)

section Plain
variable {n : ProfileNode} {u : CallTree} (hplain : n.plain = u.record)
include hplain

theorem id_of_plain : n.id = u.id := (congrArg ProfileNode.id hplain).trans u.id_record

theorem frame_of_plain : n.callFrame = u.frame := (congrArg ProfileNode.callFrame hplain).trans u.callFrame_record

theorem calls_of_plain : n.calls = u.calls.map CallTree.id := (congrArg ProfileNode.calls hplain).trans u.calls_record

end Plain

/-- The node is listed, up to absent fields. -/
def Found (nodes : KeyedMap Int ProfileNode) (x : ProfileNode) : Prop :=
  ∃ n, nodes.get x.id = some n ∧ n.plain = x

/-- Listed nodes, each id once, whose samples the table has. -/
structure Placed (nodes : KeyedMap Int ProfileNode) (table : List (Int × Nat)) (xs : List ProfileNode)
    (ps : List (Int × Nat)) : Prop where
  found : ∀ x ∈ xs, Found nodes x
  nodup : (xs.map ProfileNode.id).Nodup
  known : ps ⊆ table

namespace Placed
variable {nodes : KeyedMap Int ProfileNode} {table : List (Int × Nat)}

theorem cons {t : CallTree} {ts : List CallTree}
    (h : Placed nodes table (nodesAll (t :: ts)) (totalsAll (t :: ts))) :
    Placed nodes table t.nodes t.totals ∧ Placed nodes table (nodesAll ts) (totalsAll ts) := by
  obtain ⟨hfound, hnodup, hknown⟩ := h
  rw [CallTree.nodesAll_cons] at hfound hnodup
  rw [CallTree.totalsAll_cons, List.append_subset] at hknown
  rw [List.forall_mem_append] at hfound
  rw [List.map_append] at hnodup
  exact ⟨⟨hfound.1, hnodup.of_append_left, hknown.1⟩, ⟨hfound.2, hnodup.of_append_right, hknown.2⟩⟩

variable {id : Int} {frame : CallFrame} {hits : Nat} {cs : List CallTree}
  (h : Placed nodes table (CallTree.node id frame hits cs).nodes (CallTree.node id frame hits cs).totals)
include h

theorem calls : Placed nodes table (nodesAll cs) (totalsAll cs) := by
  obtain ⟨hfound, hnodup, hknown⟩ := h
  rw [CallTree.nodes_node] at hfound hnodup
  rw [CallTree.totals_node] at hknown
  exact ⟨(List.forall_mem_cons.1 hfound).2, (List.nodup_cons.1 hnodup).2, (List.cons_subset.1 hknown).2⟩

theorem root :
    ∃ n, nodes.get id = some n ∧ n.callFrame = frame ∧ n.hits = hits ∧ n.calls = cs.map CallTree.id := by
  have hfound := h.found
  rw [CallTree.nodes_node] at hfound
  obtain ⟨n, hget, hplain⟩ := hfound _ List.mem_cons_self
  simp only [ProfileNode.plain, CallTree.record, ProfileNode.mk.injEq, Option.some.injEq] at hplain
  exact ⟨n, hget, hplain.2⟩

/-- No id of a tree is that of a call of it. -/
theorem root_fresh : ∀ x ∈ nodesAll cs, x.id ≠ id := by
  intro x hx heq
  have hnodup := h.nodup
  rw [CallTree.nodes_node] at hnodup
  have hmem := List.mem_map_of_mem (f := ProfileNode.id) hx
  rw [heq] at hmem
  exact (List.nodup_cons.1 hnodup).1 hmem

end Placed

/-! ## The sums -/

/-- What is cached is right. -/
def CacheOk (table : List (Int × Nat)) (s : Sums) : Prop :=
  ∀ id total, s.cached.get id = some total → (id, total) ∈ table

/-- The total, with nothing left being computed and nothing wrong cached. -/
structure SumsTo (table : List (Int × Nat)) (s : Sums) (total : Nat) (r : Nat × Sums) : Prop where
  total : r.1 = total
  computing : r.2.computing = s.computing
  cache : CacheOk table r.2

section Sums
variable {cachesMissing : Bool} {nodes : KeyedMap Int ProfileNode} {table : List (Int × Nat)}

mutual
theorem sumOf_tree (htable : (table.map Prod.fst).Nodup) : (t : CallTree) → {fuel : Nat} → {s : Sums} →
    Placed nodes table t.nodes t.totals → t.nodes.length ≤ fuel → CacheOk table s → (∀ x ∈ t.nodes, x.id ∉ s.computing) →
    SumsTo table s t.samples (sumOf cachesMissing nodes fuel t.id s)
  | .node id frame hits calls, fuel, s, hplaced, hfuel, hcache, hfresh => by
    rw [CallTree.nodes_node] at hfuel hfresh
    rw [List.length_cons] at hfuel
    obtain ⟨fuel, rfl⟩ : ∃ k, fuel = k + 1 := ⟨fuel - 1, by omega⟩
    have hmem : (id, CallTree.samples (.node id frame hits calls)) ∈ table :=
      hplaced.known (CallTree.samples_mem_totals _)
    obtain ⟨n, hget, -, hhits, hcalls⟩ := hplaced.root
    simp only [CallTree.id, sumOf]
    cases hcached : s.cached.get id with
    | some total =>
      -- the same id is in the table once only
      have htotal := (lookupKey_eq_some htable).2 (hcache id total hcached)
      have heq := htotal.symm.trans ((lookupKey_eq_some htable).2 hmem)
      exact ⟨Option.some.inj heq, rfl, hcache⟩
    | none =>
      have hbelow : (nodesAll calls).length ≤ fuel := by omega
      have hsums := addSums_trees htable calls hits (s := { s with computing := id :: s.computing })
        hplaced.calls hbelow hcache (fun x hx => by
          rw [List.mem_cons, not_or]
          exact ⟨hplaced.root_fresh x hx, hfresh x (List.mem_cons_of_mem _ hx)⟩)
      have hroot : id ∉ s.computing := hfresh _ List.mem_cons_self
      rw [CallTree.samples] at hmem ⊢
      simp only [hroot, if_false, hget, hhits, hcalls]
      refine ⟨hsums.total, ?_, ?_⟩
      · show (addSums _ _ _ _).2.computing.erase id = s.computing
        rw [hsums.computing, List.erase_cons_head]
      · intro id' total' hget'
        rw [KeyedMap.get_set] at hget'
        split at hget'
        · rename_i heq
          obtain rfl := Option.some.inj hget'
          rw [← heq, hsums.total]
          exact hmem
        · exact hsums.cache id' total' hget'
theorem addSums_trees (htable : (table.map Prod.fst).Nodup) : (ts : List CallTree) → (total : Nat) → {fuel : Nat} →
    {s : Sums} → Placed nodes table (nodesAll ts) (totalsAll ts) → (nodesAll ts).length ≤ fuel →
    CacheOk table s → (∀ x ∈ nodesAll ts, x.id ∉ s.computing) →
    SumsTo table s (total + samplesAll ts)
      (addSums (sumOf cachesMissing nodes fuel) (ts.map CallTree.id) total s)
  | [], _, _, _, _, _, hcache, _ => ⟨rfl, rfl, hcache⟩
  | t :: ts, total, fuel, s, hplaced, hfuel, hcache, hfresh => by
    rw [CallTree.nodesAll_cons] at hfuel hfresh
    rw [List.length_append] at hfuel
    have hfirst : t.nodes.length ≤ fuel := by omega
    have hrest : (nodesAll ts).length ≤ fuel := by omega
    have hsum := sumOf_tree htable t hplaced.cons.1 hfirst hcache fun x hx =>
      hfresh x (List.mem_append_left _ hx)
    have hsums := addSums_trees htable ts (total + t.samples) hplaced.cons.2 hrest hsum.cache
      fun x hx => by
        rw [hsum.computing]
        exact hfresh x (List.mem_append_right _ hx)
    rw [List.map_cons, addSums, hsum.total]
    refine ⟨hsums.total.trans ?_, hsums.computing.trans hsum.computing, hsums.cache⟩
    rw [samplesAll, Nat.add_assoc]
end

end Sums

/-! ## The walk down -/

def addLink (edges : KeyedMap JsString Nat) (l : Link) : KeyedMap JsString Nat := addEdge edges l.1.1 l.1.2 l.2

/-- Between two roots nothing is being computed and nothing wrong is cached. -/
structure Between (table : List (Int × Nat)) (s : Sums) : Prop where
  idle : s.computing = []
  cache : CacheOk table s

theorem SumsTo.between {table : List (Int × Nat)} {s : Sums} {total : Nat} {r : Nat × Sums}
    (h : SumsTo table s total r) (hs : Between table s) : Between table r.2 :=
  ⟨h.computing.trans hs.idle, h.cache⟩

/-- The sum of a tree whose nodes are not being summed. -/
theorem Between.sumOf {nodes : KeyedMap Int ProfileNode} {table : List (Int × Nat)} {s : Sums}
    (hs : Between table s) (cachesMissing : Bool) (htable : (table.map Prod.fst).Nodup) {t : CallTree} {fuel : Nat}
    (ht : Placed nodes table t.nodes t.totals) (hfuel : t.nodes.length ≤ fuel) :
    SumsTo table s t.samples (sumOf cachesMissing nodes fuel t.id s) := by
  refine sumOf_tree htable t ht hfuel hs.cache fun x _ => ?_
  rw [hs.idle]
  exact List.not_mem_nil

/-- A walk that met these nodes and added these links. -/
structure Walked (table : List (Int × Nat)) (w : Walk) (met : List ProfileNode) (added : List Link) (w' : Walk) :
    Prop where
  visited : ∀ id, id ∈ w'.visited ↔ id ∈ w.visited ∨ id ∈ met.map ProfileNode.id
  sums : Between table w'.sums
  edges : w'.edges = added.foldl addLink w.edges

section Walk
variable {nameOf : CallFrame → Option JsString} {nodes : KeyedMap Int ProfileNode} {table : List (Int × Nat)}

theorem enter_tree (htable : (table.map Prod.fst).Nodup) {t : CallTree} {depth : Nat} {w : Walk}
    (ht : Placed nodes table t.nodes t.totals) (hdepth : t.nodes.length ≤ depth) (hw : Between table w.sums)
    (caller name : Option JsString) : Walked table w [] (ownLink caller name t.samples)
      (enter nodes depth caller name t.id w) := by
  cases name with
  | none => exact ⟨by simp [enter], hw, rfl⟩
  | some name =>
    cases caller with
    | none => exact ⟨by simp [enter], hw, rfl⟩
    | some caller =>
      have hsum := hw.sumOf true htable ht hdepth
      refine ⟨by simp [enter], hsum.between hw, ?_⟩
      simp only [enter, hsum.total]
      rfl

mutual
theorem walk_tree (htable : (table.map Prod.fst).Nodup) : (t : CallTree) → (caller : Option JsString) →
    {depth fuel : Nat} → {w : Walk} → Placed nodes table t.nodes t.totals → t.nodes.length ≤ depth →
    t.nodes.length ≤ fuel → Between table w.sums → (∀ x ∈ t.nodes, x.id ∉ w.visited) →
    Walked table w t.nodes (t.links nameOf caller) (walk nameOf nodes depth fuel caller t.id w)
  | .node id frame hits calls, caller, depth, fuel, w, ht, hdepth, hfuel, hw, hfresh => by
    have hdepth' := hdepth
    rw [CallTree.nodes_node] at hfuel hdepth' hfresh
    rw [List.length_cons] at hfuel hdepth'
    obtain ⟨fuel, rfl⟩ : ∃ k, fuel = k + 1 := ⟨fuel - 1, by omega⟩
    obtain ⟨n, hget, hframe, -, hcalls⟩ := ht.root
    have hroot : id ∉ w.visited := hfresh _ List.mem_cons_self
    have henter := enter_tree htable (w := { w with visited := id :: w.visited }) ht hdepth hw caller (nameOf frame)
    have hcallsDepth : (nodesAll calls).length ≤ depth := by omega
    have hcallsFuel : (nodesAll calls).length ≤ fuel := by omega
    have hrest := walk_trees htable calls ((nameOf frame).or caller) ht.calls hcallsDepth
      hcallsFuel henter.sums fun x hx => by
        rw [henter.visited, List.mem_cons, not_or, not_or]
        exact ⟨⟨ht.root_fresh x hx, hfresh x (List.mem_cons_of_mem _ hx)⟩, by simp⟩
    simp only [CallTree.id] at henter hrest
    simp only [CallTree.id, walk, hroot, if_false, hget, hframe, hcalls]
    refine ⟨fun id' => ?_, hrest.sums, ?_⟩
    · rw [hrest.visited, henter.visited, CallTree.nodes_node, List.map_cons, List.map_nil, List.mem_cons, List.mem_cons]
      tauto
    · rw [hrest.edges, henter.edges, CallTree.links, List.foldl_append]
theorem walk_trees (htable : (table.map Prod.fst).Nodup) : (ts : List CallTree) → (caller : Option JsString) →
    {depth fuel : Nat} → {w : Walk} → Placed nodes table (nodesAll ts) (totalsAll ts) →
    (nodesAll ts).length ≤ depth → (nodesAll ts).length ≤ fuel → Between table w.sums →
    (∀ x ∈ nodesAll ts, x.id ∉ w.visited) →
    Walked table w (nodesAll ts) (linksAll nameOf caller ts)
      ((ts.map CallTree.id).foldl (fun w c => walk nameOf nodes depth fuel caller c w) w)
  | [], _, _, _, _, _, _, _, hw, _ => ⟨by simp [nodesAll, subtreesAll], hw, rfl⟩
  | t :: ts, caller, depth, fuel, w, ht, hdepth, hfuel, hw, hfresh => by
    rw [CallTree.nodesAll_cons] at hfuel hdepth hfresh
    rw [List.length_append] at hfuel hdepth
    have hlength : ∀ k, t.nodes.length + (nodesAll ts).length ≤ k →
        t.nodes.length ≤ k ∧ (nodesAll ts).length ≤ k := by omega
    have hfirst := walk_tree htable t caller ht.cons.1 (hlength _ hdepth).1 (hlength _ hfuel).1 hw
      fun x hx => hfresh x (List.mem_append_left _ hx)
    have hrest := walk_trees htable ts caller ht.cons.2 (hlength _ hdepth).2 (hlength _ hfuel).2
      hfirst.sums fun x hx => by
        rw [hfirst.visited, not_or]
        refine ⟨hfresh x (List.mem_append_right _ hx), fun hmem => ?_⟩
        -- an id of the rest is none of the first tree
        have hnodup := ht.nodup
        rw [CallTree.nodesAll_cons, List.map_append] at hnodup
        exact (List.nodup_append.1 hnodup).2.2 _ hmem _ (List.mem_map_of_mem hx) rfl
    refine ⟨fun id' => ?_, hrest.sums, ?_⟩
    · rw [List.map_cons, List.foldl_cons, hrest.visited, hfirst.visited, CallTree.nodesAll_cons, List.map_append,
        List.mem_append, or_assoc]
    · rw [List.map_cons, List.foldl_cons, hrest.edges, hfirst.edges, linksAll, List.foldl_append]
end

end Walk

/-! ## Listings -/

/-- The profile lists the calls of the forest, in any order, each under an id of its own. -/
structure Lists (nodes : List ProfileNode) (forest : List CallTree) : Prop where
  perm : (nodes.map ProfileNode.plain).Perm (nodesAll forest)
  nodup : (nodes.map ProfileNode.id).Nodup

theorem byId_get {nodes : List ProfileNode} (hnodup : (nodes.map ProfileNode.id).Nodup) {n : ProfileNode} (hn : n ∈ nodes) :
    (byId nodes).get n.id = some n := by
  have hmem : n ∈ nodes.filter (·.id = n.id) := List.mem_filter.2 ⟨hn, by simp⟩
  have hlast : (nodes.filter (·.id = n.id)).getLast? = some n := by
    rw [List.getLast?_eq_some_getLast (List.ne_nil_of_mem hmem)]
    obtain ⟨hl, hid⟩ := List.mem_filter.1 (List.getLast_mem (List.ne_nil_of_mem hmem))
    exact congrArg some (List.inj_on_of_nodup_map hnodup hl hn (of_decide_eq_true hid))
  have hget := KeyedMap.get_foldl_set_by ProfileNode.id (fun m => m) nodes .empty n.id
  rw [hlast] at hget
  exact hget

namespace Lists
variable {nodes : List ProfileNode} {forest : List CallTree} (h : Lists nodes forest)
include h

theorem ids_nodup : ((subtreesAll forest).map CallTree.id).Nodup := by
  have hperm := h.perm.map ProfileNode.id
  rw [List.map_map, CallTree.ids_nodesAll] at hperm
  exact hperm.nodup_iff.1 h.nodup

theorem table_nodup : ((totalsAll forest).map Prod.fst).Nodup := by
  rw [CallTree.keys_totalsAll]
  exact h.ids_nodup

theorem length_eq : (nodesAll forest).length = nodes.length := by
  rw [← h.perm.length_eq, List.length_map]

theorem found {t : CallTree} (ht : t ∈ subtreesAll forest) : ∃ n ∈ nodes, n.plain = t.record := by
  have hmem : t.record ∈ nodesAll forest := List.mem_map_of_mem ht
  exact List.mem_map.1 (h.perm.mem_iff.2 hmem)

theorem get {t : CallTree} (ht : t ∈ subtreesAll forest) :
    ∃ n ∈ nodes, (byId nodes).get t.id = some n ∧ n.plain = t.record := by
  obtain ⟨n, hn, hplain⟩ := h.found ht
  exact ⟨n, hn, id_of_plain hplain ▸ byId_get h.nodup hn, hplain⟩

theorem placed : Placed (byId nodes) (totalsAll forest) (nodesAll forest)
    (totalsAll forest) where
  found x hx := by
    obtain ⟨t, ht, rfl⟩ := List.mem_map.1 hx
    obtain ⟨n, -, hget, hplain⟩ := h.get ht
    exact ⟨n, by rw [t.id_record]; exact hget, hplain⟩
  nodup := by
    rw [CallTree.ids_nodesAll]
    exact h.ids_nodup
  known := List.Subset.refl _

theorem placed_subtree {t : CallTree} (ht : t ∈ subtreesAll forest) :
    Placed (byId nodes) (totalsAll forest) t.nodes t.totals ∧ t.nodes.length ≤ nodes.length := by
  have hsub := CallTree.subtreesAll_sublist forest t ht
  have hnodes : t.nodes.Sublist (nodesAll forest) := hsub.map _
  have htotals : t.totals.Sublist (totalsAll forest) := hsub.map _
  refine ⟨⟨fun x hx => h.placed.found x (hnodes.subset hx), ?_, htotals.subset⟩, ?_⟩
  · exact (hnodes.map ProfileNode.id).nodup h.placed.nodup
  · rw [← h.length_eq]
    exact hnodes.length_le

/-- What is known of each call, in the order of the listing. -/
theorem exists_order {α : Type} {f : α → CallTree} {xs : List α} (hxs : xs.map f = subtreesAll forest) :
    ∃ us : List α, us.Perm xs ∧ List.Forall₂ (fun n u => ProfileNode.plain n = (f u).record) nodes us := by
  have hrecords : List.Forall₂ (fun x u => x = (f u).record) (nodesAll forest) xs := by
    rw [nodesAll, ← hxs, List.map_map, List.forall₂_map_left_iff]
    exact List.forall₂_same.2 fun _ _ => rfl
  obtain ⟨us, hus, hperm⟩ := List.perm_comp_forall₂ h.perm hrecords
  exact ⟨us, hperm, List.forall₂_map_left_iff.1 hus⟩

theorem mem_childIds {id : Int} : id ∈ childIds nodes ↔ ∃ u ∈ subtreesAll forest, id ∈ u.calls.map CallTree.id := by
  simp only [childIds, List.mem_flatMap]
  constructor
  · rintro ⟨n, hn, hid⟩
    have hmem := h.perm.mem_iff.1 (List.mem_map_of_mem hn)
    obtain ⟨u, hu, hrecord⟩ := List.mem_map.1 hmem
    exact ⟨u, hu, calls_of_plain hrecord.symm ▸ hid⟩
  · rintro ⟨u, hu, hid⟩
    obtain ⟨n, hn, hplain⟩ := h.found hu
    exact ⟨n, hn, calls_of_plain hplain ▸ hid⟩

/-- The roots are the calls that no call lists. -/
theorem root_iff {t : CallTree} (ht : t ∈ subtreesAll forest) : t ∈ forest ↔ t.id ∉ childIds nodes := by
  have hsplit := (CallTree.ids_subtreesAll forest).nodup_iff.1 h.ids_nodup
  obtain ⟨-, -, hapart⟩ := List.nodup_append.1 hsplit
  rw [h.mem_childIds]
  constructor
  · rintro hroot ⟨u, hu, hid⟩
    exact hapart t.id (List.mem_map_of_mem hroot) t.id (List.mem_flatMap.2 ⟨u, hu, hid⟩) rfl
  · intro hnot
    have hmem := (CallTree.ids_subtreesAll forest).mem_iff.1 (List.mem_map_of_mem (f := CallTree.id) ht)
    rcases List.mem_append.1 hmem with hmem | hmem
    · obtain ⟨u, hu, hid⟩ := List.mem_map.1 hmem
      have heq := List.inj_on_of_nodup_map h.ids_nodup (CallTree.mem_subtreesAll hu) ht hid
      exact heq ▸ hu
    · exact absurd (List.mem_flatMap.1 hmem) hnot

/-- The roots in the order in which the walk takes them. -/
theorem exists_roots : ∃ roots : List CallTree, roots.Perm forest ∧
    (nodes.filter fun n => n.id ∉ childIds nodes).map ProfileNode.id = roots.map CallTree.id := by
  obtain ⟨us, hperm, hus⟩ := h.exists_order (List.map_id _)
  refine ⟨us.filter fun u => u.id ∉ childIds nodes, ?_, ?_⟩
  · have hforest : (forest.map CallTree.id).Nodup :=
      ((CallTree.ids_subtreesAll forest).nodup_iff.1 h.ids_nodup).of_append_left
    have hnodup : us.Nodup := (hperm.map CallTree.id).nodup_iff.2 h.ids_nodup |>.of_map
    refine (List.perm_ext_iff_of_nodup (hnodup.filter _) hforest.of_map).2 fun t => ?_
    rw [List.mem_filter, hperm.mem_iff, decide_eq_true_eq]
    constructor
    · rintro ⟨ht, hid⟩
      exact (h.root_iff ht).2 hid
    · intro ht
      exact ⟨CallTree.mem_subtreesAll ht, (h.root_iff (CallTree.mem_subtreesAll ht)).1 ht⟩
  · generalize childIds nodes = children
    clear hperm h
    induction hus with
    | nil => rfl
    | @cons n u _ _ hplain _ ih =>
      have hid : n.id = u.id := id_of_plain hplain
      rw [List.filter_cons, List.filter_cons, hid]
      split
      · rw [List.map_cons, List.map_cons, ih, hid]
      · exact ih

end Lists

/-! ## The rows -/

def NulFree (l : Link) : Prop := 0 ∉ l.1.1 ∧ 0 ∉ l.1.2

theorem splitEdgeKey_edgeKey {src dst : JsString} (hsrc : 0 ∉ src) (hdst : 0 ∉ dst) : splitEdgeKey (edgeKey src dst) = (src, dst) := by
  have hall : ∀ {s : JsString}, 0 ∉ s → ∀ c ∈ s, decide (c ≠ 0) = true := fun hs c hc =>
    decide_eq_true fun h => hs (h ▸ hc)
  rw [splitEdgeKey, edgeKey, List.takeWhile_append_of_pos (hall hsrc), List.dropWhile_append_of_pos (hall hsrc)]
  have hself : dst.takeWhile (· ≠ 0) = dst := List.takeWhile_eq_self_iff.2 (hall hdst)
  simpa using hself

theorem edgeKey_inj {src dst src' dst' : JsString} (h : 0 ∉ src ∧ 0 ∉ dst) (h' : 0 ∉ src' ∧ 0 ∉ dst') :
    edgeKey src dst = edgeKey src' dst' ↔ (src, dst) = (src', dst') := by
  constructor
  · intro heq
    rw [← splitEdgeKey_edgeKey h.1 h.2, heq, splitEdgeKey_edgeKey h'.1 h'.2]
  · intro heq
    obtain ⟨rfl, rfl⟩ := Prod.mk.inj heq
    rfl

/-- What the links with these ends add up to. -/
def linkCount (links : List Link) (src dst : JsString) : Nat := sumAt Prod.fst Prod.snd links (src, dst)

/-- The links between different functions. -/
def apart (links : List Link) : List Link := links.filter fun l => l.1.1 ≠ l.1.2

theorem addLinks_eq (links : List Link) (edges : KeyedMap JsString Nat) :
    links.foldl addLink edges =
      ((apart links).filter fun l => 0 < l.2).foldl (fun m l => tally m (edgeKey l.1.1 l.1.2) l.2) edges := by
  induction links generalizing edges with
  | nil => rfl
  | cons l links ih =>
    rw [List.foldl_cons, ih, apart, apart, List.filter_cons, addLink, addEdge]
    by_cases hsame : l.1.1 = l.1.2
    · simp [hsame]
    · by_cases hpos : 0 < l.2
      · simp [hsame, hpos, Nat.not_le.2 hpos]
      · simp [hsame, hpos, Nat.not_lt.1 hpos]

/-- An edge is in the map under its two names, with its count, exactly when it was sampled. -/
theorem get_addLinks {links : List Link} (hfree : ∀ l ∈ links, NulFree l) {src dst : JsString} (h : 0 ∉ src ∧ 0 ∉ dst) :
    (links.foldl addLink .empty).get (edgeKey src dst) =
      if src ≠ dst ∧ 0 < linkCount links src dst then some (linkCount links src dst) else none := by
  have hsum : sumAt (fun l : Link => edgeKey l.1.1 l.1.2) Prod.snd (apart links) (edgeKey src dst) =
      if src ≠ dst then linkCount links src dst else 0 := by
    unfold apart linkCount
    induction links with
    | nil => simp
    | cons l links ih =>
      obtain ⟨hl, hfree⟩ := List.forall_mem_cons.1 hfree
      have hkey : edgeKey l.1.1 l.1.2 = edgeKey src dst ↔ l.1 = (src, dst) := edgeKey_inj hl h
      rw [List.filter_cons, sumAt_cons]
      by_cases heq : l.1 = (src, dst)
      · by_cases hne : src = dst
        · simpa [heq, hne] using ih hfree
        · simpa [heq, hne, sumAt_cons] using ih hfree
      · rw [if_neg heq, Nat.zero_add, ← ih hfree]
        split
        · rw [sumAt_cons, if_neg fun hsame => heq (hkey.1 hsame), Nat.zero_add]
        · rfl
  rw [addLinks_eq, get_tally_empty (fun l : Link => edgeKey l.1.1 l.1.2) Prod.snd, total_filter_pos, hsum]
  by_cases hne : src = dst <;> simp [hne]

/-- Nothing else is in the map. -/
theorem exists_of_get_addLinks {links : List Link} (hfree : ∀ l ∈ links, NulFree l) {k : JsString} {count : Nat}
    (h : (links.foldl addLink .empty).get k = some count) : ∃ src dst, (0 ∉ src ∧ 0 ∉ dst) ∧ k = edgeKey src dst := by
  rw [addLinks_eq, get_tally_empty (fun l : Link => edgeKey l.1.1 l.1.2) Prod.snd] at h
  by_contra hnone
  have htotal : total (fun l : Link => edgeKey l.1.1 l.1.2) Prod.snd ((apart links).filter fun l => 0 < l.2) k = none := by
    rw [total_eq_none]
    intro l hl heq
    exact hnone ⟨l.1.1, l.1.2, hfree l (List.mem_filter.1 (List.mem_filter.1 hl).1).1, heq.symm⟩
  rw [htotal] at h
  cases h

section Names
variable {P : JsString → Prop} {nameOf : CallFrame → Option JsString}

theorem names_ownLink {caller name : Option JsString} {samples : Nat} (hcaller : ∀ c ∈ caller, P c)
    (hname : ∀ c ∈ name, P c) : ∀ l ∈ ownLink caller name samples, P l.1.1 ∧ P l.1.2 := by
  intro l hl
  unfold ownLink at hl
  split at hl
  · rw [List.mem_singleton] at hl
    subst hl
    exact ⟨hcaller _ rfl, hname _ rfl⟩
  · cases hl

theorem names_or {caller : Option JsString} {frame : CallFrame} (hcaller : ∀ c ∈ caller, P c)
    (hname : ∀ c ∈ nameOf frame, P c) : ∀ c ∈ (nameOf frame).or caller, P c := by
  intro c hc
  rcases Option.or_eq_some_iff.1 hc with hc | ⟨-, hc⟩
  · exact hname c hc
  · exact hcaller c hc

mutual
theorem names_links : (t : CallTree) → {caller : Option JsString} → (∀ c ∈ caller, P c) →
    (∀ u ∈ t.subtrees, ∀ c ∈ nameOf u.frame, P c) → ∀ l ∈ t.links nameOf caller, P l.1.1 ∧ P l.1.2
  | .node id frame hits calls, caller, hcaller, hnames, l, hl => by
    rw [CallTree.subtrees, List.forall_mem_cons] at hnames
    rw [CallTree.links] at hl
    rcases List.mem_append.1 hl with hl | hl
    · exact names_ownLink hcaller hnames.1 l hl
    · exact names_linksAll calls (names_or hcaller hnames.1) hnames.2 l hl
theorem names_linksAll : (ts : List CallTree) → {caller : Option JsString} → (∀ c ∈ caller, P c) →
    (∀ u ∈ subtreesAll ts, ∀ c ∈ nameOf u.frame, P c) →
    ∀ l ∈ linksAll nameOf caller ts, P l.1.1 ∧ P l.1.2
  | t :: ts, caller, hcaller, hnames, l, hl => by
    rw [subtreesAll, List.forall_mem_append] at hnames
    rw [linksAll] at hl
    rcases List.mem_append.1 hl with hl | hl
    · exact names_links t hcaller hnames.1 l hl
    · exact names_linksAll ts hcaller hnames.2 l hl
end

end Names

/-! ## What the Bun collector sends -/

section Bun
variable {nameOf : CallFrame → Option JsString} {nodes : List ProfileNode} {forest : List CallTree}

/-- No name that the resolver gives has a NUL in it. -/
def NulFreeNames (nameOf : CallFrame → Option JsString) (nodes : List ProfileNode) : Prop :=
  ∀ n ∈ nodes, ∀ name ∈ nameOf n.callFrame, 0 ∉ name

theorem linksAll_eq (caller : Option JsString) (ts : List CallTree) :
    linksAll nameOf caller ts = ts.flatMap (CallTree.links nameOf caller) := by
  induction ts with
  | nil => rfl
  | cons t ts ih => rw [linksAll, ih, List.flatMap_cons]

/-- The ends of the links are names that the resolver gives. -/
theorem Lists.names {P : JsString → Prop} (h : Lists nodes forest)
    (hnames : ∀ n ∈ nodes, ∀ name ∈ nameOf n.callFrame, P name) :
    ∀ l ∈ linksAll nameOf none forest, P l.1.1 ∧ P l.1.2 := by
  apply names_linksAll
  · simp
  · intro u hu c hc
    obtain ⟨n, hn, hplain⟩ := h.found hu
    exact hnames n hn c (frame_of_plain hplain ▸ hc)

variable (nameOf) in
/-- The map after the walk is that of the links, in some order. -/
theorem deriveEdges_eq (h : Lists nodes forest) : ∃ links : List Link, links.Perm (linksAll nameOf none forest) ∧
    deriveEdges nameOf nodes = (links.foldl addLink .empty).entries.map fun e =>
      ⟨(splitEdgeKey e.1).1, (splitEdgeKey e.1).2, min e.2 uint16Ceiling⟩ := by
  obtain ⟨roots, hperm, hroots⟩ := h.exists_roots
  have hlists : Lists nodes roots := by
    refine ⟨h.perm.trans ?_, h.nodup⟩
    have hflat : ∀ ts, nodesAll ts = ts.flatMap CallTree.nodes := by
      intro ts
      induction ts with
      | nil => rfl
      | cons t ts ih => rw [CallTree.nodesAll_cons, ih, List.flatMap_cons]
    rw [hflat, hflat]
    exact (hperm.flatMap_right _).symm
  refine ⟨linksAll nameOf none roots, ?_, ?_⟩
  · rw [linksAll_eq, linksAll_eq]
    exact hperm.flatMap_right _
  · have hwalk : Walked (totalsAll roots) ⟨[], ⟨.empty, []⟩, .empty⟩ (nodesAll roots)
        (linksAll nameOf none roots) ((roots.map CallTree.id).foldl
          (fun w c => walk nameOf (byId nodes) nodes.length nodes.length none c w) ⟨[], ⟨.empty, []⟩, .empty⟩) :=
      walk_trees hlists.table_nodup roots none hlists.placed hlists.length_eq.le hlists.length_eq.le
        ⟨rfl, fun _ _ hget => by cases hget⟩ fun _ _ => List.not_mem_nil
    unfold deriveEdges
    rw [hroots]
    exact congrArg _ (congrArg KeyedMap.entries hwalk.edges)

/-- From a listing in any order, `deriveEdges` reports each pair of different functions once, exactly
those between which samples were taken, with the samples below all calls of the one by the other,
dropped frames between them left out, up to the ceiling. -/
theorem deriveEdges_exact (h : Lists nodes forest) (hnames : NulFreeNames nameOf nodes) :
    ((deriveEdges nameOf nodes).map fun e => (e.src, e.dst)).Nodup ∧ ∀ e, e ∈ deriveEdges nameOf nodes ↔
      e.src ≠ e.dst ∧ 0 < callsBetween nameOf forest e.src e.dst ∧
        e.observed = min (callsBetween nameOf forest e.src e.dst) uint16Ceiling := by
  obtain ⟨links, hperm, heq⟩ := deriveEdges_eq nameOf h
  have hall := h.names hnames
  have hfree : ∀ l ∈ links, NulFree l := fun l hl => hall l (hperm.mem_iff.1 hl)
  have hcount : ∀ src dst, linkCount links src dst = callsBetween nameOf forest src dst := fun src dst =>
    ((hperm.filter _).map _).sum_eq
  rw [heq]
  constructor
  · rw [List.map_map]
    refine List.Nodup.map_on ?_ (links.foldl addLink .empty).nodup.of_map
    rintro ⟨k, v⟩ hk ⟨k', v'⟩ hk' hsame
    obtain ⟨src, dst, hnul, rfl⟩ := exists_of_get_addLinks hfree (KeyedMap.get_eq_some.2 hk)
    obtain ⟨src', dst', hnul', rfl⟩ := exists_of_get_addLinks hfree (KeyedMap.get_eq_some.2 hk')
    simp only [Function.comp_apply, splitEdgeKey_edgeKey hnul.1 hnul.2,
      splitEdgeKey_edgeKey hnul'.1 hnul'.2] at hsame
    obtain ⟨rfl, rfl⟩ := Prod.mk.inj hsame
    have hvalue := (KeyedMap.get_eq_some.2 hk).symm.trans (KeyedMap.get_eq_some.2 hk')
    rw [Option.some.inj hvalue]
  · rintro ⟨src, dst, observed⟩
    rw [List.mem_map]
    constructor
    · rintro ⟨⟨k, v⟩, hk, hrow⟩
      have hget := KeyedMap.get_eq_some.2 hk
      obtain ⟨src', dst', hnul, rfl⟩ := exists_of_get_addLinks hfree hget
      simp only [splitEdgeKey_edgeKey hnul.1 hnul.2, DerivedEdge.mk.injEq] at hrow
      obtain ⟨rfl, rfl, rfl⟩ := hrow
      rw [get_addLinks hfree hnul, hcount] at hget
      split at hget
      · rename_i hlive
        obtain rfl := Option.some.inj hget
        exact ⟨hlive.1, hlive.2, rfl⟩
      · cases hget
    · rintro ⟨hne, hpos, hobserved⟩
      obtain rfl : observed = min (callsBetween nameOf forest src dst) uint16Ceiling := hobserved
      -- names between which samples were taken are names of the resolver
      have hnul : 0 ∉ src ∧ 0 ∉ dst := by
        obtain ⟨l, hl, hkey⟩ : ∃ l ∈ linksAll nameOf none forest, l.1 = (src, dst) := by
          by_contra hnone
          have hfilter : (linksAll nameOf none forest).filter (fun l => l.1 = (src, dst)) = [] := by
            rw [List.filter_eq_nil_iff]
            intro l hl hkey
            exact hnone ⟨l, hl, of_decide_eq_true hkey⟩
          rw [callsBetween, sumAt, hfilter] at hpos
          exact absurd hpos (by simp)
        have hnul := hall l hl
        rw [hkey] at hnul
        exact hnul
      have hget := get_addLinks hfree hnul
      rw [hcount, if_pos ⟨hne, hpos⟩] at hget
      exact ⟨_, KeyedMap.get_eq_some.1 hget, by simp only [splitEdgeKey_edgeKey hnul.1 hnul.2]⟩

end Bun

/-! ## Coverage -/

section Coverage
variable {nameOf : CallFrame → Option JsString} {nodes : List ProfileNode} {forest : List CallTree}

/-- How many samples were taken below all calls of a function. -/
def coverCount (nameOf : CallFrame → Option JsString) (calls : List CallTree) (name : JsString) : Nat :=
  sumAt Prod.fst Prod.snd (calls.filterMap fun u => (nameOf u.frame).map fun name => (name, u.samples)) name

variable (nameOf) in
theorem cover_calls (h : Lists nodes forest) {ns : List ProfileNode} {us : List CallTree}
    (hforall : List.Forall₂ (fun n u => ProfileNode.plain n = u.record) ns us)
    (hus : ∀ u ∈ us, u ∈ subtreesAll forest) {r : Sums × KeyedMap JsString Nat}
    (hr : Between (totalsAll forest) r.1) : (ns.foldl (cover nameOf (byId nodes) nodes.length) r).2 =
      ((us.filterMap fun u => (nameOf u.frame).map fun name => (name, u.samples)).filter fun p => 0 < p.2).foldl
        (fun m p => tally m p.1 p.2) r.2 := by
  induction hforall generalizing r with
  | nil => rfl
  | @cons n u ns us hplain _ ih =>
    obtain ⟨hu, hus⟩ := List.forall_mem_cons.1 hus
    obtain ⟨hplaced, hlength⟩ := h.placed_subtree hu
    have hsum := hr.sumOf true h.table_nodup hplaced hlength
    rw [List.foldl_cons, List.filterMap_cons]
    cases hname : nameOf u.frame with
    | none =>
      have hstep : cover nameOf (byId nodes) nodes.length r n = r := by
        simp only [cover, frame_of_plain hplain, hname]
      rw [hstep]
      exact ih hus hr
    | some name =>
      have hstep : cover nameOf (byId nodes) nodes.length r n =
          ((sumOf true (byId nodes) nodes.length u.id r.1).2, if u.samples ≤ 0 then r.2 else tally r.2 name u.samples) := by
        simp only [cover, frame_of_plain hplain, hname, id_of_plain hplain, hsum.total]
      rw [hstep, ih hus (hsum.between hr), Option.map_some, List.filter_cons]
      by_cases hpos : 0 < u.samples
      · simp [hpos, Nat.not_le.2 hpos]
      · simp [hpos, Nat.not_lt.1 hpos]

/-- From a listing in any order, `deriveCoverage` reports each function below whose calls samples were
taken once, with their number up to the ceiling, whether or not a kept function called it. -/
theorem deriveCoverage_exact (h : Lists nodes forest) :
    ((deriveCoverage nameOf nodes).map CoveredName.name).Nodup ∧ ∀ e, e ∈ deriveCoverage nameOf nodes ↔
      0 < coverCount nameOf (subtreesAll forest) e.name ∧
        e.observed = min (coverCount nameOf (subtreesAll forest) e.name) uint16Ceiling := by
  obtain ⟨us, hperm, hus⟩ := h.exists_order (List.map_id _)
  have hmem : ∀ u ∈ us, u ∈ subtreesAll forest := fun u hu => hperm.mem_iff.1 hu
  have hrun := cover_calls nameOf h hus hmem (r := (⟨.empty, []⟩, .empty)) ⟨rfl, fun _ _ hget => by cases hget⟩
  have hget : ∀ name, (nodes.foldl (cover nameOf (byId nodes) nodes.length) (⟨.empty, []⟩, .empty)).2.get name =
      if 0 < coverCount nameOf (subtreesAll forest) name then
        some (coverCount nameOf (subtreesAll forest) name) else none := by
    intro name
    have hcount : coverCount nameOf us name = coverCount nameOf (subtreesAll forest) name :=
      (((hperm.filterMap _).filter _).map _).sum_eq
    rw [hrun, get_tally_empty (fun p : JsString × Nat => p.1) Prod.snd, total_filter_pos, ← hcount]
    rfl
  simp only [deriveCoverage]
  constructor
  · rw [List.map_map]
    exact (nodes.foldl (cover nameOf (byId nodes) nodes.length) (⟨.empty, []⟩, .empty)).2.nodup
  · rintro ⟨name, observed⟩
    simp only [List.mem_map, Prod.exists, ← KeyedMap.get_eq_some, hget, CoveredName.mk.injEq]
    constructor
    · rintro ⟨name', count, hcount, rfl, rfl⟩
      split at hcount
      · rename_i hpos
        exact ⟨hpos, by rw [Option.some.inj hcount]⟩
      · cases hcount
    · rintro ⟨hpos, rfl⟩
      exact ⟨name, _, if_pos hpos, rfl, rfl⟩

end Coverage

/-! ## The climb -/

section Climb
variable (nameOf : CallFrame → Option JsString)

mutual
/-- The calls of a tree, each with the name of the nearest kept frame from it up. -/
def CallTree.named (caller : Option JsString) : CallTree → List (CallTree × Option JsString)
  | .node id frame hits calls =>
    (.node id frame hits calls, (nameOf frame).or caller) :: namedAll ((nameOf frame).or caller) calls
def namedAll (caller : Option JsString) : List CallTree → List (CallTree × Option JsString)
  | [] => []
  | t :: ts => t.named caller ++ namedAll caller ts
end

/-- The links into what a function calls. -/
def linksInto (p : CallTree × Option JsString) : List Link :=
  p.1.calls.flatMap fun c => ownLink p.2 (nameOf c.frame) c.samples

mutual
theorem fst_named : (t : CallTree) → (caller : Option JsString) → (t.named nameOf caller).map Prod.fst = t.subtrees
  | .node _ _ _ calls, caller => by
    rw [CallTree.named, CallTree.subtrees, List.map_cons, fst_namedAll calls]
theorem fst_namedAll : (ts : List CallTree) → (caller : Option JsString) →
    (namedAll nameOf caller ts).map Prod.fst = subtreesAll ts
  | [], _ => rfl
  | t :: ts, caller => by
    rw [namedAll, subtreesAll, List.map_append, fst_named t, fst_namedAll ts]
end

mutual
/-- The walk's links, caller by caller. -/
theorem links_perm : (t : CallTree) → (caller : Option JsString) → (t.links nameOf caller).Perm
    (ownLink caller (nameOf t.frame) t.samples ++ (t.named nameOf caller).flatMap (linksInto nameOf))
  | .node id frame hits calls, caller => by
    rw [CallTree.links, CallTree.named, List.flatMap_cons]
    exact (linksAll_perm calls _).append_left _
theorem linksAll_perm : (ts : List CallTree) → (caller : Option JsString) → (linksAll nameOf caller ts).Perm
    (ts.flatMap (fun t => ownLink caller (nameOf t.frame) t.samples) ++
      (namedAll nameOf caller ts).flatMap (linksInto nameOf))
  | [], _ => List.Perm.refl _
  | t :: ts, caller => by
    rw [linksAll, namedAll, List.flatMap_cons, List.flatMap_append, List.append_assoc]
    refine ((links_perm t caller).append (linksAll_perm ts caller)).trans ?_
    rw [List.append_assoc]
    exact (List.perm_append_comm_assoc _ _ _).append_left _
end

variable {nameOf} {nodes : KeyedMap Int ProfileNode} {parents : KeyedMap Int Int}

/-- From there up, past ids that were not met before, the climb finds this name. -/
def ClimbsTo (nameOf : CallFrame → Option JsString) (nodes : KeyedMap Int ProfileNode) (parents : KeyedMap Int Int)
    (start : Option ProfileNode) (path : List Int) (name : Option JsString) : Prop :=
  ∀ fuel seen, path.length ≤ fuel → (∀ i ∈ path, i ∉ seen) → start.bind (nearestKept nameOf nodes parents fuel seen) = name

theorem ClimbsTo.child {n : ProfileNode} {id : Int} {path : List Int} {caller : Option JsString}
    (hup : ClimbsTo nameOf nodes parents ((parents.get id).bind nodes.get) path caller) (hid : n.id = id)
    (hfresh : id ∉ path) : ClimbsTo nameOf nodes parents (some n) (id :: path) ((nameOf n.callFrame).or caller) := by
  intro fuel seen hfuel hseen
  rw [List.length_cons] at hfuel
  obtain ⟨fuel, rfl⟩ : ∃ k, fuel = k + 1 := ⟨fuel - 1, by omega⟩
  have hroot : id ∉ seen := hseen id List.mem_cons_self
  rw [Option.bind_some, nearestKept, hid, if_neg hroot]
  cases nameOf n.callFrame with
  | some name => rfl
  | none =>
    have hrest := hup fuel (id :: seen) (by omega) fun i hi => by
      rw [List.mem_cons, not_or]
      exact ⟨fun heq => hfresh (heq ▸ hi), hseen i (List.mem_cons_of_mem _ hi)⟩
    rw [Option.none_or, ← hrest]
    cases (parents.get id).bind nodes.get <;> rfl

/-- The nodes of these calls are there, and each is the parent of what it calls. -/
structure Indexed (nodes : KeyedMap Int ProfileNode) (parents : KeyedMap Int Int) (us : List CallTree) : Prop where
  found : ∀ u ∈ us, ∃ n, nodes.get u.id = some n ∧ n.plain = u.record
  parent : ∀ u ∈ us, ∀ c ∈ u.calls, parents.get c.id = some u.id
  nodup : (us.map CallTree.id).Nodup

theorem Indexed.sublist {us vs : List CallTree} (h : Indexed nodes parents us) (hsub : vs.Sublist us) :
    Indexed nodes parents vs :=
  ⟨fun u hu => h.found u (hsub.subset hu), fun u hu => h.parent u (hsub.subset hu), (hsub.map _).nodup h.nodup⟩

mutual
theorem climb_tree : (t : CallTree) → {caller : Option JsString} → {path : List Int} →
    Indexed nodes parents t.subtrees → (∀ u ∈ t.subtrees, u.id ∉ path) →
    ClimbsTo nameOf nodes parents ((parents.get t.id).bind nodes.get) path caller →
    ∀ p ∈ t.named nameOf caller, ∃ n path', nodes.get p.1.id = some n ∧
      path'.length ≤ path.length + t.subtrees.length ∧ ClimbsTo nameOf nodes parents (some n) path' p.2
  | .node id frame hits calls, caller, path, hindexed, hfresh, hup, p, hp => by
    rw [CallTree.subtrees] at hindexed hfresh
    obtain ⟨n, hget, hplain⟩ := hindexed.found _ List.mem_cons_self
    obtain ⟨hid, hframe, -⟩ := ProfileNode.mk.inj hplain
    have hself := hup.child hid (hfresh _ List.mem_cons_self)
    rw [hframe] at hself
    rw [CallTree.named] at hp
    rw [CallTree.subtrees, List.length_cons]
    rcases List.mem_cons.1 hp with rfl | hp
    · exact ⟨n, id :: path, hget, by rw [List.length_cons]; omega, hself⟩
    · have hids := hindexed.nodup
      rw [List.map_cons, List.nodup_cons] at hids
      obtain ⟨n', path', hget', hlength, hclimb⟩ := climb_trees calls
        (hindexed.sublist (List.sublist_cons_self _ _))
        (fun u hu => by
          rw [List.mem_cons, not_or]
          exact ⟨fun heq => hids.1 (List.mem_map.2 ⟨u, hu, heq⟩), hfresh u (List.mem_cons_of_mem _ hu)⟩)
        (fun c hc => by
          rw [hindexed.parent _ List.mem_cons_self c hc, Option.bind_some]
          exact hget ▸ hself) p hp
      rw [List.length_cons] at hlength
      exact ⟨n', path', hget', by omega, hclimb⟩
theorem climb_trees : (ts : List CallTree) → {caller : Option JsString} → {path : List Int} →
    Indexed nodes parents (subtreesAll ts) → (∀ u ∈ subtreesAll ts, u.id ∉ path) →
    (∀ t ∈ ts, ClimbsTo nameOf nodes parents ((parents.get t.id).bind nodes.get) path caller) →
    ∀ p ∈ namedAll nameOf caller ts, ∃ n path', nodes.get p.1.id = some n ∧
      path'.length ≤ path.length + (subtreesAll ts).length ∧ ClimbsTo nameOf nodes parents (some n) path' p.2
  | t :: ts, caller, path, hindexed, hfresh, hup, p, hp => by
    rw [subtreesAll] at hindexed hfresh ⊢
    rw [List.length_append]
    rw [namedAll] at hp
    rcases List.mem_append.1 hp with hp | hp
    · obtain ⟨n, path', hget, hlength, hclimb⟩ := climb_tree t (hindexed.sublist (List.sublist_append_left _ _))
        (fun u hu => hfresh u (List.mem_append_left _ hu)) (hup t List.mem_cons_self) p hp
      exact ⟨n, path', hget, by omega, hclimb⟩
    · obtain ⟨n, path', hget, hlength, hclimb⟩ := climb_trees ts (hindexed.sublist (List.sublist_append_right _ _))
        (fun u hu => hfresh u (List.mem_append_right _ hu)) (fun t' ht => hup t' (List.mem_cons_of_mem _ ht)) p hp
      exact ⟨n, path', hget, by omega, hclimb⟩
end

/-- Where no two nodes list an id, its parent is the one that does. -/
theorem get_parents {l : List ProfileNode} {c p : Int} (hunique : ∀ n ∈ l, c ∈ n.calls → n.id = p) (m : KeyedMap Int Int) :
    (l.foldl (fun m n => n.calls.foldl (fun m c => m.set c n.id) m) m).get c =
      if ∃ n ∈ l, c ∈ n.calls then some p else m.get c := by
  have hinner : ∀ (cs : List Int) (id : Int) (m : KeyedMap Int Int),
      (cs.foldl (fun m c => m.set c id) m).get c = if c ∈ cs then some id else m.get c := by
    intro cs id m
    induction cs generalizing m with
    | nil => simp
    | cons c' cs ih =>
      rw [List.foldl_cons, ih, KeyedMap.get_set]
      by_cases hc : c ∈ cs
      · simp [hc]
      · by_cases heq : c' = c
        · simp [heq]
        · simp [hc, heq, Ne.symm heq]
  induction l generalizing m with
  | nil => simp
  | cons n l ih =>
    obtain ⟨hn, hl⟩ := List.forall_mem_cons.1 hunique
    rw [List.foldl_cons, ih hl, hinner]
    by_cases hrest : ∃ n ∈ l, c ∈ n.calls
    · simp [hrest]
    · by_cases hc : c ∈ n.calls
      · simp [hc, hn hc]
      · simp [hrest, hc]

end Climb

/-! ## What the browser collector sends -/

theorem mem_byId_values {nodes : List ProfileNode} (hnodup : (nodes.map ProfileNode.id).Nodup) {n : ProfileNode} :
    n ∈ (byId nodes).values ↔ n ∈ nodes := by
  rw [KeyedMap.mem_values]
  constructor
  · rintro ⟨k, hk⟩
    have hget := KeyedMap.get_foldl_set_by ProfileNode.id (fun m => m) nodes .empty k
    rw [show nodes.foldl (fun m n => m.set n.id n) .empty = byId nodes from rfl, hk, KeyedMap.get_empty, Option.or_none,
      Option.map_id'] at hget
    exact (List.mem_filter.1 (List.mem_of_getLast? hget.symm)).1
  · intro hn
    exact ⟨n.id, byId_get hnodup hn⟩

namespace Lists
variable {nodes : List ProfileNode} {forest : List CallTree} (h : Lists nodes forest)
include h

/-- One call has one caller. -/
theorem caller_unique {u v c : CallTree} (hu : u ∈ subtreesAll forest) (hv : v ∈ subtreesAll forest)
    (hcu : c.id ∈ u.calls.map CallTree.id) (hcv : c.id ∈ v.calls.map CallTree.id) : u = v := by
  have hsplit := (CallTree.ids_subtreesAll forest).nodup_iff.1 h.ids_nodup
  obtain ⟨-, hpairs⟩ := List.nodup_flatMap.1 hsplit.of_append_right
  by_contra hne
  have hsym : Std.Symm (Function.onFun List.Disjoint fun u : CallTree => u.calls.map CallTree.id) :=
    ⟨fun _ _ hd _ hx hy => hd hy hx⟩
  exact hpairs.forall hu hv hne hcu hcv

theorem parent_get {u c : CallTree} (hu : u ∈ subtreesAll forest) (hc : c ∈ u.calls) :
    (parentIndex (byId nodes)).get c.id = some u.id := by
  have hcid : c.id ∈ u.calls.map CallTree.id := List.mem_map_of_mem hc
  obtain ⟨n, hn, hplain⟩ := h.found hu
  rw [parentIndex, get_parents (p := u.id), if_pos]
  · exact ⟨n, (mem_byId_values h.nodup).2 hn, by rw [calls_of_plain hplain]; exact hcid⟩
  · intro m hm hcm
    have hmem := h.perm.mem_iff.1 (List.mem_map_of_mem ((mem_byId_values h.nodup).1 hm))
    obtain ⟨v, hv, hrecord⟩ := List.mem_map.1 hmem
    rw [calls_of_plain hrecord.symm] at hcm
    rw [h.caller_unique hu hv hcid hcm]
    exact id_of_plain hrecord.symm

theorem parent_root {t : CallTree} (ht : t ∈ forest) : (parentIndex (byId nodes)).get t.id = none := by
  have hnone : ¬ ∃ n ∈ (byId nodes).values, t.id ∈ n.calls := by
    rintro ⟨n, hn, hid⟩
    apply (h.root_iff (CallTree.mem_subtreesAll ht)).1 ht
    exact List.mem_flatMap.2 ⟨n, (mem_byId_values h.nodup).1 hn, hid⟩
  rw [parentIndex, get_parents (p := 0) fun n hn hid => absurd ⟨n, hn, hid⟩ hnone, if_neg hnone]
  rfl

/-- The climb from a listed node finds the nearest kept frame. -/
theorem climbs {nameOf : CallFrame → Option JsString} {p : CallTree × Option JsString}
    (hp : p ∈ namedAll nameOf none forest) {n : ProfileNode} (hn : n ∈ nodes) (hplain : n.plain = p.1.record) :
    nearestKept nameOf (byId nodes) (parentIndex (byId nodes)) nodes.length [] n = p.2 := by
  have hindexed : Indexed (byId nodes) (parentIndex (byId nodes)) (subtreesAll forest) := by
    refine ⟨fun u hu => ?_, fun u hu c hc => h.parent_get hu hc, h.ids_nodup⟩
    obtain ⟨n, -, hget⟩ := h.get hu
    exact ⟨n, hget⟩
  obtain ⟨n', path, hget, hlength, hclimb⟩ := climb_trees forest hindexed (fun _ _ => List.not_mem_nil)
    (fun t ht => by rw [h.parent_root ht]; exact fun _ _ _ _ => rfl) p hp
  obtain rfl : n = n' := Option.some.inj ((byId_get h.nodup hn).symm.trans (id_of_plain hplain ▸ hget))
  refine hclimb nodes.length [] ?_ fun _ _ => List.not_mem_nil
  have hsize := h.length_eq
  rw [nodesAll, List.length_map] at hsize
  simpa [hsize] using hlength

end Lists

def addProfileLink (agg : KeyedMap JsString DerivedEdge) (l : Link) : KeyedMap JsString DerivedEdge :=
  addProfileEdge agg l.1.1 l.1.2 l.2

section Browser
variable {urlPrefixes : List JsString} {nodes : List ProfileNode} {forest : List CallTree}

theorem link_calls (h : Lists nodes forest) {n : ProfileNode} {name : Option JsString}
    (hn : nearestKept (keptName urlPrefixes) (byId nodes) (parentIndex (byId nodes)) nodes.length [] n = name)
    {cs : List CallTree} (hcs : ∀ c ∈ cs, c ∈ subtreesAll forest) {r : Sums × KeyedMap JsString DerivedEdge}
    (hr : Between (totalsAll forest) r.1) :
    Between (totalsAll forest) ((cs.map CallTree.id).foldl (link urlPrefixes nodes n) r).1 ∧
      ((cs.map CallTree.id).foldl (link urlPrefixes nodes n) r).2 =
        (cs.flatMap fun c => ownLink name (keptName urlPrefixes c.frame) c.samples).foldl addProfileLink r.2 := by
  induction cs generalizing r with
  | nil => exact ⟨hr, rfl⟩
  | cons c cs ih =>
    obtain ⟨hc, hcs⟩ := List.forall_mem_cons.1 hcs
    obtain ⟨m, -, hget, hplain⟩ := h.get hc
    obtain ⟨hplaced, hlength⟩ := h.placed_subtree hc
    have hsum := hr.sumOf false h.table_nodup hplaced hlength
    have hstep : Between (totalsAll forest) (link urlPrefixes nodes n r c.id).1 ∧
        (link urlPrefixes nodes n r c.id).2 =
          (ownLink name (keptName urlPrefixes c.frame) c.samples).foldl addProfileLink r.2 := by
      simp only [link, hget, frame_of_plain hplain, hn]
      cases keptName urlPrefixes c.frame with
      | none => exact ⟨hr, rfl⟩
      | some dst =>
        cases name with
        | none => exact ⟨hr, rfl⟩
        | some src => exact ⟨hsum.between hr, by simp only [hsum.total]; rfl⟩
    obtain ⟨hbetween, hrest⟩ := ih hcs hstep.1
    rw [List.map_cons, List.foldl_cons, List.flatMap_cons, List.foldl_append, ← hstep.2]
    exact ⟨hbetween, hrest⟩

variable (urlPrefixes) in
/-- The map after the loop is that of the same links as the walk's, in some order. -/
theorem edgesFromProfile_eq (h : Lists nodes forest) : ∃ links : List Link,
    links.Perm (linksAll (keptName urlPrefixes) none forest) ∧ edgesFromProfile urlPrefixes nodes =
      (links.foldl addProfileLink .empty).values.map fun e => { e with observed := min e.observed uint16Ceiling } := by
  obtain ⟨ps, hperm, hps⟩ := h.exists_order (fst_namedAll (keptName urlPrefixes) forest none)
  refine ⟨ps.flatMap (linksInto (keptName urlPrefixes)), ?_, ?_⟩
  · have hlinks := linksAll_perm (keptName urlPrefixes) forest none
    have hroots : ∀ (name : Option JsString) samples, ownLink none name samples = [] := by
      intro name samples
      cases name <;> rfl
    rw [List.flatMap_eq_nil_iff.2 fun t _ => hroots _ _, List.nil_append] at hlinks
    exact (hperm.flatMap_right _).trans hlinks.symm
  · have hmem : ∀ p ∈ ps, p ∈ namedAll (keptName urlPrefixes) none forest := fun p hp => hperm.mem_iff.1 hp
    have hloop : ∀ (ns : List ProfileNode) (qs : List (CallTree × Option JsString)),
        List.Forall₂ (fun n p => ProfileNode.plain n = p.1.record) ns qs → (∀ n ∈ ns, n ∈ nodes) →
        (∀ p ∈ qs, p ∈ namedAll (keptName urlPrefixes) none forest) → ∀ r : Sums × KeyedMap JsString DerivedEdge,
        Between (totalsAll forest) r.1 →
        (ns.foldl (fun r node => node.calls.foldl (link urlPrefixes nodes node) r) r).2 =
          (qs.flatMap (linksInto (keptName urlPrefixes))).foldl addProfileLink r.2 := by
      intro ns qs hforall
      induction hforall with
      | nil => exact fun _ _ _ _ => rfl
      | @cons n p ns qs hplain _ ih =>
        intro hns hqs r hr
        obtain ⟨hn, hns⟩ := List.forall_mem_cons.1 hns
        obtain ⟨hp, hqs⟩ := List.forall_mem_cons.1 hqs
        have hcalls : ∀ c ∈ p.1.calls, c ∈ subtreesAll forest := by
          have hp1 : p.1 ∈ subtreesAll forest := by
            rw [← fst_namedAll (keptName urlPrefixes) forest none]
            exact List.mem_map_of_mem hp
          intro c hc
          refine (CallTree.subtreesAll_sublist forest _ hp1).subset ?_
          cases hq : p.1
          rw [hq] at hc
          rw [CallTree.subtrees]
          exact List.mem_cons_of_mem _ (CallTree.mem_subtreesAll hc)
        obtain ⟨hbetween, hstep⟩ := link_calls h (h.climbs hp hn hplain) hcalls hr
        rw [List.foldl_cons, List.flatMap_cons, List.foldl_append, calls_of_plain hplain, ih hns hqs _ hbetween, hstep]
        rfl
    have hrun := hloop nodes ps hps (fun _ hn => hn) hmem (⟨.empty, []⟩, .empty) ⟨rfl, fun _ _ hget => by cases hget⟩
    simp only [edgesFromProfile, hrun]

theorem frameId_ne_nil (frame : CallFrame) : frameId frame ≠ [] := by
  simp only [frameId]
  split
  · simp [ascii]
  · split
    · assumption
    · simp [ascii]

/-- The named edge of an entry. -/
def edgeOf (e : JsString × Nat) : DerivedEdge := ⟨(splitEdgeKey e.1).1, (splitEdgeKey e.1).2, e.2⟩

/-- Both maps hold the same edges under the same keys. -/
theorem get_addProfileLinks {links : List Link} (hfree : ∀ l ∈ links, NulFree l) (hnamed : ∀ l ∈ links, l.1.1 ≠ [] ∧ l.1.2 ≠ [])
    (k : JsString) : (links.foldl addProfileLink .empty).get k =
      ((links.foldl addLink .empty).get k).map fun count => edgeOf (k, count) := by
  have hstep : ∀ (agg : KeyedMap JsString DerivedEdge) (edges : KeyedMap JsString Nat),
      (∀ k, agg.get k = (edges.get k).map fun count => edgeOf (k, count)) → ∀ k,
      (links.foldl addProfileLink agg).get k = ((links.foldl addLink edges).get k).map fun count => edgeOf (k, count) := by
    induction links with
    | nil => exact fun _ _ h => h
    | cons l links ih =>
      obtain ⟨hl, hfree⟩ := List.forall_mem_cons.1 hfree
      obtain ⟨hn, hnamed⟩ := List.forall_mem_cons.1 hnamed
      intro agg edges h
      refine ih hfree hnamed _ _ fun k => ?_
      have hedge : ∀ count, edgeOf (edgeKey l.1.1 l.1.2, count) = ⟨l.1.1, l.1.2, count⟩ := by
        intro count
        rw [edgeOf, splitEdgeKey_edgeKey hl.1 hl.2]
      by_cases hdead : l.2 ≤ 0 ∨ l.1.1 = l.1.2
      · rw [addProfileLink, addProfileEdge, if_pos (.inr (.inr hdead.symm)), addLink, addEdge, if_pos hdead]
        exact h k
      · have hlive : ¬ (l.1.1 = [] ∨ l.1.2 = [] ∨ l.1.1 = l.1.2 ∨ l.2 ≤ 0) := by tauto
        rw [addProfileLink, addProfileEdge, if_neg hlive, h, addLink, addEdge, if_neg hdead, tally]
        by_cases hk : edgeKey l.1.1 l.1.2 = k
        · subst hk
          cases edges.get (edgeKey l.1.1 l.1.2) <;> simp [hedge]
        · cases edges.get (edgeKey l.1.1 l.1.2) <;> simp [KeyedMap.get_set, hk, h]
  exact hstep .empty .empty (fun _ => rfl) k

/-- On a listing in any order, the climb and the walk report the same edges with the same counts,
whatever scope the frames are kept by. -/
theorem edgesFromProfile_agrees (h : Lists nodes forest) (hnames : NulFreeNames (keptName urlPrefixes) nodes) :
    (edgesFromProfile urlPrefixes nodes).Perm (deriveEdges (keptName urlPrefixes) nodes) := by
  obtain ⟨links, hperm, heq⟩ := edgesFromProfile_eq urlPrefixes h
  obtain ⟨links', hperm', heq'⟩ := deriveEdges_eq (keptName urlPrefixes) h
  have hfree : ∀ l ∈ links, NulFree l := fun l hl => h.names hnames l (hperm.mem_iff.1 hl)
  have hnamed : ∀ l ∈ links, l.1.1 ≠ [] ∧ l.1.2 ≠ [] := by
    refine fun l hl => h.names (P := (· ≠ [])) ?_ l (hperm.mem_iff.1 hl)
    intro n _ name hname
    unfold keptName at hname
    split at hname
    · exact Option.some.inj hname ▸ frameId_ne_nil n.callFrame
    · cases hname
  have hsame : ∀ k, (links.foldl addLink .empty).get k = (links'.foldl addLink .empty).get k := by
    intro k
    rw [addLinks_eq, addLinks_eq, get_tally_empty (fun l : Link => edgeKey l.1.1 l.1.2) Prod.snd,
      get_tally_empty (fun l : Link => edgeKey l.1.1 l.1.2) Prod.snd]
    exact total_perm (((hperm.trans hperm'.symm).filter _).filter _)
  have hentries : (links.foldl addProfileLink .empty).entries.Perm
      ((links'.foldl addLink .empty).entries.map fun e => (e.1, edgeOf e)) := by
    have hnodup : ((links'.foldl addLink .empty).entries.map fun e => (e.1, edgeOf e)).Nodup := by
      refine List.Nodup.of_map Prod.fst ?_
      rw [List.map_map]
      exact (links'.foldl addLink .empty).nodup
    refine (List.perm_ext_iff_of_nodup (links.foldl addProfileLink .empty).nodup.of_map hnodup).2 fun e => ?_
    obtain ⟨k, edge⟩ := e
    rw [← KeyedMap.get_eq_some, get_addProfileLinks hfree hnamed, hsame, Option.map_eq_some_iff, List.mem_map]
    simp only [Prod.mk.injEq, Prod.exists, KeyedMap.get_eq_some]
    constructor
    · rintro ⟨count, hcount, hedge⟩
      exact ⟨k, count, hcount, rfl, hedge⟩
    · rintro ⟨k', count, hcount, rfl, hedge⟩
      exact ⟨count, hcount, hedge⟩
  rw [heq, heq']
  have hvalues : (links.foldl addProfileLink .empty).values.Perm ((links'.foldl addLink .empty).entries.map edgeOf) := by
    have hmapped := hentries.map Prod.snd
    rwa [List.map_map] at hmapped
  have hclamped := hvalues.map fun e : DerivedEdge => { e with observed := min e.observed uint16Ceiling }
  rw [List.map_map] at hclamped
  exact hclamped

end Browser

/-! ## A profile with a frame to splice out -/

def scriptFrame (name url : String) : CallFrame := ⟨some (ascii name), some (ascii url), none⟩

/-- A page function that calls another through a browser internal, under the root frame. -/
def sampleForest : List CallTree :=
  [.node 1 (scriptFrame "(root)" "") 0 [.node 2 (scriptFrame "load" "/app.js") 1
    [.node 3 (scriptFrame "post" "chrome://gpu") 1 [.node 4 (scriptFrame "draw" "/view.js") 2 []]]]]

/-- The listing, not in preorder and with fields absent. -/
def sampleProfile : List ProfileNode :=
  [⟨4, scriptFrame "draw" "/view.js", some 2, none⟩, ⟨1, scriptFrame "(root)" "", none, some [2]⟩,
    ⟨3, scriptFrame "post" "chrome://gpu", some 1, some [4]⟩, ⟨2, scriptFrame "load" "/app.js", some 1, some [3]⟩]

theorem lists_sample : Lists sampleProfile sampleForest := ⟨by decide +kernel, by decide⟩

theorem nulFree_sample : NulFreeNames (keptName []) sampleProfile := by
  unfold NulFreeNames
  decide +kernel

theorem deriveEdges_exact_sample :
    ⟨ascii "app:load", ascii "view:draw", 2⟩ ∈ deriveEdges (keptName []) sampleProfile :=
  ((deriveEdges_exact lists_sample nulFree_sample).2 _).2 (by decide +kernel)

theorem deriveCoverage_exact_sample : ⟨ascii "app:load", 4⟩ ∈ deriveCoverage (keptName []) sampleProfile :=
  ((deriveCoverage_exact lists_sample).2 _).2 (by decide +kernel)

theorem edgesFromProfile_agrees_sample :
    (edgesFromProfile [] sampleProfile).Perm (deriveEdges (keptName []) sampleProfile) :=
  edgesFromProfile_agrees lists_sample nulFree_sample

end Hayven.Trace
