import Hayven.Graph.Ingest
import Hayven.Graph.NativeStream
import Hayven.Graph.NulFreeIds
import Hayven.Graph.ResolvedIds
/-!
# What a drained stream leaves

A whole-repository run of `drainIntoIndex` leaves the tables of the passes over all nodes
and edges at once, whatever the batch sizes: `drainIntoIndex_refines`. The weights count
occurrences, and a second run restamps the rows and changes nothing else:
`drainIntoIndex_counts`.
-/
open Hayven.Lib Hayven.Db Hayven.Native

namespace Hayven.Graph

/-! ## What the loop takes in -/

def nodeLines (records : List NativeRecord) : List NodeLine :=
  records.filterMap fun rec => match rec with
    | .node line => some line
    | _ => none

def rawEdges (records : List NativeRecord) : List RawEdge :=
  records.filterMap fun rec => match rec with
    | .edge e => some e.raw
    | _ => none

/-- The rows of node records, from the modules seen and the number of the first. -/
def rowsFrom (seenAt : Nat → Nat) : KeyedMap JsString JsString → Nat → List NodeLine → List NodeRow
  | _, _, [] => []
  | moduleByFile, i, line :: lines =>
    let moduleByFile := Drain.seeModule moduleByFile line.toNodeRecord
    Drain.rowOf (recordId moduleByFile.get line.toNodeRecord) line (seenAt i) ::
      rowsFrom seenAt moduleByFile (i + 1) lines

namespace Drain
variable {opts : DrainOptions}

theorem upsertNodes_nil (db : IndexRows) : db.upsertNodes [] = db := rfl

theorem upsertNodes_append (db : IndexRows) (rows rows' : List NodeRow) :
    (db.upsertNodes rows).upsertNodes rows' = db.upsertNodes (rows ++ rows') := by
  unfold IndexRows.upsertNodes
  rw [List.foldl_append]

theorem appendEdges_append (spill : Spool RawEdge) (edges edges' : List RawEdge) :
    appendEdges (appendEdges spill edges) edges' = appendEdges spill (edges ++ edges') := by
  unfold appendEdges
  rw [List.foldl_append]

/-- Once aborted, no record is handled. -/
theorem foldl_step_aborted {s : Drain} (h : s.aborted = true) (records : List NativeRecord) :
    records.foldl (step opts) s = s := by
  induction records with
  | nil => rfl
  | cons rec records ih => rw [List.foldl_cons, step, if_pos h, ih]

/-- A loop that ends without an abort has handled every record. -/
theorem foldl_step {s : Drain} {records : List NativeRecord} (h : (records.foldl (step opts) s).aborted = false) :
    records.foldl (step opts) s = records.foldl (handleRecord opts) s ∧ s.aborted = false := by
  induction records generalizing s with
  | nil => exact ⟨rfl, h⟩
  | cons rec records ih =>
    cases hs : s.aborted with
    | true =>
      rw [foldl_step_aborted hs, hs] at h
      cases h
    | false =>
      have hstep : step opts s rec = handleRecord opts s rec := if_neg (by rw [hs]; exact Bool.false_ne_true)
      rw [List.foldl_cons, hstep] at h ⊢
      exact ⟨(ih h).1, rfl⟩

/-- What the records of a loop without a start leave. -/
structure Took (opts : DrainOptions) (s s' : Drain) (records : List NativeRecord) : Prop where
  index : s'.index = ((rowsFrom opts.seenAt s.moduleByFile s.nodeCount (nodeLines records)).map (·.node)).foldl
    NodeIndex.addNode s.index
  nodes : s'.nodes.drained IndexRows.upsertNodes = (s.nodes.drained IndexRows.upsertNodes).upsertNodes
    (rowsFrom opts.seenAt s.moduleByFile s.nodeCount (nodeLines records))
  edges : (s'.edges.drained appendEdges).contents = (s.edges.drained appendEdges).contents ++ rawEdges records

theorem took {records : List NativeRecord} (hstart : ∀ n, .start n ∉ records) (s : Drain) :
    Took opts s (records.foldl (handleRecord opts) s) records := by
  induction records generalizing s with
  | nil => exact ⟨rfl, rfl, (List.append_nil _).symm⟩
  | cons rec records ih =>
    have hrest : ∀ n, .start n ∉ records := fun n hn => hstart n (List.mem_cons_of_mem rec hn)
    have h := ih hrest (handleRecord opts s rec)
    rw [List.foldl_cons]
    cases rec with
    | start n => exact absurd List.mem_cons_self (hstart n)
    | node line =>
      refine ⟨h.index, h.nodes.trans ?_, h.edges⟩
      have hpush := Buffered.drained_push opts.nodeBatch upsertNodes_nil upsertNodes_append s.nodes
        (rowOf (recordId (seeModule s.moduleByFile line.toNodeRecord).get line.toNodeRecord) line
          (opts.seenAt s.nodeCount))
      rw [handleRecord, handleNode, hpush, upsertNodes_append]
      rfl
    | edge e =>
      refine ⟨h.index, h.nodes, h.edges.trans ?_⟩
      have hpush := Buffered.drained_push opts.edgeBatch (fun _ => rfl) appendEdges_append s.edges e.raw
      rw [handleRecord, handleEdge, hpush]
      show (Spool.append _ e.raw).contents ++ _ = _
      rw [Spool.contents_append, List.append_assoc]
      rfl
    | progress => exact ⟨h.index, h.nodes, h.edges⟩
    | warn => exact ⟨h.index, h.nodes, h.edges⟩
    | done => exact ⟨h.index, h.nodes, h.edges⟩

/-! ### Whether a run throws -/

/-- Two loops that have counted the same. -/
structure SameCounts (s s' : Drain) : Prop where
  nodeCount : s.nodeCount = s'.nodeCount
  edgeCount : s.edgeCount = s'.edgeCount
  aborted : s.aborted = s'.aborted

/-- The same run again, at another time, in other batches, with or without clearing. -/
structure SameRun (opts opts' : DrainOptions) : Prop where
  config : opts.config = opts'.config
  maxFiles : opts.maxFiles = opts'.maxFiles
  maxNodes : opts.maxNodes = opts'.maxNodes
  maxEdges : opts.maxEdges = opts'.maxEdges
  fullRebuild : opts.fullRebuild = opts'.fullRebuild

theorem SameCounts.step {opts opts' : DrainOptions} (hopts : SameRun opts opts') {s s' : Drain} (h : SameCounts s s')
    (rec : NativeRecord) : SameCounts (Drain.step opts s rec) (Drain.step opts' s' rec) := by
  unfold Drain.step
  rw [← h.aborted]
  split
  · exact h
  · cases rec with
    | start n =>
      show SameCounts (handleStart opts s n) (handleStart opts' s' n)
      unfold handleStart
      rw [← hopts.maxFiles]
      by_cases hfiles : opts.maxFiles < n
      · rw [if_pos hfiles, if_pos hfiles]
        exact ⟨h.nodeCount, h.edgeCount, rfl⟩
      · rw [if_neg hfiles, if_neg hfiles]
        cases opts.clearBeforeIngest <;> cases opts'.clearBeforeIngest <;> exact ⟨h.nodeCount, h.edgeCount, h.aborted⟩
    | node line =>
      refine ⟨congrArg (· + 1) h.nodeCount, h.edgeCount, ?_⟩
      show (s.aborted || _) = (s'.aborted || _)
      rw [h.aborted, h.nodeCount, hopts.maxNodes]
    | edge e =>
      refine ⟨h.nodeCount, congrArg (· + 1) h.edgeCount, ?_⟩
      show (s.aborted || _) = (s'.aborted || _)
      rw [h.aborted, h.edgeCount, hopts.maxEdges]
    | progress => exact h
    | warn => exact h
    | done => exact h

theorem SameCounts.foldl {opts opts' : DrainOptions} (hopts : SameRun opts opts') {s s' : Drain} (h : SameCounts s s')
    (records : List NativeRecord) :
    SameCounts (records.foldl (Drain.step opts) s) (records.foldl (Drain.step opts') s') := by
  induction records generalizing s s' with
  | nil => exact h
  | cons rec records ih => exact ih (h.step hopts rec)

end Drain

theorem NativeStream.threw_congr {opts opts' : DrainOptions} (hopts : Drain.SameRun opts opts') (stream : NativeStream)
    (db db' : IndexRows) : (stream.drainIntoIndex opts db).threw = (stream.drainIntoIndex opts' db').threw := by
  have hbegin : Drain.SameCounts (.begin opts db) (.begin opts' db') := ⟨rfl, rfl, rfl⟩
  have h := hbegin.foldl hopts stream.records
  unfold NativeStream.drainIntoIndex
  dsimp only
  rw [← h.aborted]
  split
  · rfl
  · split <;> rfl

/-! ## The rows of the nodes -/

theorem rowsFrom_map_node (seenAt seenAt' : Nat → Nat) (moduleByFile : KeyedMap JsString JsString) (i j : Nat)
    (lines : List NodeLine) :
    (rowsFrom seenAt moduleByFile i lines).map (·.node) = (rowsFrom seenAt' moduleByFile j lines).map (·.node) := by
  induction lines generalizing moduleByFile i j with
  | nil => rfl
  | cons line lines ih => exact congrArg₂ List.cons rfl (ih _ _ _)

/-- A row without its stamp. -/
def NodeRow.unseen (row : NodeRow) : NodeRow := { row with lastSeen := 0 }

theorem rowsFrom_map_unseen (seenAt seenAt' : Nat → Nat) (moduleByFile : KeyedMap JsString JsString) (i j : Nat)
    (lines : List NodeLine) :
    (rowsFrom seenAt moduleByFile i lines).map (·.unseen) = (rowsFrom seenAt' moduleByFile j lines).map (·.unseen) := by
  induction lines generalizing moduleByFile i j with
  | nil => rfl
  | cons line lines ih => exact congrArg₂ List.cons rfl (ih _ _ _)

/-- A row as the parser alone knows it. -/
structure NodeRow.Bare (row : NodeRow) : Prop where
  summary : row.summary = none
  logicalClock : row.logicalClock = 0

theorem bare_of_mem_rowsFrom {seenAt : Nat → Nat} {moduleByFile : KeyedMap JsString JsString} {i : Nat}
    {lines : List NodeLine} {row : NodeRow} (h : row ∈ rowsFrom seenAt moduleByFile i lines) : row.Bare := by
  induction lines generalizing moduleByFile i with
  | nil => cases h
  | cons line lines ih =>
    rcases List.mem_cons.1 h with rfl | h
    · exact ⟨rfl, rfl⟩
    · exact ih h

/-- A bare row takes over the summary and the clock that are stored. -/
def NodeRow.refreshing (old : Option NodeRow) (row : NodeRow) : NodeRow :=
  { row with summary := old.bind (·.summary), logicalClock := (old.map (·.logicalClock)).getD 0 }

theorem upsertRow_eq (old : Option NodeRow) {row : NodeRow} (h : row.Bare) :
    IndexRows.upsertRow old row = row.refreshing old := by
  obtain ⟨node, language, range, astHash, summary, lastSeen, logicalClock, lastModifiedBy⟩ := row
  obtain ⟨rfl, rfl⟩ := h
  cases old with
  | none => rfl
  | some old =>
    simp [IndexRows.upsertRow, NodeRow.refreshing]

theorem refreshing_refreshing (old : Option NodeRow) (row row' : NodeRow) :
    row'.refreshing (some (row.refreshing old)) = row'.refreshing old := by
  cases old <;> rfl

/-- The last row of an id is stored, with the summary and clock that were there. -/
theorem get_upsertNodes (db : IndexRows) {rows : List NodeRow} (h : ∀ row ∈ rows, row.Bare) (id : JsString) :
    (db.upsertNodes rows).nodes.get id =
      (((rows.filter (·.node.id = id)).getLast?.map (·.refreshing (db.nodes.get id))).or (db.nodes.get id)) := by
  unfold IndexRows.upsertNodes
  generalize db.nodes = m
  dsimp only
  induction rows generalizing m with
  | nil => rfl
  | cons row rows ih =>
    rw [List.foldl_cons, ih fun r hr => h r (List.mem_cons_of_mem row hr), KeyedMap.get_set,
      upsertRow_eq _ (h row List.mem_cons_self)]
    by_cases hid : row.node.id = id
    · subst hid
      rw [if_pos rfl, List.filter_cons_of_pos (by simp), List.getLast?_cons]
      cases (rows.filter (·.node.id = row.node.id)).getLast? with
      | none => rfl
      | some last => simp [refreshing_refreshing]
    · rw [if_neg hid, List.filter_cons_of_neg (by simpa using hid)]
/-! ## The second pass -/

theorem foldl_addImportEdge_filter (edges : List RawEdge) (r : EdgeResolver) :
    (edges.filter fun e => decide (e.kind = .import)).foldl EdgeResolver.addImportEdge r =
      edges.foldl EdgeResolver.addImportEdge r := by
  induction edges generalizing r with
  | nil => rfl
  | cons e edges ih =>
    rw [List.foldl_cons]
    by_cases he : e.kind = .import
    · rw [List.filter_cons_of_pos (by simpa using he), List.foldl_cons, ih]
    · have hskip : r.addImportEdge e = r := if_neg fun h => he h.1
      rw [List.filter_cons_of_neg (by simpa using he), ih, hskip]

/-! ### Aggregating -/

theorem nulFree_edgeKindText (kind : EdgeKind) : NulFree (edgeKindText kind) := by
  unfold NulFree
  cases kind <;> decide

theorem edgeKindText_injective {kind kind' : EdgeKind} (h : edgeKindText kind = edgeKindText kind') : kind = kind' := by
  cases kind <;> cases kind' <;> first | rfl | exact absurd h (by decide)

/-- The text tells the ends and the kind, where the sources have no NUL. -/
theorem aggregateKey_inj {e e' : GraphEdge} (hsrc : NulFree e.src) (hsrc' : NulFree e'.src) :
    aggregateKey e = aggregateKey e' ↔ keyOf e = keyOf e' := by
  constructor
  · intro h
    obtain ⟨hs, hrest⟩ := cut_at_sep hsrc hsrc' h
    -- the kinds have none either, so the last NUL of the text ends the target
    have hreverse : (edgeKindText e.kind).reverse ++ 0 :: e.dst.reverse =
        (edgeKindText e'.kind).reverse ++ 0 :: e'.dst.reverse := by
      have := congrArg List.reverse hrest
      simpa using this
    have hkind : ∀ kind, (0 : UInt16) ∉ (edgeKindText kind).reverse := fun kind h0 =>
      nulFree_edgeKindText kind (List.mem_reverse.1 h0)
    obtain ⟨hk, hd⟩ := cut_at_sep (hkind e.kind) (hkind e'.kind) hreverse
    unfold keyOf
    rw [hs, edgeKindText_injective (List.reverse_injective hk), List.reverse_injective hd]
  · intro h
    unfold keyOf at h
    simp only [EdgeKey.mk.injEq] at h
    rw [aggregateKey, aggregateKey, h.1, h.2.1, h.2.2]

theorem total_snoc (edges : List GraphEdge) (e : GraphEdge) (key : EdgeKey) :
    total keyOf (·.weight) (edges ++ [e]) key =
      if keyOf e = key then some (e.weight + (total keyOf (·.weight) edges key).getD 0)
      else total keyOf (·.weight) edges key := by
  rw [← total_cons, total_perm (List.perm_append_singleton e edges)]

/-- The map holds one row for each key, the weights of its occurrences summed. -/
structure Aggregates (now : Nat) (edges : List GraphEdge) (agg : KeyedMap JsString StampedEdge) : Prop where
  get : ∀ e : GraphEdge, NulFree e.src → agg.get (aggregateKey e) =
    (total keyOf (·.weight) edges (keyOf e)).map fun w => ⟨⟨e.src, e.dst, e.kind, w⟩, now⟩
  keyed : ∀ k e, agg.get k = some e → k = aggregateKey e.toGraphEdge ∧ NulFree e.src

theorem Aggregates.take {opts : DrainOptions} {edges : List GraphEdge} {s : Resolving}
    (h : Aggregates opts.now edges s.aggregated) {out : EdgeOutcome} (hsrc : NulFree out.edge.src) :
    Aggregates opts.now (edges ++ [out.edge]) (s.take opts out).aggregated := by
  have hown := h.get out.edge hsrc
  have hset : ∃ w, w = out.edge.weight + (total keyOf (·.weight) edges (keyOf out.edge)).getD 0 ∧
      (s.take opts out).aggregated = s.aggregated.set (aggregateKey out.edge)
        ⟨⟨out.edge.src, out.edge.dst, out.edge.kind, w⟩, opts.now⟩ := by
    refine ⟨_, rfl, ?_⟩
    unfold Resolving.take
    dsimp only
    cases htotal : total keyOf (·.weight) edges (keyOf out.edge) with
    | none =>
      rw [htotal, Option.map_none] at hown
      rw [hown]
      rfl
    | some w =>
      rw [htotal, Option.map_some] at hown
      rw [hown]
      dsimp only
      rw [Option.getD_some, Nat.add_comm]
  obtain ⟨w, hw, hset⟩ := hset
  rw [hset]
  constructor
  · intro e he
    rw [KeyedMap.get_set, total_snoc]
    by_cases hkey : keyOf out.edge = keyOf e
    · rw [if_pos ((aggregateKey_inj hsrc he).2 hkey), if_pos hkey, Option.map_some, ← hkey, ← hw]
      unfold keyOf at hkey
      simp only [EdgeKey.mk.injEq] at hkey
      rw [hkey.1, hkey.2.1, hkey.2.2]
    · rw [if_neg fun htext => hkey ((aggregateKey_inj hsrc he).1 htext), if_neg hkey, h.get e he]
  · intro k e he
    rw [KeyedMap.get_set] at he
    split at he
    · next hk =>
      cases he
      exact ⟨hk.symm, hsrc⟩
    · exact h.keyed k e he

theorem Aggregates.foldl_take {opts : DrainOptions} {edges : List GraphEdge} {s : Resolving}
    (h : Aggregates opts.now edges s.aggregated) {outs : List EdgeOutcome}
    (hsrc : ∀ out ∈ outs, NulFree out.edge.src) :
    Aggregates opts.now (edges ++ outs.map (·.edge)) (outs.foldl (Resolving.take opts) s).aggregated := by
  induction outs generalizing edges s with
  | nil => rwa [List.map_nil, List.append_nil]
  | cons out outs ih =>
    have hrest := ih (h.take (hsrc out List.mem_cons_self)) fun o ho => hsrc o (List.mem_cons_of_mem out ho)
    rwa [List.append_assoc] at hrest

theorem sites_foldl_take (opts : DrainOptions) (outs : List EdgeOutcome) (s : Resolving) :
    (outs.foldl (Resolving.take opts) s).sites.drained IndexRows.insertCallSites =
      (s.sites.drained IndexRows.insertCallSites).insertCallSites (outs.filterMap (·.site)) := by
  have hnil : ∀ db : IndexRows, db.insertCallSites [] = db := fun db => by
    unfold IndexRows.insertCallSites
    rw [List.append_nil]
  have happend : ∀ (db : IndexRows) (l l' : List CallSite),
      (db.insertCallSites l).insertCallSites l' = db.insertCallSites (l ++ l') := fun db l l' => by
    unfold IndexRows.insertCallSites
    rw [List.append_assoc]
  induction outs generalizing s with
  | nil => exact (hnil _).symm
  | cons out outs ih =>
    rw [List.foldl_cons, ih, List.filterMap_cons]
    cases hsite : out.site with
    | none =>
      have hskip : (s.take opts out).sites = s.sites := by
        unfold Resolving.take
        rw [hsite]
      rw [hskip]
    | some site =>
      have hpush : (s.take opts out).sites = s.sites.push IndexRows.insertCallSites opts.edgeBatch site := by
        unfold Resolving.take
        rw [hsite]
      rw [hpush, Buffered.drained_push opts.edgeBatch hnil happend, happend, List.singleton_append]

/-- Written in batches of any size, the aggregated rows stand in the table, and the others stay. -/
theorem get_write_aggregated {now : Nat} {edges : List GraphEdge} {agg : KeyedMap JsString StampedEdge}
    (h : Aggregates now edges agg) (hsrc : ∀ e ∈ edges, NulFree e.src) (batch : Nat) (db : IndexRows)
    (key : EdgeKey) :
    ((agg.values.foldl (Buffered.push IndexRows.replaceEdges batch) ⟨db, []⟩).drained
        IndexRows.replaceEdges).edges.get key =
      ((total keyOf (·.weight) edges key).map fun w => ⟨w, now⟩).or (db.edges.get key) := by
  have happend : ∀ (db : IndexRows) (l l' : List StampedEdge),
      (db.replaceEdges l).replaceEdges l' = db.replaceEdges (l ++ l') := fun db l l' => by
    unfold IndexRows.replaceEdges
    rw [List.foldl_append]
  rw [Buffered.drained_foldl_push batch (fun _ => rfl) happend]
  show (agg.values.foldl (fun m e => m.set (keyOf e.toGraphEdge) ⟨e.weight, e.lastSeen⟩) db.edges).get key = _
  rw [KeyedMap.get_foldl_set_by fun e : StampedEdge => keyOf e.toGraphEdge]
  congr 1
  have hvalue : ∀ e ∈ agg.values, keyOf e.toGraphEdge = key →
      NulFree key.src ∧ total keyOf (·.weight) edges key = some e.weight ∧ e.lastSeen = now := by
    intro e he hkey
    obtain ⟨k, hk⟩ := KeyedMap.mem_values.1 he
    obtain ⟨rfl, hfree⟩ := h.keyed k e hk
    rw [h.get e.toGraphEdge hfree, hkey] at hk
    obtain ⟨w, hw, heq⟩ := Option.map_eq_some_iff.1 hk
    subst hkey
    refine ⟨hfree, ?_, ?_⟩
    · rw [hw, ← heq]
    · rw [← heq]
  cases hlast : (agg.values.filter fun e => decide (keyOf e.toGraphEdge = key)).getLast? with
  | some e =>
    obtain ⟨he, hkey⟩ := List.mem_filter.1 (List.mem_of_getLast? hlast)
    obtain ⟨-, htotal, hnow⟩ := hvalue e he (of_decide_eq_true hkey)
    rw [htotal, Option.map_some, Option.map_some, hnow]
  | none =>
    rw [List.getLast?_eq_none_iff, List.filter_eq_nil_iff] at hlast
    cases htotal : total keyOf (·.weight) edges key with
    | none => rfl
    | some w =>
      have hmem : ∃ e ∈ edges, keyOf e = key := by
        by_contra hno
        rw [total_eq_none.2 fun e he hkey => hno ⟨e, he, hkey⟩] at htotal
        cases htotal
      obtain ⟨e, he, hkey⟩ := hmem
      have hget := h.get e (hsrc e he)
      rw [hkey, htotal, Option.map_some] at hget
      refine absurd ?_ (hlast _ (KeyedMap.mem_values.2 ⟨_, hget⟩))
      exact decide_eq_true hkey

/-! ## A whole-repository run -/

namespace NativeStream

/-- The records start with the one start, and their names and paths have no NUL. -/
structure Framed (stream : NativeStream) : Prop where
  start : ∃ filesTotal body, stream.records = .start filesTotal :: body ∧ ∀ n, .start n ∉ body
  plain : ∀ line ∈ nodeLines stream.records, PlainRecord line.toNodeRecord

def rows (stream : NativeStream) (seenAt : Nat → Nat) : List NodeRow :=
  rowsFrom seenAt .empty 0 (nodeLines stream.records)

def nodes (stream : NativeStream) : List GraphNode := (stream.rows fun _ => 0).map (·.node)

def raws (stream : NativeStream) : List RawEdge := rawEdges stream.records

/-- The outcomes of the raw edges, resolved over all nodes and imports of the stream. -/
def outs (stream : NativeStream) (config : RepoConfig) : List EdgeOutcome := outcomes config stream.nodes stream.raws

/-- The graph that a run adds to. -/
def cleared (opts : DrainOptions) (db : IndexRows) : IndexRows := if opts.clearBeforeIngest then db.clearGraph else db

variable {stream : NativeStream} {opts : DrainOptions} {db : IndexRows}

theorem rows_map_node (seenAt : Nat → Nat) : (stream.rows seenAt).map (·.node) = stream.nodes :=
  rowsFrom_map_node _ _ _ _ _ _

/-- The ids of the modules seen are free of NUL, and so are those of the nodes. -/
theorem nulFree_rowsFrom {seenAt : Nat → Nat} {lines : List NodeLine}
    (hplain : ∀ line ∈ lines, PlainRecord line.toNodeRecord) {moduleByFile : KeyedMap JsString JsString}
    (hmodules : ∀ file m, moduleByFile.get file = some m → NulFree m) {i : Nat} :
    ∀ row ∈ rowsFrom seenAt moduleByFile i lines, NulFree row.node.id := by
  induction lines generalizing moduleByFile i with
  | nil => exact fun row h => by cases h
  | cons line lines ih =>
    have hline := hplain line List.mem_cons_self
    have hseen : ∀ file m, (Drain.seeModule moduleByFile line.toNodeRecord).get file = some m → NulFree m := by
      intro file m hm
      unfold Drain.seeModule at hm
      split at hm
      · rw [KeyedMap.get_set] at hm
        split at hm
        · cases hm
          exact hline.recordName
        · exact hmodules file m hm
      · exact hmodules file m hm
    intro row hrow
    rcases List.mem_cons.1 hrow with rfl | hrow
    · exact hline.recordId hseen
    · exact ih (fun l hl => hplain l (List.mem_cons_of_mem line hl)) hseen row hrow

/-- The sources of resolved edges are ids of nodes. -/
theorem nulFree_src (h : stream.Framed) {config : RepoConfig} {out : EdgeOutcome} (hout : out ∈ stream.outs config) :
    NulFree out.edge.src := by
  obtain ⟨e, -, hresolved⟩ := List.mem_filterMap.1 hout
  rw [EdgeResolver.resolveOne] at hresolved
  obtain ⟨src, hsrc, rfl⟩ := Option.map_eq_some_iff.1 hresolved
  have hid : NulFree src := by
    obtain ⟨n, hn, rfl⟩ := srcId_mem hsrc
    obtain ⟨row, hrow, rfl⟩ := List.mem_map.1 hn
    exact nulFree_rowsFrom h.plain (fun file m hm => by cases hm) row hrow
  split <;> exact hid

/-- What the loop over the records leaves of a run that returns. -/
theorem drained_of_returned (h : stream.Framed) (hreturned : (stream.drainIntoIndex opts db).threw = false) :
    ∃ s : Drain, (stream.drainIntoIndex opts db).db = secondPass opts s ∧
      s.index = stream.nodes.foldl NodeIndex.addNode (.empty opts.config) ∧
      s.nodes.drained IndexRows.upsertNodes = (cleared opts db).upsertNodes (stream.rows opts.seenAt) ∧
      (s.edges.drained Drain.appendEdges).contents = stream.raws := by
  obtain ⟨filesTotal, body, hrecords, hstart⟩ := h.start
  have hdb : (stream.records.foldl (Drain.step opts) (.begin opts db)).aborted = false ∧
      (stream.drainIntoIndex opts db).db =
        secondPass opts (stream.records.foldl (Drain.step opts) (.begin opts db)) := by
    unfold drainIntoIndex at hreturned ⊢
    dsimp only at hreturned ⊢
    split at hreturned
    · cases hreturned
    · next haborted =>
      split at hreturned
      · cases hreturned
      · next hexit =>
        rw [if_neg haborted, if_neg hexit]
        exact ⟨by simpa using haborted, rfl⟩
  obtain ⟨haborted, hdb⟩ := hdb
  rw [hrecords, List.foldl_cons] at haborted
  obtain ⟨hfold, hstarted⟩ := Drain.foldl_step haborted
  have hbegin : Drain.step opts (.begin opts db) (.start filesTotal) =
      { Drain.begin opts db with nodes := ⟨cleared opts db, []⟩ } := by
    change (Drain.handleStart opts (.begin opts db) filesTotal).aborted = false at hstarted
    show Drain.handleStart opts (.begin opts db) filesTotal = _
    unfold Drain.handleStart at hstarted ⊢
    by_cases hfiles : opts.maxFiles < filesTotal
    · rw [if_pos hfiles] at hstarted
      cases hstarted
    · rw [if_neg hfiles, cleared]
      cases opts.clearBeforeIngest <;> rfl
  have htook : Drain.Took opts (Drain.step opts (.begin opts db) (.start filesTotal)) _ body := Drain.took hstart _
  have hlines : nodeLines stream.records = nodeLines body := by rw [hrecords]; rfl
  have hedges : rawEdges stream.records = rawEdges body := by rw [hrecords]; rfl
  refine ⟨stream.records.foldl (Drain.step opts) (.begin opts db), hdb, ?_, ?_, ?_⟩
  · rw [hrecords, List.foldl_cons, hfold, htook.index, hbegin, ← rows_map_node opts.seenAt, rows, hlines]
    rfl
  · rw [hrecords, List.foldl_cons, hfold, htook.nodes, hbegin, rows, hlines]
    rfl
  · rw [hrecords, List.foldl_cons, hfold, htook.edges, hbegin, raws, hedges]
    rfl

/-- The tables after a whole-repository run that returns: its nodes stored, one row for each key of its
edges, and the call sites that it resolved. -/
theorem drainIntoIndex_tables (h : stream.Framed) (hfull : opts.fullRebuild = true)
    (hreturned : (stream.drainIntoIndex opts db).threw = false) :
    (stream.drainIntoIndex opts db).db.nodes = ((cleared opts db).upsertNodes (stream.rows opts.seenAt)).nodes ∧
      (∀ key, (stream.drainIntoIndex opts db).db.edges.get key =
        ((total keyOf (·.weight) ((stream.outs opts.config).map (·.edge)) key).map fun w => ⟨w, opts.now⟩).or
          ((cleared opts db).edges.get key)) ∧
      (stream.drainIntoIndex opts db).db.callSites = (stream.outs opts.config).filterMap (·.site) := by
  obtain ⟨s, hdb, hindex, hnodes, hcontents⟩ := drained_of_returned h hreturned
  have hresolver : ((s.edges.drained Drain.appendEdges).pages opts.edgeBatch fun e => decide (e.kind = .import)).foldl
      (fun r page => page.foldl EdgeResolver.addImportEdge r) s.index.sealNodes =
        edgeResolver opts.config stream.nodes stream.raws := by
    rw [← List.foldl_flatten, Spool.flatten_pages, hcontents, foldl_addImportEdge_filter, hindex]
    rfl
  have hresolved : ∀ db : IndexRows, ((s.edges.drained Drain.appendEdges).pages opts.edgeBatch fun _ => true).foldl
      (fun r page => page.foldl
        (Resolving.resolveEdge opts (edgeResolver opts.config stream.nodes stream.raws)) r) ⟨.empty, ⟨db, []⟩⟩ =
        (stream.outs opts.config).foldl (Resolving.take opts) ⟨.empty, ⟨db, []⟩⟩ := by
    intro db
    rw [← List.foldl_flatten, Spool.flatten_pages, hcontents, List.filter_eq_self.2 fun _ _ => rfl, outs, outcomes,
      List.foldl_filterMap]
    congr 1
    funext r e
    unfold Resolving.resolveEdge
    cases (edgeResolver opts.config stream.nodes stream.raws).resolveOne e <;> rfl
  have haggregates : ∀ db : IndexRows, Aggregates opts.now ((stream.outs opts.config).map (·.edge))
      ((stream.outs opts.config).foldl (Resolving.take opts) ⟨.empty, ⟨db, []⟩⟩).aggregated := by
    intro db
    have hnone : Aggregates opts.now [] (Resolving.mk .empty ⟨db, []⟩).aggregated :=
      ⟨fun e _ => rfl, fun k e he => by cases he⟩
    exact hnone.foldl_take fun out hout => nulFree_src h hout
  have hsites := fun db : IndexRows => sites_foldl_take opts (stream.outs opts.config) ⟨.empty, ⟨db, []⟩⟩
  have hfree : ∀ e ∈ (stream.outs opts.config).map (·.edge), NulFree e.src := by
    intro e he
    obtain ⟨out, hout, rfl⟩ := List.mem_map.1 he
    exact nulFree_src h hout
  have happend : ∀ (db : IndexRows) (l l' : List StampedEdge),
      (db.replaceEdges l).replaceEdges l' = db.replaceEdges (l ++ l') := fun db l l' => by
    unfold IndexRows.replaceEdges
    rw [List.foldl_append]
  have hpass := hdb
  unfold secondPass at hpass
  dsimp only at hpass
  rw [hresolver, hresolved, if_pos hfull, hnodes, hsites] at hpass
  rw [hpass]
  refine ⟨?_, fun key => ?_, ?_⟩
  · rw [Buffered.drained_foldl_push opts.edgeBatch (fun _ => rfl) happend]
    rfl
  · rw [get_write_aggregated (haggregates _) hfree]
    rfl
  · rw [Buffered.drained_foldl_push opts.edgeBatch (fun _ => rfl) happend]
    exact List.nil_append _

/-! ### Counting and running again -/

/-- How many raw edges are resolved to a key. -/
def occurrences (stream : NativeStream) (config : RepoConfig) (key : EdgeKey) : Nat :=
  stream.raws.countP fun e =>
    ((edgeResolver config stream.nodes stream.raws).resolveOne e).any fun out => keyOf out.edge = key

/-- The call site of a resolved call that carries a line and a column. -/
def siteOf (stream : NativeStream) (config : RepoConfig) (e : RawEdge) : Option CallSite :=
  ((edgeResolver config stream.nodes stream.raws).srcId e).bind fun src =>
    ((edgeResolver config stream.nodes stream.raws).dstId e).bind fun dst => EdgeResolver.callSite e src dst

theorem raw_weight {e : RawEdge} (he : e ∈ stream.raws) : e.weight = 1 := by
  obtain ⟨rec, -, hrec⟩ := List.mem_filterMap.1 he
  cases rec with
  | edge line =>
    cases hrec
    rfl
  | _ => cases hrec

theorem total_outs (config : RepoConfig) (key : EdgeKey) :
    total keyOf (·.weight) ((stream.outs config).map (·.edge)) key =
      if 0 < stream.occurrences config key then some (stream.occurrences config key) else none := by
  have hweight : ∀ e ∈ stream.raws, e.weight = 1 := fun e he => raw_weight he
  unfold outs outcomes occurrences
  generalize edgeResolver config stream.nodes stream.raws = resolver
  generalize stream.raws = raws at hweight ⊢
  induction raws with
  | nil => rfl
  | cons e raws ih =>
    have ih := ih fun e' he' => hweight e' (List.mem_cons_of_mem e he')
    rw [List.filterMap_cons, List.countP_cons]
    cases hout : resolver.resolveOne e with
    | none => simpa [hout] using ih
    | some out =>
      have hone : out.edge.weight = 1 := by
        rw [EdgeResolver.resolveOne] at hout
        obtain ⟨src, -, rfl⟩ := Option.map_eq_some_iff.1 hout
        split <;> exact hweight e List.mem_cons_self
      rw [List.map_cons, total_cons, ih, hone]
      by_cases hkey : keyOf out.edge = key
      · rw [if_pos hkey, Option.any_some, decide_eq_true hkey, if_pos rfl, if_pos (Nat.succ_pos _)]
        split
        · rw [Option.getD_some, Nat.add_comm]
        · next hzero => rw [Option.getD_none, Nat.eq_zero_of_not_pos hzero]
      · rw [if_neg hkey, Option.any_some, decide_eq_false hkey, if_neg Bool.false_ne_true, Nat.add_zero]

theorem sites_eq (config : RepoConfig) :
    (stream.outs config).filterMap (·.site) = stream.raws.filterMap (stream.siteOf config) := by
  unfold outs outcomes
  rw [List.filterMap_filterMap]
  congr 1
  funext e
  unfold siteOf EdgeResolver.resolveOne
  cases (edgeResolver config stream.nodes stream.raws).srcId e with
  | none => rfl
  | some src =>
    rw [Option.map_some, Option.bind_some, Option.bind_some]
    cases (edgeResolver config stream.nodes stream.raws).dstId e <;> rfl

end NativeStream

/-- The same tables, apart from when their rows were last seen. -/
structure SameButSeen (db db' : IndexRows) : Prop where
  nodes : ∀ id, (db.nodes.get id).map (·.unseen) = (db'.nodes.get id).map (·.unseen)
  edges : ∀ key, (db.edges.get key).map (·.weight) = (db'.edges.get key).map (·.weight)
  callSites : db.callSites = db'.callSites

namespace NativeStream
variable {stream : NativeStream} {opts again : DrainOptions} {db db' : IndexRows}

variable (stream) in
theorem lastRow_unseen (seenAt seenAt' : Nat → Nat) (id : JsString) :
    ((stream.rows seenAt).filter (·.node.id = id)).getLast?.map (·.unseen) =
      ((stream.rows seenAt').filter (·.node.id = id)).getLast?.map (·.unseen) := by
  have hmap : ∀ rows : List NodeRow, (rows.filter (·.node.id = id)).getLast?.map (·.unseen) =
      ((rows.map (·.unseen)).filter (·.node.id = id)).getLast? := by
    intro rows
    rw [List.filter_map, List.getLast?_map]
    rfl
  rw [hmap, hmap, rows, rows, rowsFrom_map_unseen seenAt seenAt' .empty 0 0]

theorem bare_rows {seenAt : Nat → Nat} {row : NodeRow} (h : row ∈ stream.rows seenAt) : row.Bare :=
  bare_of_mem_rowsFrom h

/-- Each id holds its last row, with the summary and clock that the run found. -/
theorem get_drainIntoIndex_nodes (h : stream.Framed) (hfull : opts.fullRebuild = true)
    (hreturned : (stream.drainIntoIndex opts db).threw = false) (id : JsString) :
    (stream.drainIntoIndex opts db).db.nodes.get id =
      ((((stream.rows opts.seenAt).filter (·.node.id = id)).getLast?.map
        (·.refreshing ((cleared opts db).nodes.get id))).or ((cleared opts db).nodes.get id)) := by
  rw [(drainIntoIndex_tables h hfull hreturned).1]
  exact get_upsertNodes (cleared opts db) (fun row hrow => bare_rows hrow) id

/-- The rows hold these tables, with stamps and the columns that no pass reads. -/
structure Stores (db : IndexRows) (g : GraphDb) : Prop where
  nodes : ∀ id, (db.nodes.get id).map (·.node) = g.nodes.get id
  edges : ∀ key, (db.edges.get key).map (·.weight) = g.edges.get key
  callSites : db.callSites = g.callSites

/-- Streamed in batches, a whole-repository run leaves the tables of the passes over all records at once. -/
theorem drainIntoIndex_refines (h : stream.Framed) (hfull : opts.fullRebuild = true)
    (hreturned : (stream.drainIntoIndex opts db).threw = false) {g : GraphDb} (hg : Stores (cleared opts db) g) :
    Stores (stream.drainIntoIndex opts db).db (Graph.drainIntoIndex opts.config true g stream.nodes stream.raws) := by
  obtain ⟨-, hedges, hsites⟩ := drainIntoIndex_tables h hfull hreturned
  refine ⟨fun id => ?_, fun key => ?_, hsites⟩
  · rw [get_drainIntoIndex_nodes h hfull hreturned, drainIntoIndex_nodes]
    show _ = (stream.nodes.foldl (fun m n => m.set n.id n) g.nodes).get id
    rw [KeyedMap.get_foldl_set_by, ← rows_map_node opts.seenAt, List.filter_map, List.getLast?_map, ← hg.nodes]
    have hsame : (stream.rows opts.seenAt).filter ((fun n => decide (n.id = id)) ∘ fun row => row.node) =
        (stream.rows opts.seenAt).filter (·.node.id = id) := rfl
    rw [hsame]
    cases ((stream.rows opts.seenAt).filter (·.node.id = id)).getLast? <;> rfl
  · rw [hedges, get_drainIntoIndex_edges, ← hg.edges]
    show _ = (total keyOf (·.weight) ((stream.outs opts.config).map (·.edge)) key).or _
    cases total keyOf (·.weight) ((stream.outs opts.config).map (·.edge)) key <;> rfl

/-- Two runs over the same stream leave the same rows, where each row that the second finds is the one
that the first left, or neither found one. -/
theorem sameButSeen (h : stream.Framed) (hfull : opts.fullRebuild = true)
    (hreturned : (stream.drainIntoIndex opts db).threw = false) (hagain : Drain.SameRun opts again)
    (hnodes : ∀ id, (cleared again db').nodes.get id = (stream.drainIntoIndex opts db).db.nodes.get id ∨
      ((cleared opts db).nodes.get id = none ∧ (cleared again db').nodes.get id = none))
    (hedges : ∀ key, (cleared again db').edges.get key = (stream.drainIntoIndex opts db).db.edges.get key ∨
      ((cleared opts db).edges.get key = none ∧ (cleared again db').edges.get key = none)) :
    SameButSeen (stream.drainIntoIndex opts db).db (stream.drainIntoIndex again db').db := by
  have hfull' : again.fullRebuild = true := hagain.fullRebuild ▸ hfull
  obtain ⟨-, he, hs⟩ := drainIntoIndex_tables h hfull hreturned
  have hreturned' : (stream.drainIntoIndex again db').threw = false := by
    rw [← threw_congr hagain stream db db', hreturned]
  obtain ⟨-, he', hs'⟩ := drainIntoIndex_tables h hfull' hreturned'
  refine ⟨fun id => ?_, fun key => ?_, ?_⟩
  · have hlast := lastRow_unseen stream opts.seenAt again.seenAt id
    have hget := get_drainIntoIndex_nodes h hfull hreturned id
    have hget' := get_drainIntoIndex_nodes h hfull' hreturned' id
    rw [hget']
    rcases hnodes id with hfound | ⟨hnone, hnone'⟩
    · rw [hfound, hget]
      cases hrow : ((stream.rows opts.seenAt).filter (·.node.id = id)).getLast? with
      | none =>
        rw [hrow, Option.map_none, eq_comm, Option.map_eq_none_iff] at hlast
        rw [hlast]
        rfl
      | some row =>
        rw [hrow, Option.map_some, eq_comm, Option.map_eq_some_iff] at hlast
        obtain ⟨row', hrow', hunseen⟩ := hlast
        rw [hrow', Option.map_some, Option.map_some, Option.some_or, Option.some_or, refreshing_refreshing]
        exact congrArg (fun r => some (NodeRow.refreshing ((cleared opts db).nodes.get id) r)) hunseen.symm
    · rw [hget, hnone, hnone', Option.or_none, Option.or_none, Option.map_map, Option.map_map]
      have hrefreshed := congrArg (Option.map (NodeRow.refreshing none)) hlast
      rwa [Option.map_map, Option.map_map] at hrefreshed
  · rw [he', he key, ← hagain.config]
    cases htotal : total keyOf (·.weight) ((stream.outs opts.config).map (·.edge)) key with
    | some w => rfl
    | none =>
      rcases hedges key with hfound | ⟨hnone, hnone'⟩
      · rw [hfound, he key, htotal]
        rfl
      · rw [hnone, hnone']
        rfl
  · rw [hs, hs', hagain.config]

theorem cleared_cases (hclear : again.clearBeforeIngest = false ∨ opts.clearBeforeIngest = true) :
    cleared again db = db ∨ (opts.clearBeforeIngest = true ∧ again.clearBeforeIngest = true) := by
  cases hagain : again.clearBeforeIngest with
  | false => exact .inl (if_neg (by rw [hagain]; exact Bool.false_ne_true))
  | true => exact .inr ⟨hclear.resolve_left (by rw [hagain]; exact Bool.true_eq_false.mp), rfl⟩

/-- After a whole-repository run that returns, the weight of a key is the number of raw edges resolved to
it, and there is one call site for each resolved call with a line and a column. Running the
stream again only restamps the rows, unless it clears what the first run did not; then it leaves what a
run that clears leaves. -/
theorem drainIntoIndex_counts (h : stream.Framed) (hfull : opts.fullRebuild = true)
    (hreturned : (stream.drainIntoIndex opts db).threw = false) :
    (∀ key, (stream.drainIntoIndex opts db).db.edges.get key =
      if 0 < stream.occurrences opts.config key then some ⟨stream.occurrences opts.config key, opts.now⟩
      else if opts.clearBeforeIngest then none else db.edges.get key) ∧
    (stream.drainIntoIndex opts db).db.callSites = stream.raws.filterMap (stream.siteOf opts.config) ∧
    ∀ again, Drain.SameRun opts again →
      (stream.drainIntoIndex again (stream.drainIntoIndex opts db).db).threw = false ∧
      (again.clearBeforeIngest = false ∨ opts.clearBeforeIngest = true →
        SameButSeen (stream.drainIntoIndex opts db).db
          (stream.drainIntoIndex again (stream.drainIntoIndex opts db).db).db) ∧
      (again.clearBeforeIngest = true →
        SameButSeen (stream.drainIntoIndex { opts with clearBeforeIngest := true } db).db
          (stream.drainIntoIndex again (stream.drainIntoIndex opts db).db).db) := by
  obtain ⟨-, hedges, hsites⟩ := drainIntoIndex_tables h hfull hreturned
  refine ⟨fun key => ?_, ?_, fun again hagain => ⟨?_, fun hclear => ?_, fun hclear => ?_⟩⟩
  · rw [hedges, total_outs, cleared]
    split
    · rfl
    · cases opts.clearBeforeIngest <;> rfl
  · rw [hsites, sites_eq]
  · rw [← threw_congr hagain stream db, hreturned]
  · rcases cleared_cases hclear with hkept | ⟨hfirst, hsecond⟩
    · exact sameButSeen h hfull hreturned hagain (fun id => .inl (by rw [hkept])) fun key => .inl (by rw [hkept])
    · refine sameButSeen h hfull hreturned hagain (fun id => .inr ?_) fun key => .inr ?_
      · rw [cleared, cleared, if_pos hfirst, if_pos hsecond]
        exact ⟨rfl, rfl⟩
      · rw [cleared, cleared, if_pos hfirst, if_pos hsecond]
        exact ⟨rfl, rfl⟩
  · have hsame : Drain.SameRun { opts with clearBeforeIngest := true } again :=
      ⟨hagain.config, hagain.maxFiles, hagain.maxNodes, hagain.maxEdges, hagain.fullRebuild⟩
    have hself : Drain.SameRun opts { opts with clearBeforeIngest := true } := ⟨rfl, rfl, rfl, rfl, rfl⟩
    have hreturned' : (stream.drainIntoIndex { opts with clearBeforeIngest := true } db).threw = false := by
      rw [← threw_congr hself stream db db, hreturned]
    refine sameButSeen h hfull hreturned' hsame (fun id => .inr ⟨rfl, ?_⟩) fun key => .inr ⟨rfl, ?_⟩
    · rw [cleared, if_pos hclear]
      rfl
    · rw [cleared, if_pos hclear]
      rfl

end NativeStream

/-! ## A file that calls twice -/

section Twice

def twiceFile : JsString := ascii "app.py"

def nodeLine (name : JsString) (kind : NodeKind) : NodeLine :=
  ⟨⟨twiceFile, name, kind, name⟩, ascii "python", (1, 2), ascii "00"⟩

def callLine (line : Nat) : EdgeLine where
  srcFile := twiceFile
  srcName := ascii "run"
  dstName := ascii "load"
  kind := .staticCall
  line := some line
  col := some 3

/-- A module with two functions, the first of which calls the second on two lines. -/
def twiceStream : NativeStream where
  records := [.start 1, .node (nodeLine (ascii "app") .module), .node (nodeLine (ascii "run") .function),
    .node (nodeLine (ascii "load") .function), .edge (callLine 4), .edge (callLine 7), .done]
  exitCode := 0

theorem twiceStream_framed : twiceStream.Framed where
  start := ⟨1, _, rfl, by simp⟩
  plain := by
    have hall : ∀ line ∈ nodeLines twiceStream.records,
        (0 : UInt16) ∉ line.file ∧ (0 : UInt16) ∉ line.name ∧ (0 : UInt16) ∉ line.qualifiedName := by
      decide +kernel
    intro line hline
    obtain ⟨hfile, hname, hqn⟩ := hall line hline
    exact ⟨hfile, hname, hqn⟩

/-- Every batch holds one row, and all clocks show the same time. -/
def optsAt (time : Nat) : DrainOptions where
  config := {}
  maxFiles := 10
  maxNodes := 10
  maxEdges := 10
  nodeBatch := 1
  edgeBatch := 1
  fullRebuild := true
  clearBeforeIngest := true
  seenAt := fun _ => time
  now := time

theorem twiceStream_returns : (twiceStream.drainIntoIndex (optsAt 1) .empty).threw = false := by decide +kernel

theorem drainIntoIndex_counts_twice :
    (∀ key, (twiceStream.drainIntoIndex (optsAt 1) .empty).db.edges.get key =
      if 0 < twiceStream.occurrences {} key then some ⟨twiceStream.occurrences {} key, 1⟩ else none) ∧
    (twiceStream.drainIntoIndex (optsAt 1) .empty).db.callSites =
      twiceStream.raws.filterMap (twiceStream.siteOf {}) := by
  obtain ⟨hedges, hsites, -⟩ := NativeStream.drainIntoIndex_counts twiceStream_framed rfl twiceStream_returns
  exact ⟨hedges, hsites⟩

/-- Running the stream again stamps its rows anew. -/
theorem rerun_restamps :
    ¬ ∀ again, Drain.SameRun (optsAt 1) again → ∀ id,
      (twiceStream.drainIntoIndex again (twiceStream.drainIntoIndex (optsAt 1) .empty).db).db.nodes.get id =
        (twiceStream.drainIntoIndex (optsAt 1) .empty).db.nodes.get id := by
  intro h
  have hsame : Drain.SameRun (optsAt 1) (optsAt 2) := ⟨rfl, rfl, rfl, rfl, rfl⟩
  have hget := h (optsAt 2) hsame (ascii "app")
  have hreturns : (twiceStream.drainIntoIndex (optsAt 2) (twiceStream.drainIntoIndex (optsAt 1) .empty).db).threw =
      false := by
    rw [← NativeStream.threw_congr hsame twiceStream .empty, twiceStream_returns]
  rw [(NativeStream.drainIntoIndex_tables twiceStream_framed rfl twiceStream_returns).1,
    (NativeStream.drainIntoIndex_tables twiceStream_framed rfl hreturns).1] at hget
  have hfirst : ((NativeStream.cleared (optsAt 1) .empty).upsertNodes (twiceStream.rows (optsAt 1).seenAt)).nodes.get
      (ascii "app") ≠ (IndexRows.empty.upsertNodes (twiceStream.rows (optsAt 2).seenAt)).nodes.get (ascii "app") := by
    decide +kernel
  exact hfirst hget.symm

end Twice

end Hayven.Graph
