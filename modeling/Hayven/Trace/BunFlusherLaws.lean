import Hayven.Lib.Tally
import Hayven.Trace.BunFlusher
/-!
# What the flusher conserves

Every count that was added to an edge is on the wire of a chunk that the daemon took or
refused for good, above the ceiling of such a row, or still buffered; for a coverage
cell nothing is cut. Flushes never overlap. The step lemma follows one turn of the event
loop, `ledger_run` a whole schedule.
-/
open Hayven.Lib Hayven.Daemon

namespace Hayven.Trace.Bun

/-! ## Counts under keys -/

/-- The count that a number stands for. -/
def natOf (n : JsNumber) : Nat := n.natValue.getD 0

@[simp] theorem natOf_fin (n : Nat) : natOf (.fin n) = n := by
  rw [natOf, JsNumber.natValue_eq_some.2 rfl]
  rfl

def bump (m : KeyedMap JsString JsNumber) (k : JsString) (w : JsNumber) : KeyedMap JsString JsNumber :=
  m.set k (((m.get k).getD (0 : Int)).add w)

section Counts
variable {ι : Type} [DecidableEq ι] (cellOf : JsString → ι) {P : JsString → Prop} {m : KeyedMap JsString JsNumber}

/-- What a map holds for a cell. -/
def held (m : KeyedMap JsString JsNumber) (i : ι) : Nat :=
  sumAt (fun e => cellOf e.1) (fun e => natOf e.2) m.entries i

/-- Proper keys, and a positive count under each. -/
def Sound (P : JsString → Prop) (m : KeyedMap JsString JsNumber) : Prop :=
  ∀ k v, m.get k = some v → P k ∧ ∃ n : Nat, 0 < n ∧ v = .fin n

theorem sound_empty : Sound P (.empty : KeyedMap JsString JsNumber) := fun _ _ h => by cases h

theorem add_natCast {a b : Nat} (h : a + b < 2 ^ 53) :
    (JsNumber.fin (a : Rat)).add (.fin (b : Rat)) = .fin ((a + b : Nat) : Rat) := by
  have hcast : (a : Rat) + b = (((a + b : Nat) : Int) : Rat) := by push_cast; rfl
  rw [JsNumber.add, hcast, roundRat_of_lt h]

/-- An increment within the safe integers is exact. -/
theorem bump_spec (hs : Sound P m) {k : JsString} (hk : P k) {j : Nat} (hj : 0 < j)
    (hlt : held cellOf m (cellOf k) + j < 2 ^ 53) :
    Sound P (bump m k (.fin j)) ∧
      ∀ i, held cellOf (bump m k (.fin j)) i = held cellOf m i + if cellOf k = i then j else 0 := by
  have hold : ∃ n : Nat, (m.get k).getD (0 : Int) = .fin n ∧ ((m.get k).map natOf).getD 0 = n ∧
      n ≤ held cellOf m (cellOf k) := by
    cases hget : m.get k with
    | none => exact ⟨0, rfl, rfl, Nat.zero_le _⟩
    | some v =>
      obtain ⟨-, n, -, rfl⟩ := hs k v hget
      have hle := le_sumAt (fun e : JsString × JsNumber => cellOf e.1) (fun e => natOf e.2)
        (KeyedMap.get_eq_some.1 hget)
      exact ⟨n, rfl, natOf_fin n, by rwa [natOf_fin] at hle⟩
  obtain ⟨n, hget, hnat, hle⟩ := hold
  have hsum : ((m.get k).getD (0 : Int)).add (.fin j) = .fin ((n + j : Nat) : Rat) := by
    rw [hget, add_natCast (by omega)]
  unfold bump
  rw [hsum]
  refine ⟨fun k' v hv => ?_, fun i => ?_⟩
  · rw [KeyedMap.get_set] at hv
    split at hv
    next heq => cases hv; exact ⟨heq ▸ hk, n + j, by omega, rfl⟩
    next => exact hs k' v hv
  · have hset := sumAt_setKey cellOf natOf k (.fin ((n + j : Nat) : Rat)) m.entries i
    rw [natOf_fin] at hset
    have hlookup : ((lookupKey k m.entries).map natOf).getD 0 = n := hnat
    rw [hlookup] at hset
    show sumAt _ _ (setKey k _ m.entries) i = _
    unfold held
    split_ifs at hset ⊢ <;> omega

/-- Putting rows back adds their counts. -/
theorem foldl_bump_spec {ρ : Type} (key : ρ → JsString) (count : ρ → JsNumber) {rows : List ρ} (hs : Sound P m)
    (hrows : ∀ r ∈ rows, P (key r) ∧ ∃ j : Nat, 0 < j ∧ count r = .fin j)
    (hlt : ∀ i, held cellOf m i + sumAt (fun r => cellOf (key r)) (fun r => natOf (count r)) rows i < 2 ^ 53) :
    Sound P (rows.foldl (fun m r => bump m (key r) (count r)) m) ∧
      ∀ i, held cellOf (rows.foldl (fun m r => bump m (key r) (count r)) m) i =
        held cellOf m i + sumAt (fun r => cellOf (key r)) (fun r => natOf (count r)) rows i := by
  induction rows generalizing m with
  | nil => exact ⟨hs, fun i => rfl⟩
  | cons r rows ih =>
    obtain ⟨hkey, j, hj, hcount⟩ := hrows r List.mem_cons_self
    simp only [sumAt_cons, hcount, natOf_fin] at hlt ⊢
    have hfirst := hlt (cellOf (key r))
    rw [if_pos rfl] at hfirst
    obtain ⟨hsound, hheld⟩ := bump_spec cellOf hs hkey hj (by omega)
    obtain ⟨hsound', hheld'⟩ := ih hsound (fun r' h' => hrows r' (List.mem_cons_of_mem _ h')) fun i => by
      have := hlt i
      rw [hheld]
      omega
    rw [List.foldl_cons, hcount]
    refine ⟨hsound', fun i => ?_⟩
    rw [hheld', hheld]
    omega

end Counts

/-! ## Edges -/

abbrev Edge := JsString × JsString × JsString

/-- An empty kind goes on the wire as a call. -/
def wireKind (kind : JsString) : JsString := if kind = [] then ascii "call" else kind

def Add.edge (c : Add) : Edge := (c.src, c.dst, wireKind c.kind)

def Observation.edge (o : Observation) : Edge := (o.src, o.dst, wireKind o.kind)

def Observation.key (o : Observation) : JsString := packKey o.src o.dst o.kind

/-- The edge that a drained key names. -/
def edgeOfKey (k : JsString) : Edge :=
  ((Aggregator.splitKey k).1, (Aggregator.splitKey (Aggregator.splitKey k).2).1,
    wireKind (Aggregator.splitKey (Aggregator.splitKey (Aggregator.splitKey k).2).2).1)

/-- The key of an edge with names and without separators. -/
def EdgeKey (k : JsString) : Prop :=
  ∃ src dst kind, k = packKey src dst kind ∧ src ≠ [] ∧ dst ≠ [] ∧ sep ∉ src ∧ sep ∉ dst ∧ sep ∉ kind

theorem splitKey_packKey {src dst kind : JsString} (hsrc : sep ∉ src) (hdst : sep ∉ dst) (hkind : sep ∉ kind) :
    Aggregator.splitKey (packKey src dst kind) = (src, dst ++ sep :: kind) ∧
      Aggregator.splitKey (dst ++ sep :: kind) = (dst, kind) ∧ (Aggregator.splitKey kind).1 = kind :=
  ⟨Aggregator.splitKey_append hsrc _, Aggregator.splitKey_append hdst _, firstSegment_of_not_mem hkind⟩

theorem edgeOfKey_packKey {src dst kind : JsString} (hsrc : sep ∉ src) (hdst : sep ∉ dst) (hkind : sep ∉ kind) :
    edgeOfKey (packKey src dst kind) = (src, dst, wireKind kind) := by
  obtain ⟨h1, h2, h3⟩ := splitKey_packKey hsrc hdst hkind
  simp only [edgeOfKey, h1, h2, h3]

/-- A row that goes back as it came: its key names it, and its count is positive. -/
structure GoodRow (o : Observation) : Prop where
  key : EdgeKey o.key
  edge : edgeOfKey o.key = o.edge
  admitted : o.src ≠ [] ∧ o.dst ≠ []
  count : ∃ j : Nat, 0 < j ∧ o.observed = .fin j

theorem natCast_le_zero {j : Nat} (hj : 0 < j) : (JsNumber.fin (j : Rat)).le (0 : Int) = false := by
  apply JsNumber.le_eq_false_of_gt
  rw [JsNumber.gt_fin, decide_eq_true_eq]
  exact_mod_cast hj

theorem Aggregator.counts_add {a : Aggregator} {c : Add} (hsrc : c.src ≠ []) (hdst : c.dst ≠ []) {j : Nat} (hj : 0 < j)
    (hw : c.weight = .fin j) : (a.add c).counts = bump a.counts (packKey c.src c.dst c.kind) (.fin j) := by
  have hnamed : ¬(c.src = [] ∨ c.dst = [] ∨ c.weight.le (0 : Int) = true) := by
    rw [hw, natCast_le_zero hj]
    simp [hsrc, hdst]
  rw [Aggregator.add, if_neg hnamed, hw]
  rfl

theorem Aggregator.add_nameless {a : Aggregator} {c : Add} (h : ¬(c.src ≠ [] ∧ c.dst ≠ [])) : a.add c = a := by
  rw [Aggregator.add, if_pos]
  rw [not_and_or, not_not, not_not] at h
  rcases h with h | h
  · exact .inl h
  · exact .inr (.inl h)

/-- Every drained row is good, and together they are what was held. -/
theorem drain_spec {a : Aggregator} (hs : Sound EdgeKey a.counts) (ts : Seconds) :
    (∀ o ∈ a.drain ts, GoodRow o) ∧
      ∀ i, sumAt Observation.edge (fun o => natOf o.observed) (a.drain ts) i = held edgeOfKey a.counts i := by
  have hrow : ∀ e ∈ a.counts.entries, EdgeKey e.1 ∧ ∃ n : Nat, 0 < n ∧ e.2 = .fin n := fun e he =>
    hs e.1 e.2 (KeyedMap.get_eq_some.2 he)
  constructor
  · intro o ho
    obtain ⟨e, he, rfl⟩ := List.mem_map.1 ho
    obtain ⟨⟨src, dst, kind, hk, hsrc, hdst, hs1, hs2, hs3⟩, hcount⟩ := hrow e he
    obtain ⟨h1, h2, h3⟩ := splitKey_packKey hs1 hs2 hs3
    rw [hk]
    simp only [h1, h2, h3]
    exact ⟨⟨src, dst, kind, rfl, hsrc, hdst, hs1, hs2, hs3⟩, edgeOfKey_packKey hs1 hs2 hs3, ⟨hsrc, hdst⟩, hcount⟩
  · intro i
    rw [Aggregator.drain, sumAt_map]
    rfl

/-- Putting good rows back. -/
theorem rebuffer_edges {a : Aggregator} (hs : Sound EdgeKey a.counts) {rows : List Observation}
    (hrows : ∀ o ∈ rows, GoodRow o)
    (hlt : ∀ i, held edgeOfKey a.counts i + sumAt Observation.edge (fun o => natOf o.observed) rows i < 2 ^ 53) :
    Sound EdgeKey (rows.foldl (fun agg o => agg.add ⟨o.src, o.dst, o.kind, o.observed⟩) a).counts ∧
      ∀ i, held edgeOfKey (rows.foldl (fun agg o => agg.add ⟨o.src, o.dst, o.kind, o.observed⟩) a).counts i =
        held edgeOfKey a.counts i + sumAt Observation.edge (fun o => natOf o.observed) rows i := by
  have hfold : (rows.foldl (fun agg o => agg.add ⟨o.src, o.dst, o.kind, o.observed⟩) a).counts =
      rows.foldl (fun m o => bump m o.key o.observed) a.counts := by
    clear hs hlt
    induction rows generalizing a with
    | nil => rfl
    | cons o rows ih =>
      obtain ⟨-, -, ⟨hsrc, hdst⟩, j, hj, hcount⟩ := hrows o List.mem_cons_self
      rw [List.foldl_cons, List.foldl_cons, ih fun o' h => hrows o' (List.mem_cons_of_mem _ h),
        Aggregator.counts_add hsrc hdst hj hcount, hcount]
      rfl
  have hsum : ∀ i, sumAt (fun o : Observation => edgeOfKey o.key) (fun o => natOf o.observed) rows i =
      sumAt Observation.edge (fun o => natOf o.observed) rows i := fun i =>
    sumAt_congr fun o ho => ⟨(hrows o ho).edge, rfl⟩
  rw [hfold]
  obtain ⟨hsound, hheld⟩ := foldl_bump_spec edgeOfKey Observation.key Observation.observed hs
    (fun o ho => ⟨(hrows o ho).key, (hrows o ho).count⟩) (fun i => by rw [hsum]; exact hlt i)
  exact ⟨hsound, fun i => by rw [hheld, hsum]⟩

/-! ## Coverage cells -/

abbrev Cell := JsString × JsString

def CoverageRow.cell (c : CoverageRow) : Cell := (c.test, c.entity)

def CoverageRow.key (c : CoverageRow) : JsString := CoverageAggregator.coverageKey c.test c.entity

def cellOfKey (k : JsString) : Cell :=
  ((Aggregator.splitKey k).1, (Aggregator.splitKey (Aggregator.splitKey k).2).1)

def CellKey (k : JsString) : Prop :=
  ∃ test entity, k = CoverageAggregator.coverageKey test entity ∧ test ≠ [] ∧ entity ≠ [] ∧ sep ∉ test ∧ sep ∉ entity

theorem splitKey_coverageKey {test entity : JsString} (htest : sep ∉ test) (hentity : sep ∉ entity) :
    Aggregator.splitKey (CoverageAggregator.coverageKey test entity) = (test, entity) ∧
      (Aggregator.splitKey entity).1 = entity :=
  ⟨Aggregator.splitKey_append htest _, firstSegment_of_not_mem hentity⟩

structure GoodCell (c : CoverageRow) : Prop where
  key : CellKey c.key
  cell : cellOfKey c.key = c.cell
  admitted : c.test ≠ [] ∧ c.entity ≠ []
  count : ∃ j : Nat, 0 < j ∧ c.weight = .fin j

theorem CoverageAggregator.counts_add {a : CoverageAggregator} {c : CoverageRow} (htest : c.test ≠ [])
    (hentity : c.entity ≠ []) {j : Nat} (hj : 0 < j) (hw : c.weight = .fin j) :
    (a.add c).counts = bump a.counts c.key (.fin j) := by
  have hnamed : ¬(c.test = [] ∨ c.entity = [] ∨ c.weight.le (0 : Int) = true) := by
    rw [hw, natCast_le_zero hj]
    simp [htest, hentity]
  rw [CoverageAggregator.add, if_neg hnamed]
  show a.counts.set _ (JsNumber.add _ c.weight) = _
  rw [hw]
  rfl

theorem CoverageAggregator.add_nameless {a : CoverageAggregator} {c : CoverageRow}
    (h : ¬(c.test ≠ [] ∧ c.entity ≠ [])) : a.add c = a := by
  rw [CoverageAggregator.add, if_pos]
  rw [not_and_or, not_not, not_not] at h
  rcases h with h | h
  · exact .inl h
  · exact .inr (.inl h)

theorem CoverageAggregator.mem_drain {a : CoverageAggregator} {c : CoverageRow} (h : c ∈ a.drain) :
    ∃ k, a.counts.get k = some c.weight ∧ c.test = (Aggregator.splitKey k).1 ∧
      c.entity = (Aggregator.splitKey (Aggregator.splitKey k).2).1 := by
  obtain ⟨⟨⟨k, v⟩, he⟩, -, rfl⟩ := List.mem_map.1 h
  exact ⟨k, KeyedMap.get_eq_some.2 he, rfl, rfl⟩

theorem drain_cells {a : CoverageAggregator} (hs : Sound CellKey a.counts) :
    (∀ c ∈ a.drain, GoodCell c) ∧
      ∀ i, sumAt CoverageRow.cell (fun c => natOf c.weight) a.drain i = held cellOfKey a.counts i := by
  constructor
  · intro c hc
    obtain ⟨k, hget, htestEq, hentityEq⟩ := CoverageAggregator.mem_drain hc
    obtain ⟨⟨test, entity, rfl, htest, hentity, hs1, hs2⟩, hcount⟩ := hs k c.weight hget
    obtain ⟨h1, h2⟩ := splitKey_coverageKey hs1 hs2
    rw [h1] at htestEq hentityEq
    rw [h2] at hentityEq
    have hkey : c.key = CoverageAggregator.coverageKey test entity := by
      rw [CoverageRow.key, htestEq, hentityEq]
    have hcell : cellOfKey c.key = c.cell := by
      rw [hkey, cellOfKey, h1, h2, CoverageRow.cell, htestEq, hentityEq]
    exact ⟨hkey ▸ ⟨test, entity, rfl, htest, hentity, hs1, hs2⟩, hcell, ⟨htestEq ▸ htest, hentityEq ▸ hentity⟩, hcount⟩
  · intro i
    rw [CoverageAggregator.drain, sumAt_map]
    have hval : sumAt (fun e : JsString × JsNumber => cellOfKey e.1) (fun e => natOf e.2)
        (a.counts.entries.attach.map Subtype.val) i = _ := sumAt_map Subtype.val a.counts.entries.attach
    rw [List.attach_map_subtype_val] at hval
    exact hval.symm

theorem rebuffer_cells {a : CoverageAggregator} (hs : Sound CellKey a.counts) {rows : List CoverageRow}
    (hrows : ∀ c ∈ rows, GoodCell c)
    (hlt : ∀ i, held cellOfKey a.counts i + sumAt CoverageRow.cell (fun c => natOf c.weight) rows i < 2 ^ 53) :
    Sound CellKey (rows.foldl CoverageAggregator.add a).counts ∧
      ∀ i, held cellOfKey (rows.foldl CoverageAggregator.add a).counts i =
        held cellOfKey a.counts i + sumAt CoverageRow.cell (fun c => natOf c.weight) rows i := by
  have hfold : (rows.foldl CoverageAggregator.add a).counts = rows.foldl (fun m c => bump m c.key c.weight) a.counts := by
    clear hs hlt
    induction rows generalizing a with
    | nil => rfl
    | cons c rows ih =>
      obtain ⟨-, -, ⟨htest, hentity⟩, j, hj, hcount⟩ := hrows c List.mem_cons_self
      rw [List.foldl_cons, List.foldl_cons, ih fun c' h => hrows c' (List.mem_cons_of_mem _ h),
        CoverageAggregator.counts_add htest hentity hj hcount, hcount]
  have hsum : ∀ i, sumAt (fun c : CoverageRow => cellOfKey c.key) (fun c => natOf c.weight) rows i =
      sumAt CoverageRow.cell (fun c => natOf c.weight) rows i := fun i =>
    sumAt_congr fun c hc => ⟨(hrows c hc).cell, rfl⟩
  rw [hfold]
  obtain ⟨hsound, hheld⟩ := foldl_bump_spec cellOfKey CoverageRow.key CoverageRow.weight hs
    (fun c hc => ⟨(hrows c hc).key, (hrows c hc).count⟩) (fun i => by rw [hsum]; exact hlt i)
  exact ⟨hsound, fun i => by rw [hheld, hsum]⟩

/-! ## The ledger -/

/-- The chunks a flush still has in hand. -/
def Flush.chunks (f : Flush) : List Chunk :=
  match f.stage with
  | .running body => body.chunks
  | _ => []

/-- The daemon took the chunk or refused it for good. -/
def processed (outcome : Option SendError) : Bool := outcome.all isPermanentRejection

def edgesIn (chunks : List Chunk) (i : Edge) : Nat :=
  sumAt Observation.edge (fun o => natOf o.observed) (chunks.flatMap Prod.fst) i

def cellsIn (chunks : List Chunk) (i : Cell) : Nat :=
  sumAt CoverageRow.cell (fun c => natOf c.weight) (chunks.flatMap Prod.snd) i

/-- Every row of the chunks goes back as it came. -/
def GoodChunks (chunks : List Chunk) : Prop := ∀ p ∈ chunks, (∀ o ∈ p.1, GoodRow o) ∧ ∀ c ∈ p.2, GoodCell c

namespace Tracer

def processedChunks (s : Tracer) : List Chunk := (s.sends.filter fun x => processed x.1).map Prod.snd

/-- What the running flushes have in hand, edge by edge. -/
def airEdges (s : Tracer) (i : Edge) : Nat := (s.flushes.map fun f => edgesIn f.chunks i).sum

def airCells (s : Tracer) (i : Cell) : Nat := (s.flushes.map fun f => cellsIn f.chunks i).sum

end Tracer

/-- The admitted calls of a schedule. -/
def addedEdges (events : List Event) : List Add :=
  events.filterMap fun e => match e with
    | .add c => if c.src ≠ [] ∧ c.dst ≠ [] then some c else none
    | _ => none

def addedCells (events : List Event) : List CoverageRow :=
  events.filterMap fun e => match e with
    | .cover c => if c.test ≠ [] ∧ c.entity ≠ [] then some c else none
    | _ => none

def edgeCount (events : List Event) (i : Edge) : Nat := sumAt Add.edge (fun c => natOf c.weight) (addedEdges events) i

def cellCount (events : List Event) (i : Cell) : Nat :=
  sumAt CoverageRow.cell (fun c => natOf c.weight) (addedCells events) i

/-- Names without separators and positive integer counts. -/
def Event.Proper : Event → Prop
  | .add c => (sep ∉ c.src ∧ sep ∉ c.dst ∧ sep ∉ c.kind) ∧ ∃ j : Nat, 0 < j ∧ c.weight = .fin j
  | .cover c => (sep ∉ c.test ∧ sep ∉ c.entity) ∧ ∃ j : Nat, 0 < j ∧ c.weight = .fin j
  | _ => True

/-- The books balance after a schedule. -/
structure Ledger (opts : Options) (s : Tracer) (events : List Event) : Prop where
  aggSound : Sound EdgeKey s.agg.counts
  covSound : Sound CellKey s.coverage.counts
  air : ∀ f ∈ s.flushes, GoodChunks f.chunks
  sends : GoodChunks (s.sends.map Prod.snd)
  uncovered : opts.covers = false → ∀ f ∈ s.flushes, ∀ p ∈ f.chunks, p.2 = []
  edges : ∀ i, edgesIn s.processedChunks i + held edgeOfKey s.agg.counts i + s.airEdges i = edgeCount events i
  cells : ∀ i, cellsIn s.processedChunks i + held cellOfKey s.coverage.counts i + s.airCells i = cellCount events i

/-! ### What a turn does to the chunks -/

theorem edgesIn_cons (p : Chunk) (rest : List Chunk) (i : Edge) :
    edgesIn (p :: rest) i = sumAt Observation.edge (fun o => natOf o.observed) p.1 i + edgesIn rest i := by
  rw [edgesIn, List.flatMap_cons, sumAt_append]
  rfl

theorem cellsIn_cons (p : Chunk) (rest : List Chunk) (i : Cell) :
    cellsIn (p :: rest) i = sumAt CoverageRow.cell (fun c => natOf c.weight) p.2 i + cellsIn rest i := by
  rw [cellsIn, List.flatMap_cons, sumAt_append]
  rfl

theorem edgesIn_append (a b : List Chunk) (i : Edge) : edgesIn (a ++ b) i = edgesIn a i + edgesIn b i := by
  rw [edgesIn, List.flatMap_append, sumAt_append]
  rfl

theorem cellsIn_append (a b : List Chunk) (i : Cell) : cellsIn (a ++ b) i = cellsIn a i + cellsIn b i := by
  rw [cellsIn, List.flatMap_append, sumAt_append]
  rfl

theorem flatMap_snd_pairChunks {α β : Type} (os : List (List α)) (cs : List (List β)) :
    (pairChunks os cs).flatMap Prod.snd = cs.flatten := by
  induction os generalizing cs with
  | nil =>
    rw [pairChunks, List.flatMap_map]
    simp
  | cons o os ih =>
    cases cs with
    | nil => rw [pairChunks, List.flatMap_cons, ih, List.flatten_nil, List.append_nil]
    | cons c cs => rw [pairChunks, List.flatMap_cons, ih, List.flatten_cons]

/-- Each drained row is in exactly one chunk, at its place. -/
theorem flatMap_chunksOf (obs : List Observation) (coverage : List CoverageRow) :
    (chunksOf obs coverage).flatMap Prod.fst = obs ∧ (chunksOf obs coverage).flatMap Prod.snd = coverage := by
  unfold chunksOf
  rw [flatMap_fst_pairChunks, flatMap_snd_pairChunks, flatten_chunk, flatten_chunk]
  exact ⟨rfl, rfl⟩

theorem good_chunksOf {obs : List Observation} {coverage : List CoverageRow} (hobs : ∀ o ∈ obs, GoodRow o)
    (hcov : ∀ c ∈ coverage, GoodCell c) : GoodChunks (chunksOf obs coverage) := by
  obtain ⟨hfst, hsnd⟩ := flatMap_chunksOf obs coverage
  intro p hp
  constructor
  · intro o ho
    exact hobs o (hfst ▸ List.mem_flatMap.2 ⟨p, hp, ho⟩)
  · intro c hc
    exact hcov c (hsnd ▸ List.mem_flatMap.2 ⟨p, hp, hc⟩)

/-- A flush at another stage. -/
theorem mem_modify_stage {flushes : List Flush} {i : Nat} {stage : Stage} {f : Flush}
    (h : f ∈ flushes.modify i fun f => { f with stage }) : f ∈ flushes ∨ f.stage = stage := by
  obtain ⟨j, hj⟩ := List.mem_iff_getElem?.1 h
  rw [List.getElem?_modify] at hj
  split_ifs at hj
  · obtain ⟨f', -, rfl⟩ := Option.map_eq_some_iff.1 hj
    exact .inr rfl
  · exact .inl (List.mem_iff_getElem?.2 ⟨j, by simpa using hj⟩)

namespace Tracer

/-- The stage a flush with these chunks in hand is at after a send. -/
theorem settle_spec (opts : Options) (s : Tracer) (i : Nat) (body : Body) (p : Chunk) (rest : List Chunk)
    (outcome : Option SendError) (now : Int) :
    (∃ stage, (s.settle opts i body p rest outcome now).flushes = s.flushes.modify i (fun f => { f with stage }) ∧
      (∀ after, Flush.chunks ⟨after, stage⟩ = rest) ∧ stage ≠ .waiting ∧ (rest = [] → stage = .settled)) ∧
    (s.settle opts i body p rest outcome now).sends = s.sends ++ [(outcome, p)] ∧
    (s.settle opts i body p rest outcome now).inFlight = s.inFlight ∧
    (s.settle opts i body p rest outcome now).agg =
      (if processed outcome then s.agg else (s.rebuffer opts p).agg) ∧
    (s.settle opts i body p rest outcome now).coverage =
      (if processed outcome then s.coverage else (s.rebuffer opts p).coverage) := by
  -- the loop leaves the aggregators to the catch, and the flush to `finish` or the next round
  have hstage : ∀ (t : Tracer) (b : Body), t.flushes = s.flushes → t.inFlight = s.inFlight → b.chunks = rest →
      let t' := if rest = [] then t.finish i b now else t.setStage i (.running b)
      (∃ stage, t'.flushes = s.flushes.modify i (fun f => { f with stage }) ∧
        (∀ after, Flush.chunks ⟨after, stage⟩ = rest) ∧ stage ≠ .waiting ∧ (rest = [] → stage = .settled)) ∧
      t'.sends = t.sends ∧ t'.inFlight = s.inFlight ∧ t'.agg = t.agg ∧ t'.coverage = t.coverage := by
    intro t b hflushes hinFlight hchunks
    split_ifs with hrest
    · unfold finish
      cases b.anyError with
      | none => exact ⟨⟨.settled, by rw [← hflushes]; rfl, fun _ => hrest.symm, nofun, fun _ => rfl⟩, rfl, hinFlight, rfl, rfl⟩
      | some e => exact ⟨⟨.settled, by rw [← hflushes]; rfl, fun _ => hrest.symm, nofun, fun _ => rfl⟩, rfl, hinFlight, rfl, rfl⟩
    · exact ⟨⟨.running b, by rw [← hflushes]; rfl, fun _ => hchunks, nofun, fun h => absurd h hrest⟩, rfl, hinFlight, rfl,
        rfl⟩
  cases outcome with
  | none => exact hstage { s with sends := s.sends ++ [(none, p)] } _ rfl rfl rfl
  | some e =>
    by_cases hperm : isPermanentRejection e = true
    · have hfailed : s.failed opts p e = ({ s with permanentDropLogged := true }, ascii "dropped-permanent: " ++ e.text) := by
        rw [failed, if_pos hperm]
      simp only [settle, hfailed, processed, Option.all_some, hperm, if_true]
      exact hstage { s with permanentDropLogged := true, sends := s.sends ++ [(some e, p)] }
        { body with chunks := rest, anyError := some (ascii "dropped-permanent: " ++ e.text) } rfl rfl rfl
    · have hfailed : s.failed opts p e = (s.rebuffer opts p, e.text) := by rw [failed, if_neg hperm]
      simp only [settle, hfailed, processed, Option.all_some, hperm]
      exact hstage { s.rebuffer opts p with sends := s.sends ++ [(some e, p)] }
        { body with chunks := rest, anyError := some e.text } rfl rfl rfl

end Tracer

/-! ### Every turn keeps the books -/

section Turns
variable {opts : Options} {s : Tracer} {events : List Event}

theorem edgeCount_append (events events' : List Event) (i : Edge) :
    edgeCount (events ++ events') i = edgeCount events i + edgeCount events' i := by
  simp only [edgeCount, addedEdges, List.filterMap_append, sumAt_append]

theorem cellCount_append (events events' : List Event) (i : Cell) :
    cellCount (events ++ events') i = cellCount events i + cellCount events' i := by
  simp only [cellCount, addedCells, List.filterMap_append, sumAt_append]

theorem edgeCount_add {c : Add} {j : Nat} (hnamed : c.src ≠ [] ∧ c.dst ≠ []) (hw : c.weight = .fin j) (i : Edge) :
    edgeCount [.add c] i = if c.edge = i then j else 0 := by
  simp only [edgeCount, addedEdges, List.filterMap_cons, List.filterMap_nil, if_pos hnamed, sumAt_cons, sumAt_nil, hw,
    natOf_fin, Nat.add_zero]

theorem cellCount_cover {c : CoverageRow} {j : Nat} (hnamed : c.test ≠ [] ∧ c.entity ≠ []) (hw : c.weight = .fin j)
    (i : Cell) : cellCount [.cover c] i = if c.cell = i then j else 0 := by
  simp only [cellCount, addedCells, List.filterMap_cons, List.filterMap_nil, if_pos hnamed, sumAt_cons, sumAt_nil, hw,
    natOf_fin, Nat.add_zero]

theorem Ledger.add (h : Ledger opts s events) {c : Add} (hproper : (Event.add c).Proper)
    (hsafe : ∀ i, edgeCount (events ++ [.add c]) i < 2 ^ 53) :
    Ledger opts { s with agg := s.agg.add c } (events ++ [.add c]) := by
  obtain ⟨⟨hsrc, hdst, hkind⟩, j, hj, hw⟩ := hproper
  have hcells : ∀ i, cellCount (events ++ [.add c]) i = cellCount events i := fun i => by
    rw [cellCount_append]
    rfl
  by_cases hnamed : c.src ≠ [] ∧ c.dst ≠ []
  · have hadd := edgeCount_add hnamed hw
    have hedge : edgeOfKey (packKey c.src c.dst c.kind) = c.edge := edgeOfKey_packKey hsrc hdst hkind
    have hkey : EdgeKey (packKey c.src c.dst c.kind) := ⟨_, _, _, rfl, hnamed.1, hnamed.2, hsrc, hdst, hkind⟩
    obtain ⟨hsound, hheld⟩ := bump_spec edgeOfKey h.aggSound hkey hj (by
      have hsum := hsafe c.edge
      have hledger := h.edges c.edge
      rw [edgeCount_append, hadd, if_pos rfl] at hsum
      rw [hedge]
      omega)
    rw [← Aggregator.counts_add hnamed.1 hnamed.2 hj hw] at hsound hheld
    refine ⟨hsound, h.covSound, h.air, h.sends, h.uncovered, fun i => ?_, fun i => (h.cells i).trans (hcells i).symm⟩
    have hledger := h.edges i
    have hnew := hheld i
    rw [hedge] at hnew
    rw [edgeCount_append, hadd, hnew]
    show edgesIn s.processedChunks i + _ + s.airEdges i = _
    omega
  · have hnone : ∀ i, edgeCount (events ++ [.add c]) i = edgeCount events i := fun i => by
      have hskip : edgeCount [.add c] i = 0 := by simp [edgeCount, addedEdges, hnamed]
      rw [edgeCount_append, hskip, Nat.add_zero]
    rw [Aggregator.add_nameless hnamed]
    exact ⟨h.aggSound, h.covSound, h.air, h.sends, h.uncovered, fun i => (h.edges i).trans (hnone i).symm,
      fun i => (h.cells i).trans (hcells i).symm⟩

theorem Ledger.cover (h : Ledger opts s events) {c : CoverageRow} (hproper : (Event.cover c).Proper)
    (hsafe : ∀ i, cellCount (events ++ [.cover c]) i < 2 ^ 53) :
    Ledger opts { s with coverage := s.coverage.add c } (events ++ [.cover c]) := by
  obtain ⟨⟨htest, hentity⟩, j, hj, hw⟩ := hproper
  have hedges : ∀ i, edgeCount (events ++ [.cover c]) i = edgeCount events i := fun i => by
    rw [edgeCount_append]
    rfl
  by_cases hnamed : c.test ≠ [] ∧ c.entity ≠ []
  · have hadd := cellCount_cover hnamed hw
    obtain ⟨h1, h2⟩ := splitKey_coverageKey htest hentity
    have hcell : cellOfKey c.key = c.cell := by rw [CoverageRow.key, cellOfKey, h1, h2]; rfl
    have hkey : CellKey c.key := ⟨_, _, rfl, hnamed.1, hnamed.2, htest, hentity⟩
    obtain ⟨hsound, hheld⟩ := bump_spec cellOfKey h.covSound hkey hj (by
      have hsum := hsafe c.cell
      have hledger := h.cells c.cell
      rw [cellCount_append, hadd, if_pos rfl] at hsum
      rw [hcell]
      omega)
    rw [← CoverageAggregator.counts_add hnamed.1 hnamed.2 hj hw] at hsound hheld
    refine ⟨h.aggSound, hsound, h.air, h.sends, h.uncovered, fun i => (h.edges i).trans (hedges i).symm, fun i => ?_⟩
    have hledger := h.cells i
    have hnew := hheld i
    rw [hcell] at hnew
    rw [cellCount_append, hadd, hnew]
    show cellsIn s.processedChunks i + _ + s.airCells i = _
    omega
  · have hnone : ∀ i, cellCount (events ++ [.cover c]) i = cellCount events i := fun i => by
      have hskip : cellCount [.cover c] i = 0 := by simp [cellCount, addedCells, hnamed]
      rw [cellCount_append, hskip, Nat.add_zero]
    rw [CoverageAggregator.add_nameless hnamed]
    exact ⟨h.aggSound, h.covSound, h.air, h.sends, h.uncovered, fun i => (h.edges i).trans (hedges i).symm,
      fun i => (h.cells i).trans (hnone i).symm⟩

/-- An event that adds no count. -/
theorem Ledger.of_quiet {e : Event} (hedge : addedEdges [e] = []) (hcell : addedCells [e] = [])
    (h : Ledger opts s events) : Ledger opts s (events ++ [e]) := by
  refine ⟨h.aggSound, h.covSound, h.air, h.sends, h.uncovered, fun i => ?_, fun i => ?_⟩
  · rw [h.edges i, edgeCount_append, edgeCount, edgeCount, hedge]
    rfl
  · rw [h.cells i, cellCount_append, cellCount, cellCount, hcell]
    rfl

theorem Ledger.flushOnce (h : Ledger opts s events) : Ledger opts s.flushOnce events := by
  have hmem : ∀ f ∈ s.flushOnce.flushes, f ∈ s.flushes ∨ f.chunks = [] := by
    intro f hf
    rcases List.mem_append.1 hf with hf | hf
    · exact .inl hf
    · rw [List.mem_singleton.1 hf]
      exact .inr rfl
  refine ⟨h.aggSound, h.covSound, fun f hf => ?_, h.sends, fun hcovers f hf => ?_, fun i => ?_, fun i => ?_⟩
  · rcases hmem f hf with hf | hnil
    · exact h.air f hf
    · rw [hnil]
      exact fun p hp => absurd hp List.not_mem_nil
  · rcases hmem f hf with hf | hnil
    · exact h.uncovered hcovers f hf
    · rw [hnil]
      exact fun p hp => absurd hp List.not_mem_nil
  · have hair : s.flushOnce.airEdges i = s.airEdges i := by
      simp [Tracer.airEdges, Tracer.flushOnce, Flush.chunks, edgesIn]
    rw [hair]
    exact h.edges i
  · have hair : s.flushOnce.airCells i = s.airCells i := by
      simp [Tracer.airCells, Tracer.flushOnce, Flush.chunks, cellsIn]
    rw [hair]
    exact h.cells i

/-- Moving a flush to another stage exchanges the chunks it has in hand. -/
theorem airEdges_modify {flushes : List Flush} {i : Nat} {f : Flush} (hf : flushes[i]? = some f) (stage : Stage) (e : Edge) :
    ((flushes.modify i fun f => { f with stage }).map fun f => edgesIn f.chunks e).sum + edgesIn f.chunks e =
      (flushes.map fun f => edgesIn f.chunks e).sum + edgesIn (Flush.chunks ⟨f.after, stage⟩) e :=
  sum_map_modify (fun f => edgesIn f.chunks e) _ hf

theorem airCells_modify {flushes : List Flush} {i : Nat} {f : Flush} (hf : flushes[i]? = some f) (stage : Stage) (c : Cell) :
    ((flushes.modify i fun f => { f with stage }).map fun f => cellsIn f.chunks c).sum + cellsIn f.chunks c =
      (flushes.map fun f => cellsIn f.chunks c).sum + cellsIn (Flush.chunks ⟨f.after, stage⟩) c :=
  sum_map_modify (fun f => cellsIn f.chunks c) _ hf

theorem held_empty {ι : Type} [DecidableEq ι] (cellOf : JsString → ι) (i : ι) : held cellOf .empty i = 0 := rfl

/-- Draining moves what was held into the hands of the flush. -/
theorem Ledger.doFlush (h : Ledger opts s events) {i : Nat} {after : Option Nat}
    (hf : s.flushes[i]? = some ⟨after, .waiting⟩) (ts : Seconds) : Ledger opts (s.doFlush opts i ts) events := by
  obtain ⟨hobs, hsumObs⟩ := drain_spec h.aggSound ts
  obtain ⟨hcov, hsumCov⟩ := drain_cells h.covSound
  obtain ⟨stage, hdo, hchunks⟩ : ∃ stage, s.doFlush opts i ts = Tracer.setStage { s with
      agg := .new, coverage := if opts.covers then .new else s.coverage } i stage ∧
      Flush.chunks ⟨after, stage⟩ = chunksOf (s.agg.drain ts) (if opts.covers then s.coverage.drain else []) := by
    unfold Tracer.doFlush
    dsimp only
    split_ifs with hcovers hempty hempty
    · rw [List.length_eq_zero_iff, List.length_eq_zero_iff] at hempty
      exact ⟨_, rfl, by rw [hempty.1, hempty.2]; rfl⟩
    · exact ⟨_, rfl, rfl⟩
    · rw [List.length_eq_zero_iff] at hempty
      exact ⟨_, rfl, by rw [hempty.1]; rfl⟩
    · exact ⟨_, rfl, rfl⟩
  have hflat := flatMap_chunksOf (s.agg.drain ts) (if opts.covers then s.coverage.drain else [])
  have hgood : GoodChunks (chunksOf (s.agg.drain ts) (if opts.covers then s.coverage.drain else [])) := by
    apply good_chunksOf hobs
    split_ifs
    · exact hcov
    · exact fun c hc => absurd hc List.not_mem_nil
  rw [hdo]
  refine ⟨sound_empty, ?_, fun f hf' => ?_, h.sends, fun hcovers f hf' => ?_, fun e => ?_, fun c => ?_⟩
  · show Sound CellKey (if opts.covers then CoverageAggregator.new else s.coverage).counts
    split_ifs
    · exact sound_empty
    · exact h.covSound
  · rcases mem_modify_stage hf' with hf' | hstage
    · exact h.air f hf'
    · have heq : f.chunks = Flush.chunks ⟨after, stage⟩ := by rw [Flush.chunks, hstage]; rfl
      rw [heq, hchunks]
      exact hgood
  · rcases mem_modify_stage hf' with hf' | hstage
    · exact h.uncovered hcovers f hf'
    · have heq : f.chunks = Flush.chunks ⟨after, stage⟩ := by rw [Flush.chunks, hstage]; rfl
      rw [heq, hchunks]
      rw [hcovers] at hflat ⊢
      intro p hp
      apply List.eq_nil_of_subset_nil
      intro c hc
      have hin := List.mem_flatMap.2 ⟨p, hp, hc⟩
      rw [hflat.2] at hin
      exact hin
  · have hair := airEdges_modify hf stage e
    have hledger := h.edges e
    rw [hchunks, edgesIn, edgesIn, hflat.1, hsumObs] at hair
    show edgesIn s.processedChunks e + held edgeOfKey .empty e + _ = _
    rw [held_empty]
    simp only [Tracer.airEdges, Tracer.setStage, Flush.chunks, List.flatMap_nil, sumAt_nil] at hair hledger ⊢
    omega
  · have hair := airCells_modify hf stage c
    have hledger := h.cells c
    rw [hchunks, cellsIn, cellsIn, hflat.2] at hair
    show cellsIn s.processedChunks c + held cellOfKey (if opts.covers then CoverageAggregator.new else s.coverage).counts c +
      _ = _
    simp only [Tracer.airCells, Tracer.setStage, Flush.chunks, List.flatMap_nil, sumAt_nil] at hair hledger ⊢
    split_ifs at hair ⊢
    · rw [hsumCov] at hair
      rw [show held cellOfKey CoverageAggregator.new.counts c = 0 from rfl]
      omega
    · rw [sumAt_nil] at hair
      omega

/-- A settled send moves its chunk to the processed ones or back to the aggregators. -/
theorem Ledger.settle (h : Ledger opts s events) (hsafe : ∀ i, edgeCount events i < 2 ^ 53)
    (hsafeCells : ∀ i, cellCount events i < 2 ^ 53) {i : Nat} {after : Option Nat} {body : Body} {p : Chunk}
    {rest : List Chunk} (hf : s.flushes[i]? = some ⟨after, .running body⟩) (hbody : body.chunks = p :: rest)
    (outcome : Option SendError) (now : Int) : Ledger opts (s.settle opts i body p rest outcome now) events := by
  have hmem : (⟨after, .running body⟩ : Flush) ∈ s.flushes := List.mem_of_getElem? hf
  have hchunks : Flush.chunks ⟨after, .running body⟩ = p :: rest := hbody
  have hgood := h.air _ hmem
  rw [hchunks] at hgood
  have hgoodp := hgood p List.mem_cons_self
  obtain ⟨⟨stage, hflushes, hrest, -, -⟩, hsends, -, hagg, hcov⟩ := Tracer.settle_spec opts s i body p rest outcome now
  have hairE := fun e => airEdges_modify hf stage e
  have hairC := fun c => airCells_modify hf stage c
  simp only [hchunks, hrest, edgesIn_cons, cellsIn_cons] at hairE hairC
  have hprocessed : (s.settle opts i body p rest outcome now).processedChunks =
      s.processedChunks ++ if processed outcome then [p] else [] := by
    rw [Tracer.processedChunks, hsends, List.filter_append, List.map_append]
    congr 1
    by_cases hp : processed outcome = true <;> simp [hp]
  -- what the catch puts back, if anything
  have hE : Sound EdgeKey (s.settle opts i body p rest outcome now).agg.counts ∧ ∀ e,
      held edgeOfKey (s.settle opts i body p rest outcome now).agg.counts e = held edgeOfKey s.agg.counts e +
        if processed outcome then 0 else sumAt Observation.edge (fun o => natOf o.observed) p.1 e := by
    rw [hagg]
    split_ifs
    · exact ⟨h.aggSound, fun e => rfl⟩
    · apply rebuffer_edges h.aggSound hgoodp.1
      intro e
      have hledger := h.edges e
      have hair := hairE e
      have hbound := hsafe e
      simp only [Tracer.airEdges] at hledger
      omega
  have hC : Sound CellKey (s.settle opts i body p rest outcome now).coverage.counts ∧ ∀ c,
      held cellOfKey (s.settle opts i body p rest outcome now).coverage.counts c = held cellOfKey s.coverage.counts c +
        if processed outcome then 0 else sumAt CoverageRow.cell (fun c => natOf c.weight) p.2 c := by
    rw [hcov]
    split_ifs with hproc
    · exact ⟨h.covSound, fun c => rfl⟩
    · by_cases hcovers : opts.covers = true
      · simp only [Tracer.rebuffer, hcovers, if_true]
        apply rebuffer_cells h.covSound hgoodp.2
        intro c
        have hledger := h.cells c
        have hair := hairC c
        have hbound := hsafeCells c
        simp only [Tracer.airCells] at hledger
        omega
      · have hnil : p.2 = [] := h.uncovered (by simpa using hcovers) _ hmem p (by rw [hchunks]; exact List.mem_cons_self)
        simp only [Tracer.rebuffer, hcovers, hnil, sumAt_nil, Nat.add_zero]
        exact ⟨h.covSound, fun c => rfl⟩
  have hstage {f : Flush} (hf' : f ∈ (s.settle opts i body p rest outcome now).flushes) :
      f ∈ s.flushes ∨ f.chunks = rest := by
    rw [hflushes] at hf'
    rcases mem_modify_stage hf' with hf' | hst
    · exact .inl hf'
    · exact .inr (by rw [← hrest after, Flush.chunks, hst]; rfl)
  refine ⟨hE.1, hC.1, fun f hf' => ?_, ?_, fun hcovers f hf' => ?_, fun e => ?_, fun c => ?_⟩
  · rcases hstage hf' with hf' | hrest
    · exact h.air f hf'
    · rw [hrest]
      exact fun q hq => hgood q (List.mem_cons_of_mem _ hq)
  · rw [hsends, List.map_append]
    intro q hq
    rcases List.mem_append.1 hq with hq | hq
    · exact h.sends q hq
    · rw [List.map_singleton, List.mem_singleton] at hq
      exact hq ▸ hgoodp
  · rcases hstage hf' with hf' | hrest
    · exact h.uncovered hcovers f hf'
    · rw [hrest]
      exact fun q hq => h.uncovered hcovers _ hmem q (by rw [hchunks]; exact List.mem_cons_of_mem _ hq)
  · have hledger := h.edges e
    have hair := hairE e
    rw [hprocessed, edgesIn_append, hE.2]
    simp only [Tracer.airEdges, hflushes] at hledger ⊢
    split_ifs
    · rw [edgesIn_cons, show edgesIn [] e = 0 from rfl]
      omega
    · rw [show edgesIn [] e = 0 from rfl]
      omega
  · have hledger := h.cells c
    have hair := hairC c
    rw [hprocessed, cellsIn_append, hC.2]
    simp only [Tracer.airCells, hflushes] at hledger ⊢
    split_ifs
    · rw [cellsIn_cons, show cellsIn [] c = 0 from rfl]
      omega
    · rw [show cellsIn [] c = 0 from rfl]
      omega

end Turns

/-! ## Flushes wait for one another -/

/-- Each flush was chained on the one before it, and none has started before all earlier
ones settled. -/
structure Chained (s : Tracer) : Prop where
  tail : s.inFlight = if s.flushes.length = 0 then none else some (s.flushes.length - 1)
  links : ∀ (i : Nat) (f : Flush), s.flushes[i]? = some f → f.after = if i = 0 then none else some (i - 1)
  order : ∀ (i j : Nat) (f g : Flush), i < j → s.flushes[i]? = some f → s.flushes[j]? = some g → g.stage ≠ .waiting →
    f.stage = .settled

/-- At most one flush is running. -/
def AtMostOneRunning (s : Tracer) : Prop :=
  ∀ (i j : Nat) (a b : Option Nat) (x y : Body), s.flushes[i]? = some ⟨a, .running x⟩ →
    s.flushes[j]? = some ⟨b, .running y⟩ → i = j

theorem Chained.atMostOne {s : Tracer} (h : Chained s) : AtMostOneRunning s := by
  intro i j a b x y hi hj
  rcases Nat.lt_trichotomy i j with hlt | heq | hgt
  · exact absurd (h.order i j _ _ hlt hi hj nofun) nofun
  · exact heq
  · exact absurd (h.order j i _ _ hgt hj hi nofun) nofun

theorem chained_new : Chained .new :=
  ⟨rfl, fun _ _ h => by simp [Tracer.new] at h, fun _ _ _ _ _ h => by simp [Tracer.new] at h⟩

theorem Chained.flushOnce {s : Tracer} (h : Chained s) : Chained s.flushOnce := by
  have hget {i : Nat} {f : Flush} (hf : s.flushOnce.flushes[i]? = some f) :
      (i < s.flushes.length ∧ s.flushes[i]? = some f) ∨ (i = s.flushes.length ∧ f = ⟨s.inFlight, .waiting⟩) := by
    rw [Tracer.flushOnce] at hf
    rcases Nat.lt_or_ge i s.flushes.length with hlt | hge
    · rw [List.getElem?_append_left hlt] at hf
      exact .inl ⟨hlt, hf⟩
    · rw [List.getElem?_append_right hge, List.getElem?_singleton] at hf
      split_ifs at hf with hi
      cases hf
      exact .inr ⟨by omega, rfl⟩
  refine ⟨?_, fun i f hf => ?_, fun i j f g hlt hf hg hstage => ?_⟩
  · simp [Tracer.flushOnce]
  · rcases hget hf with ⟨-, hf⟩ | ⟨rfl, rfl⟩
    · exact h.links i f hf
    · exact h.tail
  · rcases hget hg with ⟨hj, hg⟩ | ⟨rfl, rfl⟩
    · rcases hget hf with ⟨-, hf⟩ | ⟨rfl, -⟩
      · exact h.order i j f g hlt hf hg hstage
      · omega
    · exact absurd rfl hstage

/-- A flush that has not settled moves on, all earlier ones having settled. -/
theorem Chained.modify {s s' : Tracer} (h : Chained s) {i : Nat} {f : Flush} (hf : s.flushes[i]? = some f)
    (hopen : f.stage ≠ .settled) (hbefore : ∀ (j : Nat) (g : Flush), j < i → s.flushes[j]? = some g → g.stage = .settled)
    {stage : Stage} (hflushes : s'.flushes = s.flushes.modify i fun f => { f with stage })
    (hinFlight : s'.inFlight = s.inFlight) : Chained s' := by
  have hget {j : Nat} {g : Flush} (hg : s'.flushes[j]? = some g) :
      ∃ g', s.flushes[j]? = some g' ∧ g.after = g'.after ∧ (j = i ∧ g.stage = stage ∨ j ≠ i ∧ g = g') := by
    rw [hflushes, List.getElem?_modify] at hg
    obtain ⟨g', hg', rfl⟩ := Option.map_eq_some_iff.1 hg
    by_cases hij : i = j
    · rw [if_pos hij]
      exact ⟨g', hg', rfl, .inl ⟨hij.symm, rfl⟩⟩
    · rw [if_neg hij]
      exact ⟨g', hg', rfl, .inr ⟨Ne.symm hij, rfl⟩⟩
  refine ⟨?_, fun j g hg => ?_, fun j k g g' hlt hg hg' hstage => ?_⟩
  · rw [hinFlight, hflushes, List.length_modify]
    exact h.tail
  · obtain ⟨g', hg', hafter, -⟩ := hget hg
    rw [hafter]
    exact h.links j g' hg'
  · obtain ⟨o, ho, -, hgcase⟩ := hget hg
    obtain ⟨o', ho', -, hgcase'⟩ := hget hg'
    rcases hgcase' with ⟨rfl, -⟩ | ⟨hne, rfl⟩
    · rcases hgcase with ⟨rfl, -⟩ | ⟨-, rfl⟩
      · omega
      · exact hbefore j g hlt ho
    · rcases hgcase with ⟨rfl, -⟩ | ⟨-, rfl⟩
      · -- a later flush has started: then this one had settled
        rw [hf] at ho
        cases ho
        exact absurd (h.order j k f g' hlt hf ho' hstage) hopen
      · exact h.order j k g g' hlt ho ho' hstage

/-- The flush whose predecessor has settled follows settled flushes only. -/
theorem Chained.before {s : Tracer} (h : Chained s) {i : Nat} {f : Flush} (hf : s.flushes[i]? = some f)
    (hmay : s.mayStart f = true) (j : Nat) (g : Flush) (hlt : j < i) (hg : s.flushes[j]? = some g) :
    g.stage = .settled := by
  have hafter := h.links i f hf
  rw [if_neg (by omega)] at hafter
  unfold Tracer.mayStart at hmay
  rw [hafter] at hmay
  dsimp only at hmay
  split at hmay
  next hprev =>
    rcases Nat.lt_or_eq_of_le (Nat.le_sub_one_of_lt hlt) with hlt' | rfl
    · exact h.order j (i - 1) g _ hlt' hg hprev nofun
    · rw [hprev] at hg
      cases hg
      rfl
  next => exact absurd hmay Bool.false_ne_true

/-! ## Schedules -/

section Schedules
variable {opts : Options} {s s' : Tracer} {events : List Event}

theorem chained_step (h : Chained s) {e : Event} (hstep : s.step opts e = some s') : Chained s' := by
  cases e with
  | add c => cases hstep; exact ⟨h.tail, h.links, h.order⟩
  | cover c => cases hstep; exact ⟨h.tail, h.links, h.order⟩
  | flushOnce => cases hstep; exact h.flushOnce
  | stop flush =>
    cases hstep
    cases flush with
    | true => exact h.flushOnce
    | false => exact h
  | start i ts =>
    simp only [Tracer.step] at hstep
    split at hstep
    next after hf =>
      split_ifs at hstep with hmay
      cases hstep
      have hflushes : ∃ stage, (s.doFlush opts i ts).flushes = s.flushes.modify i fun f => { f with stage } := by
        unfold Tracer.doFlush
        dsimp only
        split_ifs <;> exact ⟨_, rfl⟩
      have hinFlight : (s.doFlush opts i ts).inFlight = s.inFlight := by
        unfold Tracer.doFlush
        dsimp only
        split_ifs <;> rfl
      obtain ⟨stage, hflushes⟩ := hflushes
      exact h.modify hf nofun (h.before hf hmay) hflushes hinFlight
    next => cases hstep
  | settle i outcome now =>
    simp only [Tracer.step] at hstep
    split at hstep
    next after body hf =>
      split at hstep
      next p rest hbody =>
        cases hstep
        obtain ⟨⟨stage, hflushes, -⟩, -, hinFlight, -⟩ := Tracer.settle_spec opts s i body p rest outcome now
        exact h.modify hf nofun (fun j g hlt hg => h.order j i g _ hlt hg hf nofun) hflushes hinFlight
      next => cases hstep
    next => cases hstep

/-- One turn of the event loop keeps the books. -/
theorem ledger_step (h : Ledger opts s events) {e : Event} (hproper : e.Proper)
    (hsafe : ∀ i, edgeCount (events ++ [e]) i < 2 ^ 53) (hsafeCells : ∀ i, cellCount (events ++ [e]) i < 2 ^ 53)
    (hstep : s.step opts e = some s') : Ledger opts s' (events ++ [e]) := by
  cases e with
  | add c => cases hstep; exact h.add hproper hsafe
  | cover c => cases hstep; exact h.cover hproper hsafeCells
  | flushOnce => cases hstep; exact h.flushOnce.of_quiet rfl rfl
  | stop flush =>
    cases hstep
    cases flush with
    | true => exact h.flushOnce.of_quiet rfl rfl
    | false => exact h.of_quiet rfl rfl
  | start i ts =>
    simp only [Tracer.step] at hstep
    split at hstep
    next after hf =>
      split_ifs at hstep with hmay
      cases hstep
      exact (h.doFlush hf ts).of_quiet rfl rfl
    next => cases hstep
  | settle i outcome now =>
    simp only [Tracer.step] at hstep
    split at hstep
    next after body hf =>
      split at hstep
      next p rest hbody =>
        cases hstep
        have hE : ∀ i, edgeCount events i < 2 ^ 53 := fun i => by
          have := hsafe i
          rw [edgeCount_append] at this
          omega
        have hC : ∀ i, cellCount events i < 2 ^ 53 := fun i => by
          have := hsafeCells i
          rw [cellCount_append] at this
          omega
        exact (h.settle hE hC hf hbody outcome now).of_quiet rfl rfl
      next => cases hstep
    next => cases hstep

/-- A whole schedule keeps the books and the order of the flushes. -/
theorem ledger_run (hchained : Chained s) (h : Ledger opts s events) {more : List Event} (hproper : ∀ e ∈ more, e.Proper)
    (hsafe : ∀ i, edgeCount (events ++ more) i < 2 ^ 53) (hsafeCells : ∀ i, cellCount (events ++ more) i < 2 ^ 53)
    (hrun : s.run opts more = some s') : Chained s' ∧ Ledger opts s' (events ++ more) := by
  induction more generalizing s events with
  | nil =>
    cases hrun
    rw [List.append_nil]
    exact ⟨hchained, h⟩
  | cons e more ih =>
    rw [Tracer.run, List.foldlM_cons] at hrun
    obtain ⟨t, hstep, hrun⟩ := Option.bind_eq_some_iff.1 hrun
    have hcons : events ++ e :: more = (events ++ [e]) ++ more := by simp
    rw [hcons] at hsafe hsafeCells ⊢
    have hledger := ledger_step h (hproper e List.mem_cons_self)
      (fun i => by have := hsafe i; rw [edgeCount_append] at this; omega)
      (fun i => by have := hsafeCells i; rw [cellCount_append] at this; omega) hstep
    exact ih (chained_step hchained hstep) hledger (fun e' h' => hproper e' (List.mem_cons_of_mem _ h')) hsafe hsafeCells
      hrun

theorem ledger_new : Ledger opts .new [] :=
  ⟨sound_empty, sound_empty, fun _ h => absurd h List.not_mem_nil, fun _ h => absurd h List.not_mem_nil,
    fun _ _ h => absurd h List.not_mem_nil, fun _ => rfl, fun _ => rfl⟩

end Schedules

/-! ## What goes on the wire -/

def WireRow.edge (row : WireRow) : Edge := (row.src, row.dst, row.kind)

def WireCoverage.cell (c : WireCoverage) : Cell := (c.test, c.entity)

/-- The count that a number in a body stands for. -/
def jsonCount : Json → Nat
  | .num n => natOf n
  | _ => 0

/-- The rows in the bodies of the sends that ended like this. -/
def wireRows (opts : Options) (s : Tracer) (p : Option SendError → Bool) : List WireRow :=
  (s.sends.filter fun x => p x.1).flatMap fun x => x.2.1.map (wireRow (payloadRate opts.sampleRate))

def wireCells (s : Tracer) (p : Option SendError → Bool) : List WireCoverage :=
  (s.sends.filter fun x => p x.1).flatMap fun x => x.2.2.map wireCoverage

def wireEdges (opts : Options) (s : Tracer) (p : Option SendError → Bool) (i : Edge) : Nat :=
  sumAt WireRow.edge (fun row => jsonCount row.observed) (wireRows opts s p) i

def wireCellCount (s : Tracer) (p : Option SendError → Bool) (i : Cell) : Nat :=
  sumAt WireCoverage.cell (fun c => jsonCount c.weight) (wireCells s p) i

/-- The highest count a row carries at this rate. -/
def ceiling (opts : Options) : Nat := natOf (maxOver (payloadRate opts.sampleRate)).floor

/-- What the processed rows of an edge held above the ceiling. -/
def cutEdges (opts : Options) (s : Tracer) (i : Edge) : Nat :=
  sumAt Observation.edge (fun o => natOf o.observed - ceiling opts) (s.processedChunks.flatMap Prod.fst) i

theorem mathMax_zero_natCast (j : Nat) : mathMax 0 (JsNumber.fin (j : Rat)).floor = .fin j := by
  have hfloor : (JsNumber.fin (j : Rat)).floor = .fin ((j : Int) : Rat) := by
    rw [JsNumber.floor, Int.floor_natCast]
  rw [hfloor, mathMax, if_neg (by simp)]
  split
  · rfl
  next hgt =>
    rw [JsNumber.gt_fin, decide_eq_true_eq] at hgt
    have hj : j = 0 := by
      by_contra hne
      apply hgt
      exact_mod_cast Nat.pos_of_ne_zero hne
    rw [hj]
    rfl

theorem mathMin_natCast (j c : Nat) : mathMin (.fin (j : Rat)) (.fin (c : Rat)) = .fin ((min j c : Nat) : Rat) := by
  have hlt : (JsNumber.fin (c : Rat)).lt (.fin (j : Rat)) = decide (c < j) := by
    show decide ((c : Rat) < j) = decide (c < j)
    simp only [Nat.cast_lt]
  rw [mathMin, if_neg (by simp), hlt]
  by_cases h : c < j
  · rw [if_pos (decide_eq_true h), min_eq_right (le_of_lt h)]
  · rw [if_neg (by simpa using h), min_eq_left (Nat.le_of_not_lt h)]

/-- On the wire a count is capped at the ceiling. -/
theorem natOf_observedOf (opts : Options) {o : Observation} {j : Nat} (h : o.observed = .fin j) :
    natOf (observedOf (payloadRate opts.sampleRate) o) = min j (ceiling opts) := by
  rw [observedOf, h, mathMax_zero_natCast, ceiling]
  rcases rate_cases opts.double with ⟨-, -, r, hwhole⟩ | ⟨-, hnan⟩ | ⟨-, hinf⟩
  · rw [payloadRate, ceiling_eq hwhole, mathMin_natCast, natOf_fin, natOf_fin]
  · rw [payloadRate, hnan]
    exact (Nat.min_zero j).symm
  · have hzero : (maxOver .posInf).floor = .fin ((0 : Nat) : Rat) := by decide +kernel
    rw [payloadRate, hinf, hzero, mathMin_natCast, natOf_fin, natOf_fin]

def rejected (outcome : Option SendError) : Bool := outcome.any isPermanentRejection

theorem sumAt_split {σ β κ : Type} [DecidableEq κ] (key : β → κ) (amount : β → Nat)
    (rows : Option SendError × σ → List β) (sends : List (Option SendError × σ)) (i : κ) :
    sumAt key amount ((sends.filter fun x => x.1.isNone).flatMap rows) i +
        sumAt key amount ((sends.filter fun x => rejected x.1).flatMap rows) i =
      sumAt key amount ((sends.filter fun x => processed x.1).flatMap rows) i := by
  induction sends with
  | nil => rfl
  | cons x sends ih =>
    obtain ⟨outcome, p⟩ := x
    cases outcome with
    | none =>
      have htail : rejected none = false ∧ processed none = true := ⟨rfl, rfl⟩
      simp only [List.filter_cons, htail.1, htail.2, Option.isNone_none, if_true, Bool.false_eq_true, if_false,
        List.flatMap_cons, sumAt_append]
      omega
    | some e =>
      have hsame : rejected (some e) = processed (some e) := rfl
      simp only [List.filter_cons, Option.isNone_some, Bool.false_eq_true, if_false, hsame]
      split_ifs
      · simp only [List.flatMap_cons, sumAt_append]
        omega
      · exact ih

/-- The chunks of the sends that ended like this, their rows mapped. -/
theorem flatMap_processed {ρ β : Type} (part : Chunk → List ρ) (f : ρ → β) (s : Tracer) :
    ((s.sends.filter fun x => processed x.1).flatMap fun x => (part x.2).map f) =
      (s.processedChunks.flatMap part).map f := by
  rw [Tracer.processedChunks, List.flatMap_map, List.map_flatMap]

theorem good_processed {opts : Options} {s : Tracer} {events : List Event} (h : Ledger opts s events) :
    GoodChunks s.processedChunks := by
  intro p hp
  obtain ⟨x, hx, rfl⟩ := List.mem_map.1 hp
  exact h.sends _ (List.mem_map_of_mem (List.mem_filter.1 hx).1)

/-- The rows taken, those refused, and what was cut off make up the processed counts. -/
theorem wireEdges_add {opts : Options} {s : Tracer} {events : List Event} (h : Ledger opts s events) (i : Edge) :
    wireEdges opts s Option.isNone i + wireEdges opts s rejected i + cutEdges opts s i = edgesIn s.processedChunks i := by
  have hgood : ∀ o ∈ s.processedChunks.flatMap Prod.fst, GoodRow o := by
    intro o ho
    obtain ⟨p, hp, ho⟩ := List.mem_flatMap.1 ho
    exact (good_processed h p hp).1 o ho
  have hkey : WireRow.edge ∘ wireRow (payloadRate opts.sampleRate) = Observation.edge := rfl
  rw [wireEdges, wireEdges, wireRows, wireRows, sumAt_split, flatMap_processed Prod.fst, sumAt_map, hkey, cutEdges,
    sumAt_add, edgesIn]
  refine sumAt_congr fun o ho => ⟨rfl, ?_⟩
  obtain ⟨j, -, hj⟩ := (hgood o ho).count
  show natOf (observedOf (payloadRate opts.sampleRate) o) + _ = _
  rw [natOf_observedOf opts hj, hj, natOf_fin]
  omega

theorem wireCells_add {opts : Options} {s : Tracer} {events : List Event} (h : Ledger opts s events) (i : Cell) :
    wireCellCount s Option.isNone i + wireCellCount s rejected i = cellsIn s.processedChunks i := by
  have hgood : ∀ c ∈ s.processedChunks.flatMap Prod.snd, GoodCell c := by
    intro c hc
    obtain ⟨p, hp, hc⟩ := List.mem_flatMap.1 hc
    exact (good_processed h p hp).2 c hc
  rw [wireCellCount, wireCellCount, wireCells, wireCells, sumAt_split, flatMap_processed Prod.snd, sumAt_map, cellsIn]
  refine sumAt_congr fun c hc => ⟨rfl, ?_⟩
  obtain ⟨j, -, hj⟩ := (hgood c hc).count
  show natOf (mathMax 0 c.weight.floor) = natOf c.weight
  rw [hj, mathMax_zero_natCast]

/-! ## The law -/

def Stage.isRunning : Stage → Bool
  | .running _ => true
  | _ => false

/-- No flush is running. -/
def Idle (s : Tracer) : Prop := ∀ f ∈ s.flushes, f.stage.isRunning = false

instance (s : Tracer) : Decidable (Idle s) := inferInstanceAs (Decidable (∀ f ∈ s.flushes, _))

def bufferedEdges (s : Tracer) (ts : Seconds) (i : Edge) : Nat :=
  sumAt Observation.edge (fun o => natOf o.observed) (s.agg.drain ts) i

def bufferedCells (s : Tracer) (i : Cell) : Nat := sumAt CoverageRow.cell (fun c => natOf c.weight) s.coverage.drain i

theorem Idle.chunks {s : Tracer} (h : Idle s) {f : Flush} (hf : f ∈ s.flushes) : f.chunks = [] := by
  obtain ⟨after, stage⟩ := f
  cases stage with
  | waiting => rfl
  | settled => rfl
  | running body => exact absurd (h _ hf) nofun

theorem Idle.airEdges {s : Tracer} (h : Idle s) (i : Edge) : s.airEdges i = 0 := by
  apply List.sum_eq_zero
  intro n hn
  obtain ⟨f, hf, rfl⟩ := List.mem_map.1 hn
  rw [h.chunks hf]
  rfl

theorem Idle.airCells {s : Tracer} (h : Idle s) (i : Cell) : s.airCells i = 0 := by
  apply List.sum_eq_zero
  intro n hn
  obtain ⟨f, hf, rfl⟩ := List.mem_map.1 hn
  rw [h.chunks hf]
  rfl

/-- After any schedule: flushes do not overlap; a flush's chunks are what it drained, row
by row; and while none is running, what was added is on the wire of a chunk that was
taken or refused, above the ceiling of such a row, or buffered. -/
theorem flusher_conserves (opts : Options) (events : List Event) (s : Tracer) (hrun : Tracer.run opts .new events = some s)
    (hproper : ∀ e ∈ events, e.Proper) (hsafe : ∀ i, edgeCount events i < 2 ^ 53)
    (hsafeCells : ∀ i, cellCount events i < 2 ^ 53) :
    AtMostOneRunning s ∧
    (∀ obs coverage, (chunksOf obs coverage).flatMap Prod.fst = obs ∧ (chunksOf obs coverage).flatMap Prod.snd = coverage) ∧
    (Idle s →
      (∀ ts i, wireEdges opts s Option.isNone i + wireEdges opts s rejected i + cutEdges opts s i + bufferedEdges s ts i =
        edgeCount events i) ∧
      ∀ i, wireCellCount s Option.isNone i + wireCellCount s rejected i + bufferedCells s i = cellCount events i) := by
  obtain ⟨hchained, hledger⟩ := ledger_run chained_new (ledger_new : Ledger opts .new []) hproper hsafe hsafeCells hrun
  refine ⟨hchained.atMostOne, flatMap_chunksOf, fun hidle => ⟨fun ts i => ?_, fun i => ?_⟩⟩
  · have hedges := hledger.edges i
    rw [hidle.airEdges, ← (drain_spec hledger.aggSound ts).2 i] at hedges
    rw [wireEdges_add hledger]
    exact hedges
  · have hcells := hledger.cells i
    rw [hidle.airCells, ← (drain_cells hledger.covSound).2 i] at hcells
    rw [wireCells_add hledger]
    exact hcells

/-- Every call is sampled, and the flusher has the coverage. -/
def everyCall : Options := ⟨.fin (1 : Nat), isNumber_natCast (by decide), ascii "bun", true⟩

def call (count : Nat) : Add := ⟨ascii "m:f", ascii "m:g", ascii "call", .fin count⟩

/-- The first send fails, a second flush succeeds; both run while calls are counted. -/
def outage : List Event :=
  [.add (call 3), .cover ⟨ascii "t.ts", ascii "m:g", .fin (2 : Nat), isNumber_natCast (by decide)⟩, .flushOnce,
    .start 0 ⟨0, by decide⟩, .add (call 4), .settle 0 (some ⟨ascii "down", none⟩) 1, .flushOnce, .start 1 ⟨1, by decide⟩,
    .settle 1 none 2]

theorem flusher_conserves_outage : ∃ s, Tracer.run everyCall .new outage = some s ∧ Idle s ∧ AtMostOneRunning s ∧
    ∀ ts i, wireEdges everyCall s Option.isNone i + wireEdges everyCall s rejected i + cutEdges everyCall s i +
      bufferedEdges s ts i = edgeCount outage i := by
  have hidle : (Tracer.run everyCall .new outage).map (fun s => decide (Idle s)) = some true := by decide +kernel
  obtain ⟨s, hs, hidle⟩ := Option.map_eq_some_iff.1 hidle
  have hproper : ∀ e ∈ outage, e.Proper := by
    simp only [outage, List.mem_cons, List.not_mem_nil, or_false, forall_eq_or_imp, forall_eq, Event.Proper, and_true,
      true_and, call]
    exact ⟨⟨by decide, 3, by decide, rfl⟩, ⟨by decide, 2, by decide, rfl⟩, ⟨by decide, 4, by decide, rfl⟩⟩
  have hsum : ((addedEdges outage).map fun c => natOf c.weight).sum < 2 ^ 53 ∧
      ((addedCells outage).map fun c => natOf c.weight).sum < 2 ^ 53 := by decide +kernel
  obtain ⟨hone, -, hlaw⟩ := flusher_conserves everyCall outage s hs hproper
    (fun i => lt_of_le_of_lt (sumAt_le_sum _ _ _ i) hsum.1) (fun i => lt_of_le_of_lt (sumAt_le_sum _ _ _ i) hsum.2)
  exact ⟨s, hs, of_decide_eq_true hidle, hone, (hlaw (of_decide_eq_true hidle)).1⟩

/-- A busy edge: seventy thousand calls between two flushes. -/
def burst : List Event := [.add (call 70000), .flushOnce, .start 0 ⟨0, by decide⟩, .settle 0 none 1]

/-- The daemon takes the flush, and the calls above the ceiling are nowhere. -/
theorem burst_is_cut : ¬∀ (opts : Options) (events : List Event) (s : Tracer), Tracer.run opts .new events = some s →
    (∀ e ∈ events, e.Proper) → Idle s → ∀ ts i,
      wireEdges opts s Option.isNone i + wireEdges opts s rejected i + bufferedEdges s ts i = edgeCount events i := by
  intro h
  have hsent : (Tracer.run everyCall .new burst).map (fun s => (decide (Idle s),
      wireEdges everyCall s Option.isNone (call 0).edge + wireEdges everyCall s rejected (call 0).edge +
        bufferedEdges s ⟨0, by decide⟩ (call 0).edge)) = some (true, 65535) := by decide +kernel
  obtain ⟨s, hs, hfacts⟩ := Option.map_eq_some_iff.1 hsent
  rw [Prod.mk.injEq] at hfacts
  have hproper : ∀ e ∈ burst, e.Proper := by
    simp only [burst, List.mem_cons, List.not_mem_nil, or_false, forall_eq_or_imp, forall_eq, Event.Proper, and_true, call]
    exact ⟨by decide, 70000, by decide, rfl⟩
  have hadded : edgeCount burst (call 0).edge = 70000 := by decide +kernel
  have hlaw := h everyCall burst s hs hproper (of_decide_eq_true hfacts.1) ⟨0, by decide⟩ (call 0).edge
  rw [hfacts.2, hadded] at hlaw
  omega

end Hayven.Trace.Bun
