import Hayven.Lib.JsonUtf8
import Hayven.Lib.Segments
import Hayven.Trace.Wire
/-!
# The Bun collector

`trace/bun/src/aggregator.ts` and the flush of `flusher.ts`. An edge is kept under its
packed key, so its names come back by splitting the key at the separator.
-/
open Hayven.Lib Hayven.Daemon

namespace Hayven.Trace.Bun

/-! ## Aggregating -/

def sep : UInt16 := 0

def packKey (src dst kind : JsString) : JsString := src ++ sep :: (dst ++ sep :: kind)

structure Observation where
  src : JsString
  dst : JsString
  ts : Int
  observed : JsNumber
  kind : JsString

/-- `Math.floor(Date.now() / 1000)`. -/
structure Seconds where
  val : Int
  safe : val.natAbs < 2 ^ 53

structure Aggregator where
  counts : KeyedMap JsString JsNumber

/-- The arguments of a call of `add`. -/
structure Add where
  src : JsString
  dst : JsString
  kind : JsString
  weight : JsNumber

/-- The call records something; not-a-number is not at or below zero. -/
def Add.Admitted (c : Add) : Prop := c.src ≠ [] ∧ c.dst ≠ [] ∧ c.weight.le (0 : Int) = false

instance (c : Add) : Decidable c.Admitted := inferInstanceAs (Decidable (_ ∧ _ ∧ _))

namespace Aggregator

def new : Aggregator := ⟨.empty⟩

def add (a : Aggregator) (c : Add) : Aggregator :=
  if c.src = [] ∨ c.dst = [] ∨ c.weight.le (0 : Int) then a
  else
    let k := packKey c.src c.dst c.kind
    ⟨a.counts.set k (((a.counts.get k).getD (0 : Int)).add c.weight)⟩

def addAll (adds : List Add) : Aggregator := adds.foldl add new

/-- A key up to its first separator, and what follows it. -/
def splitKey (key : JsString) : JsString × JsString := (firstSegment sep key, (key.dropWhile (· ≠ sep)).drop 1)

/-- `drain`: the first three parts of `key.split(SEP)` are the names and the kind. -/
def drain (a : Aggregator) (ts : Seconds) : List Observation :=
  a.counts.entries.map fun e =>
    let rest := (splitKey e.1).2
    ⟨(splitKey e.1).1, (splitKey rest).1, ts.val, e.2, (splitKey (splitKey rest).2).1⟩

end Aggregator

/-! ## Encoding -/

/-- A number of the runtime. -/
def IsNumber (n : JsNumber) : Prop := ∀ q, n = .fin q → IsDouble q

structure CoverageRow where
  test : JsString
  entity : JsString
  weight : JsNumber
  double : IsNumber weight

/-- `Math.max(a, n)`. -/
def mathMax (a : Int) (n : JsNumber) : JsNumber :=
  if n = .nan then .nan else if n.gt a then n else (a : JsNumber)

/-- `Math.min(a, b)`. -/
def mathMin (a b : JsNumber) : JsNumber :=
  if a = .nan ∨ b = .nan then .nan else if b.lt a then b else a

/-- `UINT16_MAX / rate`. -/
def maxOver : JsNumber → JsNumber
  | .nan => .nan
  | .fin q => if q = 0 then .posInf else roundRat (((uint16Max : Nat) : Rat) / q)
  | .negInf | .posInf => .fin 0

def flushBatchSize : Nat := 1000

/-- `encodePayload`. -/
def encodePayload (observations : List Observation) (sampleRate : JsNumber) (source : JsString)
    (coverage : List CoverageRow) : Json :=
  let rate := mathMax 1 sampleRate.floor
  let observedCeiling := (maxOver rate).floor
  wireBody source (.num rate)
    (observations.map fun o =>
      let observed := mathMin (mathMax 0 o.observed.floor) observedCeiling
      ⟨o.src, o.dst, .num (.fin o.ts), .num observed, .num (observed.mul rate), if o.kind = [] then ascii "call" else o.kind⟩)
    (coverage.map fun c => ⟨c.test, c.entity, .num (mathMax 0 c.weight.floor)⟩)

def chunkFrom {α : Type} (size : Nat) : Nat → List α → List (List α)
  | 0, _ => []
  | _ + 1, [] => []
  | n + 1, rows => rows.take size :: chunkFrom size n (rows.drop size)

/-- `chunk`. -/
def chunk {α : Type} (rows : List α) (size : Nat) : List (List α) := chunkFrom (max size 1) rows.length rows

/-- The chunks side by side, as far as either list goes. -/
def pairChunks {α β : Type} : List (List α) → List (List β) → List (List α × List β)
  | [], cs => cs.map fun c => ([], c)
  | o :: os, [] => (o, []) :: pairChunks os []
  | o :: os, c :: cs => (o, c) :: pairChunks os cs

structure Flusher where
  sampleRate : JsNumber
  source : JsString

/-- The constructor's rate and source; a rate or a source that is not given is `1` or `bun`. -/
def Flusher.new (sampleRate : JsNumber) (source : JsString) : Flusher := ⟨mathMax 1 sampleRate.floor, source⟩

/-- The bodies `doFlush` sends for what it drained. -/
def Flusher.doFlush (rt : NumberText) (f : Flusher) (obs : List Observation) (coverage : List CoverageRow) : List Bytes :=
  (pairChunks (chunk obs flushBatchSize) (chunk coverage flushBatchSize)).map fun p =>
    textEncode (stringify rt (encodePayload p.1 f.sampleRate f.source p.2))

/-! ## Numbers -/

/-- What goes on the wire for a count: not-a-number, or a natural number up to a bound. -/
def CountUpTo (bound : Nat) (n : JsNumber) : Prop := n = .nan ∨ ∃ k : Nat, k ≤ bound ∧ n = .fin k

theorem mathMax_zero_floor (c : JsNumber) :
    mathMax 0 c.floor = .nan ∨ mathMax 0 c.floor = .posInf ∨ ∃ k : Nat, mathMax 0 c.floor = .fin k := by
  cases c with
  | nan => exact .inl rfl
  | posInf => exact .inr (.inl rfl)
  | negInf => exact .inr (.inr ⟨0, rfl⟩)
  | fin q =>
    refine .inr (.inr ?_)
    by_cases hpos : 0 < ⌊q⌋
    · obtain ⟨k, hk⟩ := Int.eq_ofNat_of_zero_le (le_of_lt hpos)
      refine ⟨k, ?_⟩
      have hgt : (JsNumber.fin ((⌊q⌋ : Int) : Rat)).gt (0 : Int) = true := by
        rw [JsNumber.gt_fin, decide_eq_true_eq]
        exact_mod_cast hpos
      rw [JsNumber.floor, mathMax, if_neg (by simp), if_pos hgt, hk]
      rfl
    · refine ⟨0, ?_⟩
      have hgt : ¬ (JsNumber.fin ((⌊q⌋ : Int) : Rat)).gt (0 : Int) = true := by
        rw [JsNumber.gt_fin, decide_eq_true_eq]
        exact_mod_cast hpos
      rw [JsNumber.floor, mathMax, if_neg (by simp), if_neg hgt]
      rfl

theorem countUpTo_clamped (c : JsNumber) (m : Nat) : CountUpTo m (mathMin (mathMax 0 c.floor) (.fin m)) := by
  rcases mathMax_zero_floor c with h | h | ⟨k, h⟩ <;> rw [h, mathMin]
  · exact .inl rfl
  · exact .inr ⟨m, le_rfl, rfl⟩
  · rw [if_neg (by simp)]
    by_cases hlt : m < k
    · have hq : (JsNumber.fin (m : Rat)).lt (.fin k) = true := by
        show decide ((m : Rat) < k) = true
        rw [decide_eq_true_eq]
        exact_mod_cast hlt
      rw [if_pos hq]
      exact .inr ⟨m, le_rfl, rfl⟩
    · have hq : ¬ (JsNumber.fin (m : Rat)).lt (.fin k) = true := by
        show ¬ decide ((m : Rat) < k) = true
        rw [decide_eq_true_eq]
        exact_mod_cast hlt
      rw [if_neg hq]
      exact .inr ⟨k, Nat.le_of_not_lt hlt, rfl⟩

/-- A rate that the flusher keeps is a positive double, whole. -/
structure WholeRate (n : JsNumber) (r : Nat) : Prop where
  eq : n = .fin r
  pos : 1 ≤ r
  double : IsDouble r
  log : r.log2 ≤ 1074

theorem mathMax_one_natCast {r : Nat} (h : 1 ≤ r) : mathMax 1 (.fin ((r : Int) : Rat)) = .fin r := by
  rw [mathMax, if_neg (by simp)]
  split
  · rfl
  next hgt =>
    rw [JsNumber.gt_fin, decide_eq_true_eq] at hgt
    have hle : ¬ 1 < r := by exact_mod_cast hgt
    have hr : r = 1 := by omega
    rw [hr]
    rfl

/-- The rate is whole exactly if it is a number below infinity. -/
theorem rate_cases {sampleRate : JsNumber} (h : IsNumber sampleRate) :
    (sampleRate ≠ .nan ∧ sampleRate ≠ .posInf ∧ ∃ r, WholeRate (mathMax 1 (mathMax 1 sampleRate.floor).floor) r) ∨
      (sampleRate = .nan ∧ mathMax 1 (mathMax 1 sampleRate.floor).floor = .nan) ∨
      (sampleRate = .posInf ∧ mathMax 1 (mathMax 1 sampleRate.floor).floor = .posInf) := by
  have hwhole : ∀ r : Nat, 1 ≤ r → IsDouble r → r.log2 ≤ 1074 →
      WholeRate (mathMax 1 (JsNumber.floor (.fin (r : Rat)))) r := by
    intro r hpos hdouble hlog
    have hfloor : JsNumber.floor (.fin (r : Rat)) = .fin ((r : Int) : Rat) := by
      rw [JsNumber.floor, Int.floor_natCast]
    exact ⟨by rw [hfloor, mathMax_one_natCast hpos], hpos, hdouble, hlog⟩
  have hone : IsDouble ((1 : Nat) : Rat) := roundRat_of_lt (by norm_num)
  cases sampleRate with
  | nan => exact .inr (.inl ⟨rfl, rfl⟩)
  | posInf => exact .inr (.inr ⟨rfl, rfl⟩)
  | negInf => exact .inl ⟨by simp, by simp, 1, hwhole 1 le_rfl hone (by decide)⟩
  | fin q =>
    refine .inl ⟨by simp, by simp, ?_⟩
    by_cases hgt : 1 < ⌊q⌋
    · obtain ⟨r, hr⟩ := Int.eq_ofNat_of_zero_le (by omega : 0 ≤ ⌊q⌋)
      have hqpos : 0 ≤ q := Int.floor_nonneg.1 (by omega)
      have hself := roundRat_floor (h q rfl) hqpos
      rw [hr] at hself
      have hlt : (r : Rat) < (2 ^ 1024 : Nat) := lt_of_roundRat_self (q := (r : Rat)) hself (Nat.cast_nonneg r)
      have hnat : r < 2 ^ 1024 := by exact_mod_cast hlt
      have hlog : r.log2 ≤ 1074 := by
        have hrne : r ≠ 0 := by omega
        have hlt' := (Nat.log2_lt hrne).2 hnat
        omega
      have hfirst : mathMax 1 (JsNumber.floor (.fin q)) = .fin (r : Rat) := by
        rw [JsNumber.floor, hr]
        exact mathMax_one_natCast (by omega)
      rw [hfirst]
      exact ⟨r, hwhole r (by omega) hself hlog⟩
    · have hfirst : mathMax 1 (JsNumber.floor (.fin q)) = .fin ((1 : Nat) : Rat) := by
        have hnot : ¬ (JsNumber.fin ((⌊q⌋ : Int) : Rat)).gt (1 : Int) = true := by
          rw [JsNumber.gt_fin, decide_eq_true_eq]
          exact_mod_cast hgt
        rw [JsNumber.floor, mathMax, if_neg (by simp), if_neg hnot]
        rfl
      rw [hfirst]
      exact ⟨1, hwhole 1 le_rfl hone (by decide)⟩

/-- The ceiling of the counts is the whole quotient. -/
theorem ceiling_eq {rate : JsNumber} {r : Nat} (h : WholeRate rate r) : (maxOver rate).floor = .fin (uint16Max / r : Nat) := by
  have hr : (r : Rat) ≠ 0 := by
    have := h.pos
    exact_mod_cast (by omega : r ≠ 0)
  rw [h.eq, maxOver, if_neg hr]
  exact floor_roundRat_div (by decide) h.pos h.log

/-! ## What the daemon reads -/

def observedOf (rate : JsNumber) (o : Observation) : JsNumber :=
  mathMin (mathMax 0 o.observed.floor) (maxOver rate).floor

def wireRow (rate : JsNumber) (o : Observation) : WireRow :=
  ⟨o.src, o.dst, .num (.fin o.ts), .num (observedOf rate o), .num ((observedOf rate o).mul rate),
    if o.kind = [] then ascii "call" else o.kind⟩

def wireCoverage (c : CoverageRow) : WireCoverage := ⟨c.test, c.entity, .num (mathMax 0 c.weight.floor)⟩

/-- The count and the estimate of a row at a whole rate. -/
theorem counts_of_whole {rate : JsNumber} {r : Nat} (h : WholeRate rate r) (o : Observation) :
    (observedOf rate o = .nan ∧ (observedOf rate o).mul rate = .nan) ∨
      ∃ k : Nat, k * r ≤ uint16Max ∧ observedOf rate o = .fin k ∧ (observedOf rate o).mul rate = .fin (k * r : Nat) := by
  have hclamped := countUpTo_clamped o.observed (uint16Max / r)
  rw [← ceiling_eq h] at hclamped
  rcases hclamped with hnan | ⟨k, hk, hfin⟩
  · refine .inl ⟨hnan, ?_⟩
    rw [observedOf, hnan, h.eq]
    rfl
  · have hmul : k * r ≤ uint16Max := le_trans (Nat.mul_le_mul_right r hk) (Nat.div_mul_le_self _ _)
    have hmax : uint16Max = 65535 := rfl
    refine .inr ⟨k, hmul, hfin, ?_⟩
    have hcast : (k : Rat) * (r : Rat) = (((k * r : Nat) : Int) : Rat) := by push_cast; rfl
    rw [observedOf, hfin, h.eq]
    show roundRat ((k : Rat) * (r : Rat)) = _
    rw [hcast, roundRat_of_lt (by omega)]

/-- Without a whole rate nothing is left of the counts. -/
theorem counts_of_not_whole {rate : JsNumber} (h : rate = .nan ∨ rate = .posInf) (o : Observation) :
    CountUpTo 0 (observedOf rate o) ∧ (observedOf rate o).mul rate = .nan := by
  rcases h with rfl | rfl
  · have hnan : observedOf .nan o = .nan := by
      rw [observedOf, mathMin, if_pos (.inr rfl)]
    rw [hnan]
    exact ⟨.inl rfl, rfl⟩
  · have hzero : (maxOver .posInf).floor = .fin ((0 : Nat) : Rat) := by decide +kernel
    have hclamped := countUpTo_clamped o.observed 0
    rw [← hzero] at hclamped
    refine ⟨hclamped, ?_⟩
    rcases hclamped with hnan | ⟨k, hk, hfin⟩
    · rw [observedOf, hnan]
      rfl
    · rw [observedOf, hfin, Nat.le_zero.1 hk]
      rfl

def receivedRow (row : WireRow) : WireRow :=
  { row with ts := row.ts.received, observed := row.observed.received, weight := row.weight.received }

def receivedCoverage (c : WireCoverage) : WireCoverage := { c with weight := c.weight.received }

theorem received_wireBody (source : JsString) (rate : Json) (rows : List WireRow) (coverage : List WireCoverage) :
    (wireBody source rate rows coverage).received =
      wireBody source rate.received (rows.map receivedRow) (coverage.map receivedCoverage) := by
  have hrows : Json.receivedItems (rows.map WireRow.json) = (rows.map receivedRow).map WireRow.json := by
    rw [Json.receivedItems_eq_map, List.map_map, List.map_map]
    rfl
  have hcoverage : Json.receivedItems (coverage.map WireCoverage.json) =
      (coverage.map receivedCoverage).map WireCoverage.json := by
    rw [Json.receivedItems_eq_map, List.map_map, List.map_map]
    rfl
  cases coverage with
  | nil =>
    show Json.obj [_, _, _] = Json.obj [_, _, _]
    simp only [Json.received, hrows]
  | cons c rest =>
    show Json.obj [_, _, _, _] = Json.obj [_, _, _, _]
    simp only [Json.received, hrows]
    rw [hcoverage]

/-- A number that JSON has, or none. -/
def Sendable (j : Json) : Prop := j = .null ∨ ∃ q, j = .num (.fin q) ∧ IsDouble q

theorem Sendable.numeric {j : Json} (h : Sendable j) : Numeric j := by
  rcases h with rfl | ⟨q, rfl, -⟩
  · exact .inl rfl
  · exact .inr ⟨_, rfl⟩

theorem Sendable.finite {j : Json} (h : Sendable j) : j.Finite := by
  rcases h with rfl | ⟨q, rfl, hq⟩
  · trivial
  · exact ⟨q, rfl, hq⟩

theorem sendable_of_number {n : JsNumber} (h : IsNumber n) : Sendable (Json.num n).received := by
  cases n with
  | fin q => exact .inr ⟨q, rfl, h q rfl⟩
  | nan => exact .inl rfl
  | posInf => exact .inl rfl
  | negInf => exact .inl rfl

theorem finiteItems_map {α : Type} {json : α → Json} {l : List α} (h : ∀ a ∈ l, (json a).Finite) :
    Json.FiniteItems (l.map json) := by
  induction l with
  | nil => trivial
  | cons a rest ih => exact ⟨h a List.mem_cons_self, ih fun b hb => h b (List.mem_cons_of_mem _ hb)⟩

theorem finite_wireBody (source : JsString) {rate : Json} {rows : List WireRow} {coverage : List WireCoverage}
    (hrate : Sendable rate) (hrows : ∀ row ∈ rows, Sendable row.ts ∧ Sendable row.observed ∧ Sendable row.weight)
    (hcoverage : ∀ c ∈ coverage, Sendable c.weight) : (wireBody source rate rows coverage).Finite := by
  have hobservations : (Json.arr (rows.map WireRow.json)).Finite := by
    refine finiteItems_map fun row hrow => ?_
    obtain ⟨hts, hobserved, hweight⟩ := hrows row hrow
    exact ⟨trivial, trivial, hts.finite, hobserved.finite, hweight.finite, trivial, trivial⟩
  have hcells : (Json.arr (coverage.map WireCoverage.json)).Finite :=
    finiteItems_map fun c hc => ⟨trivial, trivial, (hcoverage c hc).finite, trivial⟩
  unfold wireBody
  split
  · exact ⟨trivial, hrate.finite, hobservations, trivial⟩
  · exact ⟨trivial, hrate.finite, hobservations, hcells, trivial⟩

/-! ## Chunks -/

section Chunks
variable {α β : Type}

theorem flatten_chunkFrom {size : Nat} (hsize : 1 ≤ size) (n : Nat) (rows : List α) (hn : rows.length ≤ n) :
    (chunkFrom size n rows).flatten = rows := by
  induction n generalizing rows with
  | zero => rw [List.length_eq_zero_iff.1 (Nat.le_zero.1 hn)]; rfl
  | succ n ih =>
    cases rows with
    | nil => rfl
    | cons a rest =>
      have hstep : chunkFrom size (n + 1) (a :: rest) = (a :: rest).take size :: chunkFrom size n ((a :: rest).drop size) := by
        rw [chunkFrom]
        exact fun h => absurd h (List.cons_ne_nil _ _)
      rw [hstep, List.flatten_cons, ih, List.take_append_drop]
      rw [List.length_drop, List.length_cons]
      rw [List.length_cons] at hn
      omega

theorem flatten_chunk (rows : List α) (size : Nat) : (chunk rows size).flatten = rows :=
  flatten_chunkFrom (le_max_right _ _) rows.length rows le_rfl

theorem chunk_eq_nil {rows : List α} {size : Nat} : chunk rows size = [] ↔ rows = [] := by
  constructor
  · intro h
    have hflat := flatten_chunk rows size
    rw [h] at hflat
    exact hflat.symm
  · rintro rfl
    rfl

theorem flatMap_fst_pairChunks (os : List (List α)) (cs : List (List β)) :
    (pairChunks os cs).flatMap Prod.fst = os.flatten := by
  induction os generalizing cs with
  | nil =>
    rw [pairChunks, List.flatMap_map]
    simp
  | cons o os ih =>
    cases cs with
    | nil => rw [pairChunks, List.flatMap_cons, ih, List.flatten_cons]
    | cons c cs => rw [pairChunks, List.flatMap_cons, ih, List.flatten_cons]

theorem pairChunks_eq_nil {os : List (List α)} {cs : List (List β)} : pairChunks os cs = [] ↔ os = [] ∧ cs = [] := by
  cases os with
  | nil => simp [pairChunks]
  | cons o os => cases cs <;> simp [pairChunks]

end Chunks

/-! ## The edges that were recorded -/

def recorded (adds : List Add) : List (JsString × JsString) := (adds.filter (·.Admitted)).map fun c => (c.src, c.dst)

namespace Aggregator

theorem splitKey_append {seg : JsString} (h : sep ∉ seg) (rest : JsString) : splitKey (seg ++ sep :: rest) = (seg, rest) := by
  have hfirst := firstSegment_below h [] rest
  rw [below_cons, below_nil] at hfirst
  have hdrop : (seg ++ sep :: rest).dropWhile (· ≠ sep) = sep :: rest := by
    rw [List.dropWhile_append_of_pos]
    · simp
    · intro u hu
      have hne : u ≠ sep := by
        rintro rfl
        exact h hu
      simpa using hne
  rw [splitKey, hfirst, hdrop]
  rfl

theorem sep_not_mem_splitKey (key : JsString) : sep ∉ (splitKey key).1 := by
  intro h
  have hne := List.mem_takeWhile_imp h
  simp at hne

theorem get_addAll_isSome (adds : List Add) (k : JsString) :
    (∃ v, (addAll adds).counts.get k = some v) ↔ ∃ c ∈ adds, c.Admitted ∧ packKey c.src c.dst c.kind = k := by
  have hdropped : ∀ c : Add, (c.src = [] ∨ c.dst = [] ∨ c.weight.le (0 : Int)) ↔ ¬ c.Admitted := by
    intro c
    rw [Add.Admitted, not_and_or, not_and_or, not_not, not_not, Bool.not_eq_false]
  have hkeys := mem_keys_foldl Aggregator.add Aggregator.counts (fun c => packKey c.src c.dst c.kind) Add.Admitted
    (fun a c h => ⟨_, by rw [Aggregator.add, if_neg fun hd => (hdropped c).1 hd h]⟩)
    (fun a c h => by rw [Aggregator.add, if_pos ((hdropped c).2 h)]) adds Aggregator.new k
  rw [Aggregator.addAll, hkeys]
  simp [Aggregator.new]

end Aggregator

open Aggregator in
/-- The names come back exactly if none holds the separator. -/
theorem recorded_iff (adds : List Add) (ts : Seconds) :
    (∀ edge, edge ∈ recorded adds ↔ ∃ o ∈ (addAll adds).drain ts, edge = (o.src, o.dst)) ↔
      ∀ edge ∈ recorded adds, sep ∉ edge.1 ∧ sep ∉ edge.2 := by
  constructor
  · intro h edge hedge
    obtain ⟨o, ho, rfl⟩ := (h edge).1 hedge
    obtain ⟨e, -, rfl⟩ := List.mem_map.1 ho
    exact ⟨sep_not_mem_splitKey _, sep_not_mem_splitKey _⟩
  · intro h
    have hpack : ∀ c ∈ adds, c.Admitted → splitKey (packKey c.src c.dst c.kind) = (c.src, c.dst ++ sep :: c.kind) ∧
        splitKey (c.dst ++ sep :: c.kind) = (c.dst, c.kind) := by
      intro c hc hadmitted
      have hmem : (c.src, c.dst) ∈ recorded adds :=
        List.mem_map.2 ⟨c, List.mem_filter.2 ⟨hc, decide_eq_true hadmitted⟩, rfl⟩
      obtain ⟨hsrc, hdst⟩ := h _ hmem
      exact ⟨splitKey_append hsrc _, splitKey_append hdst _⟩
    intro edge
    simp only [recorded, List.mem_map, List.mem_filter, decide_eq_true_eq]
    constructor
    · rintro ⟨c, ⟨hc, hadmitted⟩, rfl⟩
      obtain ⟨v, hv⟩ := (get_addAll_isSome adds (packKey c.src c.dst c.kind)).2 ⟨c, hc, hadmitted, rfl⟩
      obtain ⟨hsrc, hdst⟩ := hpack c hc hadmitted
      refine ⟨_, List.mem_map.2 ⟨_, KeyedMap.get_eq_some.1 hv, rfl⟩, ?_⟩
      simp only [hsrc, hdst]
    · rintro ⟨o, ho, rfl⟩
      obtain ⟨e, he, rfl⟩ := List.mem_map.1 ho
      obtain ⟨c, hc, hadmitted, heq⟩ := (get_addAll_isSome adds e.1).1 ⟨e.2, KeyedMap.get_eq_some.2 he⟩
      obtain ⟨hsrc, hdst⟩ := hpack c hc hadmitted
      refine ⟨c, ⟨hc, hadmitted⟩, ?_⟩
      simp only [← heq, hsrc, hdst]

/-! ## The law -/

/-- The rate of the payloads. -/
def payloadRate (sampleRate : JsNumber) : JsNumber := mathMax 1 (mathMax 1 sampleRate.floor).floor

theorem isNumber_natCast {k : Nat} (hk : k < 2 ^ 53) : IsNumber (.fin (k : Rat)) := by
  intro q hq
  cases hq
  exact roundRat_of_lt hk

theorem isNumber_nan : IsNumber .nan := fun _ h => by cases h

/-- A row that is drained, as it goes on the wire: its numbers arrive. -/
theorem sendable_row {adds : List Add} {ts : Seconds} {sampleRate : JsNumber} (hrate : IsNumber sampleRate)
    {o : Observation} (ho : o ∈ (Aggregator.addAll adds).drain ts) :
    Sendable (receivedRow (wireRow (payloadRate sampleRate) o)).ts ∧
      Sendable (receivedRow (wireRow (payloadRate sampleRate) o)).observed ∧
      Sendable (receivedRow (wireRow (payloadRate sampleRate) o)).weight := by
  have hmax : uint16Max = 65535 := rfl
  have hts : Sendable (receivedRow (wireRow (payloadRate sampleRate) o)).ts := by
    obtain ⟨e, -, rfl⟩ := List.mem_map.1 ho
    exact .inr ⟨_, rfl, roundRat_of_natAbs_lt ts.safe⟩
  refine ⟨hts, ?_⟩
  have hnumbers : IsNumber (observedOf (payloadRate sampleRate) o) ∧
      IsNumber ((observedOf (payloadRate sampleRate) o).mul (payloadRate sampleRate)) := by
    have hlost : payloadRate sampleRate = .nan ∨ payloadRate sampleRate = .posInf →
        IsNumber (observedOf (payloadRate sampleRate) o) ∧
          IsNumber ((observedOf (payloadRate sampleRate) o).mul (payloadRate sampleRate)) := by
      intro h
      obtain ⟨hcount, hweight⟩ := counts_of_not_whole h o
      rw [hweight]
      refine ⟨?_, isNumber_nan⟩
      rcases hcount with hnan | ⟨k, hk, hfin⟩
      · rw [hnan]
        exact isNumber_nan
      · rw [hfin]
        exact isNumber_natCast (by omega)
    rcases rate_cases hrate with ⟨-, -, r, hwhole⟩ | ⟨-, hnan⟩ | ⟨-, hinf⟩
    · rcases counts_of_whole hwhole o with ⟨hobserved, hweight⟩ | ⟨k, hk, hobserved, hweight⟩
      · rw [payloadRate, hweight, hobserved]
        exact ⟨isNumber_nan, isNumber_nan⟩
      · rw [payloadRate, hweight, hobserved]
        have hkr : k ≤ k * r := Nat.le_mul_of_pos_right k hwhole.pos
        exact ⟨isNumber_natCast (by omega), isNumber_natCast (by omega)⟩
    · exact hlost (.inl hnan)
    · exact hlost (.inr hinf)
  exact ⟨sendable_of_number hnumbers.1, sendable_of_number hnumbers.2⟩

theorem sendable_coverage (c : CoverageRow) : Sendable (receivedCoverage (wireCoverage c)).weight := by
  apply sendable_of_number
  intro q hq
  rcases hc : c.weight with _ | _ | w | _
  · rw [hc] at hq
    cases hq
  · rw [hc] at hq
    cases hq
    exact roundRat_of_lt (k := 0) (by norm_num)
  · have hw : IsDouble w := c.double w hc
    rw [hc, JsNumber.floor, mathMax, if_neg (by simp)] at hq
    split at hq
    case isTrue hgt =>
      cases hq
      rw [JsNumber.gt_fin, decide_eq_true_eq] at hgt
      have hpos : 0 < ⌊w⌋ := by exact_mod_cast hgt
      exact roundRat_floor hw (Int.floor_nonneg.1 (le_of_lt hpos))
    case isFalse =>
      cases hq
      exact roundRat_of_lt (k := 0) (by norm_num)
  · rw [hc] at hq
    cases hq

/-- A row passes at a whole rate if it has names. -/
theorem receivedRow_fits_iff {rate : JsNumber} {r : Nat} (h : WholeRate rate r) (o : Observation) :
    (receivedRow (wireRow rate o)).Fits r ↔ o.src ≠ [] ∧ o.dst ≠ [] := by
  have hmax : uint16Max = 65535 := rfl
  constructor
  · rintro ⟨hsrc, hdst, -, -⟩
    exact ⟨hsrc, hdst⟩
  · rintro ⟨hsrc, hdst⟩
    refine ⟨hsrc, hdst, ⟨_, rfl⟩, ?_⟩
    have hobservedRow : (receivedRow (wireRow rate o)).observed = (Json.num (observedOf rate o)).received := rfl
    have hweightRow : (receivedRow (wireRow rate o)).weight = (Json.num ((observedOf rate o).mul rate)).received := rfl
    rw [hobservedRow, hweightRow]
    rcases counts_of_whole h o with ⟨hobserved, hweight⟩ | ⟨k, hk, hobserved, hweight⟩
    · rw [hweight, hobserved]
      exact ⟨0, 0, rfl, rfl, Nat.zero_le _, Nat.zero_le _, by omega, by omega⟩
    · rw [hweight, hobserved]
      have hkr : k ≤ k * r := Nat.le_mul_of_pos_right k h.pos
      exact ⟨k, k * r, rfl, rfl, le_trans hkr hk, hk, by omega, by omega⟩

/-- What a flush drained reaches the daemon exactly if it has a source, the rate is a number below
infinity, and no name holds the separator. -/
theorem flush_delivers_iff {rt : NumberText} (hrt : rt.Lossless) (adds : List Add) (ts : Seconds)
    {sampleRate : JsNumber} (hrate : IsNumber sampleRate) (source : JsString) (cov : List CoverageRow) :
    Delivers rt id ((Flusher.new sampleRate source).doFlush rt ((Aggregator.addAll adds).drain ts) cov) (recorded adds) ↔
      ((Aggregator.addAll adds).drain ts ≠ [] ∨ cov ≠ [] →
        source ≠ [] ∧ sampleRate ≠ .nan ∧ sampleRate ≠ .posInf) ∧
      ∀ edge ∈ recorded adds, sep ∉ edge.1 ∧ sep ∉ edge.2 := by
  generalize hobs : (Aggregator.addAll adds).drain ts = obs
  have hrows : ∀ p ∈ pairChunks (chunk obs flushBatchSize) (chunk cov flushBatchSize), ∀ o ∈ p.1, o ∈ obs := by
    intro p hp o ho
    have hflat := flatMap_fst_pairChunks (chunk obs flushBatchSize) (chunk cov flushBatchSize)
    rw [flatten_chunk] at hflat
    rw [← hflat]
    exact List.mem_flatMap.2 ⟨p, hp, ho⟩
  have hsendable : ∀ p ∈ pairChunks (chunk obs flushBatchSize) (chunk cov flushBatchSize),
      ∀ row ∈ (p.1.map (wireRow (payloadRate sampleRate))).map receivedRow,
        Sendable row.ts ∧ Sendable row.observed ∧ Sendable row.weight := by
    intro p hp row hrow
    rw [List.map_map] at hrow
    obtain ⟨o, ho, rfl⟩ := List.mem_map.1 hrow
    exact sendable_row hrate (hobs ▸ hrows p hp o ho)
  have hcells : ∀ p : List Observation × List CoverageRow,
      ∀ c ∈ (p.2.map wireCoverage).map receivedCoverage, Sendable c.weight := by
    intro p c hc
    rw [List.map_map] at hc
    obtain ⟨c', -, rfl⟩ := List.mem_map.1 hc
    exact sendable_coverage c'
  have hrateSendable : Sendable (Json.num (payloadRate sampleRate)).received := by
    rcases rate_cases hrate with ⟨-, -, r, hwhole⟩ | ⟨-, hnan⟩ | ⟨-, hinf⟩
    · rw [payloadRate, hwhole.eq]
      exact .inr ⟨_, rfl, hwhole.double⟩
    · rw [payloadRate, hnan]
      exact .inl rfl
    · rw [payloadRate, hinf]
      exact .inl rfl
  have hparse : ∀ p ∈ pairChunks (chunk obs flushBatchSize) (chunk cov flushBatchSize),
      parseJson (textDecode (textEncode (stringify rt (encodePayload p.1 (Flusher.new sampleRate source).sampleRate
        (Flusher.new sampleRate source).source p.2)))) = some (wireBody source (Json.num (payloadRate sampleRate)).received
          ((p.1.map (wireRow (payloadRate sampleRate))).map receivedRow) ((p.2.map wireCoverage).map receivedCoverage)) := by
    intro p hp
    have hfinite := finite_wireBody source hrateSendable (hsendable p hp) (hcells p)
    have hread := parseJson_textDecode hrt hfinite
    rw [← received_wireBody] at hread ⊢
    rw [stringify_received] at hread
    exact hread
  have hparts : Delivers rt id _ (recorded adds) ↔ _ := delivers_parts hparse hrateSendable.numeric
    (fun p hp row hrow => by
      obtain ⟨hts, hobserved, hweight⟩ := hsendable p hp row hrow
      exact ⟨hts.numeric, hobserved.numeric, hweight.numeric⟩)
    (fun p _ c hc => (hcells p c hc).numeric)
  have hedges : (∀ edge, edge ∈ recorded adds ↔
      ∃ row ∈ (pairChunks (chunk obs flushBatchSize) (chunk cov flushBatchSize)).flatMap
        fun p => (p.1.map (wireRow (payloadRate sampleRate))).map receivedRow, edge = (id row.src, id row.dst)) ↔
      ∀ edge ∈ recorded adds, sep ∉ edge.1 ∧ sep ∉ edge.2 := by
    have hflat := flatMap_fst_pairChunks (chunk obs flushBatchSize) (chunk cov flushBatchSize)
    rw [flatten_chunk] at hflat
    have hrow : ∀ edge : JsString × JsString,
        (∃ row ∈ (pairChunks (chunk obs flushBatchSize) (chunk cov flushBatchSize)).flatMap
          fun p => (p.1.map (wireRow (payloadRate sampleRate))).map receivedRow, edge = (id row.src, id row.dst)) ↔
          ∃ o ∈ (Aggregator.addAll adds).drain ts, edge = (o.src, o.dst) := by
      intro edge
      rw [hobs]
      constructor
      · rintro ⟨row, hrow, rfl⟩
        obtain ⟨p, hp, hrow⟩ := List.mem_flatMap.1 hrow
        rw [List.map_map] at hrow
        obtain ⟨o, ho, rfl⟩ := List.mem_map.1 hrow
        exact ⟨o, hrows p hp o ho, rfl⟩
      · rintro ⟨o, ho, rfl⟩
        rw [← hflat] at ho
        obtain ⟨p, hp, ho⟩ := List.mem_flatMap.1 ho
        refine ⟨receivedRow (wireRow (payloadRate sampleRate) o), List.mem_flatMap.2 ⟨p, hp, ?_⟩, rfl⟩
        exact List.mem_map.2 ⟨_, List.mem_map.2 ⟨o, ho, rfl⟩, rfl⟩
    simp only [hrow]
    exact recorded_iff adds ts
  rw [Flusher.doFlush, hparts, hedges]
  apply and_congr_left
  intro hclean
  -- with the names intact, every drained row has them
  have hnames : ∀ o ∈ obs, o.src ≠ [] ∧ o.dst ≠ [] := by
    intro o ho
    rw [← hobs] at ho
    have hmem := ((recorded_iff adds ts).2 hclean (o.src, o.dst)).2 ⟨o, ho, rfl⟩
    simp only [recorded, List.mem_map, List.mem_filter, decide_eq_true_eq] at hmem
    obtain ⟨c, ⟨-, hsrc, hdst, -⟩, heq⟩ := hmem
    rw [Prod.mk.injEq] at heq
    exact ⟨heq.1 ▸ hsrc, heq.2 ▸ hdst⟩
  have hposted : pairChunks (chunk obs flushBatchSize) (chunk cov flushBatchSize) ≠ [] ↔ obs ≠ [] ∨ cov ≠ [] := by
    rw [Ne, pairChunks_eq_nil, chunk_eq_nil, chunk_eq_nil, not_and_or]
  constructor
  · intro hall hsome
    obtain ⟨p, hp⟩ := List.exists_mem_of_ne_nil _ (hposted.2 hsome)
    obtain ⟨hsource, r, hr, -⟩ := hall p hp
    refine ⟨hsource, ?_, ?_⟩
    · rintro rfl
      cases hr
    · rintro rfl
      cases hr
  · intro h p hp
    obtain ⟨hsource, hnan, hinf⟩ := h (hposted.1 (List.ne_nil_of_mem hp))
    rcases rate_cases hrate with ⟨-, -, r, hwhole⟩ | ⟨hbad, -⟩ | ⟨hbad, -⟩
    · have hvalue : numberValue (Json.num (payloadRate sampleRate)).received = .fin r := by
        rw [payloadRate, hwhole.eq]
        rfl
      rw [bodyFits_iff hvalue hwhole.pos]
      refine ⟨hsource, fun row hrow => ?_⟩
      rw [List.map_map] at hrow
      obtain ⟨o, ho, rfl⟩ := List.mem_map.1 hrow
      exact (receivedRow_fits_iff hwhole o).2 (hnames o (hrows p hp o ho))
    · exact absurd hbad hnan
    · exact absurd hbad hinf

end Hayven.Trace.Bun
