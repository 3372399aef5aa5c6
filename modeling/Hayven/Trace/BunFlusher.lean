import Hayven.Lib.Doubles
import Hayven.Trace.BunCollector
/-!
# The flusher's schedule

`trace/bun/src/flusher.ts`: flushes queue behind one another on a promise chain. A
flush drains both aggregators, sends the rows in chunks, and puts a chunk that failed
for the moment back. Calls of `add` and of `flushOnce` fall between any two sends.
-/
open Hayven.Lib Hayven.Daemon

namespace Hayven.Trace.Bun

/-! ## Coverage -/

theorem isNumber_add {a b : JsNumber} (ha : IsNumber a) (hb : IsNumber b) : IsNumber (a.add b) := by
  intro q hq
  cases a <;> cases b <;> first | exact roundRat_of_roundRat hq | cases hq

/-- Weights per cell; each is a number of the runtime. -/
structure CoverageAggregator where
  counts : KeyedMap JsString JsNumber
  doubles : ∀ k v, counts.get k = some v → IsNumber v

namespace CoverageAggregator

def new : CoverageAggregator := ⟨.empty, fun _ _ h => by cases h⟩

def coverageKey (test entity : JsString) : JsString := test ++ sep :: entity

def add (a : CoverageAggregator) (c : CoverageRow) : CoverageAggregator :=
  if c.test = [] ∨ c.entity = [] ∨ c.weight.le (0 : Int) then a
  else
    let k := coverageKey c.test c.entity
    { counts := a.counts.set k (((a.counts.get k).getD (0 : Int)).add c.weight)
      doubles := by
        intro k' v hv
        rw [KeyedMap.get_set] at hv
        split at hv
        · cases hv
          apply isNumber_add _ c.double
          cases hold : a.counts.get k with
          | none => exact isNumber_natCast (k := 0) (by decide)
          | some old => exact a.doubles k old hold
        · exact a.doubles k' v hv }

/-- `drain`: the first two parts of `key.split(SEP)` are the names. -/
def drain (a : CoverageAggregator) : List CoverageRow :=
  a.counts.entries.attach.map fun e =>
    ⟨(Aggregator.splitKey e.1.1).1, (Aggregator.splitKey (Aggregator.splitKey e.1.1).2).1, e.1.2,
      a.doubles e.1.1 e.1.2 (KeyedMap.get_eq_some.2 e.2)⟩

end CoverageAggregator

/-! ## Senders -/

/-- What a sender throws: its text and its numeric status, if it has one. -/
structure SendError where
  text : JsString
  status : Option JsNumber

/-- The daemon refused the payload for what it is: 4xx, but neither 408 nor 429. -/
def isPermanentRejection (e : SendError) : Bool :=
  match e.status with
  | none => false
  | some status => (JsNumber.fin 400).le status && status.lt (.fin 500) && status ≠ .fin 408 && status ≠ .fin 429

abbrev Chunk := List Observation × List CoverageRow

/-- The chunks of one flush, as they are sent. -/
def chunksOf (obs : List Observation) (coverage : List CoverageRow) : List Chunk :=
  pairChunks (chunk obs flushBatchSize) (chunk coverage flushBatchSize)

/-! ## Flushes -/

/-- The body of a flush that awaits the send of its first chunk. -/
structure Body where
  chunks : List Chunk
  sent : Nat
  anyError : Option JsString

inductive Stage where
  | waiting
  | running (body : Body)
  | settled

/-- A call of `flushOnce`: the flush whose promise it was chained on, and how far it is. -/
structure Flush where
  after : Option Nat
  stage : Stage

structure Tracer where
  agg : Aggregator
  coverage : CoverageAggregator
  flushes : List Flush
  inFlight : Option Nat
  permanentDropLogged : Bool
  lastFlushAt : Int
  lastFlushCount : Nat
  lastError : Option JsString
  /-- Every send that settled, with its chunk. -/
  sends : List (Option SendError × Chunk)

/-- The flusher's options, and whether it was given the coverage. -/
structure Options where
  sampleRate : JsNumber
  double : IsNumber sampleRate
  source : JsString
  covers : Bool

def Options.flusher (opts : Options) : Flusher := .new opts.sampleRate opts.source

def Tracer.new : Tracer := ⟨.new, .new, [], none, false, 0, 0, none, []⟩

namespace Tracer

def flushOnce (s : Tracer) : Tracer :=
  { s with flushes := s.flushes ++ [⟨s.inFlight, .waiting⟩], inFlight := some s.flushes.length }

/-- Without a final flush, `stop` only waits. -/
def stop (s : Tracer) (flush : Bool) : Tracer := if flush then s.flushOnce else s

def setStage (s : Tracer) (i : Nat) (stage : Stage) : Tracer :=
  { s with flushes := s.flushes.modify i fun f => { f with stage } }

/-- The promise a flush waits for has settled. -/
def mayStart (s : Tracer) (f : Flush) : Bool :=
  match f.after with
  | none => true
  | some j =>
    match s.flushes[j]? with
    | some ⟨_, .settled⟩ => true
    | _ => false

/-- `doFlush` up to its first send. -/
def doFlush (opts : Options) (s : Tracer) (i : Nat) (ts : Seconds) : Tracer :=
  let obs := s.agg.drain ts
  let coverage := if opts.covers then s.coverage.drain else []
  let s := { s with agg := .new, coverage := if opts.covers then .new else s.coverage }
  if obs.length = 0 ∧ coverage.length = 0 then s.setStage i .settled
  else s.setStage i (.running ⟨chunksOf obs coverage, 0, none⟩)

/-- A failed chunk goes back to the aggregators. -/
def rebuffer (opts : Options) (s : Tracer) (p : Chunk) : Tracer :=
  { s with
    agg := p.1.foldl (fun agg o => agg.add ⟨o.src, o.dst, o.kind, o.observed⟩) s.agg
    coverage := if opts.covers then p.2.foldl CoverageAggregator.add s.coverage else s.coverage }

/-- The catch of one send, with the error it leaves. -/
def failed (opts : Options) (s : Tracer) (p : Chunk) (e : SendError) : Tracer × JsString :=
  if isPermanentRejection e then
    ({ s with permanentDropLogged := true }, ascii "dropped-permanent: " ++ e.text)
  else (s.rebuffer opts p, e.text)

/-- After the last chunk. -/
def finish (s : Tracer) (i : Nat) (body : Body) (now : Int) : Tracer :=
  match body.anyError with
  | some e => { s.setStage i .settled with lastError := some e, lastFlushCount := body.sent }
  | none => { s.setStage i .settled with lastFlushAt := now, lastFlushCount := body.sent, lastError := none }

/-- The send in the air settles; the loop goes on to the next chunk or ends. -/
def settle (opts : Options) (s : Tracer) (i : Nat) (body : Body) (p : Chunk) (rest : List Chunk)
    (outcome : Option SendError) (now : Int) : Tracer :=
  let (s', body') := match outcome with
    | none => (s, { body with chunks := rest, sent := body.sent + p.1.length })
    | some e =>
      let (s', msg) := s.failed opts p e
      (s', { body with chunks := rest, anyError := some msg })
  let s' := { s' with sends := s.sends ++ [(outcome, p)] }
  if rest = [] then s'.finish i body' now else s'.setStage i (.running body')

end Tracer

/-! ## Schedules -/

inductive Event where
  | add (c : Add)
  | cover (c : CoverageRow)
  | flushOnce
  | stop (flush : Bool)
  | start (i : Nat) (ts : Seconds)
  | settle (i : Nat) (outcome : Option SendError) (now : Int)

namespace Tracer

/-- One turn of the event loop, if that event can come. -/
def step (opts : Options) (s : Tracer) : Event → Option Tracer
  | .add c => some { s with agg := s.agg.add c }
  | .cover c => some { s with coverage := s.coverage.add c }
  | .flushOnce => some s.flushOnce
  | .stop flush => some (s.stop flush)
  | .start i ts =>
    match s.flushes[i]? with
    | some ⟨after, .waiting⟩ => if s.mayStart ⟨after, .waiting⟩ then some (s.doFlush opts i ts) else none
    | _ => none
  | .settle i outcome now =>
    match s.flushes[i]? with
    | some ⟨_, .running body⟩ =>
      match body.chunks with
      | p :: rest => some (s.settle opts i body p rest outcome now)
      | [] => none
    | _ => none

def run (opts : Options) (s : Tracer) (events : List Event) : Option Tracer := events.foldlM (step opts) s

end Tracer

end Hayven.Trace.Bun
