import Hayven.Crdt.State
import Hayven.Graph.IdScheme
import Hayven.Lib.WholeNumbers
/-!
# Trace observations

`daemon/routes/traces.ts`: `POST /api/traces/observations` checks a collector's batch,
then appends and applies the observations one by one, then inserts them into SQL with
the coverage rows. The tables themselves do not fail here, except where the handler
catches it.
-/
open Hayven.Lib Hayven.Crdt Hayven.Graph

namespace Hayven.Daemon

def roundingSlack : Int := 1
def uint16Max : Nat := 0xffff

structure ObservationRow where
  src : JsString
  dst : JsString
  /-- A finite number of seconds, whole or not. -/
  ts : Rat
  observed : Nat
  weight : Nat
  source : JsString
  observedFits : observed ≤ uint16Max
  weightFits : weight ≤ uint16Max
deriving DecidableEq

structure TestCoverageRow where
  test : JsString
  entity : JsString
  weight : Nat
  source : JsString
deriving DecidableEq

structure TracesPayload where
  source : JsString
  sampleRate : Nat
  rows : List ObservationRow
  coverage : List TestCoverageRow
  coverageSkipped : Nat
deriving DecidableEq

inductive TracesError where
  /-- Answered with 400 and this text. -/
  | invalid (error : JsString)
  /-- `Number(...)` threw on an object it cannot convert. -/
  | thrown
deriving DecidableEq

/-! ## Checking a body -/

/-- `Number(raw[name])`; a missing field is not a number. -/
def numberOf (rt : NumberText) (name : String) (raw : Json) : Except TracesError JsNumber :=
  match raw.field name with
  | none => .ok .nan
  | some v =>
    match v.toNumber rt with
    | none => .error .thrown
    | some n => .ok n

/-- `observations[i]` at the head of an error text. -/
def atObservation (i : Nat) (text : JsString) : TracesError :=
  .invalid (ascii "observations[" ++ decDigits i ++ ascii "]" ++ text)

def validSource (raw : Json) : Except TracesError JsString :=
  match raw.field "source" with
  | some (.str (u :: rest)) => .ok (u :: rest)
  | _ => .error (.invalid (ascii "missing or invalid `source`"))

def validSampleRate (rt : NumberText) (raw : Json) : Except TracesError Nat := do
  let n ← numberOf rt "sample_rate" raw
  match n.natValue with
  | some (rate + 1) => return rate + 1
  | _ => throw (.invalid (ascii "`sample_rate` must be a positive integer"))

/-- An end of an observed call. -/
def validEnd (i : Nat) (name : String) (o : Json) : Except TracesError JsString :=
  match o.field name with
  | some (.str (u :: rest)) => .ok (u :: rest)
  | _ => .error (atObservation i (ascii ("." ++ name ++ " missing")))

def validTs (rt : NumberText) (i : Nat) (o : Json) : Except TracesError Rat := do
  let n ← numberOf rt "ts" o
  match n with
  | .fin ts => return ts
  | _ => throw (atObservation i (ascii ".ts invalid"))

/-- A count of an observation. -/
def validCount (rt : NumberText) (i : Nat) (name : String) (o : Json) :
    Except TracesError { count : Nat // count ≤ uint16Max } := do
  let n ← numberOf rt name o
  match n.natValue with
  | none => throw (atObservation i (ascii ("." ++ name ++ " must be a non-negative integer")))
  | some count =>
    if h : count ≤ uint16Max then return ⟨count, h⟩
    else throw (atObservation i (ascii ("." ++ name ++ " exceeds uint16 max 65535; split the batch")))

/-- `observed * sampleRate`. -/
def expectedWeight (observed sampleRate : Nat) : JsNumber := (JsNumber.fin observed).mul (.fin sampleRate)

/-- `Math.abs(weight - expected) > ROUNDING_SLACK`. -/
def weightMismatch (weight observed sampleRate : Nat) : Bool :=
  ((JsNumber.fin weight).sub (expectedWeight observed sampleRate)).abs.gt roundingSlack

/-- `±`. -/
def plusMinus : UInt16 := 0xB1

def mismatchText (rt : NumberText) (weight observed sampleRate : Nat) : JsString :=
  ascii " weight mismatch: expected " ++ Json.numToString rt (expectedWeight observed sampleRate) ++ ascii " (" ++
    plusMinus :: ascii "1), got " ++ rt.print weight

def validObservation (rt : NumberText) (source : JsString) (sampleRate i : Nat) (o : Json) :
    Except TracesError ObservationRow := do
  if !o.isObject then throw (atObservation i (ascii " must be an object"))
  let src ← validEnd i "src" o
  let dst ← validEnd i "dst" o
  let ts ← validTs rt i o
  let ⟨observed, observedFits⟩ ← validCount rt i "observed" o
  let ⟨weight, weightFits⟩ ← validCount rt i "weight" o
  if weightMismatch weight observed sampleRate then throw (atObservation i (mismatchText rt weight observed sampleRate))
  return { src, dst, ts, observed, weight, source, observedFits, weightFits }

/-- The observations from index `i` on; the first bad one rejects the batch. -/
def validObservations (rt : NumberText) (source : JsString) (sampleRate i : Nat) :
    List Json → Except TracesError (List ObservationRow)
  | [] => .ok []
  | o :: rest => do
    let row ← validObservation rt source sampleRate i o
    let rows ← validObservations rt source sampleRate (i + 1) rest
    return row :: rows

/-- `typeof v === "string" ? v.trim() : ""`. -/
def trimmedField (name : String) (c : Json) : JsString :=
  match c.field name with
  | some (.str s) => trim s
  | _ => []

/-- One coverage row, `none` if it is malformed; the weight is 1 unless given. -/
def coverageRow (rt : NumberText) (source : JsString) (c : Json) : Except TracesError (Option TestCoverageRow) :=
  if !c.isObject then .ok none
  else
    let test := trimmedField "test" c
    let entity := trimmedField "entity" c
    if test = [] ∨ entity = [] then .ok none
    else do
      let w ← if (c.field "weight").isNone then pure (.fin 1) else numberOf rt "weight" c
      return w.natValue.map fun weight => { test, entity, weight, source }

def coverageRows (rt : NumberText) (source : JsString) : List Json → Except TracesError (List (Option TestCoverageRow))
  | [] => .ok []
  | c :: rest => do
    let row ← coverageRow rt source c
    let rows ← coverageRows rt source rest
    return row :: rows

def validate (rt : NumberText) (body : Option Json) : Except TracesError TracesPayload :=
  match body with
  | none => .error (.invalid (ascii "body must be a JSON object"))
  | some raw => do
    if !raw.isObject then throw (.invalid (ascii "body must be a JSON object"))
    let source ← validSource raw
    let sampleRate ← validSampleRate rt raw
    match raw.field "observations" with
    | some (.arr obs) =>
      let rows ← validObservations rt source sampleRate 0 obs
      let coverage ← match raw.field "test_coverage" with
        | some (.arr items) => coverageRows rt source items
        | _ => pure []
      return { source, sampleRate, rows, coverage := coverage.filterMap id, coverageSkipped := coverage.countP (·.isNone) }
    | _ => throw (.invalid (ascii "`observations` must be an array"))

/-! ## Storing a batch -/

/-- `bucketize` of any number of seconds; only a natural number has a bucket on the wire. -/
def bucketizeNumber (unixSeconds : JsNumber) : JsNumber :=
  (unixSeconds.divNat tsBucketSeconds).floor.mul (.fin tsBucketSeconds)

/-- The op of a row; `none` if its bucket is not a natural number. -/
def observationOp (writer : WriterId) (row : ObservationRow) (hlc : Hlc) : Option GsetOp :=
  (bucketizeNumber (.fin row.ts)).natValue.map fun tsBucket =>
    ⟨row.src, row.dst, tsBucket, row.observed, row.weight, hlc, writer⟩

/-- One row; the serializer throws on a bucket that is not a natural number. -/
def observeRow (host : Host) (now : Int) (mtimeMs : Rat) (s : CrdtState) (row : ObservationRow) :
    CrdtState.Outcome × CrdtState :=
  let (hlc, s) := s.tick now
  match observationOp s.writer row hlc with
  | none => (.refused, s)
  | some op => s.observe host op mtimeMs

/-- The loop over the rows, each with its readings of the clock; `false` if a row threw. -/
def observeRows (host : Host) (now : Nat → Int) (mtimeMs : Nat → Rat) (s : CrdtState) :
    List ObservationRow → Bool × CrdtState
  | [] => (true, s)
  | row :: rest =>
    let (outcome, s) := observeRow host (now 0) (mtimeMs 0) s row
    if outcome = .done then observeRows host (fun i => now (i + 1)) (fun i => mtimeMs (i + 1)) s rest else (false, s)

structure ObservationKey where
  src : JsString
  dst : JsString
  ts : Rat
  source : JsString
deriving DecidableEq

structure CoverageKey where
  test : JsString
  entity : JsString
  source : JsString
deriving DecidableEq

/-- What the route writes: the CRDT state and the two tables. -/
structure TraceStore where
  crdt : CrdtState
  observations : KeyedMap ObservationKey (Nat × Nat)
  coverage : KeyedMap CoverageKey Nat

/-- A row replaces the one with its key. -/
def insertObservations (table : KeyedMap ObservationKey (Nat × Nat)) (rows : List ObservationRow) :
    KeyedMap ObservationKey (Nat × Nat) :=
  rows.foldl (fun table row => table.set ⟨row.src, row.dst, row.ts, row.source⟩ (row.observed, row.weight)) table

/-- The weights of a key add up. -/
def insertTestCoverage (table : KeyedMap CoverageKey Nat) (rows : List TestCoverageRow) : KeyedMap CoverageKey Nat :=
  rows.foldl (fun table row =>
    let key : CoverageKey := ⟨row.test, row.entity, row.source⟩
    table.set key ((table.get key).getD 0 + row.weight)) table

/-- What a request meets: its readings of the clock, and the message of a failing coverage insert. -/
structure TraceEnv where
  host : Host
  now : Nat → Int
  mtimeMs : Nat → Rat
  coverageError : Option JsString

inductive TracesReply where
  | badRequest (error : JsString)
  /-- The handler threw. -/
  | failed
  | accepted (accepted coverageAccepted coverageSkipped : Nat) (coverageError : Option JsString) (source : JsString)
      (sampleRate : Nat)
deriving DecidableEq

/-- The handler once the body is checked. -/
def storeBatch (env : TraceEnv) (store : TraceStore) (payload : TracesPayload) : TracesReply × TraceStore :=
  match observeRows env.host env.now env.mtimeMs store.crdt payload.rows with
  | (false, crdt) => (.failed, { store with crdt })
  | (true, crdt) =>
    let store := { store with crdt, observations := insertObservations store.observations payload.rows }
    let done := fun accepted error =>
      TracesReply.accepted payload.rows.length accepted payload.coverageSkipped error payload.source payload.sampleRate
    if payload.coverage = [] then (done 0 none, store)
    else
      match env.coverageError with
      | some error => (done 0 (some error), store)
      | none => (done payload.coverage.length none, { store with coverage := insertTestCoverage store.coverage payload.coverage })

def postObservations (env : TraceEnv) (store : TraceStore) (body : Option Json) : TracesReply × TraceStore :=
  match validate env.host.text body with
  | .error (.invalid error) => (.badRequest error, store)
  | .error .thrown => (.failed, store)
  | .ok payload => storeBatch env store payload

end Hayven.Daemon
