import Hayven.Daemon.Traces
import Hayven.Lib.DecimalText
/-!
# All or nothing

A batch that passes the route's checks is stored whole or not at all, and every row has
an op that the serializer takes, exactly when each row's time has a bucket on the wire
and its names are text: the checks look at neither.
-/
open Hayven.Lib Hayven.Crdt

namespace Hayven.Daemon

/-! ## Buckets -/

/-- The double nearest to the minute of a time is a minute that 32 bits of seconds hold. -/
def MinuteFits (ts : Rat) : Prop := ∃ minute, roundRat (ts / 60) = .fin minute ∧ 0 ≤ minute ∧ minute < 71582789

theorem bucketizeNumber_eq {ts minute : Rat} (h : roundRat (ts / 60) = .fin minute) :
    bucketizeNumber (.fin ts) = roundRat ((⌊minute⌋ * 60 : Int) : Rat) := by
  have hdiv : JsNumber.divNat (.fin ts) tsBucketSeconds = .fin minute := h
  rw [bucketizeNumber, hdiv]
  show roundRat ((⌊minute⌋ : Rat) * ((60 : Nat) : Rat)) = _
  congr 1
  push_cast
  rfl

/-- What is no finite number of minutes has no bucket. -/
theorem natValue_bucket_of_infinite {n : JsNumber} (h : ∀ q, n ≠ .fin q) :
    (n.floor.mul (.fin tsBucketSeconds)).natValue = none := by
  cases n with
  | fin q => exact absurd rfl (h q)
  | nan => rfl
  | negInf => decide +kernel
  | posInf => decide +kernel

/-- A time has a bucket on the wire exactly if its minute fits. -/
theorem bucket_fits_iff (ts : Rat) :
    (∃ b < 2 ^ 32, (bucketizeNumber (.fin ts)).natValue = some b) ↔ MinuteFits ts := by
  by_cases hfin : ∃ minute, roundRat (ts / 60) = .fin minute
  · obtain ⟨minute, hminute⟩ := hfin
    rw [bucketizeNumber_eq hminute, natValue_roundRat (by norm_num), MinuteFits]
    constructor
    · rintro ⟨hlow, hhigh⟩
      refine ⟨minute, hminute, Int.floor_nonneg.1 (by omega), ?_⟩
      have hfloor : ⌊minute⌋ < 71582789 := by omega
      exact_mod_cast Int.floor_lt.1 hfloor
    · rintro ⟨minute', heq, hlow, hhigh⟩
      rw [hminute, JsNumber.fin.injEq] at heq
      subst heq
      have hnonneg : 0 ≤ ⌊minute⌋ := Int.floor_nonneg.2 hlow
      have hfloor : ⌊minute⌋ < 71582789 := Int.floor_lt.2 (by exact_mod_cast hhigh)
      exact ⟨by omega, by omega⟩
  · have hinf : ∀ q, JsNumber.divNat (.fin ts) tsBucketSeconds ≠ .fin q := fun q hq => hfin ⟨q, hq⟩
    refine iff_of_false ?_ ?_
    · rintro ⟨b, -, h⟩
      rw [bucketizeNumber, natValue_bucket_of_infinite hinf] at h
      cases h
    · rintro ⟨minute, h, -⟩
      exact hfin ⟨minute, h⟩

/-! ## What the serializer takes -/

/-- A natural number that a double holds prints as its digits. -/
def PrintsDigits (rt : NumberText) : Prop := ∀ n : Nat, n < 2 ^ 53 → rt.print n = decDigits n

/-- The server's bound on a request body, in bytes. -/
def maxRequestBodySize : Nat := 128 * 1024 * 1024

structure FitsWire (op : GsetOp) : Prop where
  tsBucket : op.tsBucket < 2 ^ 32
  observed : op.observed < 2 ^ 16
  weight : op.weight < 2 ^ 16

section Serializer
variable {brotli : Native.Brotli} {rt : NumberText}

theorem jsonUint_eq (h : PrintsDigits rt) {bits n : Nat} (hn : n < 2 ^ bits) (hdouble : n < 2 ^ 53) :
    jsonUint rt bits n = some n := by
  have hdigits := digits_decDigits n
  have hne : decDigits n ≠ [] := by
    obtain ⟨u, rest, heq, -⟩ := hdigits.head
    rw [heq]
    exact List.cons_ne_nil u rest
  have hall : (decDigits n).all isDigit = true := List.all_eq_true.2 hdigits.all
  rw [jsonUint, h n hdouble]
  simp only [hdigits.value, hall, hne, hn, ne_eq, not_false_eq_true, and_self, if_true]

theorem jsonHlc_isSome (h : PrintsDigits rt) {hlc : Hlc} (henc : hlc.Encodable) : ∃ w, jsonHlc rt hlc = some w := by
  obtain ⟨hwall, hcounter⟩ := henc
  have hwall' : hlc.wallMs < 2 ^ 53 := by
    unfold maxSafeInteger at hwall
    omega
  have hcounter' : hlc.counter < 2 ^ 16 := by
    unfold counterMax at hcounter
    omega
  refine ⟨⟨hlc.wallMs.toUInt64, hlc.counter.toUInt16⟩, ?_⟩
  rw [jsonHlc, jsonUint_eq h (by omega) hwall', jsonUint_eq h hcounter' (by omega)]
  rfl

theorem toRecord_isSome (h : PrintsDigits rt) {op : GsetOp} (hfits : FitsWire op) (henc : op.hlc.Encodable)
    (hsrc : wellFormed op.src = true) (hdst : wellFormed op.dst = true) :
    ∃ b o w hlc, toRecord rt (gsetToWire op) =
      some (.gsetObserve (ofUtf16 op.src) (ofUtf16 op.dst) b o w hlc op.writer.1) := by
  obtain ⟨hlc, hhlc⟩ := jsonHlc_isSome h henc
  have hb := hfits.tsBucket
  have ho := hfits.observed
  have hw := hfits.weight
  refine ⟨op.tsBucket.toUInt32, op.observed.toUInt16, op.weight.toUInt16, hlc, ?_⟩
  rw [gsetToWire, toRecord, jsonString, if_pos hsrc, jsonString, if_pos hdst, jsonUint_eq h hb (by omega),
    jsonUint_eq h ho (by omega), jsonUint_eq h hw (by omega), hhlc]
  rfl

theorem length_lebBytes_le (n v : Nat) : (lebBytes n v).length ≤ n + 1 := by
  induction n generalizing v with
  | zero => simp [lebBytes]
  | succ n ih =>
    rw [lebBytes]
    split
    · simp
    · rw [List.length_cons]
      have := ih (v / 128)
      omega

theorem length_ofUtf16_le (s : JsString) : (ofUtf16 s).length ≤ s.length := by
  induction s using ofUtf16.induct with
  | case1 => simp [ofUtf16]
  | case2 u => simp [ofUtf16]
  | case3 u v rest hpair ih =>
    rw [ofUtf16, if_pos hpair]
    simp only [List.length_cons]
    omega
  | case4 u v rest hpair ih =>
    rw [ofUtf16, if_neg hpair]
    simp only [List.length_cons] at ih ⊢
    omega

theorem length_utf8Encode_le_chars (cs : List Char) : (utf8Encode cs).length ≤ 4 * cs.length := by
  induction cs with
  | nil => rfl
  | cons c cs ih =>
    have hc := length_utf8Char_le c
    rw [length_utf8Encode_cons, List.length_cons]
    omega

/-- A string in the table of a batch. -/
theorem length_encodeString_le (s : JsString) : (Native.encodeString (ofUtf16 s)).length ≤ 10 + 4 * s.length := by
  have hvarint := length_lebBytes_le 9 (utf8Encode (ofUtf16 s)).length
  have hbytes := length_utf8Encode_le_chars (ofUtf16 s)
  have hchars := length_ofUtf16_le s
  rw [Native.encodeString, List.length_append, Native.writeVarint]
  omega

/-- A batch is its envelope or something shorter, after a marker. -/
theorem encodeBatch_marked (brotli : Native.Brotli) {ops : List Native.OpRecord} {buf : Bytes}
    (h : Native.encodeEnvelope ops = .ok buf) :
    ∃ batch, Native.encodeBatch brotli ops = .ok batch ∧ batch.length ≤ buf.length + 1 := by
  unfold Native.encodeBatch
  rw [h]
  simp only [bind, Except.bind, pure, Except.pure]
  split
  · exact ⟨_, rfl, Nat.le_of_eq List.length_cons⟩
  · split
    · exact ⟨_, rfl, Nat.le_of_eq List.length_cons⟩
    · refine ⟨_, rfl, ?_⟩
      rw [List.length_cons]
      omega

/-- One observation makes a batch not much longer than its names. -/
theorem encodeBatch_observation (brotli : Native.Brotli) (src dst : JsString) (b : UInt32) (o w : UInt16)
    (hlc : Native.HlcWire) (writer : WriterId) :
    ∃ batch, Native.encodeBatch brotli [.gsetObserve (ofUtf16 src) (ofUtf16 dst) b o w hlc writer.1] = .ok batch ∧
      batch.length ≤ 200 + 4 * (src.length + dst.length) := by
  set op : Native.OpRecord := .gsetObserve (ofUtf16 src) (ofUtf16 dst) b o w hlc writer.1 with hop
  have htable : (Native.stringTable [op]).flatMap Native.encodeString =
      Native.encodeString (ofUtf16 src) ++ if ofUtf16 dst = ofUtf16 src then [] else Native.encodeString (ofUtf16 dst) := by
    have hstrings : Native.stringTable [op] = Native.intern [ofUtf16 src] (ofUtf16 dst) := rfl
    rw [hstrings, Native.intern]
    by_cases hsame : ofUtf16 dst = ofUtf16 src
    · simp [hsame]
    · simp [hsame]
  obtain ⟨record, hrecord, hlength⟩ : ∃ record, Native.encodeOp (Native.stringTable [op]) op = .ok record ∧
      record.length ≤ 100 := by
    have hwriter : ¬ op.writer.length ≠ Native.writerBytes := not_not.2 writer.2
    refine ⟨_, if_neg hwriter, ?_⟩
    have hs := length_lebBytes_le 9 ((Native.stringTable [op]).idxOf (ofUtf16 src))
    have hd := length_lebBytes_le 9 ((Native.stringTable [op]).idxOf (ofUtf16 dst))
    have hw : op.writer.length = 16 := writer.2
    simp only [Native.encodeHlc, Native.writeVarint, List.length_cons, List.length_append, length_beBytes,
      List.length_nil, hw]
    omega
  set buf := Native.magic ++ Native.writeVarint 1 ++ Native.writeVarint (Native.stringTable [op]).length ++
    (Native.stringTable [op]).flatMap Native.encodeString ++ [record].flatten with hbuf
  have henvelope : Native.encodeEnvelope [op] = .ok buf := by
    rw [Native.encodeEnvelope]
    simp only [List.mapM_cons, List.mapM_nil, hrecord]
    rfl
  have hlen : buf.length + 1 ≤ 200 + 4 * (src.length + dst.length) := by
    have hone := length_lebBytes_le 9 1
    have hcount := length_lebBytes_le 9 (Native.stringTable [op]).length
    have hs := length_encodeString_le src
    have hd := length_encodeString_le dst
    have hmagic : Native.magic.length = 4 := rfl
    rw [hbuf, htable]
    simp only [List.length_append, Native.writeVarint, hmagic, List.flatten_cons, List.flatten_nil, List.append_nil]
    split
    · simp only [List.length_nil]
      omega
    · omega
  obtain ⟨batch, hbatch, hmarked⟩ := encodeBatch_marked brotli henvelope
  exact ⟨batch, hbatch, by omega⟩

/-- What the serializer takes has names of scalar values, and its batch is not much longer. -/
theorem encode_cases {op : GsetOp} {batch : Bytes} (h : (nativeBridge brotli rt).encode [gsetToWire op] = some batch) :
    wellFormed op.src = true ∧ wellFormed op.dst = true ∧ batch.length ≤ 200 + 4 * (op.src.length + op.dst.length) := by
  obtain ⟨rs, hrs, hbatch⟩ := Option.bind_eq_some_iff.1 h
  rw [List.mapM_cons] at hrs
  obtain ⟨r, hr, hrs⟩ := Option.bind_eq_some_iff.1 hrs
  cases hrs
  have hbatch : (Native.encodeBatch brotli [r]).toOption = some batch := hbatch
  rw [gsetToWire, toRecord] at hr
  obtain ⟨src, hsrc, hr⟩ := Option.bind_eq_some_iff.1 hr
  obtain ⟨dst, hdst, hr⟩ := Option.bind_eq_some_iff.1 hr
  obtain ⟨b, -, hr⟩ := Option.bind_eq_some_iff.1 hr
  obtain ⟨o, -, hr⟩ := Option.bind_eq_some_iff.1 hr
  obtain ⟨w, -, hr⟩ := Option.bind_eq_some_iff.1 hr
  obtain ⟨hlc, -, hr⟩ := Option.bind_eq_some_iff.1 hr
  cases hr
  rw [jsonString] at hsrc hdst
  split at hsrc
  · split at hdst
    · next hsrc' hdst' =>
      cases hsrc
      cases hdst
      obtain ⟨batch', hbatch', hlength⟩ := encodeBatch_observation brotli op.src op.dst b.toUInt32 o.toUInt16 w.toUInt16 hlc op.writer
      rw [hbatch'] at hbatch
      cases hbatch
      exact ⟨hsrc', hdst', hlength⟩
    · cases hdst
  · cases hsrc

/-- The serializer takes an observation that fits. -/
theorem encode_observation (brotli : Native.Brotli) (h : PrintsDigits rt) {op : GsetOp} (hfits : FitsWire op) (henc : op.hlc.Encodable)
    (hsrc : wellFormed op.src = true) (hdst : wellFormed op.dst = true) :
    ∃ batch, (nativeBridge brotli rt).encode [gsetToWire op] = some batch := by
  obtain ⟨b, o, w, hlc, hrecord⟩ := toRecord_isSome h hfits henc hsrc hdst
  obtain ⟨batch, hbatch, -⟩ := encodeBatch_observation brotli op.src op.dst b o w hlc op.writer
  refine ⟨batch, ?_⟩
  show (do let rs ← [gsetToWire op].mapM (toRecord rt); (Native.encodeBatch brotli rs).toOption) = some batch
  rw [List.mapM_cons, hrecord, List.mapM_nil]
  show (Native.encodeBatch brotli [_]).toOption = some batch
  rw [hbatch]
  rfl

end Serializer

/-! ## What is promised of a batch -/

/-- The clock values that the next ops get. -/
def clockValues (g : HlcGenerator) (now : Nat → Int) : Nat → List Hlc
  | 0 => []
  | n + 1 => (g.tick (now 0)).1 :: clockValues (g.tick (now 0)).2 (fun i => now (i + 1)) n

/-- Op after op onto a log. -/
def logAll (bridge : WireBridge) (mtimeMs : Nat → Rat) (log : OpLog) : List GsetOp → Option OpLog
  | [] => some log
  | op :: rest =>
    (log.appendOps bridge .gset [gsetToWire op] (mtimeMs 0)).toOption.bind fun log =>
      logAll bridge (fun i => mtimeMs (i + 1)) log rest

/-- Op after op into memory. -/
def applyAll (gset : GsetState) : List GsetOp → Option GsetState
  | [] => some gset
  | op :: rest => (gset.apply op).toOption.bind fun gset => applyAll gset rest

/-- The ops of a batch's rows. -/
def observationOps (s : CrdtState) (now : Nat → Int) (rows : List ObservationRow) : List (Option GsetOp) :=
  List.zipWith (observationOp s.writer) rows (clockValues s.clock now rows.length)

/-- Every op is logged and applied, and every row inserted. -/
structure StoredWhole (env : TraceEnv) (store store' : TraceStore) (rows : List ObservationRow) (ops : List GsetOp) :
    Prop where
  logged : logAll env.host.bridge env.mtimeMs store.crdt.oplog ops = some store'.crdt.oplog
  applied : ∃ gset, applyAll store.crdt.mem.gset ops = some gset ∧ store'.crdt.mem = { store.crdt.mem with gset }
  inserted : store'.observations = insertObservations store.observations rows

structure Untouched (store store' : TraceStore) : Prop where
  logged : store'.crdt.oplog = store.crdt.oplog
  applied : store'.crdt.mem = store.crdt.mem
  inserted : store'.observations = store.observations

/-- Each row becomes an op that fits the wire and that the serializer takes, and all or none are stored. -/
def AllOrNothing (env : TraceEnv) (store store' : TraceStore) (rows : List ObservationRow) : Prop :=
  ∃ ops : List GsetOp, observationOps store.crdt env.now rows = ops.map some ∧
    (∀ op ∈ ops, FitsWire op ∧ (env.host.bridge.encode [gsetToWire op]).isSome = true) ∧
      (StoredWhole env store store' rows ops ∨ Untouched store store')

/-- What the checks would have to ask of a row. -/
structure RowFits (row : ObservationRow) : Prop where
  minute : MinuteFits row.ts
  src : wellFormed row.src = true
  dst : wellFormed row.dst = true

/-! ## One row -/

section Row
variable {brotli : Native.Brotli} {host : Host} {row : ObservationRow} {writer : WriterId} {hlc : Hlc}

theorem observationOp_eq_some {op : GsetOp} :
    observationOp writer row hlc = some op ↔
      ∃ b, (bucketizeNumber (.fin row.ts)).natValue = some b ∧ op = ⟨row.src, row.dst, b, row.observed, row.weight, hlc, writer⟩ := by
  rw [observationOp, Option.map_eq_some_iff]
  exact exists_congr fun b => and_congr_right fun _ => eq_comm

theorem observationOp_of_fits (writer : WriterId) (hlc : Hlc) (h : RowFits row) :
    ∃ op, observationOp writer row hlc = some op ∧ FitsWire op ∧ op.src = row.src ∧ op.dst = row.dst ∧ op.hlc = hlc := by
  obtain ⟨b, hb, hvalue⟩ := (bucket_fits_iff row.ts).2 h.minute
  have hobserved := row.observedFits
  have hweight := row.weightFits
  unfold uint16Max at hobserved hweight
  exact ⟨_, observationOp_eq_some.2 ⟨b, hvalue, rfl⟩, ⟨hb, Nat.lt_succ_of_le hobserved, Nat.lt_succ_of_le hweight⟩, rfl, rfl, rfl⟩

/-- An op whose batch is of a bounded size can be appended. -/
theorem append_of_encode {s : CrdtState} {op : GsetOp} {batch : Bytes} (hbridge : host.bridge = nativeBridge brotli host.text)
    (henc : host.bridge.encode [gsetToWire op] = some batch)
    (hsize : op.src.length + op.dst.length ≤ maxRequestBodySize) (mtimeMs : Rat) :
    s.oplog.appendOps host.bridge .gset [gsetToWire op] mtimeMs =
      .ok (s.oplog.appendToFile .gset (utcDate op.hlc.wallMs) (frameBytes batch) mtimeMs) := by
  have hlength : batch.length ≤ 200 + 4 * (op.src.length + op.dst.length) := by
    rw [hbridge] at henc
    exact (encode_cases henc).2.2
  have hframe : ¬ (frameBytes batch).length > maxArrayLength := by
    have hvarint := length_lebBytes_le 4 batch.length
    unfold maxRequestBodySize at hsize
    rw [frameBytes, encodeVarint_eq (by omega), List.length_append, maxArrayLength]
    omega
  unfold OpLog.appendOps
  dsimp only
  rw [henc]
  dsimp only
  rw [OpLog.appendBatchBytes, if_neg hframe]
  rfl

end Row

/-! ## The loop -/

section Loop
variable {brotli : Native.Brotli} {host : Host}

/-- A state whose clock ticked for an op. -/
def ticked (s : CrdtState) (now : Int) : CrdtState := (s.tick now).2

theorem observeRow_of_none {now : Int} {mtimeMs : Rat} {s : CrdtState} {row : ObservationRow}
    (h : observationOp s.writer row (s.clock.tick now).1 = none) :
    observeRow host now mtimeMs s row = (.refused, ticked s now) := by
  have htick : s.tick now = ((s.clock.tick now).1, ticked s now) := rfl
  have hwriter : (ticked s now).writer = s.writer := rfl
  unfold observeRow
  generalize ticked s now = s' at htick hwriter ⊢
  generalize s.tick now = ticking at htick ⊢
  subst htick
  simp only [hwriter, h]

theorem observeRow_of_some {now : Int} {mtimeMs : Rat} {s : CrdtState} {row : ObservationRow} {op : GsetOp}
    (h : observationOp s.writer row (s.clock.tick now).1 = some op) :
    observeRow host now mtimeMs s row = (ticked s now).observe host op mtimeMs := by
  have htick : s.tick now = ((s.clock.tick now).1, ticked s now) := rfl
  have hwriter : (ticked s now).writer = s.writer := rfl
  unfold observeRow
  generalize ticked s now = s' at htick hwriter ⊢
  generalize s.tick now = ticking at htick ⊢
  subst htick
  simp only [hwriter, h]

theorem append_error {s : CrdtState} {type : CrdtType} {wire : WireOp} {mtimeMs : Rat} {e : AppendError}
    (h : s.oplog.appendOps host.bridge type [wire] mtimeMs = .error e) : s.append host type wire mtimeMs = none := by
  rw [CrdtState.append, h]

theorem append_ok {s : CrdtState} {type : CrdtType} {wire : WireOp} {mtimeMs : Rat} {log : OpLog}
    (h : s.oplog.appendOps host.bridge type [wire] mtimeMs = .ok log) :
    s.append host type wire mtimeMs = some { s with oplog := log } := by
  rw [CrdtState.append, h]

theorem observe_of_none {s : CrdtState} {op : GsetOp} {mtimeMs : Rat} (h : s.append host .gset (gsetToWire op) mtimeMs = none) :
    s.observe host op mtimeMs = (.refused, s) := by
  rw [CrdtState.observe, h]

theorem observe_of_some {s s' : CrdtState} {op : GsetOp} {mtimeMs : Rat} {gset : GsetState}
    (h : s.append host .gset (gsetToWire op) mtimeMs = some s') (happly : s'.mem.gset.apply op = .ok gset) :
    s.observe host op mtimeMs = (.done, { s' with mem := { s'.mem with gset } }) := by
  rw [CrdtState.observe, h]
  dsimp only
  rw [happly]

/-- An op that was appended is in the log, whether memory takes it or not. -/
theorem observe_oplog {s s' : CrdtState} {op : GsetOp} {mtimeMs : Rat}
    (h : s.append host .gset (gsetToWire op) mtimeMs = some s') : (s.observe host op mtimeMs).2.oplog = s'.oplog := by
  rw [CrdtState.observe, h]
  dsimp only
  cases s'.mem.gset.apply op with
  | error e => rfl
  | ok gset => rfl

/-- A row that fits is appended and applied. -/
theorem observeRow_done (hbridge : host.bridge = nativeBridge brotli host.text) (hprint : PrintsDigits host.text)
    {row : ObservationRow} (hrow : RowFits row) (hsize : row.src.length + row.dst.length ≤ maxRequestBodySize)
    (now : Int) (mtimeMs : Rat) (s : CrdtState) (henc : (s.clock.tick now).1.Encodable) :
    ∃ op log gset, observationOp s.writer row (s.clock.tick now).1 = some op ∧ FitsWire op ∧
      (host.bridge.encode [gsetToWire op]).isSome = true ∧
      s.oplog.appendOps host.bridge .gset [gsetToWire op] mtimeMs = .ok log ∧ s.mem.gset.apply op = .ok gset ∧
      observeRow host now mtimeMs s row = (.done, { ticked s now with oplog := log, mem := { s.mem with gset } }) := by
  obtain ⟨op, hop, hfits, hsrc, hdst, hhlc⟩ := observationOp_of_fits s.writer (s.clock.tick now).1 hrow
  have henc' : op.hlc.Encodable := hhlc ▸ henc
  obtain ⟨batch, hbatch⟩ := encode_observation brotli hprint hfits henc' (hsrc ▸ hrow.src) (hdst ▸ hrow.dst)
  rw [← hbridge] at hbatch
  have happend := append_of_encode (s := s) hbridge hbatch (hsrc ▸ hdst ▸ hsize) mtimeMs
  generalize s.oplog.appendToFile .gset (utcDate op.hlc.wallMs) (frameBytes batch) mtimeMs = log at happend
  rcases GsetState.apply_cases s.mem.gset op with ⟨hnot, -⟩ | ⟨k, hk, happly⟩
  · exact absurd henc' hnot
  · generalize (if s.mem.gset.ops.has k then s.mem.gset else s.mem.gset.put k op hk) = gset at happly
    refine ⟨op, log, gset, hop, hfits, Option.isSome_iff_exists.2 ⟨batch, hbatch⟩, happend, happly, ?_⟩
    have hticked : (ticked s now).oplog.appendOps host.bridge .gset [gsetToWire op] mtimeMs = .ok log := happend
    rw [observeRow_of_some hop]
    exact observe_of_some (append_ok hticked) happly

/-- Rows that fit are all stored. -/
theorem observeRows_done (hbridge : host.bridge = nativeBridge brotli host.text) (hprint : PrintsDigits host.text)
    {rows : List ObservationRow} (hrows : ∀ row ∈ rows, RowFits row)
    (hsize : ∀ row ∈ rows, row.src.length + row.dst.length ≤ maxRequestBodySize) (now : Nat → Int) (mtimeMs : Nat → Rat)
    (s : CrdtState) (henc : ∀ hlc ∈ clockValues s.clock now rows.length, hlc.Encodable) :
    ∃ ops s' gset, observationOps s now rows = ops.map some ∧
      (∀ op ∈ ops, FitsWire op ∧ (host.bridge.encode [gsetToWire op]).isSome = true) ∧
      observeRows host now mtimeMs s rows = (true, s') ∧ logAll host.bridge mtimeMs s.oplog ops = some s'.oplog ∧
      applyAll s.mem.gset ops = some gset ∧ s'.mem = { s.mem with gset } := by
  induction rows generalizing now mtimeMs s with
  | nil => exact ⟨[], s, s.mem.gset, rfl, fun _ h => absurd h List.not_mem_nil, rfl, rfl, rfl, rfl⟩
  | cons row rows ih =>
    obtain ⟨op, log, gset, hop, hfits, hencode, happend, happly, hdone⟩ :=
      observeRow_done hbridge hprint (hrows row List.mem_cons_self) (hsize row List.mem_cons_self) (now 0) (mtimeMs 0) s
        (henc _ List.mem_cons_self)
    obtain ⟨ops, s', gset', hops, hall, hrun, hlog, hset, hmem⟩ :=
      ih (fun row' h => hrows row' (List.mem_cons_of_mem row h)) (fun row' h => hsize row' (List.mem_cons_of_mem row h))
        (fun i => now (i + 1)) (fun i => mtimeMs (i + 1))
        { ticked s (now 0) with oplog := log, mem := { s.mem with gset } }
        (fun hlc h => henc hlc (List.mem_cons_of_mem _ h))
    refine ⟨op :: ops, s', gset', ?_, ?_, ?_, ?_, ?_, hmem⟩
    · rw [observationOps, List.length_cons, clockValues, List.zipWith_cons_cons, hop, List.map_cons]
      exact congrArg (some op :: ·) hops
    · intro op' hmem'
      rcases List.mem_cons.1 hmem' with rfl | hmem'
      · exact ⟨hfits, hencode⟩
      · exact hall op' hmem'
    · rw [observeRows, hdone]
      exact hrun
    · rw [logAll, happend]
      exact hlog
    · rw [applyAll, happly]
      exact hset

/-- A row adds to the files of the log, if it changes them at all. -/
theorem observeRow_bytes (host : Host) (now : Int) (mtimeMs : Rat) (s : CrdtState) (row : ObservationRow) (day : JsString) :
    ∃ more, (observeRow host now mtimeMs s row).2.oplog.bytes .gset day = s.oplog.bytes .gset day ++ more := by
  have hticked : (ticked s now).oplog = s.oplog := rfl
  have hsame : ∃ more, s.oplog.bytes .gset day = s.oplog.bytes .gset day ++ more := ⟨[], (List.append_nil _).symm⟩
  cases hop : observationOp s.writer row (s.clock.tick now).1 with
  | none =>
    rw [observeRow_of_none hop, hticked]
    exact hsame
  | some op =>
    rw [observeRow_of_some hop]
    cases happend : (ticked s now).oplog.appendOps host.bridge .gset [gsetToWire op] mtimeMs with
    | error e =>
      rw [observe_of_none (append_error happend), hticked]
      exact hsame
    | ok log =>
      rw [observe_oplog (append_ok happend)]
      rcases OpLog.appendOps_ok happend with ⟨hnil, -⟩ | ⟨first, rest, batch, -, -, -, hlog⟩
      · cases hnil
      · rw [hlog, OpLog.bytes_appendToFile, hticked]
        exact ⟨_, rfl⟩

theorem observeRows_bytes (now : Nat → Int) (mtimeMs : Nat → Rat) (s : CrdtState) (rows : List ObservationRow)
    (day : JsString) :
    ∃ more, (observeRows host now mtimeMs s rows).2.oplog.bytes .gset day = s.oplog.bytes .gset day ++ more := by
  induction rows generalizing now mtimeMs s with
  | nil => exact ⟨[], (List.append_nil _).symm⟩
  | cons row rows ih =>
    obtain ⟨more, hmore⟩ := observeRow_bytes host (now 0) (mtimeMs 0) s row day
    rw [observeRows]
    rcases hrow : observeRow host (now 0) (mtimeMs 0) s row with ⟨outcome, s'⟩
    rw [hrow] at hmore
    cases outcome with
    | done =>
      obtain ⟨rest, hrest⟩ := ih (fun i => now (i + 1)) (fun i => mtimeMs (i + 1)) s'
      refine ⟨more ++ rest, ?_⟩
      rw [← List.append_assoc, ← hmore]
      exact hrest
    | refused => exact ⟨more, hmore⟩
    | threw => exact ⟨more, hmore⟩

theorem observeRows_cons (now : Nat → Int) (mtimeMs : Nat → Rat) (s : CrdtState) (row : ObservationRow)
    (rows : List ObservationRow) :
    observeRows host now mtimeMs s (row :: rows) =
      if (observeRow host (now 0) (mtimeMs 0) s row).1 = .done then
        observeRows host (fun i => now (i + 1)) (fun i => mtimeMs (i + 1)) (observeRow host (now 0) (mtimeMs 0) s row).2 rows
      else (false, (observeRow host (now 0) (mtimeMs 0) s row).2) := by
  rw [observeRows]

/-- What a row adds to the log is there at the end of the loop. -/
theorem observeRows_bytes_row (host : Host) (now : Nat → Int) (mtimeMs : Nat → Rat) (s : CrdtState) (row : ObservationRow)
    (rows : List ObservationRow) (day : JsString) :
    ∃ more, (observeRows host now mtimeMs s (row :: rows)).2.oplog.bytes .gset day =
      (observeRow host (now 0) (mtimeMs 0) s row).2.oplog.bytes .gset day ++ more := by
  rw [observeRows_cons]
  split
  · exact observeRows_bytes _ _ _ rows day
  · exact ⟨[], (List.append_nil _).symm⟩

/-- If the serializer takes the first row's op, the log changes. -/
theorem observeRows_logged (rows : List ObservationRow) (hbridge : host.bridge = nativeBridge brotli host.text)
    {row : ObservationRow} (hsize : row.src.length + row.dst.length ≤ maxRequestBodySize) (now : Nat → Int)
    (mtimeMs : Nat → Rat) (s : CrdtState) {op : GsetOp}
    (hop : observationOp s.writer row (s.clock.tick (now 0)).1 = some op)
    (henc : (host.bridge.encode [gsetToWire op]).isSome = true) :
    (observeRows host now mtimeMs s (row :: rows)).2.oplog ≠ s.oplog := by
  obtain ⟨batch, hbatch⟩ := Option.isSome_iff_exists.1 henc
  have hsize' : op.src.length + op.dst.length ≤ maxRequestBodySize := by
    obtain ⟨b, -, rfl⟩ := observationOp_eq_some.1 hop
    exact hsize
  have happend := append_of_encode (s := ticked s (now 0)) hbridge hbatch hsize' (mtimeMs 0)
  obtain ⟨more, hmore⟩ := observeRows_bytes_row host now mtimeMs s row rows (utcDate op.hlc.wallMs)
  rw [observeRow_of_some hop, observe_oplog (append_ok happend)] at hmore
  have hticked : (ticked s (now 0)).oplog = s.oplog := rfl
  intro hsame
  rw [hsame, OpLog.bytes_appendToFile, if_pos ⟨rfl, rfl⟩, hticked, List.append_assoc] at hmore
  have hnil : frameBytes batch ++ more = [] := List.append_right_eq_self.1 hmore.symm
  exact frameBytes_ne_nil batch (List.append_eq_nil_iff.1 hnil).1

end Loop

/-! ## The batch -/

section Batch
variable {brotli : Native.Brotli} {env : TraceEnv} {store : TraceStore} {payload : TracesPayload}

theorem storeBatch_of_thrown {crdt : CrdtState}
    (h : observeRows env.host env.now env.mtimeMs store.crdt payload.rows = (false, crdt)) :
    (storeBatch env store payload).2 = { store with crdt } := by
  rw [storeBatch, h]

theorem storeBatch_of_done {crdt : CrdtState}
    (h : observeRows env.host env.now env.mtimeMs store.crdt payload.rows = (true, crdt)) :
    (storeBatch env store payload).2.crdt = crdt ∧
      (storeBatch env store payload).2.observations = insertObservations store.observations payload.rows := by
  rw [storeBatch, h]
  dsimp only
  split
  · exact ⟨rfl, rfl⟩
  · cases env.coverageError with
    | none => exact ⟨rfl, rfl⟩
    | some error => exact ⟨rfl, rfl⟩

/-- Memory has taken only ops whose clock has a key. -/
theorem encodable_of_applyAll {ops : List GsetOp} {gset gset' : GsetState} (h : applyAll gset ops = some gset') :
    ∀ op ∈ ops, op.hlc.Encodable := by
  induction ops generalizing gset with
  | nil => exact fun _ h => absurd h List.not_mem_nil
  | cons op ops ih =>
    rw [applyAll] at h
    obtain ⟨next, hnext, hrest⟩ := Option.bind_eq_some_iff.1 h
    intro op' hop'
    rcases List.mem_cons.1 hop' with rfl | hop'
    · rcases GsetState.apply_cases gset op' with ⟨-, e, he⟩ | ⟨k, hk, -⟩
      · rw [he] at hnext
        cases hnext
      · exact (opKey_ok hk).1
    · exact ih hrest op' hop'

/-- The ops of the rows have the clock values of the rows, and fit only if the rows do. -/
theorem observationOps_cases {writer : WriterId} {rows : List ObservationRow} {hlcs : List Hlc} {ops : List GsetOp}
    (hlength : hlcs.length = rows.length) (h : List.zipWith (observationOp writer) rows hlcs = ops.map some) :
    ops.map (·.hlc) = hlcs ∧ (∀ row ∈ rows, ∃ op ∈ ops, ∃ hlc, observationOp writer row hlc = some op) := by
  induction rows generalizing hlcs ops with
  | nil =>
    cases hlcs with
    | cons hlc hlcs => cases hlength
    | nil =>
      rw [List.zipWith_nil_left] at h
      rw [List.map_eq_nil_iff.1 h.symm]
      exact ⟨rfl, fun _ h => absurd h List.not_mem_nil⟩
  | cons row rows ih =>
    cases hlcs with
    | nil => cases hlength
    | cons hlc hlcs =>
      cases ops with
      | nil => cases h
      | cons op ops =>
        rw [List.zipWith_cons_cons, List.map_cons, List.cons.injEq] at h
        obtain ⟨hop, hrest⟩ := h
        obtain ⟨hclock, hrows⟩ := ih (Nat.succ.inj hlength) hrest
        refine ⟨?_, ?_⟩
        · obtain ⟨b, -, rfl⟩ := observationOp_eq_some.1 hop
          rw [List.map_cons, hclock]
        · intro row' hrow'
          rcases List.mem_cons.1 hrow' with rfl | hrow'
          · exact ⟨op, List.mem_cons_self, hlc, hop⟩
          · obtain ⟨op', hop', hfrom⟩ := hrows row' hrow'
            exact ⟨op', List.mem_cons_of_mem op hop', hfrom⟩

theorem length_clockValues (g : HlcGenerator) (now : Nat → Int) (n : Nat) : (clockValues g now n).length = n := by
  induction n generalizing g now with
  | zero => rfl
  | succ n ih => rw [clockValues, List.length_cons, ih]

end Batch

/-! ## A time before the epoch -/

theorem printsDigits_decimal : PrintsDigits decimalNumberText := by
  intro n _
  show decimalText n = decDigits n
  have hnum : (n : Rat).num.natAbs = n := by simp
  have hden : (n : Rat).den.log2 = 0 := by
    rw [Rat.den_natCast]
    decide
  have hneg : ¬ (n : Rat) < 0 := not_lt.2 (Nat.cast_nonneg n)
  rw [decimalText]
  rw [if_neg hneg, hnum, hden, Nat.pow_zero, Nat.mul_one]
  exact List.append_nil _

def plainBrotli : Native.Brotli := ⟨fun bytes => bytes, some⟩

def plainHost : Host := ⟨nativeBridge plainBrotli decimalNumberText, decimalNumberText, fun bytes => bytes⟩

def plainEnv : TraceEnv := ⟨plainHost, fun _ => 1000, fun _ => 0, none⟩

def plainStore : TraceStore := ⟨.start (replicatedWriter 1) .empty, .empty, .empty⟩

/-- One call that was seen once at a time. -/
def seenAt (ts : Rat) : Json :=
  .obj [(ascii "src", .str (ascii "a")), (ascii "dst", .str (ascii "b")), (ascii "ts", .num (.fin ts)),
    (ascii "observed", .num (.fin 1)), (ascii "weight", .num (.fin 1))]

def batchOf (observations : List Json) : Json :=
  .obj [(ascii "source", .str (ascii "py")), (ascii "sample_rate", .num (.fin 1)), (ascii "observations", .arr observations)]

def seenRow (ts : Rat) : ObservationRow := ⟨ascii "a", ascii "b", ts, 1, 1, ascii "py", by decide, by decide⟩

def payloadOf (rows : List ObservationRow) : TracesPayload := ⟨ascii "py", 1, rows, [], 0⟩

end Hayven.Daemon
