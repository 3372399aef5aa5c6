import Hayven.Crdt.Merkle
import Hayven.Crdt.ClockRuns
import Hayven.Crdt.Conversions
import Hayven.Crdt.SegmentReaders
import Hayven.Lib.DecimalText
/-!
# Restarting a replica

A replica folds its own writes in as it makes them and inbound ops as it decodes them.
A restart folds in what the log decodes to, type by type and day by day. Both end in a
state that shows the same, as long as the conversions keep what the replica wrote.
-/
open Hayven.Lib

namespace Hayven.Crdt

/-! ## Folding ops in -/

namespace MemState

theorem deliver_of_not_admissible {s : MemState JsString} {op : CrdtOp JsString} (h : ¬ op.Admissible) :
    s.deliver op = s := by
  cases op with
  | lww op => exact absurd trivial h
  | gset op =>
    rcases GsetState.apply_cases s.gset op with ⟨-, e, he⟩ | ⟨k, hk, -⟩
    · simp only [deliver, he]
    · exact absurd (opKey_ok hk).1 h
  | orset op =>
    cases op with
    | remove op => exact absurd trivial h
    | add op =>
      rcases OrSetState.applyAdd_cases s.orset op with ⟨-, e, he⟩ | ⟨r, hr, -⟩
      · simp only [deliver, OrSetState.apply, he]
      · exact absurd (hr ▸ (addOpTag_ok r.tagged).1) h

theorem holds_deliverAll {S : Set (CrdtOp JsString)} {s : MemState JsString} {ops : List (CrdtOp JsString)}
    (hc : Consistent (S ∪ {op | op ∈ ops})) (h : s.Holds S) : (ops.foldl deliver s).Holds (S ∪ {op | op ∈ ops}) := by
  induction ops generalizing S s with
  | nil => simpa using h
  | cons op rest ih =>
    have hset : insert op S ∪ {op' | op' ∈ rest} = S ∪ {op' | op' ∈ op :: rest} := by
      ext op'
      simp only [Set.mem_union, Set.mem_insert_iff, Set.mem_ofPred_eq, List.mem_cons]
      tauto
    rw [← hset] at hc ⊢
    exact ih hc (holds_deliver (hc.mono Set.subset_union_left) h)

end MemState

/-! ## What a restart replays -/

section Replay
variable {bridge : WireBridge} {log : OpLog}

theorem goodOps_of_intact {decode : Bytes → Option (List WireOp)} {bytes : Bytes} (h : Intact decode bytes) :
    goodOps decode bytes = (split varintPrefix bytes).frames.flatMap fun f => (decode f.body).getD [] := by
  rw [goodOps, goodFrames, List.takeWhile_eq_self_iff.2 h.2]

/-- A log of whole batches is replayed to its end, and what is replayed is what is stored. -/
theorem hydrate_wellStored (hlog : WellStored bridge log) (type : CrdtType) (m : JsString → Rat) :
    (hydrate (steady bridge.decode) m (log.dir type)).thrown = none ∧
      ∀ wire, wire ∈ (hydrate (steady bridge.decode) m (log.dir type)).ops ↔
        ∃ day, wire ∈ storedOps bridge log type day := by
  have hno : ∀ day f, (log.dir type).get day = some f → ¬ Overruns bridge.decode f.bytes := by
    intro day f hf hover
    obtain ⟨⟨v, hv⟩, -⟩ := hover
    have hclean := (hlog type day).1
    rw [OpLog.bytes, OpLog.file, hf] at hclean
    cases hclean.symm.trans hv
  obtain ⟨hthrown, hops⟩ := hydrate_steady m hno
  refine ⟨hthrown, fun wire => ?_⟩
  rw [hops, List.mem_flatMap]
  have hday : ∀ day, goodOps bridge.decode ((((log.dir type).get day).map SegmentFile.bytes).getD []) =
      storedOps bridge log type day := fun day => goodOps_of_intact (hlog type day)
  simp only [hday]
  constructor
  · rintro ⟨day, -, hwire⟩
    exact ⟨day, hwire⟩
  · rintro ⟨day, hwire⟩
    refine ⟨day, (mem_sortWith _).2 (KeyedMap.mem_keys.2 ?_), hwire⟩
    -- nothing is stored in a file that is not there
    cases hf : (log.dir type).get day with
    | some f => exact ⟨f, rfl⟩
    | none =>
      have hbytes : log.bytes type day = [] := by rw [OpLog.bytes, OpLog.file, hf]; rfl
      rw [storedOps, hbytes] at hwire
      cases hwire

end Replay

/-- Two ops that a restart may fold in in either order. -/
def CrdtOp.Agrees : CrdtOp JsString → CrdtOp JsString → Prop
  | .lww a, .lww b => a.contentHash = b.contentHash → a.value = b.value
  | .gset a, .gset b => a.key = b.key → a = b
  | .orset a, .orset b => a.key = b.key → a = b
  | _, _ => True

instance : (a b : CrdtOp JsString) → Decidable (a.Agrees b)
  | .lww _, .lww _ => inferInstanceAs (Decidable (_ → _))
  | .gset _, .gset _ => inferInstanceAs (Decidable (_ → _))
  | .orset _, .orset _ => inferInstanceAs (Decidable (_ → _))
  | .lww _, .gset _ | .lww _, .orset _ | .gset _, .lww _ | .gset _, .orset _ | .orset _, .lww _ | .orset _, .gset _ =>
    inferInstanceAs (Decidable True)

theorem MemState.consistent_of_agrees {ops : List (CrdtOp JsString)} (h : ∀ a ∈ ops, ∀ b ∈ ops, a.Agrees b) :
    MemState.Consistent {op | op ∈ ops} where
  lww _ ha _ hb := h _ ha _ hb
  gset _ ha _ hb := h _ ha _ hb
  orset _ _ ha hb := h _ ha _ hb

/-- The logical ops of decoded ops, the malformed ones skipped. -/
def logicalOps (text : NumberText) (ops : List WireOp) : List (CrdtOp JsString) := ops.filterMap (toLogical text)

namespace CrdtState

theorem applyWireOpInMemory_mem (text : NumberText) (s : CrdtState) (now : Int) (wireOp : WireOp) :
    (s.applyWireOpInMemory text now wireOp).2.mem = (logicalOps text [wireOp]).foldl MemState.deliver s.mem := by
  rcases s.applyWireOpInMemory_cases text now wireOp with ⟨hnot, h⟩ | ⟨-, op, hop, h⟩
  · rw [h]
    cases hl : toLogical text wireOp with
    | none => simp [logicalOps, hl]
    | some op =>
      have hadm : ¬ op.Admissible := fun hadm => hnot ⟨op, hl, hadm⟩
      simp [logicalOps, hl, MemState.deliver_of_not_admissible hadm]
  · rw [h]
    simp [logicalOps, hop, observeClock]

theorem applyOps_mem (text : NumberText) (s : CrdtState) (now : Nat → Int) (ops : List WireOp) :
    (s.applyOps text now ops).mem = (logicalOps text ops).foldl MemState.deliver s.mem := by
  induction ops generalizing s now with
  | nil => rfl
  | cons op rest ih =>
    rw [applyOps, ih, applyWireOpInMemory_mem, ← List.foldl_append, logicalOps, logicalOps, ← List.filterMap_append]
    rfl

/-! ## A local write -/

/-- The op a route makes; `none` if it cannot be made. -/
def Write.op (host : Host) (s : CrdtState) (hlc : Hlc) : Write → Option (CrdtOp JsString)
  | .recordLww entityId value => some (.lww (makeLwwOp host.blake3 textEncode entityId value hlc s.writer))
  | .observe src dst tsBucket observed weight => some (.gset ⟨src, dst, tsBucket, observed, weight, hlc, s.writer⟩)
  | .claim claimId agent payload => some (.orset (.add ⟨claimId, agent, payload, hlc, s.writer⟩))
  | .release claimId => (makeRemoveOpFor s.mem.orset claimId hlc s.writer).toOption.map fun op => .orset (.remove op)

/-- The op was stored in one batch of its own and given to memory. -/
structure Wrote (host : Host) (s s' : CrdtState) (op : CrdtOp JsString) (wire : WireOp) : Prop where
  converts : toWire host.text op = some wire
  log : ∃ type day batch m, host.bridge.encode [wire] = some batch ∧ batch.length < 2 ^ 32 ∧
    s'.oplog = s.oplog.appendToFile type day (frameBytes batch) m
  mem : s'.mem = s.mem.deliver op

/-- A write leaves everything as it was, or writes this op. -/
def Writes (host : Host) (s : CrdtState) (op : CrdtOp JsString) (r : Outcome × CrdtState) : Prop :=
  r = (.refused, s) ∨ r.1 ≠ .refused ∧ ∃ wire, Wrote host s r.2 op wire

theorem threw_ne_refused : Outcome.threw ≠ .refused := by decide

theorem done_ne_refused : Outcome.done ≠ .refused := by decide

theorem append_cases (host : Host) (s : CrdtState) (type : CrdtType) (wire : WireOp) (m : Rat) :
    s.append host type wire m = none ∨ ∃ day batch, host.bridge.encode [wire] = some batch ∧ batch.length < 2 ^ 32 ∧
      s.append host type wire m = some { s with oplog := s.oplog.appendToFile type day (frameBytes batch) m } := by
  unfold append
  cases h : s.oplog.appendOps host.bridge type [wire] m with
  | error e => exact .inl rfl
  | ok oplog =>
    rcases OpLog.appendOps_ok h with ⟨hnil, -⟩ | ⟨first, rest, batch, hops, henc, hlen, rfl⟩
    · cases hnil
    · cases hops
      exact .inr ⟨_, batch, henc, hlen, rfl⟩

theorem recordLww_writes (host : Host) (s : CrdtState) (entityId value : JsString) (hlc : Hlc) (m : Rat) :
    Writes host s (.lww (makeLwwOp host.blake3 textEncode entityId value hlc s.writer))
      (s.recordLww host entityId value hlc m) := by
  unfold recordLww
  rcases append_cases host s .lww (lwwToWire (makeLwwOp host.blake3 textEncode entityId value hlc s.writer)) m with
    h | ⟨day, batch, henc, hlen, h⟩
  · exact .inl (by simp only [h])
  · refine .inr ?_
    simp only [h, LwwRegistry.apply_eq]
    refine ⟨done_ne_refused, _, rfl, ⟨.lww, day, batch, m, henc, hlen, rfl⟩, ?_⟩
    simp only [MemState.deliver, LwwRegistry.apply_eq]

theorem observe_writes (host : Host) (s : CrdtState) (op : GsetOp) (m : Rat) :
    Writes host s (.gset op) (s.observe host op m) := by
  unfold observe
  rcases append_cases host s .gset (gsetToWire op) m with h | ⟨day, batch, henc, hlen, h⟩
  · exact .inl (by simp only [h])
  · refine .inr ?_
    simp only [h]
    cases happly : s.mem.gset.apply op with
    | error e =>
      refine ⟨threw_ne_refused, _, rfl, ⟨.gset, day, batch, m, henc, hlen, rfl⟩, ?_⟩
      simp only [MemState.deliver, happly]
    | ok gset =>
      refine ⟨done_ne_refused, _, rfl, ⟨.gset, day, batch, m, henc, hlen, rfl⟩, ?_⟩
      simp only [MemState.deliver, happly]

theorem applyOr_writes (host : Host) (s : CrdtState) (op : OrOp) (m : Rat) :
    Writes host s (.orset op) (s.applyOr host op m) := by
  unfold applyOr
  cases hwire : orToWire host.text op with
  | none => exact .inl rfl
  | some wire =>
    rcases append_cases host s .orset wire m with h | ⟨day, batch, henc, hlen, h⟩
    · exact .inl (by simp only [h])
    · refine .inr ?_
      simp only [h]
      cases happly : s.mem.orset.apply op with
      | error e =>
        refine ⟨threw_ne_refused, wire, hwire, ⟨.orset, day, batch, m, henc, hlen, rfl⟩, ?_⟩
        simp only [MemState.deliver, happly]
      | ok orset =>
        refine ⟨done_ne_refused, wire, hwire, ⟨.orset, day, batch, m, henc, hlen, rfl⟩, ?_⟩
        simp only [MemState.deliver, happly]

/-- A route that makes no op is refused; otherwise it is refused or writes its op. -/
theorem write_cases (host : Host) (s : CrdtState) (hlc : Hlc) (m : Rat) (w : Write) :
    s.write host hlc m w = (.refused, s) ∨ ∃ op, w.op host s hlc = some op ∧ Writes host s op (s.write host hlc m w) := by
  cases w with
  | recordLww entityId value => exact .inr ⟨_, rfl, s.recordLww_writes host entityId value hlc m⟩
  | observe src dst tsBucket observed weight => exact .inr ⟨_, rfl, s.observe_writes host _ m⟩
  | claim claimId agent payload => exact .inr ⟨_, rfl, s.applyOr_writes host _ m⟩
  | release claimId =>
    unfold write
    dsimp only
    cases hop : makeRemoveOpFor s.mem.orset claimId hlc s.writer with
    | error e => exact .inl rfl
    | ok op => exact .inr ⟨_, by simp only [Write.op, hop, Except.toOption, Option.map_some], s.applyOr_writes host _ m⟩

/-! ## Runs -/

/-- What a value, and the times of a claim, must be for a restart to read them back. -/
def Write.Kept : Write → Prop
  | .recordLww _ value => TextSafe value
  | .claim _ _ payload => (Json.num payload.createdMs).Finite ∧ (Json.num payload.ttlMs).Finite
  | .observe .. | .release _ => True

/-- A batch of this one op decodes to it. -/
def Carries (bridge : WireBridge) (wire : WireOp) : Prop :=
  ∀ batch, bridge.encode [wire] = some batch → bridge.decode batch = some [wire]

/-- A replica, the wire ops of its own writes and the ops that memory was given. -/
structure Session where
  state : CrdtState
  written : List WireOp
  delivered : List (CrdtOp JsString)

/-- What happens to a replica between two starts. -/
inductive Action where
  | tick (now : Int)
  | write (w : Write) (hlc : Hlc) (mtimeMs : Rat)
  | receive (type : CrdtType) (date : JsString) (batch : Bytes) (logNow : Int) (mtimeMs : Rat) (now : Nat → Int)

/-- The op of a write that was not refused. -/
def writtenOps (host : Host) (s : CrdtState) (hlc : Hlc) (mtimeMs : Rat) (w : Write) : List (CrdtOp JsString) :=
  if (s.write host hlc mtimeMs w).1 = .refused then [] else (w.op host s hlc).toList

/-- `none` if an inbound batch is refused. -/
def act (host : Host) (x : Session) : Action → Option Session
  | .tick now => some { x with state := (x.state.tick now).2 }
  | .write w hlc mtimeMs =>
    let ops := writtenOps host x.state hlc mtimeMs w
    some ⟨(x.state.write host hlc mtimeMs w).2, ops.filterMap (toWire host.text) ++ x.written, ops ++ x.delivered⟩
  | .receive type date batch logNow mtimeMs now =>
    (x.state.receive host type date batch logNow mtimeMs now).map fun state =>
      ⟨state, x.written, logicalOps host.text ((host.bridge.decode batch).getD []) ++ x.delivered⟩

/-- A replica with an empty log. -/
def opening (writer : WriterId) : Session := ⟨start writer .empty, [], []⟩

/-- Runs of one replica from an empty log, in which every write is `good`. -/
inductive Uptime (host : Host) (writer : WriterId) (good : Write → Prop) : Session → Prop
  | opening : Uptime host writer good (opening writer)
  | act {x x' : Session} {a : Action} : Uptime host writer good x → act host x a = some x' →
      (∀ w hlc mtimeMs, a = .write w hlc mtimeMs → good w) → Uptime host writer good x'

/-- The log is whole batches that decode to the ops that memory was given. -/
structure Logged (host : Host) (x : Session) : Prop where
  stored : WellStored host.bridge x.state.oplog
  holds : x.state.mem.Holds {op | op ∈ x.delivered}
  ops : ∀ op, op ∈ x.delivered ↔
    ∃ type day, ∃ wire ∈ storedOps host.bridge x.state.oplog type day, toLogical host.text wire = some op

theorem survives_of_kept {host : Host} {s : CrdtState} {hlc : Hlc} {w : Write} (h : w.Kept) {op : CrdtOp JsString}
    (hop : w.op host s hlc = some op) : op.Survives := by
  cases w with
  | recordLww entityId value =>
    cases hop
    exact h
  | observe src dst tsBucket observed weight =>
    cases hop
    trivial
  | claim claimId agent payload =>
    cases hop
    exact finite_toJson h.1 h.2
  | release claimId =>
    obtain ⟨rm, hrm, rfl⟩ := Option.map_eq_some_iff.1 hop
    cases hmake : makeRemoveOpFor s.mem.orset claimId hlc s.writer with
    | error e => simp [hmake, Except.toOption] at hrm
    | ok op =>
      simp only [hmake, Except.toOption, Option.some.injEq] at hrm
      subst hrm
      exact survives_makeRemoveOpFor hmake

/-- A batch that is stored adds its ops to those stored. -/
theorem stored_append {bridge : WireBridge} {text : NumberText} {log : OpLog} (hlog : WellStored bridge log)
    {type : CrdtType} {day : JsString} {batch : Bytes} {ops : List WireOp} (hlen : batch.length < 2 ^ 32)
    (hdec : bridge.decode batch = some ops) (m : Rat) (op : CrdtOp JsString) :
    (∃ type' day', ∃ wire ∈ storedOps bridge (log.appendToFile type day (frameBytes batch) m) type' day',
      toLogical text wire = some op) ↔
      op ∈ logicalOps text ops ∨ ∃ type' day', ∃ wire ∈ storedOps bridge log type' day', toLogical text wire = some op := by
  simp only [storedOps_append hlog hlen hdec, List.mem_append, logicalOps, List.mem_filterMap]
  constructor
  · rintro ⟨type', day', wire, hwire | hwire, hop⟩
    · exact .inr ⟨type', day', wire, hwire, hop⟩
    · split at hwire
      · exact .inl ⟨wire, hwire, hop⟩
      · cases hwire
  · rintro (⟨wire, hwire, hop⟩ | ⟨type', day', wire, hwire, hop⟩)
    · refine ⟨type, day, wire, .inr ?_, hop⟩
      rw [if_pos ⟨rfl, rfl⟩]
      exact hwire
    · exact ⟨type', day', wire, .inl hwire, hop⟩

/-- A batch that is stored and folded in keeps the log and memory together. -/
theorem logged_append {host : Host} {x : Session} (h : Logged host x) {state : CrdtState} {written : List WireOp}
    {type : CrdtType} {day : JsString} {batch : Bytes} {ops : List WireOp} {m : Rat}
    (hlog : state.oplog = x.state.oplog.appendToFile type day (frameBytes batch) m) (hlen : batch.length < 2 ^ 32)
    (hdec : host.bridge.decode batch = some ops)
    (hmem : state.mem = (logicalOps host.text ops).foldl MemState.deliver x.state.mem)
    (hc : MemState.Consistent {op | op ∈ logicalOps host.text ops ++ x.delivered}) :
    Logged host ⟨state, written, logicalOps host.text ops ++ x.delivered⟩ where
  stored := by
    show WellStored host.bridge state.oplog
    rw [hlog]
    exact wellStored_append h.stored hlen hdec m
  holds := by
    have hset : {op | op ∈ x.delivered} ∪ {op | op ∈ logicalOps host.text ops} =
        {op | op ∈ logicalOps host.text ops ++ x.delivered} := by
      ext op
      simp only [Set.mem_union, Set.mem_ofPred_eq, List.mem_append]
      tauto
    show state.mem.Holds {op | op ∈ logicalOps host.text ops ++ x.delivered}
    rw [hmem, ← hset]
    exact MemState.holds_deliverAll (hset ▸ hc) h.holds
  ops op := by
    show op ∈ logicalOps host.text ops ++ x.delivered ↔ ∃ type day, ∃ wire ∈ storedOps host.bridge state.oplog type day,
      toLogical host.text wire = some op
    rw [hlog, stored_append h.stored hlen hdec, List.mem_append, h.ops]

theorem logged_write {host : Host} (htext : host.text.Lossless) {x : Session} (h : Logged host x) {w : Write} {hlc : Hlc}
    {m : Rat} (hw : w.Kept) {x' : Session} (hx : act host x (.write w hlc m) = some x')
    (hbridge : ∀ wire ∈ x'.written, Carries host.bridge wire)
    (hc : MemState.Consistent {op | op ∈ x'.delivered}) : Logged host x' := by
  cases hx
  have hrefused : x.state.write host hlc m w = (.refused, x.state) →
      Logged host ⟨(x.state.write host hlc m w).2,
        (writtenOps host x.state hlc m w).filterMap (toWire host.text) ++ x.written,
        writtenOps host x.state hlc m w ++ x.delivered⟩ := by
    intro hr
    rw [writtenOps, hr, if_pos rfl]
    exact ⟨h.stored, h.holds, h.ops⟩
  rcases write_cases host x.state hlc m w with hr | ⟨op, hop, hr | ⟨hne, wire, hwrote⟩⟩
  · exact hrefused hr
  · exact hrefused hr
  · have hops : writtenOps host x.state hlc m w = [op] := by
      rw [writtenOps, if_neg hne, hop]
      rfl
    -- the batch decodes to the wire op, and that converts back to the op
    have hback := toLogical_toWire htext (survives_of_kept hw hop) hwrote.converts
    have hlogical : logicalOps host.text [wire] = [op] := by simp [logicalOps, hback]
    obtain ⟨type, day, batch, m', henc, hlen, hlog⟩ := hwrote.log
    have hcarries : Carries host.bridge wire := by
      refine hbridge wire (List.mem_append_left _ ?_)
      rw [hops]
      simp [hwrote.converts]
    rw [hops, ← hlogical] at hc ⊢
    refine logged_append h hlog hlen (hcarries batch henc) ?_ hc
    rw [hwrote.mem, hlogical]
    rfl

theorem logged_receive {host : Host} {x : Session} (h : Logged host x) {type : CrdtType} {date : JsString}
    {batch : Bytes} {logNow : Int} {m : Rat} {now : Nat → Int} {x' : Session}
    (hx : act host x (.receive type date batch logNow m now) = some x')
    (hc : MemState.Consistent {op | op ∈ x'.delivered}) : Logged host x' := by
  obtain ⟨state, hr, rfl⟩ := Option.map_eq_some_iff.1 hx
  unfold receive at hr
  split at hr
  case h_1 => cases hr
  case h_2 decoded hdec =>
    split at hr
    case h_1 => cases hr
    case h_2 oplog happend =>
      cases hr
      obtain ⟨hlen, -, -, rfl⟩ := OpLog.appendRawBatchToDate_ok happend
      have hlen' : batch.length < 2 ^ 32 := by
        simp only [maxPushBatchBytes] at hlen
        omega
      rw [hdec, Option.getD_some] at hc ⊢
      exact logged_append h (applyOps_oplog host.text _ now decoded) hlen' hdec (applyOps_mem host.text _ now decoded) hc

/-- A session only adds to what it has written and delivered. -/
theorem act_grows {host : Host} {x x' : Session} {a : Action} (h : act host x a = some x') :
    x.written ⊆ x'.written ∧ x.delivered ⊆ x'.delivered := by
  cases a with
  | tick now =>
    cases h
    exact ⟨fun _ h => h, fun _ h => h⟩
  | write w hlc m =>
    cases h
    exact ⟨List.subset_append_right _ _, List.subset_append_right _ _⟩
  | receive type date batch logNow m now =>
    obtain ⟨state, -, rfl⟩ := Option.map_eq_some_iff.1 h
    exact ⟨fun _ h => h, List.subset_append_right _ _⟩

theorem logged_uptime {host : Host} (htext : host.text.Lossless) {writer : WriterId} {x : Session}
    (h : Uptime host writer Write.Kept x) (hbridge : ∀ wire ∈ x.written, Carries host.bridge wire)
    (hc : MemState.Consistent {op | op ∈ x.delivered}) : Logged host x := by
  induction h with
  | opening =>
    refine ⟨fun _ _ => ⟨rfl, nofun⟩, ?_, fun op => ⟨nofun, ?_⟩⟩
    · have hnone : {op : CrdtOp JsString | op ∈ ([] : List (CrdtOp JsString))} = ∅ := by simp
      show MemState.empty.Holds {op : CrdtOp JsString | op ∈ ([] : List (CrdtOp JsString))}
      rw [hnone]
      exact (MemState.replica JsString).holds_init
    · rintro ⟨_, _, _, hwire, -⟩
      cases hwire
  | @act x x' a _ hx hkept ih =>
    obtain ⟨hwritten, hdelivered⟩ := act_grows hx
    have hlogged := ih (fun wire hwire => hbridge wire (hwritten hwire)) (hc.mono fun op hop => hdelivered hop)
    cases a with
    | tick now =>
      cases hx
      exact ⟨hlogged.stored, hlogged.holds, hlogged.ops⟩
    | write w hlc m => exact logged_write htext hlogged (hkept w hlc m rfl) hx hbridge hc
    | receive type date batch logNow m now => exact logged_receive hlogged hx hc

/-! ## The restart -/

/-- What a reader sees of memory before and after. -/
def SameView (s t : MemState JsString) : Prop :=
  (∀ e, s.lww.get e = t.lww.get e) ∧ materializeGset s.gset = materializeGset t.gset ∧
    ∀ nowMs, s.orset.active nowMs = t.orset.active nowMs

theorem hydrateType_mem (text : NumberText) (call : DecodeCall) (m : JsString → Rat) (now : Nat → Int) (s : CrdtState)
    (type : CrdtType) : (s.hydrateType text call m now type).state.mem =
      (logicalOps text (Crdt.hydrate call m (s.oplog.dir type)).ops).foldl MemState.deliver s.mem := by
  rw [hydrateType, applyOps_mem]

section Restart
variable {host : Host} {s : CrdtState} (m : JsString → Rat) (now : CrdtType → Nat → Int)

/-- What a restart replays, in order. -/
def replayedOps (bridge : WireBridge) (m : JsString → Rat) (log : OpLog) : List WireOp :=
  [CrdtType.gset, .orset, .lww].flatMap fun type => (Crdt.hydrate (steady bridge.decode) m (log.dir type)).ops

/-- Hydration from a log of whole batches runs to its end and folds in all that is stored. -/
theorem hydrate_steady_mem (hlog : WellStored host.bridge s.oplog) :
    let r := s.hydrate host.text (fun _ => steady host.bridge.decode) m now
    r.thrown = none ∧
      r.state.mem = (logicalOps host.text (replayedOps host.bridge m s.oplog)).foldl MemState.deliver s.mem := by
  intro r
  set gset := s.hydrateType host.text (steady host.bridge.decode) m (now .gset) .gset with hgset
  set orset := gset.state.hydrateType host.text (steady host.bridge.decode) m (now .orset) .orset with horset
  have hdir : gset.state.oplog.dir .orset = s.oplog.dir .orset := hydrateType_dir _ _ _ _ _ (by decide)
  have hdir' : orset.state.oplog.dir .lww = s.oplog.dir .lww :=
    (hydrateType_dir _ _ _ _ _ (by decide)).trans (hydrateType_dir _ _ _ _ _ (by decide))
  have hg : gset.thrown = none := (hydrate_wellStored hlog .gset m).1
  have ho : orset.thrown = none := by
    show (Crdt.hydrate (steady host.bridge.decode) m (gset.state.oplog.dir .orset)).thrown = none
    rw [hdir]
    exact (hydrate_wellStored hlog .orset m).1
  have hr : r = orset.state.hydrateType host.text (steady host.bridge.decode) m (now .lww) .lww := by
    simp only [r, hydrate, ← hgset, hg, ← horset, ho]
  rw [hr]
  constructor
  · show (Crdt.hydrate (steady host.bridge.decode) m (orset.state.oplog.dir .lww)).thrown = none
    rw [hdir']
    exact (hydrate_wellStored hlog .lww m).1
  · rw [hydrateType_mem, hdir', horset, hydrateType_mem, hdir, hgset, hydrateType_mem, ← List.foldl_append,
      ← List.foldl_append]
    simp [replayedOps, logicalOps]

end Restart

/-- A new process hydrates from the log of a session, the serializer answering every call. -/
def reopen (host : Host) (x : Session) (m : JsString → Rat) (now : CrdtType → Nat → Int) : Restart :=
  (start x.state.writer x.state.oplog).hydrate host.text (fun _ => steady host.bridge.decode) m now

/-- In every run of writes that are kept, the state at its end and the state a restart hydrates from
the log show the same registers, observations and active claims. -/
theorem restart_equivalent {host : Host} (htext : host.text.Lossless) {writer : WriterId} {x : Session}
    (h : Uptime host writer Write.Kept x) (hbridge : ∀ wire ∈ x.written, Carries host.bridge wire)
    (hc : MemState.Consistent {op | op ∈ x.delivered}) (m : JsString → Rat) (now : CrdtType → Nat → Int) :
    (reopen host x m now).thrown = none ∧ SameView x.state.mem (reopen host x m now).state.mem := by
  have hlogged := logged_uptime htext h hbridge hc
  obtain ⟨hthrown, hmem⟩ := hydrate_steady_mem (s := start x.state.writer x.state.oplog) m now hlogged.stored
  refine ⟨hthrown, MemState.view_eq_iff.1 (MemState.view_eq_of_holds hc hlogged.holds ?_)⟩
  -- what is replayed is what memory was given
  have hset : ∅ ∪ {op | op ∈ logicalOps host.text (replayedOps host.bridge m x.state.oplog)} =
      {op | op ∈ x.delivered} := by
    ext op
    simp only [Set.empty_union, Set.mem_ofPred_eq, hlogged.ops, logicalOps, List.mem_filterMap, replayedOps,
      List.mem_flatMap, (hydrate_wellStored hlogged.stored _ m).2]
    constructor
    · rintro ⟨wire, ⟨type, -, day, hwire⟩, hop⟩
      exact ⟨type, day, wire, hwire, hop⟩
    · rintro ⟨type, day, wire, hwire, hop⟩
      exact ⟨wire, ⟨type, by cases type <;> decide, day, hwire⟩, hop⟩
  rw [reopen, hmem, ← hset]
  exact MemState.holds_deliverAll (hset ▸ hc) (MemState.replica JsString).holds_init

/-! ## Text and times that a restart changes -/

/-- A run of several actions. -/
def acts (host : Host) (x : Session) (as : List Action) : Option Session := as.foldlM (act host) x

theorem uptime_acts {host : Host} {writer : WriterId} {good : Write → Prop} {x x' : Session} {as : List Action}
    (h : Uptime host writer good x) (hx : acts host x as = some x')
    (hgood : ∀ w hlc mtimeMs, .write w hlc mtimeMs ∈ as → good w) : Uptime host writer good x' := by
  induction as generalizing x with
  | nil =>
    cases hx
    exact h
  | cons a rest ih =>
    obtain ⟨y, hy, hx⟩ := Option.bind_eq_some_iff.1 hx
    refine ih (h.act hy fun w hlc mtimeMs ha => ?_) hx fun w hlc mtimeMs hw => ?_
    · exact hgood w hlc mtimeMs (ha ▸ List.mem_cons_self)
    · exact hgood w hlc mtimeMs (List.mem_cons_of_mem a hw)

instance (bridge : WireBridge) (wire : WireOp) : Decidable (Carries bridge wire) :=
  decidable_of_iff (∀ batch ∈ bridge.encode [wire], bridge.decode batch = some [wire]) Iff.rfl

/-- Numbers printed in full and a serializer without compression. -/
def exactHost : Host :=
  let text : NumberText := ⟨decimalText, fun s => .fin (decValue s)⟩
  ⟨nativeBridge ⟨id, some⟩ text, text, fun _ => List.replicate 32 0⟩

/-- Where a list of actions leads. -/
def after (as : List Action) : Session := (acts exactHost (opening sampleWriter) as).getD (opening sampleWriter)

theorem uptime_after {good : Write → Prop} {as : List Action}
    (hsome : (acts exactHost (opening sampleWriter) as).isSome)
    (hgood : ∀ w hlc mtimeMs, .write w hlc mtimeMs ∈ as → good w) : Uptime exactHost sampleWriter good (after as) := by
  obtain ⟨x, hx⟩ := Option.isSome_iff_exists.1 hsome
  rw [after, hx]
  exact uptime_acts .opening hx hgood

/-- A register, a claim and an inbound observation. -/
def noted : List Action :=
  [.tick 1000000000, .write (.recordLww [0x6E] [0x41]) ⟨1000000000, 0⟩ 0,
    .write (.claim [0x63] [0x61] ⟨[0x69], [[0x73]], [0x66], .fin 1000000000, .fin 1000060000⟩) ⟨1000000001, 0⟩ 1,
    .receive .gset (ascii "1970-01-01") oneBatch 5 2 fun _ => 6]

theorem restart_noted : (reopen exactHost (after noted) (fun _ => 0) fun _ _ => 7).thrown = none ∧
    SameView (after noted).state.mem (reopen exactHost (after noted) (fun _ => 0) fun _ _ => 7).state.mem := by
  have hkept : ∀ w hlc mtimeMs, .write w hlc mtimeMs ∈ noted → w.Kept := by
    intro w hlc mtimeMs hw
    simp only [noted, List.mem_cons, reduceCtorEq, Action.write.injEq, List.not_mem_nil, or_false, false_or] at hw
    rcases hw with ⟨rfl, -, -⟩ | ⟨rfl, -, -⟩
    · exact (by decide : TextSafe [0x41])
    · have hcreated : IsDouble 1000000000 := by unfold IsDouble; decide +kernel
      have httl : IsDouble 1000060000 := by unfold IsDouble; decide +kernel
      exact ⟨⟨_, rfl, hcreated⟩, ⟨_, rfl, httl⟩⟩
  exact restart_equivalent (decimalText_lossless _) (uptime_after (by decide +kernel) hkept) (by decide +kernel)
    (MemState.consistent_of_agrees (by decide +kernel)) _ _

/-- A register whose text starts with a byte order mark. -/
def marked : List Action := [.write (.recordLww [0x6E] [0xFEFF, 0x41]) ⟨1000000000, 0⟩ 0]

/-- A claim that never expires. -/
def endless : List Action :=
  [.write (.claim [0x63] [0x61] ⟨[0x69], [[0x73]], [0x66], .fin 1000000000, .posInf⟩) ⟨1000000000, 0⟩ 0]

/-- A restart drops the mark, and takes the claim for one that has expired. -/
theorem restart_differs :
    (∃ x, Uptime exactHost sampleWriter (fun _ => True) x ∧ (∀ wire ∈ x.written, Carries exactHost.bridge wire) ∧
        MemState.Consistent {op | op ∈ x.delivered} ∧
        (reopen exactHost x (fun _ => 0) fun _ _ => 0).thrown = none ∧
        x.state.mem.lww.get [0x6E] ≠ (reopen exactHost x (fun _ => 0) fun _ _ => 0).state.mem.lww.get [0x6E]) ∧
      ∃ x, Uptime exactHost sampleWriter (fun _ => True) x ∧ (∀ wire ∈ x.written, Carries exactHost.bridge wire) ∧
        MemState.Consistent {op | op ∈ x.delivered} ∧
        (reopen exactHost x (fun _ => 0) fun _ _ => 0).thrown = none ∧
        x.state.mem.orset.active (some (.fin 1000000000)) ≠
          (reopen exactHost x (fun _ => 0) fun _ _ => 0).state.mem.orset.active (some (.fin 1000000000)) := by
  constructor
  · exact ⟨after marked, uptime_after (by decide +kernel) fun _ _ _ _ => trivial, by decide +kernel,
      MemState.consistent_of_agrees (by decide +kernel), by decide +kernel, by decide +kernel⟩
  · exact ⟨after endless, uptime_after (by decide +kernel) fun _ _ _ _ => trivial, by decide +kernel,
      MemState.consistent_of_agrees (by decide +kernel), by decide +kernel, by decide +kernel⟩

end CrdtState

end Hayven.Crdt
