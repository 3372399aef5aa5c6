import Hayven.Crdt.Clock
import Hayven.Crdt.Convergence
import Hayven.Crdt.Hydrate
/-!
# CRDT state of a daemon

`CrdtState` of `crdt/state.ts`: the in-memory state, the clock and the op log. A
local write goes to the segment first and to memory second, and may throw in
between; an inbound op is folded in without touching the log. Every reading of the
physical clock and every modification time is supplied by the host.
-/
open Hayven.Lib

namespace Hayven.Crdt

/-- What the process runs on: the serializer, number formatting and `blake3`. -/
structure Host where
  bridge : WireBridge
  text : NumberText
  blake3 : Bytes → Bytes

structure CrdtState where
  writer : WriterId
  clock : HlcGenerator
  oplog : OpLog
  mem : MemState JsString

namespace CrdtState

/-- A daemon before it hydrates. -/
def start (writer : WriterId) (oplog : OpLog) : CrdtState := ⟨writer, {}, oplog, .empty⟩

def tick (s : CrdtState) (now : Int) : Hlc × CrdtState :=
  let (hlc, clock) := s.clock.tick now
  (hlc, { s with clock })

def observeClock (s : CrdtState) (now : Int) (hlc : Hlc) : CrdtState := { s with clock := (s.clock.observe now hlc).2 }

/-! ## Inbound ops -/

/-- `applyWireOpInMemory`: `false` if the op is skipped. -/
def applyWireOpInMemory (text : NumberText) (s : CrdtState) (now : Int) (wireOp : WireOp) : Bool × CrdtState :=
  match wireOp with
  | .gsetObserve .. =>
    match wireOpToGset wireOp with
    | none => (false, s)
    | some op =>
      match s.mem.gset.apply op with
      | .error _ => (false, s)
      | .ok gset => (true, { s with mem := { s.mem with gset } }.observeClock now op.hlc)
  | .orAdd .. | .orRemove .. =>
    match wireOpToOr text wireOp with
    | none => (false, s)
    | some op =>
      match s.mem.orset.apply op with
      | .error _ => (false, s)
      | .ok orset => (true, { s with mem := { s.mem with orset } }.observeClock now wireOp.hlc)
  | .lww .. =>
    match wireOpToLww wireOp with
    | none => (false, s)
    | some op =>
      match s.mem.lww.apply op with
      | .error _ => (false, s)
      | .ok lww => (true, { s with mem := { s.mem with lww } }.observeClock now op.hlc)

/-- One op after another, each with its own reading of the clock. -/
def applyOps (text : NumberText) (s : CrdtState) (now : Nat → Int) : List WireOp → CrdtState
  | [] => s
  | op :: rest => applyOps text (s.applyWireOpInMemory text (now 0) op).2 (fun i => now (i + 1)) rest

/-! ## Local writes -/

inductive Outcome where
  /-- Threw before anything was stored. -/
  | refused
  /-- Stored, then threw. -/
  | threw
  | done
deriving DecidableEq

/-- Append one op; `none` if it throws. -/
def append (host : Host) (s : CrdtState) (type : CrdtType) (wire : WireOp) (mtimeMs : Rat) : Option CrdtState :=
  match s.oplog.appendOps host.bridge type [wire] mtimeMs with
  | .error _ => none
  | .ok oplog => some { s with oplog }

def observe (host : Host) (s : CrdtState) (op : GsetOp) (mtimeMs : Rat) : Outcome × CrdtState :=
  match s.append host .gset (gsetToWire op) mtimeMs with
  | none => (.refused, s)
  | some s =>
    match s.mem.gset.apply op with
    | .error _ => (.threw, s)
    | .ok gset => (.done, { s with mem := { s.mem with gset } })

def applyOr (host : Host) (s : CrdtState) (op : OrOp) (mtimeMs : Rat) : Outcome × CrdtState :=
  match orToWire host.text op with
  | none => (.refused, s)
  | some wire =>
    match s.append host .orset wire mtimeMs with
    | none => (.refused, s)
    | some s =>
      match s.mem.orset.apply op with
      | .error _ => (.threw, s)
      | .ok orset => (.done, { s with mem := { s.mem with orset } })

/-- `recordLww` with the clock value it is given or has taken from `tick`. -/
def recordLww (host : Host) (s : CrdtState) (entityId value : JsString) (hlc : Hlc) (mtimeMs : Rat) :
    Outcome × CrdtState :=
  let op := makeLwwOp host.blake3 textEncode entityId value hlc s.writer
  match s.append host .lww (lwwToWire op) mtimeMs with
  | none => (.refused, s)
  | some s =>
    match s.mem.lww.apply op with
    | .error _ => (.threw, s)
    | .ok lww => (.done, { s with mem := { s.mem with lww } })

/-- The writes of the routes: a body, an observation, a claim and its release. -/
inductive Write where
  | recordLww (entityId value : JsString)
  | observe (src dst : JsString) (tsBucket observed weight : Nat)
  | claim (claimId agent : JsString) (payload : ClaimPayload)
  | release (claimId : JsString)

/-- A route makes its op from a clock value and the daemon's writer ID. -/
def write (host : Host) (s : CrdtState) (hlc : Hlc) (mtimeMs : Rat) : Write → Outcome × CrdtState
  | .recordLww entityId value => s.recordLww host entityId value hlc mtimeMs
  | .observe src dst tsBucket observed weight =>
    s.observe host ⟨src, dst, tsBucket, observed, weight, hlc, s.writer⟩ mtimeMs
  | .claim claimId agent payload => s.applyOr host (.add ⟨claimId, agent, payload, hlc, s.writer⟩) mtimeMs
  | .release claimId =>
    match makeRemoveOpFor s.mem.orset claimId hlc s.writer with
    | .error _ => (.refused, s)
    | .ok op => s.applyOr host (.remove op) mtimeMs

/-- An inbound batch: decoded, stored, folded in. -/
def receive (host : Host) (s : CrdtState) (type : CrdtType) (date : JsString) (batch : Bytes) (logNow : Int)
    (mtimeMs : Rat) (now : Nat → Int) : Option CrdtState :=
  match host.bridge.decode batch with
  | none => none
  | some decoded =>
    match s.oplog.appendRawBatchToDate type date batch logNow mtimeMs with
    | .error _ => none
    | .ok oplog => some ({ s with oplog }.applyOps host.text now decoded)

/-! ## Hydration -/

/-- What hydration leaves: the state, and whether it ran to its end. A hydration that
throws has truncated what it came across, and the daemon does not start. -/
structure Restart where
  state : CrdtState
  thrown : Option Nat

/-- Replay one type. -/
def hydrateType (text : NumberText) (call : DecodeCall) (mtimeMs : JsString → Rat) (now : Nat → Int) (s : CrdtState)
    (type : CrdtType) : Restart :=
  let h := Crdt.hydrate call mtimeMs (s.oplog.dir type)
  let oplog : OpLog := ⟨Function.update s.oplog.dir type h.dir⟩
  ⟨{ s with oplog }.applyOps text now h.ops, h.thrown⟩

/-- `hydrate`: the G-Set, then the OR-Set, then the registers. -/
def hydrate (text : NumberText) (call : CrdtType → DecodeCall) (mtimeMs : JsString → Rat)
    (now : CrdtType → Nat → Int) (s : CrdtState) : Restart :=
  let gset := s.hydrateType text (call .gset) mtimeMs (now .gset) .gset
  match gset.thrown with
  | some _ => gset
  | none =>
    let orset := gset.state.hydrateType text (call .orset) mtimeMs (now .orset) .orset
    match orset.thrown with
    | some _ => orset
    | none => orset.state.hydrateType text (call .lww) mtimeMs (now .lww) .lww

/-- Hydration that runs to its end replays the three types. -/
theorem hydrate_eq {text : NumberText} {call : CrdtType → DecodeCall} {m : JsString → Rat} {now : CrdtType → Nat → Int}
    {s : CrdtState} (h : (s.hydrate text call m now).thrown = none) : s.hydrate text call m now =
      ((s.hydrateType text (call .gset) m (now .gset) .gset).state.hydrateType text (call .orset) m (now .orset)
        .orset).state.hydrateType text (call .lww) m (now .lww) .lww := by
  unfold hydrate at h ⊢
  cases hg : (s.hydrateType text (call .gset) m (now .gset) .gset).thrown with
  | some v => simp only [hg] at h; cases h
  | none =>
    simp only [hg] at h ⊢
    cases ho : ((s.hydrateType text (call .gset) m (now .gset) .gset).state.hydrateType text (call .orset) m
      (now .orset) .orset).thrown with
    | some v => simp only [ho] at h; cases h
    | none => rfl

/-! ## What memory takes in -/

end CrdtState

/-- The logical op of a wire op; `none` if it is malformed. -/
def toLogical (text : NumberText) (wireOp : WireOp) : Option (CrdtOp JsString) :=
  match wireOp with
  | .gsetObserve .. => (wireOpToGset wireOp).map .gset
  | .orAdd .. | .orRemove .. => (wireOpToOr text wireOp).map .orset
  | .lww .. => (wireOpToLww wireOp).map .lww

/-- Memory refuses an op whose key it needs and cannot encode. -/
def CrdtOp.Admissible : CrdtOp JsString → Prop
  | .lww _ => True
  | .gset op => op.hlc.Encodable
  | .orset (.add op) => op.hlc.Encodable
  | .orset (.remove _) => True

instance (op : CrdtOp JsString) : Decidable op.Admissible := by
  unfold CrdtOp.Admissible
  split <;> infer_instance

/-- The op is well-formed and memory takes it in. -/
def Applies (text : NumberText) (wireOp : WireOp) : Prop := ∃ op, toLogical text wireOp = some op ∧ op.Admissible

namespace CrdtState

/-- An inbound op is skipped, or delivered and its clock observed. -/
theorem applyWireOpInMemory_cases (text : NumberText) (s : CrdtState) (now : Int) (wireOp : WireOp) :
    (¬ Applies text wireOp ∧ s.applyWireOpInMemory text now wireOp = (false, s)) ∨
      (Applies text wireOp ∧ ∃ op, toLogical text wireOp = some op ∧ s.applyWireOpInMemory text now wireOp =
        (true, { s with mem := s.mem.deliver op }.observeClock now wireOp.hlc)) := by
  have hnone (h : toLogical text wireOp = none) : ¬ Applies text wireOp := by simp [Applies, h]
  have hsome {op : CrdtOp JsString} (h : toLogical text wireOp = some op) : Applies text wireOp ↔ op.Admissible := by
    simp [Applies, h]
  cases wireOp with
  | gsetObserve src dst tsBucket observed weight hlc writer =>
    set op : GsetOp := ⟨src, dst, tsBucket, observed, weight, hlc, writer⟩ with hop
    have hl : toLogical text (.gsetObserve src dst tsBucket observed weight hlc writer) = some (.gset op) := rfl
    rw [hsome hl]
    simp only [applyWireOpInMemory, wireOpToGset, ← hop]
    rcases GsetState.apply_cases s.mem.gset op with ⟨hn, e, he⟩ | ⟨k, hk, he⟩
    · exact .inl ⟨hn, by simp only [he]⟩
    · refine .inr ⟨(opKey_ok hk).1, _, hl, ?_⟩
      simp only [he, MemState.deliver]
      rfl
  | lww entityId contentHash body hlc writer =>
    refine .inr ⟨(hsome rfl).2 trivial, _, rfl, ?_⟩
    simp only [applyWireOpInMemory, wireOpToLww, MemState.deliver, LwwRegistry.apply_eq]
    rfl
  | orRemove claimId observedTags hlc writer =>
    exact .inr ⟨(hsome rfl).2 trivial, _, rfl, rfl⟩
  | orAdd claimId agent payloadCbor hlc writer =>
    cases hp : decodePayload text payloadCbor with
    | none =>
      have hl : toLogical text (.orAdd claimId agent payloadCbor hlc writer) = none := by
        simp [toLogical, wireOpToOr, hp]
      exact .inl ⟨hnone hl, by simp [applyWireOpInMemory, wireOpToOr, hp]⟩
    | some payload =>
      set op : OrAddOp := ⟨claimId, agent, payload, hlc, writer⟩ with hop
      have hl : toLogical text (.orAdd claimId agent payloadCbor hlc writer) = some (.orset (.add op)) := by
        simp [toLogical, wireOpToOr, hp, hop]
      rw [hsome hl]
      simp only [applyWireOpInMemory, wireOpToOr, hp, Option.map_some, ← hop]
      rcases OrSetState.applyAdd_cases s.mem.orset op with ⟨hn, e, he⟩ | ⟨r, hr, he⟩
      · exact .inl ⟨hn, by simp only [OrSetState.apply, he]⟩
      · refine .inr ⟨?_, _, hl, ?_⟩
        · exact hr ▸ (addOpTag_ok r.tagged).1
        · simp only [OrSetState.apply, he, MemState.deliver]

/-- Inbound ops change memory and the clock only. -/
theorem applyWireOpInMemory_oplog (text : NumberText) (s : CrdtState) (now : Int) (wireOp : WireOp) :
    (s.applyWireOpInMemory text now wireOp).2.oplog = s.oplog := by
  rcases s.applyWireOpInMemory_cases text now wireOp with ⟨-, h⟩ | ⟨-, op, -, h⟩
  · rw [h]
  · rw [h]
    rfl

theorem applyOps_oplog (text : NumberText) (s : CrdtState) (now : Nat → Int) (ops : List WireOp) :
    (s.applyOps text now ops).oplog = s.oplog := by
  induction ops generalizing s now with
  | nil => rfl
  | cons op rest ih => rw [applyOps, ih, applyWireOpInMemory_oplog]

/-- The skew bound is the one the generator was made with. -/
theorem applyOps_maxSkewMs (text : NumberText) (s : CrdtState) (now : Nat → Int) (ops : List WireOp) :
    (s.applyOps text now ops).clock.maxSkewMs = s.clock.maxSkewMs := by
  induction ops generalizing s now with
  | nil => rfl
  | cons op rest ih =>
    rw [applyOps, ih]
    rcases s.applyWireOpInMemory_cases text (now 0) op with ⟨-, h⟩ | ⟨-, op', -, h⟩ <;> rw [h]
    exact HlcGenerator.observe_maxSkewMs _ _ _

/-- Folding ops in never turns the clock back. -/
theorem le_applyOps (text : NumberText) (s : CrdtState) (now : Nat → Int) (ops : List WireOp) :
    s.clock.last.le (s.applyOps text now ops).clock.last := by
  induction ops generalizing s now with
  | nil => exact Hlc.le_refl _
  | cons op rest ih =>
    refine Hlc.le_trans ?_ (ih _ _)
    rcases s.applyWireOpInMemory_cases text (now 0) op with ⟨-, h⟩ | ⟨-, op', -, h⟩ <;> rw [h]
    · exact Hlc.le_refl _
    · exact HlcGenerator.observe_le _ _ _

/-- An op that memory takes in, and that is not too far ahead of the clock reading, is covered. -/
theorem le_applyOps_of_mem (text : NumberText) (s : CrdtState) (now : Nat → Int) {ops : List WireOp} {i : Nat}
    {op : WireOp} (hop : ops[i]? = some op) (happ : Applies text op)
    (hskew : (op.hlc.wallMs : Int) ≤ now i + s.clock.maxSkewMs) :
    op.hlc.le (s.applyOps text now ops).clock.last := by
  induction ops generalizing s now i with
  | nil => simp at hop
  | cons op' rest ih =>
    rw [applyOps]
    cases i with
    | zero =>
      cases Option.some.inj hop
      refine Hlc.le_trans ?_ (le_applyOps text _ _ _)
      rcases s.applyWireOpInMemory_cases text (now 0) op with ⟨hn, -⟩ | ⟨-, op', -, h⟩
      · exact absurd happ hn
      · rw [h]
        exact HlcGenerator.le_observe hskew
    | succ i =>
      refine ih _ _ hop ?_
      have hmax : (s.applyWireOpInMemory text (now 0) op').2.clock.maxSkewMs = s.clock.maxSkewMs :=
        applyOps_maxSkewMs text s now [op']
      rw [hmax]
      exact hskew

end CrdtState

end Hayven.Crdt
