import Hayven.Crdt.State
/-!
# Clock values across restarts

A replica mints the clock values of its own ops with `tick`, and after a restart its
clock knows only what hydration let it observe. As long as every restart brings the
clock to or above every value minted before, no value is minted twice; the skew bound
can keep it from that, when the physical clock has gone back.
-/
open Hayven.Lib

namespace Hayven.Crdt

namespace CrdtState

/-- Writing leaves the clock as the tick left it. -/
theorem write_clock (host : Host) (s : CrdtState) (hlc : Hlc) (m : Rat) (w : Write) :
    (s.write host hlc m w).2.clock = s.clock := by
  have hobserve (op : GsetOp) : (s.observe host op m).2.clock = s.clock := by
    unfold observe append
    cases s.oplog.appendOps host.bridge .gset [gsetToWire op] m with
    | error e => rfl
    | ok oplog => dsimp only; split <;> rfl
  have happly (op : OrOp) : (s.applyOr host op m).2.clock = s.clock := by
    unfold applyOr append
    cases orToWire host.text op with
    | none => rfl
    | some wire =>
      dsimp only
      cases s.oplog.appendOps host.bridge .orset [wire] m with
      | error e => rfl
      | ok oplog => dsimp only; split <;> rfl
  cases w with
  | recordLww entityId value =>
    unfold write recordLww append
    dsimp only
    cases s.oplog.appendOps host.bridge .lww
      [lwwToWire (makeLwwOp host.blake3 textEncode entityId value hlc s.writer)] m with
    | error e => rfl
    | ok oplog => dsimp only; split <;> rfl
  | observe src dst tsBucket observed weight => exact hobserve _
  | claim claimId agent payload => exact happly _
  | release claimId =>
    unfold write
    dsimp only
    split
    · rfl
    · exact happly _

/-! ## Runs -/

/-- A replica and the clock values of the ops it has appended itself, newest first. -/
structure Minted where
  state : CrdtState
  minted : List Hlc

/-- What the host supplies to a restart. -/
structure RestartInput where
  fails : CrdtType → JsString → Nat → Bool
  mtimeMs : JsString → Rat
  now : CrdtType → Nat → Int

def RestartInput.calls (host : Host) (r : RestartInput) (type : CrdtType) : DecodeCall :=
  faulty host.bridge.decode (r.fails type)

/-- A new process hydrates from the log. -/
def restart (host : Host) (s : CrdtState) (r : RestartInput) : Restart :=
  (start s.writer s.oplog).hydrate host.text (r.calls host) r.mtimeMs r.now

/-- The ops of one type that a restart replays. -/
def replayed (host : Host) (s : CrdtState) (r : RestartInput) (type : CrdtType) : List WireOp :=
  (Crdt.hydrate (r.calls host type) r.mtimeMs (s.oplog.dir type)).ops

inductive Event where
  | write (w : Write) (now : Int) (mtimeMs : Rat)
  | receive (type : CrdtType) (date : JsString) (batch : Bytes) (logNow : Int) (mtimeMs : Rat) (now : Nat → Int)
  | restart (r : RestartInput)

/-- A local write takes its clock value from `tick`; the value is minted if the op is stored. -/
def mint (host : Host) (m : Minted) (w : Write) (now : Int) (mtimeMs : Rat) : Minted :=
  let ticked := m.state.tick now
  let written := ticked.2.write host ticked.1 mtimeMs w
  ⟨written.2, if written.1 = .refused then m.minted else ticked.1 :: m.minted⟩

/-- `none` if the batch is refused or hydration throws: there is no next state. -/
def step (host : Host) (m : Minted) : Event → Option Minted
  | .write w now mtimeMs => some (mint host m w now mtimeMs)
  | .receive type date batch logNow mtimeMs now =>
    (m.state.receive host type date batch logNow mtimeMs now).map fun state => ⟨state, m.minted⟩
  | .restart r =>
    let h := m.state.restart host r
    if h.thrown = none then some ⟨h.state, m.minted⟩ else none

/-- For each value minted so far, hydration replays an op at or above it that memory takes
in and whose clock is no more than the skew bound ahead of the reading it meets. -/
def Recovers (host : Host) (m : Minted) (r : RestartInput) : Prop :=
  ∀ h ∈ m.minted, ∃ type i op, (replayed host m.state r type)[i]? = some op ∧ h.le op.hlc ∧
    Applies host.text op ∧ (op.hlc.wallMs : Int) ≤ r.now type i + maxObservedSkewMs

/-- Runs of one replica from an empty log, in which every restart meets `good`. -/
inductive Run (host : Host) (writer : WriterId) (good : Minted → RestartInput → Prop) : Minted → Prop
  | start : Run host writer good ⟨start writer .empty, []⟩
  | step {m m' : Minted} {e : Event} : Run host writer good m → step host m e = some m' →
      (∀ r, e = .restart r → good m r) → Run host writer good m'

theorem run_mint {host : Host} {writer : WriterId} {good : Minted → RestartInput → Prop} {m : Minted}
    (h : Run host writer good m) (w : Write) (now : Int) (mtimeMs : Rat) :
    Run host writer good (mint host m w now mtimeMs) :=
  .step (e := .write w now mtimeMs) h rfl nofun

theorem run_restart {host : Host} {writer : WriterId} {good : Minted → RestartInput → Prop} {m : Minted}
    {r : RestartInput} (h : Run host writer good m) (hend : (m.state.restart host r).thrown = none) (hgood : good m r) :
    Run host writer good ⟨(m.state.restart host r).state, m.minted⟩ :=
  .step (e := .restart r) h (if_pos hend) fun _ hr => Event.restart.inj hr ▸ hgood

/-! ## The clock stays above what was minted -/

/-- The values are distinct, newest above oldest, and the clock is above them all. -/
structure Ahead (m : Minted) : Prop where
  le_clock : ∀ h ∈ m.minted, h.le m.state.clock.last
  nodup : m.minted.Nodup

theorem ahead_mint {host : Host} {m : Minted} (h : Ahead m) (w : Write) (now : Int) (mtimeMs : Rat) :
    Ahead (mint host m w now mtimeMs) := by
  have hlt := HlcGenerator.tick_lt m.state.clock now
  have hclock : (mint host m w now mtimeMs).state.clock.last = (m.state.clock.tick now).1 := by
    simp only [mint, tick, write_clock]
    exact HlcGenerator.tick_last _ _
  have hbelow : ∀ x ∈ m.minted, compareHlc x (m.state.clock.tick now).1 = .lt := fun x hx =>
    Hlc.lt_of_le_of_lt (h.le_clock x hx) hlt
  have hminted : (mint host m w now mtimeMs).minted = m.minted ∨
      (mint host m w now mtimeMs).minted = (m.state.clock.tick now).1 :: m.minted := by
    by_cases hout : ((m.state.tick now).2.write host (m.state.tick now).1 mtimeMs w).1 = .refused
    · exact .inl (if_pos hout)
    · exact .inr (if_neg hout)
  constructor
  · intro x hx
    rw [hclock]
    rcases hminted with hm | hm <;> rw [hm] at hx
    · exact Hlc.le_of_lt (hbelow x hx)
    · rcases List.mem_cons.1 hx with rfl | hx
      · exact Hlc.le_refl _
      · exact Hlc.le_of_lt (hbelow x hx)
  · rcases hminted with hm | hm <;> rw [hm]
    · exact h.nodup
    · exact List.nodup_cons.2 ⟨fun hx => Hlc.ne_of_lt (hbelow _ hx) rfl, h.nodup⟩

theorem ahead_receive {host : Host} {m : Minted} {state : CrdtState} (h : Ahead m) {type : CrdtType} {date : JsString}
    {batch : Bytes} {logNow : Int} {mtimeMs : Rat} {now : Nat → Int}
    (hr : m.state.receive host type date batch logNow mtimeMs now = some state) : Ahead ⟨state, m.minted⟩ := by
  unfold receive at hr
  split at hr
  case h_1 => cases hr
  case h_2 decoded _ =>
    split at hr
    case h_1 => cases hr
    case h_2 oplog _ =>
      cases hr
      have hle := le_applyOps host.text { m.state with oplog } now decoded
      exact ⟨fun x hx => Hlc.le_trans (h.le_clock x hx) hle, h.nodup⟩

section HydrateType
variable (text : NumberText) (call : DecodeCall) (m : JsString → Rat) (now : Nat → Int) (s : CrdtState)

theorem hydrateType_dir {type type' : CrdtType} (h : type' ≠ type) :
    (s.hydrateType text call m now type).state.oplog.dir type' = s.oplog.dir type' := by
  rw [hydrateType, applyOps_oplog]
  exact Function.update_of_ne h _ _

theorem hydrateType_maxSkewMs (type : CrdtType) :
    (s.hydrateType text call m now type).state.clock.maxSkewMs = s.clock.maxSkewMs := by
  rw [hydrateType, applyOps_maxSkewMs]

theorem le_hydrateType (type : CrdtType) :
    s.clock.last.le (s.hydrateType text call m now type).state.clock.last := by
  have h := le_applyOps text { s with oplog := ⟨Function.update s.oplog.dir type
    (Crdt.hydrate call m (s.oplog.dir type)).dir⟩ } now (Crdt.hydrate call m (s.oplog.dir type)).ops
  exact h

theorem le_hydrateType_of_mem {type : CrdtType} {i : Nat} {op : WireOp}
    (hop : (Crdt.hydrate call m (s.oplog.dir type)).ops[i]? = some op) (happ : Applies text op)
    (hskew : (op.hlc.wallMs : Int) ≤ now i + s.clock.maxSkewMs) :
    op.hlc.le (s.hydrateType text call m now type).state.clock.last := by
  have h := le_applyOps_of_mem text { s with oplog := ⟨Function.update s.oplog.dir type
    (Crdt.hydrate call m (s.oplog.dir type)).dir⟩ } now hop happ hskew
  exact h

end HydrateType

/-- Hydration that runs to its end observes every replayed op. -/
theorem le_restart {host : Host} {s : CrdtState} {r : RestartInput} (hend : (s.restart host r).thrown = none)
    {type : CrdtType} {i : Nat} {op : WireOp} (hop : (replayed host s r type)[i]? = some op)
    (happ : Applies host.text op) (hskew : (op.hlc.wallMs : Int) ≤ r.now type i + maxObservedSkewMs) :
    op.hlc.le (s.restart host r).state.clock.last := by
  rw [restart, hydrate_eq hend]
  cases type with
  | gset =>
    refine Hlc.le_trans ?_ (Hlc.le_trans (le_hydrateType _ _ _ _ _ .orset) (le_hydrateType _ _ _ _ _ .lww))
    exact le_hydrateType_of_mem _ _ _ _ _ hop happ hskew
  | orset =>
    refine Hlc.le_trans ?_ (le_hydrateType _ _ _ _ _ .lww)
    refine le_hydrateType_of_mem (i := i) _ _ _ _ _ ?_ happ ?_
    · rw [hydrateType_dir _ _ _ _ _ (by decide)]
      exact hop
    · rw [hydrateType_maxSkewMs]
      exact hskew
  | lww =>
    refine le_hydrateType_of_mem (i := i) _ _ _ _ _ ?_ happ ?_
    · rw [hydrateType_dir _ _ _ _ _ (by decide), hydrateType_dir _ _ _ _ _ (by decide)]
      exact hop
    · rw [hydrateType_maxSkewMs, hydrateType_maxSkewMs]
      exact hskew

theorem ahead_step {host : Host} {m m' : Minted} {e : Event} (h : Ahead m) (hs : step host m e = some m')
    (hgood : ∀ r, e = .restart r → Recovers host m r) : Ahead m' := by
  cases e with
  | write w now mtimeMs =>
    cases hs
    exact ahead_mint h w now mtimeMs
  | receive type date batch logNow mtimeMs now =>
    obtain ⟨state, hr, rfl⟩ := Option.map_eq_some_iff.1 hs
    exact ahead_receive h hr
  | restart r =>
    simp only [step] at hs
    split at hs
    case isFalse => cases hs
    case isTrue hend =>
      cases hs
      refine ⟨fun x hx => ?_, h.nodup⟩
      obtain ⟨type, i, op, hop, hle, happ, hskew⟩ := hgood r rfl x hx
      exact Hlc.le_trans hle (le_restart hend hop happ hskew)

/-- No clock value is minted twice in a run whose restarts all recover the clock. -/
theorem minted_nodup {host : Host} {writer : WriterId} {m : Minted} (h : Run host writer (Recovers host) m) :
    m.minted.Nodup := by
  have hahead : Ahead m := by
    induction h with
    | start => exact ⟨nofun, List.nodup_nil⟩
    | step _ hs hgood ih => exact ahead_step ih hs hgood
  exact hahead.nodup

/-! ## A clock that went back -/

def plainHost : Host := ⟨plainBridge, integerText, fun _ => List.replicate 32 0⟩

def sampleWriter : WriterId := ⟨List.replicate writerBytes 7, rfl⟩

def oneObservation : Write := .observe [0x61] [0x62] 0 1 1

/-- The physical clock reads `now` throughout the restart. -/
def restartAt (now : Int) : RestartInput := ⟨fun _ _ _ => false, fun _ => 0, fun _ _ => now⟩

/-- One observation at 1000000000. -/
def firstObservation : Minted := mint plainHost ⟨start sampleWriter .empty, []⟩ oneObservation 1000000000 0

/-- Then a restart, and one more observation at 1000000000. -/
def secondObservation (restartNow : Int) : Minted :=
  mint plainHost ⟨(firstObservation.state.restart plainHost (restartAt restartNow)).state, firstObservation.minted⟩
    oneObservation 1000000000 1

theorem secondObservation_run {restartNow : Int} {good : Minted → RestartInput → Prop}
    (hend : (firstObservation.state.restart plainHost (restartAt restartNow)).thrown = none)
    (hgood : good firstObservation (restartAt restartNow)) :
    Run plainHost sampleWriter good (secondObservation restartNow) :=
  run_mint (run_restart (run_mint .start _ _ _) hend hgood) _ _ _

/-- Restarted at the time of the first write, the replica gives the second op a value of its own. -/
theorem minted_nodup_steady : (secondObservation 1000000000).minted.Nodup := by
  refine minted_nodup (secondObservation_run (by decide +kernel) fun h hh => ?_)
  have hminted : firstObservation.minted = [⟨1000000000, 0⟩] := by decide +kernel
  rw [hminted, List.mem_singleton] at hh
  refine ⟨.gset, 0, .gsetObserve [0x61] [0x62] 0 1 1 ⟨1000000000, 0⟩ sampleWriter, ?_, ?_, ?_, ?_⟩
  · decide +kernel
  · exact hh ▸ Hlc.le_refl _
  · exact ⟨_, rfl, by decide⟩
  · decide

/-- Restarted while the clock reads 0, the replica refuses to observe its own op, which is
more than a day ahead; the second op then gets the clock value of the first. -/
theorem minted_twice : ∃ m, Run plainHost sampleWriter (fun _ _ => True) m ∧ ¬ m.minted.Nodup :=
  ⟨secondObservation 0, secondObservation_run (by decide +kernel) trivial, by decide +kernel⟩

end CrdtState

end Hayven.Crdt
