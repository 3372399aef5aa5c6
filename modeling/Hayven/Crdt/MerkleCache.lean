import Hayven.Crdt.MerkleTree
import Hayven.Lib.Blake3
/-!
# The leaf cache over time

The cache outlives the bytes its entries were made from, and a call of `decodeSegment`
that fails is filed like a segment without ops. Entries are right as long as the stat
of a segment tells its contents apart and no call fails for a segment that has ops.
-/
open Hayven.Lib

namespace Hayven.Crdt

/-! ## Snapshots with failing calls -/

section Snapshot
variable (bridges : CrdtType → JsString → WireBridge) (blake3 : Bytes → Bytes) (log : OpLog)

/-- `typeLeaves`, where each segment has its own answer to the call of `decodeSegment`. -/
def typeLeavesOn (type : CrdtType) : List JsString → MerkleCache → Except HlcError (List SegmentLeaf × MerkleCache)
  | [], cache => .ok ([], cache)
  | day :: rest, cache => do
    let (hash, cache) ← segmentHash (bridges type day) blake3 log type day cache
    let (leaves, cache) ← typeLeavesOn type rest cache
    return (if hash = emptyLeafHex blake3 then leaves else ⟨day, hash⟩ :: leaves, cache)

/-- `computeMerkle` with these answers. -/
def computeMerkleOn (cache : MerkleCache) : Except HlcError (MerkleSnapshot × MerkleCache) := do
  let (lww, cache) ← typeLeavesOn bridges blake3 log .lww (log.listSegmentDays .lww) cache
  let (gset, cache) ← typeLeavesOn bridges blake3 log .gset (log.listSegmentDays .gset) cache
  let (orset, cache) ← typeLeavesOn bridges blake3 log .orset (log.listSegmentDays .orset) cache
  let leaves := byType lww gset orset
  return ({ roots := fun type => rootOf blake3 (leaves type), leaves }, cache)

end Snapshot

/-- The calls of `decodeSegment` that are made for the segments in `fails` throw. -/
def faultyBridge (bridge : WireBridge) (fails : CrdtType → JsString → Bool) (type : CrdtType) (day : JsString) :
    WireBridge :=
  { bridge with decodeSegment := fun bytes => if fails type day then none else bridge.decodeSegment bytes }

/-- With a bridge that works it is `computeMerkle`. -/
theorem computeMerkleOn_steady (bridge : WireBridge) (blake3 : Bytes → Bytes) (log : OpLog) :
    computeMerkleOn (fun _ _ => bridge) blake3 log = computeMerkle bridge blake3 log := by
  have hleaves : ∀ type days cache, typeLeavesOn (fun _ _ => bridge) blake3 log type days cache =
      typeLeaves bridge blake3 log type days cache := by
    intro type days
    induction days with
    | nil => exact fun _ => rfl
    | cons day rest ih =>
      intro cache
      simp only [typeLeavesOn, typeLeaves, ih]
  funext cache
  simp only [computeMerkleOn, computeMerkle, hleaves]

section Fresh
variable (bridge : WireBridge) (blake3 : Bytes → Bytes) (log : OpLog)

/-- The snapshot, without a cache. -/
def freshSnapshot : Except HlcError MerkleSnapshot := do
  let lww ← freshLeaves bridge blake3 log .lww (log.listSegmentDays .lww)
  let gset ← freshLeaves bridge blake3 log .gset (log.listSegmentDays .gset)
  let orset ← freshLeaves bridge blake3 log .orset (log.listSegmentDays .orset)
  let leaves := byType lww gset orset
  return { roots := fun type => rootOf blake3 (leaves type), leaves }

end Fresh

/-! ## A cache that is right -/

section Right
variable {bridge : WireBridge} {blake3 : Bytes → Bytes} {logs : List OpLog} {log : OpLog} {cache : MerkleCache}

/-- Whenever the bytes of a segment changed, so did its stat. -/
def StatFaithful (logs : List OpLog) : Prop :=
  ∀ x ∈ logs, ∀ y ∈ logs, ∀ type day, x.segmentStat type day = y.segmentStat type day →
    x.readSegmentBytes type day = y.readSegmentBytes type day

/-- Every entry was right for a segment that had its stat. -/
def Right (bridge : WireBridge) (blake3 : Bytes → Bytes) (logs : List OpLog) (cache : MerkleCache) : Prop :=
  ∀ type day e, cache.get (type, day) = some e → ∃ log ∈ logs, log.segmentStat type day = some e.stat ∧
    freshHash bridge blake3 log type day = .ok e.hash

theorem freshHash_congr {x y : OpLog} {type : CrdtType} {day : JsString}
    (h : x.readSegmentBytes type day = y.readSegmentBytes type day) :
    freshHash bridge blake3 x type day = freshHash bridge blake3 y type day := by
  have hkeys : x.segmentCompositeKeys bridge type day = y.segmentCompositeKeys bridge type day := by
    unfold OpLog.segmentCompositeKeys
    unfold OpLog.readSegmentBytes at h
    cases hx : x.file type day <;> cases hy : y.file type day <;> simp_all
  rw [freshHash, freshHash, hkeys]

/-- An entry under the current stat is right. -/
theorem Right.hit (hc : Right bridge blake3 logs cache) (hstat : StatFaithful logs) (hlog : log ∈ logs)
    {type : CrdtType} {day : JsString} {e : CacheEntry} (he : cache.get (type, day) = some e)
    (hcurrent : log.segmentStat type day = some e.stat) : freshHash bridge blake3 log type day = .ok e.hash := by
  obtain ⟨old, hold, hwas, hhash⟩ := hc type day e he
  rw [← hhash]
  exact freshHash_congr (hstat log hlog old hold type day (hcurrent.trans hwas.symm))

theorem Right.set (hc : Right bridge blake3 logs cache) (hlog : log ∈ logs) {type : CrdtType} {day : JsString}
    {stat : OpLog.Stat} {hash : JsString} (hstat : log.segmentStat type day = some stat)
    (hhash : freshHash bridge blake3 log type day = .ok hash) :
    Right bridge blake3 logs (cache.set (type, day) ⟨hash, stat⟩) := by
  intro type' day' e he
  rw [KeyedMap.get_set] at he
  split at he
  case isTrue heq =>
    cases heq
    cases he
    exact ⟨log, hlog, hstat, hhash⟩
  case isFalse => exact hc type' day' e he

/-- A call for a segment without ops may fail. -/
def Harmless (bridge : WireBridge) (log : OpLog) (fails : CrdtType → JsString → Bool) : Prop :=
  ∀ type day, fails type day = true → log.segmentCompositeKeys bridge type day = .ok []

theorem segmentCompositeKeys_faulty {fails : CrdtType → JsString → Bool} (h : Harmless bridge log fails)
    (type : CrdtType) (day : JsString) :
    log.segmentCompositeKeys (faultyBridge bridge fails type day) type day =
      log.segmentCompositeKeys bridge type day := by
  cases hfail : fails type day with
  | false => simp only [OpLog.segmentCompositeKeys, faultyBridge, hfail, Bool.false_eq_true, if_false]
  | true =>
    rw [h type day hfail]
    simp only [OpLog.segmentCompositeKeys, faultyBridge, hfail, if_true]
    cases log.file type day <;> rfl

section Calls
variable {fails : CrdtType → JsString → Bool} (hstat : StatFaithful logs) (hlog : log ∈ logs)
  (hharmless : Harmless bridge log fails)
include hstat hlog hharmless

/-- A right cache gives the fresh hash, and stays right. -/
theorem segmentHash_right (hc : Right bridge blake3 logs cache) (type : CrdtType) (day : JsString) :
    match freshHash bridge blake3 log type day with
    | .error e => segmentHash (faultyBridge bridge fails type day) blake3 log type day cache = .error e
    | .ok hash => ∃ cache', segmentHash (faultyBridge bridge fails type day) blake3 log type day cache =
        .ok (hash, cache') ∧ Right bridge blake3 logs cache' := by
  have hkeys := segmentCompositeKeys_faulty hharmless type day
  have hmiss : ∀ stat, log.segmentStat type day = some stat →
      match freshHash bridge blake3 log type day with
      | .error e => (do
          let keys ← log.segmentCompositeKeys bridge type day
          let hash := leafHash blake3 keys
          return (hash, cache.set (type, day) ⟨hash, stat⟩)) = Except.error e
      | .ok hash => ∃ cache', (do
          let keys ← log.segmentCompositeKeys bridge type day
          let hash := leafHash blake3 keys
          return (hash, cache.set (type, day) ⟨hash, stat⟩)) = Except.ok (hash, cache') ∧
          Right bridge blake3 logs cache' := by
    intro stat hcurrent
    cases hfresh : log.segmentCompositeKeys bridge type day with
    | error e =>
      simp only [freshHash, hfresh, Except.map]
      rfl
    | ok keys =>
      have hhash : freshHash bridge blake3 log type day = .ok (leafHash blake3 keys) := by
        rw [freshHash, hfresh]
        rfl
      rw [hhash]
      exact ⟨_, rfl, hc.set hlog hcurrent hhash⟩
  unfold segmentHash
  rw [hkeys]
  cases hcurrent : log.segmentStat type day with
  | none =>
    dsimp only [freshHash]
    cases log.segmentCompositeKeys bridge type day with
    | error e => rfl
    | ok keys => exact ⟨cache, rfl, hc⟩
  | some stat =>
    cases he : cache.get (type, day) with
    | none => exact hmiss stat hcurrent
    | some e =>
      dsimp only
      by_cases heq : e.stat = stat
      · rw [hc.hit hstat hlog he (heq ▸ hcurrent), if_pos heq]
        exact ⟨cache, rfl, hc⟩
      · rw [if_neg heq]
        exact hmiss stat hcurrent

theorem typeLeavesOn_right (type : CrdtType) (days : List JsString) (hc : Right bridge blake3 logs cache) :
    match freshLeaves bridge blake3 log type days with
    | .error e => typeLeavesOn (faultyBridge bridge fails) blake3 log type days cache = .error e
    | .ok leaves => ∃ cache', typeLeavesOn (faultyBridge bridge fails) blake3 log type days cache =
        .ok (leaves, cache') ∧ Right bridge blake3 logs cache' := by
  induction days generalizing cache with
  | nil => exact ⟨cache, rfl, hc⟩
  | cons day rest ih =>
    rw [freshLeaves, typeLeavesOn]
    have hday := segmentHash_right hstat hlog hharmless hc type day
    cases hfresh : freshHash bridge blake3 log type day with
    | error e =>
      rw [hfresh] at hday
      rw [hday]
      rfl
    | ok hash =>
      rw [hfresh] at hday
      obtain ⟨cache₁, h₁, hc₁⟩ := hday
      have hrest := ih hc₁
      rw [h₁]
      cases hleaves : freshLeaves bridge blake3 log type rest with
      | error e =>
        rw [hleaves] at hrest
        simp only [bind, Except.bind, hrest]
      | ok leaves =>
        rw [hleaves] at hrest
        obtain ⟨cache₂, h₂, hc₂⟩ := hrest
        refine ⟨cache₂, ?_, hc₂⟩
        simp only [bind, Except.bind, h₂, pure, Except.pure]

/-- With a right cache `computeMerkle` returns the fresh snapshot, and the cache stays right. -/
theorem computeMerkleOn_right (hc : Right bridge blake3 logs cache) :
    match freshSnapshot bridge blake3 log with
    | .error e => computeMerkleOn (faultyBridge bridge fails) blake3 log cache = .error e
    | .ok snap => ∃ cache', computeMerkleOn (faultyBridge bridge fails) blake3 log cache = .ok (snap, cache') ∧
        Right bridge blake3 logs cache' := by
  unfold freshSnapshot computeMerkleOn
  have hlww := typeLeavesOn_right hstat hlog hharmless .lww (log.listSegmentDays .lww) hc
  cases h₁ : freshLeaves bridge blake3 log .lww (log.listSegmentDays .lww) with
  | error e =>
    rw [h₁] at hlww
    rw [hlww]
    rfl
  | ok lww =>
    rw [h₁] at hlww
    obtain ⟨c₁, heq₁, hc₁⟩ := hlww
    have hgset := typeLeavesOn_right hstat hlog hharmless .gset (log.listSegmentDays .gset) hc₁
    simp only [heq₁, bind, Except.bind]
    cases h₂ : freshLeaves bridge blake3 log .gset (log.listSegmentDays .gset) with
    | error e =>
      rw [h₂] at hgset
      simp only [hgset]
    | ok gset =>
      rw [h₂] at hgset
      obtain ⟨c₂, heq₂, hc₂⟩ := hgset
      have horset := typeLeavesOn_right hstat hlog hharmless .orset (log.listSegmentDays .orset) hc₂
      simp only [heq₂]
      cases h₃ : freshLeaves bridge blake3 log .orset (log.listSegmentDays .orset) with
      | error e =>
        rw [h₃] at horset
        simp only [horset]
      | ok orset =>
        rw [h₃] at horset
        obtain ⟨c₃, heq₃, hc₃⟩ := horset
        exact ⟨c₃, by simp only [heq₃, pure, Except.pure], hc₃⟩

end Calls

/-- A working call with a right cache returns what a call with an empty one returns. -/
theorem computeMerkle_right (hstat : StatFaithful logs) (hlog : log ∈ logs) (hc : Right bridge blake3 logs cache) :
    (computeMerkle bridge blake3 log cache).map Prod.fst = freshSnapshot bridge blake3 log := by
  have hnone : Harmless bridge log fun _ _ => false := nofun
  have hsteady : faultyBridge bridge (fun _ _ => false) = fun _ _ => bridge := rfl
  have hright := computeMerkleOn_right hstat hlog hnone hc
  rw [hsteady, computeMerkleOn_steady] at hright
  cases hfresh : freshSnapshot bridge blake3 log with
  | error e =>
    rw [hfresh] at hright
    rw [hright]
    rfl
  | ok snap =>
    rw [hfresh] at hright
    obtain ⟨cache', heq, -⟩ := hright
    rw [heq]
    rfl

end Right

/-! ## Runs -/

/-- A saved snapshot: the log it was taken of and the calls that failed. -/
structure MerkleCall where
  log : OpLog
  fails : CrdtType → JsString → Bool

/-- The stores that appends, hydrations and snapshots lead to from a log without a cache, with
all logs on the way and the snapshots that were saved. -/
inductive CacheRun (bridge : WireBridge) (blake3 : Bytes → Bytes) : List OpLog → List MerkleCall → Store → Prop
  | start {log : OpLog} : CacheRun bridge blake3 [log] [] ⟨log, .empty⟩
  | append {logs : List OpLog} {calls : List MerkleCall} {s : Store} (type : CrdtType) (day : JsString) (buf : Bytes)
      (mtimeMs : Rat) : CacheRun bridge blake3 logs calls s →
      CacheRun bridge blake3 (s.oplog.appendToFile type day buf mtimeMs :: logs) calls
        ⟨s.oplog.appendToFile type day buf mtimeMs, s.cache⟩
  | hydrate {logs : List OpLog} {calls : List MerkleCall} {s : Store} (call : DecodeCall) (mtimeMs : JsString → Rat)
      (type : CrdtType) : CacheRun bridge blake3 logs calls s →
      CacheRun bridge blake3
        (⟨Function.update s.oplog.dir type (Crdt.hydrate call mtimeMs (s.oplog.dir type)).dir⟩ :: logs) calls
        ⟨⟨Function.update s.oplog.dir type (Crdt.hydrate call mtimeMs (s.oplog.dir type)).dir⟩, s.cache⟩
  -- a snapshot that throws saves nothing
  | merkle {logs : List OpLog} {calls : List MerkleCall} {s : Store} {snap : MerkleSnapshot} {cache : MerkleCache}
      (fails : CrdtType → JsString → Bool) : CacheRun bridge blake3 logs calls s →
      computeMerkleOn (faultyBridge bridge fails) blake3 s.oplog s.cache = .ok (snap, cache) →
      CacheRun bridge blake3 logs (⟨s.oplog, fails⟩ :: calls) ⟨s.oplog, cache⟩

section Runs
variable {bridge : WireBridge} {blake3 : Bytes → Bytes} {logs : List OpLog} {calls : List MerkleCall} {s : Store}

theorem Right.mono {cache : MerkleCache} (h : Right bridge blake3 logs cache) (log : OpLog) :
    Right bridge blake3 (log :: logs) cache := by
  intro type day e he
  obtain ⟨old, hold, hwas⟩ := h type day e he
  exact ⟨old, List.mem_cons_of_mem _ hold, hwas⟩

theorem StatFaithful.tail {log : OpLog} (h : StatFaithful (log :: logs)) : StatFaithful logs :=
  fun x hx y hy => h x (List.mem_cons_of_mem _ hx) y (List.mem_cons_of_mem _ hy)

/-- A run without harmful failures has a cache that is right. -/
theorem right_of_run (h : CacheRun bridge blake3 logs calls s) (hstat : StatFaithful logs)
    (hcalls : ∀ c ∈ calls, Harmless bridge c.log c.fails) : s.oplog ∈ logs ∧ Right bridge blake3 logs s.cache := by
  induction h with
  | start => exact ⟨List.mem_singleton_self _, fun _ _ _ he => nomatch he⟩
  | append type day buf m _ ih => exact ⟨List.mem_cons_self, (ih hstat.tail hcalls).2.mono _⟩
  | hydrate call m type _ ih => exact ⟨List.mem_cons_self, (ih hstat.tail hcalls).2.mono _⟩
  | @merkle logs calls s snap cache fails _ hok ih =>
    rw [List.forall_mem_cons] at hcalls
    obtain ⟨hlog, hc⟩ := ih hstat hcalls.2
    have hright := computeMerkleOn_right hstat hlog hcalls.1 hc
    refine ⟨hlog, ?_⟩
    cases hfresh : freshSnapshot bridge blake3 s.oplog with
    | error e =>
      rw [hfresh] at hright
      rw [hright] at hok
      cases hok
    | ok snap' =>
      rw [hfresh] at hright
      obtain ⟨cache', heq, hc'⟩ := hright
      rw [heq] at hok
      cases hok
      exact hc'

/-- In a run whose failing calls were for segments without ops, a snapshot taken while the bridge
works is the one an empty cache gives. -/
theorem computeMerkle_transparent (h : CacheRun bridge blake3 logs calls s) (hstat : StatFaithful logs)
    (hcalls : ∀ c ∈ calls, Harmless bridge c.log c.fails) :
    (computeMerkle bridge blake3 s.oplog s.cache).map Prod.fst =
      (computeMerkle bridge blake3 s.oplog .empty).map Prod.fst := by
  obtain ⟨hlog, hc⟩ := right_of_run h hstat hcalls
  have hempty : Right bridge blake3 logs .empty := fun _ _ _ he => nomatch he
  rw [computeMerkle_right hstat hlog hc, computeMerkle_right hstat hlog hempty]

end Runs

/-! ## A segment and its first append -/

def firstLog : OpLog := OpLog.empty.appendToFile .gset (ascii "1970-01-01") (frameBytes oneBatch) 1

/-- The cache after a snapshot of the log in which these calls failed. -/
def cacheAfter (fails : CrdtType → JsString → Bool) : MerkleCache :=
  match computeMerkleOn (faultyBridge plainBridge fails) Blake3.hash firstLog .empty with
  | .ok (_, cache) => cache
  | .error _ => .empty

theorem run_cacheAfter (fails : CrdtType → JsString → Bool)
    (h : (computeMerkleOn (faultyBridge plainBridge fails) Blake3.hash firstLog .empty).toBool = true) :
    CacheRun plainBridge Blake3.hash [firstLog, .empty] [⟨firstLog, fails⟩] ⟨firstLog, cacheAfter fails⟩ := by
  have hrun : CacheRun plainBridge Blake3.hash [firstLog, .empty] [] ⟨firstLog, .empty⟩ :=
    .append .gset (ascii "1970-01-01") (frameBytes oneBatch) 1 .start
  cases hok : computeMerkleOn (faultyBridge plainBridge fails) Blake3.hash firstLog .empty with
  | error e =>
    rw [hok] at h
    cases h
  | ok r =>
    have hcache : cacheAfter fails = r.2 := by simp only [cacheAfter, hok]
    rw [hcache]
    exact .merkle fails hrun hok

/-- The file appears, and no other does. -/
theorem statFaithful_firstLog : StatFaithful [firstLog, .empty] := by
  have hfile : ∀ type day, firstLog.file type day = none ∨ ∃ f, firstLog.file type day = some f := by
    intro type day
    cases firstLog.file type day with
    | none => exact .inl rfl
    | some f => exact .inr ⟨f, rfl⟩
  have hnone : ∀ type day, OpLog.empty.file type day = none := fun _ _ => rfl
  intro x hx y hy type day hstat
  simp only [List.mem_cons, List.not_mem_nil, or_false] at hx hy
  unfold OpLog.segmentStat at hstat
  unfold OpLog.readSegmentBytes
  rcases hx with rfl | rfl <;> rcases hy with rfl | rfl <;> rcases hfile type day with h | ⟨f, h⟩ <;>
    simp_all

theorem computeMerkle_transparent_firstLog :
    (computeMerkle plainBridge Blake3.hash firstLog (cacheAfter fun _ _ => false)).map Prod.fst =
      (computeMerkle plainBridge Blake3.hash firstLog .empty).map Prod.fst := by
  have hrun := run_cacheAfter (fun _ _ => false) (by decide +kernel)
  have hnone : Harmless plainBridge firstLog fun _ _ => false := nofun
  refine computeMerkle_transparent hrun statFaithful_firstLog fun c hc => ?_
  cases List.mem_singleton.1 hc
  exact hnone

/-- One failing call files the segment as empty, and its leaf stays away when the bridge works again. -/
theorem failed_call_is_cached :
    CacheRun plainBridge Blake3.hash [firstLog, .empty] [⟨firstLog, fun _ _ => true⟩]
        ⟨firstLog, cacheAfter fun _ _ => true⟩ ∧
      StatFaithful [firstLog, .empty] ∧
      (computeMerkle plainBridge Blake3.hash firstLog (cacheAfter fun _ _ => true)).map Prod.fst ≠
        (computeMerkle plainBridge Blake3.hash firstLog .empty).map Prod.fst := by
  refine ⟨run_cacheAfter (fun _ _ => true) (by decide +kernel), statFaithful_firstLog, fun heq => ?_⟩
  have hleaves := congrArg (Except.map fun snap => snap.leaves .gset) heq
  revert hleaves
  decide +kernel

end Hayven.Crdt
