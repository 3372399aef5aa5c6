import Hayven.Crdt.Hydrate
/-!
# Merkle tree over the segments

`crdt/merkle.ts`. A leaf hashes the sorted composite keys of a segment; a root
pairs the sorted leaf hashes level by level. Leaf hashes are cached under the
segment's modification time, size and last bytes. `blake3` is a parameter. Which segment an
op belongs in: the directory of its type and the file of the UTC day of its clock.
-/
open Hayven.Lib

namespace Hayven.Crdt

def leafTag : UInt8 := 0x00
def nodeTag : UInt8 := 0x01

structure SegmentLeaf where
  path : JsString
  hash : JsString
deriving DecidableEq

/-- A record with a field for each type. -/
def byType {α : Type} (lww gset orset : α) : CrdtType → α
  | .lww => lww
  | .gset => gset
  | .orset => orset

theorem byType_eta {α : Type} (f : CrdtType → α) : byType (f .lww) (f .gset) (f .orset) = f := by
  funext type
  cases type <;> rfl

structure MerkleSnapshot where
  roots : CrdtType → JsString
  leaves : CrdtType → List SegmentLeaf

structure CacheEntry where
  hash : JsString
  stat : OpLog.Stat
deriving DecidableEq

/-- `merkle.json`: an entry for each type and day. -/
abbrev MerkleCache := KeyedMap (CrdtType × JsString) CacheEntry

/-- The files under `crdt/`. -/
structure Store where
  oplog : OpLog
  cache : MerkleCache

section Hashing
variable (blake3 : Bytes → Bytes)

def emptyRootHex : JsString := bytesToHex (blake3 [nodeTag])

def emptyLeafHex : JsString := bytesToHex (blake3 [leafTag])

/-- The bytes a leaf hashes. -/
def leafInput (sortedKeysHex : List JsString) : Bytes := leafTag :: sortedKeysHex.flatMap hexToBytes

def leafHash (sortedKeysHex : List JsString) : JsString := bytesToHex (blake3 (leafInput sortedKeysHex))

/-- The bytes an inner node hashes: the smaller child first. -/
def nodeInput (a b : Bytes) : Bytes := nodeTag :: if (byteCompare a b).isLE then a ++ b else b ++ a

def combine (a b : Bytes) : Bytes := blake3 (nodeInput a b)

/-- One level up: pairs are combined, an unpaired node is promoted. -/
def nextLevel : List Bytes → List Bytes
  | a :: b :: rest => combine blake3 a b :: nextLevel rest
  | level => level

/-- The levels up to the one with a single node, at most `fuel` of them. -/
def climb : Nat → List Bytes → Bytes
  | fuel + 1, a :: b :: rest => climb fuel (nextLevel blake3 (a :: b :: rest))
  | _, level => level.headD []

def rootOf (leaves : List SegmentLeaf) : JsString :=
  if leaves.length = 0 then emptyRootHex blake3
  else
    let level := (sortWith compare (leaves.map SegmentLeaf.hash)).map hexToBytes
    bytesToHex (climb blake3 level.length level)

end Hashing

/-! ## Snapshots -/

section Snapshot
variable (bridge : WireBridge) (blake3 : Bytes → Bytes) (log : OpLog)

/-- The hash of one segment, from the cache or afresh, and the cache after it. -/
def segmentHash (type : CrdtType) (day : JsString) (cache : MerkleCache) : Except HlcError (JsString × MerkleCache) :=
  let stat := log.segmentStat type day
  match stat, cache.get (type, day) with
  | some stat, some cached =>
    if cached.stat = stat then .ok (cached.hash, cache)
    else do
      let keys ← log.segmentCompositeKeys bridge type day
      let hash := leafHash blake3 keys
      return (hash, cache.set (type, day) ⟨hash, stat⟩)
  | some stat, none => do
    let keys ← log.segmentCompositeKeys bridge type day
    let hash := leafHash blake3 keys
    return (hash, cache.set (type, day) ⟨hash, stat⟩)
  | none, _ => do
    let keys ← log.segmentCompositeKeys bridge type day
    return (leafHash blake3 keys, cache)

/-- The loop over the days of one type; a segment without ops has no leaf. -/
def typeLeaves (type : CrdtType) : List JsString → MerkleCache → Except HlcError (List SegmentLeaf × MerkleCache)
  | [], cache => .ok ([], cache)
  | day :: rest, cache => do
    let (hash, cache) ← segmentHash bridge blake3 log type day cache
    let (leaves, cache) ← typeLeaves type rest cache
    return (if hash = emptyLeafHex blake3 then leaves else ⟨day, hash⟩ :: leaves, cache)

/-- `computeMerkle`, and the cache it saves. If it throws nothing is saved. -/
def computeMerkle (cache : MerkleCache) : Except HlcError (MerkleSnapshot × MerkleCache) := do
  let (lww, cache) ← typeLeaves bridge blake3 log .lww (log.listSegmentDays .lww) cache
  let (gset, cache) ← typeLeaves bridge blake3 log .gset (log.listSegmentDays .gset) cache
  let (orset, cache) ← typeLeaves bridge blake3 log .orset (log.listSegmentDays .orset) cache
  let leaves := byType lww gset orset
  return ({ roots := fun type => rootOf blake3 (leaves type), leaves }, cache)

end Snapshot

/-! ## Diff -/

structure Target where
  type : CrdtType
  path : JsString
  hash : JsString
deriving DecidableEq

structure MerkleDiff where
  pull : List Target
  push : List Target

/-- `new Map` of the leaves, by path. -/
def byPath (leaves : List SegmentLeaf) : KeyedMap JsString JsString :=
  leaves.foldl (fun m l => m.set l.path l.hash) .empty

/-- Theirs where ours is missing or differs. -/
def pullTargets (ours theirs : MerkleSnapshot) (type : CrdtType) : List Target :=
  ((byPath (theirs.leaves type)).entries.filter fun p => (byPath (ours.leaves type)).get p.1 ≠ some p.2).map
    fun p => ⟨type, p.1, p.2⟩

/-- Ours where theirs is missing. -/
def pushTargets (ours theirs : MerkleSnapshot) (type : CrdtType) : List Target :=
  ((byPath (ours.leaves type)).entries.filter fun p => !(byPath (theirs.leaves type)).has p.1).map
    fun p => ⟨type, p.1, p.2⟩

def diffSnapshots (ours theirs : MerkleSnapshot) : MerkleDiff where
  pull := crdtTypes.flatMap (pullTargets ours theirs)
  push := crdtTypes.flatMap (pushTargets ours theirs)

/-! ## The cache does not matter -/

section Coherent
variable (bridge : WireBridge) (blake3 : Bytes → Bytes) (log : OpLog)

/-- Every entry is of a segment that has not shrunk since, and one of the same size is right. -/
def Coherent (cache : MerkleCache) : Prop :=
  ∀ type day e, cache.get (type, day) = some e → ∃ f, log.file type day = some f ∧ e.stat.size ≤ f.bytes.length ∧
    (e.stat.size = f.bytes.length → ∃ keys, log.segmentCompositeKeys bridge type day = .ok keys ∧
      e.hash = leafHash blake3 keys)

/-- The leaf hash of a segment, without the cache. -/
def freshHash (type : CrdtType) (day : JsString) : Except HlcError JsString :=
  (log.segmentCompositeKeys bridge type day).map (leafHash blake3)

/-- The leaves of a type, without the cache. -/
def freshLeaves (type : CrdtType) : List JsString → Except HlcError (List SegmentLeaf)
  | [] => .ok []
  | day :: rest => do
    let hash ← freshHash bridge blake3 log type day
    let leaves ← freshLeaves type rest
    return if hash = emptyLeafHex blake3 then leaves else ⟨day, hash⟩ :: leaves

variable {bridge blake3 log}

theorem coherent_empty : Coherent bridge blake3 log .empty := by
  intro type day e h
  cases h

theorem size_segmentStat {type : CrdtType} {day : JsString} {f : SegmentFile} (h : log.file type day = some f) :
    ∃ stat, log.segmentStat type day = some stat ∧ stat.size = f.bytes.length := by
  simp [OpLog.segmentStat, h]

theorem segmentStat_none {type : CrdtType} {day : JsString} (h : log.file type day = none) :
    log.segmentStat type day = none := by
  simp [OpLog.segmentStat, h]

/-- Filing the right hash under the current stat keeps the cache coherent. -/
theorem coherent_set {cache : MerkleCache} (hc : Coherent bridge blake3 log cache) {type : CrdtType} {day : JsString}
    {stat : OpLog.Stat} {keys : List JsString} (hstat : log.segmentStat type day = some stat)
    (hkeys : log.segmentCompositeKeys bridge type day = .ok keys) :
    Coherent bridge blake3 log (cache.set (type, day) ⟨leafHash blake3 keys, stat⟩) := by
  intro type' day' e he
  rw [KeyedMap.get_set] at he
  split at he
  case isFalse => exact hc type' day' e he
  case isTrue heq =>
    cases heq
    cases he
    cases hf : log.file type day with
    | none => rw [segmentStat_none hf] at hstat; cases hstat
    | some f =>
      obtain ⟨stat', hstat', hsize⟩ := size_segmentStat hf
      cases hstat.symm.trans hstat'
      exact ⟨f, rfl, hsize.le, fun _ => ⟨keys, hkeys, rfl⟩⟩

/-- With a coherent cache the hash is the fresh one. -/
theorem segmentHash_eq {cache : MerkleCache} (hc : Coherent bridge blake3 log cache) (type : CrdtType)
    (day : JsString) :
    match freshHash bridge blake3 log type day with
    | .error e => segmentHash bridge blake3 log type day cache = .error e
    | .ok hash => ∃ cache', segmentHash bridge blake3 log type day cache = .ok (hash, cache') ∧
        Coherent bridge blake3 log cache' := by
  -- a hit can only be an entry of the current size, and coherence speaks of those
  have hhit : ∀ stat e, log.segmentStat type day = some stat → cache.get (type, day) = some e → e.stat = stat →
      freshHash bridge blake3 log type day = .ok e.hash := by
    intro stat e hstat he heq
    obtain ⟨f, hf, -, hright⟩ := hc type day e he
    obtain ⟨stat', hstat', hsize⟩ := size_segmentStat hf
    cases hstat.symm.trans hstat'
    obtain ⟨keys, hkeys, hhash⟩ := hright (heq ▸ hsize)
    simp only [freshHash, hkeys, hhash, Except.map]
  have hmiss : ∀ stat, log.segmentStat type day = some stat →
      match freshHash bridge blake3 log type day with
      | .error e => (do
          let keys ← log.segmentCompositeKeys bridge type day
          let hash := leafHash blake3 keys
          return (hash, cache.set (type, day) ⟨hash, stat⟩)) = Except.error e
      | .ok hash => ∃ cache', (do
          let keys ← log.segmentCompositeKeys bridge type day
          let hash := leafHash blake3 keys
          return (hash, cache.set (type, day) ⟨hash, stat⟩)) = Except.ok (hash, cache') ∧
          Coherent bridge blake3 log cache' := by
    intro stat hstat
    simp only [freshHash]
    cases hkeys : log.segmentCompositeKeys bridge type day with
    | error e => rfl
    | ok keys => exact ⟨_, rfl, coherent_set hc hstat hkeys⟩
  unfold segmentHash
  cases hstat : log.segmentStat type day with
  | none =>
    dsimp only [freshHash]
    cases log.segmentCompositeKeys bridge type day with
    | error e => rfl
    | ok keys => exact ⟨cache, rfl, hc⟩
  | some stat =>
    cases he : cache.get (type, day) with
    | none => exact hmiss stat hstat
    | some e =>
      dsimp only
      by_cases heq : e.stat = stat
      · rw [hhit stat e hstat he heq, if_pos heq]
        exact ⟨cache, rfl, hc⟩
      · rw [if_neg heq]
        exact hmiss stat hstat

theorem typeLeaves_eq (type : CrdtType) (days : List JsString) {cache : MerkleCache}
    (hc : Coherent bridge blake3 log cache) :
    match freshLeaves bridge blake3 log type days with
    | .error e => typeLeaves bridge blake3 log type days cache = .error e
    | .ok leaves => ∃ cache', typeLeaves bridge blake3 log type days cache = .ok (leaves, cache') ∧
        Coherent bridge blake3 log cache' := by
  induction days generalizing cache with
  | nil => exact ⟨cache, rfl, hc⟩
  | cons day rest ih =>
    rw [freshLeaves, typeLeaves]
    have hday := segmentHash_eq hc type day
    cases hfresh : freshHash bridge blake3 log type day with
    | error e =>
      rw [hfresh] at hday
      rw [hday]
      rfl
    | ok hash =>
      rw [hfresh] at hday
      obtain ⟨cache₁, h₁, hc₁⟩ := hday
      have hrest := ih hc₁
      rw [h₁]
      cases hleaves : freshLeaves bridge blake3 log type rest with
      | error e =>
        rw [hleaves] at hrest
        simp only [bind, Except.bind, hrest]
      | ok leaves =>
        rw [hleaves] at hrest
        obtain ⟨cache₂, h₂, hc₂⟩ := hrest
        refine ⟨cache₂, ?_, hc₂⟩
        simp only [bind, Except.bind, h₂, pure, Except.pure]

/-- `computeMerkle` takes the leaves that hold without the cache, and keeps the cache coherent. -/
theorem computeMerkle_ok {cache : MerkleCache} (hc : Coherent bridge blake3 log cache)
    {leaves : CrdtType → List SegmentLeaf}
    (h : ∀ type, freshLeaves bridge blake3 log type (log.listSegmentDays type) = .ok (leaves type)) :
    ∃ cache', computeMerkle bridge blake3 log cache =
      .ok (⟨fun type => rootOf blake3 (leaves type), leaves⟩, cache') ∧ Coherent bridge blake3 log cache' := by
  have hlww := typeLeaves_eq .lww (log.listSegmentDays .lww) hc
  rw [h] at hlww
  obtain ⟨c₁, h₁, hc₁⟩ := hlww
  have hgset := typeLeaves_eq .gset (log.listSegmentDays .gset) hc₁
  rw [h] at hgset
  obtain ⟨c₂, h₂, hc₂⟩ := hgset
  have horset := typeLeaves_eq .orset (log.listSegmentDays .orset) hc₂
  rw [h] at horset
  obtain ⟨c₃, h₃, hc₃⟩ := horset
  refine ⟨c₃, ?_, hc₃⟩
  simp only [computeMerkle, h₁, h₂, h₃, bind, Except.bind, pure, Except.pure, byType_eta]

/-- A segment whose keys cannot be encoded makes `computeMerkle` throw. -/
theorem computeMerkle_error {cache : MerkleCache} (hc : Coherent bridge blake3 log cache) {type : CrdtType}
    {e : HlcError} (h : freshLeaves bridge blake3 log type (log.listSegmentDays type) = .error e) :
    ∃ e', computeMerkle bridge blake3 log cache = .error e' := by
  have hlww := typeLeaves_eq .lww (log.listSegmentDays .lww) hc
  simp only [computeMerkle, bind, Except.bind]
  cases h₁ : freshLeaves bridge blake3 log .lww (log.listSegmentDays .lww) with
  | error e₁ =>
    rw [h₁] at hlww
    rw [hlww]
    exact ⟨e₁, rfl⟩
  | ok l₁ =>
    rw [h₁] at hlww
    obtain ⟨c₁, hl, hc₁⟩ := hlww
    rw [hl]
    dsimp only
    have hgset := typeLeaves_eq .gset (log.listSegmentDays .gset) hc₁
    cases h₂ : freshLeaves bridge blake3 log .gset (log.listSegmentDays .gset) with
    | error e₂ =>
      rw [h₂] at hgset
      rw [hgset]
      exact ⟨e₂, rfl⟩
    | ok l₂ =>
      rw [h₂] at hgset
      obtain ⟨c₂, hg, hc₂⟩ := hgset
      rw [hg]
      dsimp only
      have horset := typeLeaves_eq .orset (log.listSegmentDays .orset) hc₂
      cases h₃ : freshLeaves bridge blake3 log .orset (log.listSegmentDays .orset) with
      | error e₃ =>
        rw [h₃] at horset
        rw [horset]
        exact ⟨e₃, rfl⟩
      | ok l₃ => cases type <;> simp_all

end Coherent

/-! ## Keys of the stored ops -/

/-- The ops of the batches of a segment. -/
def storedOps (bridge : WireBridge) (log : OpLog) (type : CrdtType) (day : JsString) : List WireOp :=
  (split varintPrefix (log.bytes type day)).frames.flatMap fun f => (bridge.decode f.body).getD []

/-- Every segment is whole batches, all of which decode. -/
def WellStored (bridge : WireBridge) (log : OpLog) : Prop := ∀ type day, Intact bridge.decode (log.bytes type day)

/-- The sorted keys of the ops stored in a segment. -/
def segmentKeys (bridge : WireBridge) (log : OpLog) (type : CrdtType) (day : JsString) : List JsString :=
  sortedKeys ((storedOps bridge log type day).map fun op => keyHex op.key)

/-- The leaves of a type as its stored ops determine them. -/
def exactLeaves (bridge : WireBridge) (blake3 : Bytes → Bytes) (log : OpLog) (type : CrdtType) : List SegmentLeaf :=
  ((log.listSegmentDays type).map fun day => ⟨day, leafHash blake3 (segmentKeys bridge log type day)⟩).filter
    fun l => l.hash ≠ emptyLeafHex blake3

theorem decodeFrames_of_intact {decode : Bytes → Option (List WireOp)} {bytes : Bytes} (h : Intact decode bytes) :
    decodeFrames decode (split varintPrefix bytes) =
      some ((split varintPrefix bytes).frames.flatMap fun f => (decode f.body).getD []) := by
  obtain ⟨hclean, hdec⟩ := h
  simp only [decodeFrames, hclean, Split.bodies]
  generalize (split varintPrefix bytes).frames = frames at hdec
  induction frames with
  | nil => rfl
  | cons f rest ih =>
    obtain ⟨ops, hops⟩ := Option.isSome_iff_exists.1 (hdec f List.mem_cons_self)
    have hrest := ih fun g hg => hdec g (List.mem_cons_of_mem _ hg)
    obtain ⟨rests, hrests, hflat⟩ := Option.map_eq_some_iff.1 hrest
    simp [List.mapM_cons, hops, hrests, hflat]

theorem mapM_compositeKeyHex {ops : List WireOp} (h : ∀ op ∈ ops, op.hlc.Encodable) :
    ops.mapM compositeKeyHex = .ok (ops.map fun op => keyHex op.key) := by
  induction ops with
  | nil => rfl
  | cons op rest ih =>
    rw [List.mapM_cons, compositeKeyHex_of_encodable (h op List.mem_cons_self),
      ih fun o ho => h o (List.mem_cons_of_mem _ ho)]
    rfl

theorem mapM_compositeKeyHex_error {ops : List WireOp} {op : WireOp} (hop : op ∈ ops) (h : ¬ op.hlc.Encodable) :
    ∃ e, ops.mapM compositeKeyHex = .error e := by
  induction ops with
  | nil => cases hop
  | cons o rest ih =>
    rw [List.mapM_cons]
    rcases List.mem_cons.1 hop with rfl | hop
    · obtain ⟨e, he⟩ := compositeKeyHex_of_not_encodable h
      exact ⟨e, by rw [he]; rfl⟩
    · obtain ⟨e, he⟩ := ih hop
      rw [he]
      cases compositeKeyHex o with
      | error e' => exact ⟨e', rfl⟩
      | ok k => exact ⟨e, rfl⟩

section Stored
variable {bridge : WireBridge} {log : OpLog}

/-- The keys of a well-stored segment are those of the ops stored in it. -/
theorem segmentCompositeKeys_eq (hb : bridge.SegmentWise) (hlog : WellStored bridge log) (type : CrdtType)
    (day : JsString) : log.segmentCompositeKeys bridge type day =
      ((storedOps bridge log type day).mapM compositeKeyHex).map sortedKeys := by
  have hint := hlog type day
  unfold OpLog.segmentCompositeKeys
  cases hf : log.file type day with
  | none =>
    have hbytes : log.bytes type day = [] := by simp [OpLog.bytes, hf]
    simp only [storedOps, hbytes]
    rfl
  | some f =>
    have hbytes : log.bytes type day = f.bytes := by simp [OpLog.bytes, hf]
    rw [hbytes] at hint
    have hdec := hb f.bytes
    rw [← varintPrefix_eq, decodeFrames_of_intact hint] at hdec
    simp only [hdec, storedOps, hbytes]
    rfl

variable (blake3 : Bytes → Bytes)

theorem freshHash_of_encodable (hb : bridge.SegmentWise) (hlog : WellStored bridge log) {type : CrdtType}
    {day : JsString} (h : ∀ op ∈ storedOps bridge log type day, op.hlc.Encodable) :
    freshHash bridge blake3 log type day = .ok (leafHash blake3 (segmentKeys bridge log type day)) := by
  rw [freshHash, segmentCompositeKeys_eq hb hlog, mapM_compositeKeyHex h]
  rfl

theorem freshHash_error (hb : bridge.SegmentWise) (hlog : WellStored bridge log) {type : CrdtType} {day : JsString}
    {op : WireOp} (hop : op ∈ storedOps bridge log type day) (h : ¬ op.hlc.Encodable) :
    ∃ e, freshHash bridge blake3 log type day = .error e := by
  obtain ⟨e, he⟩ := mapM_compositeKeyHex_error hop h
  exact ⟨e, by rw [freshHash, segmentCompositeKeys_eq hb hlog, he]; rfl⟩

theorem freshLeaves_of_encodable (hb : bridge.SegmentWise) (hlog : WellStored bridge log) {type : CrdtType}
    (h : ∀ day, ∀ op ∈ storedOps bridge log type day, op.hlc.Encodable) (days : List JsString) :
    freshLeaves bridge blake3 log type days =
      .ok ((days.map fun day => ⟨day, leafHash blake3 (segmentKeys bridge log type day)⟩).filter
        fun l => l.hash ≠ emptyLeafHex blake3) := by
  induction days with
  | nil => rfl
  | cons day rest ih =>
    rw [freshLeaves, freshHash_of_encodable blake3 hb hlog (h day), ih]
    simp only [bind, Except.bind, pure, Except.pure, List.map_cons, List.filter_cons]
    by_cases hempty : leafHash blake3 (segmentKeys bridge log type day) = emptyLeafHex blake3 <;> simp [hempty]

theorem freshLeaves_error (hb : bridge.SegmentWise) (hlog : WellStored bridge log) {type : CrdtType} {day : JsString}
    {op : WireOp} (hop : op ∈ storedOps bridge log type day) (h : ¬ op.hlc.Encodable) {days : List JsString}
    (hday : day ∈ days) : ∃ e, freshLeaves bridge blake3 log type days = .error e := by
  induction days with
  | nil => cases hday
  | cons d rest ih =>
    rw [freshLeaves]
    rcases List.mem_cons.1 hday with rfl | hday
    · obtain ⟨e, he⟩ := freshHash_error blake3 hb hlog hop h
      exact ⟨e, by rw [he]; rfl⟩
    · obtain ⟨e, he⟩ := ih hday
      rw [he]
      cases freshHash bridge blake3 log type d with
      | error e' => exact ⟨e', rfl⟩
      | ok hash => exact ⟨e, rfl⟩

/-- A segment that stores an op is listed. -/
theorem mem_listSegmentDays {type : CrdtType} {day : JsString} {op : WireOp}
    (hop : op ∈ storedOps bridge log type day) : day ∈ log.listSegmentDays type := by
  have hfile : ∃ f, log.file type day = some f := by
    cases hf : log.file type day with
    | none => simp [storedOps, OpLog.bytes, hf] at hop
    | some f => exact ⟨f, rfl⟩
  exact (mem_sortWith _).2 (KeyedMap.mem_keys.2 hfile)

/-- The snapshot of a well-stored log exists, and is exact, exactly when every stored op has a
clock that can be encoded. -/
theorem computeMerkle_exact_iff (hb : bridge.SegmentWise) (hlog : WellStored bridge log) {cache : MerkleCache}
    (hc : Coherent bridge blake3 log cache) :
    (∃ snap cache', computeMerkle bridge blake3 log cache = .ok (snap, cache') ∧
        ∀ type, snap.leaves type = exactLeaves bridge blake3 log type) ↔
      ∀ type day, ∀ op ∈ storedOps bridge log type day, op.hlc.Encodable := by
  constructor
  · rintro ⟨snap, cache', hok, -⟩ type day op hop
    by_contra henc
    obtain ⟨e, he⟩ := freshLeaves_error blake3 hb hlog hop henc (mem_listSegmentDays hop)
    obtain ⟨e', he'⟩ := computeMerkle_error hc he
    rw [he'] at hok
    cases hok
  · intro henc
    obtain ⟨cache', hok, -⟩ := computeMerkle_ok hc fun type =>
      freshLeaves_of_encodable blake3 hb hlog (henc type) (log.listSegmentDays type)
    exact ⟨_, cache', hok, fun type => rfl⟩

end Stored

/-! ## Appending a batch -/

section Append
variable {bridge : WireBridge} {blake3 : Bytes → Bytes} {log : OpLog} {type : CrdtType} {day : JsString} {batch : Bytes}
  {ops : List WireOp}

theorem split_append_frame {bytes : Bytes} (hclean : (split varintPrefix bytes).kind = .clean)
    (hlen : batch.length < 2 ^ 32) : split varintPrefix (bytes ++ frameBytes batch) =
      ⟨(split varintPrefix bytes).frames ++ [⟨encodeVarint batch.length, batch⟩], [], .clean⟩ := by
  have hframe := split_frameBytes hlen []
  rw [List.append_nil] at hframe
  rw [split_append varintPrefix bytes _ hclean, hframe]
  rfl

theorem intact_append {decode : Bytes → Option (List WireOp)} {bytes : Bytes} (h : Intact decode bytes)
    (hlen : batch.length < 2 ^ 32) (hdec : decode batch = some ops) : Intact decode (bytes ++ frameBytes batch) := by
  have hsplit := split_append_frame h.1 hlen
  refine ⟨by rw [hsplit], fun f hf => ?_⟩
  rw [hsplit, List.mem_append, List.mem_singleton] at hf
  rcases hf with hf | rfl
  · exact h.2 f hf
  · simp [hdec]

theorem wellStored_append (h : WellStored bridge log) (hlen : batch.length < 2 ^ 32)
    (hdec : bridge.decode batch = some ops) (m : Rat) :
    WellStored bridge (log.appendToFile type day (frameBytes batch) m) := by
  intro type' day'
  rw [OpLog.bytes_appendToFile]
  split
  · exact intact_append (h type' day') hlen hdec
  · rw [List.append_nil]
    exact h type' day'

theorem storedOps_append (h : WellStored bridge log) (hlen : batch.length < 2 ^ 32)
    (hdec : bridge.decode batch = some ops) (m : Rat) (type' : CrdtType) (day' : JsString) :
    storedOps bridge (log.appendToFile type day (frameBytes batch) m) type' day' =
      storedOps bridge log type' day' ++ if type = type' ∧ day = day' then ops else [] := by
  simp only [storedOps, OpLog.bytes_appendToFile]
  split
  · rw [split_append_frame (h type' day').1 hlen, List.flatMap_append]
    simp [hdec]
  · rw [List.append_nil, List.append_nil]

/-- A longer file has no entry of its size. -/
theorem coherent_append {cache : MerkleCache} (hc : Coherent bridge blake3 log cache) (m : Rat) :
    Coherent bridge blake3 (log.appendToFile type day (frameBytes batch) m) cache := by
  intro type' day' e he
  obtain ⟨f, hf, hle, hright⟩ := hc type' day' e he
  have hfile := OpLog.file_setFile log type type' day day' ⟨log.bytes type day ++ frameBytes batch, m⟩
  by_cases heq : type = type' ∧ day = day'
  · obtain ⟨rfl, rfl⟩ := heq
    have hbytes : log.bytes type day = f.bytes := by simp [OpLog.bytes, hf]
    have hpos := List.length_pos_iff.2 (encodeVarint_ne_nil batch.length)
    rw [if_pos ⟨rfl, rfl⟩] at hfile
    refine ⟨_, hfile, ?_, ?_⟩
    · rw [hbytes, List.length_append]
      omega
    · rw [hbytes, List.length_append, frameBytes, List.length_append]
      omega
  · rw [if_neg heq] at hfile
    refine ⟨f, hfile.trans hf, hle, fun hsize => ?_⟩
    obtain ⟨keys, hkeys, hhash⟩ := hright hsize
    refine ⟨keys, ?_, hhash⟩
    rw [← hkeys]
    simp only [OpLog.segmentCompositeKeys]
    rw [show (log.appendToFile type day (frameBytes batch) m).file type' day' = log.file type' day' from hfile]

end Append

/-! ## Segment bucketing -/

def WireOp.type : WireOp → CrdtType
  | .lww .. => .lww
  | .gsetObserve .. => .gset
  | .orAdd .. | .orRemove .. => .orset

/-- The op is of this type and its clock, an instant that has a date, falls on this day. -/
def WireOp.BelongsIn (op : WireOp) (type : CrdtType) (day : JsString) : Prop :=
  op.type = type ∧ (op.hlc.wallMs : Int) ≤ maxDateMs ∧ utcDate op.hlc.wallMs = day

instance (op : WireOp) (type : CrdtType) (day : JsString) : Decidable (op.BelongsIn type day) :=
  inferInstanceAs (Decidable (_ ∧ _ ∧ _))

/-- Every stored op is in the segment it belongs in. -/
def Bucketed (bridge : WireBridge) (log : OpLog) : Prop :=
  ∀ type day, ∀ op ∈ storedOps bridge log type day, op.BelongsIn type day

/-- Every segment is whole frames. -/
def Framed (log : OpLog) : Prop := ∀ type day, (split varintPrefix (log.bytes type day)).kind = .clean

theorem framed_empty : Framed .empty := fun _ _ => rfl

section Append
variable {bridge : WireBridge} {log : OpLog} {type : CrdtType} {day : JsString} {batch : Bytes}

theorem framed_append (h : Framed log) (hlen : batch.length < 2 ^ 32) (m : Rat) :
    Framed (log.appendToFile type day (frameBytes batch) m) := by
  intro type' day'
  rw [OpLog.bytes_appendToFile]
  split
  · rw [split_append_frame (h type' day') hlen]
  · rw [List.append_nil]
    exact h type' day'

/-- The frames of a segment after a batch was appended to one. -/
theorem frames_append (h : Framed log) (hlen : batch.length < 2 ^ 32) (m : Rat) (type' : CrdtType) (day' : JsString) :
    (split varintPrefix ((log.appendToFile type day (frameBytes batch) m).bytes type' day')).bodies =
      (split varintPrefix (log.bytes type' day')).bodies ++ if type = type' ∧ day = day' then [batch] else [] := by
  rw [OpLog.bytes_appendToFile]
  split
  · rw [split_append_frame (h type' day') hlen]
    simp [Split.bodies]
  · rw [List.append_nil, List.append_nil]

theorem storedOps_eq (bridge : WireBridge) (log : OpLog) (type : CrdtType) (day : JsString) :
    storedOps bridge log type day =
      (split varintPrefix (log.bytes type day)).bodies.flatMap fun batch => (bridge.decode batch).getD [] := by
  rw [storedOps, Split.bodies, List.flatMap_map]

/-- The batch's ops come after those the segment holds. -/
theorem storedOps_append_batch (h : Framed log) (hlen : batch.length < 2 ^ 32) (m : Rat) (type' : CrdtType)
    (day' : JsString) : storedOps bridge (log.appendToFile type day (frameBytes batch) m) type' day' =
      storedOps bridge log type' day' ++ if type = type' ∧ day = day' then (bridge.decode batch).getD [] else [] := by
  rw [storedOps_eq, frames_append h hlen, List.flatMap_append, storedOps_eq]
  split <;> simp

/-- An append keeps the bucketing exactly when every op of its batch belongs where it goes. -/
theorem bucketed_append (h : Framed log) (hlen : batch.length < 2 ^ 32) (m : Rat) :
    Bucketed bridge (log.appendToFile type day (frameBytes batch) m) ↔
      Bucketed bridge log ∧ ∀ op ∈ (bridge.decode batch).getD [], op.BelongsIn type day := by
  constructor
  · intro hb
    constructor
    · intro type' day' op hop
      refine hb type' day' op ?_
      rw [storedOps_append_batch h hlen]
      exact List.mem_append_left _ hop
    · intro op hop
      refine hb type day op ?_
      rw [storedOps_append_batch h hlen, if_pos ⟨rfl, rfl⟩]
      exact List.mem_append_right _ hop
  · rintro ⟨hb, hnew⟩ type' day' op hop
    rw [storedOps_append_batch h hlen, List.mem_append] at hop
    rcases hop with hop | hop
    · exact hb type' day' op hop
    · split at hop
      case isTrue heq =>
        obtain ⟨rfl, rfl⟩ := heq
        exact hnew op hop
      case isFalse => cases hop

end Append

/-- An instant that has a date fits a key, and the decoder's counters do. -/
theorem encodable_of_bucketed {brotli : Native.Brotli} {text : NumberText} {log : OpLog}
    (h : Bucketed (nativeBridge brotli text) log) (type : CrdtType) (day : JsString) :
    ∀ op ∈ storedOps (nativeBridge brotli text) log type day, op.hlc.Encodable := by
  intro op hop
  have hdate := (h type day op hop).2.1
  rw [storedOps_eq] at hop
  obtain ⟨batch, -, hop⟩ := List.mem_flatMap.1 hop
  cases hdec : (nativeBridge brotli text).decode batch with
  | none =>
    rw [hdec] at hop
    cases hop
  | some ops =>
    rw [hdec, Option.getD_some] at hop
    refine (encodable_of_decode hdec hop).2 ?_
    simp only [maxDateMs] at hdate
    simp only [maxSafeInteger]
    omega

end Hayven.Crdt
