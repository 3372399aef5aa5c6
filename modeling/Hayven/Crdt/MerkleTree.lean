import Hayven.Crdt.Merkle
import Hayven.Lib.HashTree
/-!
# What equal roots say

Two logs, each with its ops in the segments they belong in, whose roots for a type are
equal hold the same op keys in every segment of the type. `blake3` has outputs of 32
bytes and no collision among the strings that the two snapshots hash.
-/
open Hayven.Lib

namespace Hayven.Crdt

/-! ## What a snapshot hashes -/

/-- The lowest level of the tree. -/
def leafLevel (leaves : List SegmentLeaf) : List Bytes := (sortWith compare (leaves.map SegmentLeaf.hash)).map hexToBytes

/-- The strings hashed for one type. -/
def typeInputs (bridge : WireBridge) (blake3 : Bytes → Bytes) (log : OpLog) (type : CrdtType) : List Bytes :=
  let level := leafLevel (exactLeaves bridge blake3 log type)
  (log.listSegmentDays type).map (fun day => leafInput (segmentKeys bridge log type day)) ++
    (HashTree.reducePairs (combine blake3) level.length level).map fun p => nodeInput p.1 p.2

def snapshotInputs (bridge : WireBridge) (blake3 : Bytes → Bytes) (log : OpLog) : List Bytes :=
  [leafTag] :: [nodeTag] :: crdtTypes.flatMap (typeInputs bridge blake3 log)

/-- No two of the strings have one hash. -/
def NoCollision (blake3 : Bytes → Bytes) (xs : List Bytes) : Prop := ∀ a ∈ xs, ∀ b ∈ xs, blake3 a = blake3 b → a = b

instance (blake3 : Bytes → Bytes) (xs : List Bytes) : Decidable (NoCollision blake3 xs) :=
  inferInstanceAs (Decidable (∀ a ∈ xs, _))

theorem NoCollision.left {blake3 : Bytes → Bytes} {xs ys : List Bytes} (h : NoCollision blake3 (xs ++ ys)) :
    NoCollision blake3 xs :=
  fun a ha b hb => h a (List.mem_append_left _ ha) b (List.mem_append_left _ hb)

theorem NoCollision.symm {blake3 : Bytes → Bytes} {xs ys : List Bytes} (h : NoCollision blake3 (xs ++ ys)) :
    NoCollision blake3 (ys ++ xs) :=
  fun a ha b hb => h a (List.mem_append.2 (List.mem_append.1 ha).symm) b (List.mem_append.2 (List.mem_append.1 hb).symm)

/-! ## Inputs are told apart -/

theorem nodeInput_inj {n : Nat} {a b c d : Bytes} (ha : a.length = n) (hb : b.length = n) (hc : c.length = n)
    (hd : d.length = n) (h : nodeInput a b = nodeInput c d) : s(a, b) = s(c, d) := by
  have h' := (List.cons.inj h).2
  rw [Sym2.eq_iff]
  split at h' <;> split at h'
  all_goals
    obtain ⟨h₁, h₂⟩ := List.append_inj h' (by omega)
    subst h₁ h₂
    simp

theorem leafInput_ne_nodeInput (keys : List JsString) (a b : Bytes) : leafInput keys ≠ nodeInput a b :=
  fun h => absurd (List.cons.inj h).1 (by decide)

/-- Pieces of one positive length can be cut apart again. -/
theorem map_eq_of_flatMap_eq {α : Type} {f : α → Bytes} {n : Nat} (hn : 0 < n) {l l' : List α}
    (hl : ∀ a ∈ l, (f a).length = n) (hl' : ∀ a ∈ l', (f a).length = n) (h : l.flatMap f = l'.flatMap f) :
    l.map f = l'.map f := by
  induction l generalizing l' with
  | nil =>
    cases l' with
    | nil => rfl
    | cons b rest =>
      have hb := hl' b List.mem_cons_self
      have hlen := congrArg List.length h
      simp only [List.flatMap_nil, List.flatMap_cons, List.length_append, List.length_nil] at hlen
      omega
  | cons a l ih =>
    have ha := hl a List.mem_cons_self
    cases l' with
    | nil =>
      have hlen := congrArg List.length h
      simp only [List.flatMap_nil, List.flatMap_cons, List.length_append, List.length_nil] at hlen
      omega
    | cons b rest =>
      have hb := hl' b List.mem_cons_self
      rw [List.flatMap_cons, List.flatMap_cons] at h
      obtain ⟨hhead, htail⟩ := List.append_inj h (by omega)
      have hrest := ih (fun c hc => hl c (List.mem_cons_of_mem _ hc)) (fun c hc => hl' c (List.mem_cons_of_mem _ hc)) htail
      rw [List.map_cons, List.map_cons, hhead, hrest]

section Keys
variable {bridge : WireBridge} {log : OpLog}

theorem mem_segmentKeys {type : CrdtType} {day : JsString} {k : JsString} :
    k ∈ segmentKeys bridge log type day ↔ ∃ op ∈ storedOps bridge log type day, keyHex op.key = k := by
  rw [segmentKeys, sortedKeys, mem_sortWith, List.mem_dedup, List.mem_map]

theorem segmentKeys_eq_nil {type : CrdtType} {day : JsString} :
    segmentKeys bridge log type day = [] ↔ storedOps bridge log type day = [] := by
  simp only [List.eq_nil_iff_forall_not_mem, mem_segmentKeys]
  constructor
  · intro h op hop
    exact h _ ⟨op, hop, rfl⟩
  · rintro h k ⟨op, hop, -⟩
    exact h op hop

/-- Segments with the same keys list them the same. -/
theorem segmentKeys_congr {log' : OpLog} {type type' : CrdtType} {day day' : JsString}
    (h : ∀ k, k ∈ segmentKeys bridge log type day ↔ k ∈ segmentKeys bridge log' type' day') :
    segmentKeys bridge log type day = segmentKeys bridge log' type' day' := by
  simp only [segmentKeys, sortedKeys, mem_sortWith] at h ⊢
  refine sortWith_congr compare ((List.perm_ext_iff_of_nodup (List.nodup_dedup _) (List.nodup_dedup _)).2 h) ?_
  exact fun a _ b _ hab => Std.LawfulEqCmp.eq_of_compare hab

/-- A key as bytes, and back. -/
theorem hexToBytes_key {type : CrdtType} {day : JsString} {k : JsString} (hk : k ∈ segmentKeys bridge log type day) :
    (hexToBytes k).length = compositeBytes ∧ bytesToHex (hexToBytes k) = k := by
  obtain ⟨op, -, rfl⟩ := mem_segmentKeys.1 hk
  rw [keyHex, hexToBytes_bytesToHex]
  exact ⟨length_compositeCode _ _, rfl⟩

theorem leafInput_inj {log' : OpLog} {type type' : CrdtType} {day day' : JsString}
    (h : leafInput (segmentKeys bridge log type day) = leafInput (segmentKeys bridge log' type' day')) :
    segmentKeys bridge log type day = segmentKeys bridge log' type' day' := by
  have hmap := map_eq_of_flatMap_eq (by decide : 0 < compositeBytes) (fun k hk => (hexToBytes_key hk).1)
    (fun k hk => (hexToBytes_key hk).1) (List.cons.inj h).2
  have hback : ∀ l : List JsString, (∀ k ∈ l, bytesToHex (hexToBytes k) = k) → (l.map hexToBytes).map bytesToHex = l := by
    intro l hl
    rw [List.map_map]
    exact (List.map_congr_left hl).trans (List.map_id _)
  rw [← hback _ fun k hk => (hexToBytes_key hk).2, hmap, hback _ fun k hk => (hexToBytes_key hk).2]

/-- Two segments that share a key are of one day, if the ops are where they belong. -/
theorem day_eq_of_key {log' : OpLog} (hlog : Bucketed bridge log) (hlog' : Bucketed bridge log')
    (henc : ∀ type day, ∀ op ∈ storedOps bridge log type day, op.hlc.Encodable)
    (henc' : ∀ type day, ∀ op ∈ storedOps bridge log' type day, op.hlc.Encodable) {type type' : CrdtType}
    {day day' : JsString} {k : JsString} (hk : k ∈ segmentKeys bridge log type day)
    (hk' : k ∈ segmentKeys bridge log' type' day') : day = day' := by
  obtain ⟨op, hop, hkey⟩ := mem_segmentKeys.1 hk
  obtain ⟨op', hop', hkey'⟩ := mem_segmentKeys.1 hk'
  have heq := keyHex_inj (henc _ _ op hop) (henc' _ _ op' hop') (hkey.trans hkey'.symm)
  have hhlc : op.hlc = op'.hlc := congrArg Prod.fst heq
  rw [← (hlog _ _ op hop).2.2, ← (hlog' _ _ op' hop').2.2, hhlc]

end Keys

/-! ## Leaves -/

section Leaves
variable {bridge : WireBridge} {blake3 : Bytes → Bytes} {log : OpLog} {type : CrdtType}

theorem mem_exactLeaves {l : SegmentLeaf} : l ∈ exactLeaves bridge blake3 log type ↔
    l.path ∈ log.listSegmentDays type ∧ l.hash = leafHash blake3 (segmentKeys bridge log type l.path) ∧
      l.hash ≠ emptyLeafHex blake3 := by
  simp only [exactLeaves, List.mem_filter, List.mem_map, decide_eq_true_eq]
  constructor
  · rintro ⟨⟨day, hday, rfl⟩, hne⟩
    exact ⟨hday, rfl, hne⟩
  · rintro ⟨hday, hhash, hne⟩
    exact ⟨⟨l.path, hday, by rw [← hhash]⟩, hne⟩

theorem leafHash_ne_empty {keys : List JsString} (h : leafHash blake3 keys ≠ emptyLeafHex blake3) : keys ≠ [] :=
  fun hnil => h (by rw [hnil]; rfl)

theorem mem_listSegmentDays_of_key {day : JsString} (h : segmentKeys bridge log type day ≠ []) :
    day ∈ log.listSegmentDays type := by
  rw [ne_eq, segmentKeys_eq_nil] at h
  obtain ⟨op, hop⟩ := List.exists_mem_of_ne_nil _ h
  exact mem_listSegmentDays hop

theorem mem_crdtTypes (type : CrdtType) : type ∈ crdtTypes := by cases type <;> decide

theorem mem_snapshotInputs {x : Bytes} (h : x ∈ typeInputs bridge blake3 log type) :
    x ∈ snapshotInputs bridge blake3 log :=
  List.mem_cons_of_mem _ (List.mem_cons_of_mem _ (List.mem_flatMap.2 ⟨type, mem_crdtTypes type, h⟩))

theorem leafInput_mem {day : JsString} (h : day ∈ log.listSegmentDays type) :
    leafInput (segmentKeys bridge log type day) ∈ snapshotInputs bridge blake3 log :=
  mem_snapshotInputs (List.mem_append_left _ (List.mem_map.2 ⟨day, h, rfl⟩))

theorem leafTag_mem : [leafTag] ∈ snapshotInputs bridge blake3 log := List.mem_cons_self

theorem nodeTag_mem : [nodeTag] ∈ snapshotInputs bridge blake3 log := List.mem_cons_of_mem _ List.mem_cons_self

theorem listSegmentDays_nodup (log : OpLog) (type : CrdtType) : (log.listSegmentDays type).Nodup :=
  (sortWith_perm _ _).nodup_iff.2 (log.dir type).nodup

theorem exactLeaves_paths_nodup : ((exactLeaves bridge blake3 log type).map SegmentLeaf.path).Nodup := by
  have hsub : ((exactLeaves bridge blake3 log type).map SegmentLeaf.path).Sublist (log.listSegmentDays type) := by
    have hfilter := (List.filter_sublist (l := (log.listSegmentDays type).map fun day =>
      (⟨day, leafHash blake3 (segmentKeys bridge log type day)⟩ : SegmentLeaf))
      (p := fun l => l.hash ≠ emptyLeafHex blake3)).map SegmentLeaf.path
    rw [List.map_map] at hfilter
    have hid : (SegmentLeaf.path ∘ fun day => (⟨day, leafHash blake3 (segmentKeys bridge log type day)⟩ : SegmentLeaf)) =
      id := rfl
    rw [hid, List.map_id] at hfilter
    exact hfilter
  exact hsub.nodup (listSegmentDays_nodup log type)

/-- The leaves depend on the keys of the segments only. -/
theorem exactLeaves_congr {log' : OpLog}
    (h : ∀ day, segmentKeys bridge log type day = segmentKeys bridge log' type day) :
    exactLeaves bridge blake3 log type = exactLeaves bridge blake3 log' type := by
  have hsorted : ∀ log : OpLog, (exactLeaves bridge blake3 log type).Pairwise
      fun l l' => (compare l.path l'.path).isLE = true := by
    intro log
    refine List.Pairwise.filter _ ?_
    rw [List.pairwise_map]
    exact sortWith_pairwise compare (log.dir type).keys
  have hnodup : ∀ log : OpLog, (exactLeaves bridge blake3 log type).Nodup := fun log =>
    List.Nodup.of_map _ exactLeaves_paths_nodup
  have hmem : ∀ l, l ∈ exactLeaves bridge blake3 log type ↔ l ∈ exactLeaves bridge blake3 log' type := by
    have hsub : ∀ (x y : OpLog), (∀ day, segmentKeys bridge x type day = segmentKeys bridge y type day) → ∀ l,
        l ∈ exactLeaves bridge blake3 x type → l ∈ exactLeaves bridge blake3 y type := by
      intro x y hxy l hl
      obtain ⟨hday, hhash, hne⟩ := mem_exactLeaves.1 hl
      rw [hxy] at hhash
      rw [hhash] at hne
      exact mem_exactLeaves.2 ⟨mem_listSegmentDays_of_key (leafHash_ne_empty hne), hhash, hhash ▸ hne⟩
    exact fun l => ⟨hsub _ _ h l, hsub _ _ (fun day => (h day).symm) l⟩
  refine List.Perm.eq_of_pairwise ?_ (hsorted log) (hsorted log')
    ((List.perm_ext_iff_of_nodup (hnodup log) (hnodup log')).2 hmem)
  intro a b ha hb hab hba
  have hpath : a.path = b.path := Std.LawfulEqCmp.eq_of_compare (Std.OrientedCmp.isLE_antisymm hab hba)
  have hhash := (mem_exactLeaves.1 ha).2.1
  have hhash' := (mem_exactLeaves.1 hb).2.1
  cases a
  cases b
  simp only at hpath hhash hhash'
  subst hpath
  rw [hhash, hhash', h]

end Leaves

/-! ## Roots -/

theorem nextLevel_eq (blake3 : Bytes → Bytes) (level : List Bytes) :
    nextLevel blake3 level = HashTree.pairValues (combine blake3) level := by
  induction level using HashTree.pairValues.induct with
  | case1 => rfl
  | case2 a => rfl
  | case3 a b rest ih => rw [nextLevel, ih, HashTree.pairValues]

theorem climb_eq (blake3 : Bytes → Bytes) (fuel : Nat) (level : List Bytes) :
    climb blake3 fuel level = (HashTree.reduce (combine blake3) fuel level).getD [] := by
  induction fuel generalizing level with
  | zero => cases level <;> rfl
  | succ fuel ih =>
    match level with
    | [] => rfl
    | [_] => rfl
    | a :: b :: rest => rw [climb, ih, nextLevel_eq, HashTree.reduce]

section Roots
variable {bridge : WireBridge} {blake3 : Bytes → Bytes}

theorem leafLevel_ne_nil {leaves : List SegmentLeaf} (h : leaves ≠ []) : leafLevel leaves ≠ [] := by
  rw [leafLevel, ne_eq, List.map_eq_nil_iff, sortWith_eq_nil, List.map_eq_nil_iff]
  exact h

/-- The entries of the lowest level are the hashes of the nonempty segments. -/
theorem mem_leafLevel {log : OpLog} {type : CrdtType} {v : Bytes} :
    v ∈ leafLevel (exactLeaves bridge blake3 log type) ↔ ∃ day ∈ log.listSegmentDays type,
      v = blake3 (leafInput (segmentKeys bridge log type day)) ∧
        leafHash blake3 (segmentKeys bridge log type day) ≠ emptyLeafHex blake3 := by
  simp only [leafLevel, List.mem_map, mem_sortWith]
  constructor
  · rintro ⟨h, ⟨l, hl, rfl⟩, rfl⟩
    obtain ⟨hday, hhash, hne⟩ := mem_exactLeaves.1 hl
    refine ⟨l.path, hday, ?_, hhash ▸ hne⟩
    rw [hhash, leafHash, hexToBytes_bytesToHex]
  · rintro ⟨day, hday, rfl, hne⟩
    refine ⟨_, ⟨⟨day, leafHash blake3 (segmentKeys bridge log type day)⟩, mem_exactLeaves.2 ⟨hday, rfl, hne⟩, rfl⟩, ?_⟩
    rw [leafHash, hexToBytes_bytesToHex]

/-- The root of a type that has leaves is the hash of a leaf or of a node below it. -/
theorem rootOf_cases {log : OpLog} {type : CrdtType} (h : exactLeaves bridge blake3 log type ≠ []) :
    let level := leafLevel (exactLeaves bridge blake3 log type)
    ∃ v, HashTree.reduce (combine blake3) level.length level = some v ∧
      rootOf blake3 (exactLeaves bridge blake3 log type) = bytesToHex v ∧
      (v ∈ level ∨ ∃ p ∈ HashTree.reducePairs (combine blake3) level.length level, v = combine blake3 p.1 p.2) := by
  intro level
  obtain ⟨v, hv, hcases⟩ := HashTree.reduce_cases (f := combine blake3) (leafLevel_ne_nil h) (Nat.le_succ level.length)
  refine ⟨v, hv, ?_, hcases⟩
  have hlen : (exactLeaves bridge blake3 log type).length ≠ 0 := by
    rw [ne_eq, List.length_eq_zero_iff]
    exact h
  rw [rootOf, if_neg hlen]
  show bytesToHex (climb blake3 level.length level) = _
  rw [climb_eq, hv, Option.getD_some]

variable {x y : OpLog} {type : CrdtType}

/-- A segment with keys has a leaf. -/
theorem leafHash_ne_emptyLeafHex (hcol : NoCollision blake3 (snapshotInputs bridge blake3 x)) {day : JsString}
    (h : segmentKeys bridge x type day ≠ []) : leafHash blake3 (segmentKeys bridge x type day) ≠ emptyLeafHex blake3 := by
  intro heq
  have hinput := hcol _ (leafInput_mem (mem_listSegmentDays_of_key h)) _ leafTag_mem (bytesToHex_inj.1 heq)
  obtain ⟨k, hk⟩ := List.exists_mem_of_ne_nil _ h
  have hnil := List.flatMap_eq_nil_iff.1 (List.cons.inj hinput).2 k hk
  have hlen := (hexToBytes_key hk).1
  rw [hnil] at hlen
  cases hlen

/-- A leaf hash that the other log has too stands for the same keys on the same day. -/
theorem segmentKeys_eq_of_leaf (hx : Bucketed bridge x) (hy : Bucketed bridge y)
    (hex : ∀ type day, ∀ op ∈ storedOps bridge x type day, op.hlc.Encodable)
    (hey : ∀ type day, ∀ op ∈ storedOps bridge y type day, op.hlc.Encodable)
    (hcol : NoCollision blake3 (snapshotInputs bridge blake3 x ++ snapshotInputs bridge blake3 y))
    (hsub : ∀ v ∈ leafLevel (exactLeaves bridge blake3 x type), v ∈ leafLevel (exactLeaves bridge blake3 y type))
    {day : JsString} (h : segmentKeys bridge x type day ≠ []) :
    segmentKeys bridge x type day = segmentKeys bridge y type day := by
  have hday := mem_listSegmentDays_of_key h
  have hleaf := mem_leafLevel.2 ⟨day, hday, rfl, leafHash_ne_emptyLeafHex hcol.left h⟩
  obtain ⟨day', hday', heq, -⟩ := mem_leafLevel.1 (hsub _ hleaf)
  have hinput := hcol _ (List.mem_append_left _ (leafInput_mem hday)) _ (List.mem_append_right _ (leafInput_mem hday')) heq
  have hkeys := leafInput_inj hinput
  obtain ⟨k, hk⟩ := List.exists_mem_of_ne_nil _ h
  have hsame := day_eq_of_key hx hy hex hey hk (hkeys ▸ hk)
  rw [hkeys, hsame]

variable (hlen32 : ∀ x, (blake3 x).length = 32)
include hlen32

theorem length_of_mem_leafLevel {v : Bytes} (h : v ∈ leafLevel (exactLeaves bridge blake3 x type)) :
    v.length = 32 := by
  obtain ⟨day, -, rfl, -⟩ := mem_leafLevel.1 h
  exact hlen32 _

theorem length_of_mem_pairs {n : Nat} {p : Bytes × Bytes}
    (hp : p ∈ HashTree.reducePairs (combine blake3) n (leafLevel (exactLeaves bridge blake3 x type))) :
    p.1.length = 32 ∧ p.2.length = 32 :=
  HashTree.forall_reducePairs (P := fun v => v.length = 32) (fun _ _ => hlen32 _)
    (fun _ hv => length_of_mem_leafLevel hlen32 hv) p hp

/-- The root of no leaves is no other root. -/
theorem rootOf_ne_empty (hcol : NoCollision blake3 (snapshotInputs bridge blake3 x))
    (h : exactLeaves bridge blake3 x type ≠ []) :
    rootOf blake3 (exactLeaves bridge blake3 x type) ≠ emptyRootHex blake3 := by
  obtain ⟨v, -, hroot, hcases⟩ := rootOf_cases h
  rw [hroot, emptyRootHex, ne_eq, bytesToHex_inj]
  rintro rfl
  rcases hcases with hleaf | ⟨p, hp, heq⟩
  · obtain ⟨day, hday, heq, -⟩ := mem_leafLevel.1 hleaf
    have hinput := hcol _ nodeTag_mem _ (leafInput_mem hday) heq
    exact absurd (List.cons.inj hinput).1 (by decide)
  · have hmem := mem_snapshotInputs (List.mem_append_right _ (List.mem_map.2 ⟨p, hp, rfl⟩))
    have hinput := hcol _ nodeTag_mem _ hmem heq
    obtain ⟨h₁, h₂⟩ := length_of_mem_pairs hlen32 hp
    have hsize := congrArg List.length hinput
    rw [nodeInput] at hsize
    split at hsize <;> simp [h₁, h₂] at hsize

/-- Equal roots come from equal leaf hashes. -/
theorem leafLevel_perm (hcol : NoCollision blake3 (snapshotInputs bridge blake3 x ++ snapshotInputs bridge blake3 y))
    (h : rootOf blake3 (exactLeaves bridge blake3 x type) = rootOf blake3 (exactLeaves bridge blake3 y type)) :
    (leafLevel (exactLeaves bridge blake3 x type)).Perm (leafLevel (exactLeaves bridge blake3 y type)) := by
  by_cases hx : exactLeaves bridge blake3 x type = []
  · by_cases hy : exactLeaves bridge blake3 y type = []
    · rw [hx, hy]
    · rw [hx] at h
      exact absurd h.symm (rootOf_ne_empty hlen32 hcol.symm.left hy)
  · by_cases hy : exactLeaves bridge blake3 y type = []
    · rw [hy] at h
      exact absurd h (rootOf_ne_empty hlen32 hcol.left hx)
    · obtain ⟨v, hv, hroot, -⟩ := rootOf_cases hx
      obtain ⟨w, hw, hroot', -⟩ := rootOf_cases hy
      rw [hroot, hroot', bytesToHex_inj] at h
      refine HashTree.perm_of_reduce_eq (leafLevel_ne_nil hx) (leafLevel_ne_nil hy) (Nat.le_succ _) (Nat.le_succ _)
        ?_ ?_ ?_ (by rw [hv, hw, h])
      -- two nodes
      · intro p hp q hq heq
        have hp' := mem_snapshotInputs (List.mem_append_right _ (List.mem_map.2 ⟨p, hp, rfl⟩))
        have hq' := mem_snapshotInputs (List.mem_append_right _ (List.mem_map.2 ⟨q, hq, rfl⟩))
        obtain ⟨hp₁, hp₂⟩ := length_of_mem_pairs hlen32 hp
        obtain ⟨hq₁, hq₂⟩ := length_of_mem_pairs hlen32 hq
        exact nodeInput_inj hp₁ hp₂ hq₁ hq₂
          (hcol _ (List.mem_append_left _ hp') _ (List.mem_append_right _ hq') heq)
      -- a leaf of the one and a node of the other
      · intro a ha q hq heq
        obtain ⟨day, hday, rfl, -⟩ := mem_leafLevel.1 ha
        have hq' := mem_snapshotInputs (List.mem_append_right _ (List.mem_map.2 ⟨q, hq, rfl⟩))
        exact leafInput_ne_nodeInput _ _ _
          (hcol _ (List.mem_append_left _ (leafInput_mem hday)) _ (List.mem_append_right _ hq') heq)
      · intro p hp b hb heq
        obtain ⟨day, hday, rfl, -⟩ := mem_leafLevel.1 hb
        have hp' := mem_snapshotInputs (List.mem_append_right _ (List.mem_map.2 ⟨p, hp, rfl⟩))
        exact leafInput_ne_nodeInput _ _ _
          (hcol _ (List.mem_append_right _ (leafInput_mem hday)) _ (List.mem_append_left _ hp') heq.symm)

/-- Equal roots of two bucketed logs: the segments of the type hold the same keys. -/
theorem segmentKeys_eq_of_rootOf_eq (hx : Bucketed bridge x) (hy : Bucketed bridge y)
    (hex : ∀ type day, ∀ op ∈ storedOps bridge x type day, op.hlc.Encodable)
    (hey : ∀ type day, ∀ op ∈ storedOps bridge y type day, op.hlc.Encodable)
    (hcol : NoCollision blake3 (snapshotInputs bridge blake3 x ++ snapshotInputs bridge blake3 y))
    (h : rootOf blake3 (exactLeaves bridge blake3 x type) = rootOf blake3 (exactLeaves bridge blake3 y type))
    (day : JsString) : segmentKeys bridge x type day = segmentKeys bridge y type day := by
  have hperm := leafLevel_perm hlen32 hcol h
  by_cases hkeys : segmentKeys bridge x type day = []
  · by_contra hne
    have hkeys' : segmentKeys bridge y type day ≠ [] := fun hnil => hne (hkeys.trans hnil.symm)
    exact hne (segmentKeys_eq_of_leaf hy hx hey hex hcol.symm (fun v hv => hperm.symm.subset hv) hkeys').symm
  · exact segmentKeys_eq_of_leaf hx hy hex hey hcol (fun v hv => hperm.subset hv) hkeys

end Roots

end Hayven.Crdt
