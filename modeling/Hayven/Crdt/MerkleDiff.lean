import Hayven.Crdt.MerkleTree
/-!
# What a diff asks for

The targets of `diffSnapshots` between the snapshots of two logs: each segment at most
once, to pull where the peer has ops and ours are not the same, to push where the peer
has none.
-/
open Hayven.Lib

namespace Hayven.Crdt

/-- The snapshot that the stored ops determine. -/
def exactSnapshot (bridge : WireBridge) (blake3 : Bytes → Bytes) (log : OpLog) : MerkleSnapshot :=
  ⟨fun type => rootOf blake3 (exactLeaves bridge blake3 log type), exactLeaves bridge blake3 log⟩

/-! ## Targets -/

theorem get_foldl_set {leaves : List SegmentLeaf} (hnd : (leaves.map SegmentLeaf.path).Nodup)
    (m : KeyedMap JsString JsString) (path : JsString) :
    (leaves.foldl (fun m l => m.set l.path l.hash) m).get path =
      ((leaves.find? fun l => l.path = path).map SegmentLeaf.hash).or (m.get path) := by
  induction leaves generalizing m with
  | nil => rfl
  | cons l rest ih =>
    obtain ⟨hnot, hnd⟩ := List.nodup_cons.1 hnd
    rw [List.foldl_cons, ih hnd, KeyedMap.get_set, List.find?_cons]
    by_cases hl : l.path = path
    · have hnone : rest.find? (fun l => l.path = path) = none := by
        rw [List.find?_eq_none]
        intro l' hl' heq
        rw [decide_eq_true_eq] at heq
        exact hnot (List.mem_map.2 ⟨l', hl', heq.trans hl.symm⟩)
      simp [hl, hnone]
    · simp [hl]

theorem get_byPath {leaves : List SegmentLeaf} (hnd : (leaves.map SegmentLeaf.path).Nodup) {path hash : JsString} :
    (byPath leaves).get path = some hash ↔ ⟨path, hash⟩ ∈ leaves := by
  rw [byPath, get_foldl_set hnd, KeyedMap.get_empty, Option.or_none, Option.map_eq_some_iff]
  constructor
  · rintro ⟨l, hl, rfl⟩
    have hpath := List.find?_some hl
    rw [decide_eq_true_eq] at hpath
    rw [← hpath]
    exact List.mem_of_find?_eq_some hl
  · intro hmem
    cases hf : leaves.find? fun l => l.path = path with
    | none => exact absurd (List.find?_eq_none.1 hf _ hmem) (by simp)
    | some l =>
      have hpath := List.find?_some hf
      rw [decide_eq_true_eq] at hpath
      have heq := List.inj_on_of_nodup_map hnd (List.mem_of_find?_eq_some hf) hmem hpath
      exact ⟨l, rfl, by rw [heq]⟩

theorem mem_byPath {leaves : List SegmentLeaf} (hnd : (leaves.map SegmentLeaf.path).Nodup) {p : JsString × JsString} :
    p ∈ (byPath leaves).entries ↔ ⟨p.1, p.2⟩ ∈ leaves := by
  rw [← get_byPath hnd, KeyedMap.get_eq_some]

/-- Where a target is. -/
def Target.place (t : Target) : CrdtType × JsString := (t.type, t.path)

section Diff
variable {ours theirs : MerkleSnapshot} (ho : ∀ type, ((ours.leaves type).map SegmentLeaf.path).Nodup)
  (ht : ∀ type, ((theirs.leaves type).map SegmentLeaf.path).Nodup)
include ho ht

theorem mem_pull {t : Target} : t ∈ (diffSnapshots ours theirs).pull ↔
    ⟨t.path, t.hash⟩ ∈ theirs.leaves t.type ∧ ⟨t.path, t.hash⟩ ∉ ours.leaves t.type := by
  simp only [diffSnapshots, pullTargets, List.mem_flatMap, List.mem_map, List.mem_filter, decide_eq_true_eq,
    mem_byPath (ht _), ne_eq, get_byPath (ho _)]
  constructor
  · rintro ⟨type, -, p, ⟨hin, hout⟩, rfl⟩
    exact ⟨hin, hout⟩
  · rintro ⟨hin, hout⟩
    exact ⟨t.type, mem_crdtTypes t.type, (t.path, t.hash), ⟨hin, hout⟩, rfl⟩

theorem mem_push {t : Target} : t ∈ (diffSnapshots ours theirs).push ↔
    ⟨t.path, t.hash⟩ ∈ ours.leaves t.type ∧ ∀ hash, ⟨t.path, hash⟩ ∉ theirs.leaves t.type := by
  have hhas : ∀ type path, (byPath (theirs.leaves type)).has path = false ↔
      ∀ hash, (⟨path, hash⟩ : SegmentLeaf) ∉ theirs.leaves type := by
    intro type path
    rw [KeyedMap.has]
    cases hg : (byPath (theirs.leaves type)).get path with
    | none =>
      refine iff_of_true rfl fun hash hmem => ?_
      rw [← get_byPath (ht type), hg] at hmem
      cases hmem
    | some hash =>
      refine iff_of_false (by simp) fun hall => hall hash ((get_byPath (ht type)).1 hg)
  simp only [diffSnapshots, pushTargets, List.mem_flatMap, List.mem_map, List.mem_filter, Bool.not_eq_true', hhas,
    mem_byPath (ho _)]
  constructor
  · rintro ⟨type, -, p, ⟨hin, hout⟩, rfl⟩
    exact ⟨hin, hout⟩
  · rintro ⟨hin, hout⟩
    exact ⟨t.type, mem_crdtTypes t.type, (t.path, t.hash), ⟨hin, hout⟩, rfl⟩

end Diff

/-- Targets of the three types, each type's with distinct paths. -/
theorem nodup_places {f : CrdtType → List Target} (htype : ∀ type, ∀ t ∈ f type, t.type = type)
    (hpath : ∀ type, ((f type).map Target.path).Nodup) : ((crdtTypes.flatMap f).map Target.place).Nodup := by
  rw [List.map_flatMap, List.nodup_flatMap]
  refine ⟨fun type _ => ?_, ?_⟩
  · have hcomp : ((f type).map Target.place).map Prod.snd = (f type).map Target.path := by
      rw [List.map_map]
      rfl
    exact List.Nodup.of_map Prod.snd (hcomp ▸ hpath type)
  · have hnd : crdtTypes.Nodup := by decide
    refine hnd.imp fun {a b} hab x hx hy => ?_
    obtain ⟨t, ht, rfl⟩ := List.mem_map.1 hx
    obtain ⟨u, hu, heq⟩ := List.mem_map.1 hy
    exact hab ((htype a t ht).symm.trans ((congrArg Prod.fst heq).symm.trans (htype b u hu)))

theorem nodup_pull (ours theirs : MerkleSnapshot) : ((diffSnapshots ours theirs).pull.map Target.place).Nodup := by
  refine nodup_places (fun type t ht => ?_) fun type => ?_
  · obtain ⟨p, -, rfl⟩ := List.mem_map.1 ht
    rfl
  · rw [pullTargets, List.map_map]
    exact ((byPath (theirs.leaves type)).nodup.sublist (List.filter_sublist.map Prod.fst))

theorem nodup_push (ours theirs : MerkleSnapshot) : ((diffSnapshots ours theirs).push.map Target.place).Nodup := by
  refine nodup_places (fun type t ht => ?_) fun type => ?_
  · obtain ⟨p, -, rfl⟩ := List.mem_map.1 ht
    rfl
  · rw [pushTargets, List.map_map]
    exact ((byPath (ours.leaves type)).nodup.sublist (List.filter_sublist.map Prod.fst))

/-! ## Targets between two logs -/

/-- The peer's segment has ops, and not the ones of ours. -/
def Differs (bridge : WireBridge) (x y : OpLog) (type : CrdtType) (day : JsString) : Prop :=
  segmentKeys bridge y type day ≠ [] ∧ segmentKeys bridge x type day ≠ segmentKeys bridge y type day

/-- Our segment has ops and the peer's has none. -/
def Lacks (bridge : WireBridge) (x y : OpLog) (type : CrdtType) (day : JsString) : Prop :=
  segmentKeys bridge y type day = [] ∧ segmentKeys bridge x type day ≠ []

instance (bridge : WireBridge) (x y : OpLog) (type : CrdtType) (day : JsString) :
    Decidable (Differs bridge x y type day) := inferInstanceAs (Decidable (_ ∧ _))

instance (bridge : WireBridge) (x y : OpLog) (type : CrdtType) (day : JsString) :
    Decidable (Lacks bridge x y type day) := inferInstanceAs (Decidable (_ ∧ _))

section Logs
variable {bridge : WireBridge} {blake3 : Bytes → Bytes} {x y : OpLog}

theorem mem_exactLeaves_iff (hcol : NoCollision blake3 (snapshotInputs bridge blake3 x)) {type : CrdtType}
    {day hash : JsString} : ⟨day, hash⟩ ∈ exactLeaves bridge blake3 x type ↔
      segmentKeys bridge x type day ≠ [] ∧ hash = leafHash blake3 (segmentKeys bridge x type day) := by
  rw [mem_exactLeaves]
  constructor
  · rintro ⟨-, hhash, hne⟩
    exact ⟨leafHash_ne_empty (hhash ▸ hne), hhash⟩
  · rintro ⟨hkeys, rfl⟩
    exact ⟨mem_listSegmentDays_of_key hkeys, rfl, leafHash_ne_emptyLeafHex hcol hkeys⟩

variable (hcol : NoCollision blake3 (snapshotInputs bridge blake3 x ++ snapshotInputs bridge blake3 y))
include hcol

/-- Nonempty segments with one leaf hash have the same keys. -/
theorem segmentKeys_eq_of_leafHash_eq {type : CrdtType} {day : JsString} (hx : segmentKeys bridge x type day ≠ [])
    (hy : segmentKeys bridge y type day ≠ [])
    (h : leafHash blake3 (segmentKeys bridge x type day) = leafHash blake3 (segmentKeys bridge y type day)) :
    segmentKeys bridge x type day = segmentKeys bridge y type day :=
  leafInput_inj (hcol _ (List.mem_append_left _ (leafInput_mem (mem_listSegmentDays_of_key hx))) _
    (List.mem_append_right _ (leafInput_mem (mem_listSegmentDays_of_key hy))) (bytesToHex_inj.1 h))

theorem mem_pull_places {type : CrdtType} {day : JsString} : (type, day) ∈
    (diffSnapshots (exactSnapshot bridge blake3 x) (exactSnapshot bridge blake3 y)).pull.map Target.place ↔
      Differs bridge x y type day := by
  rw [List.mem_map]
  constructor
  · rintro ⟨t, ht, heq⟩
    cases heq
    obtain ⟨hin, hout⟩ := (mem_pull (fun _ => exactLeaves_paths_nodup) (fun _ => exactLeaves_paths_nodup)).1 ht
    obtain ⟨hkeys, hhash⟩ := (mem_exactLeaves_iff hcol.symm.left).1 hin
    refine ⟨hkeys, fun hsame => hout ?_⟩
    exact (mem_exactLeaves_iff hcol.left).2 ⟨hsame ▸ hkeys, by rw [hhash, hsame]⟩
  · rintro ⟨hkeys, hne⟩
    refine ⟨⟨type, day, leafHash blake3 (segmentKeys bridge y type day)⟩, ?_, rfl⟩
    refine (mem_pull (fun _ => exactLeaves_paths_nodup) (fun _ => exactLeaves_paths_nodup)).2 ⟨?_, fun hin => ?_⟩
    · exact (mem_exactLeaves_iff hcol.symm.left).2 ⟨hkeys, rfl⟩
    · obtain ⟨hkeys', hhash⟩ := (mem_exactLeaves_iff hcol.left).1 hin
      exact hne (segmentKeys_eq_of_leafHash_eq hcol hkeys' hkeys hhash.symm)

theorem mem_push_places {type : CrdtType} {day : JsString} : (type, day) ∈
    (diffSnapshots (exactSnapshot bridge blake3 x) (exactSnapshot bridge blake3 y)).push.map Target.place ↔
      Lacks bridge x y type day := by
  rw [List.mem_map]
  constructor
  · rintro ⟨t, ht, heq⟩
    cases heq
    obtain ⟨hin, hout⟩ := (mem_push (fun _ => exactLeaves_paths_nodup) (fun _ => exactLeaves_paths_nodup)).1 ht
    obtain ⟨hkeys, -⟩ := (mem_exactLeaves_iff hcol.left).1 hin
    refine ⟨?_, hkeys⟩
    by_contra hne
    exact hout _ ((mem_exactLeaves_iff hcol.symm.left).2 ⟨hne, rfl⟩)
  · rintro ⟨hnil, hkeys⟩
    refine ⟨⟨type, day, leafHash blake3 (segmentKeys bridge x type day)⟩, ?_, rfl⟩
    refine (mem_push (fun _ => exactLeaves_paths_nodup) (fun _ => exactLeaves_paths_nodup)).2 ⟨?_, fun hash hin => ?_⟩
    · exact (mem_exactLeaves_iff hcol.left).2 ⟨hkeys, rfl⟩
    · exact ((mem_exactLeaves_iff hcol.symm.left).1 hin).1 hnil

end Logs

end Hayven.Crdt
