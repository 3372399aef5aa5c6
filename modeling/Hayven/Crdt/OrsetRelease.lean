import Hayven.Crdt.Orset
/-!
# Releasing a claim

The remove that `makeRemoveOpFor` builds takes down every add of its claim that
the state held, wherever it arrives among the other ops, and nothing else.
-/
open Hayven.Lib

namespace Hayven.Crdt

namespace OrSetState

/-- A state that took in the ops of `S`, one by one or by merges. -/
inductive Reached : Set OrOp → OrSetState → Prop
  | empty : Reached ∅ empty
  | apply {S : Set OrOp} {s s' : OrSetState} {op : OrOp} :
    Reached S s → s.apply op = .ok s' → Reached (insert op S) s'
  | merge {S S' : Set OrOp} {s s' : OrSetState} : Reached S s → Reached S' s' → Reached (S ∪ S') (s.merge s')

theorem KeyUnique.subset {S S' : Set OrOp} (h : KeyUnique S) (hsub : S' ⊆ S) : KeyUnique S' :=
  fun a b ha hb => h a b (hsub ha) (hsub hb)

theorem holds_of_reached {S : Set OrOp} {s : OrSetState} (h : Reached S s) (hu : KeyUnique S) : s.Holds S := by
  induction h with
  | empty => exact holds_empty
  | apply _ happly ih => exact holds_apply hu (ih (hu.subset (Set.subset_insert ..))) happly
  | merge _ _ ih ih' =>
    exact holds_merge hu (ih (hu.subset Set.subset_union_left)) (ih' (hu.subset Set.subset_union_right))

/-- Every add that was taken in has a tag. -/
theorem encodable_of_reached {S : Set OrOp} {s : OrSetState} (h : Reached S s) {op : OrAddOp} (hop : .add op ∈ S) :
    op.hlc.Encodable := by
  induction h with
  | empty => exact hop.elim
  | @apply S s s' o _ happly ih =>
    rcases hop with rfl | hop
    · rcases applyAdd_cases s op with ⟨-, e, he⟩ | ⟨r, rfl, -⟩
      · rw [OrSetState.apply, he] at happly
        cases happly
      · exact (addOpTag_ok r.tagged).1
    · exact ih hop
  | merge _ _ ih ih' => exact hop.elim ih ih'

/-- An add is live when it was taken in and no remove observed its tag. -/
theorem visible_iff {S : Set OrOp} {s : OrSetState} (h : s.Holds S) {op : OrAddOp} (henc : op.hlc.Encodable) :
    s.Visible none op ↔ .add op ∈ S ∧ ∀ r, .remove r ∈ S → keyHex op.key ∉ r.observedTags := by
  have hremoved : keyHex op.key ∉ s.removed ↔ ∀ r, .remove r ∈ S → keyHex op.key ∉ r.observedTags := by
    rw [h.removed]
    simp only [not_exists, not_and]
  rw [← hremoved]
  constructor
  · rintro ⟨r, hr, rfl, hlive⟩
    refine ⟨((h.stored r.op).1 ⟨r, hr, rfl⟩).1, ?_⟩
    rw [← (addOpTag_ok r.tagged).2]
    simpa [isLive] using hlive
  · rintro ⟨hop, hnot⟩
    obtain ⟨r, hr, rfl⟩ := (h.stored op).2 ⟨hop, henc⟩
    refine ⟨r, hr, rfl, ?_⟩
    rw [← (addOpTag_ok r.tagged).2] at hnot
    simpa [isLive] using hnot

/-- An expiry time only takes adds away. -/
theorem visible_none {s : OrSetState} {nowMs : Option JsNumber} {op : OrAddOp} (h : s.Visible nowMs op) : s.Visible none op := by
  obtain ⟨r, hr, rfl, hlive⟩ := h
  refine ⟨r, hr, rfl, ?_⟩
  unfold isLive at hlive ⊢
  rw [Bool.and_eq_true] at hlive ⊢
  exact ⟨hlive.1, rfl⟩

theorem visible_now_iff {s : OrSetState} {nowMs : Option JsNumber} {op : OrAddOp} :
    s.Visible nowMs op ↔ s.Visible none op ∧ (nowMs.all fun now => op.payload.ttlMs.gt now) = true := by
  unfold Visible isLive
  cases nowMs with
  | none => simp
  | some now =>
    constructor
    · rintro ⟨r, hr, rfl, hlive⟩
      simp only [Bool.and_eq_true] at hlive
      refine ⟨⟨r, hr, rfl, ?_⟩, hlive.2⟩
      rw [hlive.1, Bool.and_self]
    · rintro ⟨⟨r, hr, rfl, hlive⟩, hnow⟩
      rw [Bool.and_true] at hlive
      refine ⟨r, hr, rfl, ?_⟩
      rw [hlive, Bool.true_and]
      exact hnow

/-- Of the live adds of a claim one is shown, the latest. -/
theorem exists_active {s : OrSetState} {op : OrAddOp} (h : s.Visible none op) :
    ∃ shown ∈ s.active none, shown.claimId = op.claimId ∧ (compareKey op.key shown.key).isLE := by
  have hne : (s.records op.claimId).filter (s.isLive none) ≠ [] := by
    obtain ⟨r, hr, rfl, hlive⟩ := h
    exact List.ne_nil_of_mem (List.mem_filter.2 ⟨hr, hlive⟩)
  have hw : (s.winner none (s.records op.claimId)).isSome := by
    unfold winner
    rw [Option.isSome_map, List.getLast?_isSome, ne_eq, sortWith_eq_nil]
    exact hne
  obtain ⟨shown, hshown⟩ := Option.isSome_iff_exists.1 hw
  obtain ⟨hc, hwin⟩ := winner_iff.1 hshown
  exact ⟨shown, mem_active.2 hwin, hc, hwin.2 op h hc.symm⟩

/-! ## The remove of a claim -/

theorem mapM_addOpTag {l : List OrAddOp} (h : ∀ op ∈ l, op.hlc.Encodable) :
    l.mapM addOpTag = .ok (l.map fun op => keyHex op.key) := by
  induction l with
  | nil => rfl
  | cons op l ih =>
    rw [List.mapM_cons, addOpTag_of_encodable (h op (List.mem_cons_self ..)),
      ih fun op' hop' => h op' (List.mem_cons_of_mem _ hop')]
    rfl

theorem mem_sortedAdds {s : OrSetState} {op : OrAddOp} : op ∈ s.sortedAdds ↔ s.Stored op := by
  unfold sortedAdds
  rw [mem_sortWith, List.mem_map, stored_iff_mem_values]

/-- It can be built from any state, and observes the tags of its claim's adds. -/
theorem makeRemoveOpFor_spec (s : OrSetState) (claimId : JsString) (hlc : Hlc) (writer : WriterId) :
    ∃ r, makeRemoveOpFor s claimId hlc writer = .ok r ∧
      ∀ t, t ∈ r.observedTags ↔ ∃ op, s.Stored op ∧ op.claimId = claimId ∧ keyHex op.key = t := by
  have henc : ∀ op ∈ s.sortedAdds.filter (fun add => add.claimId = claimId), op.hlc.Encodable := by
    intro op hop
    obtain ⟨r, -, rfl⟩ := mem_sortedAdds.1 (List.mem_filter.1 hop).1
    exact (addOpTag_ok r.tagged).1
  refine ⟨⟨claimId, (s.sortedAdds.filter fun add => add.claimId = claimId).map fun op => keyHex op.key, hlc, writer⟩, ?_, ?_⟩
  · unfold makeRemoveOpFor
    rw [mapM_addOpTag henc]
    rfl
  · intro t
    simp only [List.mem_map, List.mem_filter, mem_sortedAdds, decide_eq_true_eq, and_assoc]

/-- Released adds of a claim are down for good, other adds of it are live unless another remove observed them, and no
other claim is touched. -/
theorem release_semantics {A : Set OrOp} {s : OrSetState} (hs : Reached A s) (claimId : JsString) (hlc : Hlc)
    (writer : WriterId) :
    ∃ r, makeRemoveOpFor s claimId hlc writer = .ok r ∧
      ∀ (B : Set OrOp) (s' without : OrSetState), Reached (insert (.remove r) B) s' → Reached B without → KeyUnique (A ∪ B) →
        (∀ op nowMs, s.Stored op → op.claimId = claimId → ¬ s'.Visible nowMs op ∧ op ∉ s'.active nowMs) ∧
        (∀ op, .add op ∈ B → op.claimId = claimId → ¬ s.Stored op →
          (s'.Visible none op ↔ ∀ r', .remove r' ∈ B → keyHex op.key ∉ r'.observedTags) ∧
          (s'.Visible none op → ∃ shown ∈ s'.active none, shown.claimId = claimId ∧ (compareKey op.key shown.key).isLE)) ∧
        (∀ op nowMs, op.claimId ≠ claimId →
          (s'.Visible nowMs op ↔ without.Visible nowMs op) ∧ (op ∈ s'.active nowMs ↔ op ∈ without.active nowMs)) := by
  obtain ⟨r, hr, hobserved⟩ := makeRemoveOpFor_spec s claimId hlc writer
  refine ⟨r, hr, ?_⟩
  intro B s' without hs' hwithout hunique
  have hinsert : KeyUnique (insert (.remove r) B) := by
    rintro a b (ha | ha) (hb | hb)
    · cases ha
    · cases ha
    · cases hb
    · exact hunique a b (.inr ha) (.inr hb)
  have hA := holds_of_reached hs (hunique.subset Set.subset_union_left)
  have hB := holds_of_reached hwithout (hunique.subset Set.subset_union_right)
  have hB' := holds_of_reached hs' hinsert
  have hdown : ∀ op nowMs, s.Stored op → op.claimId = claimId → ¬ s'.Visible nowMs op := by
    intro op nowMs hop hc hvis
    have henc := ((hA.stored op).1 hop).2
    exact ((visible_iff hB' henc).1 (visible_none hvis)).2 r (.inl rfl) ((hobserved _).2 ⟨op, hop, hc, rfl⟩)
  -- an add of `B` that the remove observed is one that the state held
  have hheld : ∀ op, .add op ∈ B → keyHex op.key ∈ r.observedTags → s.Stored op ∧ op.claimId = claimId := by
    intro op hop htag
    obtain ⟨held, hstored, hc, hkey⟩ := (hobserved _).1 htag
    obtain ⟨hheld, hencheld⟩ := (hA.stored held).1 hstored
    have hsame := hunique held op (.inl hheld) (.inr hop) (keyHex_inj hencheld (encodable_of_reached hwithout hop) hkey)
    exact hsame ▸ ⟨hstored, hc⟩
  have hother : ∀ op, op.claimId ≠ claimId → (s'.Visible none op ↔ without.Visible none op) := by
    intro op hc
    by_cases henc : op.hlc.Encodable
    · rw [visible_iff hB' henc, visible_iff hB henc]
      constructor
      · rintro ⟨hop | hop, hnot⟩
        · cases hop
        · exact ⟨hop, fun r' hr' => hnot r' (.inr hr')⟩
      · rintro ⟨hop, hnot⟩
        refine ⟨.inr hop, ?_⟩
        rintro r' (hr' | hr')
        · cases hr'
          exact fun htag => hc (hheld op hop htag).2
        · exact hnot r' hr'
    · -- an add without a tag is in no state
      have hnone : ∀ t : OrSetState, ¬ t.Visible none op := by
        rintro t ⟨q, -, rfl, -⟩
        exact henc (addOpTag_ok q.tagged).1
      exact iff_of_false (hnone s') (hnone without)
  have hothernow : ∀ op nowMs, op.claimId ≠ claimId → (s'.Visible nowMs op ↔ without.Visible nowMs op) := by
    intro op nowMs hc
    rw [visible_now_iff, visible_now_iff (s := without), hother op hc]
  refine ⟨?_, ?_, ?_⟩
  · intro op nowMs hop hc
    exact ⟨hdown op nowMs hop hc, fun hact => hdown op nowMs hop hc (mem_active.1 hact).1⟩
  · intro op hop hc hnew
    refine ⟨?_, fun hvis => hc ▸ exists_active hvis⟩
    rw [visible_iff hB' (encodable_of_reached hwithout hop)]
    constructor
    · exact fun h r' hr' => h.2 r' (.inr hr')
    · intro h
      refine ⟨.inr hop, ?_⟩
      rintro r' (hr' | hr')
      · cases hr'
        exact fun htag => hnew (hheld op hop htag).1
      · exact h r' hr'
  · intro op nowMs hc
    refine ⟨hothernow op nowMs hc, ?_⟩
    rw [mem_active, mem_active, IsWinner, IsWinner, hothernow op nowMs hc]
    refine and_congr_right fun _ => forall_congr' fun op' => ?_
    constructor
    · intro h hvis hc'
      exact h ((hothernow op' nowMs (hc' ▸ hc)).2 hvis) hc'
    · intro h hvis hc'
      exact h ((hothernow op' nowMs (hc' ▸ hc)).1 hvis) hc'

def sampleAdd : OrAddOp := ⟨[0x61], [0x62], ⟨[], [], [], .fin 0, .fin 0⟩, ⟨1, 0⟩, replicatedWriter 7⟩

/-- One claim added, and released. -/
theorem release_one_claim : ∃ s, Reached (insert (.add sampleAdd) ∅) s ∧
    ∃ r, makeRemoveOpFor s [0x61] ⟨2, 0⟩ (replicatedWriter 7) = .ok r ∧
      ∀ (B : Set OrOp) (s' without : OrSetState), Reached (insert (.remove r) B) s' → Reached B without →
        KeyUnique (insert (.add sampleAdd) ∅ ∪ B) → ¬ s'.Visible none sampleAdd := by
  obtain ⟨s, hs⟩ : ∃ s, empty.apply (.add sampleAdd) = .ok s := by
    rcases applyAdd_cases empty sampleAdd with ⟨hn, -⟩ | ⟨r, -, h⟩
    · exact absurd (by decide) hn
    · exact ⟨_, h⟩
  have hreached : Reached (insert (.add sampleAdd) ∅) s := .apply .empty hs
  obtain ⟨r, hr, hlaw⟩ := release_semantics hreached [0x61] ⟨2, 0⟩ (replicatedWriter 7)
  refine ⟨s, hreached, r, hr, fun B s' without hs' hwithout hu => ?_⟩
  have hstored : s.Stored sampleAdd :=
    ((holds_of_reached hreached (hu.subset Set.subset_union_left)).stored sampleAdd).2 ⟨.inl rfl, by decide⟩
  exact ((hlaw B s' without hs' hwithout hu).1 sampleAdd none hstored rfl).1

end OrSetState

end Hayven.Crdt
