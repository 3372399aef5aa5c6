import Hayven.Db.ContextEscalationLaws
import Hayven.Lib.MaximalRuns
/-!
# The module frame

What `computeModuleScope` of `db/pack_slicing.ts` returns, said without its bitmap: the
longest runs of lines that no entity owns. An entity owns its range and the decoration right
above it, so the order of the rows does not matter: `coveredBy_iff`. A cap drops the runs
farthest from the anchors: `computeModuleScope_frame`.
-/
open Hayven.Lib Hayven.Native Hayven.Graph

namespace Hayven.Db.Pack

/-! ## The lines of an entity -/

def IsEntity (r : NodeRow) : Prop := r.kind ≠ ascii "module"

/-- A line that belongs to an entity below it; past the end a line reads as blank. -/
def Decorates (lines : List JsString) (l : Nat) : Prop := isLeadingDecoration (lines.getD (l - 1) []) = true

/-- The range of an entity and the unbroken block of decoration right above it. -/
def Owns (lines : List JsString) (r : NodeRow) (l : Nat) : Prop :=
  (r.rangeStart ≤ l ∧ (l : Int) ≤ r.rangeEnd) ∨ BlockAbove (Decorates lines) r.rangeStart.toNat l

/-- A line of the file that no entity owns. -/
def FrameLine (lines : List JsString) (rows : List NodeRow) (l : Nat) : Prop :=
  1 ≤ l ∧ l ≤ lines.length ∧ ∀ r ∈ rows, IsEntity r → ¬ Owns lines r l

/-- A line of the file that an entity owns. -/
def Owned (lines : List JsString) (rows : List NodeRow) (l : Nat) : Prop :=
  1 ≤ l ∧ l ≤ lines.length ∧ ∃ r ∈ rows, IsEntity r ∧ Owns lines r l

section Coverage
variable {lines : List JsString}

theorem owns_closed (r : NodeRow) : Closed (Decorates lines) fun l => 1 ≤ l ∧ Owns lines r l := by
  intro m hm hP hD
  have hclosed := closed_range (Decorates lines) r.rangeStart.toNat r.rangeEnd.toNat m hm
  refine ⟨hm, ?_⟩
  rcases hclosed (hP.2.imp_left fun h => ⟨by omega, by omega⟩) hD with h | h
  · exact .inl ⟨by omega, by omega⟩
  · exact .inr h

theorem owned_closed (rows : List NodeRow) : Closed (Decorates lines) (Owned lines rows) := by
  rintro m hm ⟨-, hn, r, hr, hentity, howns⟩ hD
  exact ⟨hm, by omega, r, hr, hentity, (owns_closed r m hm ⟨by omega, howns⟩ hD).2⟩

/-- The upward scan passes decoration only, and stops at the top, at a covered line or at another one. -/
theorem withLeadingDecoration_spec (lines : List JsString) (covered : Covered) : ∀ s,
    withLeadingDecoration lines covered s ≤ s ∧ (1 ≤ s → 1 ≤ withLeadingDecoration lines covered s) ∧
      (∀ k, withLeadingDecoration lines covered s ≤ k → k < s → Decorates lines k) ∧
      (2 ≤ withLeadingDecoration lines covered s → covered (withLeadingDecoration lines covered s - 1) = true ∨
        ¬ Decorates lines (withLeadingDecoration lines covered s - 1))
  | 0 => ⟨le_rfl, fun h => h, fun k _ hk => absurd hk (Nat.not_lt_zero k), fun h => absurd h (show ¬ 2 ≤ 0 by decide)⟩
  | 1 => ⟨le_rfl, fun h => h, fun k hk hk' => absurd hk' (Nat.not_lt.2 hk), fun h => absurd h (show ¬ 2 ≤ 1 by decide)⟩
  | s + 2 => by
    by_cases hpass : (!covered (s + 1) && isLeadingDecoration (lines.getD s [])) = true
    · obtain ⟨hle, hone, hdecorates, hstop⟩ := withLeadingDecoration_spec lines covered (s + 1)
      rw [withLeadingDecoration, if_pos hpass]
      refine ⟨by omega, fun _ => hone (by omega), fun k hk hk' => ?_, hstop⟩
      rcases Nat.eq_or_lt_of_le (Nat.le_of_lt_succ hk') with rfl | hlt
      · exact (Bool.and_eq_true_iff.1 hpass).2
      · exact hdecorates k hk hlt
    · rw [withLeadingDecoration, if_neg hpass]
      refine ⟨le_rfl, fun _ => by omega, fun k hk hk' => absurd hk' (by omega), fun _ => ?_⟩
      have hline : s + 2 - 1 = s + 1 := rfl
      rw [hline]
      by_cases hcovered : covered (s + 1) = true
      · exact .inl hcovered
      · refine .inr fun hD => hpass ?_
        have hdecoration : isLeadingDecoration (lines.getD s []) = true := hD
        rw [hdecoration, Bool.and_true]
        simpa using hcovered

/-- One entity marks the lines it owns, but for those that are marked. -/
theorem mark_iff {covered : Covered} {rows : List NodeRow} (hcovered : ∀ l, covered l = true ↔ Owned lines rows l)
    {r : NodeRow} (hr : r.rangeStart ≤ r.rangeEnd) (l : Nat) :
    mark lines.length covered (withLeadingDecoration lines covered r.rangeStart.toNat) r.rangeEnd l = true ↔
      Owned lines rows l ∨ (1 ≤ l ∧ l ≤ lines.length ∧ Owns lines r l) := by
  obtain ⟨hle, hone, hdecorates, hstop⟩ := withLeadingDecoration_spec lines covered r.rangeStart.toNat
  rw [mark, Bool.or_eq_true, hcovered]
  simp only [Bool.and_eq_true, decide_eq_true_eq]
  constructor
  · rintro (h | ⟨⟨htop, hn⟩, hend⟩)
    · exact .inl h
    · refine .inr ⟨by omega, hn, ?_⟩
      rcases Nat.lt_or_ge l r.rangeStart.toNat with hlt | hge
      · exact .inr ⟨by omega, hlt, fun k hk hk' => hdecorates k (by omega) hk'⟩
      · exact .inl ⟨by omega, hend⟩
  · rintro (h | ⟨hl, hn, ⟨hstart, hend⟩ | ⟨-, hlt, hblock⟩⟩)
    · exact .inl h
    · exact .inr ⟨⟨by omega, hn⟩, hend⟩
    · rcases Nat.lt_or_ge l (withLeadingDecoration lines covered r.rangeStart.toNat) with habove | hbelow
      · -- the scan has stopped below this line, at one that was marked before
        have hmarked := (hstop (by omega)).resolve_right (not_not.2 (hblock _ (by omega) (by omega)))
        exact .inl ((owned_closed rows).descend ((hcovered _).1 hmarked) hl (by omega)
          fun k hk hk' => hblock k hk (by omega))
      · exact .inr ⟨⟨by omega, hn⟩, by omega⟩

theorem foldl_covered {rest : List NodeRow} (hranges : ∀ r ∈ rest, IsEntity r → r.rangeStart ≤ r.rangeEnd) :
    ∀ {rows : List NodeRow} {covered : Covered}, (∀ l, covered l = true ↔ Owned lines rows l) → ∀ l,
      rest.foldl (fun covered r =>
        if r.kind = ascii "module" then covered
        else mark lines.length covered (withLeadingDecoration lines covered r.rangeStart.toNat) r.rangeEnd)
        covered l = true ↔ Owned lines (rows ++ rest) l := by
  induction rest with
  | nil =>
    intro rows covered hcovered l
    rw [List.append_nil]
    exact hcovered l
  | cons r rest ih =>
    intro rows covered hcovered l
    rw [List.foldl_cons, List.append_cons]
    refine ih (fun r' hr' => hranges r' (List.mem_cons_of_mem _ hr')) (fun l => ?_) l
    by_cases hmodule : r.kind = ascii "module"
    · rw [if_pos hmodule, hcovered]
      refine ⟨fun ⟨hl, hn, r', hr', h⟩ => ⟨hl, hn, r', List.mem_append_left _ hr', h⟩, ?_⟩
      rintro ⟨hl, hn, r', hr', hentity, howns⟩
      rcases List.mem_append.1 hr' with hr' | hr'
      · exact ⟨hl, hn, r', hr', hentity, howns⟩
      · rw [List.mem_singleton.1 hr'] at hentity
        exact absurd hmodule hentity
    · rw [if_neg hmodule, mark_iff hcovered (hranges r List.mem_cons_self hmodule)]
      constructor
      · rintro (⟨hl, hn, r', hr', h⟩ | ⟨hl, hn, howns⟩)
        · exact ⟨hl, hn, r', List.mem_append_left _ hr', h⟩
        · exact ⟨hl, hn, r, List.mem_append_right _ (List.mem_singleton.2 rfl), hmodule, howns⟩
      · rintro ⟨hl, hn, r', hr', hentity, howns⟩
        rcases List.mem_append.1 hr' with hr' | hr'
        · exact .inl ⟨hl, hn, r', hr', hentity, howns⟩
        · rw [List.mem_singleton.1 hr'] at howns
          exact .inr ⟨hl, hn, howns⟩

/-- The marked lines are the lines that some entity owns, in whatever order the rows come. -/
theorem coveredBy_iff {rows : List NodeRow} (hranges : ∀ r ∈ rows, IsEntity r → r.rangeStart ≤ r.rangeEnd) (l : Nat) :
    coveredBy lines rows l = true ↔ Owned lines rows l := by
  have hnone : ∀ l, (fun _ => false : Covered) l = true ↔ Owned lines [] l := by
    intro l
    refine ⟨fun h => absurd h (by simp), ?_⟩
    rintro ⟨-, -, r, hr, -⟩
    exact absurd hr List.not_mem_nil
  exact foldl_covered hranges hnone l

theorem owned_perm {rows rows' : List NodeRow} (h : rows.Perm rows') (l : Nat) :
    Owned lines rows l ↔ Owned lines rows' l := by
  simp only [Owned, h.mem_iff]

theorem coveredBy_perm {rows rows' : List NodeRow} (h : rows.Perm rows')
    (hranges : ∀ r ∈ rows, IsEntity r → r.rangeStart ≤ r.rangeEnd) : coveredBy lines rows = coveredBy lines rows' := by
  funext l
  rw [Bool.eq_iff_iff, coveredBy_iff hranges, coveredBy_iff fun r hr => hranges r (h.mem_iff.2 hr)]
  exact owned_perm h l

end Coverage

/-! ## The runs of a bitmap -/

/-- The lines before which a run ends. -/
def Segment.stop (s : Segment) : Nat := s.start + s.lines.length

/-- A longest run of lines that are not covered, from line `l` on. -/
def IsGap (covered : Covered) (l n : Nat) (seg : Segment) : Prop :=
  MaximalRun (fun k => covered k = false) l (l + n) seg.start seg.stop

/-- What the scan finds: longest runs, in file order and apart, with every line that is not covered. -/
structure Gaps (covered : Covered) (l n : Nat) (runs : List Segment) : Prop where
  maximal : ∀ seg ∈ runs, IsGap covered l n seg
  apart : runs.Pairwise fun a b => a.stop < b.start
  complete : ∀ k, l ≤ k → k < l + n → covered k = false → ∃ seg ∈ runs, seg.start ≤ k ∧ k < seg.stop

section Scan
variable {covered : Covered} {l n : Nat} {runs : List Segment}

theorem IsGap.widen {seg : Segment} (h : IsGap covered (l + 1) n seg)
    (hbefore : seg.start = l + 1 → covered l = true) : IsGap covered l (n + 1) seg where
  nonempty := h.nonempty
  lower := Nat.le_of_succ_le h.lower
  upper := by
    have hupper := h.upper
    omega
  inside := h.inside
  before hlt := by
    rcases Nat.eq_or_lt_of_le (Nat.succ_le_of_lt hlt) with heq | hlt'
    · intro hfree
      rw [← heq, Nat.succ_sub_one, hbefore heq.symm] at hfree
      cases hfree
    · exact h.before hlt'
  after hlt := h.after (by omega)

theorem Gaps.skip (h : Gaps covered (l + 1) n runs) (hl : covered l = true) : Gaps covered l (n + 1) runs where
  maximal seg hseg := (h.maximal seg hseg).widen fun _ => hl
  apart := h.apart
  complete k hk hk' hfree := by
    rcases Nat.eq_or_lt_of_le hk with rfl | hlt
    · rw [hl] at hfree
      cases hfree
    · exact h.complete k hlt (by omega) hfree

/-- A line that is not covered, with no run that begins behind it. -/
theorem Gaps.single (h : Gaps covered (l + 1) n runs) (hl : covered l = false) (line : JsString)
    (hapart : ∀ seg ∈ runs, l + 1 < seg.start) : Gaps covered l (n + 1) (⟨l, [line]⟩ :: runs) where
  maximal seg hseg := by
    rcases List.mem_cons.1 hseg with rfl | hseg
    · refine ⟨Nat.lt_succ_self l, le_rfl, ?_, ?_, fun hlt => absurd hlt (Nat.lt_irrefl l), ?_⟩
      · simp only [Segment.stop, List.length_singleton]
        omega
      · intro k hk hk'
        have hk : l ≤ k := hk
        obtain rfl : k = l := by
          simp only [Segment.stop, List.length_singleton] at hk'
          omega
        exact hl
      · intro hlt hfree
        obtain ⟨seg, hseg, hstart, -⟩ := h.complete (l + 1) le_rfl (by
          simp only [Segment.stop, List.length_singleton] at hlt
          omega) hfree
        exact absurd hstart (Nat.not_le.2 (hapart seg hseg))
    · refine (h.maximal seg hseg).widen fun heq => ?_
      exact absurd (hapart seg hseg) (by omega)
  apart := List.pairwise_cons.2 ⟨hapart, h.apart⟩
  complete k hk hk' hfree := by
    rcases Nat.eq_or_lt_of_le hk with rfl | hlt
    · exact ⟨_, List.mem_cons_self, le_rfl, Nat.lt_succ_self l⟩
    · obtain ⟨seg, hseg, hin⟩ := h.complete k hlt (by omega) hfree
      exact ⟨seg, List.mem_cons_of_mem _ hseg, hin⟩

/-- A line that is not covered, in front of a run that begins behind it. -/
theorem Gaps.extend {run : Segment} (h : Gaps covered (l + 1) n (run :: runs)) (hl : covered l = false)
    (line : JsString) (hnext : run.start = l + 1) : Gaps covered l (n + 1) (⟨l, line :: run.lines⟩ :: runs) := by
  have hstop : (⟨l, line :: run.lines⟩ : Segment).stop = run.stop := by
    simp only [Segment.stop, List.length_cons, hnext]
    omega
  have hrun := h.maximal run List.mem_cons_self
  obtain ⟨hfirst, hrest⟩ := List.pairwise_cons.1 h.apart
  have hlt : l < run.stop := by
    have hnonempty := hrun.nonempty
    omega
  refine ⟨?_, ?_, ?_⟩
  · intro seg hseg
    rcases List.mem_cons.1 hseg with rfl | hseg
    · refine ⟨hstop ▸ hlt, le_rfl, ?_, ?_, fun h => absurd h (Nat.lt_irrefl l), ?_⟩
      · have hupper := hrun.upper
        omega
      · intro k hk hk'
        rcases Nat.eq_or_lt_of_le hk with rfl | hlt
        · exact hl
        · exact hrun.inside k (hnext ▸ hlt) (hstop ▸ hk')
      · rw [hstop]
        intro hlt
        exact hrun.after (by omega)
    · refine (h.maximal seg (List.mem_cons_of_mem _ hseg)).widen fun heq => ?_
      have hfar := hfirst seg hseg
      omega
  · refine List.pairwise_cons.2 ⟨fun seg hseg => ?_, hrest⟩
    rw [hstop]
    exact hfirst seg hseg
  · intro k hk hk' hfree
    rcases Nat.eq_or_lt_of_le hk with rfl | hlt'
    · exact ⟨_, List.mem_cons_self, le_rfl, hstop ▸ hlt⟩
    · obtain ⟨seg, hseg, hstart, hend⟩ := h.complete k hlt' (by omega) hfree
      rcases List.mem_cons.1 hseg with rfl | hseg
      · exact ⟨_, List.mem_cons_self, hk, hstop ▸ hend⟩
      · exact ⟨seg, List.mem_cons_of_mem _ hseg, hstart, hend⟩

theorem uncoveredRuns_gaps (covered : Covered) (lines : List JsString) :
    ∀ l, Gaps covered l lines.length (uncoveredRuns covered l lines) := by
  induction lines with
  | nil =>
    intro l
    refine ⟨fun seg hseg => absurd hseg List.not_mem_nil, List.Pairwise.nil, fun k hk hk' => ?_⟩
    exact absurd hk' (Nat.not_lt.2 hk)
  | cons line rest ih =>
    intro l
    have hrest := ih (l + 1)
    rw [uncoveredRuns, List.length_cons]
    by_cases hl : covered l = true
    · rw [if_pos hl]
      exact hrest.skip hl
    · rw [if_neg hl]
      have hfree : covered l = false := by simpa using hl
      rcases hruns : uncoveredRuns covered (l + 1) rest with _ | ⟨run, more⟩
      · rw [hruns] at hrest
        exact hrest.single hfree line fun seg hseg => absurd hseg List.not_mem_nil
      · rw [hruns] at hrest
        dsimp only
        split
        · next hnext => exact hrest.extend hfree line hnext
        · next hnext =>
          have hlower := (hrest.maximal run List.mem_cons_self).lower
          refine hrest.single hfree line fun seg hseg => ?_
          rcases List.mem_cons.1 hseg with rfl | hmore
          · omega
          · have hfar := (List.pairwise_cons.1 hrest.apart).1 seg hmore
            simp only [Segment.stop] at hfar
            omega

end Scan

/-! ## The frame -/

/-- A longest run of frame lines, with its text, that is not blank. -/
def IsFrameRun (lines : List JsString) (rows : List NodeRow) (seg : Segment) : Prop :=
  MaximalRun (FrameLine lines rows) 1 (1 + lines.length) seg.start seg.stop ∧
    seg.lines = (lines.drop (seg.start - 1)).take seg.lines.length ∧ trim seg.text ≠ []

/-- The runs before the cap. -/
def frameRuns (lines : List JsString) (rows : List NodeRow) : List Segment :=
  (uncoveredRuns (coveredBy lines rows) 1 lines).filter fun s => trim s.text ≠ []

section Frame
variable {lines : List JsString} {rows : List NodeRow}

theorem uncovered_iff (hranges : ∀ r ∈ rows, IsEntity r → r.rangeStart ≤ r.rangeEnd) (k : Nat) (hk : 1 ≤ k)
    (hk' : k < 1 + lines.length) : coveredBy lines rows k = false ↔ FrameLine lines rows k := by
  rw [← Bool.not_eq_true, coveredBy_iff hranges]
  constructor
  · exact fun h => ⟨hk, by omega, fun r hr hentity howns => h ⟨hk, by omega, r, hr, hentity, howns⟩⟩
  · rintro ⟨-, -, h⟩ ⟨-, -, r, hr, hentity, howns⟩
    exact h r hr hentity howns

/-- The scan finds every longest run, with its text. -/
theorem mem_frameRuns (hranges : ∀ r ∈ rows, IsEntity r → r.rangeStart ≤ r.rangeEnd) {seg : Segment} :
    seg ∈ frameRuns lines rows ↔ IsFrameRun lines rows seg := by
  have hgaps := uncoveredRuns_gaps (coveredBy lines rows) lines 1
  have hcontent : ∀ run ∈ uncoveredRuns (coveredBy lines rows) 1 lines,
      run.lines = (lines.drop (run.start - 1)).take run.lines.length := fun run hrun =>
    List.prefix_iff_eq_take.1 (uncoveredRuns_spec _ _ 1 run hrun).2.2
  rw [frameRuns, List.mem_filter, decide_eq_true_eq, IsFrameRun]
  constructor
  · rintro ⟨hseg, hblank⟩
    exact ⟨(hgaps.maximal seg hseg).congr (uncovered_iff hranges), hcontent seg hseg, hblank⟩
  · rintro ⟨hmaximal, htext, hblank⟩
    refine ⟨?_, hblank⟩
    have hgap : IsGap (coveredBy lines rows) 1 lines.length seg :=
      hmaximal.congr fun k hk hk' => (uncovered_iff hranges k hk hk').symm
    obtain ⟨run, hrun, hin⟩ := hgaps.complete seg.start hgap.lower (hgap.nonempty.trans_le hgap.upper)
      (hgap.inside _ le_rfl hgap.nonempty)
    obtain ⟨hstart, hstop⟩ := (hgaps.maximal run hrun).unique hgap hin ⟨le_rfl, hgap.nonempty⟩
    have hlength : run.lines.length = seg.lines.length := by
      simp only [Segment.stop, hstart] at hstop
      omega
    have hlines : run.lines = seg.lines := by
      rw [hcontent run hrun, htext, hstart, hlength]
    have heq : run = seg := by
      cases run
      cases seg
      simp only [Segment.mk.injEq]
      exact ⟨hstart, hlines⟩
    exact heq ▸ hrun

theorem frameRuns_apart : (frameRuns lines rows).Pairwise fun a b => a.stop < b.start :=
  (uncoveredRuns_gaps _ lines 1).apart.sublist List.filter_sublist

end Frame

/-! ## The cap -/

/-- The distance of a run to one anchor, in lines. -/
def anchorDist (a : Int × Int) (s : Segment) : Int :=
  if (s.end : Int) < a.1 then a.1 - s.end else if (s.start : Int) > a.2 then s.start - a.2 else 0

/-- The loop drops an initial part of the order, and no more than it takes. -/
theorem droppedStarts_take (maxLines : Nat) (order : List Segment) : ∃ m,
    droppedStarts maxLines (totalLines order) order = (order.take m).map Segment.start ∧
      totalLines (order.drop m) ≤ maxLines := by
  induction order with
  | nil => exact ⟨0, rfl, Nat.zero_le _⟩
  | cons s order ih =>
    unfold droppedStarts
    split
    · next hfits => exact ⟨0, rfl, hfits⟩
    · obtain ⟨m, hdropped, htotal⟩ := ih
      have hrest : totalLines (s :: order) - s.lines.length = totalLines order := by
        simp only [totalLines, List.map_cons, List.sum_cons]
        omega
      refine ⟨m + 1, ?_, htotal⟩
      rw [hrest, hdropped]
      rfl

section Cap
variable {anchors : List (Int × Int)} {segs : List Segment}

/-- The runs with the farthest first. -/
def farthestFirst (anchors : List (Int × Int)) (segs : List Segment) : List Segment :=
  sortWith (fun a b => compare (segmentDist anchors b) (segmentDist anchors a)) segs

theorem farthestFirst_sorted : (farthestFirst anchors segs).Pairwise
    fun a b => segmentDist anchors b ≤ segmentDist anchors a := by
  let _ : Std.TransCmp (fun a b : Segment => compare (segmentDist anchors b) (segmentDist anchors a)) :=
    @Std.TransCmp.opposite _ (compareOn (segmentDist anchors)) _
  refine (sortWith_pairwise _ segs).imp fun h => ?_
  exact compare_le_iff_le.1 (Ordering.isLE_iff_ne_gt.1 h)

theorem starts_nodup (h : segs.Pairwise fun a b => a.stop < b.start) : (segs.map Segment.start).Nodup := by
  refine List.pairwise_map.2 (h.imp fun {a b} hab heq => ?_)
  simp only [Segment.stop, heq] at hab
  omega

/-- What the cap leaves, in the order of the sort, is what the loop has not reached. -/
theorem kept_of_order {order : List Segment} (hnodup : (order.map Segment.start).Nodup) (m : Nat) :
    (order.filter fun s => !((order.take m).map Segment.start).contains s.start) = order.drop m := by
  have hsplit : order = order.take m ++ order.drop m := (List.take_append_drop m order).symm
  have htake : ((order.take m).filter fun s => !((order.take m).map Segment.start).contains s.start) = [] := by
    refine List.filter_eq_nil_iff.2 fun s hs => ?_
    rw [List.contains_eq_mem, decide_eq_true (List.mem_map_of_mem hs)]
    exact Bool.false_ne_true
  have hdrop : ((order.drop m).filter fun s => !((order.take m).map Segment.start).contains s.start) = order.drop m := by
    refine List.filter_eq_self.2 fun s hs => ?_
    rw [hsplit, List.map_append, List.nodup_append] at hnodup
    have hne := hnodup.2.2
    simp only [Bool.not_eq_true', List.contains_eq_mem, decide_eq_false_iff_not]
    exact fun hmem => hne _ hmem _ (List.mem_map_of_mem hs) rfl
  calc (order.filter fun s => !((order.take m).map Segment.start).contains s.start)
      = ((order.take m ++ order.drop m).filter fun s => !((order.take m).map Segment.start).contains s.start) := by
        rw [← hsplit]
    _ = order.drop m := by rw [List.filter_append, htake, hdrop, List.nil_append]

theorem computeModuleScope_of_fits {db : PackDb} {file : JsString} {lines : List JsString} {maxLines : Nat}
    (h : totalLines (frameRuns lines (db.nodesIn file)) ≤ maxLines) :
    computeModuleScope db file lines anchors maxLines = frameRuns lines (db.nodesIn file) := by
  unfold computeModuleScope
  exact if_neg (Nat.not_lt.2 h)

/-- What the cap keeps and what it drops: the runs are kept in file order, they fit, and what is
dropped is at least as far. -/
theorem computeModuleScope_of_exceeds (anchors : List (Int × Int)) {db : PackDb} {file : JsString} {lines : List JsString} {maxLines : Nat}
    (h : maxLines < totalLines (frameRuns lines (db.nodesIn file))) :
    ∃ m, computeModuleScope db file lines anchors maxLines = (frameRuns lines (db.nodesIn file)).filter (fun s =>
        !(((farthestFirst anchors (frameRuns lines (db.nodesIn file))).take m).map Segment.start).contains s.start) ∧
      totalLines ((farthestFirst anchors (frameRuns lines (db.nodesIn file))).drop m) ≤ maxLines := by
  have hperm := sortWith_perm (fun a b => compare (segmentDist anchors b) (segmentDist anchors a))
    (frameRuns lines (db.nodesIn file))
  obtain ⟨m, hdropped, htotal⟩ := droppedStarts_take maxLines (farthestFirst anchors (frameRuns lines (db.nodesIn file)))
  have hsum : totalLines (farthestFirst anchors (frameRuns lines (db.nodesIn file))) =
      totalLines (frameRuns lines (db.nodesIn file)) := (hperm.map _).sum_eq
  refine ⟨m, ?_, htotal⟩
  rw [← hdropped, hsum]
  unfold computeModuleScope
  exact if_pos h

end Cap

/-- What a cap makes of the frame: some of its runs in file order, within the cap, and none
dropped that is nearer to the anchors than one that is kept. -/
structure Capped (anchors : List (Int × Int)) (maxLines : Nat) (frame kept : List Segment) : Prop where
  sublist : kept.Sublist frame
  fits : totalLines kept ≤ maxLines
  nearest : ∀ d ∈ frame, d ∉ kept → ∀ k ∈ kept, segmentDist anchors k ≤ segmentDist anchors d

section Result
variable {db : PackDb} {file : JsString} {lines : List JsString} {anchors : List (Int × Int)} {maxLines : Nat}

theorem computeModuleScope_capped :
    Capped anchors maxLines (frameRuns lines (db.nodesIn file)) (computeModuleScope db file lines anchors maxLines) := by
  rcases Nat.lt_or_ge maxLines (totalLines (frameRuns lines (db.nodesIn file))) with hlt | hle
  · obtain ⟨m, hkept, htotal⟩ := computeModuleScope_of_exceeds anchors hlt
    have hperm := sortWith_perm (fun a b => compare (segmentDist anchors b) (segmentDist anchors a))
      (frameRuns lines (db.nodesIn file))
    have hnodup : ((farthestFirst anchors (frameRuns lines (db.nodesIn file))).map Segment.start).Nodup :=
      (hperm.map _).nodup_iff.2 (starts_nodup frameRuns_apart)
    -- the kept runs are those that the loop over the sorted runs has not reached
    have hrest : (computeModuleScope db file lines anchors maxLines).Perm
        ((farthestFirst anchors (frameRuns lines (db.nodesIn file))).drop m) := by
      rw [hkept, ← kept_of_order hnodup m]
      exact (hperm.filter _).symm
    refine ⟨hkept ▸ List.filter_sublist, ?_, fun d hd hdropped k hk => ?_⟩
    · have hsum : totalLines (computeModuleScope db file lines anchors maxLines) =
          totalLines ((farthestFirst anchors (frameRuns lines (db.nodesIn file))).drop m) := (hrest.map _).sum_eq
      exact hsum.trans_le htotal
    · have hsplit := (List.take_append_drop m (farthestFirst anchors (frameRuns lines (db.nodesIn file)))).symm
      have hsorted : (farthestFirst anchors (frameRuns lines (db.nodesIn file))).Pairwise
          fun a b => segmentDist anchors b ≤ segmentDist anchors a := farthestFirst_sorted
      rw [hsplit, List.pairwise_append] at hsorted
      refine hsorted.2.2 d ?_ k (hrest.mem_iff.1 hk)
      have hd' : d ∈ farthestFirst anchors (frameRuns lines (db.nodesIn file)) := hperm.mem_iff.2 hd
      rw [hsplit] at hd'
      exact (List.mem_append.1 hd').resolve_right fun hlate => hdropped (hrest.mem_iff.2 hlate)
  · rw [computeModuleScope_of_fits hle]
    exact ⟨List.Sublist.refl _, hle, fun d hd hdropped => absurd hd hdropped⟩

theorem totalLines_le_of_apart {segs : List Segment} (hapart : segs.Pairwise fun a b => a.stop < b.start) {l h : Nat}
    (hin : ∀ s ∈ segs, l ≤ s.start ∧ s.stop ≤ h) : totalLines segs ≤ h - l := by
  induction segs generalizing l with
  | nil => exact Nat.zero_le _
  | cons s segs ih =>
    obtain ⟨hfirst, hrest⟩ := List.pairwise_cons.1 hapart
    have hs := hin s List.mem_cons_self
    have hih := ih hrest (l := s.stop) fun t ht =>
      ⟨Nat.le_of_lt (hfirst t ht), (hin t (List.mem_cons_of_mem _ ht)).2⟩
    have hcons : totalLines (s :: segs) = s.lines.length + totalLines segs := rfl
    rw [hcons]
    simp only [Segment.stop] at hs hih
    omega

/-- The frame is no longer than the file. -/
theorem totalLines_frameRuns_le (rows : List NodeRow) : totalLines (frameRuns lines rows) ≤ lines.length := by
  have hin : ∀ s ∈ frameRuns lines rows, 1 ≤ s.start ∧ s.stop ≤ 1 + lines.length := by
    intro s hs
    have hgap := (uncoveredRuns_gaps _ lines 1).maximal s (List.mem_of_mem_filter hs)
    exact ⟨hgap.lower, hgap.upper⟩
  have hle := totalLines_le_of_apart frameRuns_apart hin
  omega

end Result

/-- The module frame of a file is the complement of its entities, whatever order their rows come
in; a cap drops the runs farthest from the anchors. -/
theorem computeModuleScope_frame (db : PackDb) (file : JsString) (lines : List JsString) (anchors : List (Int × Int))
    (maxLines : Nat) (hranges : ∀ r ∈ db.nodesIn file, IsEntity r → r.rangeStart ≤ r.rangeEnd) :
    (∀ db' : PackDb, (db.nodesIn file).Perm (db'.nodesIn file) →
      computeModuleScope db' file lines anchors maxLines = computeModuleScope db file lines anchors maxLines) ∧
    ∃ frame : List Segment, (∀ seg, seg ∈ frame ↔ IsFrameRun lines (db.nodesIn file) seg) ∧
      (frame.Pairwise fun a b => a.stop < b.start) ∧ totalLines frame ≤ lines.length ∧
      (totalLines frame ≤ maxLines → computeModuleScope db file lines anchors maxLines = frame) ∧
      Capped anchors maxLines frame (computeModuleScope db file lines anchors maxLines) := by
  refine ⟨fun db' hperm => ?_, frameRuns lines (db.nodesIn file), fun seg => mem_frameRuns hranges, frameRuns_apart,
    totalLines_frameRuns_le _, computeModuleScope_of_fits, computeModuleScope_capped⟩
  unfold computeModuleScope
  rw [coveredBy_perm hperm hranges]

/-- A class around its method, and a constant behind it. -/
theorem computeModuleScope_frame_nested :
    ∃ frame : List Segment,
      (∀ seg, seg ∈ frame ↔ IsFrameRun (["class C:", "  def m(self): pass", "  x = 1", "", "y = 2"].map ascii)
        (nestedDb.nodesIn (ascii "b.ts")) seg) ∧
      (frame.Pairwise fun a b => a.stop < b.start) ∧ totalLines frame ≤ 5 ∧
      (totalLines frame ≤ 1 → computeModuleScope nestedDb (ascii "b.ts")
        (["class C:", "  def m(self): pass", "  x = 1", "", "y = 2"].map ascii) [(2, 2)] 1 = frame) ∧
      Capped [(2, 2)] 1 frame (computeModuleScope nestedDb (ascii "b.ts")
        (["class C:", "  def m(self): pass", "  x = 1", "", "y = 2"].map ascii) [(2, 2)] 1) :=
  have hranges : ∀ r ∈ nestedDb.nodesIn (ascii "b.ts"), r.rangeStart ≤ r.rangeEnd := by decide +kernel
  (computeModuleScope_frame nestedDb (ascii "b.ts") (["class C:", "  def m(self): pass", "  x = 1", "", "y = 2"].map ascii)
    [(2, 2)] 1 fun r hr _ => hranges r hr).2

end Hayven.Db.Pack
