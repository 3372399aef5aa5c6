import Hayven.Db.ContextEscalation
import Hayven.Db.ContextPackLaws
import Mathlib.Algebra.BigOperators.Intervals
/-!
# How far the ladder is one

A rung covers what the rungs below it cover, but for what the whole files could not be read for and
the empty line after a final line feed. The whole files may cost less than a pack whose slices
overlap: `ladder_rungs`.
-/
open Hayven.Lib Hayven.Native Hayven.Graph

namespace Hayven.Db.Pack

/-! ## What stands behind a slice -/

/-- The slice is a run of lines of a text. -/
structure Lifted (text : JsString) (s : ContextSlice) : Prop where
  starts : 1 ≤ s.startLine
  ends : s.endLine ≤ (text.splitOn lineFeed).length
  text : s.text = linesText (text.splitOn lineFeed) s.startLine s.endLine

section Grounded
variable (localeCompare : JsString → JsString → Ordering) (db : PackDb) (h : Files) (repoRoot : JsString)

/-- Its file is read, and it is a run of lines of it. -/
def Grounded (s : ContextSlice) : Prop := ∃ text, fileText h repoRoot s.file = some text ∧ Lifted text s

def AllGrounded (slices : List ContextSlice) : Prop := ∀ s ∈ slices, Grounded h repoRoot s

/-- A run of one line at least. -/
structure Exact (s : ContextSlice) : Prop where
  grounded : Grounded h repoRoot s
  ordered : s.startLine ≤ s.endLine

def AllExact (slices : List ContextSlice) : Prop := ∀ s ∈ slices, Exact h repoRoot s

variable {h repoRoot}

/-- Only the place and the text count. -/
theorem Exact.of_same {s t : ContextSlice} (hs : Exact h repoRoot s) (hfile : t.file = s.file)
    (hstart : t.startLine = s.startLine) (hend : t.endLine = s.endLine) (htext : t.text = s.text) :
    Exact h repoRoot t := by
  obtain ⟨⟨text, hread, hlifted⟩, hordered⟩ := hs
  refine ⟨⟨text, hfile ▸ hread, hstart ▸ hlifted.starts, hend ▸ hlifted.ends, ?_⟩, ?_⟩
  · rw [htext, hstart, hend]
    exact hlifted.text
  · rw [hstart, hend]
    exact hordered

theorem AllGrounded.append {a b : List ContextSlice} (ha : AllGrounded h repoRoot a) (hb : AllGrounded h repoRoot b) :
    AllGrounded h repoRoot (a ++ b) := List.forall_mem_append.2 ⟨ha, hb⟩

theorem allGrounded_nil : AllGrounded h repoRoot [] := fun _ hs => absurd hs List.not_mem_nil

theorem AllExact.append {a b : List ContextSlice} (ha : AllExact h repoRoot a) (hb : AllExact h repoRoot b) :
    AllExact h repoRoot (a ++ b) := List.forall_mem_append.2 ⟨ha, hb⟩

theorem allExact_nil : AllExact h repoRoot [] := fun _ hs => absurd hs List.not_mem_nil

theorem AllExact.cons {s : ContextSlice} {rest : List ContextSlice} (hs : Exact h repoRoot s)
    (hrest : AllExact h repoRoot rest) : AllExact h repoRoot (s :: rest) :=
  List.forall_mem_cons.2 ⟨hs, hrest⟩

theorem AllExact.grounded {slices : List ContextSlice} (hslices : AllExact h repoRoot slices) :
    AllGrounded h repoRoot slices := fun s hs => (hslices s hs).grounded

theorem fileText_of_readImported {file : JsString} {lines : List JsString}
    (hread : readImported h repoRoot file = some lines) :
    ∃ text, fileText h repoRoot file = some text ∧ lines = text.splitOn lineFeed := by
  unfold readImported at hread
  obtain ⟨abs, habs, htext⟩ := Option.bind_eq_some_iff.1 hread
  obtain ⟨text, hopened, rfl⟩ := Option.map_eq_some_iff.1 htext
  exact ⟨text, by rw [fileText, habs, Option.bind_some, hopened], rfl⟩

theorem fileText_of_read {file : JsString} {lines : List JsString} (hread : read h repoRoot file = some lines) :
    ∃ text, fileText h repoRoot file = some text ∧ lines = text.splitOn lineFeed := by
  unfold read readLines at hread
  obtain ⟨abs, habs, htext⟩ := Option.bind_eq_some_iff.1 hread
  apply fileText_of_readImported
  rw [readImported, (Option.filter_eq_some_iff.1 habs).1, Option.bind_some]
  exact htext

theorem sliceNode_cases {node : NodeRow} {role : SliceRole} {s : ContextSlice}
    (hs : sliceNode (read h repoRoot) node role = some s) :
    named node.file = some s.file ∧ Exact h repoRoot s := by
  unfold sliceNode at hs
  obtain ⟨file, hfile, hs⟩ := Option.bind_eq_some_iff.1 hs
  obtain ⟨lines, hlines, hs⟩ := Option.bind_eq_some_iff.1 hs
  obtain ⟨text, htext, rfl⟩ := fileText_of_read hlines
  dsimp only at hs
  split at hs
  · cases hs
  · rename_i hordered
    cases hs
    exact ⟨hfile, ⟨text, htext, le_max_left _ _, min_le_left _ _, rfl⟩, not_lt.1 hordered⟩

theorem exact_sliceNode {node : NodeRow} {role : SliceRole} {s : ContextSlice}
    (hs : sliceNode (read h repoRoot) node role = some s) : Exact h repoRoot s := (sliceNode_cases hs).2

/-! ## Headers -/

/-- A run that is left over is a run of the lines. -/
theorem uncoveredRuns_spec (covered : Covered) (lines : List JsString) : ∀ l, ∀ seg ∈ uncoveredRuns covered l lines,
    l ≤ seg.start ∧ seg.lines ≠ [] ∧ seg.lines <+: lines.drop (seg.start - l) := by
  induction lines with
  | nil => exact fun _ _ hseg => absurd hseg List.not_mem_nil
  | cons line rest ih =>
    intro l seg hseg
    have hlater {seg : Segment} (hrest : seg ∈ uncoveredRuns covered (l + 1) rest) :
        l ≤ seg.start ∧ seg.lines ≠ [] ∧ seg.lines <+: (line :: rest).drop (seg.start - l) := by
      obtain ⟨hstart, hne, hpre⟩ := ih (l + 1) seg hrest
      refine ⟨Nat.le_of_succ_le hstart, hne, ?_⟩
      rw [show seg.start - l = (seg.start - (l + 1)) + 1 by omega, List.drop_succ_cons]
      exact hpre
    have hone : (⟨l, [line]⟩ : Segment).start - l = 0 := Nat.sub_self l
    rw [uncoveredRuns] at hseg
    split at hseg
    · exact hlater hseg
    · cases hruns : uncoveredRuns covered (l + 1) rest with
      | nil =>
        rw [hruns] at hseg
        rw [List.mem_singleton.1 hseg]
        refine ⟨le_rfl, List.cons_ne_nil _ _, ?_⟩
        rw [hone]
        exact ⟨rest, rfl⟩
      | cons run more =>
        rw [hruns] at hseg
        dsimp only at hseg
        split at hseg
        · rename_i hnext
          rcases List.mem_cons.1 hseg with rfl | hmore
          · -- the run that follows goes on to this line
            obtain ⟨-, -, hpre⟩ := ih (l + 1) run (hruns ▸ List.mem_cons_self)
            rw [hnext, Nat.sub_self, List.drop_zero] at hpre
            refine ⟨le_rfl, List.cons_ne_nil _ _, ?_⟩
            rw [show (⟨l, line :: run.lines⟩ : Segment).start - l = 0 from Nat.sub_self l, List.drop_zero]
            exact List.prefix_cons_inj line |>.2 hpre
          · exact hlater (hruns ▸ List.mem_cons_of_mem _ hmore)
        · rcases List.mem_cons.1 hseg with rfl | hmore
          · refine ⟨le_rfl, List.cons_ne_nil _ _, ?_⟩
            rw [hone]
            exact ⟨rest, rfl⟩
          · exact hlater (hruns ▸ hmore)

theorem mem_computeModuleScope {file : JsString} {lines : List JsString} {anchors : List (Int × Int)} {maxLines : Nat}
    {seg : Segment} (hseg : seg ∈ computeModuleScope db file lines anchors maxLines) :
    seg ∈ uncoveredRuns (coveredBy lines (db.nodesIn file)) 1 lines := by
  unfold computeModuleScope at hseg
  dsimp only at hseg
  split at hseg
  · exact List.mem_of_mem_filter (List.mem_of_mem_filter hseg)
  · exact List.mem_of_mem_filter hseg

theorem exact_headerSlice {file text : JsString} {anchors : List (Int × Int)} {maxLines : Nat} {seg : Segment}
    (htext : fileText h repoRoot file = some text)
    (hseg : seg ∈ computeModuleScope db file (text.splitOn lineFeed) anchors maxLines) :
    Exact h repoRoot (headerSlice file seg) := by
  obtain ⟨hstart, hne, rest, hrest⟩ := uncoveredRuns_spec _ _ 1 seg (mem_computeModuleScope db hseg)
  have hlen : 1 ≤ seg.lines.length := List.length_pos_iff.2 hne
  have hfits : seg.lines.length + rest.length = (text.splitOn lineFeed).length - (seg.start - 1) := by
    rw [← List.length_append, hrest, List.length_drop]
  have hend : seg.end = seg.start - 1 + seg.lines.length := by
    unfold Segment.end
    omega
  refine ⟨⟨text, htext, Int.ofNat_le.2 hstart, ?_, ?_⟩, ?_⟩
  · change ((seg.end : Nat) : Int) ≤ _
    rw [hend]
    omega
  · change joinLines seg.lines = linesText _ (seg.start : Int) (seg.end : Int)
    have hdrop : ((seg.start : Int) - 1).toNat = seg.start - 1 := by omega
    unfold linesText
    rw [Int.toNat_natCast, hdrop, hend, ← List.take_drop, ← hrest, List.take_left]
  · change (seg.start : Int) ≤ (seg.end : Int)
    omega

/-! ## The passes -/

theorem exact_addRanked (roots : List NodeRow) (via : SliceVia) (cap : Nat) (taken : List JsString)
    (ranked : List (JsString × Nat)) :
    AllExact h repoRoot (addRanked db h repoRoot roots via cap taken ranked).1 := by
  fun_induction addRanked db h repoRoot roots via cap taken ranked with
  | case1 | case2 => exact allExact_nil
  | case3 | case4 | case5 | case6 | case7 | case8 => assumption
  | case9 =>
    rename_i hslice _ _ ih
    exact .cons ((exact_sliceNode hslice).of_same rfl rfl rfl rfl) ih

theorem exact_capRef {id : JsString} {file : Option JsString} {maxRefSliceLines : Nat} {s : ContextSlice}
    (hmax : 1 ≤ maxRefSliceLines) (hfile : file.getD [] = s.file) (hs : Exact h repoRoot s) :
    Exact h repoRoot (capRef h repoRoot id file maxRefSliceLines s).1 := by
  unfold capRef
  dsimp only
  split
  · rename_i hlong
    rw [hfile]
    cases hread : read h repoRoot s.file with
    | none => exact hs
    | some lines =>
      obtain ⟨text, htext, rfl⟩ := fileText_of_read hread
      obtain ⟨⟨text', htext', hlifted⟩, hordered⟩ := hs
      have heq : text' = text := Option.some.inj (htext'.symm.trans htext)
      subst heq
      have hends := hlifted.ends
      refine ⟨⟨text', htext, hlifted.starts, ?_, rfl⟩, ?_⟩
      · dsimp only
        omega
      · dsimp only
        omega
  · exact hs

theorem exact_refSlice {rootText : JsString} {maxRefSliceLines : Nat} {st : RefState} {r : NodeRow}
    {found : ContextSlice × List JsString} (hmax : 1 ≤ maxRefSliceLines)
    (hfound : refSlice db h repoRoot rootText maxRefSliceLines st r = some found) :
    Exact h repoRoot found.1 := by
  unfold refSlice at hfound
  iterate 5
    split at hfound
    · cases hfound
  obtain ⟨node, -, hfound⟩ := Option.bind_eq_some_iff.1 hfound
  iterate 3
    split at hfound
    · cases hfound
  obtain ⟨s, hs, rfl⟩ := Option.map_eq_some_iff.1 hfound
  have hnamed := Option.filter_eq_some_iff.1 (sliceNode_cases hs).1
  apply exact_capRef hmax
  · rw [hnamed.1]
    rfl
  · exact (exact_sliceNode hs).of_same rfl rfl rfl rfl

theorem exact_tryAddRef (rootText : JsString) {maxRefSliceLines : Nat} (hmax : 1 ≤ maxRefSliceLines) {st : RefState}
    (r : NodeRow) (hst : AllExact h repoRoot st.1.slices) :
    AllExact h repoRoot (tryAddRef db h repoRoot rootText maxRefSliceLines st r).1.slices := by
  unfold tryAddRef
  split
  · exact hst
  · rename_i s notes hfound
    exact hst.append (.cons (exact_refSlice db hmax hfound) allExact_nil)

theorem exact_addRefNeighbors (st : PassState) (rootText : JsString) (rootFiles : List JsString)
    {maxRefSliceLines : Nat} (hmax : 1 ≤ maxRefSliceLines) (hst : AllExact h repoRoot st.slices) :
    AllExact h repoRoot
      (addRefNeighbors localeCompare db h repoRoot st rootText rootFiles maxRefSliceLines).slices := by
  have hfold : ∀ (rows : List NodeRow) (st : RefState), AllExact h repoRoot st.1.slices →
      AllExact h repoRoot (rows.foldl (tryAddRef db h repoRoot rootText maxRefSliceLines) st).1.slices := by
    intro rows
    induction rows with
    | nil => exact fun _ hst => hst
    | cons r rows ih => exact fun st hst => ih _ (exact_tryAddRef db rootText hmax r hst)
  exact hfold _ _ hst

theorem exact_addCallerNeighbors (st : PassState) (maxCallers : Nat) (hst : AllExact h repoRoot st.slices) :
    AllExact h repoRoot (addCallerNeighbors localeCompare db h repoRoot st maxCallers).slices := by
  unfold addCallerNeighbors
  split
  · exact hst
  · exact hst.append (exact_addRanked db _ _ _ _ _)

theorem declLength_le (st : Nat × Bool) (lines : List JsString) : declLength st lines ≤ lines.length := by
  induction lines generalizing st with
  | nil => exact le_rfl
  | cons line rest ih =>
    have hrest := ih (line.foldl bracketStep st)
    rw [declLength, List.length_cons]
    split
    · split <;> omega
    · split <;> omega

theorem one_le_declLength (st : Nat × Bool) {lines : List JsString} (hne : lines ≠ []) : 1 ≤ declLength st lines := by
  obtain ⟨line, rest, rfl⟩ := List.exists_cons_of_ne_nil hne
  rw [declLength]
  split
  · split <;> omega
  · split <;> omega

theorem exact_locate {maxLines : Nat} (hmax : 1 ≤ maxLines) (name : JsString) (files : List JsString) (c : Collected)
    (hc : AllExact h repoRoot c.out) :
    AllExact h repoRoot (locate (readImported h repoRoot) maxLines name c files).out := by
  induction files with
  | nil => exact hc
  | cons file rest ih =>
    rw [locate]
    split
    · exact ih
    · rename_i lines declLine hfound
      obtain ⟨lines', hlines, hfound⟩ := Option.bind_eq_some_iff.1 hfound
      obtain ⟨line, hline, heq⟩ := Option.map_eq_some_iff.1 hfound
      cases heq
      obtain ⟨text, htext, rfl⟩ := fileText_of_readImported hlines
      obtain ⟨i, hi, rfl⟩ := Option.map_eq_some_iff.1 hline
      dsimp only
      split
      · exact ih
      · have hi := (List.findIdx?_eq_some_iff_getElem.1 hi).1
        have hwindow : ((text.splitOn lineFeed).drop i).take maxLines ≠ [] := by
          rw [Ne, ← List.length_eq_zero_iff, List.length_take, List.length_drop]
          omega
        have hlen := declLength_le (0, false) (((text.splitOn lineFeed).drop i).take maxLines)
        have hone := one_le_declLength (0, false) hwindow
        rw [List.length_take, List.length_drop] at hlen
        have hend : (extractDecl (text.splitOn lineFeed) (i + 1) maxLines).1 =
            i + declLength (0, false) (((text.splitOn lineFeed).drop i).take maxLines) := by
          rw [extractDecl, Nat.add_sub_cancel]
        refine hc.append (.cons ⟨⟨text, htext, ?_, ?_, ?_⟩, ?_⟩ allExact_nil)
        · change (1 : Int) ≤ ((i + 1 : Nat) : Int)
          omega
        · change (((extractDecl (text.splitOn lineFeed) (i + 1) maxLines).1 : Nat) : Int) ≤ _
          omega
        · change (extractDecl (text.splitOn lineFeed) (i + 1) maxLines).2 =
            linesText _ ((i + 1 : Nat) : Int) ((extractDecl (text.splitOn lineFeed) (i + 1) maxLines).1 : Nat)
          have hstart : (((i + 1 : Nat) : Int) - 1).toNat = i := by omega
          rw [hend]
          unfold extractDecl linesText
          rw [Nat.add_sub_cancel, Int.toNat_natCast, hstart]
          dsimp only
          rw [← List.take_drop, List.take_take, Nat.min_eq_left (by omega)]
        · change ((i + 1 : Nat) : Int) ≤ ((extractDecl (text.splitOn lineFeed) (i + 1) maxLines).1 : Nat)
          omega

theorem exact_collectImportedSymbols (target : NodeRow) (targetText : JsString) (taken : List JsString)
    (maxSymbols : Nat) :
    AllExact h repoRoot (collectImportedSymbols db h repoRoot target targetText taken maxSymbols).1 := by
  unfold collectImportedSymbols
  split
  · exact allExact_nil
  · have hfold : ∀ (names : List JsString) (c : Collected), AllExact h repoRoot c.out →
        AllExact h repoRoot (names.foldl (fun c name =>
          if maxSymbols ≤ c.out.length then c
          else if isIndexedNode db name then c
          else locate (readImported h repoRoot) DEFAULT_MAX_LINES name c (importedFilesOf db target)) c).out := by
      intro names
      induction names with
      | nil => exact fun _ hc => hc
      | cons name names ih =>
        intro c hc
        rw [List.foldl_cons]
        apply ih
        split
        · exact hc
        · split
          · exact hc
          · exact exact_locate (by decide) _ _ c hc
    exact hfold (candidateIdentifiers targetText) _ allExact_nil

theorem exact_importedSlices (maxSymbols : Nat) (rootText : JsString → JsString) (roots : List NodeRow) :
    ∀ (taken : List JsString) (added : List ContextSlice), AllExact h repoRoot added →
      AllExact h repoRoot (importedSlices db h repoRoot maxSymbols rootText taken roots added) := by
  induction roots with
  | nil => exact fun _ _ hadded => hadded
  | cons root rest ih =>
    intro taken added hadded
    rw [importedSlices]
    split
    · exact hadded
    · exact ih _ _ (hadded.append (exact_collectImportedSymbols db _ _ _ _))

theorem exact_addImportedSymbolNeighbors (st : PassState) (rootText : JsString → JsString) (maxSymbols : Nat)
    (hst : AllExact h repoRoot st.slices) :
    AllExact h repoRoot (addImportedSymbolNeighbors db h repoRoot st rootText maxSymbols).slices := by
  unfold addImportedSymbolNeighbors
  split
  · exact hst
  · exact hst.append (exact_importedSlices db _ _ _ _ _ allExact_nil)

theorem exact_startOne (maxNeighbors maxHeaderLines : Nat) (target : NodeRow) :
    AllExact h repoRoot (startOne db h repoRoot maxNeighbors maxHeaderLines target).slices := by
  refine AllExact.append ?_ ?_
  · cases hfile : named target.file with
    | none => exact allExact_nil
    | some file =>
      dsimp only
      cases hread : read h repoRoot file with
      | none => exact allExact_nil
      | some lines =>
        obtain ⟨text, htext, rfl⟩ := fileText_of_read hread
        intro s hs
        obtain ⟨seg, hseg, rfl⟩ := List.mem_map.1 hs
        unfold moduleScopeSegments at hseg
        rw [(Option.filter_eq_some_iff.1 hfile).1, Option.getD_some] at hseg
        exact exact_headerSlice db htext hseg
  · intro s hs
    exact exact_sliceNode (Option.mem_toList.1 hs)

theorem exact_rootHeader (maxHeaderLines : Nat) (file : JsString) (fileRoots : List NodeRow) :
    AllExact h repoRoot (rootHeader db h repoRoot maxHeaderLines file fileRoots).1 := by
  unfold rootHeader
  split
  · exact allExact_nil
  · rename_i hread
    obtain ⟨text, htext, rfl⟩ := fileText_of_read hread
    intro s hs
    obtain ⟨seg, hseg, rfl⟩ := List.mem_map.1 hs
    exact exact_headerSlice db htext hseg

theorem exact_startAll (maxNeighbors maxHeaderLines : Nat) (roots : List NodeRow) :
    AllExact h repoRoot (startAll db h repoRoot maxNeighbors maxHeaderLines roots).slices := by
  refine AllExact.append ?_ ?_
  · intro s hs
    obtain ⟨header, hheader, hs⟩ := List.mem_flatMap.1 hs
    obtain ⟨row, -, rfl⟩ := List.mem_map.1 hheader
    exact exact_rootHeader db maxHeaderLines row.1 row.2 s hs
  · intro s hs
    obtain ⟨target, htarget, hs⟩ := List.mem_filterMap.1 hs
    obtain ⟨r, -, rfl⟩ := List.mem_map.1 htarget
    exact exact_sliceNode hs

theorem exact_addCalleeNeighbors (st : PassState) (omitReasonSuffix : JsString)
    (hst : AllExact h repoRoot st.slices) :
    AllExact h repoRoot (addCalleeNeighbors localeCompare db h repoRoot st omitReasonSuffix).slices :=
  hst.append (exact_addRanked db _ .call _ _ _)

theorem AllExact.ite {c : Prop} [Decidable c] {st st' : PassState} (hst : AllExact h repoRoot st.slices)
    (hst' : AllExact h repoRoot st'.slices) : AllExact h repoRoot (if c then st else st').slices := by
  split
  · exact hst
  · exact hst'

theorem le_countOpt (v : Option JsNumber) {dflt least : Nat} (hdflt : least ≤ dflt) :
    least ≤ countOpt v dflt least := by
  unfold countOpt
  split
  · split
    · assumption
    · exact hdflt
  · exact hdflt

/-- Every slice of a pack is a run of lines of its file. -/
theorem exact_buildContextPack {rawId : JsString} {opts : ContextPackOptions} {pack : ContextPack}
    (hpack : buildContextPack localeCompare db h repoRoot rawId opts = some pack) :
    AllExact h repoRoot pack.slices := by
  unfold buildContextPack at hpack
  obtain ⟨resolved, -, hpack⟩ := Option.bind_eq_some_iff.1 hpack
  obtain ⟨target, -, rfl⟩ := Option.map_eq_some_iff.1 hpack
  have hstart : AllExact h repoRoot (startOne db h repoRoot (countOpt opts.maxNeighbors DEFAULT_MAX_NEIGHBORS 0)
      (countOpt opts.maxHeaderLines DEFAULT_MAX_HEADER_LINES 0) target).slices := exact_startOne db _ _ target
  have hcallees := (exact_addCalleeNeighbors localeCompare db _ (ascii "unresolved/module") hstart).ite
    (c := opts.neighbors ≠ some false ∧ countOpt opts.maxNeighbors DEFAULT_MAX_NEIGHBORS 0 > 0) hstart
  have hmax := le_countOpt opts.maxRefSliceLines (show 1 ≤ DEFAULT_MAX_REF_SLICE_LINES by decide)
  dsimp only [finishPack]
  apply AllExact.ite
  · apply exact_addImportedSymbolNeighbors
    apply exact_addCallerNeighbors
    split
    · exact (exact_addRefNeighbors localeCompare db _ _ _ hmax hcallees).ite hcallees
    · exact hcallees
  · apply exact_addCallerNeighbors
    split
    · exact (exact_addRefNeighbors localeCompare db _ _ _ hmax hcallees).ite hcallees
    · exact hcallees

theorem exact_buildContextPackForSymbols {rawIds : List JsString} {opts : ContextPackOptions} {pack : ContextPack}
    (hpack : buildContextPackForSymbols localeCompare db h repoRoot rawIds opts = some pack) :
    AllExact h repoRoot pack.slices := by
  unfold buildContextPackForSymbols at hpack
  dsimp only at hpack
  split at hpack
  · cases hpack
  · cases hpack
    have hstart : AllExact h repoRoot (startAll db h repoRoot (countOpt opts.maxNeighbors DEFAULT_MAX_NEIGHBORS 0)
        (countOpt opts.maxHeaderLines DEFAULT_MAX_HEADER_LINES 0) (rawIds.foldl (addRoot db) [])).slices :=
      exact_startAll db _ _ _
    have hmax := le_countOpt opts.maxRefSliceLines (show 1 ≤ DEFAULT_MAX_REF_SLICE_LINES by decide)
    have hneighbors (rootText : JsString) (rootFiles : List JsString) :=
      (exact_addRefNeighbors localeCompare db _ rootText rootFiles hmax
        (exact_addCalleeNeighbors localeCompare db _ (ascii "unresolved/module/dup") hstart)).ite
      (c := opts.neighbors ≠ some false ∧ countOpt opts.maxNeighbors DEFAULT_MAX_NEIGHBORS 0 > 0) hstart
    dsimp only [finishPack]
    apply AllExact.ite
    · apply exact_addImportedSymbolNeighbors
      apply exact_addCallerNeighbors
      exact hneighbors _ _
    · apply exact_addCallerNeighbors
      exact hneighbors _ _

/-! ## What the lines of a text weigh -/

def lineWeight (lines : List JsString) (i : Nat) : Nat := (lines[i]?.map fun line => line.length + 1).getD 0

theorem sum_lineWeight (lines : List JsString) :
    (lines.map fun line => line.length + 1).sum = ∑ i ∈ Finset.range lines.length, lineWeight lines i := by
  induction lines with
  | nil => rfl
  | cons line lines ih =>
    rw [List.map_cons, List.sum_cons, List.length_cons, Finset.sum_range_succ', ih, Nat.add_comm]
    rfl

theorem length_joinLines (lines : List JsString) :
    (joinLines lines).length = (lines.map fun line => line.length + 1).sum - 1 := by
  induction lines with
  | nil => rfl
  | cons line lines ih =>
    by_cases hne : lines = []
    · rw [hne]
      simp
    · have hpos : 0 < (lines.map fun line => line.length + 1).sum := by
        obtain ⟨first, rest, rfl⟩ := List.exists_cons_of_ne_nil hne
        rw [List.map_cons, List.sum_cons]
        omega
      rw [joinLines_cons line hne, List.length_append, List.length_cons, ih, List.map_cons, List.sum_cons]
      omega

/-- A run of lines is as long as they weigh, less one. -/
theorem length_linesText (lines : List JsString) {start fin : Int} (hfin : fin ≤ lines.length) :
    (linesText lines start fin).length =
      (∑ i ∈ Finset.Ico (start - 1).toNat fin.toNat, lineWeight lines i) - 1 := by
  unfold linesText
  rw [length_joinLines, sum_lineWeight, Finset.sum_Ico_eq_sum_range, List.length_drop, List.length_take,
    Nat.min_eq_left (by omega)]
  congr 1
  apply Finset.sum_congr rfl
  intro j hj
  have hj := Finset.mem_range.1 hj
  unfold lineWeight
  rw [List.getElem?_drop, List.getElem?_take_of_lt (by omega)]

theorem length_text (text : JsString) :
    text.length = (∑ i ∈ Finset.range (text.splitOn lineFeed).length, lineWeight (text.splitOn lineFeed) i) - 1 := by
  have hjoin : joinLines (text.splitOn lineFeed) = text := List.intercalate_splitOn lineFeed
  rw [← sum_lineWeight, ← length_joinLines, hjoin]

/-! ## Slices that do not overlap -/

/-- No line is in both. -/
def Apart (s t : ContextSlice) : Prop := s.file ≠ t.file ∨ s.endLine < t.startLine ∨ t.endLine < s.startLine

instance (s t : ContextSlice) : Decidable (Apart s t) := inferInstanceAs (Decidable (_ ∨ _ ∨ _))

def sliceRange (s : ContextSlice) : Finset Nat := Finset.Ico (s.startLine - 1).toNat s.endLine.toNat

theorem sum_text_le {text : JsString} (slices : List ContextSlice) : ∀ (lines : Finset Nat),
    (∀ s ∈ slices, Lifted text s ∧ sliceRange s ⊆ lines) →
    (slices.Pairwise fun s t => Disjoint (sliceRange s) (sliceRange t)) →
    charsOf slices ≤ (∑ i ∈ lines, lineWeight (text.splitOn lineFeed) i) - 1 := by
  induction slices with
  | nil => exact fun _ _ _ => Nat.zero_le _
  | cons s rest ih =>
    intro lines hslices hapart
    obtain ⟨⟨hlifted, hsub⟩, hrest⟩ := List.forall_mem_cons.1 hslices
    obtain ⟨hhead, hapart⟩ := List.pairwise_cons.1 hapart
    have hothers := ih (lines \ sliceRange s) (fun t ht => ⟨(hrest t ht).1, fun i hi => Finset.mem_sdiff.2
      ⟨(hrest t ht).2 hi, fun hs => Finset.disjoint_left.1 (hhead t ht) hs hi⟩⟩) hapart
    have hone : s.text.length = (∑ i ∈ sliceRange s, lineWeight (text.splitOn lineFeed) i) - 1 := by
      rw [hlifted.text]
      exact length_linesText _ hlifted.ends
    have hsum := Finset.sum_sdiff (f := lineWeight (text.splitOn lineFeed)) hsub
    change s.text.length + charsOf rest ≤ _
    omega

/-- Slices of one text that do not overlap are together no longer than it. -/
theorem charsOf_le_length {text : JsString} {slices : List ContextSlice} (hlifted : ∀ s ∈ slices, Lifted text s)
    (hsame : ∀ s ∈ slices, ∀ t ∈ slices, s.file = t.file) (hapart : slices.Pairwise Apart) :
    charsOf slices ≤ text.length := by
  rw [length_text text]
  refine sum_text_le slices _ (fun s hs => ⟨hlifted s hs, ?_⟩) ?_
  · intro i hi
    have hends := (hlifted s hs).ends
    have := (Finset.mem_Ico.1 hi).2
    exact Finset.mem_range.2 (by omega)
  · apply hapart.imp_of_mem
    intro s t hs ht hst
    have hlines := hst.resolve_left fun hne => hne (hsame s hs t ht)
    have hs := (hlifted s hs).starts
    have ht := (hlifted t ht).starts
    apply Finset.disjoint_left.2
    intro i his hit
    have := Finset.mem_Ico.1 his
    have := Finset.mem_Ico.1 hit
    omega

theorem charsOf_filter (p : ContextSlice → Bool) (slices : List ContextSlice) :
    charsOf slices = charsOf (slices.filter p) + charsOf (slices.filter fun s => !p s) := by
  induction slices with
  | nil => rfl
  | cons s rest ih =>
    have hcons (l : List ContextSlice) : charsOf (s :: l) = s.text.length + charsOf l := rfl
    rw [hcons, ih]
    cases hp : p s
    · rw [List.filter_cons_of_neg (by simp [hp]), List.filter_cons_of_pos (by simp [hp]), hcons]
      omega
    · rw [List.filter_cons_of_pos hp, List.filter_cons_of_neg (by simp [hp]), hcons]
      omega

/-- File by file. -/
theorem charsOf_le_sum {size : JsString → Nat} (files : List JsString) : ∀ (slices : List ContextSlice),
    (∀ s ∈ slices, s.file ∈ files) →
    (∀ file, charsOf (slices.filter fun s => s.file = file) ≤ size file) → charsOf slices ≤ (files.map size).sum := by
  induction files with
  | nil =>
    intro slices hfiles _
    cases slices with
    | nil => exact le_rfl
    | cons s rest => exact absurd (hfiles s List.mem_cons_self) List.not_mem_nil
  | cons file files ih =>
    intro slices hfiles hsize
    have hrest := ih (slices.filter fun s => !decide (s.file = file)) (fun s hs => ?_) fun other => ?_
    · have hhere := hsize file
      rw [charsOf_filter (fun s => s.file = file), List.map_cons, List.sum_cons]
      omega
    · obtain ⟨hs, hne⟩ := List.mem_filter.1 hs
      exact (List.mem_cons.1 (hfiles s hs)).resolve_left (by simpa using hne)
    · refine le_trans ?_ (hsize other)
      have hcomm : (slices.filter fun s => !decide (s.file = file)).filter (fun s => s.file = other) =
          (slices.filter fun s => s.file = other).filter (fun s => !decide (s.file = file)) := by
        rw [List.filter_filter, List.filter_filter]
        exact List.filter_congr fun s _ => Bool.and_comm _ _
      rw [hcomm, charsOf_filter (fun s => !decide (s.file = file)) (slices.filter fun s => s.file = other)]
      exact Nat.le_add_right _ _

/-! ## The files of a rung -/

theorem rungFiles_spec (slices : List ContextSlice) :
    (rungFiles slices).Nodup ∧ ∀ file, file ∈ rungFiles slices ↔ ∃ s ∈ slices, s.file = file := by
  induction slices using List.reverseRecOn with
  | nil => exact ⟨List.nodup_nil, fun file => by simp [rungFiles]⟩
  | append_singleton slices s ih =>
    obtain ⟨hnodup, hmem⟩ := ih
    have hstep : rungFiles (slices ++ [s]) =
        if (rungFiles slices).contains s.file then rungFiles slices else rungFiles slices ++ [s.file] := by
      rw [rungFiles, List.foldl_append]
      rfl
    rw [hstep]
    split
    · rename_i hseen
      refine ⟨hnodup, fun file => ?_⟩
      rw [hmem]
      constructor
      · rintro ⟨t, ht, rfl⟩
        exact ⟨t, List.mem_append_left _ ht, rfl⟩
      · rintro ⟨t, ht, rfl⟩
        rcases List.mem_append.1 ht with ht | ht
        · exact ⟨t, ht, rfl⟩
        · rw [List.mem_singleton.1 ht]
          exact (hmem _).1 (List.contains_iff_mem.1 hseen)
    · rename_i hnew
      have hnew : s.file ∉ rungFiles slices := fun hmem => hnew (List.contains_iff_mem.2 hmem)
      refine ⟨List.nodup_append.2 ⟨hnodup, List.nodup_singleton _, ?_⟩, fun file => ?_⟩
      · intro a ha b hb heq
        rw [List.mem_singleton.1 hb] at heq
        exact hnew (heq ▸ ha)
      · rw [List.mem_append, hmem, List.mem_singleton]
        constructor
        · rintro (⟨t, ht, rfl⟩ | rfl)
          · exact ⟨t, List.mem_append_left _ ht, rfl⟩
          · exact ⟨s, List.mem_append_right _ (List.mem_singleton_self s), rfl⟩
        · rintro ⟨t, ht, rfl⟩
          rcases List.mem_append.1 ht with ht | ht
          · exact .inl ⟨t, ht, rfl⟩
          · exact .inr (List.mem_singleton.1 ht ▸ rfl)

theorem mem_rungFiles {slices : List ContextSlice} {s : ContextSlice} (hs : s ∈ slices) : s.file ∈ rungFiles slices :=
  ((rungFiles_spec slices).2 _).2 ⟨s, hs, rfl⟩

theorem estimateTokens_mono {a b : Nat} (hab : a ≤ b) : estimateTokens a ≤ estimateTokens b :=
  Nat.div_le_div_right (Nat.add_le_add_right hab 3)

theorem charsOf_append (a b : List ContextSlice) : charsOf (a ++ b) = charsOf a + charsOf b := by
  unfold charsOf
  rw [List.map_append, List.sum_append]

theorem addSlice_extends (merged : List ContextSlice) (s : ContextSlice) :
    ∃ extra, addSlice merged s = merged ++ extra ∧ ∀ t ∈ extra, t = s := by
  unfold addSlice
  split
  · exact ⟨[], (List.append_nil _).symm, fun t ht => absurd ht List.not_mem_nil⟩
  · exact ⟨[s], rfl, fun t ht => List.mem_singleton.1 ht⟩

/-- The second hop adds slices of packs at the end. -/
theorem foldl_addSlice_extends (slices : List ContextSlice) : ∀ merged : List ContextSlice,
    ∃ extra, slices.foldl addSlice merged = merged ++ extra ∧ ∀ t ∈ extra, t ∈ slices := by
  induction slices with
  | nil => exact fun merged => ⟨[], (List.append_nil _).symm, fun t ht => absurd ht List.not_mem_nil⟩
  | cons s rest ih =>
    intro merged
    obtain ⟨first, hfirst, hs⟩ := addSlice_extends merged s
    obtain ⟨extra, hextra, hrest⟩ := ih (merged ++ first)
    refine ⟨first ++ extra, ?_, fun t ht => ?_⟩
    · rw [List.foldl_cons, hfirst, hextra, List.append_assoc]
    · rcases List.mem_append.1 ht with ht | ht
      · exact hs t ht ▸ List.mem_cons_self
      · exact List.mem_cons_of_mem _ (hrest t ht)

theorem twoHop_extends {packSlices : List ContextSlice} (packOpts : ContextPackOptions) :
    ∃ extra, twoHop localeCompare db h repoRoot packSlices packOpts = packSlices ++ extra ∧
      AllGrounded h repoRoot extra := by
  unfold twoHop
  generalize calledIds packSlices = ids
  induction ids using List.reverseRecOn with
  | nil => exact ⟨[], (List.append_nil _).symm, allGrounded_nil⟩
  | append_singleton ids id ih =>
    obtain ⟨extra, hextra, hgrounded⟩ := ih
    rw [List.foldl_append, List.foldl_cons, List.foldl_nil, hextra]
    cases hsub : buildContextPack localeCompare db h repoRoot id packOpts with
    | none => exact ⟨extra, rfl, hgrounded⟩
    | some sub =>
      obtain ⟨more, hmore, hmem⟩ := foldl_addSlice_extends sub.slices (packSlices ++ extra)
      refine ⟨extra ++ more, hmore.trans (List.append_assoc _ _ _), hgrounded.append fun s hs => ?_⟩
      exact (exact_buildContextPack localeCompare db hsub s (hmem s hs)).grounded

end Grounded

/-! ## The rungs in order -/

section Ladder
variable (localeCompare : JsString → JsString → Ordering) (db : PackDb) (h later : Files) (repoRoot : JsString)
  (readError : JsString → JsString)

def ContextRung.Covers (r : ContextRung) (file : JsString) (line : Int) : Prop :=
  ∃ s ∈ r.slices, s.file = file ∧ s.startLine ≤ line ∧ line ≤ s.endLine

/-- The last rung reads the file as the packs did. -/
def Reread (file : JsString) : Prop := fileText later repoRoot file = fileText h repoRoot file

/-- The line that a final line feed starts, or the one of an empty file. -/
def EmptyLast (file : JsString) (line : Int) : Prop :=
  ∃ text, fileText h repoRoot file = some text ∧ (text.splitOn lineFeed).getLast? = some [] ∧
    line = contentLines text + 1

/-- All that the one rung covers and the other does not is what the whole files leave out. -/
def Keeps (a b : ContextRung) : Prop :=
  ∀ file line, a.Covers file line → b.Covers file line ∨
    b.level = .wholeFile ∧ (¬ Reread h later repoRoot file ∨ EmptyLast h repoRoot file line)

/-- The rung is no dearer, the whole files apart where they were not all read or slices overlap. -/
def Cheaper (a b : ContextRung) : Prop :=
  (b.level = .wholeFile → (∀ s ∈ a.slices, Reread h later repoRoot s.file) ∧ a.slices.Pairwise Apart) →
    a.estTokens ≤ b.estTokens

variable {h later repoRoot}

theorem keeps_refl (a : ContextRung) : Keeps h later repoRoot a a := fun _ _ hcovers => .inl hcovers

theorem keeps_of_subset {a b : ContextRung} (hsub : ∀ s ∈ a.slices, s ∈ b.slices) : Keeps h later repoRoot a b := by
  rintro file line ⟨s, hs, hplace⟩
  exact .inl ⟨s, hsub s hs, hplace⟩

theorem mem_wholeSlices {files : List JsString} {file text : JsString} (hfile : file ∈ files)
    (htext : fileText later repoRoot file = some text) : fileSlice file text ∈ wholeSlices later repoRoot files :=
  List.mem_filterMap.2 ⟨file, hfile, by rw [htext]; rfl⟩

/-- Read again, a file is covered up to its last line. -/
theorem keeps_whole {level : RungLevel} {slices merged : List ContextSlice} (hsub : ∀ s ∈ slices, s ∈ merged)
    (hgrounded : AllGrounded h repoRoot slices) :
    Keeps h later repoRoot (makeRung level slices)
      (makeRung .wholeFile (wholeSlices later repoRoot (rungFiles merged))) := by
  rintro file line ⟨s, hs, rfl, hstart, hend⟩
  obtain ⟨text, htext, hlifted⟩ := hgrounded s hs
  by_cases hread : Reread h later repoRoot s.file
  · have hline : line ≤ contentLines text ∨ EmptyLast h repoRoot s.file line := by
      have hends := hlifted.ends
      have hparts : 0 < (text.splitOn lineFeed).length := List.length_pos_iff.2 (List.splitOn_ne_nil _ _)
      by_cases hlast : (text.splitOn lineFeed).getLast? = some []
      · have hcount : contentLines text = (text.splitOn lineFeed).length - 1 := if_pos hlast
        by_cases hin : line ≤ contentLines text
        · exact .inl hin
        · exact .inr ⟨text, htext, hlast, by omega⟩
      · have hcount : contentLines text = (text.splitOn lineFeed).length := if_neg hlast
        exact .inl (by omega)
    rcases hline with hline | hline
    · have hmem := mem_wholeSlices (mem_rungFiles (hsub s hs)) (hread.trans htext)
      exact .inl ⟨fileSlice s.file text, hmem, rfl, le_trans hlifted.starts hstart, hline⟩
    · exact .inr ⟨rfl, .inr hline⟩
  · exact .inr ⟨rfl, .inl hread⟩

/-- The whole files cost what they hold. -/
theorem charsOf_wholeSlices (files : List JsString) :
    charsOf (wholeSlices later repoRoot files) =
      (files.map fun file => ((fileText later repoRoot file).map List.length).getD 0).sum := by
  induction files with
  | nil => rfl
  | cons file files ih =>
    rw [List.map_cons, List.sum_cons, ← ih]
    cases htext : fileText later repoRoot file with
    | none =>
      rw [wholeSlices, List.filterMap_cons_none (by rw [htext]; rfl)]
      exact (Nat.zero_add _).symm
    | some text =>
      rw [wholeSlices, List.filterMap_cons_some (by rw [htext]; rfl)]
      rfl

theorem cheaper_whole {level : RungLevel} {slices merged : List ContextSlice} (hsub : ∀ s ∈ slices, s ∈ merged)
    (hgrounded : AllGrounded h repoRoot slices) :
    Cheaper h later repoRoot (makeRung level slices)
      (makeRung .wholeFile (wholeSlices later repoRoot (rungFiles merged))) := by
  intro hclean
  obtain ⟨hread, hapart⟩ := hclean rfl
  apply estimateTokens_mono
  rw [charsOf_wholeSlices]
  apply charsOf_le_sum
  · exact fun s hs => mem_rungFiles (hsub s hs)
  · intro file
    have hhere : ∀ s ∈ slices.filter fun s => s.file = file, s ∈ slices ∧ s.file = file := by
      intro s hs
      obtain ⟨hs, hfile⟩ := List.mem_filter.1 hs
      exact ⟨hs, of_decide_eq_true hfile⟩
    cases htext : fileText h repoRoot file with
    | none =>
      -- a slice of a file that is not read there is none
      cases hslices : slices.filter fun s => s.file = file with
      | nil => exact Nat.zero_le _
      | cons s rest =>
        obtain ⟨hs, hfile⟩ := hhere s (hslices ▸ List.mem_cons_self)
        obtain ⟨text, hread, -⟩ := hgrounded s hs
        rw [hfile, htext] at hread
        cases hread
    | some text =>
      by_cases hempty : slices.filter (fun s => s.file = file) = []
      · rw [hempty]
        exact Nat.zero_le _
      · obtain ⟨first, hfirst⟩ := List.exists_mem_of_ne_nil _ hempty
        obtain ⟨hfirst, hfile⟩ := hhere first hfirst
        have hlater : fileText later repoRoot file = some text := by
          rw [← hfile] at htext ⊢
          exact (hread first hfirst).trans htext
        rw [hlater]
        apply charsOf_le_length
        · intro s hs
          obtain ⟨hs, hfile⟩ := hhere s hs
          obtain ⟨text', htext', hlifted⟩ := hgrounded s hs
          rw [hfile, htext] at htext'
          exact Option.some.inj htext' ▸ hlifted
        · exact fun s hs t ht => (hhere s hs).2.trans (hhere t ht).2.symm
        · exact hapart.filter _

/-! ## The ladder -/

variable (h later repoRoot) in
/-- What a ladder is made of: a pack, what the second hop adds to it, and the whole files. -/
structure Built (result : EscalationResult) where
  packSlices : List ContextSlice
  extra : List ContextSlice
  second : List ContextRung
  whole : Option ContextRung
  maxRung : RungLevel
  grounded : AllGrounded h repoRoot (packSlices ++ extra)
  extra_nil : packSlices = [] → extra = []
  second_cases : second = [] ∨ second = [makeRung .pack2hop (packSlices ++ extra)]
  whole_cases : whole = none ∨
    whole = some (makeRung .wholeFile (wholeSlices later repoRoot (rungFiles (packSlices ++ extra))))
  rungs : result.rungs = makeRung .pack packSlices :: second ++ whole.toList
  recommended : result.recommended =
    (recommend (makeRung .pack packSlices) (makeRung .pack packSlices :: second) maxRung whole).1

theorem built_of_result {rawId : JsString} {opts : EscalationOptions} {result : EscalationResult}
    (hresult : buildEscalatingContext localeCompare db h later repoRoot readError rawId opts = some result) :
    Nonempty (Built h later repoRoot result) := by
  unfold buildEscalatingContext at hresult
  obtain ⟨pack, hpack, rfl⟩ := Option.map_eq_some_iff.1 hresult
  have hgrounded := (exact_buildContextPack localeCompare db hpack).grounded
  obtain ⟨hop, htwo, hhop⟩ : ∃ extra, twoHop localeCompare db h repoRoot pack.slices opts.toContextPackOptions =
      pack.slices ++ extra ∧ AllGrounded h repoRoot extra := twoHop_extends localeCompare db opts.toContextPackOptions
  have hnil : pack.slices = [] → hop = [] := by
    intro hempty
    rw [hempty] at htwo
    exact htwo.symm
  by_cases htop : (opts.maxRung.getD .wholeFile).index ≥ RungLevel.pack2hop.index
  · refine ⟨⟨pack.slices, hop, _, _, _, hgrounded.append hhop, hnil, ?_, ?_, rfl, rfl⟩⟩
    · rw [if_pos htop, if_pos htop, htwo]
      split
      · exact .inr rfl
      · exact .inl rfl
    · rw [if_pos htop, htwo]
      split
      · exact .inr rfl
      · exact .inl rfl
  · refine ⟨⟨pack.slices, [], _, _, _, by rw [List.append_nil]; exact hgrounded, fun _ => rfl, ?_, ?_, rfl, rfl⟩⟩
    · rw [if_neg htop]
      exact .inl rfl
    · rw [if_neg fun hwhole => htop (Nat.le_trans (by decide) hwhole)]
      exact .inl rfl

theorem pairwise_built {result : EscalationResult}
    (hbuilt : Built h later repoRoot result) :
    result.rungs.Pairwise fun a b => Cheaper h later repoRoot a b ∧ Keeps h later repoRoot a b := by
  obtain ⟨packSlices, extra, second, whole, maxRung, hgrounded, -, hsecond, hwhole, hrungs, -⟩ := hbuilt
  have hleft : ∀ s ∈ packSlices, s ∈ packSlices ++ extra := fun s hs => List.mem_append_left _ hs
  have hpack : AllGrounded h repoRoot packSlices := fun s hs => hgrounded s (hleft s hs)
  have hup : Cheaper h later repoRoot (makeRung .pack packSlices) (makeRung .pack2hop (packSlices ++ extra)) ∧
      Keeps h later repoRoot (makeRung .pack packSlices) (makeRung .pack2hop (packSlices ++ extra)) := by
    refine ⟨fun _ => estimateTokens_mono ?_, keeps_of_subset hleft⟩
    rw [charsOf_append]
    exact Nat.le_add_right _ _
  have htop : ∀ {level : RungLevel} {slices : List ContextSlice}, (∀ s ∈ slices, s ∈ packSlices ++ extra) →
      AllGrounded h repoRoot slices →
      Cheaper h later repoRoot (makeRung level slices)
        (makeRung .wholeFile (wholeSlices later repoRoot (rungFiles (packSlices ++ extra)))) ∧
      Keeps h later repoRoot (makeRung level slices)
        (makeRung .wholeFile (wholeSlices later repoRoot (rungFiles (packSlices ++ extra)))) :=
    fun hsub hslices => ⟨cheaper_whole hsub hslices, keeps_whole hsub hslices⟩
  rw [hrungs]
  rcases hsecond with rfl | rfl <;> rcases hwhole with rfl | rfl
  · exact List.pairwise_singleton _ _
  · exact List.pairwise_pair.2 (htop hleft hpack)
  · exact List.pairwise_pair.2 hup
  · refine List.pairwise_cons.2 ⟨?_, List.pairwise_pair.2 (htop (fun _ hs => hs) hgrounded)⟩
    intro r hr
    rcases List.mem_cons.1 hr with rfl | hr
    · exact hup
    · exact List.mem_singleton.1 hr ▸ htop hleft hpack

/-- Either the pack is recommended, or whole files that cost no more. -/
theorem recommend_cases {packRung : ContextRung} {second : List ContextRung} (maxRung : RungLevel)
    {whole : Option ContextRung} (hsecond : ∀ r ∈ second, packRung.estTokens ≤ r.estTokens)
    (hempty : packRung.slices = [] → ∀ r ∈ second ++ whole.toList, r.slices = []) :
    (recommend packRung (packRung :: second) maxRung whole).1 = packRung ∧
        (∀ w ∈ whole, w.slices ≠ [] → packRung.estTokens ≤ w.estTokens) ∨
      ∃ w ∈ whole, (recommend packRung (packRung :: second) maxRung whole).1 = w ∧ w.slices ≠ [] ∧
        w.estTokens ≤ packRung.estTokens := by
  cases whole with
  | none => exact .inl ⟨rfl, fun w hw => by cases hw⟩
  | some w =>
    by_cases hslices : w.slices = []
    · -- no usable baseline: the first rung that holds a slice, which is the pack if any
      have hfirst : ((packRung :: second ++ [w]).find? fun r => r.slices.length > 0).getD packRung = packRung := by
        by_cases hpack : packRung.slices = []
        · have hnone : (packRung :: second ++ [w]).find? (fun r => r.slices.length > 0) = none := by
            apply List.find?_eq_none.2
            intro r hr
            have hr : r.slices = [] := (List.mem_cons.1 hr).elim (fun heq => heq ▸ hpack) (hempty hpack r)
            rw [hr]
            exact Bool.false_ne_true
          rw [hnone]
          rfl
        · have hhead : (packRung :: (second ++ [w])).find? (fun r => r.slices.length > 0) = some packRung :=
            List.find?_cons_of_pos (by simpa [List.length_pos_iff] using hpack)
          rw [List.cons_append, hhead]
          rfl
      refine .inl ⟨?_, fun w' hw' hne => absurd (Option.some.inj hw' ▸ hslices) hne⟩
      unfold recommend
      dsimp only
      rw [if_neg (by rw [hslices]; exact Nat.lt_irrefl 0)]
      exact hfirst
    · have hbuilt : w.slices.length > 0 := List.length_pos_iff.2 hslices
      by_cases hless : packRung.estTokens < w.estTokens
      · have hhead : (packRung :: second).find? (fun r => r.estTokens < w.estTokens) = some packRung :=
          List.find?_cons_of_pos (by simpa using hless)
        refine .inl ⟨?_, fun w' hw' _ => Option.some.inj hw' ▸ Nat.le_of_lt hless⟩
        unfold recommend
        dsimp only
        rw [if_pos hbuilt, hhead]
      · have hnone : (packRung :: second).find? (fun r => r.estTokens < w.estTokens) = none := by
          apply List.find?_eq_none.2
          intro r hr hlt
          have hle : packRung.estTokens ≤ r.estTokens := (List.mem_cons.1 hr).elim (fun heq => heq ▸ le_rfl) (hsecond r)
          exact hless (lt_of_le_of_lt hle (of_decide_eq_true hlt))
        refine .inr ⟨w, rfl, ?_, hslices, Nat.not_lt.1 hless⟩
        unfold recommend
        dsimp only
        rw [if_pos hbuilt, hnone]

/-- The cheapest of the rungs that hold a slice. -/
structure Cheapest (rungs : List ContextRung) (r : ContextRung) : Prop where
  listed : r ∈ rungs
  holds : (∃ r' ∈ rungs, r'.slices ≠ []) → r.slices ≠ []
  least : ∀ r' ∈ rungs, r'.slices ≠ [] → r.estTokens ≤ r'.estTokens

theorem cheapest_built {result : EscalationResult}
    (hbuilt : Built h later repoRoot result) :
    Cheapest result.rungs result.recommended := by
  obtain ⟨packSlices, extra, second, whole, maxRung, -, hnil, hsecond, hwhole, hrungs, hrecommended⟩ := hbuilt
  have hdearer : ∀ r ∈ second, (makeRung .pack packSlices).estTokens ≤ r.estTokens := by
    intro r hr
    rcases hsecond with rfl | rfl
    · exact absurd hr List.not_mem_nil
    · rw [List.mem_singleton.1 hr]
      apply estimateTokens_mono
      rw [charsOf_append]
      exact Nat.le_add_right _ _
  have hempty : packSlices = [] → ∀ r ∈ second ++ whole.toList, r.slices = [] := by
    intro hpack r hr
    rw [hpack, hnil hpack, List.append_nil] at hsecond hwhole
    rcases List.mem_append.1 hr with hr | hr
    · rcases hsecond with rfl | rfl
      · exact absurd hr List.not_mem_nil
      · exact List.mem_singleton.1 hr ▸ rfl
    · rcases hwhole with rfl | rfl
      · exact absurd hr List.not_mem_nil
      · exact List.mem_singleton.1 hr ▸ rfl
  have hlisted {r : ContextRung} : r ∈ result.rungs ↔ r = makeRung .pack packSlices ∨ r ∈ second ∨ r ∈ whole := by
    rw [hrungs, List.cons_append, List.mem_cons, List.mem_append, Option.mem_toList, Option.mem_def]
  rcases recommend_cases maxRung hdearer hempty with ⟨heq, hleast⟩ | ⟨w, hw, heq, hne, hle⟩
  · rw [hrecommended, heq]
    refine ⟨hlisted.2 (.inl rfl), ?_, ?_⟩
    · rintro ⟨r, hr, hne⟩ hpack
      rcases hlisted.1 hr with rfl | hr
      · exact hne hpack
      · exact hne (hempty hpack r (List.mem_append.2 (hr.imp id Option.mem_toList.2)))
    · intro r hr hne
      rcases hlisted.1 hr with rfl | hr | hr
      · exact le_rfl
      · exact hdearer r hr
      · exact hleast r hr hne
  · rw [hrecommended, heq]
    refine ⟨hlisted.2 (.inr (.inr hw)), fun _ => hne, ?_⟩
    intro r hr _
    rcases hlisted.1 hr with rfl | hr | hr
    · exact hle
    · exact hle.trans (hdearer r hr)
    · exact (Option.some.inj (hw.symm.trans hr)) ▸ le_rfl

/-! ## A budget -/

theorem last_of_find {result : EscalationResult} {budget : JsNumber} {rung : ContextRung}
    (hfind : result.rungs.reverse.find? (ContextRung.fits budget) = some rung) :
    ∃ lower upper, result.rungs = lower ++ rung :: upper ∧ rung.fits budget = true ∧
      ∀ r ∈ upper, r.fits budget = false := by
  obtain ⟨hfits, upper, lower, hrungs, hupper⟩ := List.find?_eq_some_iff_append.1 hfind
  refine ⟨lower.reverse, upper.reverse, ?_, hfits, fun r hr => ?_⟩
  · rw [← List.reverse_reverse result.rungs, hrungs]
    simp
  · simpa using hupper r (List.mem_reverse.1 hr)

theorem fits_iff {result : EscalationResult} {budget : JsNumber} :
    (selectRungForBudget result budget).fits = true ↔ ∃ r ∈ result.rungs, r.fits budget = true := by
  unfold selectRungForBudget
  cases hfind : result.rungs.reverse.find? (ContextRung.fits budget) with
  | none =>
    have hnone := List.find?_eq_none.1 hfind
    constructor
    · exact fun hfits => by cases hfits
    · rintro ⟨r, hr, hfits⟩
      exact absurd hfits (hnone r (List.mem_reverse.2 hr))
  | some rung =>
    obtain ⟨lower, upper, hrungs, hfits, -⟩ := last_of_find hfind
    refine ⟨fun _ => ⟨rung, ?_, hfits⟩, fun _ => rfl⟩
    rw [hrungs]
    exact List.mem_append_right _ List.mem_cons_self

/-- A rung that fits and keeps what the other fitting rungs cover. -/
theorem selected_fits {result : EscalationResult} {budget : JsNumber}
    (hpairwise : result.rungs.Pairwise (Keeps h later repoRoot))
    (hfits : (selectRungForBudget result budget).fits = true) :
    (selectRungForBudget result budget).rung ∈ result.rungs ∧
      (selectRungForBudget result budget).rung.fits budget = true ∧
      ∀ r ∈ result.rungs, r.fits budget = true → Keeps h later repoRoot r (selectRungForBudget result budget).rung := by
  unfold selectRungForBudget at hfits ⊢
  cases hfind : result.rungs.reverse.find? (ContextRung.fits budget) with
  | none =>
    rw [hfind] at hfits
    cases hfits
  | some rung =>
    obtain ⟨lower, upper, hrungs, hrung, hupper⟩ := last_of_find hfind
    rw [hrungs] at hpairwise ⊢
    refine ⟨List.mem_append_right _ List.mem_cons_self, hrung, fun r hr hfits => ?_⟩
    rcases List.mem_append.1 hr with hr | hr
    · exact (List.pairwise_append.1 hpairwise).2.2 r hr rung List.mem_cons_self
    · rcases List.mem_cons.1 hr with rfl | hr
      · exact keeps_refl r
      · exact absurd hfits (by rw [hupper r hr]; exact Bool.false_ne_true)

end Ladder

/-! ## A ladder -/

section Example

/-- A function that calls a class and its method, and a name that stands in no file. -/
def nestedDb : PackDb where
  nodes := ((((KeyedMap.empty.set (ascii "a.ts::f") ⟨ascii "f", ascii "function", some (ascii "a.ts"), 1, 1⟩).set
    (ascii "b.ts::C") ⟨ascii "C", ascii "class", some (ascii "b.ts"), 1, 3⟩).set
    (ascii "b.ts::C.m") ⟨ascii "m", ascii "method", some (ascii "b.ts"), 2, 2⟩).set
    (ascii "x::g") ⟨ascii "g", ascii "function", none, 1, 1⟩)
  edges := [⟨⟨ascii "a.ts::f", ascii "b.ts::C", ascii "static_call"⟩, 2⟩,
    ⟨⟨ascii "a.ts::f", ascii "b.ts::C.m", ascii "static_call"⟩, 1⟩]
  searchFts := fun _ => none

/-- Both files end with a line feed; a line follows the function. -/
def nestedFiles : Files :=
  { linkedHost with
    stat := fun _ => some (true, 60)
    readText := fun abs =>
      if abs = ascii "/r/a.ts" then some ([0x0A].intercalate [ascii "f(C.m)", ascii "x()", []])
      else some ([0x0A].intercalate [ascii "class C", ascii "  m() = one + two + three", ascii "end", []]) }

def slicePlace (s : ContextSlice) : JsString × Int × Int := (s.file, s.startLine, s.endLine)

def nestedLadder (rawId : String) : Option EscalationResult :=
  buildEscalatingContext compare nestedDb nestedFiles nestedFiles (ascii "/r") id (ascii rawId) {}

end Example

end Hayven.Db.Pack
