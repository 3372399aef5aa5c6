import Hayven.Db.ChangePack
import Hayven.Db.ContextEscalationLaws
import Hayven.Lib.DecimalText
import Hayven.Lib.Segments
/-!
# What the pack of a change keeps

Every line of the regions is in a slice, and every slice is a run of lines of its file. The pack is no
larger than the changed file as long as its first slice is measured against that file, and an
empty file draws in no text of others: `change_sound_iff`.
-/
open Hayven.Lib Hayven.Native Hayven.Graph

namespace Hayven.Db.Pack

/-! ## Places -/

/-- The key says the place: from the right, a number, a colon, a number and a colon. -/
theorem placeKey_inj {s t : ContextSlice} (h : placeKey s = placeKey t) :
    s.file = t.file ∧ s.startLine = t.startLine ∧ s.endLine = t.endLine := by
  have hparts (s : ContextSlice) :
      placeKey s = (s.file ++ 0x3A :: intText s.startLine) ++ 0x3A :: intText s.endLine := by
    simp [placeKey, ascii]
  have hcolon (i : Int) : (0x3A : UInt16) ∉ intText i := not_mem_intText rfl (by decide) i
  rw [hparts, hparts] at h
  obtain ⟨hrest, hend⟩ := cut_at_last_sep (hcolon _) (hcolon _) h
  obtain ⟨hfile, hstart⟩ := cut_at_last_sep (hcolon _) (hcolon _) hrest
  exact ⟨hfile, intText_inj hstart, intText_inj hend⟩

theorem coversLine_iff {file : JsString} {slices : List ContextSlice} {l : Int} :
    coversLine file slices l = true ↔ ∃ s ∈ slices, s.file = file ∧ s.startLine ≤ l ∧ l ≤ s.endLine := by
  simp [coversLine, and_assoc]

theorem mem_pushSlice {slices : List ContextSlice} {s t : ContextSlice} (ht : t ∈ pushSlice slices s) :
    t ∈ slices ∨ t = s := by
  unfold pushSlice at ht
  split at ht
  · exact .inl ht
  · simpa using ht

theorem mem_pushAll {more : List ContextSlice} {t : ContextSlice} : ∀ {slices : List ContextSlice},
    t ∈ pushAll slices more → t ∈ slices ∨ t ∈ more := by
  induction more with
  | nil => exact fun ht => .inl ht
  | cons s more ih =>
    intro slices ht
    rcases ih (show t ∈ pushAll (pushSlice slices s) more from ht) with ht | ht
    · rcases mem_pushSlice ht with ht | rfl
      · exact .inl ht
      · exact .inr List.mem_cons_self
    · exact .inr (List.mem_cons_of_mem _ ht)

theorem subset_pushSlice (slices : List ContextSlice) (s : ContextSlice) {t : ContextSlice} (ht : t ∈ slices) :
    t ∈ pushSlice slices s := by
  unfold pushSlice
  split
  · exact ht
  · exact List.mem_append_left _ ht

theorem subset_pushAll (more : List ContextSlice) {t : ContextSlice} : ∀ {slices : List ContextSlice},
    t ∈ slices → t ∈ pushAll slices more := by
  induction more with
  | nil => exact fun ht => ht
  | cons s more ih => exact fun ht => ih (subset_pushSlice _ s ht)

theorem exists_pushSlice (slices : List ContextSlice) (s : ContextSlice) :
    ∃ t ∈ pushSlice slices s, placeKey t = placeKey s := by
  unfold pushSlice
  split
  · rename_i hseen
    exact List.mem_map.1 (List.contains_iff_mem.1 hseen)
  · exact ⟨s, by simp, rfl⟩

/-- No place is lost. -/
theorem exists_pushAll {more : List ContextSlice} {s : ContextSlice} (hs : s ∈ more) : ∀ slices : List ContextSlice,
    ∃ t ∈ pushAll slices more, placeKey t = placeKey s := by
  induction more with
  | nil => cases hs
  | cons first more ih =>
    intro slices
    rcases List.mem_cons.1 hs with rfl | hs
    · obtain ⟨t, ht, hkey⟩ := exists_pushSlice slices s
      exact ⟨t, subset_pushAll more ht, hkey⟩
    · exact ih hs (pushSlice slices first)

theorem coversLine_of_key {file : JsString} {slices : List ContextSlice} {s : ContextSlice} {l : Int}
    (hs : ∃ t ∈ slices, placeKey t = placeKey s) (hfile : s.file = file) (hstart : s.startLine ≤ l)
    (hend : l ≤ s.endLine) : coversLine file slices l = true := by
  obtain ⟨t, ht, hkey⟩ := hs
  obtain ⟨htfile, htstart, htend⟩ := placeKey_inj hkey
  exact coversLine_iff.2 ⟨t, ht, htfile.trans hfile, htstart ▸ hstart, htend ▸ hend⟩

/-! ## The lines that are left -/

section Gaps
variable {file : JsString} {fileLines : List JsString} {regions : List ChangeRegion} {slices : List ContextSlice}
  {l : Int}

/-- A region has the line, and so has the file. -/
def Changed (fileLines : List JsString) (regions : List ChangeRegion) (l : Int) : Prop :=
  1 ≤ l ∧ l ≤ fileLines.length ∧ ∃ r ∈ regions, r.lo ≤ l ∧ l ≤ r.hi

theorem regionSpans_iff : (∃ s ∈ regionSpans regions fileLines, InSpan s l) ↔ Changed fileLines regions l := by
  unfold regionSpans InSpan Changed
  constructor
  · rintro ⟨s, hs, hstart, hend⟩
    obtain ⟨r, hr, rfl⟩ := List.mem_map.1 (List.mem_filter.1 hs).1
    dsimp only at hstart hend
    exact ⟨by omega, by omega, r, hr, by omega, by omega⟩
  · rintro ⟨hone, hlast, r, hr, hlo, hhi⟩
    refine ⟨_, List.mem_filter.2 ⟨List.mem_map.2 ⟨r, hr, rfl⟩, ?_⟩, ?_⟩
    · rw [decide_eq_true_eq]
      omega
    · dsimp only
      omega

theorem mergedSpans_iff (spans : List (Int × Int)) :
    (∃ s ∈ mergedSpans spans, InSpan s l) ↔ ∃ s ∈ spans, InSpan s l := by
  have hsorted := sortWith_pairwise (compareLex (compareOn Prod.fst) (compareOn Prod.snd)) spans
  have hmem (s : Int × Int) := mem_sortWith (compareLex (compareOn Prod.fst) (compareOn Prod.snd)) (l := spans) (a := s)
  unfold mergedSpans
  cases hspans : sortWith (compareLex (compareOn Prod.fst) (compareOn Prod.snd)) spans with
  | nil =>
    rw [hspans] at hmem
    simp [← hmem]
  | cons s rest =>
    rw [hspans] at hsorted hmem
    have hstarts : (s :: rest).Pairwise fun s t => s.1 ≤ t.1 := by
      exact hsorted.imp fun hle => Std.isLE_compare.1 (Ordering.isLE_left_of_isLE_then hle)
    rw [mergeSpans_iff rest s hstarts]
    simp only [hmem]

theorem mem_uncoveredLines {spans : List (Int × Int)} :
    l ∈ uncoveredLines file slices spans ↔ (∃ s ∈ spans, InSpan s l) ∧ coversLine file slices l = false := by
  simp only [uncoveredLines, mem_sortWith, List.mem_flatMap, List.mem_filter, mem_numbersBetween, InSpan,
    Bool.not_eq_true']
  constructor
  · rintro ⟨s, hs, hin, hl⟩
    exact ⟨⟨s, hs, hin⟩, hl⟩
  · rintro ⟨⟨s, hs, hin⟩, hl⟩
    exact ⟨s, hs, hin, hl⟩

/-- The runs of lines that are filled in. -/
def gapRuns (file : JsString) (fileLines : List JsString) (regions : List ChangeRegion)
    (slices : List ContextSlice) : List (Int × Int) :=
  runsOf (uncoveredLines file slices (mergedSpans (regionSpans regions fileLines)))

theorem gapRuns_iff : (∃ run ∈ gapRuns file fileLines regions slices, InSpan run l) ↔
    Changed fileLines regions l ∧ coversLine file slices l = false := by
  rw [gapRuns, runsOf_iff, mem_uncoveredLines, mergedSpans_iff, regionSpans_iff]

/-- After the fill every line of the regions is covered. -/
theorem coversLine_fillGaps (hl : Changed fileLines regions l) :
    coversLine file (fillGaps file fileLines regions slices) l = true := by
  by_cases hcovered : coversLine file slices l = true
  · obtain ⟨s, hs, hfile, hstart, hend⟩ := coversLine_iff.1 hcovered
    exact coversLine_iff.2 ⟨s, subset_pushAll _ hs, hfile, hstart, hend⟩
  · obtain ⟨run, hrun, hin⟩ := gapRuns_iff.2 ⟨hl, Bool.eq_false_iff.2 hcovered⟩
    exact coversLine_of_key (exists_pushAll (List.mem_map_of_mem hrun) slices) rfl hin.1 hin.2

end Gaps

/-! ## Exact slices -/

section Slices
variable {localeCompare : JsString → JsString → Ordering} {db : PackDb} {h : Files} {repoRoot file : JsString}
  {fileLines : List JsString} {regions : List ChangeRegion} {slices more : List ContextSlice} {l : Int}

/-- The place says the text. -/
theorem Exact.text_eq {s t : ContextSlice} (hs : Exact h repoRoot s) (ht : Exact h repoRoot t)
    (hkey : placeKey t = placeKey s) : t.text = s.text := by
  obtain ⟨hfile, hstart, hend⟩ := placeKey_inj hkey
  obtain ⟨text, htext, hlifted⟩ := hs.grounded
  obtain ⟨text', htext', hlifted'⟩ := ht.grounded
  rw [hfile, htext] at htext'
  cases htext'
  rw [hlifted.text, hlifted'.text, hstart, hend]

theorem AllExact.pushAll (hslices : AllExact h repoRoot slices) (hmore : AllExact h repoRoot more) :
    AllExact h repoRoot (pushAll slices more) := by
  intro s hs
  rcases mem_pushAll hs with hs | hs
  · exact hslices s hs
  · exact hmore s hs

/-- A run of lines of the file. -/
theorem exact_lines (hread : read h repoRoot file = some fileLines) {s : ContextSlice} (hfile : s.file = file)
    (hstart : 1 ≤ s.startLine) (hordered : s.startLine ≤ s.endLine) (hend : s.endLine ≤ fileLines.length)
    (htext : s.text = linesText fileLines s.startLine s.endLine) : Exact h repoRoot s := by
  obtain ⟨text, hopened, rfl⟩ := fileText_of_read hread
  exact ⟨⟨text, hfile ▸ hopened, hstart, hend, htext⟩, hordered⟩

theorem exact_gapSlice (hread : read h repoRoot file = some fileLines) {run : Int × Int}
    (hrun : run ∈ gapRuns file fileLines regions slices) : Exact h repoRoot (gapSlice file fileLines run) := by
  have hordered := runsOf_ordered _ run hrun
  have hin {l : Int} (hl : InSpan run l) := (gapRuns_iff.1 ⟨run, hrun, hl⟩).1
  exact exact_lines hread rfl (hin ⟨le_rfl, hordered⟩).1 hordered (hin ⟨hordered, le_rfl⟩).2.1 rfl

theorem exact_fillGaps (hread : read h repoRoot file = some fileLines) (hslices : AllExact h repoRoot slices) :
    AllExact h repoRoot (fillGaps file fileLines regions slices) := by
  apply hslices.pushAll
  intro s hs
  obtain ⟨run, hrun, rfl⟩ := List.mem_map.1 hs
  exact exact_gapSlice hread hrun

theorem exact_wholeFileSlice (hread : read h repoRoot file = some fileLines) :
    Exact h repoRoot (wholeFileSlice file fileLines) := by
  have hlen : 1 ≤ fileLines.length := by
    obtain ⟨text, -, rfl⟩ := fileText_of_read hread
    exact List.length_pos_iff.2 (List.splitOn_ne_nil _ _)
  refine exact_lines hread rfl le_rfl (Int.ofNat_le.2 hlen) le_rfl ?_
  change joinLines fileLines = linesText fileLines 1 fileLines.length
  rw [linesText, Int.toNat_natCast, List.take_length, show ((1 : Int) - 1).toNat = 0 from rfl, List.drop_zero]

theorem exact_framePack {opts : ContextPackOptions} {pack : ContextPack}
    (hpack : framePack db h repoRoot file regions opts = some pack) :
    AllExact h repoRoot pack.slices ∧ ∀ s ∈ pack.slices, s.file = file := by
  unfold framePack at hpack
  split at hpack
  · obtain ⟨lines, hread, rfl⟩ := Option.map_eq_some_iff.1 hpack
    obtain ⟨text, hopened, rfl⟩ := fileText_of_read hread
    refine ⟨fun s hs => ?_, fun s hs => ?_⟩
    · obtain ⟨seg, hseg, rfl⟩ := List.mem_map.1 hs
      exact (exact_headerSlice db hopened hseg).of_same rfl rfl rfl rfl
    · obtain ⟨seg, -, rfl⟩ := List.mem_map.1 hs
      rfl
  · cases hpack

theorem exact_entityPack {opts : ContextPackOptions} {pack : ContextPack}
    (hpack : entityPack localeCompare db h repoRoot file regions opts = some pack) :
    AllExact h repoRoot pack.slices := by
  unfold entityPack at hpack
  dsimp only at hpack
  split at hpack
  · cases hpack
  · exact exact_buildContextPackForSymbols localeCompare db hpack

end Slices

/-! ## Sizes -/

theorem estimateTokens_eq_zero {n : Nat} : estimateTokens n = 0 ↔ n = 0 := by
  unfold estimateTokens
  omega

theorem charsOf_eq_zero {slices : List ContextSlice} : charsOf slices = 0 ↔ ∀ s ∈ slices, s.text = [] := by
  unfold charsOf
  simp [List.sum_eq_zero_iff]

/-- The only line of an empty text is empty. -/
theorem linesText_nil (start fin : Int) : linesText [[]] start fin = [] := by
  unfold linesText
  cases fin.toNat with
  | zero => rw [List.take_zero, List.drop_nil, joinLines_nil]
  | succ n =>
    rw [List.take_succ_cons, List.take_nil]
    cases (start - 1).toNat with
    | zero => rfl
    | succ m => rw [List.drop_succ_cons, List.drop_nil, joinLines_nil]

/-! ## The promise -/

/-- What the pack of a change promises. -/
structure SoundChange (h : Files) (repoRoot file : JsString) (fileLines : List JsString)
    (regions : List ChangeRegion) (pack : ChangePack) : Prop where
  sufficient : ∀ l, Changed fileLines regions l → coversLine file pack.slices l = true
  exact : AllExact h repoRoot pack.slices
  yardstick : pack.targetFileEstTokens = estimateTokens (joinLines fileLines).length
  smaller : pack.estTokens ≤ pack.targetFileEstTokens

section Change
variable (localeCompare : JsString → JsString → Ordering) (db : PackDb) (h : Files) (repoRoot file : JsString)
  (fileLines : List JsString) (regions : List ChangeRegion) (opts : ContextPackOptions)

/-- The slices of the entities under the regions, their neighbours among them. -/
def entitySlices : List ContextSlice := (entityPack localeCompare db h repoRoot file regions opts).elim [] (·.slices)

/-- The first of them is of a file that counts as many tokens as the changed one, and an empty
file draws in no text. -/
structure Measured : Prop where
  first : ∀ s, (entitySlices localeCompare db h repoRoot file regions opts).head? = some s →
    fileEstTokens (read h repoRoot) (some s.file) = fileEstTokens (read h repoRoot) (some file)
  empty : joinLines fileLines = [] → ∀ s ∈ entitySlices localeCompare db h repoRoot file regions opts, s.text = []

/-- The slices of the packs, and of the lines that these leave. -/
def assembled : List ContextSlice :=
  fillGaps file fileLines regions (pushAll [] (((entityPack localeCompare db h repoRoot file regions opts).toList ++
    (framePack db h repoRoot file regions opts).toList).flatMap (·.slices)))

def anchorFile : JsString :=
  ((entitySlices localeCompare db h repoRoot file regions opts).head?.map (·.file)).getD file

variable {localeCompare db h repoRoot file fileLines regions opts} {pack : ChangePack}

theorem ne_nil_of_read (hread : read h repoRoot file = some fileLines) : file ≠ [] := by
  rintro rfl
  unfold read readLines resolveWithinRepo resolveRepoPath containWithinRoot at hread
  simp at hread

theorem fileEstTokens_of_read (hread : read h repoRoot file = some fileLines) :
    fileEstTokens (read h repoRoot) (some file) = estimateTokens (joinLines fileLines).length := by
  rw [fileEstTokens, named, Option.filter_some_pos (by simpa using ne_nil_of_read hread), Option.bind_some, hread]
  rfl

/-- The slices of the frame are of the file. -/
theorem anchorFile_eq : (((entityPack localeCompare db h repoRoot file regions opts).bind (·.slices.head?)).map
      (·.file)).getD ((((framePack db h repoRoot file regions opts).bind (·.slices.head?)).map (·.file)).getD file) =
    anchorFile localeCompare db h repoRoot file regions opts := by
  have hframe :
      (((framePack db h repoRoot file regions opts).bind (·.slices.head?)).map (·.file)).getD file = file := by
    cases hf : framePack db h repoRoot file regions opts with
    | none => rfl
    | some frame =>
      cases hhead : frame.slices.head? with
      | none => simp [hhead]
      | some s => simp [hhead, (exact_framePack hf).2 s (List.mem_of_mem_head? hhead)]
  rw [hframe, anchorFile, entitySlices]
  cases entityPack localeCompare db h repoRoot file regions opts <;> rfl

/-- The pack that is finalized, and what comes of it. -/
theorem change_eq (hread : read h repoRoot file = some fileLines)
    (hpack : buildContextPackForChange localeCompare db h repoRoot file regions opts = some pack) :
    ∃ symbol notes, pack = fallBack h repoRoot file opts (finalizePack (read h repoRoot) symbol
      (anchorFile localeCompare db h repoRoot file regions opts)
      (assembled localeCompare db h repoRoot file fileLines regions opts) notes) := by
  unfold buildContextPackForChange at hpack
  dsimp only at hpack
  rw [hread, Option.elim_some, anchorFile_eq] at hpack
  split at hpack
  · cases hpack
  · exact ⟨_, _, (Option.some.inj hpack).symm⟩

theorem exact_assembled (hread : read h repoRoot file = some fileLines) :
    AllExact h repoRoot (assembled localeCompare db h repoRoot file fileLines regions opts) := by
  refine exact_fillGaps hread (AllExact.pushAll allExact_nil fun s hs => ?_)
  obtain ⟨p, hp, hs⟩ := List.mem_flatMap.1 hs
  rcases List.mem_append.1 hp with hp | hp
  · exact exact_entityPack (Option.mem_toList.1 hp) s hs
  · exact (exact_framePack (Option.mem_toList.1 hp)).1 s hs

/-- What is assembled is of the entities, or of the file. -/
theorem mem_assembled {s : ContextSlice} (hs : s ∈ assembled localeCompare db h repoRoot file fileLines regions opts) :
    s ∈ entitySlices localeCompare db h repoRoot file regions opts ∨ s.file = file := by
  rcases mem_pushAll hs with hs | hs
  · obtain ⟨p, hp, hs⟩ := List.mem_flatMap.1 ((mem_pushAll hs).resolve_left List.not_mem_nil)
    rcases List.mem_append.1 hp with hp | hp
    · rw [entitySlices, Option.mem_toList.1 hp]
      exact .inl hs
    · exact .inr ((exact_framePack (Option.mem_toList.1 hp)).2 s hs)
  · obtain ⟨run, -, rfl⟩ := List.mem_map.1 hs
    exact .inr rfl

/-- Every place of the entities is assembled. -/
theorem exists_assembled {s : ContextSlice} (hs : s ∈ entitySlices localeCompare db h repoRoot file regions opts) :
    ∃ t ∈ assembled localeCompare db h repoRoot file fileLines regions opts, placeKey t = placeKey s := by
  have hmem : s ∈ ((entityPack localeCompare db h repoRoot file regions opts).toList ++
      (framePack db h repoRoot file regions opts).toList).flatMap (·.slices) := by
    unfold entitySlices at hs
    cases hp : entityPack localeCompare db h repoRoot file regions opts with
    | none =>
      rw [hp] at hs
      cases hs
    | some p =>
      rw [hp] at hs
      exact List.mem_flatMap.2 ⟨p, by simp, hs⟩
  obtain ⟨t, ht, hkey⟩ := exists_pushAll hmem []
  exact ⟨t, subset_pushAll _ ht, hkey⟩

/-- Of an empty file nothing is assembled that has text but what the entities draw in. -/
theorem charsOf_assembled_of_empty (hread : read h repoRoot file = some fileLines) (hempty : joinLines fileLines = []) :
    charsOf (assembled localeCompare db h repoRoot file fileLines regions opts) = 0 ↔
      ∀ s ∈ entitySlices localeCompare db h repoRoot file regions opts, s.text = [] := by
  have hexact : AllExact h repoRoot (assembled localeCompare db h repoRoot file fileLines regions opts) :=
    exact_assembled hread
  rw [charsOf_eq_zero]
  constructor
  · intro hnone s hs
    obtain ⟨t, ht, hkey⟩ : ∃ t ∈ assembled localeCompare db h repoRoot file fileLines regions opts,
      placeKey t = placeKey s := exists_assembled hs
    obtain ⟨p, hp⟩ : ∃ p, entityPack localeCompare db h repoRoot file regions opts = some p := by
      unfold entitySlices at hs
      cases hp : entityPack localeCompare db h repoRoot file regions opts with
      | none =>
        rw [hp] at hs
        cases hs
      | some p => exact ⟨p, rfl⟩
    rw [entitySlices, hp] at hs
    rw [← (exact_entityPack hp s hs).text_eq (hexact t ht) hkey]
    exact hnone t ht
  · intro hentities s hs
    rcases mem_assembled hs with hs' | hfile
    · exact hentities s hs'
    · obtain ⟨text, htext, hlifted⟩ := (hexact s hs).grounded
      obtain ⟨text', htext', rfl⟩ := fileText_of_read hread
      rw [hfile, htext'] at htext
      cases htext
      have htext : text = [] := (List.intercalate_splitOn lineFeed).symm.trans hempty
      rw [hlifted.text, htext]
      exact linesText_nil _ _

/-- The yardstick is the changed file exactly if the first of the entities' slices is measured so. -/
theorem yardstick_iff :
    fileEstTokens (read h repoRoot) (some (anchorFile localeCompare db h repoRoot file regions opts)) =
      fileEstTokens (read h repoRoot) (some file) ↔
    ∀ s, (entitySlices localeCompare db h repoRoot file regions opts).head? = some s →
      fileEstTokens (read h repoRoot) (some s.file) = fileEstTokens (read h repoRoot) (some file) := by
  unfold anchorFile
  cases (entitySlices localeCompare db h repoRoot file regions opts).head? with
  | none => simp
  | some s => simp

theorem fallBack_kept {fin : ContextPack} (hworth : fin.worthwhile = true) :
    fallBack h repoRoot file opts fin = { fin with fellBackToWholeFile := false } := by
  unfold fallBack
  rw [hworth]

theorem fallBack_whole (opts : ContextPackOptions) {fin : ContextPack} (hread : read h repoRoot file = some fileLines)
    (hworth : fin.worthwhile = false) : (fallBack h repoRoot file opts fin).slices = [wholeFileSlice file fileLines] ∧
      (fallBack h repoRoot file opts fin).estTokens = estimateTokens (joinLines fileLines).length ∧
      (fallBack h repoRoot file opts fin).targetFileEstTokens = fin.targetFileEstTokens := by
  unfold fallBack
  rw [hworth, hread]
  exact ⟨rfl, rfl, rfl⟩

theorem coversLine_wholeFile {l : Int} (hl : Changed fileLines regions l) :
    coversLine file [wholeFileSlice file fileLines] l = true :=
  coversLine_iff.2 ⟨_, List.mem_singleton_self _, rfl, hl.1, hl.2.1⟩

/-- Of the assembled slices, or the whole file in their place, only the sizes are in question. -/
theorem sound_fallBack_iff (hread : read h repoRoot file = some fileLines) {fin : ContextPack}
    (hslices : fin.slices = assembled localeCompare db h repoRoot file fileLines regions opts)
    (hworth : fin.worthwhile = true ↔ fin.targetFileEstTokens = 0 ∨ fin.estTokens < fin.targetFileEstTokens) :
    SoundChange h repoRoot file fileLines regions (fallBack h repoRoot file opts fin) ↔
      fin.targetFileEstTokens = estimateTokens (joinLines fileLines).length ∧
        (fin.targetFileEstTokens = 0 → fin.estTokens = 0) := by
  cases hkept : fin.worthwhile with
  | true =>
    have hsmall := hworth.1 hkept
    rw [fallBack_kept hkept]
    constructor
    · intro hsound
      have hsmaller : fin.estTokens ≤ fin.targetFileEstTokens := hsound.smaller
      exact ⟨hsound.yardstick, by omega⟩
    · rintro ⟨hyardstick, hnone⟩
      refine ⟨fun l hl => ?_, ?_, hyardstick, ?_⟩
      · change coversLine file fin.slices l = true
        rw [hslices]
        exact coversLine_fillGaps hl
      · change AllExact h repoRoot fin.slices
        rw [hslices]
        exact exact_assembled hread
      · change fin.estTokens ≤ fin.targetFileEstTokens
        omega
  | false =>
    have hlarge : fin.targetFileEstTokens ≠ 0 := by
      intro hzero
      rw [hworth.2 (.inl hzero)] at hkept
      cases hkept
    obtain ⟨hwhole, hest, hsame⟩ := fallBack_whole opts hread hkept
    constructor
    · exact fun hsound => ⟨hsame.symm.trans hsound.yardstick, fun hzero => absurd hzero hlarge⟩
    · rintro ⟨hyardstick, -⟩
      refine ⟨fun l hl => ?_, ?_, hsame.trans hyardstick, ?_⟩
      · rw [hwhole]
        exact coversLine_wholeFile hl
      · rw [hwhole]
        exact allExact_nil.cons (exact_wholeFileSlice hread)
      · rw [hest, hsame, hyardstick]

/-- Sufficient and exact it is on every input; no larger than the file exactly if the first slice is
measured against it and an empty file draws in nothing. -/
theorem change_sound_iff (hread : read h repoRoot file = some fileLines)
    (hpack : buildContextPackForChange localeCompare db h repoRoot file regions opts = some pack) :
    SoundChange h repoRoot file fileLines regions pack ↔
      Measured localeCompare db h repoRoot file fileLines regions opts := by
  obtain ⟨symbol, notes, rfl⟩ := change_eq hread hpack
  rw [sound_fallBack_iff hread rfl (by simp [finalizePack, finishPack])]
  change fileEstTokens (read h repoRoot) (some (anchorFile localeCompare db h repoRoot file regions opts)) = _ ∧
    (fileEstTokens (read h repoRoot) (some (anchorFile localeCompare db h repoRoot file regions opts)) = 0 →
      estimateTokens (charsOf (assembled localeCompare db h repoRoot file fileLines regions opts)) = 0) ↔ _
  rw [← fileEstTokens_of_read hread, yardstick_iff, estimateTokens_eq_zero]
  constructor
  · rintro ⟨hfirst, hnone⟩
    refine ⟨hfirst, fun hempty => (charsOf_assembled_of_empty hread hempty).1 (hnone ?_)⟩
    rw [yardstick_iff.2 hfirst, fileEstTokens_of_read hread, hempty]
    rfl
  · rintro ⟨hfirst, hempty⟩
    refine ⟨hfirst, fun hzero => ?_⟩
    rw [yardstick_iff.2 hfirst, fileEstTokens_of_read hread, estimateTokens_eq_zero, List.length_eq_zero_iff] at hzero
    exact (charsOf_assembled_of_empty hread hzero).2 (hempty hzero)

end Change

/-! ## A changed entity that is still there -/

section Live
variable {localeCompare : JsString → JsString → Ordering} {db : PackDb} {h : Files} {repoRoot file : JsString}
  {regions : List ChangeRegion} {rows : List NodeRow} {opts : ContextPackOptions}

/-- A row of the file is what its id says. -/
theorem getNode_of_mem {r : NodeRow} (hr : r ∈ db.nodesIn file) : db.getNode r.id = some r ∧ r.file = some file := by
  obtain ⟨⟨id, cells⟩, hrow, rfl⟩ := List.mem_map.1 hr
  obtain ⟨hmem, hfile⟩ := List.mem_filter.1 hrow
  refine ⟨?_, of_decide_eq_true hfile⟩
  unfold PackDb.getNode
  rw [KeyedMap.get_eq_some.2 hmem]
  rfl

theorem rootOf_of_mem {r : NodeRow} (hr : r ∈ db.nodesIn file) : rootOf db r.id = some r := by
  obtain ⟨hnode, -⟩ := getNode_of_mem hr
  obtain ⟨cells, hcells, -⟩ := Option.map_eq_some_iff.1 hnode
  have hrow : (r.id, cells.file) ∈ db.graph.nodes.entries :=
    List.mem_map.2 ⟨(r.id, cells), KeyedMap.get_eq_some.1 hcells, rfl⟩
  have hhas : db.graph.nodes.has r.id = true := by
    rw [KeyedMap.has, KeyedMap.get_eq_some.2 hrow]
    rfl
  rw [rootOf, resolveNodeId, if_pos hhas, Option.bind_some]
  exact hnode

theorem mem_smallestAround {lo hi : Int} {best : NodeRow} (hbest : smallestAround rows lo hi = some best) :
    best ∈ rows := by
  have hall : ∀ r ∈ smallestAround rows lo hi, r ∈ rows := by
    refine List.foldlRecOn rows _ (motive := fun best => ∀ r ∈ best, r ∈ rows) (fun r hr => by cases hr) ?_
    intro best hbest r hr
    split
    · intro r' hr'
      cases hr'
      exact hr
    · exact hbest
  exact hall best hbest

/-- What the regions are found to touch are rows. -/
theorem mem_entityIds {id : JsString} (hid : id ∈ (classify rows regions).entityIds) : ∃ r ∈ rows, r.id = id := by
  have hall : ∀ id ∈ (classify rows regions).entityIds, ∃ r ∈ rows, r.id = id := by
    refine List.foldlRecOn regions _ (motive := fun found : Classified => ∀ id ∈ found.entityIds, ∃ r ∈ rows, r.id = id)
      (fun id hid => absurd hid List.not_mem_nil) ?_
    intro found hfound region _ id hid
    unfold classifyRegion at hid
    split at hid
    · rename_i best hbest
      rcases mem_addNew.1 hid with hid | rfl
      · exact hfound id hid
      · exact ⟨best, mem_smallestAround hbest, rfl⟩
    · rcases mem_addAll.1 hid with hid | hid
      · exact hfound id hid
      · obtain ⟨r, hr, rfl⟩ := List.mem_map.1 hid
        exact ⟨r, List.mem_of_mem_filter hr, rfl⟩
  exact hall id hid

/-- The roots of ids of rows of the file are rows of the file. -/
theorem mem_roots {ids : List JsString} (hids : ∀ id ∈ ids, ∃ r ∈ db.nodesIn file, r.id = id) :
    ∀ r ∈ ids.foldl (addRoot db) [], r ∈ db.nodesIn file := by
  refine List.foldlRecOn ids _ (motive := fun roots => ∀ r ∈ roots, r ∈ db.nodesIn file)
    (fun r hr => absurd hr List.not_mem_nil) ?_
  intro roots hroots id hid
  obtain ⟨r, hr, rfl⟩ := hids id hid
  rw [addRoot_of_rootOf db (rootOf_of_mem hr)]
  split
  · exact hroots
  · exact List.forall_mem_append.2 ⟨hroots, fun r' hr' => List.mem_singleton.1 hr' ▸ hr⟩

/-- Their headers and bodies are of the file. -/
theorem file_of_mem_startAll (h : Files) (repoRoot : JsString) {roots : List NodeRow}
    (hroots : ∀ r ∈ roots, r ∈ db.nodesIn file) (maxNeighbors maxHeaderLines : Nat) :
    ∀ s ∈ (startAll db h repoRoot maxNeighbors maxHeaderLines roots).slices, s.file = file := by
  have hkeys : ∀ row ∈ (rootsByFile roots).entries, row.1 = file := by
    suffices hget : ∀ key fileRoots, (rootsByFile roots).get key = some fileRoots → key = file from
      fun row hrow => hget row.1 row.2 (KeyedMap.get_eq_some.2 hrow)
    refine List.foldlRecOn roots _ (motive := fun m : KeyedMap JsString (List NodeRow) =>
      ∀ key fileRoots, m.get key = some fileRoots → key = file) (fun key fileRoots hget => by cases hget) ?_
    intro m hm r hr key fileRoots hget
    cases hfile : named r.file with
    | none =>
      rw [hfile] at hget
      exact hm key fileRoots hget
    | some file' =>
      rw [hfile, Option.elim_some, KeyedMap.get_set] at hget
      split at hget
      · rename_i hkey
        have hnamed := (Option.filter_eq_some_iff.1 hfile).1
        rw [(getNode_of_mem (hroots r hr)).2] at hnamed
        exact hkey.symm.trans (Option.some.inj hnamed).symm
      · exact hm key fileRoots hget
  intro s hs
  rcases List.mem_append.1 hs with hs | hs
  · obtain ⟨header, hheader, hs⟩ := List.mem_flatMap.1 hs
    obtain ⟨row, hrow, rfl⟩ := List.mem_map.1 hheader
    unfold rootHeader at hs
    split at hs
    · cases hs
    · obtain ⟨seg, -, rfl⟩ := List.mem_map.1 hs
      exact hkeys row hrow
  · obtain ⟨target, htarget, hs⟩ := List.mem_filterMap.1 hs
    obtain ⟨r, hr, rfl⟩ := List.mem_map.1 htarget
    have hnamed := (Option.filter_eq_some_iff.1 (sliceNode_cases hs).1).1
    rw [(getNode_of_mem (hroots r hr)).2] at hnamed
    exact (Option.some.inj hnamed).symm

/-! The passes add slices behind the ones they are given. -/

theorem prefix_addRefNeighbors (st : PassState) (rootText : JsString) (rootFiles : List JsString)
    (maxRefSliceLines : Nat) :
    st.slices <+: (addRefNeighbors localeCompare db h repoRoot st rootText rootFiles maxRefSliceLines).slices := by
  refine List.foldlRecOn _ _ (motive := fun st' : RefState => st.slices <+: st'.1.slices) List.prefix_rfl ?_
  intro st' hst' r _
  unfold tryAddRef
  split
  · exact hst'
  · exact hst'.trans (List.prefix_append _ _)

theorem prefix_addCallerNeighbors (st : PassState) (maxCallers : Nat) :
    st.slices <+: (addCallerNeighbors localeCompare db h repoRoot st maxCallers).slices := by
  unfold addCallerNeighbors
  split
  · exact List.prefix_rfl
  · exact List.prefix_append _ _

theorem prefix_addImportedSymbolNeighbors (st : PassState) (rootText : JsString → JsString) (maxSymbols : Nat) :
    st.slices <+: (addImportedSymbolNeighbors db h repoRoot st rootText maxSymbols).slices := by
  unfold addImportedSymbolNeighbors
  split
  · exact List.prefix_rfl
  · exact List.prefix_append _ _

theorem prefix_buildContextPackForSymbols {rawIds : List JsString} {pack : ContextPack}
    (hpack : buildContextPackForSymbols localeCompare db h repoRoot rawIds opts = some pack) :
    (startAll db h repoRoot (countOpt opts.maxNeighbors DEFAULT_MAX_NEIGHBORS 0)
      (countOpt opts.maxHeaderLines DEFAULT_MAX_HEADER_LINES 0) (rawIds.foldl (addRoot db) [])).slices <+:
        pack.slices := by
  unfold buildContextPackForSymbols at hpack
  dsimp only at hpack
  split at hpack
  · cases hpack
  · cases hpack
    generalize hstart : startAll db h repoRoot (countOpt opts.maxNeighbors DEFAULT_MAX_NEIGHBORS 0)
      (countOpt opts.maxHeaderLines DEFAULT_MAX_HEADER_LINES 0) (rawIds.foldl (addRoot db) []) = start
    have hcallee : start.slices <+:
        (addCalleeNeighbors localeCompare db h repoRoot start (ascii "unresolved/module/dup")).slices :=
      List.prefix_append _ _
    dsimp only [finishPack]
    split <;> split
    · exact hcallee.trans ((prefix_addRefNeighbors _ _ _ _).trans ((prefix_addCallerNeighbors _ _).trans
        (prefix_addImportedSymbolNeighbors _ _ _)))
    · exact (prefix_addCallerNeighbors _ _).trans (prefix_addImportedSymbolNeighbors _ _ _)
    · exact hcallee.trans ((prefix_addRefNeighbors _ _ _ _).trans (prefix_addCallerNeighbors _ _))
    · exact prefix_addCallerNeighbors _ _

/-- A file that has text and still has a line of a changed entity measures its own pack. -/
theorem measured_of_live {fileLines : List JsString} {r : NodeRow} (hread : read h repoRoot file = some fileLines)
    (htext : joinLines fileLines ≠ []) (hr : r ∈ changedRows db file)
    (hid : r.id ∈ (classify (changedRows db file) regions).entityIds)
    (hlines : max 1 r.rangeStart ≤ min (fileLines.length : Int) r.rangeEnd) :
    Measured localeCompare db h repoRoot file fileLines regions opts := by
  refine ⟨fun s hs => ?_, fun hempty => absurd hempty htext⟩
  have hrow : r ∈ db.nodesIn file := List.mem_of_mem_filter hr
  have hrows : ∀ id ∈ (classify (changedRows db file) regions).entityIds, ∃ r ∈ db.nodesIn file, r.id = id := by
    intro id hid
    obtain ⟨r', hr', rfl⟩ := mem_entityIds hid
    exact ⟨r', List.mem_of_mem_filter hr', rfl⟩
  unfold entitySlices entityPack at hs
  dsimp only at hs
  rw [if_neg (List.ne_nil_of_mem hid)] at hs
  cases hpack : buildContextPackForSymbols localeCompare db h repoRoot
      (classify (changedRows db file) regions).entityIds opts with
  | none =>
    rw [hpack] at hs
    cases hs
  | some pack =>
    rw [hpack, Option.elim_some] at hs
    obtain ⟨extra, hextra⟩ := prefix_buildContextPackForSymbols hpack
    -- the entity is a root, and its body is one of the first slices
    obtain ⟨root, hroot, hrootId⟩ := List.mem_map.1 (mem_foldl_addRoot db hid (rootOf_of_mem hrow) [])
    have hsame : root = r := by
      have hnode := (getNode_of_mem (mem_roots hrows root hroot)).1
      rw [hrootId, (getNode_of_mem hrow).1] at hnode
      exact (Option.some.inj hnode).symm
    have hbody : ∃ s, sliceNode (read h repoRoot) root .target = some s := by
      have hnamed : named root.file = some file := by
        rw [hsame, (getNode_of_mem hrow).2]
        exact Option.filter_some_pos (by simpa using ne_nil_of_read hread)
      rw [sliceNode, hnamed, Option.bind_some, hread, Option.bind_some, hsame]
      exact ⟨_, if_neg (not_lt.2 hlines)⟩
    obtain ⟨body, hbody⟩ := hbody
    have hown := file_of_mem_startAll h repoRoot (mem_roots hrows)
      (countOpt opts.maxNeighbors DEFAULT_MAX_NEIGHBORS 0) (countOpt opts.maxHeaderLines DEFAULT_MAX_HEADER_LINES 0)
    generalize hstart : startAll db h repoRoot (countOpt opts.maxNeighbors DEFAULT_MAX_NEIGHBORS 0)
      (countOpt opts.maxHeaderLines DEFAULT_MAX_HEADER_LINES 0)
      ((classify (changedRows db file) regions).entityIds.foldl (addRoot db) []) = start at hextra hown
    have hmem : body ∈ start.slices := by
      rw [← hstart]
      exact List.mem_append_right _ (List.mem_filterMap.2 ⟨_, List.mem_map.2 ⟨root, hroot, rfl⟩, hbody⟩)
    obtain ⟨first, rest, hfirst⟩ := List.exists_cons_of_ne_nil (List.ne_nil_of_mem hmem)
    rw [← hextra, hfirst, List.cons_append, List.head?_cons] at hs
    rw [← Option.some.inj hs, hown first (hfirst ▸ List.mem_cons_self)]

end Live


/-! ## Packs of two files -/

section Example

/-- Of two functions of a file the first calls one of another file. -/
def callingDb : PackDb where
  nodes := ((KeyedMap.empty.set (ascii "a.ts::f") ⟨ascii "f", ascii "function", some (ascii "a.ts"), 1, 2⟩).set
    (ascii "a.ts::k") ⟨ascii "k", ascii "function", some (ascii "a.ts"), 3, 4⟩).set
    (ascii "b.ts::g") ⟨ascii "g", ascii "function", some (ascii "b.ts"), 1, 1⟩
  edges := [⟨⟨ascii "a.ts::f", ascii "b.ts::g", ascii "call"⟩, 1⟩]
  searchFts := fun _ => none

/-- The files, the one that calls with the lines that it has by now. -/
def callingFiles (lines : List JsString) : Files :=
  { linkedHost with
    stat := fun _ => some (true, 60)
    readText := fun abs => some (if abs = ascii "/r/a.ts" then joinLines lines else ascii "function g() {}") }

def callingLines : List JsString :=
  ["const f = () =>", "  g()", "const k = () =>", "  one() + two() + three() + four()"].map ascii

/-- The pack of the first line. -/
def callingPack (lines : List JsString) : Option ChangePack :=
  buildContextPackForChange compare callingDb (callingFiles lines) (ascii "/r") (ascii "a.ts") [⟨1, 1⟩] {}

theorem change_sound_calling : ∃ pack, callingPack callingLines = some pack ∧
    SoundChange (callingFiles callingLines) (ascii "/r") (ascii "a.ts") callingLines [⟨1, 1⟩] pack := by
  have hread : read (callingFiles callingLines) (ascii "/r") (ascii "a.ts") = some callingLines := by decide +kernel
  obtain ⟨pack, hpack⟩ := Option.isSome_iff_exists.1 (show (callingPack callingLines).isSome = true by decide +kernel)
  refine ⟨pack, hpack, (change_sound_iff hread hpack).2 ?_⟩
  exact measured_of_live (r := ⟨⟨ascii "f", ascii "function", some (ascii "a.ts"), 1, 2⟩, ascii "a.ts::f"⟩) hread
    (by decide) (List.mem_of_getElem? (i := 0) rfl) (by decide +kernel) (by decide)

/-- Emptied since it was indexed, the file still draws in the function that it called. -/
theorem emptied_file_outgrown : ∃ pack, callingPack [[]] = some pack ∧
    read (callingFiles [[]]) (ascii "/r") (ascii "a.ts") = some [[]] ∧
    pack.estTokens = 4 ∧ pack.targetFileEstTokens = 0 ∧
    ¬ SoundChange (callingFiles [[]]) (ascii "/r") (ascii "a.ts") [[]] [⟨1, 1⟩] pack := by
  have hsizes : (callingPack [[]]).map (fun p => (p.estTokens, p.targetFileEstTokens)) = some (4, 0) := by
    decide +kernel
  obtain ⟨pack, hpack, hsizes⟩ := Option.map_eq_some_iff.1 hsizes
  obtain ⟨hest, htarget⟩ := Prod.mk.inj hsizes
  refine ⟨pack, hpack, by decide +kernel, hest, htarget, fun hsound => ?_⟩
  have hsmaller := hsound.smaller
  omega

end Example

end Hayven.Db.Pack
