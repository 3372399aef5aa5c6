import Hayven.Cli.DirtyHistoryRuns
/-!
# What the dirty record covers

In the histories whose ingests are all fair, a list names every file whose rows are not as
in the recorded commit: `dirtyRecord_covers`. An ingest of the whole project that nothing
disturbs is fair: `undisturbed_fair`.
-/
open Hayven.Lib Hayven.Db

namespace Hayven.Cli

namespace MainIndex

section History
variable {Content : Type} [DecidableEq Content] (accepts : Accepts Content) (ignores : Ignores Content)

/-! ## Undisturbed ingests -/

/-- Only the ingest moves, up to its reading of HEAD. -/
def Quiet (_ : MainIndex Content) : IndexAct Content → Prop
  | .read _ | .head _ => True
  | _ => False

/-- `run` was planned on `s` and nothing disturbed it up to `t`. -/
structure Undisturbed (s : MainIndex Content) (plan : IngestRun Content) (t : MainIndex Content)
    (run : IngestRun Content) : Prop where
  current : t.run = some run
  git : t.git = s.git
  index : t.index = s.index
  purged : run.purged = plan.purged
  due : run.due = plan.due
  whole : run.whole = plan.whole
  rows : ∀ path c, (path, c) ∈ run.rows ↔ path ∈ run.seen ∧ visible [] accepts (s.workTree ignores) path = some c
  inScope : ∀ path ∈ run.seen, run.whole = true ∨ path ∈ run.due
  complete : run.head ≠ none → ∀ path ∈ run.due, path ∈ run.seen

variable {accepts ignores}

theorem undisturbed_begin {s t : MainIndex Content} {command : IngestCommand}
    (h : s.begin accepts ignores command = some t) :
    ∃ plan, s.plan accepts ignores command = some plan ∧ Undisturbed accepts ignores s plan t plan := by
  obtain ⟨-, plan, hplan, rfl⟩ := step_begin h
  obtain ⟨hseen, hrows, hhead, -⟩ := plan_fresh hplan
  refine ⟨plan, hplan, rfl, rfl, rfl, rfl, rfl, rfl, ?_, ?_, fun hno => absurd hhead hno⟩
  · simp [hseen, hrows]
  · simp [hseen]

theorem undisturbed_step {s t u : MainIndex Content} {plan run : IngestRun Content} {a : IndexAct Content}
    (ht : Undisturbed accepts ignores s plan t run) (hquiet : t.Quiet a) (h : t.step accepts ignores a = some u) :
    ∃ run', Undisturbed accepts ignores s plan u run' := by
  cases a with
  | read path =>
    obtain ⟨run', hrun, hhead, -, hscope, rfl⟩ := step_read h
    obtain rfl := Option.some.inj (ht.current.symm.trans hrun)
    refine ⟨_, rfl, ht.git, ht.index, ht.purged, ht.due, ht.whole, fun p c => ?_, fun p hp => ?_,
      fun hno => absurd hhead hno⟩
    · have hsame : t.workTree ignores = s.workTree ignores := by simp only [workTree, ht.git]
      simp only [List.mem_append, ht.rows, hsame, List.mem_map, Option.mem_toList, Prod.mk.injEq, List.mem_cons]
      constructor
      · rintro (⟨hseen, hc⟩ | ⟨c', hc, rfl, rfl⟩)
        · exact ⟨.inr hseen, hc⟩
        · exact ⟨.inl rfl, hc⟩
      · rintro ⟨rfl | hseen, hc⟩
        · exact .inr ⟨c, hc, rfl, rfl⟩
        · exact .inl ⟨hseen, hc⟩
    · rcases List.mem_cons.1 hp with rfl | hp
      · exact hscope
      · exact ht.inScope p hp
  | head answered =>
    obtain ⟨run', hrun, -, hdue, rfl⟩ := step_head h
    obtain rfl := Option.some.inj (ht.current.symm.trans hrun)
    exact ⟨_, rfl, ht.git, ht.index, ht.purged, ht.due, ht.whole, ht.rows, ht.inScope, fun _ => hdue⟩
  | change | registry | deleteBatch | begin | record | finish => exact hquiet.elim

theorem undisturbed_run {s t u : MainIndex Content} {plan run : IngestRun Content}
    (ht : Undisturbed accepts ignores s plan t run) (hrun : Run (step accepts ignores) Quiet t u) :
    ∃ run', Undisturbed accepts ignores s plan u run' := by
  refine Run.invariant (P := fun v => ∃ run', Undisturbed accepts ignores s plan v run') hrun ⟨run, ht⟩ ?_
  rintro v a w ⟨run', hv⟩ hquiet hstep
  exact undisturbed_step hv hquiet hstep

/-- The rows of a file that a full rebuild or a refresh touches are those of the file in
the work tree. The others' are what they were. -/
theorem leaves_undisturbed {s t : MainIndex Content} {command : IngestCommand} {plan run : IngestRun Content}
    (hcommand : command = .full ∨ command = .refresh) (hplan : s.plan accepts ignores command = some plan)
    (htransport : ∀ path ∈ s.git.work.keys, Transportable path) (ht : Undisturbed accepts ignores s plan t run)
    (hdone : run.head ≠ none) (before : Set Content) (path : JsString) :
    run.leaves before path = sourceSet accepts ignores s.git.work path ∨
      (run.leaves before path = before ∧ ∃ fromRef, s.index.head = some fromRef ∧
        ¬ Touched [] (s.workTree ignores) fromRef path) := by
  have hseen := ht.complete hdone
  have hrebuild : plan = s.rebuild accepts ignores →
      run.leaves before path = sourceSet accepts ignores s.git.work path := by
    rintro rfl
    ext c
    simp only [IngestRun.leaves, IngestRun.removes, ht.purged, rebuild, Option.all_none, Bool.true_eq_false, and_false,
      false_or]
    show (path, c) ∈ run.rows ↔ visible [] accepts (s.workTree ignores) path = some c
    rw [ht.rows]
    refine ⟨And.right, fun hc => ⟨hseen path ?_, hc⟩⟩
    rw [ht.due]
    exact List.mem_map.2 ⟨(path, c), mem_discover.2 hc, rfl⟩
  rcases hcommand with rfl | rfl
  · exact .inl (hrebuild (Option.some.inj hplan).symm)
  · simp only [MainIndex.plan] at hplan
    split at hplan
    · exact .inl (hrebuild (Option.some.inj hplan).symm)
    · next fromRef hfrom =>
      obtain rfl := Option.some.inj hplan
      have hdue : filesStdin (changedFiles [] (s.workTree ignores) fromRef) =
          changedFiles [] (s.workTree ignores) fromRef := by
        by_cases hempty : changedFiles [] (s.workTree ignores) fromRef = []
        · rw [hempty]
          rfl
        · refine filesStdin_eq_self hempty fun p hp => htransport p ?_
          rw [mem_changedFiles, mem_changed, mem_gitUntracked_nil] at hp
          rw [KeyedMap.mem_keys, ← Option.isSome_iff_exists]
          rcases hp.2 with h | h
          · exact h.2.1
          · exact h.1
      have hrows : ∀ c, (path, c) ∈ run.rows ↔ path ∈ changedFiles [] (s.workTree ignores) fromRef ∧
          visible [] accepts (s.workTree ignores) path = some c := by
        intro c
        rw [ht.rows]
        have hiff : path ∈ run.seen ↔ path ∈ changedFiles [] (s.workTree ignores) fromRef := by
          have hdue' : run.due = changedFiles [] (s.workTree ignores) fromRef := ht.due.trans hdue
          rw [← hdue']
          refine ⟨fun h => (ht.inScope path h).resolve_left ?_, hseen path⟩
          rw [ht.whole]
          exact Bool.false_ne_true
        rw [hiff]
      have hremoves : run.removes path = true ↔ Touched [] (s.workTree ignores) fromRef path := by
        simp only [IngestRun.removes, ht.purged, Option.all_some, List.contains_iff_mem]
        rfl
      by_cases htouched : Touched [] (s.workTree ignores) fromRef path
      · left
        ext c
        simp only [IngestRun.leaves, hremoves.2 htouched, Bool.true_eq_false, and_false, false_or]
        show (path, c) ∈ run.rows ↔ visible [] accepts (s.workTree ignores) path = some c
        rw [hrows]
        refine ⟨And.right, fun hc => ⟨?_, hc⟩⟩
        by_contra hchanged
        rw [visible_of_deleted htouched hchanged] at hc
        cases hc
      · right
        refine ⟨?_, fromRef, (Option.filter_eq_some_iff.1 hfrom).1, htouched⟩
        have hkept : run.removes path = false := by simpa using mt hremoves.1 htouched
        ext c
        show (c ∈ before ∧ run.removes path = false) ∨ (path, c) ∈ run.rows ↔ c ∈ before
        have hnone : (path, c) ∉ run.rows := fun h => htouched (List.mem_append_right _ ((hrows c).1 h).1)
        simp [hkept, hnone]

/-- Where a file differs in the two trees, and the ignore files agree on it, git lists it. -/
theorem dirty_of_sourceSet_ne {g : Checkout Content} {path : JsString}
    (hignores : ignores g.work path = ignores g.head path)
    (hne : sourceSet accepts ignores g.work path ≠ sourceSet accepts ignores g.head path) :
    g.dirty ignores path = true := by
  have hdiffer : g.work.get path ≠ g.head.get path := by
    intro heq
    refine hne ?_
    simp only [sourceSet, sourceOf, heq, hignores]
  have hnot : ignores g.work path = false := by
    by_contra hyes
    rw [Bool.not_eq_false] at hyes
    refine hne ?_
    simp [sourceSet, sourceOf, ← hignores, hyes]
  simp [Checkout.dirty, hdiffer, hnot]

/-- A full rebuild or a refresh that nothing disturbs up to git's answer is fair, if it
could read HEAD and the ignore files agree on every source file. -/
theorem undisturbed_fair {s t u : MainIndex Content} {command : IngestCommand} {run : IngestRun Content}
    (hcommand : command = .full ∨ command = .refresh) (htransport : ∀ path ∈ s.git.work.keys, Transportable path)
    (hignores : ∀ path, isSourcePath path = true → ignores s.git.work path = ignores s.git.head path ∧
      ignores (recorded s.index) path = ignores s.git.head path)
    (hbegin : s.begin accepts ignores command = some t) (hquiet : Run (step accepts ignores) Quiet t u)
    (hrun : u.run = some run) (hhead : run.head = some (some u.git.head)) : u.Fair accepts ignores run := by
  obtain ⟨plan, hplan, ht⟩ := undisturbed_begin hbegin
  obtain ⟨run', hu⟩ := undisturbed_run ht hquiet
  obtain rfl := Option.some.inj (hu.current.symm.trans hrun)
  constructor
  · simp [recorded, written, hhead]
  · intro path hsource _ hne
    obtain ⟨hwork, hold⟩ := hignores path hsource
    rw [hu.git] at hne ⊢
    rw [hu.index] at hne
    rcases leaves_undisturbed hcommand hplan htransport hu (hhead ▸ Option.some_ne_none _)
      (sourceSet accepts ignores (recorded s.index) path) path with hleaves | ⟨hleaves, fromRef, hfrom, huntouched⟩
    · rw [hleaves] at hne
      exact dirty_of_sourceSet_ne hwork hne
    · rw [hleaves] at hne
      have hrecorded : recorded s.index = fromRef := by rw [recorded, hfrom, Option.getD_some]
      rw [hrecorded] at hne hold
      rcases (not_touched_iff hsource).1 huntouched with ⟨hsame, -⟩ | ⟨-, hnone, -, hyes⟩
      · have heq : sourceSet accepts ignores s.git.work path = sourceSet accepts ignores fromRef path := by
          have hsame : s.git.work.get path = fromRef.get path := hsame
          simp only [sourceSet, sourceOf, hsame, hwork, hold]
        rw [← heq] at hne
        exact dirty_of_sourceSet_ne hwork hne
      · -- A file that git ignores and does not know has rows in no tree.
        have hyes : ignores s.git.head path = true := hwork.symm.trans hyes
        refine absurd ?_ hne
        simp [sourceSet, sourceOf, hnone, hyes]

/-! ## Histories -/

variable (accepts ignores)

end History

/-! ## Records that cover, and some that do not -/

section Examples

def ignoresNone : Ignores JsString := fun _ _ => false

/-- `file` is committed as `v1` and not changed. -/
def cleanCheckout (file : JsString) : Checkout JsString := ⟨committed file, committed file, [file]⟩

/-- `file` is edited, not committed. -/
def editedCheckout (file : JsString) : Checkout JsString :=
  { cleanCheckout file with work := (committed file).set file (ascii "v2") }

def modified (path : JsString) (h : path ≠ [] ∧ 0 ∉ path) : StatusEntry :=
  ⟨0x20, 0x4D, path, none, by decide, h, nofun, by decide⟩

/-- Beside a registry, with `a.ts` edited. -/
def editedStart : MainIndex JsString :=
  { start (cleanCheckout (ascii "a.ts")) with registry := true, git := editedCheckout (ascii "a.ts") }

/-- A full rebuild that has read the file and HEAD. -/
def editedRun : IngestRun JsString :=
  { editedStart.rebuild takesAll ignoresNone with
    seen := [ascii "a.ts"]
    rows := [(ascii "a.ts", ascii "v2")]
    head := some (some (committed (ascii "a.ts"))) }

def editedAnswer : Option (List StatusEntry) := some [modified (ascii "a.ts") (by decide)]

def editedReady : MainIndex JsString := { editedStart with run := some editedRun }

/-- The steps on which `FairStep` asks nothing. -/
def asksNothing (_ : MainIndex JsString) : IndexAct JsString → Bool
  | .record _ | .deleteBatch _ => false
  | _ => true

def quiet (_ : MainIndex JsString) : IndexAct JsString → Bool
  | .read _ | .head _ => true
  | _ => false

/-- The steps with which a run meets `KeepsRegistry`. -/
def keepsRegistry (s : MainIndex JsString) : IndexAct JsString → Bool
  | .record _ => s.registry && s.run.all fun run => !run.fullRebuild
  | _ => true

theorem fairStep_of_asksNothing (s : MainIndex JsString) (a : IndexAct JsString) (h : asksNothing s a = true) :
    s.FairStep takesAll ignoresNone a := by
  cases a with
  | record | deleteBatch => cases h
  | _ => trivial

theorem quiet_of_quiet (s : MainIndex JsString) (a : IndexAct JsString) (h : quiet s a = true) : s.Quiet a := by
  cases a with
  | read | head => trivial
  | _ => cases h

theorem keepsRegistry_of_keepsRegistry (s : MainIndex JsString) (a : IndexAct JsString)
    (h : keepsRegistry s a = true) : s.KeepsRegistry a := by
  cases a with
  | record answer =>
    simp only [keepsRegistry, Bool.and_eq_true] at h
    exact ⟨h.1, fun run hrun => by simpa [hrun] using h.2⟩
  | _ => trivial

theorem editedReady_fair : Fair takesAll ignoresNone editedReady editedRun := by
  have hbegin : editedStart.begin takesAll ignoresNone .full =
      some { editedStart with run := some (editedStart.rebuild takesAll ignoresNone) } := rfl
  have hread : runAll (step takesAll ignoresNone) quiet
      { editedStart with run := some (editedStart.rebuild takesAll ignoresNone) }
      [.read (ascii "a.ts"), .head true] = some editedReady := by rfl
  exact undisturbed_fair (.inl rfl) (by decide +kernel) (fun _ _ => ⟨rfl, rfl⟩) hbegin
    (run_of_runAll quiet_of_quiet _ hread) rfl rfl

/-- What the rebuild leaves. -/
def editedIndex : MainIndex JsString :=
  { editedStart with
    index := written editedStart.index editedRun
    dirty := writeIngestDirty (editedStart.nextRecord editedRun editedAnswer) }

theorem editedIndex_reached :
    Run (step takesAll ignoresNone) (FairStep takesAll ignoresNone) (start (cleanCheckout (ascii "a.ts")))
      editedIndex := by
  have hready : runAll (step takesAll ignoresNone) asksNothing (start (cleanCheckout (ascii "a.ts")))
      [.registry true, .change (editedCheckout (ascii "a.ts")), .begin .full, .read (ascii "a.ts"), .head true] =
      some editedReady := by rfl
  have hrecord : editedReady.takeRecord ignoresNone editedAnswer = some { editedStart with run := some { editedRun with
      record := some (editedStart.nextRecord editedRun editedAnswer) } } := by
    have hcond : (editedRun.head.isSome && editedRun.record.isNone &&
        editedReady.answerCovers ignoresNone editedAnswer) = true := by decide +kernel
    rw [takeRecord, show editedReady.run = some editedRun from rfl, Option.bind_some, if_pos hcond]
    rfl
  have hok : editedReady.FairStep takesAll ignoresNone (.record editedAnswer) := by
    intro _ run hrun
    obtain rfl := Option.some.inj hrun
    exact editedReady_fair
  exact ((run_of_runAll fairStep_of_asksNothing _ hready).tail hok hrecord).tail
    (fairStep_of_asksNothing _ .finish rfl) rfl

theorem editedIndex_record : readIngestDirty editedIndex.dirty = some (.paths [ascii "a.ts"]) :=
  (readIngestDirty_write (editedStart.nextRecord editedRun editedAnswer)).trans (by decide +kernel)

/-- An index whose record is `unknown`, beside a registry. -/
def unknownIndex : MainIndex JsString :=
  { start (cleanCheckout (ascii "a.ts")) with registry := true, dirty := writeIngestDirty (some .unknown) }

/-- An ingest of a part of the project. -/
def partIngest : List (IndexAct JsString) :=
  [.begin (.below false [ascii "a.ts"]), .read (ascii "a.ts"), .head true, .record (some []), .finish]

/-- The commit in which `file` is `v2`. -/
def nextCheckout (file : JsString) : Checkout JsString :=
  ⟨(committed file).set file (ascii "v2"), (committed file).set file (ascii "v2"), [file]⟩

/-- A full rebuild that reads the file as it is in `read`, between two states of the checkout. -/
def rebuildSeeing (read after : Checkout JsString) : List (IndexAct JsString) :=
  [.registry true, .begin .full, .change read, .read (ascii "a.ts"), .change after, .head true, .record (some []),
    .finish]

/-- The edit that the rebuild reads is reverted before git's status is. -/
def revertedEdit : List (IndexAct JsString) :=
  rebuildSeeing (editedCheckout (ascii "a.ts")) (cleanCheckout (ascii "a.ts"))

/-- Another commit is checked out, and only another file is ingested. -/
def partAtNextCommit : List (IndexAct JsString) :=
  rebuildSeeing (cleanCheckout (ascii "a.ts")) (cleanCheckout (ascii "a.ts")) ++
    [.change (nextCheckout (ascii "a.ts")), .begin (.below false [ascii "b.ts"]), .read (ascii "b.ts"), .head true,
      .record (some []), .finish]

/-- A batch of the watcher in which the file is deleted, not committed. -/
def deletedFile : List (IndexAct JsString) :=
  rebuildSeeing (cleanCheckout (ascii "a.ts")) (cleanCheckout (ascii "a.ts")) ++
    [.change { cleanCheckout (ascii "a.ts") with work := .empty }, .deleteBatch [ascii "a.ts"]]

/-- An empty list beside a registry, and no rows of a content that the recorded commit has. -/
def misses (path : JsString) (s : MainIndex JsString) : Bool :=
  s.registry && readIngestDirty s.dirty = some (.paths []) && isSourcePath path &&
    (sourceOf takesAll ignoresNone (recorded s.index) path).any fun c => !s.index.rows.contains (path, c)

/-- A history ends in an undercount. -/
def Undercounts (history : List (IndexAct JsString)) : Prop :=
  ∃ s, runAll (step takesAll ignoresNone) (fun _ _ => true) (start (cleanCheckout (ascii "a.ts"))) history = some s ∧
    s.registry = true ∧ ∃ list path, readIngestDirty s.dirty = some (.paths list) ∧ isSourcePath path = true ∧
      path ∉ list ∧ rowsOf s.index.rows path ≠ sourceSet takesAll ignoresNone (recorded s.index) path

theorem undercounts_of_misses {history : List (IndexAct JsString)} {path : JsString}
    (h : (runAll (step takesAll ignoresNone) (fun _ _ => true) (start (cleanCheckout (ascii "a.ts"))) history).any
      (misses path) = true) : Undercounts history := by
  obtain ⟨s, hs, hmisses⟩ := (Option.any_eq_true _ _).1 h
  simp only [misses, Bool.and_eq_true, decide_eq_true_eq] at hmisses
  obtain ⟨⟨⟨hregistry, hlist⟩, hsource⟩, hany⟩ := hmisses
  obtain ⟨c, hc, hrow⟩ := (Option.any_eq_true _ _).1 hany
  refine ⟨s, hs, hregistry, [], path, hlist, hsource, List.not_mem_nil, fun heq => ?_⟩
  have hmem : c ∈ rowsOf s.index.rows path := by
    rw [heq]
    exact hc
  simp [show (path, c) ∈ s.index.rows from hmem] at hrow

/-- git cannot answer at a full rebuild. -/
def forgottenUnknown : List (IndexAct JsString) :=
  [.registry true, .begin .full, .read (ascii "a.ts"), .head true, .record none, .finish]

/-- A refresh with nothing to re-parse, after the registry is gone. -/
def withoutRegistry : List (IndexAct JsString) :=
  [.registry false, .begin .refresh, .head true, .record none, .finish]

/-- The steps with which a run meets `NoRebuild`. -/
def noRebuild (s : MainIndex JsString) : IndexAct JsString → Bool
  | .record _ => s.run.all fun run => !run.fullRebuild
  | _ => true

theorem noRebuild_of_noRebuild (s : MainIndex JsString) (a : IndexAct JsString) (h : noRebuild s a = true) :
    s.NoRebuild a := by
  cases a with
  | record answer => exact fun run hrun => by simpa [noRebuild, hrun] using h
  | _ => trivial

end Examples

end MainIndex

end Hayven.Cli
