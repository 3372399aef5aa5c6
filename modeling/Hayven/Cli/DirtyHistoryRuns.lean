import Hayven.Cli.DirtyHistory
/-!
# The steps of the dirty record

The record is measured when git's status is read, after the files are. If every file that
the ingest leaves in another form than HEAD's is dirty then, or on the list before, the new
list covers the index that the ingest leaves: `covers_nextRecord`. A record that is no
list is followed by no list, short of a full rebuild: `notList_step`.
-/
open Hayven.Lib Hayven.Db

namespace Hayven.Cli

/-- Both models of `isSourcePath` are of the same function. -/
theorem db_isSourcePath (path : JsString) : Db.isSourcePath path = isSourcePath path := by
  unfold Db.isSourcePath isSourcePath Native.dot Native.slash
  cases lastIndexOf 0x2E path with
  | none => rfl
  | some d => cases lastIndexOf 0x2F path <;> rfl

section History
variable {Content : Type} (accepts : Accepts Content) (ignores : Ignores Content)

/-! ## What an ingest leaves -/

/-- The rows that a file would have in an index of that tree. -/
def sourceSet (tree : Tree Content) (path : JsString) : Set Content := {c | sourceOf accepts ignores tree path = some c}

/-- The ingest removes the rows that a file had. -/
def IngestRun.removes (run : IngestRun Content) (path : JsString) : Bool :=
  run.purged.all fun files => files.contains path

/-- The rows of a file after the ingest, from those before. -/
def IngestRun.leaves (run : IngestRun Content) (before : Set Content) (path : JsString) : Set Content :=
  {c | (c ∈ before ∧ run.removes path = false) ∨ c ∈ rowsOf run.rows path}

theorem rowsOf_written (ix : Index Content) (run : IngestRun Content) (path : JsString) :
    rowsOf (MainIndex.written ix run).rows path = run.leaves (rowsOf ix.rows path) path := by
  ext c
  show (path, c) ∈ (MainIndex.written ix run).rows ↔ _
  rcases hpurged : run.purged with _ | files
  · simp [MainIndex.written, hpurged, IngestRun.leaves, IngestRun.removes, rowsOf]
  · simp [MainIndex.written, hpurged, IngestRun.leaves, IngestRun.removes, rowsOf]

/-! ## The condition -/

namespace MainIndex
variable [DecidableEq Content]

/-- The file is on the list that the ingest extends. -/
def Listed (s : MainIndex Content) (run : IngestRun Content) (path : JsString) : Prop :=
  run.fullRebuild = false ∧ ∃ old, readIngestDirty s.dirty = some (.paths old) ∧ path ∈ old

/-- What git's status has to find when an ingest asks for it: HEAD at the commit that the
ingest records, and as dirty what the ingest leaves in another form, be it that it read
the file so, or that it did not read the file and the commit recorded before has it so. -/
structure Fair (s : MainIndex Content) (run : IngestRun Content) : Prop where
  sameHead : recorded (written s.index run) = s.git.head
  stillDirty : ∀ path, isSourcePath path = true → ¬ s.Listed run path →
    run.leaves (sourceSet accepts ignores (recorded s.index) path) path ≠ sourceSet accepts ignores s.git.head path →
      s.git.dirty ignores path = true

/-- The condition on a step: git's answer is asked for under `Fair`, and a batch that only
deletes is of files that are on the list or not in the recorded commit. -/
def FairStep (s : MainIndex Content) : IndexAct Content → Prop
  | .record (some _) => s.registry = true → ∀ run, s.run = some run → s.Fair accepts ignores run
  | .deleteBatch files => ∀ list, readIngestDirty s.dirty = some (.paths list) →
      ∀ path ∈ files, path ∈ list ∨ sourceOf accepts ignores (recorded s.index) path = none
  | _ => True

/-- Whatever is not on the list is as in the recorded commit. -/
def Covers (ix : Index Content) (list : List JsString) : Prop :=
  ∀ path, isSourcePath path = true → path ∉ list →
    rowsOf ix.rows path = sourceSet accepts ignores (recorded ix) path

/-- The list covers the index, and one that is about to be written covers the index to come. -/
structure Sound (s : MainIndex Content) : Prop where
  list : ∀ list, readIngestDirty s.dirty = some (.paths list) → Covers accepts ignores s.index list
  pending : ∀ run list, s.run = some run → run.record = some (some (.paths list)) →
    Covers accepts ignores (written s.index run) list
  ordered : ∀ run, s.run = some run → run.head = none → run.record = none

variable {accepts ignores}

/-! ## Single steps -/

omit [DecidableEq Content] in
theorem sound_start (git : Checkout Content) : (start git).Sound accepts ignores :=
  ⟨nofun, nofun, nofun⟩

theorem step_begin {s t : MainIndex Content} {command : IngestCommand}
    (h : s.begin accepts ignores command = some t) :
    s.run = none ∧ ∃ run, s.plan accepts ignores command = some run ∧ t = { s with run := some run } := by
  unfold begin at h
  split at h
  · cases h
  · next hnone =>
    obtain ⟨run, hplan, rfl⟩ := Option.map_eq_some_iff.1 h
    exact ⟨by simpa using hnone, run, hplan, rfl⟩

theorem plan_fresh {s : MainIndex Content} {command : IngestCommand} {run : IngestRun Content}
    (h : s.plan accepts ignores command = some run) :
    run.seen = [] ∧ run.rows = [] ∧ run.head = none ∧ run.record = none := by
  cases command with
  | full =>
    obtain rfl := Option.some.inj h
    exact ⟨rfl, rfl, rfl, rfl⟩
  | refresh =>
    simp only [plan] at h
    split at h <;> obtain rfl := Option.some.inj h <;> exact ⟨rfl, rfl, rfl, rfl⟩
  | batch changed deleted =>
    simp only [plan] at h
    split at h
    · cases h
    · obtain rfl := Option.some.inj h
      exact ⟨rfl, rfl, rfl, rfl⟩
  | below full files =>
    obtain rfl := Option.some.inj h
    exact ⟨rfl, rfl, rfl, rfl⟩

omit [DecidableEq Content] in
theorem step_read {s t : MainIndex Content} {path : JsString} (h : s.read accepts ignores path = some t) :
    ∃ run, s.run = some run ∧ run.head = none ∧ path ∉ run.seen ∧ (run.whole = true ∨ path ∈ run.due) ∧
      t = { s with run := some { run with
        seen := path :: run.seen
        rows := run.rows ++ ((visible [] accepts (s.workTree ignores) path).toList.map fun c => (path, c)) } } := by
  obtain ⟨run, hrun, h⟩ := Option.bind_eq_some_iff.1 h
  split at h
  · next hcond =>
    simp only [Bool.and_eq_true, Bool.or_eq_true, Option.isNone_iff_eq_none, Bool.not_eq_true',
      List.contains_eq_mem, decide_eq_false_iff_not, decide_eq_true_eq] at hcond
    exact ⟨run, hrun, hcond.1.1, hcond.1.2, hcond.2, (Option.some.inj h).symm⟩
  · cases h

omit [DecidableEq Content] in
theorem step_head {s t : MainIndex Content} {answered : Bool} (h : s.readHead answered = some t) :
    ∃ run, s.run = some run ∧ run.head = none ∧ (∀ path ∈ run.due, path ∈ run.seen) ∧
      t = { s with run := some { run with head := some (if answered then some s.git.head else none) } } := by
  obtain ⟨run, hrun, h⟩ := Option.bind_eq_some_iff.1 h
  split at h
  · next hcond =>
    simp only [Bool.and_eq_true, Option.isNone_iff_eq_none, List.all_eq_true, List.contains_eq_mem,
      decide_eq_true_eq] at hcond
    exact ⟨run, hrun, hcond.1, hcond.2, (Option.some.inj h).symm⟩
  · cases h

theorem step_record {s t : MainIndex Content} {answer : Option (List StatusEntry)}
    (h : s.takeRecord ignores answer = some t) :
    ∃ run head, s.run = some run ∧ run.head = some head ∧ s.answerCovers ignores answer = true ∧
      t = { s with run := some { run with record := some (s.nextRecord run answer) } } := by
  obtain ⟨run, hrun, h⟩ := Option.bind_eq_some_iff.1 h
  split at h
  · next hcond =>
    simp only [Bool.and_eq_true, Option.isSome_iff_exists] at hcond
    obtain ⟨⟨⟨head, hhead⟩, -⟩, hcovers⟩ := hcond
    exact ⟨run, head, hrun, hhead, hcovers, (Option.some.inj h).symm⟩
  · cases h

omit [DecidableEq Content] in
theorem step_finish {s t : MainIndex Content} (h : s.finish = some t) :
    ∃ run record, s.run = some run ∧ run.record = some record ∧
      t = { s with index := written s.index run, dirty := writeIngestDirty record, run := none } := by
  obtain ⟨run, hrun, h⟩ := Option.bind_eq_some_iff.1 h
  obtain ⟨record, hrecord, rfl⟩ := Option.map_eq_some_iff.1 h
  exact ⟨run, record, hrun, hrecord, rfl⟩

omit [DecidableEq Content] in
theorem step_deleteBatch {s t : MainIndex Content} {files : List JsString} (h : s.deleteBatch files = some t) :
    s.run = none ∧
      t = { s with index := { s.index with rows := s.index.rows.filter fun row => !files.contains row.1 } } := by
  unfold deleteBatch at h
  split at h
  · cases h
  · next hnone => exact ⟨by simpa using hnone, (Option.some.inj h).symm⟩

/-- git's answer is read as a list with every dirty path on it. -/
theorem mem_status {s : MainIndex Content} {entries : List StatusEntry}
    (h : s.answerCovers ignores (some entries) = true) {path : JsString} (hdirty : s.git.dirty ignores path = true) :
    path ∈ gitStatus (porcelain entries) := by
  have hne : s.git.work.get path ≠ s.git.head.get path := by
    simp only [Checkout.dirty, Bool.and_eq_true, decide_eq_true_eq] at hdirty
    exact hdirty.1
  have hkey : path ∈ s.git.work.keys ++ s.git.head.keys := by
    rw [List.mem_append, KeyedMap.mem_keys, KeyedMap.mem_keys, ← Option.ne_none_iff_exists',
      ← Option.ne_none_iff_exists']
    by_contra hno
    rw [not_or, not_not, not_not] at hno
    exact hne (hno.1.trans hno.2.symm)
  have hall := List.all_eq_true.1 h path (List.mem_filter.2 ⟨hkey, hdirty⟩)
  obtain ⟨e, he, hentry⟩ := List.any_eq_true.1 hall
  exact mem_gitStatus.2 ⟨e, he, by simpa using hentry⟩

/-- A fair record covers the index to come. -/
theorem covers_nextRecord {s : MainIndex Content} (hs : s.Sound accepts ignores) {run : IngestRun Content}
    {answer : Option (List StatusEntry)} (hcovers : s.answerCovers ignores answer = true)
    (hfair : answer.isSome → s.registry = true → s.Fair accepts ignores run) {list : List JsString}
    (hnext : s.nextRecord run answer = some (.paths list)) : Covers accepts ignores (written s.index run) list := by
  obtain ⟨hregistry, current, old, hstatus, hold, -, hlist⟩ := nextIngestDirty_paths hnext
  obtain ⟨entries, rfl, rfl⟩ := Option.map_eq_some_iff.1 hstatus
  have hfair := hfair rfl hregistry
  intro path hsource hnot
  rw [hlist, not_or, db_isSourcePath] at hnot
  have hclean : ¬ s.git.dirty ignores path = true := fun h => hnot.2 ⟨mem_status hcovers h, hsource⟩
  have hunlisted : ¬ s.Listed run path := by
    rintro ⟨hincremental, old', hread, hmem⟩
    rw [hincremental, if_neg Bool.false_ne_true, hread] at hold
    cases hold
    exact hnot.1 hmem
  -- What the index holds of the file before the ingest does not matter, or is as in the commit recorded before.
  have hbefore : run.leaves (rowsOf s.index.rows path) path =
      run.leaves (sourceSet accepts ignores (recorded s.index) path) path := by
    cases hfull : run.fullRebuild
    · rw [hfull, if_neg Bool.false_ne_true] at hold
      rw [hs.list old hold path hsource hnot.1]
    · have hremoves : run.removes path = true := by
        rw [IngestRun.removes, Option.isNone_iff_eq_none.1 hfull]
        rfl
      simp [IngestRun.leaves, hremoves]
  rw [rowsOf_written, hbefore, hfair.sameHead]
  by_contra hne
  exact hclean (hfair.stillDirty path hsource hunlisted hne)

theorem sound_step {s t : MainIndex Content} {a : IndexAct Content} (hs : s.Sound accepts ignores)
    (hok : s.FairStep accepts ignores a) (h : s.step accepts ignores a = some t) : t.Sound accepts ignores := by
  cases a with
  | change git =>
    obtain rfl := Option.some.inj h
    exact ⟨hs.list, hs.pending, hs.ordered⟩
  | registry present =>
    obtain rfl := Option.some.inj h
    exact ⟨hs.list, hs.pending, hs.ordered⟩
  | deleteBatch files =>
    obtain ⟨hnone, rfl⟩ := step_deleteBatch h
    refine ⟨fun list hlist path hsource hnot => ?_, fun _ _ hrun => absurd (hnone.symm.trans hrun) nofun,
      fun _ hrun => absurd (hnone.symm.trans hrun) nofun⟩
    have hrows := hs.list list hlist path hsource hnot
    show {c | (path, c) ∈ s.index.rows.filter _} = sourceSet accepts ignores (recorded s.index) path
    by_cases hmem : path ∈ files
    · have hgone := (hok list hlist path hmem).resolve_left hnot
      simp [hmem, sourceSet, hgone]
    · rw [← hrows]
      simp [hmem, rowsOf]
  | begin command =>
    obtain ⟨-, run, hplan, rfl⟩ := step_begin h
    obtain ⟨-, -, -, hrecord⟩ := plan_fresh hplan
    refine ⟨hs.list, fun run' list hrun hpaths => ?_, fun run' hrun _ => ?_⟩
    · obtain rfl := Option.some.inj hrun
      exact absurd (hrecord.symm.trans hpaths) nofun
    · obtain rfl := Option.some.inj hrun
      exact hrecord
  | read path =>
    obtain ⟨run, hrun, hhead, -, -, rfl⟩ := step_read h
    have hrecord := hs.ordered run hrun hhead
    refine ⟨hs.list, fun run' list hrun' hpaths => ?_, fun run' hrun' _ => ?_⟩
    · obtain rfl := Option.some.inj hrun'
      exact absurd (hrecord.symm.trans hpaths) nofun
    · obtain rfl := Option.some.inj hrun'
      exact hrecord
  | head answered =>
    obtain ⟨run, hrun, hhead, -, rfl⟩ := step_head h
    have hrecord := hs.ordered run hrun hhead
    refine ⟨hs.list, fun run' list hrun' hpaths => ?_, fun run' hrun' hno => ?_⟩
    · obtain rfl := Option.some.inj hrun'
      exact absurd (hrecord.symm.trans hpaths) nofun
    · obtain rfl := Option.some.inj hrun'
      exact absurd hno nofun
  | record answer =>
    obtain ⟨run, head, hrun, hhead, hcovers, rfl⟩ := step_record h
    refine ⟨hs.list, fun run' list hrun' hpaths => ?_, fun run' hrun' hno => ?_⟩
    · obtain rfl := Option.some.inj hrun'
      show Covers accepts ignores (written s.index run) list
      refine covers_nextRecord hs hcovers (fun hanswer hregistry => ?_) (Option.some.inj hpaths)
      obtain ⟨entries, rfl⟩ := Option.isSome_iff_exists.1 hanswer
      exact hok hregistry run hrun
    · obtain rfl := Option.some.inj hrun'
      exact absurd (hhead.symm.trans hno) nofun
  | finish =>
    obtain ⟨run, record, hrun, hrecord, rfl⟩ := step_finish h
    refine ⟨fun list hlist => ?_, nofun, nofun⟩
    rw [readIngestDirty_write] at hlist
    exact hs.pending run list hrun (hlist ▸ hrecord)

/-! ## Records that are no list -/

def NotList (record : Option IngestDirty) : Prop := ∀ list, record ≠ some (.paths list)

/-- No record is taken by a full rebuild. -/
def NoRebuild (s : MainIndex Content) : IndexAct Content → Prop
  | .record _ => ∀ run, s.run = some run → run.fullRebuild = false
  | _ => True

/-- No record is taken by a full rebuild, or without a registry. -/
def KeepsRegistry (s : MainIndex Content) : IndexAct Content → Prop
  | .record _ => s.registry = true ∧ ∀ run, s.run = some run → run.fullRebuild = false
  | _ => True

/-- The record, and one that is about to be written. -/
structure Records (Q : Option IngestDirty → Prop) (s : MainIndex Content) : Prop where
  stored : Q (readIngestDirty s.dirty)
  next : ∀ run record, s.run = some run → run.record = some record → Q record

theorem records_step {Q : Option IngestDirty → Prop} {s t : MainIndex Content} {a : IndexAct Content}
    (hs : s.Records Q) (hnext : ∀ run answer, a = .record answer → s.run = some run → Q (s.nextRecord run answer))
    (h : s.step accepts ignores a = some t) : t.Records Q := by
  cases a with
  | change git =>
    obtain rfl := Option.some.inj h
    exact ⟨hs.stored, hs.next⟩
  | registry present =>
    obtain rfl := Option.some.inj h
    exact ⟨hs.stored, hs.next⟩
  | deleteBatch files =>
    obtain ⟨-, rfl⟩ := step_deleteBatch h
    exact ⟨hs.stored, hs.next⟩
  | begin command =>
    obtain ⟨-, run, hplan, rfl⟩ := step_begin h
    refine ⟨hs.stored, fun run' record hrun hrecord => ?_⟩
    obtain rfl := Option.some.inj hrun
    exact absurd ((plan_fresh hplan).2.2.2.symm.trans hrecord) nofun
  | read path =>
    obtain ⟨run, hrun, -, -, -, rfl⟩ := step_read h
    refine ⟨hs.stored, fun run' record hrun' hrecord => ?_⟩
    obtain rfl := Option.some.inj hrun'
    exact hs.next run record hrun hrecord
  | head answered =>
    obtain ⟨run, hrun, -, -, rfl⟩ := step_head h
    refine ⟨hs.stored, fun run' record hrun' hrecord => ?_⟩
    obtain rfl := Option.some.inj hrun'
    exact hs.next run record hrun hrecord
  | record answer =>
    obtain ⟨run, -, hrun, -, -, rfl⟩ := step_record h
    refine ⟨hs.stored, fun run' record hrun' hrecord => ?_⟩
    obtain rfl := Option.some.inj hrun'
    obtain rfl := Option.some.inj hrecord
    exact hnext run answer rfl hrun
  | finish =>
    obtain ⟨run, record, hrun, hrecord, rfl⟩ := step_finish h
    refine ⟨?_, nofun⟩
    rw [readIngestDirty_write]
    exact hs.next run record hrun hrecord

/-- Only a rebuild starts a list. -/
theorem notList_step {s t : MainIndex Content} {a : IndexAct Content} (hs : s.Records NotList)
    (hok : s.NoRebuild a) (h : s.step accepts ignores a = some t) : t.Records NotList := by
  refine records_step hs ?_ h
  rintro run answer rfl hrun list hlist
  obtain ⟨-, -, old, -, hold, -⟩ := nextIngestDirty_paths hlist
  rw [hok run hrun, if_neg Bool.false_ne_true] at hold
  exact hs.stored old hold

/-- Beside a registry the record stays what it is if it is no list. -/
theorem sticky_step {record : IngestDirty} (hno : NotList (some record)) {s t : MainIndex Content}
    {a : IndexAct Content} (hs : s.Records (· = some record)) (hok : s.KeepsRegistry a)
    (h : s.step accepts ignores a = some t) : t.Records (· = some record) := by
  refine records_step hs ?_ h
  rintro run answer rfl hrun
  rw [nextRecord, hok.1, hok.2 run hrun]
  exact nextIngestDirty_sticky hs.stored fun paths heq => hno paths (congrArg some heq)

end MainIndex

end History

end Hayven.Cli
