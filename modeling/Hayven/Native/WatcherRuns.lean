import Hayven.Lib.Runs
import Hayven.Native.Watcher
/-!
# No reported path is lost

What is owed to a path is either pending or waits for a queued rescan (`WatchInv`), and
a call that starts settles it. The buffer is keyed by file, so a record can replace a
rename and with it the only mention of its source: the run must avoid that
(`watch_settled`).
-/
open Hayven.Lib

namespace Hayven.Native

/-! ## Classification -/

theorem mem_addSource {deleted : List JsString} {o : Option JsString} {p : JsString} :
    p ∈ addSource deleted o ↔ p ∈ deleted ∨ o.filter (· ≠ []) = some p := by
  unfold addSource
  cases o with
  | none => simp
  | some q =>
    by_cases hq : q = []
    · simp [hq]
    · simp only [hq, if_false, mem_addNew, ne_eq, not_false_eq_true, decide_true, Option.filter_some, if_true,
        Option.some.injEq, eq_comm]

theorem foldl_classifyEvent (events : List WatchEvent) : ∀ (c : Classified) (p : JsString),
    (p ∈ (events.foldl classifyEvent c).changed ↔ p ∈ c.changed ∨ ∃ e ∈ events, e.kind ≠ .delete ∧ e.file = p) ∧
    (p ∈ (events.foldl classifyEvent c).deleted ↔
      p ∈ c.deleted ∨ ∃ e ∈ events, (e.kind = .delete ∧ e.file = p) ∨ e.source = some p) := by
  induction events with
  | nil => intro c p; simp
  | cons e events ih =>
    intro c p
    rw [List.foldl_cons]
    obtain ⟨hchanged, hdeleted⟩ := ih (classifyEvent c e) p
    rw [hchanged, hdeleted]
    obtain ⟨file, kind, fromPath⟩ := e
    simp only [List.mem_cons, exists_eq_or_imp, WatchEvent.source]
    cases kind with
    | delete | create | modify =>
      simp only [classifyEvent, mem_addNew]
      simp
      grind
    | rename =>
      simp only [classifyEvent, mem_addNew, mem_addSource]
      simp
      grind

theorem mem_classify_changed {events : List WatchEvent} {p : JsString} :
    p ∈ (classify events).changed ↔ ∃ e ∈ events, e.kind ≠ .delete ∧ e.file = p := by
  show p ∈ (events.foldl classifyEvent ⟨[], []⟩).changed ↔ _
  rw [(foldl_classifyEvent events ⟨[], []⟩ p).1]
  simp

theorem mem_classify_deleted {events : List WatchEvent} {p : JsString} :
    p ∈ (classify events).deleted ↔
      (∃ e ∈ events, (e.kind = .delete ∧ e.file = p) ∨ e.source = some p) ∧ p ∉ (classify events).changed := by
  unfold classify
  simp only [List.mem_filter, decide_eq_true_eq, (foldl_classifyEvent events ⟨[], []⟩ p).2]
  simp

/-- A mentioned path is changed or deleted. -/
theorem mentions_classified {events : List WatchEvent} {p : JsString} (h : ∃ e ∈ events, e.mentions p)
    (hp : p ∉ (classify events).changed) : p ∈ (classify events).deleted := by
  obtain ⟨e, he, hfile | hsource⟩ := h
  · refine mem_classify_deleted.2 ⟨⟨e, he, .inl ⟨?_, hfile⟩⟩, hp⟩
    by_contra hkind
    exact hp (mem_classify_changed.2 ⟨e, he, hkind, hfile⟩)
  · exact mem_classify_deleted.2 ⟨⟨e, he, .inr hsource⟩, hp⟩

/-! ## What is owed -/

theorem owed_nil {role : PathRole} {p : JsString} : ¬ Owed [] role p := by
  rintro ⟨later, e, earlier, h, -⟩
  cases later <;> cases h

theorem owed_record {e : WatchEvent} {log : List Happening} {role : PathRole} {p : JsString} :
    Owed (.record e :: log) role p ↔ e.names role p ∨ Owed log role p := by
  constructor
  · rintro ⟨later, e', earlier, heq, hnames, hlater⟩
    cases later with
    | nil =>
      obtain ⟨rfl, -⟩ : e = e' ∧ log = earlier := by simpa using heq
      exact .inl hnames
    | cons h later =>
      obtain ⟨-, hlog⟩ : _ = h ∧ log = later ++ .record e' :: earlier := by simpa using heq
      exact .inr ⟨later, e', earlier, hlog, hnames, fun h' hh => hlater h' (by simp [hh])⟩
  · rintro (hnames | ⟨later, e', earlier, rfl, hnames, hlater⟩)
    · exact ⟨[], e, log, rfl, hnames, by simp⟩
    · refine ⟨.record e :: later, e', earlier, rfl, hnames, fun h hh => ?_⟩
      rcases List.mem_cons.1 hh with rfl | hh
      · exact id
      · exact hlater h hh

/-- A call covers the path or leaves it owed. -/
theorem owed_call {call : Happening} {log : List Happening} {role : PathRole} {p : JsString}
    (hcall : ∀ e, call ≠ .record e) : Owed (call :: log) role p ↔ ¬ call.covers role p ∧ Owed log role p := by
  constructor
  · rintro ⟨later, e, earlier, heq, hnames, hlater⟩
    cases later with
    | nil =>
      obtain ⟨hrec, -⟩ : call = .record e ∧ log = earlier := by simpa using heq
      exact absurd hrec (hcall e)
    | cons h later =>
      obtain ⟨rfl, hlog⟩ : call = h ∧ log = later ++ .record e :: earlier := by simpa using heq
      exact ⟨hlater call (by simp), later, e, earlier, hlog, hnames, fun h' hh => hlater h' (by simp [hh])⟩
  · rintro ⟨hcov, later, e, earlier, rfl, hnames, hlater⟩
    refine ⟨call :: later, e, earlier, rfl, hnames, fun h hh => ?_⟩
    rcases List.mem_cons.1 hh with rfl | hh
    · exact hcov
    · exact hlater h hh

theorem not_owed_overflow {info : OverflowInfo} {log : List Happening} {role : PathRole} {p : JsString} :
    ¬ Owed (.onOverflow info :: log) role p := by
  rw [owed_call (by simp)]
  exact fun h => h.1 trivial

/-! ## The invariant -/

def Watch.Mentions (w : Watch) (p : JsString) : Prop := ∃ e ∈ w.pending.values, e.mentions p

structure WatchInv (w : Watch) : Prop where
  keyed : ∀ p e, w.pending.get p = some e → e.file = p
  files : ∀ p, Owed w.log .file p → (w.pending.get p).isSome = true ∨ w.overflowPending.isSome = true
  sources : ∀ p, Owed w.log .source p → w.Mentions p ∨ w.overflowPending.isSome = true
  queued : w.overflowPending.isSome = true → w.overflowInFlight = true
  batches : w.batches = if w.batchInFlight then 1 else 0
  overflows : w.overflows = if w.overflowInFlight then 1 else 0
  armed : w.pending.entries ≠ [] → w.debounceTimer = true ∨ w.batchInFlight = true ∨ w.overflowInFlight = true

theorem watchInv_start (onDisk : JsString → Bool) : WatchInv (.start onDisk) :=
  ⟨by rintro p e ⟨⟩, fun _ h => absurd h owed_nil, fun _ h => absurd h owed_nil, by rintro ⟨⟩, rfl, rfl,
    fun h => absurd rfl h⟩

variable {w w' : Watch}

/-- A rescan that starts covers all that is owed. -/
theorem WatchInv.callOverflow (hkeyed : ∀ p e, w.pending.get p = some e → e.file = p) (hflight : w.overflowInFlight = true)
    (hbatches : w.batches = if w.batchInFlight then 1 else 0) (hnone : w.overflows = 0) (info : OverflowInfo) :
    WatchInv (w.callOverflow info) where
  keyed := hkeyed
  files _ h := absurd h not_owed_overflow
  sources _ h := absurd h not_owed_overflow
  queued := by rintro ⟨⟩
  batches := hbatches
  overflows := by
    show w.overflows + 1 = if w.overflowInFlight then 1 else 0
    rw [hflight, hnone]
    rfl
  armed _ := .inr (.inr hflight)

theorem WatchInv.runOverflow (hkeyed : ∀ p e, w.pending.get p = some e → e.file = p)
    (hbatches : w.batches = if w.batchInFlight then 1 else 0) (hnone : w.overflows = 0) (info : OverflowInfo) :
    WatchInv (w.runOverflow info) :=
  .callOverflow (w := { w with overflowInFlight := true }) hkeyed rfl hbatches hnone info

/-- A rescan asked for over a cleared buffer. -/
theorem WatchInv.overflowed (hpending : w.pending = .empty) (hbatches : w.batches = if w.batchInFlight then 1 else 0)
    (hoverflows : w.overflows = if w.overflowInFlight then 1 else 0) (info : OverflowInfo) :
    WatchInv (w.overflowed info) := by
  have hkeyed : ∀ p e, w.pending.get p = some e → e.file = p := by
    intro p e h
    rw [hpending] at h
    cases h
  unfold Watch.overflowed
  by_cases hflight : w.overflowInFlight = true
  · rw [if_pos hflight]
    exact ⟨hkeyed, fun _ _ => .inr rfl, fun _ _ => .inr rfl, fun _ => hflight, hbatches, hoverflows,
      fun _ => .inr (.inr hflight)⟩
  · rw [if_neg hflight]
    refine .runOverflow hkeyed hbatches ?_ info
    rw [hoverflows, if_neg hflight]

theorem WatchInv.rearm (h : WatchInv { w with debounceTimer := true }) : WatchInv w.rearmIfPending := by
  unfold Watch.rearmIfPending
  split
  · exact h
  · rename_i hskip
    refine ⟨h.keyed, h.files, h.sources, h.queued, h.batches, h.overflows, fun hne => .inl ?_⟩
    simpa [List.isEmpty_eq_false_iff.2 hne] using hskip

/-- The batch that starts covers all that is owed. -/
theorem WatchInv.callBatch (h : WatchInv w) (hbatch : w.batchInFlight = false) (hflight : w.overflowInFlight = false)
    (hkeeps : ∀ p, Owed w.log .source p → w.onDisk p = false → p ∉ (classify w.pending.values).changed) :
    WatchInv { w with debounceTimer := false }.callBatch := by
  have hnone : w.overflowPending.isSome ≠ true := by
    intro hsome
    rw [h.queued hsome] at hflight
    cases hflight
  have hsettled : ∀ role p, ¬ Owed { w with debounceTimer := false }.callBatch.log role p := by
    intro role p howed
    obtain ⟨hcov, howed⟩ := (owed_call (by simp)).1 howed
    cases role with
    | file =>
      rcases h.files p howed with hsome | hsome
      · obtain ⟨e, he⟩ := Option.isSome_iff_exists.1 hsome
        exact hcov ⟨⟨e, KeyedMap.mem_values.2 ⟨p, he⟩, .inl (h.keyed p e he)⟩, by rintro ⟨⟩⟩
      · exact hnone hsome
    | source =>
      rcases h.sources p howed with hmentions | hsome
      · exact hcov ⟨hmentions, fun _ hdisk => mentions_classified hmentions (hkeeps p howed hdisk)⟩
      · exact hnone hsome
  constructor
  · rintro p e ⟨⟩
  · exact fun p howed => absurd howed (hsettled .file p)
  · exact fun p howed => absurd howed (hsettled .source p)
  · exact fun hsome => absurd hsome hnone
  · show w.batches + 1 = 1
    rw [h.batches, hbatch]
    rfl
  · exact h.overflows
  · exact fun hne => absurd rfl hne

theorem WatchInv.flush (h : WatchInv w) (hkeeps : w.batchInFlight = false → w.overflowInFlight = false →
    ∀ p, Owed w.log .source p → w.onDisk p = false → p ∉ (classify w.pending.values).changed) : WatchInv w.flush := by
  unfold Watch.flush
  by_cases hbusy : (w.batchInFlight || w.overflowInFlight) = true
  · simp only [hbusy, if_true]
    refine ⟨h.keyed, h.files, h.sources, h.queued, h.batches, h.overflows, fun _ => .inr ?_⟩
    simpa using hbusy
  · simp only [hbusy]
    by_cases hempty : w.pending.entries.isEmpty = true
    · simp only [hempty, if_true]
      refine ⟨h.keyed, h.files, h.sources, h.queued, h.batches, h.overflows, fun hne => absurd ?_ hne⟩
      simpa using hempty
    · simp only [hempty]
      obtain ⟨hbatch, hflight⟩ : w.batchInFlight = false ∧ w.overflowInFlight = false := by simpa using hbusy
      exact h.callBatch hbatch hflight (hkeeps hbatch hflight)

/-! ## The steps -/

/-- A record is buffered. -/
theorem WatchInv.buffer (h : WatchInv w) (e : WatchEvent)
    (hkeeps : ∀ old p, w.pending.get e.file = some old → old.source = some p → Owed w.log .source p →
      (∃ e' ∈ (w.pending.set e.file e).values, e'.mentions p) ∨ w.overflowPending.isSome = true)
    (timer : Bool) (htimer : timer = true ∨ w.overflowInFlight = true) :
    WatchInv { w with pending := w.pending.set e.file e, log := .record e :: w.log, debounceTimer := timer } := by
  have hself : e ∈ (w.pending.set e.file e).values := KeyedMap.mem_values.2 ⟨e.file, KeyedMap.get_set_self _ _ _⟩
  have hkept : ∀ {p e'}, w.pending.get p = some e' → p ≠ e.file → e' ∈ (w.pending.set e.file e).values :=
    fun hget hp => KeyedMap.mem_values.2 ⟨_, by rw [KeyedMap.get_set_ne _ _ (Ne.symm hp)]; exact hget⟩
  constructor
  · intro p e' hget
    rw [KeyedMap.get_set] at hget
    split at hget
    · rename_i hp
      obtain rfl := Option.some.inj hget
      exact hp
    · exact h.keyed p e' hget
  · intro p howed
    rw [KeyedMap.get_set]
    rcases owed_record.1 howed with hfile | howed
    · rw [if_pos (show e.file = p from hfile)]
      exact .inl rfl
    · split
      · exact .inl rfl
      · exact h.files p howed
  · intro p howed
    rcases owed_record.1 howed with hsource | howed
    · exact .inl ⟨e, hself, .inr hsource⟩
    · rcases h.sources p howed with ⟨e', he', hmentions⟩ | hsome
      · obtain ⟨q, hq⟩ := KeyedMap.mem_values.1 he'
        by_cases hqe : q = e.file
        · -- the record replaces the entry that mentions the path
          subst hqe
          rcases hmentions with hfile | hsource
          · exact .inl ⟨e, hself, .inl ((h.keyed _ e' hq).symm.trans hfile)⟩
          · exact hkeeps e' p hq hsource howed
        · exact .inl ⟨e', hkept hq hqe, hmentions⟩
      · exact .inr hsome
  · exact h.queued
  · exact h.batches
  · exact h.overflows
  · intro _
    rcases htimer with htimer | hflight
    · exact .inl htimer
    · exact .inr (.inr hflight)

theorem WatchInv.change (h : WatchInv w) {cap : JsNumber} {e : WatchEvent} {now : Int}
    (hkeeps : KeepsSources cap w (.change e now)) : WatchInv (w.change cap e now) := by
  have hnamed : Watch.capReached cap (w.pending.set e.file e) ≠ true → ∀ old p, w.pending.get e.file = some old →
      old.source = some p → Owed w.log .source p →
        (∃ e' ∈ (w.pending.set e.file e).values, e'.mentions p) ∨ w.overflowPending.isSome = true := by
    intro hcap old p hold hp howed
    rcases hkeeps old p hold hp howed with hmentions | hfull | hsome
    · exact .inl hmentions
    · exact absurd hfull hcap
    · exact .inr hsome
  simp only [Watch.change]
  split
  · refine .overflowed (w := Watch.clearPending _) rfl ?_ ?_ _
    · exact h.batches
    · exact h.overflows
  · rename_i hcap
    split
    · rename_i hflight
      exact h.buffer e (hnamed hcap) w.debounceTimer (.inr hflight)
    · exact h.buffer e (hnamed hcap) true (.inl rfl)

theorem WatchInv.batchDone (h : WatchInv w) (hpos : 0 < w.batches) : WatchInv w.batchDone := by
  have hone : w.batches - 1 = 0 := by
    have := h.batches
    split at this <;> omega
  exact .rearm ⟨h.keyed, h.files, h.sources, h.queued, hone, h.overflows, fun _ => .inl rfl⟩

theorem WatchInv.overflowDone (h : WatchInv w) (hpos : 0 < w.overflows) : WatchInv w.overflowDone := by
  have hflight : w.overflowInFlight = true := by
    by_contra hnot
    rw [h.overflows, if_neg hnot] at hpos
    exact Nat.lt_irrefl 0 hpos
  have hone : w.overflows - 1 = 0 := by rw [h.overflows, if_pos hflight]
  unfold Watch.overflowDone
  cases hqueued : w.overflowPending with
  | some info => exact .callOverflow (w := { w with overflows := w.overflows - 1 }) h.keyed hflight h.batches hone info
  | none =>
    have hnone : w.overflowPending.isSome ≠ true := by simp [hqueued]
    refine .rearm ⟨h.keyed, fun p howed => ?_, fun p howed => ?_, ?_, h.batches, hone, fun _ => .inl rfl⟩
    · exact (h.files p howed).imp_right fun hsome => absurd hsome hnone
    · exact (h.sources p howed).imp_right fun hsome => absurd hsome hnone
    · rintro ⟨⟩

theorem watchInv_step {cap : JsNumber} {a : WatchAct} (h : WatchInv w) (hkeeps : KeepsSources cap w a)
    (hstep : watchStep cap w a = some w') : WatchInv w' := by
  cases a with
  | change e now =>
    obtain rfl := Option.some.inj hstep
    exact h.change hkeeps
  | overflow info =>
    obtain rfl := Option.some.inj hstep
    exact .overflowed (w := w.clearPending) rfl h.batches h.overflows info
  | timer =>
    simp only [watchStep] at hstep
    split at hstep
    · obtain rfl := Option.some.inj hstep
      exact h.flush hkeeps
    · cases hstep
  | batchSettles =>
    simp only [watchStep] at hstep
    split at hstep
    · rename_i hpos
      obtain rfl := Option.some.inj hstep
      exact h.batchDone hpos
    · cases hstep
  | overflowSettles =>
    simp only [watchStep] at hstep
    split at hstep
    · rename_i hpos
      obtain rfl := Option.some.inj hstep
      exact h.overflowDone hpos
    · cases hstep
  | disk p present =>
    obtain rfl := Option.some.inj hstep
    exact ⟨h.keyed, h.files, h.sources, h.queued, h.batches, h.overflows, h.armed⟩

/-! ## Runs -/

/-- Nothing is owed once all is quiet, and no handler runs twice at once. -/
structure WatchKept (w : Watch) : Prop where
  settled : w.Quiet → ∀ role p, ¬ Owed w.log role p
  batches : w.batches ≤ 1
  overflows : w.overflows ≤ 1

theorem WatchInv.kept (h : WatchInv w) : WatchKept w := by
  constructor
  · rintro ⟨hpending, -, -, hoverflows⟩ role p howed
    have hnone : w.overflowPending.isSome ≠ true := by
      intro hsome
      rw [h.overflows, if_pos (h.queued hsome)] at hoverflows
      cases hoverflows
    have hempty : w.pending = .empty := by
      obtain ⟨⟨entries, nodup⟩, _⟩ := w
      subst hpending
      rfl
    cases role with
    | file =>
      rcases h.files p howed with hsome | hsome
      · rw [hempty] at hsome
        cases hsome
      · exact hnone hsome
    | source =>
      rcases h.sources p howed with ⟨e, he, -⟩ | hsome
      · rw [hempty] at he
        cases he
      · exact hnone hsome
  · rw [h.batches]
    split <;> omega
  · rw [h.overflows]
    split <;> omega

/-- In a run that keeps the sources of its renames, every named path is handed over or
covered by a rescan before all is quiet. -/
theorem watch_settled (cap : JsNumber) (onDisk : JsString → Bool)
    (hrun : Run (watchStep cap) (KeepsSources cap) (.start onDisk) w) : WatchKept w :=
  (hrun.invariant (watchInv_start onDisk) fun _ _ _ h hkeeps hstep => watchInv_step h hkeeps hstep).kept

def renamed : WatchEvent := ⟨ascii "b", .rename, some (ascii "a")⟩

/-- One rename, handed over while its target is on disk. -/
def renamedAlone : Watch := (Watch.start fun p => p = ascii "b").change (.fin 20000) renamed 0

theorem watch_settled_rename : WatchKept renamedAlone.flush.batchDone := by
  have harmed : renamedAlone.debounceTimer = true := by decide +kernel
  have hrunning : 0 < renamedAlone.flush.batches := by decide +kernel
  have hlog : renamedAlone.log = [.record renamed] := rfl
  have hchanged : (classify renamedAlone.pending.values).changed = [ascii "b"] := by decide +kernel
  have hrecord : Run (watchStep (.fin 20000)) (KeepsSources (.fin 20000)) (.start fun p => p = ascii "b") renamedAlone :=
    .single (a := .change renamed 0) (by rintro old p ⟨⟩) rfl
  have hkeeps : KeepsSources (.fin 20000) renamedAlone .timer := by
    intro _ _ p howed _ hp
    -- only `a` is owed as a source, and only `b` is changed
    rw [hlog, owed_record] at howed
    rcases howed with hsource | hnil
    · rw [hchanged, List.mem_singleton] at hp
      subst hp
      revert hsource
      show renamed.source ≠ some (ascii "b")
      decide +kernel
    · exact owed_nil hnil
  have hflushed : Run (watchStep (.fin 20000)) (KeepsSources (.fin 20000)) (.start fun p => p = ascii "b")
      renamedAlone.flush := hrecord.tail hkeeps (by simp only [watchStep, harmed, if_true])
  exact watch_settled (.fin 20000) (fun p => p = ascii "b")
    (hflushed.tail (a := .batchSettles) trivial (by simp only [watchStep, hrunning, if_true]))

/-! ## A rename, then a change of the renamed file -/

def modified : WatchEvent := ⟨ascii "b", .modify, none⟩

/-- The run in which the second record replaces the first. -/
def renameThenModify : List WatchAct := [.change renamed 0, .change modified 0, .timer, .batchSettles]

/-- All is quiet, and nothing was told of `a`. -/
theorem watch_loses_source :
    ¬ ∀ w, Run (watchStep (.fin 20000)) (fun _ _ => True) (.start fun p => p = ascii "b") w → WatchKept w := by
  intro h
  have hquiet : (runAll (watchStep (.fin 20000)) (fun _ _ => true) (.start fun p => p = ascii "b") renameThenModify).map
      (fun w => (w.pending.entries, w.debounceTimer, w.batches, w.overflows)) = some ([], false, 0, 0) := by
    decide +kernel
  obtain ⟨w, hw, hfields⟩ := Option.map_eq_some_iff.1 hquiet
  simp only [Prod.mk.injEq] at hfields
  refine (h w (run_of_runAll (fun _ _ _ => trivial) _ hw)).settled hfields .source (ascii "a") ?_
  obtain rfl := Option.some.inj hw
  refine ⟨[.onBatch [modified] fun p => p = ascii "b", .record modified], renamed, [], rfl,
    show renamed.source = some (ascii "a") by decide +kernel, ?_⟩
  intro call hcall
  rcases List.mem_pair.1 hcall with rfl | rfl
  · rintro ⟨⟨e, he, hmentions⟩, -⟩
    obtain rfl := List.mem_singleton.1 he
    have hfile : modified.file ≠ ascii "a" := by decide +kernel
    have hsource : modified.source ≠ some (ascii "a") := by decide +kernel
    rcases hmentions with hfile' | hsource'
    · exact hfile hfile'
    · exact hsource hsource'
  · exact id

end Hayven.Native
