import Hayven.Cli.GuardEffects
import Hayven.Lib.Runs
import Hayven.Lib.SlidingWindow
import Mathlib.Algebra.Order.Ring.Int
/-!
# What the ingest guard promises

The starts that the guard accounts for are spaced and sparse in every run (`RateInv`),
and the limiter is sound. A request is lost where its run's turn finds the interval used
by a run that was admitted before the request was made (`TurnKeeps`); the calls of
`fullIngest` keep the bounds of the starts where an admitted run finds a free slot
(`TurnBegins`).
-/
open Hayven.Lib

namespace Hayven.Cli

/-- Starts that keep the interval and the window's limit, none while tripped. -/
structure BoundedStarts (deps : IngestGuardDeps) (starts : List RunStart) : Prop where
  spaced : Spaced deps.minIntervalMs (starts.map (·.time))
  sparse : Sparse deps.maxRunsPerWindow deps.rateWindowMs (starts.map (·.time))
  untripped : ∀ s ∈ starts, s.tripped = false

/-- An automatic run started after the request was made. -/
def FullRequest.CoveredBy (q : FullRequest) (starts : Nat) : Prop := q.madeAfter < starts

/-- Every request that settled was covered, or the guard was tripped in between. -/
def Answered (requests : List FullRequest) : Prop :=
  ∀ q ∈ requests, ∀ starts, q.settledAfter = some starts → q.CoveredBy starts ∨ q.tripped = true

/-- The run's turn in the chain finds the guard neither tripped nor at its window's limit,
and the interval used. -/
def MeetsUsedInterval (deps : IngestGuardDeps) (s : GuardState) (id : Nat) : Prop :=
  s.runs id = some .chained ∧ s.guard.tripped = false ∧ s.guard.overRate deps s.now = false ∧
    s.guard.tooSoon deps s.now = true

/-- A turn that finds the interval used carries only requests made before the last start. -/
def TurnKeeps (deps : IngestGuardDeps) (r : Recorded) : GuardAction → Prop
  | .turn id => MeetsUsedInterval deps r.state id →
      ∀ q ∈ r.record.requests, q.run = id → q.settledAfter = none → q.CoveredBy r.record.starts
  | _ => True

/-- A turn finds a slot of the limiter free. -/
def TurnBegins (r : Recorded) : GuardAction → Prop
  | .turn _ => r.state.limiter.full = false
  | _ => True

variable {deps : IngestGuardDeps} {r r' : Recorded} {s s' : GuardState} {g g' : IngestGuard} {a : GuardAction}

/-! ## The starts are bounded -/

/-- The guard's account of the starts is the record's, and the limits hold of them. -/
structure RateInv (deps : IngestGuardDeps) (now : Int) (g : IngestGuard) (starts : List RunStart) : Prop where
  bounded : BoundedStarts deps starts
  last : (starts.map (·.time)).getLast? = g.lastRunStartMs
  recent : Recent deps.rateWindowMs now (starts.map (·.time)) g.recentRunStarts
  past : ∀ last, g.lastRunStartMs = some last → last ≤ now

theorem boundedStarts_nil : BoundedStarts deps [] where
  spaced := spaced_nil
  sparse := sparse_nil
  untripped _ h := by cases h

theorem BoundedStarts.sublist {starts starts' : List RunStart} (h : BoundedStarts deps starts)
    (hsub : starts'.Sublist starts) : BoundedStarts deps starts' where
  spaced := h.spaced.sublist (hsub.map _)
  sparse := h.sparse.sublist (hsub.map _)
  untripped s hs := h.untripped s (hsub.subset hs)

namespace RateInv
variable {now now' : Int} {starts : List RunStart}

theorem same (h : RateInv deps now g starts) (hsame : SameStarts g g') : RateInv deps now g' starts where
  bounded := h.bounded
  last := h.last.trans hsame.last.symm
  recent := hsame.recent ▸ h.recent
  past := hsame.last ▸ h.past

theorem tick (h : RateInv deps now g starts) (hle : now ≤ now') : RateInv deps now' g starts where
  bounded := h.bounded
  last := h.last
  recent := h.recent.later hle
  past last hlast := (h.past last hlast).trans hle

theorem refuse (h : RateInv deps now g starts) (heq : g.admitWholeRepoRun deps now = (g', false)) :
    RateInv deps now g' starts := by
  have hpruned : RateInv deps now { g with recentRunStarts := g.pruned deps now } starts :=
    ⟨h.bounded, h.last, h.recent.dropWhile, h.past⟩
  rcases admitWholeRepoRun_cases deps now g with ⟨-, h'⟩ | ⟨-, -, h'⟩ | ⟨-, -, -, h'⟩ | ⟨-, -, -, h'⟩ <;>
    rw [heq] at h'
  · obtain ⟨rfl, -⟩ := Prod.mk.inj h'
    exact h
  · obtain ⟨rfl, -⟩ := Prod.mk.inj h'
    exact hpruned.same ⟨rfl, rfl⟩
  · obtain ⟨rfl, -⟩ := Prod.mk.inj h'
    exact hpruned
  · cases (Prod.mk.inj h').2

/-- An admitted run starts in an untripped guard, the interval after the last one and with
room in every window. -/
theorem accept (h : RateInv deps now g starts) (heq : g.admitWholeRepoRun deps now = (g', true)) :
    RateInv deps now g' (starts ++ [⟨now, g.tripped⟩]) := by
  rcases admitWholeRepoRun_cases deps now g with ⟨-, h'⟩ | ⟨-, -, h'⟩ | ⟨-, -, -, h'⟩ | ⟨htripped, hover, hsoon, h'⟩ <;>
    rw [heq] at h'
  · cases (Prod.mk.inj h').2
  · cases (Prod.mk.inj h').2
  · cases (Prod.mk.inj h').2
  obtain ⟨rfl, -⟩ := Prod.mk.inj h'
  have hroom : (g.pruned deps now).length < deps.maxRunsPerWindow := not_le.1 (of_decide_eq_false hover)
  have hlast : ∀ last, (starts.map (·.time)).getLast? = some last → last ≤ now ∧ deps.minIntervalMs ≤ now - last := by
    intro last heqlast
    rw [h.last] at heqlast
    refine ⟨h.past last heqlast, ?_⟩
    rw [IngestGuard.tooSoon, heqlast] at hsoon
    exact not_lt.1 (of_decide_eq_false hsoon)
  refine ⟨⟨?_, ?_, ?_⟩, ?_, ?_, ?_⟩
  · rw [List.map_append]
    exact h.bounded.spaced.snoc hlast
  · rw [List.map_append]
    exact h.bounded.sparse.snoc h.recent.dropWhile hroom
  · intro s hs
    rcases List.mem_append.1 hs with hs | hs
    · exact h.bounded.untripped s hs
    · rw [List.mem_singleton.1 hs]
      exact htripped
  · rw [List.map_append]
    exact List.getLast?_concat
  · rw [List.map_append]
    exact h.recent.dropWhile.snoc
  · intro last heqlast
    exact (Option.some.inj heqlast).ge

end RateInv

/-! ## A recorded step -/

theorem effect_of_recordedStep (h : recordedStep deps r a = some r') :
    ∃ s' events, GuardEffect deps r.state a s' events ∧
      r' = ⟨s', (events.foldl (.add r.state) r.record).markTripped s'.guard.tripped⟩ := by
  obtain ⟨⟨s', events⟩, hstep, rfl⟩ := Option.map_eq_some_iff.1 h
  exact ⟨s', events, effect_of_step hstep, rfl⟩

/-- The bounds that hold in every run. -/
structure SafeInv (deps : IngestGuardDeps) (limit : Nat) (r : Recorded) : Prop where
  rate : RateInv deps r.state.now r.state.guard r.record.admitted
  limiter : r.state.limiter.Sound
  limit : r.state.limiter.limit = limit

theorem limit_enter (l : WorkLimiter Worker) (w : Worker) : (l.enter w).limit = l.limit := by
  unfold WorkLimiter.enter
  split <;> rfl

theorem limit_resume {l l' : WorkLimiter Worker} {w : Worker} (h : l.resume w = some l') : l'.limit = l.limit := by
  unfold WorkLimiter.resume at h
  split at h
  · obtain rfl := Option.some.inj h
    exact limit_enter _ w
  · cases h

theorem limit_release {l l' : WorkLimiter Worker} {w : Worker} (h : l.release w = some l') : l'.limit = l.limit := by
  unfold WorkLimiter.release at h
  split at h
  · obtain rfl := Option.some.inj h
    rfl
  · cases h

theorem safeInv_start (now : Int) (maxConcurrent : Rat) :
    SafeInv deps (max 1 maxConcurrent.floor).toNat (recordedStart now maxConcurrent) where
  rate := ⟨boundedStarts_nil, rfl, recent_nil, by rintro last ⟨⟩⟩
  limiter := WorkLimiter.sound_createWorkLimiter maxConcurrent
  limit := rfl

theorem safeInv_step {limit : Nat} (hi : SafeInv deps limit r) (h : recordedStep deps r a = some r') :
    SafeInv deps limit r' := by
  obtain ⟨s', events, heffect, rfl⟩ := effect_of_recordedStep h
  obtain ⟨hrate, hlimiter, hlimit⟩ := hi
  cases heffect with
  | tick ms => exact ⟨hrate.tick (Int.le_add_of_nonneg_right (Int.natCast_nonneg ms)), hlimiter, hlimit⟩
  | joined id _ => exact ⟨hrate, hlimiter, hlimit⟩
  | queued id phase _ _ => exact ⟨hrate.same ⟨rfl, rfl⟩, hlimiter, hlimit⟩
  | stoppedAtOnce id _ _ =>
    have hsame := sameStarts_clearSlot { r.state.guard with runSeq := id, queued := some id } id
    exact ⟨hrate.same ⟨hsame.recent, hsame.last⟩, hlimiter, hlimit⟩
  | stopped id _ => exact ⟨hrate.same (sameStarts_clearSlot _ id), hlimiter, hlimit⟩
  | woken id => exact ⟨hrate, hlimiter, hlimit⟩
  | refused id g _ hanswer => exact ⟨(hrate.same (sameStarts_clearSlot _ id)).refuse hanswer, hlimiter, hlimit⟩
  | begins id g _ hanswer =>
    have hrate' := (hrate.same (sameStarts_clearSlot _ id)).accept hanswer
    rw [tripped_clearSlot] at hrate'
    exact ⟨hrate', hlimiter.enter _, (limit_enter _ _).trans hlimit⟩
  | waits id g _ hanswer =>
    have hrate' := (hrate.same (sameStarts_clearSlot _ id)).accept hanswer
    rw [tripped_clearSlot] at hrate'
    exact ⟨hrate', hlimiter.enter _, (limit_enter _ _).trans hlimit⟩
  | resumed w l events hl hevents =>
    refine ⟨?_, hlimiter.resume hl, (limit_resume hl).trans hlimit⟩
    rcases hevents with rfl | ⟨id, -, rfl⟩ <;> exact hrate
  | finished id err l hl _ => exact ⟨hrate, hlimiter.release hl, (limit_release hl).trans hlimit⟩
  | finishedOther n err l hl => exact ⟨hrate, hlimiter.release hl, (limit_release hl).trans hlimit⟩
  | settled id outcome g _ hsame _ => exact ⟨hrate.same hsame, hlimiter, hlimit⟩
  | admitted g hanswer => exact ⟨hrate.accept hanswer, hlimiter, hlimit⟩
  | notAdmitted g hanswer => exact ⟨hrate.refuse hanswer, hlimiter, hlimit⟩
  | note err => exact ⟨hrate.same (sameStarts_note _ _ err), hlimiter, hlimit⟩
  | reset => exact ⟨⟨boundedStarts_nil, rfl, recent_nil, by rintro last ⟨⟩⟩, hlimiter, hlimit⟩
  | withLimiter n => exact ⟨hrate, hlimiter.enter _, (limit_enter _ _).trans hlimit⟩

/-! ## Where no request is lost -/

/-- The run of the slot and of every request that still hopes for one has not had its turn. -/
structure CoverInv (r : Recorded) : Prop where
  slot : ∀ id, r.state.guard.queued = some id → ∃ phase, r.state.runs id = some phase ∧ phase.Waits
  hopeful : ∀ q ∈ r.record.requests, q.settledAfter = none → ¬ q.CoveredBy r.record.starts → q.tripped = false →
    ∃ phase, r.state.runs q.run = some phase ∧ phase.Waits
  marked : r.state.guard.tripped = true → ∀ q ∈ r.record.requests, q.settledAfter = none → q.tripped = true
  made : ∀ q ∈ r.record.requests, q.madeAfter ≤ r.record.starts
  answered : Answered r.record.requests

/-- The invariant before the mark of the trip, which a tripped guard makes up for. -/
structure CoverStep (s : GuardState) (c : GuardRecord) : Prop where
  slot : ∀ id, s.guard.queued = some id → ∃ phase, s.runs id = some phase ∧ phase.Waits
  hopeful : s.guard.tripped = false → ∀ q ∈ c.requests, q.settledAfter = none → ¬ q.CoveredBy c.starts →
    q.tripped = false → ∃ phase, s.runs q.run = some phase ∧ phase.Waits
  made : ∀ q ∈ c.requests, q.madeAfter ≤ c.starts
  answered : Answered c.requests

theorem mem_markTripped {tripped : Bool} {c : GuardRecord} {q : FullRequest}
    (h : q ∈ (c.markTripped tripped).requests) :
    ∃ q₀ ∈ c.requests, q = { q₀ with tripped := q₀.tripped || (tripped && q₀.settledAfter.isNone) } := by
  obtain ⟨q₀, hq₀, heq⟩ := List.mem_map.1 h
  exact ⟨q₀, hq₀, heq.symm⟩

theorem coverInv_of_step {c : GuardRecord} (h : CoverStep s c) : CoverInv ⟨s, c.markTripped s.guard.tripped⟩ where
  slot := h.slot
  hopeful q hq hopen hbare hfree := by
    obtain ⟨q₀, hq₀, rfl⟩ := mem_markTripped hq
    have hopen₀ : q₀.settledAfter = none := hopen
    obtain ⟨hfree₀, hmark⟩ := Bool.or_eq_false_iff.1 hfree
    rw [hopen₀, Option.isNone_none, Bool.and_true] at hmark
    exact h.hopeful hmark q₀ hq₀ hopen₀ hbare hfree₀
  marked htripped q hq hopen := by
    obtain ⟨q₀, hq₀, rfl⟩ := mem_markTripped hq
    have hopen₀ : q₀.settledAfter = none := hopen
    have hmark : s.guard.tripped = true := htripped
    show (q₀.tripped || (s.guard.tripped && q₀.settledAfter.isNone)) = true
    rw [hmark, hopen₀, Option.isNone_none, Bool.and_true, Bool.or_true]
  made q hq := by
    obtain ⟨q₀, hq₀, rfl⟩ := mem_markTripped hq
    exact h.made q₀ hq₀
  answered q hq starts hsettled := by
    obtain ⟨q₀, hq₀, rfl⟩ := mem_markTripped hq
    apply (h.answered q₀ hq₀ starts hsettled).imp_right
    intro htripped
    show (q₀.tripped || _) = true
    rw [htripped, Bool.true_or]

section
variable {c' : GuardRecord} {id : Nat} {phase : RunPhase}

theorem FullRequest.CoveredBy.mono {q : FullRequest} {m n : Nat} (h : q.CoveredBy m) (hle : m ≤ n) : q.CoveredBy n :=
  Nat.lt_of_lt_of_le h hle

/-- The slot, the runs and the requests are as before; more runs may have started. -/
theorem CoverInv.kept (h : CoverInv r) (hqueued : s'.guard.queued = r.state.guard.queued)
    (hruns : s'.runs = r.state.runs) (hrequests : c'.requests = r.record.requests)
    (hstarts : r.record.starts ≤ c'.starts) : CoverStep s' c' where
  slot := by rw [hqueued, hruns]; exact h.slot
  hopeful _ q hq hopen hbare hfree := by
    rw [hruns]
    exact h.hopeful q (hrequests ▸ hq) hopen (fun hcov => hbare (hcov.mono hstarts)) hfree
  made q hq := (h.made q (hrequests ▸ hq)).trans hstarts
  answered := hrequests ▸ h.answered

/-- One run moves on, and either still waits or leaves no hopeful request behind. -/
theorem CoverInv.moved (h : CoverInv r) (hruns : s'.runs = Function.update r.state.runs id (some phase))
    (hqueued : ∀ id', s'.guard.queued = some id' →
      (id' = id ∧ phase.Waits) ∨ (id' ≠ id ∧ r.state.guard.queued = some id'))
    (hrequests : c'.requests = r.record.requests) (hstarts : r.record.starts ≤ c'.starts)
    (hleft : phase.Waits ∨ s'.guard.tripped = true ∨ ∀ q ∈ r.record.requests, q.run = id → q.settledAfter = none →
      q.CoveredBy c'.starts ∨ q.tripped = true) : CoverStep s' c' where
  slot id' hid' := by
    rw [hruns]
    rcases hqueued id' hid' with ⟨rfl, hwaits⟩ | ⟨hne, hold⟩
    · exact ⟨phase, Function.update_self .., hwaits⟩
    · rw [Function.update_of_ne hne]
      exact h.slot id' hold
  hopeful huntripped q hq hopen hbare hfree := by
    rw [hrequests] at hq
    rw [hruns]
    by_cases hrun : q.run = id
    · rw [hrun]
      refine ⟨phase, Function.update_self .., ?_⟩
      rcases hleft with hwaits | htripped | hcovered
      · exact hwaits
      · rw [huntripped] at htripped
        cases htripped
      · rcases hcovered q hq hrun hopen with hcov | htrip
        · exact absurd hcov hbare
        · rw [hfree] at htrip
          cases htrip
    · rw [Function.update_of_ne hrun]
      exact h.hopeful q hq hopen (fun hcov => hbare (hcov.mono hstarts)) hfree
  made q hq := (h.made q (hrequests ▸ hq)).trans hstarts
  answered := hrequests ▸ h.answered

/-- A request joins a run that waits, or meets a tripped guard. -/
theorem CoverStep.request {c : GuardRecord} (h : CoverStep s' c)
    (hjoins : s'.guard.tripped = true ∨ ∃ phase, s'.runs id = some phase ∧ phase.Waits) :
    CoverStep s' (c.add s (.requested id)) where
  slot := h.slot
  hopeful huntripped q hq hopen hbare hfree := by
    rcases List.mem_append.1 hq with hq | hq
    · exact h.hopeful huntripped q hq hopen hbare hfree
    · obtain rfl := List.mem_singleton.1 hq
      rcases hjoins with htripped | hwaits
      · rw [huntripped] at htripped
        cases htripped
      · exact hwaits
  made q hq := by
    rcases List.mem_append.1 hq with hq | hq
    · exact h.made q hq
    · obtain rfl := List.mem_singleton.1 hq
      exact le_rfl
  answered q hq starts hsettled := by
    rcases List.mem_append.1 hq with hq | hq
    · exact h.answered q hq starts hsettled
    · obtain rfl := List.mem_singleton.1 hq
      cases hsettled

/-- A run that has had its turn leaves only requests that were covered or saw a trip. -/
theorem CoverInv.answers (h : CoverInv r) (hphase : r.state.runs id = some phase) (hdone : ¬ phase.Waits) :
    ∀ q ∈ r.record.requests, q.run = id → q.settledAfter = none →
      q.CoveredBy r.record.starts ∨ q.tripped = true := by
  intro q hq hrun hopen
  by_contra hbad
  obtain ⟨hbare, hfree⟩ := not_or.1 hbad
  obtain ⟨phase', hphase', hwaits⟩ := h.hopeful q hq hopen hbare (Bool.eq_false_iff.2 hfree)
  rw [hrun, hphase] at hphase'
  exact hdone (Option.some.inj hphase' ▸ hwaits)

/-- The slot is not a run's that has had its turn. -/
theorem CoverInv.slot_ne (h : CoverInv r) (hphase : r.state.runs id = some phase) (hdone : ¬ phase.Waits) {id' : Nat}
    (hid' : r.state.guard.queued = some id') : id' ≠ id := by
  rintro rfl
  obtain ⟨phase', hphase', hwaits⟩ := h.slot id' hid'
  rw [hphase] at hphase'
  exact hdone (Option.some.inj hphase' ▸ hwaits)

/-- The promise of a run settles. -/
theorem CoverInv.settle (h : CoverInv r) {outcome : RunOutcome} (hreturned : r.state.runs id = some (.returned outcome))
    (hqueued : ∀ id', g.queued = some id' → r.state.guard.queued = some id') :
    CoverStep ({ r.state with guard := g }.set id .settled) (r.record.add r.state (.settled id)) where
  slot id' hid' := by
    have hold := hqueued id' hid'
    show ∃ phase, Function.update r.state.runs id _ id' = some phase ∧ phase.Waits
    rw [Function.update_of_ne (h.slot_ne hreturned not_false hold)]
    exact h.slot id' hold
  hopeful _ q hq hopen hbare hfree := by
    obtain ⟨q₀, hq₀, rfl⟩ := List.mem_map.1 hq
    split at hopen
    · cases hopen
    · rename_i hkeep
      rw [if_neg hkeep] at hbare hfree ⊢
      have hne : q₀.run ≠ id := by
        intro hrun
        rw [hopen, Option.isNone_none, Bool.and_true] at hkeep
        exact hkeep (decide_eq_true hrun)
      show ∃ phase, Function.update r.state.runs id _ q₀.run = some phase ∧ phase.Waits
      rw [Function.update_of_ne hne]
      exact h.hopeful q₀ hq₀ hopen hbare hfree
  made q hq := by
    obtain ⟨q₀, hq₀, rfl⟩ := List.mem_map.1 hq
    split
    · exact h.made q₀ hq₀
    · exact h.made q₀ hq₀
  answered q hq starts hsettled := by
    obtain ⟨q₀, hq₀, rfl⟩ := List.mem_map.1 hq
    split at hsettled
    · rename_i hhere
      obtain ⟨hrun, hopen⟩ := Bool.and_eq_true_iff.1 hhere
      obtain rfl := Option.some.inj hsettled
      rw [if_pos hhere]
      exact h.answers hreturned not_false q₀ hq₀ (of_decide_eq_true hrun) (Option.isNone_iff_eq_none.1 hopen)
    · rename_i hkeep
      rw [if_neg hkeep]
      exact h.answered q₀ hq₀ starts hsettled

end

theorem coverInv_start (now : Int) (maxConcurrent : Rat) : CoverInv (recordedStart now maxConcurrent) where
  slot id h := by cases h
  hopeful q hq := by cases hq
  marked h := by cases h
  made q hq := by cases hq
  answered q hq := by cases hq

theorem queued_turn {id id' : Nat} {now : Int} {admitted : Bool}
    (h : (g.clearSlot id).admitWholeRepoRun deps now = (g', admitted)) (hid' : g'.queued = some id') :
    id' ≠ id ∧ g.queued = some id' := by
  have hqueued : ((g.clearSlot id).admitWholeRepoRun deps now).1.queued = (g.clearSlot id).queued :=
    queued_admitWholeRepoRun now (g.clearSlot id)
  rw [h] at hqueued
  rw [hqueued, queued_clearSlot] at hid'
  exact hid'.symm

theorem queued_admitted {now : Int} {admitted : Bool} (h : g.admitWholeRepoRun deps now = (g', admitted)) :
    g'.queued = g.queued := by
  have hqueued : (g.admitWholeRepoRun deps now).1.queued = g.queued := queued_admitWholeRepoRun now g
  rw [h] at hqueued
  exact hqueued

/-- A refused turn leaves no hopeful request behind: the guard was tripped, it trips, or
the interval was used by a run that started after the requests were made. -/
theorem CoverInv.refused_turn (h : CoverInv r) {id : Nat} (hchained : r.state.runs id = some .chained)
    (hkeeps : TurnKeeps deps r (.turn id))
    (hanswer : (r.state.guard.clearSlot id).admitWholeRepoRun deps r.state.now = (g, false)) :
    g.tripped = true ∨ ∀ q ∈ r.record.requests, q.run = id → q.settledAfter = none →
      q.CoveredBy r.record.starts ∨ q.tripped = true := by
  rcases admitWholeRepoRun_cases deps r.state.now (r.state.guard.clearSlot id) with
    ⟨htripped, -⟩ | ⟨-, -, heq⟩ | ⟨hfree, hover, hsoon, -⟩ | ⟨-, -, -, heq⟩
  · rw [tripped_clearSlot] at htripped
    exact .inr fun q hq _ hopen => .inr (h.marked htripped q hq hopen)
  · obtain ⟨rfl, -⟩ := Prod.mk.inj (hanswer.symm.trans heq)
    exact .inl rfl
  · rw [tripped_clearSlot] at hfree
    rw [overRate_clearSlot] at hover
    rw [tooSoon_clearSlot] at hsoon
    exact .inr fun q hq hrun hopen => .inl (hkeeps ⟨hchained, hfree, hover, hsoon⟩ q hq hrun hopen)
  · cases (Prod.mk.inj (hanswer.symm.trans heq)).2

theorem coverInv_step (hi : CoverInv r) (hok : TurnKeeps deps r a) (h : recordedStep deps r a = some r') :
    CoverInv r' := by
  obtain ⟨s', events, heffect, rfl⟩ := effect_of_recordedStep h
  apply coverInv_of_step
  cases heffect with
  | tick ms => exact hi.kept rfl rfl rfl le_rfl
  | joined id hqueued => exact (hi.kept rfl rfl rfl le_rfl).request (.inr (hi.slot id hqueued))
  | queued id phase hempty hwaits =>
    have hmoved : CoverStep (GuardState.set
        { r.state with guard := { r.state.guard with runSeq := id, queued := some id } } id phase) r.record :=
      hi.moved rfl (fun id' hid' => .inl ⟨(Option.some.inj hid').symm, hwaits⟩) rfl le_rfl (.inl hwaits)
    exact hmoved.request (.inr ⟨phase, Function.update_self .., hwaits⟩)
  | stoppedAtOnce id hempty htripped =>
    have htripped' : ({ r.state with
        guard := { r.state.guard with runSeq := id, queued := some id } }.stop id).guard.tripped = true :=
      (tripped_clearSlot _ id).trans htripped
    have hmoved : CoverStep (GuardState.stop
        { r.state with guard := { r.state.guard with runSeq := id, queued := some id } } id) r.record := by
      refine hi.moved rfl (fun id' hid' => ?_) rfl le_rfl (.inr (.inl htripped'))
      exact absurd (Option.some.inj (queued_clearSlot.1 hid').1).symm (queued_clearSlot.1 hid').2
    exact hmoved.request (.inl htripped')
  | stopped id htripped =>
    refine hi.moved rfl (fun id' hid' => .inr (queued_clearSlot.1 hid').symm) rfl le_rfl (.inr (.inl ?_))
    exact (tripped_clearSlot _ id).trans htripped
  | woken id =>
    refine hi.moved rfl (fun id' hid' => ?_) rfl le_rfl (.inl trivial)
    by_cases heq : id' = id
    · exact .inl ⟨heq, trivial⟩
    · exact .inr ⟨heq, hid'⟩
  | refused id g hchained hanswer =>
    exact hi.moved rfl (fun id' hid' => .inr (queued_turn hanswer hid')) rfl le_rfl
      (.inr (hi.refused_turn hchained hok hanswer))
  | begins id g _ hanswer =>
    refine hi.moved rfl (fun id' hid' => .inr (queued_turn hanswer hid')) rfl (Nat.le_succ _) (.inr (.inr ?_))
    intro q hq _ _
    exact .inl (Nat.lt_succ_of_le (hi.made q hq))
  | waits id g _ hanswer =>
    refine hi.moved rfl (fun id' hid' => .inr (queued_turn hanswer hid')) rfl (Nat.le_succ _) (.inr (.inr ?_))
    intro q hq _ _
    exact .inl (Nat.lt_succ_of_le (hi.made q hq))
  | resumed w l events hl hevents =>
    rcases hevents with rfl | ⟨id, -, rfl⟩ <;> exact hi.kept rfl rfl rfl le_rfl
  | finished id err l hl hlimited =>
    refine hi.moved rfl (fun id' hid' => .inr ⟨hi.slot_ne hlimited not_false hid', hid'⟩) rfl le_rfl ?_
    exact .inr (.inr (hi.answers hlimited not_false))
  | finishedOther n err l hl => exact hi.kept rfl rfl rfl le_rfl
  | settled id outcome g hreturned _ hqueued => exact hi.settle hreturned hqueued
  | admitted g hanswer => exact hi.kept (queued_admitted hanswer) rfl rfl (Nat.le_succ _)
  | notAdmitted g hanswer => exact hi.kept (queued_admitted hanswer) rfl rfl le_rfl
  | note err => exact hi.kept (queued_note _ _ err) rfl rfl le_rfl
  | reset => exact hi.kept rfl rfl rfl le_rfl
  | withLimiter n => exact hi.kept rfl rfl rfl le_rfl

/-! ## Where every run begins at once -/

/-- No run of the guard waits in the limiter, and each began as it was admitted. -/
structure BegunInv (r : Recorded) : Prop where
  began : r.record.begun.Sublist r.record.admitted
  waiters : ∀ id, .run id ∉ r.state.limiter.waiters
  woken : ∀ id, .run id ∉ r.state.limiter.woken

/-- The limiter as the invariant sees it. -/
def NoRunWaits (l : WorkLimiter Worker) : Prop := (∀ id, .run id ∉ l.waiters) ∧ ∀ id, .run id ∉ l.woken

theorem noRunWaits_enter {l : WorkLimiter Worker} (h : NoRunWaits l) {w : Worker}
    (hw : l.full = false ∨ ∃ n, w = .other n) : NoRunWaits (l.enter w) := by
  unfold WorkLimiter.enter
  split
  · rename_i hfull
    rcases hw with hfree | ⟨n, rfl⟩
    · rw [hfree] at hfull
      cases hfull
    · refine ⟨fun id hmem => ?_, h.2⟩
      rcases List.mem_append.1 hmem with hmem | hmem
      · exact h.1 id hmem
      · cases List.mem_singleton.1 hmem
  · exact h

theorem noRunWaits_resume {l l' : WorkLimiter Worker} (h : NoRunWaits l) {w : Worker} (hl : l.resume w = some l') :
    (∃ n, w = .other n) ∧ NoRunWaits l' := by
  unfold WorkLimiter.resume at hl
  split at hl
  · rename_i hmem
    obtain rfl := Option.some.inj hl
    cases w with
    | run id => exact absurd hmem (h.2 id)
    | other n =>
      have herase : NoRunWaits { l with woken := l.woken.erase (.other n) } :=
        ⟨h.1, fun id hin => h.2 id (List.mem_of_mem_erase hin)⟩
      exact ⟨⟨n, rfl⟩, noRunWaits_enter herase (.inr ⟨n, rfl⟩)⟩
  · cases hl

theorem noRunWaits_release {l l' : WorkLimiter Worker} (h : NoRunWaits l) {w : Worker} (hl : l.release w = some l') :
    NoRunWaits l' := by
  unfold WorkLimiter.release at hl
  split at hl
  · obtain rfl := Option.some.inj hl
    refine ⟨fun id hmem => h.1 id (List.mem_of_mem_tail hmem), fun id hmem => ?_⟩
    rcases List.mem_append.1 hmem with hmem | hmem
    · exact h.2 id hmem
    · exact h.1 id (List.mem_of_mem_head? (Option.mem_toList.1 hmem))
  · cases hl

theorem begunInv_step (hi : BegunInv r) (hok : TurnBegins r a) (h : recordedStep deps r a = some r') : BegunInv r' := by
  obtain ⟨s', events, heffect, rfl⟩ := effect_of_recordedStep h
  obtain ⟨hbegan, hwaiters, hwoken⟩ := hi
  have hnone : NoRunWaits r.state.limiter := ⟨hwaiters, hwoken⟩
  cases heffect with
  | tick | joined | queued | stoppedAtOnce | stopped | woken | refused | settled | notAdmitted | note =>
    exact ⟨hbegan, hwaiters, hwoken⟩
  | begins id g hfree _ =>
    have hlimiter := noRunWaits_enter hnone (w := .run id) (.inl hfree)
    exact ⟨hbegan.append_right _, hlimiter.1, hlimiter.2⟩
  | waits id g hfull _ =>
    have hfree : r.state.limiter.full = false := hok
    rw [hfree] at hfull
    cases hfull
  | resumed w l events hl hevents =>
    obtain ⟨⟨n, rfl⟩, hlimiter⟩ := noRunWaits_resume hnone hl
    rcases hevents with rfl | ⟨id, hid, -⟩
    · exact ⟨hbegan, hlimiter.1, hlimiter.2⟩
    · cases hid
  | finished id err l hl _ =>
    have hlimiter := noRunWaits_release hnone hl
    exact ⟨hbegan, hlimiter.1, hlimiter.2⟩
  | finishedOther n err l hl =>
    have hlimiter := noRunWaits_release hnone hl
    exact ⟨hbegan, hlimiter.1, hlimiter.2⟩
  | admitted g _ => exact ⟨hbegan.trans (List.sublist_append_left _ _), hwaiters, hwoken⟩
  | reset => exact ⟨List.Sublist.refl _, hwaiters, hwoken⟩
  | withLimiter n =>
    have hlimiter := noRunWaits_enter hnone (w := .other n) (.inr ⟨n, rfl⟩)
    exact ⟨hbegan, hlimiter.1, hlimiter.2⟩

/-! ## The guard -/

/-- What the limiter owes: no more functions than slots, and a wake-up for a free slot
while somebody waits. -/
structure LimiterHolds (maxConcurrent : Rat) (l : WorkLimiter Worker) : Prop where
  bound : (l.active : Int) ≤ max 1 maxConcurrent.floor
  woken : l.waiters ≠ [] → (l.active : Int) < max 1 maxConcurrent.floor → l.woken ≠ []

theorem SafeInv.limiterHolds {maxConcurrent : Rat} (h : SafeInv deps (max 1 maxConcurrent.floor).toNat r) :
    LimiterHolds maxConcurrent r.state.limiter where
  bound := by
    have hbound := h.limiter.bound
    rw [h.limit] at hbound
    omega
  woken hwaits hfree := by
    apply h.limiter.woken_ne_nil hwaits
    rw [h.limit]
    omega

/-- In every run the starts that the guard accounts for are bounded and the limiter keeps
its slots and its wake-ups. Every request is answered in the runs whose turns, where they
find the interval used, carry only requests older than the last start; and the calls of
`fullIngest` are bounded too in the runs whose turns find a free slot. -/
theorem ingestGuard_bounds_and_answers (deps : IngestGuardDeps) (now : Int) (maxConcurrent : Rat) :
    (∀ r, Run (recordedStep deps) (fun _ _ => True) (recordedStart now maxConcurrent) r →
      BoundedStarts deps r.record.admitted ∧ LimiterHolds maxConcurrent r.state.limiter) ∧
    (∀ r, Run (recordedStep deps) (TurnKeeps deps) (recordedStart now maxConcurrent) r →
      Answered r.record.requests) ∧
    ∀ r, Run (recordedStep deps) (fun r a => TurnBegins r a) (recordedStart now maxConcurrent) r →
      BoundedStarts deps r.record.begun := by
  have hsafe : ∀ {ok : Recorded → GuardAction → Prop} r,
      Run (recordedStep deps) ok (recordedStart now maxConcurrent) r →
        SafeInv deps (max 1 maxConcurrent.floor).toNat r := by
    intro ok r hrun
    exact hrun.invariant (safeInv_start now maxConcurrent) fun _ _ _ hi _ hstep => safeInv_step hi hstep
  refine ⟨?_, ?_, ?_⟩
  · intro r hrun
    exact ⟨(hsafe r hrun).rate.bounded, (hsafe r hrun).limiterHolds⟩
  · intro r hrun
    have hcover := hrun.invariant (coverInv_start now maxConcurrent) fun _ _ _ hi hok hstep =>
      coverInv_step hi hok hstep
    exact hcover.answered
  · intro r hrun
    have hstart : BegunInv (recordedStart now maxConcurrent) :=
      ⟨List.Sublist.refl _, fun _ => List.not_mem_nil, fun _ => List.not_mem_nil⟩
    have hbegun := hrun.invariant hstart fun _ _ _ hi hok hstep => begunInv_step hi hok hstep
    exact (hsafe r hrun).rate.bounded.sublist hbegun.began

/-! ## A lost request -/

/-- A re-point is admitted while a queued run is in line for the chain behind it; a change
that arrives then joins the queued run, whose turn comes within the interval. -/
def lostRequestActions : List GuardAction :=
  [.admitWholeRepoRun, .requestFull, .tick 30000, .wake 1, .admitWholeRepoRun, .tick 5000, .requestFull, .tick 5000,
    .turn 1, .settle 1]

/-- A run is admitted while another project holds the limiter's slot, failures trip the
guard, and the run begins. -/
def lateBeginActions : List GuardAction :=
  [.withLimiter 0, .requestFull, .turn 1, .note (some "parse timeout"), .finish (.other 0) none, .resume (.run 1)]

/-- A request settles with no run and no trip, and a run begins in a tripped guard. -/
theorem ingestGuard_loses_request :
    (∃ r, Run (recordedStep {}) (fun _ _ => True) (recordedStart 0 1) r ∧ ¬ Answered r.record.requests) ∧
    ∃ r, Run (recordedStep { threshold := 1 }) (fun _ _ => True) (recordedStart 0 1) r ∧
      ¬ BoundedStarts { threshold := 1 } r.record.begun := by
  constructor
  · obtain ⟨r, hr⟩ : ∃ r, runAll (recordedStep {}) (fun _ _ => true) (recordedStart 0 1) lostRequestActions = some r :=
      Option.isSome_iff_exists.1 (by decide +kernel)
    refine ⟨r, run_of_runAll (fun _ _ _ => trivial) _ hr, ?_⟩
    have hrequests : (runAll (recordedStep {}) (fun _ _ => true) (recordedStart 0 1) lostRequestActions).map
        (·.record.requests) = some [⟨1, 1, false, some 2⟩, ⟨1, 2, false, some 2⟩] := by decide +kernel
    rw [hr] at hrequests
    have heq : r.record.requests = [⟨1, 1, false, some 2⟩, ⟨1, 2, false, some 2⟩] := Option.some.inj hrequests
    intro hanswered
    rcases hanswered ⟨1, 2, false, some 2⟩ (by rw [heq]; simp) 2 rfl with h | h
    · exact absurd h (Nat.lt_irrefl 2)
    · cases h
  · obtain ⟨r, hr⟩ : ∃ r, runAll (recordedStep { threshold := 1 }) (fun _ _ => true) (recordedStart 0 1)
        lateBeginActions = some r := Option.isSome_iff_exists.1 (by decide +kernel)
    refine ⟨r, run_of_runAll (fun _ _ _ => trivial) _ hr, ?_⟩
    have hbegun : (runAll (recordedStep { threshold := 1 }) (fun _ _ => true) (recordedStart 0 1) lateBeginActions).map
        (·.record.begun) = some [⟨0, true⟩] := by decide +kernel
    rw [hr] at hbegun
    have heq : r.record.begun = [⟨0, true⟩] := Option.some.inj hbegun
    intro hbounded
    have hfree := hbounded.untripped ⟨0, true⟩ (by rw [heq]; simp)
    cases hfree

end Hayven.Cli
