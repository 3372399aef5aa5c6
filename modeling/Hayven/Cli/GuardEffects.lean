import Hayven.Cli.IngestGuard
/-!
# What a step of the ingest guard does

The guard's operations case by case (`admitWholeRepoRun_cases`), and every step with its
branches resolved (`GuardEffect`), so that the invariants need not look at the code.
-/

namespace Hayven.Cli

variable {deps : IngestGuardDeps} {s s' : GuardState} {g g' : IngestGuard} {a : GuardAction}

/-! ## The guard's operations -/

/-- What an admission does: it is refused while tripped, trips at the window's limit, is
refused within the interval, or starts a run. -/
theorem admitWholeRepoRun_cases (deps : IngestGuardDeps) (now : Int) (g : IngestGuard) :
    (g.tripped = true ∧ g.admitWholeRepoRun deps now = (g, false)) ∨
    (g.tripped = false ∧ g.overRate deps now = true ∧
      g.admitWholeRepoRun deps now =
        ({ g with
            recentRunStarts := g.pruned deps now, trippedAt := some now, tripReason := some .rate }, false)) ∨
    (g.tripped = false ∧ g.overRate deps now = false ∧ g.tooSoon deps now = true ∧
      g.admitWholeRepoRun deps now = ({ g with recentRunStarts := g.pruned deps now }, false)) ∨
    (g.tripped = false ∧ g.overRate deps now = false ∧ g.tooSoon deps now = false ∧
      g.admitWholeRepoRun deps now =
        ({ g with recentRunStarts := g.pruned deps now ++ [now], lastRunStartMs := some now }, true)) := by
  unfold IngestGuard.admitWholeRepoRun
  cases htripped : g.tripped with
  | true => exact .inl ⟨rfl, rfl⟩
  | false =>
    rw [if_neg Bool.false_ne_true]
    cases hover : g.overRate deps now with
    | true =>
      refine .inr (.inl ⟨rfl, rfl, ?_⟩)
      have hfree : ({ g with recentRunStarts := g.pruned deps now } : IngestGuard).tripped = false := htripped
      rw [if_pos rfl, IngestGuard.trip, hfree, if_neg Bool.false_ne_true]
    | false =>
      rw [if_neg Bool.false_ne_true]
      cases hsoon : g.tooSoon deps now with
      | true => exact .inr (.inr (.inl ⟨rfl, rfl, rfl, rfl⟩))
      | false => exact .inr (.inr (.inr ⟨rfl, rfl, rfl, rfl⟩))

theorem tripped_clearSlot (g : IngestGuard) (id : Nat) : (g.clearSlot id).tripped = g.tripped := by
  unfold IngestGuard.clearSlot
  split <;> rfl

theorem overRate_clearSlot (g : IngestGuard) (id : Nat) (now : Int) :
    (g.clearSlot id).overRate deps now = g.overRate deps now := by
  unfold IngestGuard.clearSlot
  split <;> rfl

theorem tooSoon_clearSlot (g : IngestGuard) (id : Nat) (now : Int) :
    (g.clearSlot id).tooSoon deps now = g.tooSoon deps now := by
  unfold IngestGuard.clearSlot
  split <;> rfl

/-- A cleared slot holds the run it held, but not this one. -/
theorem queued_clearSlot {id id' : Nat} : (g.clearSlot id).queued = some id' ↔ g.queued = some id' ∧ id' ≠ id := by
  unfold IngestGuard.clearSlot
  split
  · rename_i hid
    rw [hid]
    constructor
    · intro h; cases h
    · rintro ⟨h, hne⟩; exact absurd (Option.some.inj h).symm hne
  · rename_i hid
    constructor
    · intro h; exact ⟨h, fun heq => hid (heq ▸ h)⟩
    · exact And.left

theorem queued_admitWholeRepoRun (now : Int) (g : IngestGuard) :
    (g.admitWholeRepoRun deps now).1.queued = g.queued := by
  rcases admitWholeRepoRun_cases deps now g with ⟨-, h⟩ | ⟨-, -, h⟩ | ⟨-, -, -, h⟩ | ⟨-, -, -, h⟩ <;> rw [h]

/-- The guard's account of the starts is the same. -/
structure SameStarts (g g' : IngestGuard) : Prop where
  recent : g'.recentRunStarts = g.recentRunStarts
  last : g'.lastRunStartMs = g.lastRunStartMs

theorem sameStarts_clearSlot (g : IngestGuard) (id : Nat) : SameStarts g (g.clearSlot id) := by
  unfold IngestGuard.clearSlot
  split <;> exact ⟨rfl, rfl⟩

theorem sameStarts_trip (g : IngestGuard) (now : Int) (reason : IngestTripReason) :
    SameStarts g (g.trip now reason) := by
  unfold IngestGuard.trip
  split <;> exact ⟨rfl, rfl⟩

theorem sameStarts_note (now : Int) (g : IngestGuard) (err : Option String) :
    SameStarts g (g.note deps now err) := by
  cases err with
  | none => exact ⟨rfl, rfl⟩
  | some e =>
    unfold IngestGuard.note
    dsimp only
    split
    · exact ⟨rfl, rfl⟩
    split
    · have h := sameStarts_trip { g with consecutiveFailures := g.consecutiveFailures + 1 } now .failures
      exact ⟨h.recent, h.last⟩
    · exact ⟨rfl, rfl⟩

theorem queued_note (now : Int) (g : IngestGuard) (err : Option String) :
    (g.note deps now err).queued = g.queued := by
  cases err with
  | none => rfl
  | some e =>
    unfold IngestGuard.note IngestGuard.trip
    dsimp only
    repeat' split
    all_goals rfl

/-! ## What a step does -/

/-- The run has not had its turn yet. -/
def RunPhase.Waits : RunPhase → Prop
  | .sleeping _ | .chained => True
  | _ => False

/-- What a step changes, with the branches resolved. -/
inductive GuardEffect (deps : IngestGuardDeps) (s : GuardState) : GuardAction → GuardState → List GuardEvent → Prop
  | tick (ms : Nat) : GuardEffect deps s (.tick ms) { s with now := s.now + ms } []
  | joined (id : Nat) : s.guard.queued = some id → GuardEffect deps s .requestFull s [.requested id]
  | queued (id : Nat) (phase : RunPhase) : s.guard.queued = none → phase.Waits →
      GuardEffect deps s .requestFull
        ({ s with guard := { s.guard with runSeq := id, queued := some id } }.set id phase) [.requested id]
  | stoppedAtOnce (id : Nat) : s.guard.queued = none → s.guard.tripped = true →
      GuardEffect deps s .requestFull
        ({ s with guard := { s.guard with runSeq := id, queued := some id } }.stop id) [.requested id]
  | stopped (id : Nat) : s.guard.tripped = true → GuardEffect deps s (.wake id) (s.stop id) []
  | woken (id : Nat) : GuardEffect deps s (.wake id) (s.set id .chained) []
  | refused (id : Nat) (g : IngestGuard) : s.runs id = some .chained →
      (s.guard.clearSlot id).admitWholeRepoRun deps s.now = (g, false) →
      GuardEffect deps s (.turn id) ({ s with guard := g }.set id (.returned .refused)) []
  | begins (id : Nat) (g : IngestGuard) : s.limiter.full = false →
      (s.guard.clearSlot id).admitWholeRepoRun deps s.now = (g, true) →
      GuardEffect deps s (.turn id)
        ({ s with guard := g, limiter := s.limiter.enter (.run id) }.set id .limited) [.admitted, .begun]
  | waits (id : Nat) (g : IngestGuard) : s.limiter.full = true →
      (s.guard.clearSlot id).admitWholeRepoRun deps s.now = (g, true) →
      GuardEffect deps s (.turn id)
        ({ s with guard := g, limiter := s.limiter.enter (.run id) }.set id .limited) [.admitted]
  | resumed (w : Worker) (l : WorkLimiter Worker) (events : List GuardEvent) : s.limiter.resume w = some l →
      (events = [] ∨ ∃ id, w = .run id ∧ events = [.begun]) →
      GuardEffect deps s (.resume w) { s with limiter := l } events
  | finished (id : Nat) (err : Option String) (l : WorkLimiter Worker) : s.limiter.release (.run id) = some l →
      s.runs id = some .limited →
      GuardEffect deps s (.finish (.run id) err) ({ s with limiter := l }.set id (.returned (.ran err))) []
  | finishedOther (n : Nat) (err : Option String) (l : WorkLimiter Worker) : s.limiter.release (.other n) = some l →
      GuardEffect deps s (.finish (.other n) err) { s with limiter := l } []
  | settled (id : Nat) (outcome : RunOutcome) (g : IngestGuard) : s.runs id = some (.returned outcome) →
      SameStarts s.guard g → (∀ id', g.queued = some id' → s.guard.queued = some id') →
      GuardEffect deps s (.settle id) ({ s with guard := g }.set id .settled) [.settled id]
  | admitted (g : IngestGuard) : s.guard.admitWholeRepoRun deps s.now = (g, true) →
      GuardEffect deps s .admitWholeRepoRun { s with guard := g } [.admitted]
  | notAdmitted (g : IngestGuard) : s.guard.admitWholeRepoRun deps s.now = (g, false) →
      GuardEffect deps s .admitWholeRepoRun { s with guard := g } []
  | note (err : Option String) : GuardEffect deps s (.note err) { s with guard := s.guard.note deps s.now err } []
  | reset : GuardEffect deps s .reset { s with guard := s.guard.reset } [.cleared]
  | withLimiter (n : Nat) :
      GuardEffect deps s (.withLimiter n) { s with limiter := s.limiter.enter (.other n) } []

theorem effect_requestFull : GuardEffect deps s .requestFull (s.requestFull deps).1 (s.requestFull deps).2 := by
  unfold GuardState.requestFull
  cases hqueued : s.guard.queued with
  | some id => exact .joined id hqueued
  | none =>
    dsimp only
    unfold GuardState.runFull
    split
    · rename_i htripped
      exact .stoppedAtOnce _ hqueued htripped
    split
    · exact .queued _ _ hqueued trivial
    · exact .queued _ _ hqueued trivial

theorem effect_turn {id : Nat} (hchained : s.runs id = some .chained) :
    GuardEffect deps s (.turn id) (s.turn deps id).1 (s.turn deps id).2 := by
  unfold GuardState.turn
  rcases h : (s.guard.clearSlot id).admitWholeRepoRun deps s.now with ⟨g, admitted⟩
  cases admitted with
  | false => exact .refused id g hchained h
  | true =>
    cases hfull : s.limiter.full with
    | true => exact .waits id g hfull h
    | false => exact .begins id g hfull h

theorem effect_settle {id : Nat} {outcome : RunOutcome} (hreturned : s.runs id = some (.returned outcome)) :
    GuardEffect deps s (.settle id) (s.settle deps id outcome) [.settled id] := by
  cases outcome with
  | stopped => exact .settled id .stopped s.guard hreturned ⟨rfl, rfl⟩ fun _ h => h
  | refused =>
    exact .settled id .refused _ hreturned (sameStarts_clearSlot _ _) fun _ h => (queued_clearSlot.1 h).1
  | ran err =>
    have hnote : SameStarts s.guard (s.guard.note deps s.now err) := sameStarts_note s.now s.guard err
    have hclear := sameStarts_clearSlot (s.guard.note deps s.now err) id
    refine .settled id (.ran err) _ hreturned ⟨hclear.recent.trans hnote.recent, hclear.last.trans hnote.last⟩ ?_
    intro id' h
    exact (queued_note s.now s.guard err).symm.trans (queued_clearSlot.1 h).1

theorem effect_of_step {events : List GuardEvent} (h : s.step deps a = some (s', events)) :
    GuardEffect deps s a s' events := by
  cases a with
  | tick ms =>
    obtain ⟨rfl, rfl⟩ := Prod.mk.inj (Option.some.inj h)
    exact .tick ms
  | requestFull =>
    have heffect : GuardEffect deps s .requestFull (s.requestFull deps).1 (s.requestFull deps).2 := effect_requestFull
    rw [Option.some.inj h] at heffect
    exact heffect
  | wake id =>
    simp only [GuardState.step] at h
    split at h
    · split at h
      · obtain ⟨rfl, rfl⟩ := Prod.mk.inj (Option.some.inj h)
        unfold GuardState.wake
        split
        · rename_i htripped
          exact .stopped id htripped
        · exact .woken id
      · cases h
    · cases h
  | turn id =>
    simp only [GuardState.step] at h
    split at h
    · rename_i hchained
      have heffect : GuardEffect deps s (.turn id) (s.turn deps id).1 (s.turn deps id).2 := effect_turn hchained
      rw [Option.some.inj h] at heffect
      exact heffect
    · cases h
  | resume w =>
    obtain ⟨l, hl, heq⟩ := Option.map_eq_some_iff.1 h
    obtain ⟨rfl, rfl⟩ := Prod.mk.inj heq
    refine .resumed w l _ hl ?_
    cases w with
    | run id =>
      dsimp only
      split
      · exact .inl rfl
      · exact .inr ⟨id, rfl, rfl⟩
    | other n => exact .inl rfl
  | finish w err =>
    obtain ⟨t, ht, heq⟩ := Option.map_eq_some_iff.1 h
    obtain ⟨rfl, rfl⟩ := Prod.mk.inj heq
    obtain ⟨l, hl, ht⟩ := Option.bind_eq_some_iff.1 ht
    cases w with
    | run id =>
      dsimp only at ht
      split at ht
      · rename_i hlimited
        obtain rfl := Option.some.inj ht
        exact .finished id err l hl hlimited
      · cases ht
    | other n =>
      obtain rfl := Option.some.inj ht
      exact .finishedOther n err l hl
  | settle id =>
    simp only [GuardState.step] at h
    split at h
    · rename_i outcome hreturned
      obtain ⟨rfl, rfl⟩ := Prod.mk.inj (Option.some.inj h)
      exact effect_settle hreturned
    · cases h
  | admitWholeRepoRun =>
    simp only [GuardState.step] at h
    rcases hanswer : s.guard.admitWholeRepoRun deps s.now with ⟨g, admitted⟩
    rw [hanswer] at h
    obtain ⟨rfl, rfl⟩ := Prod.mk.inj (Option.some.inj h)
    cases admitted with
    | false => exact .notAdmitted g hanswer
    | true => exact .admitted g hanswer
  | note err =>
    obtain ⟨rfl, rfl⟩ := Prod.mk.inj (Option.some.inj h)
    exact .note err
  | reset =>
    obtain ⟨rfl, rfl⟩ := Prod.mk.inj (Option.some.inj h)
    exact .reset
  | withLimiter n =>
    obtain ⟨rfl, rfl⟩ := Prod.mk.inj (Option.some.inj h)
    exact .withLimiter n

end Hayven.Cli
