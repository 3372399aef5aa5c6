import Mathlib.Data.Rat.Floor
import Mathlib.Logic.Function.Basic
import Mathlib.Tactic.Common
/-!
# The counting semaphore of the daemon

`createWorkLimiter` (`cli/daemon.ts`). A call waits while the slots are taken, and looks
again each time it is woken: another caller may have won the slot in between. Every
release wakes one waiter.
-/

namespace Hayven.Cli

/-- The limiter's variables. The source keeps only the number of the functions that run;
a woken caller is one whose promise is resolved and that has not resumed yet. -/
structure WorkLimiter (C : Type) where
  limit : Nat
  running : List C
  waiters : List C
  woken : List C
  deriving DecidableEq, Repr

variable {C : Type}

def createWorkLimiter (maxConcurrent : Rat) : WorkLimiter C where
  limit := (max 1 maxConcurrent.floor).toNat
  running := []
  waiters := []
  woken := []

namespace WorkLimiter

def active (l : WorkLimiter C) : Nat := l.running.length

/-- The loop's test: no slot is free. -/
def full (l : WorkLimiter C) : Bool := l.active ≥ l.limit

/-- The caller reaches the loop's test: it waits, or its function starts. -/
def enter (l : WorkLimiter C) (c : C) : WorkLimiter C :=
  if l.full then { l with waiters := l.waiters ++ [c] } else { l with running := l.running ++ [c] }

variable [DecidableEq C]

/-- A woken caller resumes, at the loop's test. -/
def resume (l : WorkLimiter C) (c : C) : Option (WorkLimiter C) :=
  if c ∈ l.woken then some ({ l with woken := l.woken.erase c }.enter c) else none

/-- The caller's function ends: `waiters.shift()?.()`. -/
def release (l : WorkLimiter C) (c : C) : Option (WorkLimiter C) :=
  if c ∈ l.running then
    some { l with
      running := l.running.erase c
      waiters := l.waiters.tail
      woken := l.woken ++ l.waiters.head?.toList }
  else none

/-! ## The bound, and no slot left idle -/

/-- No more functions run than there are slots, and as long as a caller waits every free
slot has a wake-up on its way. -/
structure Sound (l : WorkLimiter C) : Prop where
  bound : l.active ≤ l.limit
  awake : l.waiters ≠ [] → l.limit ≤ l.active + l.woken.length

variable {l l' : WorkLimiter C} {c : C}

omit [DecidableEq C] in
theorem sound_createWorkLimiter (maxConcurrent : Rat) : (createWorkLimiter maxConcurrent : WorkLimiter C).Sound where
  bound := Nat.zero_le _
  awake h := absurd rfl h

omit [DecidableEq C] in
/-- A caller waits only when the slots are taken, also one that a wake-up was spent on. -/
theorem sound_enter (hbound : l.active ≤ l.limit) (hawake : l.waiters ≠ [] → l.limit ≤ l.active + l.woken.length + 1) :
    (l.enter c).Sound := by
  unfold enter
  split
  · rename_i hfull
    have hlimit : l.limit ≤ l.active := of_decide_eq_true hfull
    exact ⟨hbound, fun _ => hlimit.trans (Nat.le_add_right _ _)⟩
  · rename_i hfree
    have hlt : l.active < l.limit := not_le.1 fun h => hfree (decide_eq_true h)
    constructor
    · rw [active, List.length_append, List.length_singleton]
      exact hlt
    · intro hne
      have h := hawake hne
      simp only [active, List.length_append, List.length_singleton] at h ⊢
      omega

omit [DecidableEq C] in
theorem Sound.enter (h : l.Sound) (c : C) : (l.enter c).Sound :=
  sound_enter h.bound fun hne => (h.awake hne).trans (Nat.le_succ _)

theorem Sound.resume (h : l.Sound) (heq : l.resume c = some l') : l'.Sound := by
  unfold WorkLimiter.resume at heq
  split at heq
  · rename_i hmem
    obtain rfl := Option.some.inj heq
    apply sound_enter
    · exact h.bound
    · intro hne
      have hlen := List.length_erase_add_one hmem
      have hawake := h.awake hne
      simp only [active] at hawake ⊢
      omega
  · cases heq

theorem Sound.release (h : l.Sound) (heq : l.release c = some l') : l'.Sound := by
  unfold WorkLimiter.release at heq
  split at heq
  · rename_i hmem
    obtain rfl := Option.some.inj heq
    have hlen := List.length_erase_add_one hmem
    have hbound := h.bound
    simp only [active] at hbound
    constructor
    · simp only [active]
      omega
    · intro htail
      obtain ⟨w, ws, hws⟩ := List.exists_cons_of_ne_nil (l := l.waiters) (by rintro hnil; rw [hnil] at htail; exact htail rfl)
      have hawake := h.awake (by rw [hws]; exact List.cons_ne_nil w ws)
      simp only [active, hws, List.head?_cons, Option.toList_some, List.length_append, List.length_singleton]
        at hawake ⊢
      omega
  · cases heq

omit [DecidableEq C] in
/-- A free slot while somebody waits has a wake-up on its way. -/
theorem Sound.woken_ne_nil (h : l.Sound) (hwaits : l.waiters ≠ []) (hfree : l.active < l.limit) : l.woken ≠ [] := by
  intro hnil
  have hawake := h.awake hwaits
  rw [hnil, List.length_nil, Nat.add_zero] at hawake
  exact absurd hawake (not_le.2 hfree)

end WorkLimiter

end Hayven.Cli

/-!
## The ingest guard

`createIngestGuard` (`cli/daemon.ts`): the variables of one project's guard, the steps of
a queued full re-ingest, and the steps of everyone else who shares the guard or the
limiter. What the steps do to the log of requests and starts is recorded next to the
guard, never read by it.
-/

namespace Hayven.Cli

structure IngestGuardDeps where
  threshold : Nat := 5
  minIntervalMs : Int := 30000
  maxRunsPerWindow : Nat := 30
  rateWindowMs : Int := 3600000

inductive IngestTripReason
  | failures
  | rate
  deriving DecidableEq, Repr

/-- The guard's variables. `lastRunStartMs` is none for `NEGATIVE_INFINITY`, and the
coalescing slot `queued` holds the run's number. -/
structure IngestGuard where
  consecutiveFailures : Nat
  trippedAt : Option Int
  tripReason : Option IngestTripReason
  recentRunStarts : List Int
  lastRunStartMs : Option Int
  queued : Option Nat
  runSeq : Nat
  deriving DecidableEq, Repr

def createIngestGuard : IngestGuard := ⟨0, none, none, [], none, none, 0⟩

namespace IngestGuard

def tripped (g : IngestGuard) : Bool := g.trippedAt.isSome

def allowed (g : IngestGuard) : Bool := !g.tripped

def trip (g : IngestGuard) (now : Int) (reason : IngestTripReason) : IngestGuard :=
  if g.tripped then g else { g with trippedAt := some now, tripReason := some reason }

def note (deps : IngestGuardDeps) (now : Int) (g : IngestGuard) : Option String → IngestGuard
  | none => { g with consecutiveFailures := 0 }
  | some _ =>
    let g := { g with consecutiveFailures := g.consecutiveFailures + 1 }
    if g.tripped then g
    else if g.consecutiveFailures ≥ deps.threshold then g.trip now .failures
    else g

/-- `recentRunStarts` without the starts that left the window. -/
def pruned (deps : IngestGuardDeps) (now : Int) (g : IngestGuard) : List Int :=
  g.recentRunStarts.dropWhile fun s => decide (deps.rateWindowMs < now - s)

/-- The window already holds as many runs as it may. -/
def overRate (deps : IngestGuardDeps) (now : Int) (g : IngestGuard) : Bool :=
  (g.pruned deps now).length ≥ deps.maxRunsPerWindow

/-- The last run started less than the interval ago. -/
def tooSoon (deps : IngestGuardDeps) (now : Int) (g : IngestGuard) : Bool :=
  g.lastRunStartMs.any fun last => now - last < deps.minIntervalMs

def admitWholeRepoRun (deps : IngestGuardDeps) (now : Int) (g : IngestGuard) : IngestGuard × Bool :=
  if g.tripped then (g, false)
  else
    let recent := g.pruned deps now
    if g.overRate deps now then ({ g with recentRunStarts := recent }.trip now .rate, false)
    else if g.tooSoon deps now then ({ g with recentRunStarts := recent }, false)
    else ({ g with recentRunStarts := recent ++ [now], lastRunStartMs := some now }, true)

def clearSlot (g : IngestGuard) (id : Nat) : IngestGuard :=
  if g.queued = some id then { g with queued := none } else g

/-- How long `runFull` waits out the interval: a positive and finite time, or not at all. -/
def cooldown (deps : IngestGuardDeps) (now : Int) (g : IngestGuard) : Option Int :=
  (g.lastRunStartMs.map fun last => deps.minIntervalMs - (now - last)).filter (0 < ·)

def reset (g : IngestGuard) : IngestGuard :=
  { g with
    consecutiveFailures := 0, trippedAt := none, tripReason := none, recentRunStarts := [], lastRunStartMs := none }

end IngestGuard

/-! ## The runs -/

/-- What `runFull` comes back with: it stopped at a trip before it entered the chain, its
admission was refused, or `fullIngest` ended, with the error it threw. -/
inductive RunOutcome
  | stopped
  | refused
  | ran (err : Option String)
  deriving DecidableEq, Repr

/-- Where a call of `runFull` is: in its sleep, in line for the ingest chain, inside
`limiter.run`, back from the chain, or settled. -/
inductive RunPhase
  | sleeping (deadline : Int)
  | chained
  | limited
  | returned (outcome : RunOutcome)
  | settled
  deriving DecidableEq, Repr

/-- Who calls the limiter: a run of this guard, or somebody else of the daemon. -/
inductive Worker
  | run (id : Nat)
  | other (n : Nat)
  deriving DecidableEq, Repr

structure GuardState where
  now : Int
  guard : IngestGuard
  limiter : WorkLimiter Worker
  runs : Nat → Option RunPhase

/-- `requestFull` joined a run, a run was admitted (one of the guard's own or another's),
`fullIngest` was called, the promise of a run settled, the breaker was reset. -/
inductive GuardEvent
  | requested (id : Nat)
  | admitted
  | begun
  | settled (id : Nat)
  | cleared

inductive GuardAction
  | tick (ms : Nat)
  | requestFull
  | wake (id : Nat)
  | turn (id : Nat)
  | resume (w : Worker)
  | finish (w : Worker) (err : Option String)
  | settle (id : Nat)
  | admitWholeRepoRun
  | note (err : Option String)
  | reset
  | withLimiter (n : Nat)

namespace GuardState

def set (s : GuardState) (id : Nat) (phase : RunPhase) : GuardState :=
  { s with runs := Function.update s.runs id (some phase) }

def stop (s : GuardState) (id : Nat) : GuardState :=
  { s with guard := s.guard.clearSlot id }.set id (.returned .stopped)

/-- `runFull` up to its first suspension. -/
def runFull (deps : IngestGuardDeps) (s : GuardState) (id : Nat) : GuardState :=
  if s.guard.tripped then s.stop id
  else match s.guard.cooldown deps s.now with
    | some wait => s.set id (.sleeping (s.now + wait))
    | none => s.set id .chained

def requestFull (deps : IngestGuardDeps) (s : GuardState) : GuardState × List GuardEvent :=
  match s.guard.queued with
  | some id => (s, [.requested id])
  | none =>
    let id := s.guard.runSeq + 1
    ({ s with guard := { s.guard with runSeq := id, queued := some id } }.runFull deps id, [.requested id])

/-- The sleep is over. -/
def wake (s : GuardState) (id : Nat) : GuardState :=
  if s.guard.tripped then s.stop id else s.set id .chained

/-- The run has its turn in the ingest chain. -/
def turn (deps : IngestGuardDeps) (s : GuardState) (id : Nat) : GuardState × List GuardEvent :=
  let (guard, admitted) := (s.guard.clearSlot id).admitWholeRepoRun deps s.now
  if admitted then
    ({ s with guard := guard, limiter := s.limiter.enter (.run id) }.set id .limited,
      if s.limiter.full then [.admitted] else [.admitted, .begun])
  else ({ s with guard := guard }.set id (.returned .refused), [])

/-- A woken caller of the limiter starts its function or goes back to wait. -/
def resume (s : GuardState) (w : Worker) : Option (GuardState × List GuardEvent) :=
  (s.limiter.resume w).map fun limiter =>
    ({ s with limiter := limiter },
      match w with
      | .run _ => if s.limiter.full then [] else [.begun]
      | .other _ => [])

/-- A function under the limiter ends, and a run of the guard that was inside
`limiter.run` comes back from the chain. -/
def finish (s : GuardState) (w : Worker) (err : Option String) : Option GuardState :=
  (s.limiter.release w).bind fun limiter =>
    match w with
    | .run id =>
      if s.runs id = some .limited then some ({ s with limiter := limiter }.set id (.returned (.ran err))) else none
    | .other _ => some { s with limiter := limiter }

/-- The rest of `runFull` behind the chain, and the promise's settlement. -/
def settle (deps : IngestGuardDeps) (s : GuardState) (id : Nat) : RunOutcome → GuardState
  | .stopped => s.set id .settled
  | .refused => { s with guard := s.guard.clearSlot id }.set id .settled
  | .ran err => { s with guard := (s.guard.note deps s.now err).clearSlot id }.set id .settled

/-- One step. `runExclusive` is the caller's: a run in line for the chain may get its turn
at any later moment. -/
def step (deps : IngestGuardDeps) (s : GuardState) : GuardAction → Option (GuardState × List GuardEvent)
  | .tick ms => some ({ s with now := s.now + ms }, [])
  | .requestFull => some (s.requestFull deps)
  | .wake id =>
    match s.runs id with
    | some (.sleeping deadline) => if deadline ≤ s.now then some (s.wake id, []) else none
    | _ => none
  | .turn id => if s.runs id = some .chained then some (s.turn deps id) else none
  | .resume w => s.resume w
  | .finish w err => (s.finish w err).map (·, [])
  | .settle id =>
    match s.runs id with
    | some (.returned outcome) => some (s.settle deps id outcome, [.settled id])
    | _ => none
  | .admitWholeRepoRun =>
    let (guard, admitted) := s.guard.admitWholeRepoRun deps s.now
    some ({ s with guard := guard }, if admitted then [.admitted] else [])
  | .note err => some ({ s with guard := s.guard.note deps s.now err }, [])
  | .reset => some ({ s with guard := s.guard.reset }, [.cleared])
  | .withLimiter n => some ({ s with limiter := s.limiter.enter (.other n) }, [])

end GuardState

/-! ## The record of a run -/

/-- A call of `requestFull`: its run, the automatic runs started before the call and
before its promise settled, and whether the guard was tripped at a moment between. -/
structure FullRequest where
  run : Nat
  madeAfter : Nat
  tripped : Bool
  settledAfter : Option Nat
  deriving DecidableEq, Repr

/-- A start of an automatic run, and whether the guard was tripped then. -/
structure RunStart where
  time : Int
  tripped : Bool
  deriving DecidableEq, Repr

/-- The requests, the number of the runs started, and the starts since the last reset: as
the guard accounts for them, and as `fullIngest` was called. -/
structure GuardRecord where
  requests : List FullRequest
  starts : Nat
  admitted : List RunStart
  begun : List RunStart

namespace GuardRecord

def start : GuardRecord := ⟨[], 0, [], []⟩

def add (s : GuardState) (r : GuardRecord) : GuardEvent → GuardRecord
  | .requested id => { r with requests := r.requests ++ [⟨id, r.starts, s.guard.tripped, none⟩] }
  | .admitted => { r with starts := r.starts + 1, admitted := r.admitted ++ [⟨s.now, s.guard.tripped⟩] }
  | .begun => { r with begun := r.begun ++ [⟨s.now, s.guard.tripped⟩] }
  | .settled id =>
    { r with requests := r.requests.map fun q =>
        if q.run = id && q.settledAfter.isNone then { q with settledAfter := some r.starts } else q }
  | .cleared => { r with admitted := [], begun := [] }

/-- The guard is tripped: every request that waits has seen it. -/
def markTripped (tripped : Bool) (r : GuardRecord) : GuardRecord :=
  { r with requests := r.requests.map fun q => { q with tripped := q.tripped || (tripped && q.settledAfter.isNone) } }

end GuardRecord

structure Recorded where
  state : GuardState
  record : GuardRecord

def recordedStart (now : Int) (maxConcurrent : Rat) : Recorded :=
  ⟨⟨now, createIngestGuard, createWorkLimiter maxConcurrent, fun _ => none⟩, .start⟩

/-- A step of the guard and what the record keeps of it. -/
def recordedStep (deps : IngestGuardDeps) (r : Recorded) (a : GuardAction) : Option Recorded :=
  (r.state.step deps a).map fun (s, events) =>
    ⟨s, (events.foldl (.add r.state) r.record).markTripped s.guard.tripped⟩

end Hayven.Cli
