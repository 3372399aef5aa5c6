import Hayven.Lib.Runs
import Mathlib.Logic.Function.Basic
import Mathlib.Tactic.Common
/-!
# The start lock

`daemon/lifecycle.ts`: the lock file that guards the probe-and-spawn window of `daemon
start`, one file-system step at a time. A process is its pid, and is somewhere in its own
call (`StartPhase`). A file is renamed and unlinked by its path and written by its
identity, so the creator of a file that was renamed aside still stamps that file.
-/
open Hayven.Lib

namespace Hayven.Daemon

def startLockUnreadableStaleMs : Int := 30000

/-- The file at the lock's path: its identity, who created it, the pid a read finds in it
(none while it is unreadable), and its modification time. -/
structure StartLockFile where
  serial : Nat
  creator : Nat
  stamp : Option Nat
  mtime : Int
deriving DecidableEq, Repr

/-- What the code of a process does next: `left` more passes of `tryAcquireStartLock`
follow the present one. -/
inductive StartPhase where
  | outside
  | creating (left : Nat)
  | stamping
  | reading (left : Nat)
  | judging (left : Nat)
  | breaking (left : Nat)
  | discarding (left : Nat)
  | acquired
  | releasing
  | unlinking
deriving DecidableEq, Repr

/-- A process, and the file it created and has not released. -/
structure Starter where
  phase : StartPhase
  own : Option Nat
deriving DecidableEq, Repr

structure StartState where
  file : Option StartLockFile
  starters : Nat → Starter
  dead : List Nat
  issued : Nat

inductive StartAct where
  /-- The process calls `tryAcquireStartLock`. -/
  | acquire (pid : Nat)
  /-- It calls `releaseStartLock`. -/
  | release (pid : Nat)
  /-- It takes the next step of its code, at the given time. -/
  | proceed (pid : Nat) (time : Int)
  /-- The next step of its code throws. -/
  | fail (pid : Nat)
  | die (pid : Nat)
deriving DecidableEq, Repr

namespace StartState

def move (s : StartState) (pid : Nat) (me : Starter) (file : Option StartLockFile) : StartState :=
  { s with starters := Function.update s.starters pid me, file := file }

def goto (s : StartState) (pid : Nat) (phase : StartPhase) : StartState :=
  s.move pid { s.starters pid with phase := phase } s.file

/-- `readStartLockPid(lockPath)`. -/
def readPid (s : StartState) : Option Nat := s.file.bind (·.stamp)

/-- The next pass of the loop, or `held` when there is none. -/
def nextPass (s : StartState) (pid : Nat) : Nat → StartState
  | 0 => s.goto pid .outside
  | left + 1 => s.goto pid (.creating left)

/-- The next step of the process. -/
def proceed (s : StartState) (pid : Nat) (time : Int) : Option StartState :=
  let me := s.starters pid
  match me.phase with
  | .outside | .acquired => none
  | .creating left =>
    match s.file with
    | none => some { s.move pid ⟨.stamping, some s.issued⟩ (some ⟨s.issued, pid, none, time⟩) with
        issued := s.issued + 1 }
    | some _ => some (s.goto pid (.reading left))
  | .stamping => some (s.move pid { me with phase := .acquired }
      (s.file.map fun f => if me.own = some f.serial then { f with stamp := some pid, mtime := time } else f))
  | .reading left =>
    match s.readPid with
    | some holder => some (if holder ∈ s.dead then s.goto pid (.breaking left) else s.goto pid .outside)
    | none => some (s.goto pid (.judging left))
  | .judging left =>
    match s.file with
    | none => some (s.goto pid (.breaking left))
    | some f =>
      some (if time - f.mtime > startLockUnreadableStaleMs then s.goto pid (.breaking left) else s.goto pid .outside)
  | .breaking left =>
    match s.file with
    | none => some (s.nextPass pid left)
    | some _ => some (s.move pid { me with phase := .discarding left } none)
  | .discarding left => some (s.nextPass pid left)
  | .releasing =>
    some (if s.readPid = some pid then s.goto pid .unlinking else s.move pid ⟨.outside, none⟩ s.file)
  | .unlinking => some (s.move pid ⟨.outside, none⟩ none)

/-- The next step throws. A create or a stamp that fails is `unavailable`; the other errors
are swallowed. -/
def fail (s : StartState) (pid : Nat) : Option StartState :=
  let me := s.starters pid
  match me.phase with
  | .creating _ => some (s.goto pid .outside)
  | .stamping | .unlinking => some (s.move pid ⟨.outside, none⟩ s.file)
  | .breaking left | .discarding left => some (s.nextPass pid left)
  | _ => none

end StartState

def startStep (s : StartState) : StartAct → Option StartState
  | .die pid => some { s with dead := pid :: s.dead }
  | .acquire pid =>
    if pid ∈ s.dead ∨ (s.starters pid).phase ≠ .outside then none else some (s.goto pid (.creating 2))
  | .release pid =>
    if pid ∈ s.dead then none
    else match (s.starters pid).phase with
      | .outside | .acquired => some (s.goto pid .releasing)
      | _ => none
  | .proceed pid time => if pid ∈ s.dead then none else s.proceed pid time
  | .fail pid => if pid ∈ s.dead then none else s.fail pid

/-! ## What the lock is for -/

section Purpose
variable (s : StartState)

/-- A live process got `acquired` and has not released the lock: a call of release counts
until its unlink. -/
def HoldsStart (pid : Nat) : Prop :=
  pid ∉ s.dead ∧ (s.starters pid).own.isSome = true ∧
    ((s.starters pid).phase = .acquired ∨ (s.starters pid).phase = .releasing ∨ (s.starters pid).phase = .unlinking)

def OneStarter : Prop := ∀ p q, HoldsStart s p → HoldsStart s q → p = q

/-- The step takes away, by rename or unlink, the file at the path. -/
def RemovesFile : StartAct → Option (Nat × StartLockFile)
  | .proceed pid _ =>
    match (s.starters pid).phase with
    | .breaking _ | .unlinking => s.file.map fun f => (pid, f)
    | _ => none
  | _ => none

/-- It takes away a file that is stamped with another live process's pid. -/
def RemovesLive (a : StartAct) : Prop :=
  ∃ pid f holder, RemovesFile s a = some (pid, f) ∧ pid ∉ s.dead ∧ f.stamp = some holder ∧ holder ≠ pid ∧ holder ∉ s.dead

/-- The file is another live process's: stamped, or to be stamped by a call under way. -/
def OtherLive (pid : Nat) (f : StartLockFile) : Prop :=
  f.creator ≠ pid ∧ f.creator ∉ s.dead ∧ (f.stamp.isSome = true ∨ (s.starters f.creator).own = some f.serial)

/-- A breaker's rename meets no file of another live process. -/
def RenamesDebris : StartAct → Prop
  | .proceed pid _ => ∀ left f, (s.starters pid).phase = .breaking left → s.file = some f → ¬ OtherLive s pid f
  | _ => True

end Purpose

/-- What dead processes left behind: a file stamped with the pid of one of them, or an
unreadable one. -/
structure LeftLock where
  dead : List Nat
  file : Option StartLockFile
  creator_dead : ∀ f ∈ file, f.creator ∈ dead
  stamp_dead : ∀ f ∈ file, ∀ pid ∈ f.stamp, pid ∈ dead
  serial_zero : ∀ f ∈ file, f.serial = 0

def startLockStart (l : LeftLock) : StartState := ⟨l.file, fun _ => ⟨.outside, none⟩, l.dead, 1⟩

end Hayven.Daemon

/-!
## One starter at a time

While no breaker's rename meets the file of another live process, the file at the path is
the one that a live process created and has not released (`StarterOk`), so a second one
finds it there. The rename goes by the path: between a verdict and the rename another
process may have created the file anew.
-/

namespace Hayven.Daemon

/-- A process that created a file finds it at the path until it releases it. -/
structure StarterOk (pid : Nat) (me : Starter) (file : Option StartLockFile) : Prop where
  own : ∀ i, me.own = some i → ∃ f, file = some f ∧ f.serial = i ∧ f.creator = pid ∧
    (me.phase = .stamping ∨ f.stamp = some pid)
  owns : me.own.isSome = true → me.phase = .stamping ∨ me.phase = .acquired ∨ me.phase = .releasing ∨ me.phase = .unlinking
  unlinks : me.phase = .unlinking → ∃ f, file = some f ∧ f.creator = pid ∧ f.stamp = some pid

structure StartInv (s : StartState) : Prop where
  stamps : ∀ f, s.file = some f → ∀ pid, f.stamp = some pid → pid = f.creator ∨ (f.creator ∈ s.dead ∧ pid ∈ s.dead)
  starters : ∀ p, p ∉ s.dead → StarterOk p (s.starters p) s.file

variable {s s' : StartState} {a : StartAct} {q left : Nat} {time : Int}

theorem startInv_start (l : LeftLock) : StartInv (startLockStart l) where
  stamps f hf pid hpid := .inr ⟨l.creator_dead f hf, l.stamp_dead f hf pid hpid⟩
  starters p _ := by
    constructor
    · intro i hi; cases hi
    · intro h; cases h
    · intro h; cases h

/-! ## One process moves -/

/-- A move that leaves the file of another live process where it is. -/
theorem StartInv.move (h : StartInv s) {me : Starter} {file : Option StartLockFile}
    (hothers : ∀ f, s.file = some f → OtherLive s q f → file = some f)
    (hstamps : ∀ f, file = some f → ∀ pid, f.stamp = some pid → pid = f.creator ∨ (f.creator ∈ s.dead ∧ pid ∈ s.dead))
    (hme : StarterOk q me file) : StartInv (s.move q me file) where
  stamps := hstamps
  starters p hp := by
    show StarterOk p (Function.update s.starters q me p) file
    by_cases hpq : p = q
    · subst hpq
      rw [Function.update_self]
      exact hme
    · rw [Function.update_of_ne hpq]
      have hp' := h.starters p hp
      refine ⟨?_, hp'.owns, ?_⟩
      · intro i hi
        obtain ⟨f, hf, rfl, hcreator, hstamp⟩ := hp'.own i hi
        have hlive : OtherLive s q f := by
          subst hcreator
          exact ⟨hpq, hp, .inr hi⟩
        exact ⟨f, hothers f hf hlive, rfl, hcreator, hstamp⟩
      · intro hunlinks
        obtain ⟨f, hf, hcreator, hstamp⟩ := hp'.unlinks hunlinks
        have hlive : OtherLive s q f := by
          subst hcreator
          exact ⟨hpq, hp, .inl (by rw [hstamp]; rfl)⟩
        exact ⟨f, hothers f hf hlive, hcreator, hstamp⟩

/-- A move that leaves the file, of a process that keeps what it owns. -/
theorem StartInv.goto (h : StartInv s) {phase : StartPhase} (hme : StarterOk q { s.starters q with phase := phase } s.file) :
    StartInv (s.goto q phase) := h.move (fun _ hf _ => hf) h.stamps hme

/-- A process that owns nothing may go anywhere but to an unlink. -/
theorem StarterOk.free {me : Starter} {file : Option StartLockFile} (hown : me.own = none) (hphase : me.phase ≠ .unlinking) :
    StarterOk q me file where
  own i hi := by rw [hown] at hi; cases hi
  owns h := by rw [hown] at h; cases h
  unlinks h := absurd h hphase

/-- A process on its way to a lock owns nothing. -/
theorem StartInv.own_none (h : StartInv s) (hlive : q ∉ s.dead)
    (hphase : (s.starters q).phase ≠ .stamping ∧ (s.starters q).phase ≠ .acquired ∧
      (s.starters q).phase ≠ .releasing ∧ (s.starters q).phase ≠ .unlinking) : (s.starters q).own = none := by
  by_contra hne
  obtain ⟨h1, h2, h3, h4⟩ := hphase
  rcases (h.starters q hlive).owns (Option.isSome_iff_ne_none.2 hne) with h' | h' | h' | h'
  · exact h1 h'
  · exact h2 h'
  · exact h3 h'
  · exact h4 h'

theorem StartInv.goto_free (h : StartInv s) (hlive : q ∉ s.dead)
    (hphase : (s.starters q).phase ≠ .stamping ∧ (s.starters q).phase ≠ .acquired ∧
      (s.starters q).phase ≠ .releasing ∧ (s.starters q).phase ≠ .unlinking) {phase : StartPhase}
    (hnext : phase ≠ .unlinking) : StartInv (s.goto q phase) :=
  h.goto (.free (h.own_none hlive hphase) hnext)

theorem StartInv.nextPass (h : StartInv s) (hlive : q ∉ s.dead)
    (hphase : (s.starters q).phase ≠ .stamping ∧ (s.starters q).phase ≠ .acquired ∧
      (s.starters q).phase ≠ .releasing ∧ (s.starters q).phase ≠ .unlinking) : StartInv (s.nextPass q left) := by
  cases left with
  | zero => exact h.goto_free hlive hphase nofun
  | succ left => exact h.goto_free hlive hphase nofun

/-! ## The steps -/

/-- A file that is read as one's own pid was created by oneself. -/
theorem StartInv.creator_of_readPid (h : StartInv s) (hlive : q ∉ s.dead) (hread : s.readPid = some q) :
    ∃ f, s.file = some f ∧ f.creator = q ∧ f.stamp = some q := by
  obtain ⟨f, hf, hstamp⟩ := Option.bind_eq_some_iff.1 hread
  rcases h.stamps f hf q hstamp with heq | ⟨-, hdead⟩
  · exact ⟨f, hf, heq.symm, hstamp⟩
  · exact absurd hdead hlive

theorem startInv_proceed (h : StartInv s) (hlive : q ∉ s.dead) (hok : RenamesDebris s (.proceed q time))
    (hstep : s.proceed q time = some s') : StartInv s' := by
  unfold StartState.proceed at hstep
  cases hphase : (s.starters q).phase with
  | outside | acquired =>
    simp only [hphase] at hstep
    cases hstep
  | creating left =>
    simp only [hphase] at hstep
    cases hfile : s.file with
    | none =>
      simp only [hfile] at hstep
      obtain rfl := Option.some.inj hstep
      have hmove : StartInv (s.move q ⟨.stamping, some s.issued⟩ (some ⟨s.issued, q, none, time⟩)) := by
        apply h.move
        · intro f hf; rw [hfile] at hf; cases hf
        · rintro f hf pid hpid; obtain rfl := Option.some.inj hf; cases hpid
        · refine ⟨?_, fun _ => .inl rfl, nofun⟩
          rintro i hi
          obtain rfl := Option.some.inj hi
          exact ⟨_, rfl, rfl, rfl, .inl rfl⟩
      exact ⟨hmove.stamps, hmove.starters⟩
    | some f =>
      simp only [hfile] at hstep
      obtain rfl := Option.some.inj hstep
      exact h.goto_free hlive (by simp [hphase]) nofun
  | stamping =>
    simp only [hphase] at hstep
    obtain rfl := Option.some.inj hstep
    -- the write reaches the file at the path, if that is the one the process created
    apply h.move
    · intro f hf hother
      rw [hf, Option.map_some]
      split
      · rename_i hown
        obtain ⟨f', hf', -, hcreator, -⟩ := (h.starters q hlive).own _ hown
        rw [hf] at hf'
        obtain rfl := Option.some.inj hf'
        exact absurd hcreator hother.1
      · rfl
    · intro f hf pid hpid
      obtain ⟨f₀, hf₀, rfl⟩ := Option.map_eq_some_iff.1 hf
      split at hpid
      · rename_i hown
        obtain ⟨f', hf', -, hcreator, -⟩ := (h.starters q hlive).own _ hown
        rw [hf₀] at hf'
        obtain rfl := Option.some.inj hf'
        rw [if_pos hown]
        exact .inl ((Option.some.inj hpid).symm.trans hcreator.symm)
      · rename_i hown
        rw [if_neg hown]
        exact h.stamps f₀ hf₀ pid hpid
    · refine ⟨?_, fun _ => .inr (.inl rfl), nofun⟩
      intro i hi
      obtain ⟨f, hf, hserial, hcreator, -⟩ := (h.starters q hlive).own i hi
      have hown : (s.starters q).own = some f.serial := hi.trans (congrArg some hserial.symm)
      refine ⟨{ f with stamp := some q, mtime := time }, ?_, hserial, hcreator, .inr rfl⟩
      rw [hf, Option.map_some, if_pos hown]
  | reading left =>
    simp only [hphase] at hstep
    split at hstep
    · obtain rfl := Option.some.inj hstep
      split
      · exact h.goto_free hlive (by simp [hphase]) nofun
      · exact h.goto_free hlive (by simp [hphase]) nofun
    · obtain rfl := Option.some.inj hstep
      exact h.goto_free hlive (by simp [hphase]) nofun
  | judging left =>
    simp only [hphase] at hstep
    split at hstep
    · obtain rfl := Option.some.inj hstep
      exact h.goto_free hlive (by simp [hphase]) nofun
    · obtain rfl := Option.some.inj hstep
      split
      · exact h.goto_free hlive (by simp [hphase]) nofun
      · exact h.goto_free hlive (by simp [hphase]) nofun
  | breaking left =>
    simp only [hphase] at hstep
    split at hstep
    · obtain rfl := Option.some.inj hstep
      exact h.nextPass hlive (by simp [hphase])
    · rename_i f hf
      obtain rfl := Option.some.inj hstep
      apply h.move
      · intro f' hf' hother
        exact absurd hother (hok left f' hphase hf')
      · intro f' hf'; cases hf'
      · exact .free (h.own_none hlive (by simp [hphase])) nofun
  | discarding left =>
    simp only [hphase] at hstep
    obtain rfl := Option.some.inj hstep
    exact h.nextPass hlive (by simp [hphase])
  | releasing =>
    simp only [hphase] at hstep
    obtain rfl := Option.some.inj hstep
    split
    · rename_i hread
      have hfound := h.creator_of_readPid hlive hread
      apply h.goto
      refine ⟨?_, fun _ => .inr (.inr (.inr rfl)), fun _ => hfound⟩
      intro i hi
      obtain ⟨f, hf, hserial, hcreator, hstamp⟩ := (h.starters q hlive).own i hi
      rcases hstamp with hstamp | hstamp
      · rw [hphase] at hstamp; cases hstamp
      · exact ⟨f, hf, hserial, hcreator, .inr hstamp⟩
    · exact h.move (fun _ hf _ => hf) h.stamps (.free rfl nofun)
  | unlinking =>
    simp only [hphase] at hstep
    obtain rfl := Option.some.inj hstep
    obtain ⟨f, hf, hcreator, -⟩ := (h.starters q hlive).unlinks hphase
    apply h.move
    · intro f' hf' hother
      rw [hf] at hf'
      obtain rfl := Option.some.inj hf'
      exact absurd hcreator hother.1
    · intro f' hf'; cases hf'
    · exact .free rfl nofun

theorem startInv_fail (h : StartInv s) (hlive : q ∉ s.dead) (hstep : s.fail q = some s') : StartInv s' := by
  unfold StartState.fail at hstep
  cases hphase : (s.starters q).phase with
  | creating left =>
    simp only [hphase] at hstep
    obtain rfl := Option.some.inj hstep
    exact h.goto_free hlive (by simp [hphase]) nofun
  | stamping | unlinking =>
    simp only [hphase] at hstep
    obtain rfl := Option.some.inj hstep
    exact h.move (fun _ hf _ => hf) h.stamps (.free rfl nofun)
  | breaking left | discarding left =>
    simp only [hphase] at hstep
    obtain rfl := Option.some.inj hstep
    exact h.nextPass hlive (by simp [hphase])
  | outside | reading | judging | acquired | releasing =>
    simp only [hphase] at hstep
    cases hstep

theorem startInv_step (h : StartInv s) (hok : RenamesDebris s a) (hstep : startStep s a = some s') : StartInv s' := by
  cases a with
  | die pid =>
    obtain rfl := Option.some.inj hstep
    refine ⟨?_, fun p hp => h.starters p fun hdead => hp (List.mem_cons_of_mem _ hdead)⟩
    intro f hf p hp
    exact (h.stamps f hf p hp).imp_right fun hdead => ⟨List.mem_cons_of_mem _ hdead.1, List.mem_cons_of_mem _ hdead.2⟩
  | acquire pid =>
    simp only [startStep] at hstep
    split at hstep
    · cases hstep
    · rename_i hfree
      obtain ⟨hlive, hphase⟩ := not_or.1 hfree
      obtain rfl := Option.some.inj hstep
      exact h.goto_free hlive (by simp [not_not.1 hphase]) nofun
  | release pid =>
    simp only [startStep] at hstep
    split at hstep
    · cases hstep
    rename_i hlive
    split at hstep
    · rename_i hphase
      obtain rfl := Option.some.inj hstep
      exact h.goto_free hlive (by simp [hphase]) nofun
    · rename_i hphase
      obtain rfl := Option.some.inj hstep
      apply h.goto
      refine ⟨?_, fun _ => .inr (.inr (.inl rfl)), nofun⟩
      intro i hi
      obtain ⟨f, hf, hserial, hcreator, hstamp⟩ := (h.starters pid hlive).own i hi
      rcases hstamp with hstamp | hstamp
      · rw [hphase] at hstamp; cases hstamp
      · exact ⟨f, hf, hserial, hcreator, .inr hstamp⟩
    · cases hstep
  | proceed pid time =>
    simp only [startStep] at hstep
    split at hstep
    · cases hstep
    · rename_i hlive
      exact startInv_proceed h hlive hok hstep
  | fail pid =>
    simp only [startStep] at hstep
    split at hstep
    · cases hstep
    · rename_i hlive
      exact startInv_fail h hlive hstep

/-! ## Mutual exclusion -/

/-- A holder's file is at the path. -/
theorem StartInv.creator_of_holds (h : StartInv s) (hq : HoldsStart s q) : ∃ f, s.file = some f ∧ f.creator = q := by
  obtain ⟨hlive, hown, -⟩ := hq
  obtain ⟨i, hi⟩ := Option.isSome_iff_exists.1 hown
  obtain ⟨f, hf, -, hcreator, -⟩ := (h.starters q hlive).own i hi
  exact ⟨f, hf, hcreator⟩

theorem StartInv.oneStarter (h : StartInv s) : OneStarter s := by
  intro p q hp hq
  obtain ⟨f, hf, rfl⟩ := h.creator_of_holds hp
  obtain ⟨f', hf', rfl⟩ := h.creator_of_holds hq
  rw [hf] at hf'
  rw [Option.some.inj hf']

theorem StartInv.not_removesLive (h : StartInv s) (hok : RenamesDebris s a) : ¬ RemovesLive s a := by
  rintro ⟨pid, f, holder, hremoves, hlive, hstamp, hne, hholder⟩
  unfold RemovesFile at hremoves
  cases a with
  | proceed p time =>
    simp only at hremoves
    cases hphase : (s.starters p).phase with
    | breaking left =>
      simp only [hphase] at hremoves
      obtain ⟨f', hf, heq⟩ := Option.map_eq_some_iff.1 hremoves
      obtain ⟨rfl, rfl⟩ := Prod.mk.inj heq
      rcases h.stamps f' hf holder hstamp with rfl | ⟨-, hdead⟩
      · exact hok left f' hphase hf ⟨hne, hholder, .inl (by rw [hstamp]; rfl)⟩
      · exact hholder hdead
    | unlinking =>
      simp only [hphase] at hremoves
      obtain ⟨f', hf, heq⟩ := Option.map_eq_some_iff.1 hremoves
      obtain ⟨rfl, rfl⟩ := Prod.mk.inj heq
      obtain ⟨f₀, hf₀, -, hown⟩ := (h.starters p hlive).unlinks hphase
      rw [hf] at hf₀
      obtain rfl := Option.some.inj hf₀
      exact hne (Option.some.inj (hstamp.symm.trans hown))
    | _ => simp only [hphase] at hremoves; cases hremoves
  | _ => cases hremoves

/-- In every run whose renames meet no file of another live process, one process at most
holds the lock and no step takes another live process's file away; and a rename that meets
a stamped one takes it away. -/
theorem startLock_excludes (l : LeftLock) :
    (∀ s, Run startStep RenamesDebris (startLockStart l) s →
      OneStarter s ∧ ∀ a, RenamesDebris s a → ¬ RemovesLive s a) ∧
    ∀ s pid time left f, Run startStep RenamesDebris (startLockStart l) s → pid ∉ s.dead →
      (s.starters pid).phase = .breaking left → s.file = some f → f.creator ≠ pid → f.creator ∉ s.dead →
        f.stamp.isSome = true → RemovesLive s (.proceed pid time) := by
  have hinv : ∀ s, Run startStep RenamesDebris (startLockStart l) s → StartInv s := by
    intro s hrun
    exact hrun.invariant (startInv_start l) fun _ _ _ hi hok hstep => startInv_step hi hok hstep
  constructor
  · intro s hrun
    exact ⟨(hinv s hrun).oneStarter, fun a hok => (hinv s hrun).not_removesLive hok⟩
  · intro s pid time left f hrun hlive hphase hf hne hcreator hstamped
    obtain ⟨holder, hstamp⟩ := Option.isSome_iff_exists.1 hstamped
    rcases (hinv s hrun).stamps f hf holder hstamp with rfl | ⟨hdead, -⟩
    · refine ⟨pid, f, f.creator, ?_, hlive, hstamp, hne, hcreator⟩
      simp only [RemovesFile, hphase, hf, Option.map_some]
    · exact absurd hdead hcreator

/-! ## Two breakers of a dead starter's lock -/

/-- A file that process 9 left. -/
def debris : LeftLock where
  dead := [9]
  file := some ⟨0, 9, some 9, 0⟩
  creator_dead := by rintro f hf; obtain rfl := Option.some.inj hf; exact List.mem_singleton_self 9
  stamp_dead := by
    rintro f hf pid hpid
    obtain rfl := Option.some.inj hf
    obtain rfl := Option.some.inj hpid
    exact List.mem_singleton_self 9
  serial_zero := by rintro f hf; obtain rfl := Option.some.inj hf; rfl

/-- Both read the dead pid; 2 renames, unlinks, creates and stamps; then 1 renames the
live file aside, creates and stamps. -/
def twoBreakers : List StartAct :=
  [.acquire 1, .proceed 1 0, .proceed 1 0, .acquire 2, .proceed 2 0, .proceed 2 0,
    .proceed 2 1, .proceed 2 1, .proceed 2 1, .proceed 2 1,
    .proceed 1 2, .proceed 1 2, .proceed 1 2, .proceed 1 2]

/-- Two processes hold the lock. -/
theorem startLock_admits_two :
    ¬ ∀ s, Run startStep (fun _ _ => True) (startLockStart debris) s → OneStarter s := by
  intro h
  have hend : (runAll startStep (fun _ _ => true) (startLockStart debris) twoBreakers).map
      (fun s => (s.dead, s.starters 1, s.starters 2)) =
        some ([9], ⟨.acquired, some 2⟩, ⟨.acquired, some 1⟩) := by decide +kernel
  obtain ⟨s, hs, hstarters⟩ := Option.map_eq_some_iff.1 hend
  obtain ⟨hdead, hstarters⟩ := Prod.mk.inj hstarters
  obtain ⟨hone, htwo⟩ := Prod.mk.inj hstarters
  have hrun := @run_of_runAll _ _ startStep (fun _ _ => True) _ (fun _ _ _ => trivial) _ _ _ hs
  have hsame : 1 = 2 := by
    apply h s hrun 1 2
    · exact ⟨by rw [hdead]; decide, by rw [hone]; rfl, .inl (by rw [hone])⟩
    · exact ⟨by rw [hdead]; decide, by rw [htwo]; rfl, .inl (by rw [htwo])⟩
  cases hsame

end Hayven.Daemon
