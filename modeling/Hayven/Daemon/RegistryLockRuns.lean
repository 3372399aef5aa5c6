import Hayven.Daemon.RegistryLock
import Hayven.Daemon.RegistryRuns
/-!
# No registration is lost

While the lock file carries the token of a caller that has read the registry, the file is
the one it read (`PhaseOk`), and while its last renewal is younger than `LOCK_STALE_MS` a
caller about to rename has the lock. So every rename publishes an operation on the file it
replaces (`serial_step`). An unlink that meets another file than the one it was decided on
is where this ends: `registration_lost`.
-/
open Hayven.Lib

namespace Hayven.Daemon

/-- The token of the caller's own attempt. -/
def RegistryPhase.own : RegistryPhase → Option Nat
  | .created t | .tokened t | .holding t | .modified t .. | .beating t .. | .staged t .. | .fencing t ..
  | .publishing t .. | .releasing t _ | .removing t _ => some t
  | _ => none

/-! ## The invariant -/

/-- The lock file is the caller's, and it was touched at the renewal or later. -/
def Owned (lock : Option RegistryLock) (token renewed : Nat) : Prop :=
  ∃ l, lock = some l ∧ l.token = token ∧ renewed ≤ l.mtime

/-- The file is the one that was read, as long as the lock is the reader's. -/
def BaseOk (eff : ProjectsFile → Option ProjectsFile) (lock : Option RegistryLock) (file : ProjectsFile) (token : Nat)
    (base : ProjectsFile) (next : Option ProjectsFile) : Prop :=
  next = eff base ∧ ∀ l, lock = some l → l.token = token → file = base

def WatchOk (watched : Option (Nat × Nat)) : Prop := ∀ m since, watched = some (m, since) → m ≤ since

/-- What holds of a caller in each phase. -/
def PhaseOk (eff : ProjectsFile → Option ProjectsFile) (clock : Nat) (lock : Option RegistryLock) (file : ProjectsFile) :
    RegistryPhase → Prop
  | .opening watched | .refused watched => WatchOk watched
  | .sighted watched mtime => WatchOk watched ∧ mtime ≤ clock
  | .reclaiming mtime => mtime + registryLockStaleMs ≤ clock
  | .unlinking seen => seen.mtime + registryLockStaleMs ≤ clock
  | .modified t base next _ _ | .beating t base next _ => BaseOk eff lock file t base next
  | .staged t base next _ => BaseOk eff lock file t base (some next)
  | .fencing t base next renewed =>
    BaseOk eff lock file t base (some next) ∧ ∀ l, lock = some l → l.token = t → renewed ≤ l.mtime
  | .publishing t base next renewed =>
    BaseOk eff lock file t base (some next) ∧ (clock < renewed + registryLockStaleMs → Owned lock t renewed)
  | _ => True

structure RegistryInv (eff : Nat → ProjectsFile → Option ProjectsFile) (s : RegistryState) : Prop where
  issued : ∀ c t, (s.phases c).own = some t → t < s.issued
  unique : ∀ c p t, (s.phases c).own = some t → (s.phases p).own = some t → c = p
  lock : ∀ l, s.lock = some l → l.token < s.issued ∧ l.mtime ≤ s.clock
  phases : ∀ c, PhaseOk (eff c) s.clock s.lock s.file (s.phases c)

variable {eff : Nat → ProjectsFile → Option ProjectsFile} {calls : Nat → LockedCall} {s s' : RegistryState}

theorem registryInv_start (file : ProjectsFile) (now : Nat) (left : Option {l : RegistryLock // l.mtime ≤ now}) :
    RegistryInv eff (registryStart file now left) where
  issued _ _ h := by cases h
  unique _ _ _ h := by cases h
  lock l h := by
    cases left with
    | none => cases h
    | some left =>
      cases h
      exact ⟨Nat.lt_succ_self _, left.property⟩
  phases _ := trivial

/-! ## Other callers -/

/-- What a change of the lock and of the registry leaves to the caller of a token. -/
structure Undisturbed (s : RegistryState) (lock : Option RegistryLock) (file : ProjectsFile) (token : Nat) : Prop where
  back : ∀ l', lock = some l' → l'.token = token → ∃ l, s.lock = some l ∧ l.token = token ∧ l.mtime ≤ l'.mtime
  file : ∀ l', lock = some l' → l'.token = token → file = s.file
  kept : ∀ renewed, s.clock < renewed + registryLockStaleMs → Owned s.lock token renewed → Owned lock token renewed

theorem BaseOk.undisturbed {e : ProjectsFile → Option ProjectsFile} {lock : Option RegistryLock} {file : ProjectsFile}
    {t : Nat} {base : ProjectsFile} {next : Option ProjectsFile} (h : BaseOk e s.lock s.file t base next)
    (hu : Undisturbed s lock file t) : BaseOk e lock file t base next := by
  refine ⟨h.1, fun l' hl' ht => ?_⟩
  obtain ⟨l, hl, hlt, -⟩ := hu.back l' hl' ht
  exact (hu.file l' hl' ht).trans (h.2 l hl hlt)

theorem PhaseOk.undisturbed {e : ProjectsFile → Option ProjectsFile} {ph : RegistryPhase} {lock : Option RegistryLock}
    {file : ProjectsFile} (h : PhaseOk e s.clock s.lock s.file ph)
    (hu : ∀ t, ph.own = some t → Undisturbed s lock file t) : PhaseOk e s.clock lock file ph := by
  cases ph with
  | outside | created | tokened | holding | releasing | removing | finished => exact trivial
  | opening | refused | sighted | reclaiming | unlinking => exact h
  | modified t base next beats lost => exact BaseOk.undisturbed h (hu t rfl)
  | beating t base next beats => exact BaseOk.undisturbed h (hu t rfl)
  | staged t base next lost => exact BaseOk.undisturbed h (hu t rfl)
  | fencing t base next renewed =>
    refine ⟨BaseOk.undisturbed h.1 (hu t rfl), fun l' hl' ht => ?_⟩
    obtain ⟨l, hl, hlt, hle⟩ := (hu t rfl).back l' hl' ht
    exact (h.2 l hl hlt).trans hle
  | publishing t base next renewed =>
    exact ⟨BaseOk.undisturbed h.1 (hu t rfl), fun hclock => (hu t rfl).kept renewed hclock (h.2 hclock)⟩

theorem undisturbed_same (t : Nat) : Undisturbed s s.lock s.file t :=
  ⟨fun l hl ht => ⟨l, hl, ht, le_rfl⟩, fun _ _ _ => rfl, fun _ _ h => h⟩

/-- A touch, or the write of a token. -/
theorem undisturbed_map (h : RegistryInv eff s) {f : RegistryLock → RegistryLock} (htoken : ∀ l, (f l).token = l.token)
    (hmtime : ∀ l, (f l).mtime = s.clock ∨ (f l).mtime = l.mtime) (t : Nat) :
    Undisturbed s (s.lock.map f) s.file t := by
  have hle : ∀ l, s.lock = some l → l.mtime ≤ (f l).mtime := by
    intro l hl
    rcases hmtime l with heq | heq
    · exact heq ▸ (h.lock l hl).2
    · exact heq.ge
  refine ⟨fun l' hl' ht => ?_, fun _ _ _ => rfl, ?_⟩
  · obtain ⟨l, hl, rfl⟩ := Option.map_eq_some_iff.1 hl'
    exact ⟨l, hl, (htoken l).symm.trans ht, hle l hl⟩
  · rintro renewed - ⟨l, hl, ht, hr⟩
    exact ⟨f l, by rw [hl]; rfl, (htoken l).trans ht, hr.trans (hle l hl)⟩

theorem undisturbed_create (hlock : s.lock = none) {t : Nat} (ht : t < s.issued) :
    Undisturbed s (some ⟨s.issued, false, s.clock⟩) s.file t := by
  refine ⟨fun l' hl' heq => ?_, fun _ _ _ => rfl, ?_⟩
  · cases hl'
    exact absurd heq ht.ne'
  · rintro renewed - ⟨l, hl, -⟩
    rw [hlock] at hl
    cases hl

/-- The file that is unlinked is another's, or it is stale. -/
theorem undisturbed_unlink {t : Nat}
    (h : ∀ l, s.lock = some l → l.token ≠ t ∨ l.mtime + registryLockStaleMs ≤ s.clock) :
    Undisturbed s none s.file t := by
  refine ⟨(fun _ hl' _ => by cases hl'), fun _ _ _ => rfl, ?_⟩
  rintro renewed hclock ⟨l, hl, ht, hr⟩
  rcases h l hl with hne | hstale
  · exact absurd ht hne
  · omega

theorem undisturbed_rename {t : Nat} {file : ProjectsFile} (h : ∀ l, s.lock = some l → l.token ≠ t) :
    Undisturbed s s.lock file t :=
  ⟨fun l hl ht => absurd ht (h l hl), fun l hl ht => absurd ht (h l hl), fun _ _ h => h⟩

/-- A caller moves, with what it does to the lock and to the registry. -/
theorem RegistryInv.move (h : RegistryInv eff s) {c : Nat} {ph : RegistryPhase} {lock : Option RegistryLock}
    {file : ProjectsFile} {issued : Nat} (hissued : s.issued ≤ issued)
    (hown : ∀ t, ph.own = some t → (s.phases c).own = some t ∨ t = s.issued ∧ s.issued < issued)
    (hlock : ∀ l, lock = some l → l.token < issued ∧ l.mtime ≤ s.clock)
    (hothers : ∀ p, p ≠ c → ∀ t, (s.phases p).own = some t → Undisturbed s lock file t)
    (hself : PhaseOk (eff c) s.clock lock file ph) :
    RegistryInv eff { s.goto c ph with lock := lock, file := file, issued := issued } := by
  have hself' : (s.goto c ph).phases c = ph := Function.update_self ..
  have hother' : ∀ p, p ≠ c → (s.goto c ph).phases p = s.phases p := fun p hp => Function.update_of_ne hp ..
  have hfresh : ∀ t, ph.own = some t → ∀ p, p ≠ c → (s.phases p).own ≠ some t := by
    intro t ht p hp hpt
    rcases hown t ht with hc | ⟨rfl, -⟩
    · exact hp (h.unique p c t hpt hc)
    · exact absurd (h.issued p _ hpt) (lt_irrefl _)
  constructor
  · intro p t ht
    by_cases hp : p = c
    · subst hp
      rw [show (s.goto p ph).phases p = ph from hself'] at ht
      rcases hown t ht with hc | ⟨rfl, hlt⟩
      · exact (h.issued p t hc).trans_le hissued
      · exact hlt
    · exact (h.issued p t (by rwa [← hother' p hp])).trans_le hissued
  · intro p q t hp hq
    dsimp only at hp hq
    by_cases hpc : p = c <;> by_cases hqc : q = c
    · rw [hpc, hqc]
    · subst hpc
      rw [hself'] at hp
      rw [hother' q hqc] at hq
      exact absurd hq (hfresh t hp q hqc)
    · subst hqc
      rw [hself'] at hq
      rw [hother' p hpc] at hp
      exact absurd hp (hfresh t hq p hpc)
    · rw [hother' p hpc] at hp
      rw [hother' q hqc] at hq
      exact h.unique p q t hp hq
  · exact hlock
  · intro p
    dsimp only
    by_cases hp : p = c
    · subst hp
      rw [hself']
      exact hself
    · rw [hother' p hp]
      exact (h.phases p).undisturbed (hothers p hp)

/-- A caller moves and touches nothing. -/
theorem RegistryInv.goto (h : RegistryInv eff s) {c : Nat} {ph : RegistryPhase}
    (hown : ∀ t, ph.own = some t → (s.phases c).own = some t) (hself : PhaseOk (eff c) s.clock s.lock s.file ph) :
    RegistryInv eff (s.goto c ph) :=
  h.move le_rfl (fun t ht => .inl (hown t ht)) h.lock (fun _ _ t _ => undisturbed_same t) hself

/-! ## Each step -/

theorem mtime_map (h : RegistryInv eff s) {f : RegistryLock → RegistryLock} (htoken : ∀ l, (f l).token = l.token)
    (hmtime : ∀ l, (f l).mtime = s.clock ∨ (f l).mtime = l.mtime) :
    ∀ l, s.lock.map f = some l → l.token < s.issued ∧ l.mtime ≤ s.clock := by
  intro l' hl'
  obtain ⟨l, hl, rfl⟩ := Option.map_eq_some_iff.1 hl'
  refine ⟨htoken l ▸ (h.lock l hl).1, ?_⟩
  rcases hmtime l with heq | heq
  · exact heq.le
  · exact heq.le.trans (h.lock l hl).2

/-- A caller with a token touches the lock file, whosever it is. -/
theorem RegistryInv.touch (h : RegistryInv eff s) {c t : Nat} (ht : (s.phases c).own = some t) {ph : RegistryPhase}
    (hown : ph.own = some t) (hself : PhaseOk (eff c) s.clock s.touch.lock s.file ph) :
    RegistryInv eff (s.touch.goto c ph) := by
  have htoken : ∀ l : RegistryLock, { l with mtime := s.clock }.token = l.token := fun _ => rfl
  refine h.move le_rfl (fun t' ht' => .inl ?_) (mtime_map h htoken fun _ => .inl rfl)
    (fun _ _ t _ => undisturbed_map h htoken (fun _ => .inl rfl) t) hself
  rw [ht, ← hown, ht']

theorem RegistryInv.touched_base (h : RegistryInv eff s) {e : ProjectsFile → Option ProjectsFile} {t : Nat}
    {base : ProjectsFile} {next : Option ProjectsFile} (hbase : BaseOk e s.lock s.file t base next) :
    BaseOk e s.touch.lock s.file t base next :=
  hbase.undisturbed (@undisturbed_map _ _ h (fun l => { l with mtime := s.clock }) (fun _ => rfl) (fun _ => .inl rfl) t)

theorem owned_of_holds {t renewed : Nat} (h : s.holds t = true)
    (hmtime : ∀ l, s.lock = some l → l.token = t → renewed ≤ l.mtime) : Owned s.lock t renewed := by
  unfold RegistryState.holds at h
  cases hl : s.lock with
  | none =>
    rw [hl] at h
    cases h
  | some l =>
    simp only [hl, Option.any_some, Bool.and_eq_true, decide_eq_true_eq] at h
    exact ⟨l, rfl, h.2, hmtime l hl h.2⟩

theorem watchOk_none : WatchOk none := fun _ _ h => by cases h

theorem registryInv_judge (h : RegistryInv eff s) {c : Nat} {watched : Option (Nat × Nat)} {mtime : Nat}
    (hph : s.phases c = .sighted watched mtime) : RegistryInv eff (s.judge c watched mtime) := by
  have hme := h.phases c
  rw [hph] at hme
  obtain ⟨hwatch, hseen⟩ := hme
  have hnew : WatchOk (some (mtime, s.clock)) := by
    rintro m since heq
    cases heq
    exact hseen
  unfold RegistryState.judge
  cases watched with
  | none => exact h.goto (fun t ht => by cases ht) hnew
  | some w =>
    obtain ⟨m, since⟩ := w
    dsimp only
    split
    · rename_i hsame
      subst hsame
      split
      · rename_i hstale
        refine h.goto (fun t ht => by cases ht) ?_
        have hle := hwatch m since rfl
        show m + registryLockStaleMs ≤ s.clock
        unfold registryLockStaleMs at hstale ⊢
        omega
      · exact h.goto (fun t ht => by cases ht) hwatch
    · exact h.goto (fun t ht => by cases ht) hnew

theorem registryInv_proceed (h : RegistryInv eff s) {c : Nat} (hmeets : MeetsChecked s (.proceed c))
    (hprompt : Prompt s (.proceed c))
    (hreads : ∀ t, s.phases c = .holding t → (calls c).publishes s.file = eff c s.file)
    (hs : s.proceed calls c = some s') : RegistryInv eff s' := by
  have hme := h.phases c
  unfold RegistryState.proceed at hs
  cases hph : s.phases c with
  | outside =>
    simp only [hph, Option.some.injEq] at hs
    exact hs ▸ h.goto (fun t ht => by cases ht) watchOk_none
  | opening watched =>
    rw [hph] at hs hme
    dsimp only at hs
    cases hlock : s.lock with
    | some l =>
      simp only [hlock, Option.some.injEq] at hs
      exact hs ▸ h.goto (fun t ht => by cases ht) hme
    | none =>
      simp only [hlock, Option.some.injEq] at hs
      subst hs
      refine h.move (Nat.le_succ _) (fun t ht => .inr ?_) ?_ ?_ trivial
      · cases ht
        exact ⟨rfl, Nat.lt_succ_self _⟩
      · rintro l hl
        cases hl
        exact ⟨Nat.lt_succ_self _, le_rfl⟩
      · exact fun p _ t ht => undisturbed_create hlock (h.issued p t ht)
  | refused watched =>
    rw [hph] at hs hme
    dsimp only at hs
    cases hlock : s.lock with
    | none =>
      simp only [hlock, Option.some.injEq] at hs
      exact hs ▸ h.goto (fun t ht => by cases ht) watchOk_none
    | some l =>
      simp only [hlock, Option.some.injEq] at hs
      exact hs ▸ h.goto (fun t ht => by cases ht) ⟨hme, (h.lock l hlock).2⟩
  | sighted watched mtime =>
    simp only [hph, Option.some.injEq] at hs
    exact hs ▸ registryInv_judge h hph
  | reclaiming mtime =>
    rw [hph] at hs hme
    dsimp only at hs
    cases hlock : s.lock with
    | none =>
      simp only [hlock, Option.some.injEq] at hs
      exact hs ▸ h.goto (fun t ht => by cases ht) watchOk_none
    | some l =>
      simp only [hlock, Option.some.injEq] at hs
      subst hs
      split
      · rename_i hsame
        subst hsame
        exact h.goto (fun t ht => by cases ht) hme
      · exact h.goto (fun t ht => by cases ht) watchOk_none
  | unlinking seen =>
    rw [hph] at hs hme
    simp only [Option.some.injEq] at hs
    subst hs
    refine h.move le_rfl (fun t ht => by cases ht) (fun l hl => by cases hl) (fun p _ t _ => ?_) watchOk_none
    -- the file it meets is the stale one it saw
    refine undisturbed_unlink fun l hl => .inr ?_
    rw [hmeets.1 seen hph l hl]
    exact hme
  | created t =>
    rw [hph] at hs
    simp only [Option.some.injEq] at hs
    subst hs
    have htoken : ∀ l : RegistryLock, (if l.token = t then { l with written := true, mtime := s.clock } else l).token =
        l.token := by
      intro l
      split <;> rfl
    have hmtime : ∀ l : RegistryLock, (if l.token = t then { l with written := true, mtime := s.clock } else l).mtime =
        s.clock ∨ (if l.token = t then { l with written := true, mtime := s.clock } else l).mtime = l.mtime := by
      intro l
      split
      · exact .inl rfl
      · exact .inr rfl
    refine h.move le_rfl (fun t' ht' => .inl ?_) (mtime_map h htoken hmtime)
      (fun _ _ t _ => undisturbed_map h htoken hmtime t) trivial
    rw [hph]
    exact ht'
  | tokened t =>
    rw [hph] at hs
    simp only [Option.some.injEq] at hs
    subst hs
    split
    · exact h.goto (fun t' ht' => by rw [hph]; exact ht') trivial
    · exact h.goto (fun t' ht' => by cases ht') watchOk_none
  | holding t =>
    rw [hph] at hs
    simp only [Option.some.injEq] at hs
    subst hs
    exact h.goto (fun t' ht' => by rw [hph]; exact ht') ⟨hreads t hph, fun _ _ _ => rfl⟩
  | modified t base next beats lost =>
    rw [hph] at hs hme
    have hown : ∀ t', some t = some t' → (s.phases c).own = some t' := fun t' ht' => by rw [hph]; exact ht'
    cases next with
    | none =>
      cases beats with
      | zero =>
        simp only [Option.some.injEq] at hs
        exact hs ▸ h.goto hown trivial
      | succ beats =>
        cases lost with
        | true =>
          simp only [Option.some.injEq] at hs
          exact hs ▸ h.goto hown trivial
        | false =>
          cases hlock : s.lock with
          | none =>
            simp only [hlock, Option.some.injEq] at hs
            exact hs ▸ h.goto hown hme
          | some l =>
            simp only [hlock, Option.some.injEq] at hs
            exact hs ▸ h.touch (hown t rfl) rfl (h.touched_base hme)
    | some next =>
      cases beats with
      | zero =>
        simp only [Option.some.injEq] at hs
        exact hs ▸ h.goto hown hme
      | succ beats =>
        cases lost with
        | true =>
          simp only [Option.some.injEq] at hs
          exact hs ▸ h.goto hown hme
        | false =>
          cases hlock : s.lock with
          | none =>
            simp only [hlock, Option.some.injEq] at hs
            exact hs ▸ h.goto hown hme
          | some l =>
            simp only [hlock, Option.some.injEq] at hs
            exact hs ▸ h.touch (hown t rfl) rfl (h.touched_base hme)
  | beating t base next beats =>
    rw [hph] at hs hme
    simp only [Option.some.injEq] at hs
    exact hs ▸ h.goto (fun t' ht' => by rw [hph]; exact ht') hme
  | staged t base next lost =>
    rw [hph] at hs hme
    cases lost with
    | true =>
      simp only [Option.some.injEq] at hs
      exact hs ▸ h.goto (fun t' ht' => by cases ht') watchOk_none
    | false =>
      cases hlock : s.lock with
      | none =>
        simp only [hlock, Option.some.injEq] at hs
        exact hs ▸ h.goto (fun t' ht' => by cases ht') watchOk_none
      | some l =>
        simp only [hlock, Option.some.injEq] at hs
        subst hs
        refine h.touch (by rw [hph]; rfl) rfl ⟨h.touched_base hme, fun l' hl' _ => ?_⟩
        obtain ⟨_, -, rfl⟩ := Option.map_eq_some_iff.1 hl'
        exact le_rfl
  | fencing t base next renewed =>
    rw [hph] at hs hme
    simp only [Option.some.injEq] at hs
    subst hs
    split
    · rename_i hheld
      exact h.goto (fun t' ht' => by rw [hph]; exact ht') ⟨hme.1, fun _ => owned_of_holds hheld hme.2⟩
    · exact h.goto (fun t' ht' => by cases ht') watchOk_none
  | publishing t base next renewed =>
    rw [hph] at hs hme
    simp only [Option.some.injEq] at hs
    subst hs
    refine h.move le_rfl (fun t' ht' => .inl (by rw [hph]; exact ht')) h.lock (fun p hp t' ht' => ?_) trivial
    -- the lock is the publisher's
    obtain ⟨l, hl, hlt, -⟩ := hme.2 (hprompt t base next renewed hph)
    refine undisturbed_rename fun l' hl' heq => hp ?_
    rw [hl] at hl'
    cases hl'
    exact h.unique p c t (by rw [ht', ← heq, hlt]) (by rw [hph]; rfl)
  | releasing t ok =>
    rw [hph] at hs
    simp only [Option.some.injEq] at hs
    subst hs
    split
    · exact h.goto (fun t' ht' => by rw [hph]; exact ht') trivial
    · exact h.goto (fun t' ht' => by cases ht') trivial
  | removing t ok =>
    rw [hph] at hs
    simp only [Option.some.injEq] at hs
    subst hs
    refine h.move le_rfl (fun t' ht' => by cases ht') (fun l hl => by cases hl) (fun p hp t' ht' => ?_) trivial
    refine undisturbed_unlink fun l hl => .inl fun heq => hp ?_
    exact h.unique p c t (by rw [ht', ← heq, hmeets.2 t ok hph l hl]) (by rw [hph]; rfl)
  | finished ok =>
    rw [hph] at hs
    cases hs

theorem registryInv_fail (h : RegistryInv eff s) {c : Nat} (hs : s.fail c = some s') : RegistryInv eff s' := by
  unfold RegistryState.fail at hs
  split at hs
  · rename_i hph
    cases hs
    exact h.goto (fun t ht => by rw [hph]; exact ht) trivial
  · rename_i hph
    cases hs
    exact h.goto (fun t ht => by rw [hph]; exact ht) trivial
  · cases hs

theorem registryInv_wait (h : RegistryInv eff s) (ms : Nat) : RegistryInv eff { s with clock := s.clock + ms } where
  issued := h.issued
  unique := h.unique
  lock l hl := ⟨(h.lock l hl).1, (h.lock l hl).2.trans (Nat.le_add_right _ _)⟩
  phases c := by
    have hme := h.phases c
    show PhaseOk (eff c) (s.clock + ms) s.lock s.file (s.phases c)
    revert hme
    cases s.phases c with
    | sighted watched mtime => exact fun hme => ⟨hme.1, hme.2.trans (Nat.le_add_right _ _)⟩
    | reclaiming mtime => exact fun hme => Nat.le_trans hme (Nat.le_add_right _ _)
    | unlinking seen => exact fun hme => Nat.le_trans hme (Nat.le_add_right _ _)
    | publishing t base next renewed => exact fun hme => ⟨hme.1, fun hclock => hme.2 (by omega)⟩
    | outside | created | tokened | holding | releasing | removing | finished => exact fun hme => hme
    | opening | refused | modified | beating | staged | fencing => exact fun hme => hme

/-- What a step is asked: it is prompt, its unlink meets what was checked, and its read
finds the registry on which the operation does what `eff` says. -/
structure Fenced (calls : Nat → LockedCall) (eff : Nat → ProjectsFile → Option ProjectsFile) (s : RegistryState)
    (a : RegistryAct) : Prop where
  prompt : Prompt s a
  meets : MeetsChecked s a
  reads : ∀ c, a = .proceed c → ∀ t, s.phases c = .holding t → (calls c).publishes s.file = eff c s.file

theorem registryInv_step (h : RegistryInv eff s) {a : RegistryAct} (hok : Fenced calls eff s a)
    (hs : s.step calls a = some s') : RegistryInv eff s' := by
  cases a with
  | wait ms =>
    cases hs
    exact registryInv_wait h ms
  | proceed c => exact registryInv_proceed h hok.meets hok.prompt (hok.reads c rfl) hs
  | fail c => exact registryInv_fail h hs

/-! ## The operations in order -/

/-- The registry is the initial one after the completed operations, in an order. -/
structure Serial (eff : Nat → ProjectsFile → Option ProjectsFile) (file : ProjectsFile) (s : RegistryState)
    (order : List Nat) : Prop where
  file : s.file = order.foldl (fun f c => (eff c f).getD f) file
  nodup : order.Nodup
  completed : ∀ c, c ∈ order ↔ (s.phases c).Completed

/-- What a step does to the registry. -/
inductive RegistryEffect (calls : Nat → LockedCall) (s : RegistryState) (c : Nat) (file : ProjectsFile)
    (ph : RegistryPhase) : Prop
  | none (hfile : file = s.file) (hsame : ph.Completed ↔ (s.phases c).Completed)
  | unchanged (t : Nat) (hph : s.phases c = .holding t) (hnone : (calls c).publishes s.file = none)
      (hfile : file = s.file) (hdone : ph.Completed)
  | published (t : Nat) (base : ProjectsFile) (renewed : Nat) (hph : s.phases c = .publishing t base file renewed)
      (hdone : ph.Completed)

theorem effect_goto {c : Nat} {ph : RegistryPhase} (h : ph.Completed ↔ (s.phases c).Completed) :
    ∃ ph', (s.goto c ph).phases = Function.update s.phases c ph' ∧ RegistryEffect calls s c (s.goto c ph).file ph' :=
  ⟨ph, rfl, .none rfl h⟩

theorem effect_proceed {c : Nat} (hs : s.proceed calls c = some s') :
    ∃ ph, s'.phases = Function.update s.phases c ph ∧ RegistryEffect calls s c s'.file ph := by
  unfold RegistryState.proceed at hs
  cases hph : s.phases c with
  | outside =>
    simp only [hph, Option.some.injEq] at hs
    exact hs ▸ effect_goto (by rw [hph]; exact Iff.rfl)
  | opening watched =>
    cases hlock : s.lock with
    | some l =>
      simp only [hph, hlock, Option.some.injEq] at hs
      exact hs ▸ effect_goto (by rw [hph]; exact Iff.rfl)
    | none =>
      simp only [hph, hlock, Option.some.injEq] at hs
      exact hs ▸ ⟨_, rfl, .none rfl (by rw [hph]; exact Iff.rfl)⟩
  | refused watched =>
    cases hlock : s.lock with
    | none =>
      simp only [hph, hlock, Option.some.injEq] at hs
      exact hs ▸ effect_goto (by rw [hph]; exact Iff.rfl)
    | some l =>
      simp only [hph, hlock, Option.some.injEq] at hs
      exact hs ▸ effect_goto (by rw [hph]; exact Iff.rfl)
  | sighted watched mtime =>
    simp only [hph, Option.some.injEq] at hs
    subst hs
    unfold RegistryState.judge
    cases watched with
    | none => exact effect_goto (by rw [hph]; exact Iff.rfl)
    | some w =>
      dsimp only
      split
      · split <;> exact effect_goto (by rw [hph]; exact Iff.rfl)
      · exact effect_goto (by rw [hph]; exact Iff.rfl)
  | reclaiming mtime =>
    cases hlock : s.lock with
    | none =>
      simp only [hph, hlock, Option.some.injEq] at hs
      exact hs ▸ effect_goto (by rw [hph]; exact Iff.rfl)
    | some l =>
      simp only [hph, hlock, Option.some.injEq] at hs
      subst hs
      split <;> exact effect_goto (by rw [hph]; exact Iff.rfl)
  | unlinking seen =>
    simp only [hph, Option.some.injEq] at hs
    exact hs ▸ ⟨_, rfl, .none rfl (by rw [hph]; exact Iff.rfl)⟩
  | created t =>
    simp only [hph, Option.some.injEq] at hs
    exact hs ▸ ⟨_, rfl, .none rfl (by rw [hph]; exact Iff.rfl)⟩
  | tokened t =>
    simp only [hph, Option.some.injEq] at hs
    subst hs
    split <;> exact effect_goto (by rw [hph]; exact Iff.rfl)
  | holding t =>
    simp only [hph, Option.some.injEq] at hs
    subst hs
    refine ⟨_, rfl, ?_⟩
    cases hnext : (calls c).publishes s.file with
    | none => exact .unchanged t hph hnext rfl trivial
    | some next => exact .none rfl (by rw [hph]; exact Iff.rfl)
  | modified t base next beats lost =>
    cases next with
    | none =>
      cases beats with
      | zero =>
        simp only [hph, Option.some.injEq] at hs
        exact hs ▸ effect_goto (by rw [hph]; exact iff_of_true rfl trivial)
      | succ beats =>
        cases lost with
        | true =>
          simp only [hph, Option.some.injEq] at hs
          exact hs ▸ effect_goto (by rw [hph]; exact iff_of_true rfl trivial)
        | false =>
          cases hlock : s.lock with
          | none =>
            simp only [hph, hlock, Option.some.injEq] at hs
            exact hs ▸ effect_goto (by rw [hph]; exact Iff.rfl)
          | some l =>
            simp only [hph, hlock, Option.some.injEq] at hs
            exact hs ▸ ⟨_, rfl, .none rfl (by rw [hph]; exact Iff.rfl)⟩
    | some next =>
      cases beats with
      | zero =>
        simp only [hph, Option.some.injEq] at hs
        exact hs ▸ effect_goto (by rw [hph]; exact Iff.rfl)
      | succ beats =>
        cases lost with
        | true =>
          simp only [hph, Option.some.injEq] at hs
          exact hs ▸ effect_goto (by rw [hph]; exact Iff.rfl)
        | false =>
          cases hlock : s.lock with
          | none =>
            simp only [hph, hlock, Option.some.injEq] at hs
            exact hs ▸ effect_goto (by rw [hph]; exact Iff.rfl)
          | some l =>
            simp only [hph, hlock, Option.some.injEq] at hs
            exact hs ▸ ⟨_, rfl, .none rfl (by rw [hph]; exact Iff.rfl)⟩
  | beating t base next beats =>
    simp only [hph, Option.some.injEq] at hs
    exact hs ▸ effect_goto (by rw [hph]; cases next <;> exact Iff.rfl)
  | staged t base next lost =>
    cases lost with
    | true =>
      simp only [hph, Option.some.injEq] at hs
      exact hs ▸ effect_goto (by rw [hph]; exact Iff.rfl)
    | false =>
      cases hlock : s.lock with
      | none =>
        simp only [hph, hlock, Option.some.injEq] at hs
        exact hs ▸ effect_goto (by rw [hph]; exact Iff.rfl)
      | some l =>
        simp only [hph, hlock, Option.some.injEq] at hs
        exact hs ▸ ⟨_, rfl, .none rfl (by rw [hph]; exact Iff.rfl)⟩
  | fencing t base next renewed =>
    simp only [hph, Option.some.injEq] at hs
    subst hs
    split <;> exact effect_goto (by rw [hph]; exact Iff.rfl)
  | publishing t base next renewed =>
    simp only [hph, Option.some.injEq] at hs
    exact hs ▸ ⟨_, rfl, .published t base renewed hph rfl⟩
  | releasing t ok =>
    simp only [hph, Option.some.injEq] at hs
    subst hs
    split <;> exact effect_goto (by rw [hph]; exact Iff.rfl)
  | removing t ok =>
    simp only [hph, Option.some.injEq] at hs
    exact hs ▸ ⟨_, rfl, .none rfl (by rw [hph]; exact Iff.rfl)⟩
  | finished ok =>
    simp only [hph] at hs
    cases hs

theorem effect_fail {c : Nat} (hs : s.fail c = some s') :
    ∃ ph, s'.phases = Function.update s.phases c ph ∧ s'.file = s.file ∧
      (ph.Completed ↔ (s.phases c).Completed) := by
  unfold RegistryState.fail at hs
  split at hs
  · rename_i hph
    cases hs
    exact ⟨_, rfl, rfl, by rw [hph]; exact iff_of_false Bool.false_ne_true not_false⟩
  · rename_i hph
    cases hs
    exact ⟨_, rfl, rfl, by rw [hph]; exact iff_of_false Bool.false_ne_true not_false⟩
  · cases hs

variable {file : ProjectsFile} {order : List Nat}

theorem Serial.same (h : Serial eff file s order) {c : Nat} {ph : RegistryPhase}
    (hphases : s'.phases = Function.update s.phases c ph) (hfile : s'.file = s.file)
    (hsame : ph.Completed ↔ (s.phases c).Completed) : Serial eff file s' order := by
  refine ⟨hfile.trans h.file, h.nodup, fun p => ?_⟩
  rw [hphases, h.completed]
  by_cases hp : p = c
  · subst hp
    rw [Function.update_self]
    exact hsame.symm
  · rw [Function.update_of_ne hp]

theorem Serial.complete (h : Serial eff file s order) {c : Nat} {ph : RegistryPhase}
    (hphases : s'.phases = Function.update s.phases c ph) (hfile : s'.file = (eff c s.file).getD s.file)
    (hbefore : ¬ (s.phases c).Completed) (hdone : ph.Completed) : Serial eff file s' (order ++ [c]) := by
  have hnot : c ∉ order := fun hc => hbefore ((h.completed c).1 hc)
  refine ⟨?_, ?_, fun p => ?_⟩
  · rw [hfile, List.foldl_append, ← h.file]
    rfl
  · exact List.Nodup.append h.nodup (List.nodup_singleton c) (List.disjoint_singleton.2 hnot)
  · rw [hphases, List.mem_append, List.mem_singleton, h.completed]
    by_cases hp : p = c
    · subst hp
      rw [Function.update_self]
      exact iff_of_true (.inr rfl) hdone
    · rw [Function.update_of_ne hp, or_iff_left hp]

/-- A step either leaves the registry, or is the operation of its caller on it. -/
theorem serial_effect (h : RegistryInv eff s) (hser : Serial eff file s order) {c : Nat}
    (hprompt : Prompt s (.proceed c)) (hreads : ∀ t, s.phases c = .holding t → (calls c).publishes s.file = eff c s.file)
    {ph : RegistryPhase} (hphases : s'.phases = Function.update s.phases c ph)
    (heffect : RegistryEffect calls s c s'.file ph) : ∃ order, Serial eff file s' order := by
  cases heffect with
  | none hfile hsame => exact ⟨order, hser.same hphases hfile hsame⟩
  | unchanged t hph hnone hfile hdone =>
    refine ⟨order ++ [c], hser.complete hphases ?_ (by rw [hph]; exact not_false) hdone⟩
    rw [← hreads t hph, hnone]
    exact hfile
  | published t base renewed hph hdone =>
    refine ⟨order ++ [c], hser.complete hphases ?_ (by rw [hph]; exact not_false) hdone⟩
    -- it renames while the lock is its own, so the registry is the one it read
    have hme := h.phases c
    rw [hph] at hme
    obtain ⟨l, hl, hlt, -⟩ := hme.2 (hprompt t base s'.file renewed hph)
    rw [hme.1.2 l hl hlt, ← hme.1.1]
    rfl

theorem serial_step (h : RegistryInv eff s) (hser : Serial eff file s order) {a : RegistryAct}
    (hok : Fenced calls eff s a) (hs : s.step calls a = some s') : ∃ order, Serial eff file s' order := by
  cases a with
  | wait ms =>
    cases hs
    exact ⟨order, hser.file, hser.nodup, hser.completed⟩
  | proceed c =>
    obtain ⟨ph, hphases, heffect⟩ := effect_proceed hs
    exact serial_effect h hser hok.prompt (hok.reads c rfl) hphases heffect
  | fail c =>
    obtain ⟨ph, hphases, hfile, hsame⟩ := effect_fail hs
    exact ⟨order, hser.same hphases hfile hsame⟩

theorem serial_run {left : Option {l : RegistryLock // l.mtime ≤ now}}
    (hrun : Run (RegistryState.step calls) (Fenced calls eff) (registryStart file now left) s) :
    ∃ order, Serial eff file s order := by
  have hinv : RegistryInv eff s ∧ ∃ order, Serial eff file s order := by
    refine Run.invariant (P := fun s => RegistryInv eff s ∧ ∃ order, Serial eff file s order) hrun ?_ ?_
    · refine ⟨registryInv_start file now left, [], rfl, List.nodup_nil, fun c => ?_⟩
      exact iff_of_false List.not_mem_nil not_false
    · rintro s a s' ⟨h, order, hser⟩ hok hs
      exact ⟨registryInv_step h hok hs, serial_step h hser hok hs⟩
  exact hinv.2

theorem whole_apply (call : LockedCall) (f : ProjectsFile) :
    ((call.whole.writes f).map fun next => ProjectsFile.text (some (projectsJson next))).getD f = call.whole.apply f := by
  unfold RegistryCall.apply
  cases call.whole.writes f with
  | none => rfl
  | some next => rfl

/-- If every rename comes within the lease of its last renewal and every unlink meets the file it
was decided on, the registry is the initial one after the completed operations in some order; with
their look-ups made at their place in that order, if those made before the lock agree. -/
theorem registrations_serialize (calls : Nat → LockedCall) (file : ProjectsFile) (now : Nat)
    (left : Option {l : RegistryLock // l.mtime ≤ now}) :
    (∀ s, Run (RegistryState.step calls) (fun s a => Prompt s a ∧ MeetsChecked s a) (registryStart file now left) s →
      ∃ order : List Nat, order.Nodup ∧ (∀ c, c ∈ order ↔ (s.phases c).Completed) ∧
        s.file = order.foldl (fun f c => ((calls c).publishes f).getD f) file) ∧
      ∀ s, Run (RegistryState.step calls) (fun s a => Prompt s a ∧ MeetsChecked s a ∧ LooksAgree calls s a)
          (registryStart file now left) s →
        ∃ order : List Nat, order.Nodup ∧ (∀ c, c ∈ order ↔ (s.phases c).Completed) ∧
          s.file = order.foldl (fun f c => (calls c).whole.apply f) file := by
  constructor
  · intro s hrun
    obtain ⟨order, hser⟩ := @serial_run (fun c => (calls c).publishes) calls s file now left
      (hrun.mono fun s a hok => ⟨hok.1, hok.2, fun _ _ _ _ => rfl⟩)
    exact ⟨order, hser.nodup, hser.completed, hser.file⟩
  · intro s hrun
    obtain ⟨order, hser⟩ := @serial_run
      (fun c f => ((calls c).whole.writes f).map fun next => .text (some (projectsJson next))) calls s file now left
      (hrun.mono fun s a hok => ⟨hok.1, hok.2.1, by
        rintro c rfl t hph
        exact hok.2.2 t hph⟩)
    refine ⟨order, hser.nodup, hser.completed, ?_⟩
    rw [hser.file]
    congr 1
    funext f c
    exact whole_apply (calls c) f

/-! ## A lost registration -/

/-- `/r1` for caller 0, `/r2` for the others. -/
def twoRegistrations (c : Nat) : LockedCall :=
  ⟨posixHost, .register (if c = 0 then ascii "/r1" else ascii "/r2") none [], [], true⟩

/-- Caller 0 stalls before its last renewal for as long as the lease, and resumes between caller 1's
second `stat` and its unlink. -/
def lateUnlink : List RegistryAct :=
  List.replicate 7 (.proceed 0) ++ List.replicate 4 (.proceed 1) ++ [.wait 5000] ++ List.replicate 4 (.proceed 1) ++
    List.replicate 3 (.proceed 0) ++ List.replicate 5 (.proceed 1) ++ List.replicate 2 (.proceed 0) ++
    List.replicate 8 (.proceed 1)

def isPrompt (s : RegistryState) : RegistryAct → Bool
  | .wait _ => true
  | .fail _ => false
  | .proceed c => c < 2 && match s.phases c with
    | .publishing _ _ _ renewed => s.clock < renewed + registryLockStaleMs
    | _ => true

theorem prompt_of_isPrompt {a : RegistryAct} (h : isPrompt s a = true) :
    Prompt s a ∧ ∀ c, 2 ≤ c → a ≠ .proceed c ∧ a ≠ .fail c := by
  cases a with
  | wait ms => exact ⟨trivial, fun c _ => ⟨by simp, by simp⟩⟩
  | fail c => cases h
  | proceed c =>
    simp only [isPrompt, Bool.and_eq_true, decide_eq_true_eq] at h
    refine ⟨fun t base next renewed hph => ?_, fun p hp => ⟨fun heq => ?_, by simp⟩⟩
    · rw [hph] at h
      exact of_decide_eq_true h.2
    · cases heq
      omega

/-- A step moves nobody else. -/
theorem phases_step {a : RegistryAct} {c : Nat} (hc : a ≠ .proceed c ∧ a ≠ .fail c) (hs : s.step calls a = some s') :
    s'.phases c = s.phases c := by
  cases a with
  | wait ms =>
    cases hs
    rfl
  | proceed p =>
    obtain ⟨ph, hphases, -⟩ := effect_proceed hs
    have hne : c ≠ p := fun heq => hc.1 (heq ▸ rfl)
    rw [hphases, Function.update_of_ne hne]
  | fail p =>
    obtain ⟨ph, hphases, -⟩ := effect_fail hs
    have hne : c ≠ p := fun heq => hc.2 (heq ▸ rfl)
    rw [hphases, Function.update_of_ne hne]

theorem completed_of_returned {ph : RegistryPhase} (h : ph.returned = true) : ph.Completed := by
  cases ph <;> first | exact h | cases h

theorem registration_lost :
    ∃ s, Run (RegistryState.step twoRegistrations) Prompt (registryStart .absent 0 none) s ∧
      (∀ c, (s.phases c).Completed ↔ c = 0 ∨ c = 1) ∧
      (s.phases 0).returned = true ∧ (s.phases 1).returned = true ∧
      readRegistryRaw posixHost s.file true = [plainRow "r2" "/r2"] ∧
      ∀ order : List Nat, order.Nodup → (∀ c, c ∈ order ↔ (s.phases c).Completed) →
        s.file ≠ order.foldl (fun f c => ((twoRegistrations c).publishes f).getD f) .absent := by
  have hresult : (runAll (RegistryState.step twoRegistrations) isPrompt (registryStart .absent 0 none) lateUnlink).map
      (fun s => ((s.phases 0).returned, (s.phases 1).returned, readRegistryRaw posixHost s.file true)) =
        some (true, true, [plainRow "r2" "/r2"]) := by decide +kernel
  obtain ⟨s, hs, hfinal⟩ := Option.map_eq_some_iff.1 hresult
  simp only [Prod.mk.injEq] at hfinal
  obtain ⟨hfirst, hsecond, hrows⟩ := hfinal
  have hrun := @run_of_runAll _ _ _ (fun s a => Prompt s a ∧ ∀ c, 2 ≤ c → a ≠ .proceed c ∧ a ≠ .fail c) _
    (fun _ _ h => prompt_of_isPrompt h) _ _ _ hs
  have houtside : ∀ c, 2 ≤ c → s.phases c = .outside := by
    refine Run.invariant (P := fun s => ∀ c, 2 ≤ c → s.phases c = .outside) hrun (fun _ _ => rfl) ?_
    exact fun s a s' hpre hok hstep c hc => (phases_step (hok.2 c hc) hstep).trans (hpre c hc)
  have hcompleted : ∀ c, (s.phases c).Completed ↔ c = 0 ∨ c = 1 := by
    intro c
    by_cases hc : 2 ≤ c
    · rw [houtside c hc]
      exact iff_of_false not_false (by omega)
    · obtain rfl | rfl : c = 0 ∨ c = 1 := by omega
      · exact iff_of_true (completed_of_returned hfirst) (.inl rfl)
      · exact iff_of_true (completed_of_returned hsecond) (.inr rfl)
  refine ⟨s, hrun.mono fun _ _ h => h.1, hcompleted, hfirst, hsecond, hrows, fun order hnodup hmem hfile => ?_⟩
  have hperm : order.Perm [0, 1] := by
    refine (List.perm_ext_iff_of_nodup hnodup (by decide)).2 fun c => ?_
    rw [hmem, hcompleted]
    simp
  obtain ⟨a, b, rfl⟩ := List.length_eq_two.1 hperm.length_eq
  have hpair : a = 0 ∧ b = 1 ∨ a = 1 ∧ b = 0 := by
    have ha := hperm.subset (a := a) (by simp)
    have hb := hperm.subset (a := b) (by simp)
    simp only [List.mem_cons, List.not_mem_nil, or_false, List.nodup_cons] at ha hb hnodup
    omega
  rw [hfile] at hrows
  -- in either order both repositories are registered
  obtain ⟨rfl, rfl⟩ | ⟨rfl, rfl⟩ := hpair
  · revert hrows
    decide +kernel
  · revert hrows
    decide +kernel

end Hayven.Daemon
