import Hayven.Util.FileLock
import Mathlib.Tactic.Tauto
/-!
# Mutual exclusion of the file lock

While no caller enters between another's read and the unlink that read was for, the
lock file carries the token of whoever is inside (`LockInv`), so nobody else gets in and
nobody's unlink meets a holder's file. Entering there is where exclusion is lost: the
unlink then deletes the file of the caller that entered (`lock_safe_iff`).
-/
open Hayven.Lib

namespace Hayven.Util

/-- The token of a caller's own attempt. -/
def Phase.ownToken : Phase → Option Token
  | .created t | .written t | .inside t | .touching t | .leaving t => some t
  | _ => none

theorem Phase.ownToken_of_inside {ph : Phase} {t : Token} (h : ph.insideToken = some t) : ph.ownToken = some t := by
  cases ph <;> first | exact h | cases h

theorem Phase.unlinks_of_inside {ph : Phase} {t : Token} (h : ph.insideToken = some t) : ph.unlinks = false := by
  cases ph <;> first | rfl | cases h

structure LockInv (env : LockEnv) (s : LockState) : Prop where
  issued : ∀ c t, (s.callers c).phase.ownToken = some t → t.serial < s.issued
  own : ∀ c t, (s.callers c).phase.ownToken = some t → t.pid = env.pid c
  unique : ∀ c c' t, (s.callers c).phase.ownToken = some t → (s.callers c').phase.ownToken = some t → c = c'
  held : ∀ c t, Inside env s c t → s.read = .token t
  unlinking : ∀ q, Alive env s q → (s.callers q).phase.unlinks = true → ∀ p t, ¬ Inside env s p t
  judged : ∀ q t, Alive env s q → (s.callers q).phase = .reclaiming (.token t) → ∀ p, ¬ Inside env s p t

variable {env : LockEnv} {s s' : LockState}

theorem lockInv_start (file : Option LockFile) (dead : List Nat) (issued : Nat) :
    LockInv env (lockStart file dead issued) := by
  have hinside : ∀ c t, ¬ Inside env (lockStart file dead issued) c t := by
    rintro c t ⟨-, hin⟩
    cases hin
  constructor
  · intro c t ht; cases ht
  · intro c t ht; cases ht
  · intro c c' t ht _; cases ht
  · exact fun c t ht => absurd ht (hinside c t)
  · exact fun _ _ _ p t => hinside p t
  · exact fun _ t _ _ p => hinside p t

/-! ## One caller moves -/

theorem callers_move_self (c : Nat) (me : Caller) (file : Option LockFile) : (s.move c me file).callers c = me :=
  Function.update_self ..

theorem callers_move_ne {c p : Nat} (h : p ≠ c) (me : Caller) (file : Option LockFile) :
    (s.move c me file).callers p = s.callers p := Function.update_of_ne h ..

theorem inside_move_ne {c p : Nat} (h : p ≠ c) {me : Caller} {file : Option LockFile} {t : Token} :
    Inside env (s.move c me file) p t ↔ Inside env s p t := by
  unfold Inside Alive
  rw [callers_move_ne h]
  rfl

theorem inside_move_self {c : Nat} {me : Caller} {file : Option LockFile} {t : Token} :
    Inside env (s.move c me file) c t ↔ Alive env s c ∧ me.phase.insideToken = some t := by
  unfold Inside
  rw [callers_move_self]
  rfl

/-- What a move must respect to keep the invariant. -/
structure SafeMove (env : LockEnv) (s : LockState) (c : Nat) (me : Caller) (file : Option LockFile) : Prop where
  token : ∀ t, me.phase.ownToken = some t → (s.callers c).phase.ownToken = some t
  held : ∀ p t, p ≠ c → Inside env s p t → (s.move c me file).read = .token t
  heldSelf : ∀ t, me.phase.insideToken = some t → (s.move c me file).read = .token t
  enters : ∀ t, me.phase.insideToken = some t → ∀ q, q ≠ c → Alive env s q →
    (s.callers q).phase.unlinks = false ∧ (s.callers q).phase ≠ .reclaiming (.token t)
  unlinking : me.phase.unlinks = true → ∀ p t, p ≠ c → ¬ Inside env s p t
  judged : ∀ t, me.phase = .reclaiming (.token t) → ∀ p, p ≠ c → ¬ Inside env s p t

theorem LockInv.move (h : LockInv env s) {c : Nat} {me : Caller} {file : Option LockFile}
    (hm : SafeMove env s c me file) : LockInv env (s.move c me file) := by
  have htoken : ∀ p t, ((s.move c me file).callers p).phase.ownToken = some t → (s.callers p).phase.ownToken = some t := by
    intro p t ht
    by_cases hp : p = c
    · subst hp
      rw [callers_move_self] at ht
      exact hm.token t ht
    · rwa [callers_move_ne hp] at ht
  constructor
  · exact fun p t ht => h.issued p t (htoken p t ht)
  · exact fun p t ht => h.own p t (htoken p t ht)
  · exact fun p q t hp hq => h.unique p q t (htoken p t hp) (htoken q t hq)
  · intro p t hp
    by_cases hpc : p = c
    · subst hpc
      exact hm.heldSelf t (inside_move_self.1 hp).2
    · exact hm.held p t hpc ((inside_move_ne hpc).1 hp)
  · intro q hq hunl p t hp
    by_cases hqc : q = c
    · subst hqc
      rw [callers_move_self] at hunl
      by_cases hpq : p = q
      · subst hpq
        rw [Phase.unlinks_of_inside (inside_move_self.1 hp).2] at hunl
        cases hunl
      · exact hm.unlinking hunl p t hpq ((inside_move_ne hpq).1 hp)
    · rw [callers_move_ne hqc] at hunl
      by_cases hpc : p = c
      · subst hpc
        have := (hm.enters t (inside_move_self.1 hp).2 q hqc hq).1
        rw [hunl] at this
        cases this
      · exact h.unlinking q hq hunl p t ((inside_move_ne hpc).1 hp)
  · intro q t hq hph p hp
    by_cases hqc : q = c
    · subst hqc
      rw [callers_move_self] at hph
      by_cases hpq : p = q
      · subst hpq
        have hin := (inside_move_self.1 hp).2
        rw [hph] at hin
        cases hin
      · exact hm.judged t hph p hpq ((inside_move_ne hpq).1 hp)
    · rw [callers_move_ne hqc] at hph
      by_cases hpc : p = c
      · subst hpc
        exact (hm.enters t (inside_move_self.1 hp).2 q hqc hq).2 hph
      · exact h.judged q t hq hph p ((inside_move_ne hpc).1 hp)

/-- A move that leaves the file and ends outside. -/
theorem SafeMove.outside (h : LockInv env s) {c : Nat} {me : Caller}
    (htoken : ∀ t, me.phase.ownToken = some t → (s.callers c).phase.ownToken = some t)
    (hin : me.phase.insideToken = none)
    (hunl : me.phase.unlinks = true → ∀ p t, p ≠ c → ¬ Inside env s p t)
    (hjudged : ∀ t, me.phase = .reclaiming (.token t) → ∀ p, p ≠ c → ¬ Inside env s p t) :
    SafeMove env s c me s.file := by
  refine ⟨htoken, fun p t _ hp => h.held p t hp, ?_, ?_, hunl, hjudged⟩
  · intro t ht
    rw [hin] at ht
    cases ht
  · intro t ht
    rw [hin] at ht
    cases ht

/-- A move that leaves the file and ends neither inside nor on the way to an unlink. -/
theorem SafeMove.quiet (h : LockInv env s) {c : Nat} {me : Caller}
    (htoken : ∀ t, me.phase.ownToken = some t → (s.callers c).phase.ownToken = some t)
    (hin : me.phase.insideToken = none) (hunl : me.phase.unlinks = false)
    (hjudged : ∀ e, me.phase ≠ .reclaiming e) : SafeMove env s c me s.file := by
  apply SafeMove.outside h htoken hin
  · intro hu
    rw [hunl] at hu
    cases hu
  · exact fun t ht => absurd ht (hjudged _)

/-- A move from before an unlink to outside, whatever becomes of the file. -/
theorem SafeMove.unlinked (h : LockInv env s) {c : Nat} (halive : Alive env s c)
    (hunl : (s.callers c).phase.unlinks = true) {me : Caller} (file : Option LockFile)
    (hme : me.phase = .retrying ∨ me.phase = .outside) : SafeMove env s c me file := by
  constructor
  · intro t ht
    rcases hme with hme | hme <;> rw [hme] at ht <;> cases ht
  · exact fun p t _ hp => absurd hp (h.unlinking c halive hunl p t)
  · intro t ht
    rcases hme with hme | hme <;> rw [hme] at ht <;> cases ht
  · intro t ht
    rcases hme with hme | hme <;> rw [hme] at ht <;> cases ht
  · intro ht
    rcases hme with hme | hme <;> rw [hme] at ht <;> cases ht
  · intro t ht
    rcases hme with hme | hme <;> rw [hme] at ht <;> cases ht

/-- A holder stays inside, and the file keeps what it says. -/
theorem SafeMove.stays (h : LockInv env s) {c : Nat} (halive : Alive env s c) {t : Token}
    (hin : (s.callers c).phase.insideToken = some t) {me : Caller} {file : Option LockFile}
    (hme : me.phase.insideToken = some t) (hread : (s.move c me file).read = s.read) : SafeMove env s c me file := by
  constructor
  · intro u hu
    rw [← hu, Phase.ownToken_of_inside hin, Phase.ownToken_of_inside hme]
  · intro p u _ hp
    rw [hread]
    exact h.held p u hp
  · intro u hu
    obtain rfl : t = u := Option.some.inj (hme.symm.trans hu)
    rw [hread]
    exact h.held c t ⟨halive, hin⟩
  · intro u hu q _ hq
    obtain rfl : t = u := Option.some.inj (hme.symm.trans hu)
    constructor
    · cases hunl : (s.callers q).phase.unlinks with
      | false => rfl
      | true => exact absurd ⟨halive, hin⟩ (h.unlinking q hq hunl c t)
    · exact fun hph => h.judged q t hq hph c ⟨halive, hin⟩
  · intro hunl
    rw [Phase.unlinks_of_inside hme] at hunl
    cases hunl
  · intro u hu
    rw [hu] at hme
    cases hme

/-- With no file there is nobody inside. -/
theorem LockInv.none_inside (h : LockInv env s) (hfile : s.file = none) (p : Nat) (t : Token) : ¬ Inside env s p t := by
  intro hp
  have hread := h.held p t hp
  unfold LockState.read at hread
  rw [hfile] at hread
  cases hread

/-- Nobody else is inside while a caller's own token is in the file. -/
theorem LockInv.alone (h : LockInv env s) {c : Nat} {t : Token} (hown : (s.callers c).phase.ownToken = some t)
    (hread : s.read = .token t) {p : Nat} {u : Token} (hp : Inside env s p u) : p = c := by
  have htu : Content.token u = .token t := (h.held p u hp).symm.trans hread
  obtain rfl := Content.token.inj htu
  exact h.unique p c u (Phase.ownToken_of_inside hp.2) hown

theorem LockInv.mutuallyExclusive (h : LockInv env s) : MutuallyExclusive env s := by
  intro p q t u hp hq
  exact h.alone (Phase.ownToken_of_inside hq.2) (h.held q u hq) hp

theorem LockInv.not_deletesHeld (h : LockInv env s) (a : LockAct) : ¬ DeletesHeld env s a := by
  rintro ⟨c, _, -, halive, hunl, p, t, -, hp, -⟩
  exact h.unlinking c halive hunl p t hp

/-! ## The steps -/

/-- A new token belongs to nobody. -/
theorem LockInv.issue (h : LockInv env s) : LockInv env { s with issued := s.issued + 1 } :=
  ⟨fun c t ht => Nat.lt_succ_of_lt (h.issued c t ht), h.own, h.unique, h.held, h.unlinking, h.judged⟩

theorem LockInv.create (h : LockInv env s) (hfile : s.file = none) (c : Nat) (w : Watch) (time : Int) :
    LockInv env { s.move c ⟨.created ⟨env.pid c, s.issued⟩, w⟩ (some ⟨⟨env.pid c, s.issued⟩, false, time⟩) with
      issued := s.issued + 1 } := by
  have hfresh : ∀ p, (s.callers p).phase.ownToken ≠ some ⟨env.pid c, s.issued⟩ := by
    intro p hp
    exact Nat.lt_irrefl _ (h.issued p _ hp)
  have hcallers : ∀ p, (Function.update s.callers c ⟨.created ⟨env.pid c, s.issued⟩, w⟩ p).phase.ownToken =
      if p = c then some ⟨env.pid c, s.issued⟩ else (s.callers p).phase.ownToken := by
    intro p
    by_cases hp : p = c
    · subst hp; simp [Phase.ownToken]
    · simp [hp]
  have hnobody : ∀ p t, ¬ Inside env { s.move c ⟨.created ⟨env.pid c, s.issued⟩, w⟩
      (some ⟨⟨env.pid c, s.issued⟩, false, time⟩) with issued := s.issued + 1 } p t := by
    intro p t hp
    by_cases hpc : p = c
    · subst hpc
      cases (inside_move_self.1 (show Inside env (s.move p ⟨.created ⟨env.pid p, s.issued⟩, w⟩
        (some ⟨⟨env.pid p, s.issued⟩, false, time⟩)) p t from hp)).2
    · exact h.none_inside hfile p t ((inside_move_ne hpc).1 (show Inside env (s.move c
        ⟨.created ⟨env.pid c, s.issued⟩, w⟩ (some ⟨⟨env.pid c, s.issued⟩, false, time⟩)) p t from hp))
  constructor
  · intro p t ht
    rw [LockState.move, hcallers] at ht
    split at ht
    · obtain rfl := Option.some.inj ht
      exact Nat.lt_succ_self _
    · exact Nat.lt_succ_of_lt (h.issued p t ht)
  · intro p t ht
    rw [LockState.move, hcallers] at ht
    split at ht
    · rename_i hp
      obtain rfl := Option.some.inj ht
      rw [hp]
    · exact h.own p t ht
  · intro p q t hp hq
    rw [LockState.move, hcallers] at hp hq
    split at hp <;> split at hq
    · rename_i hpc hqc
      exact hpc.trans hqc.symm
    · obtain rfl := Option.some.inj hp
      exact absurd hq (hfresh q)
    · obtain rfl := Option.some.inj hq
      exact absurd hp (hfresh p)
    · exact h.unique p q t hp hq
  · exact fun p t hp => absurd hp (hnobody p t)
  · exact fun _ _ _ p t => hnobody p t
  · exact fun _ t _ _ p => hnobody p t

theorem read_writeTo {file : Option LockFile} {t u : Token} {time : Int} {n : Nat} {cs : Nat → Caller} {ds : List Nat}
    (h : (LockState.mk file cs ds n).read = .token u) {cs' : Nat → Caller} {ds' : List Nat} {n' : Nat} :
    (LockState.mk (writeTo file t time) cs' ds' n').read = .token u := by
  unfold LockState.read at h ⊢
  unfold writeTo
  cases file with
  | none => cases h
  | some f =>
    simp only [Option.map_some] at h ⊢
    split at h
    · split
      · simp_all
      · simp_all
    · cases h

theorem lockInv_proceed (h : LockInv env s) {c : Nat} {time : Int} (halive : Alive env s c)
    (hfresh : KeptFresh env s (.proceed c time)) (hentry : NoEntryBeforeUnlink env s (.proceed c time))
    (hstep : proceed env s c time = some s') : LockInv env s' := by
  unfold proceed at hstep
  cases hph : (s.callers c).phase with
  | outside =>
    simp only [hph] at hstep
    cases hstep
  | trying =>
    simp only [hph] at hstep
    obtain rfl := Option.some.inj hstep
    cases hfile : s.file with
    | none => exact h.create hfile c _ time
    | some f =>
      have hmove : LockInv env (s.move c { s.callers c with phase := .blocked } s.file) :=
        h.move (.quiet h (by simp [Phase.ownToken]) rfl rfl (by simp))
      simp only [Option.isNone_some, Bool.false_eq_true, if_false]
      rw [← hfile]
      exact hmove.issue
  | created t =>
    simp only [hph] at hstep
    obtain rfl := Option.some.inj hstep
    apply h.move
    constructor
    · intro u hu
      rw [hph]
      exact hu
    · exact fun p u _ hp => read_writeTo (h.held p u hp)
    · intro u hu; cases hu
    · intro u hu; cases hu
    · intro hu; cases hu
    · intro u hu; cases hu
  | written t =>
    simp only [hph] at hstep
    obtain rfl := Option.some.inj hstep
    by_cases hread : s.read = .token t
    · simp only [hread, if_true]
      apply h.move
      constructor
      · intro u hu
        rw [hph]
        exact hu
      · exact fun p u _ hp => h.held p u hp
      · intro u hu
        obtain rfl := Option.some.inj hu
        exact hread
      · intro u hu
        obtain rfl := Option.some.inj hu
        exact hentry t hph hread
      · intro hu; cases hu
      · intro u hu; cases hu
    · simp only [hread, if_false]
      exact h.move (.quiet h (by simp [Phase.ownToken]) rfl rfl (by simp))
  | blocked =>
    simp only [hph] at hstep
    obtain rfl := Option.some.inj hstep
    exact h.move (.quiet h (by simp [Phase.ownToken]) rfl rfl (by simp))
  | saw holder =>
    simp only [hph] at hstep
    obtain rfl := Option.some.inj hstep
    by_cases hdied : holderDied env s c holder = true
    · simp only [hdied, if_true]
      refine h.move (.outside h (by simp [Phase.ownToken]) rfl (by simp [Phase.unlinks]) ?_)
      -- the token names its holder's process, and that is dead
      intro u hu p _ hp
      obtain rfl : holder = .token u := Phase.reclaiming.inj hu
      have hpid := h.own p u (Phase.ownToken_of_inside hp.2)
      simp only [holderDied, Content.pid, hpid, Bool.and_eq_true, decide_eq_true_eq] at hdied
      exact hp.1 hdied.2
    · simp only [hdied]
      exact h.move (.quiet h (by simp [Phase.ownToken]) rfl rfl (by simp))
  | judging holder =>
    simp only [hph] at hstep
    obtain rfl := Option.some.inj hstep
    cases hstale : (judge (env.opts c) holder (s.callers c).watch (s.file.map (·.mtime)) time).2 with
    | false =>
      simp only [Bool.false_eq_true, if_false]
      exact h.move (.quiet h (by simp [Phase.ownToken]) rfl rfl (by simp))
    | true =>
      simp only [if_true]
      refine h.move (.outside h (by simp [Phase.ownToken]) rfl (by simp [Phase.unlinks]) ?_)
      intro u _ p _ hp
      have hkept := hfresh holder p u hph hp (h.held p u hp)
      rw [hstale] at hkept
      cases hkept
  | reclaiming expected =>
    simp only [hph] at hstep
    obtain rfl := Option.some.inj hstep
    by_cases hread : s.read = expected
    · simp only [hread, if_true]
      refine h.move (.outside h (by simp [Phase.ownToken]) rfl ?_ (by simp))
      intro _ p u _ hp
      have hheld := h.held p u hp
      rw [hread] at hheld
      subst hheld
      exact h.judged c u halive hph p hp
    · simp only [hread, if_false]
      exact h.move (.quiet h (by simp [Phase.ownToken]) rfl rfl (by simp))
  | unlinking =>
    simp only [hph] at hstep
    obtain rfl := Option.some.inj hstep
    exact h.move (.unlinked h halive (by rw [hph]; rfl) none (.inl rfl))
  | retrying =>
    simp only [hph] at hstep
    obtain rfl := Option.some.inj hstep
    exact h.move (.quiet h (by simp [Phase.ownToken]) rfl rfl (by simp))
  | inside t =>
    simp only [hph] at hstep
    obtain rfl := Option.some.inj hstep
    refine h.move (.quiet h ?_ rfl rfl (by simp))
    intro u hu
    rw [hph]
    exact hu
  | touching t =>
    simp only [hph] at hstep
    obtain rfl := Option.some.inj hstep
    refine h.move (.stays h halive (t := t) ?_ rfl ?_)
    · rw [hph]; rfl
    · unfold LockState.read
      cases s.file <;> rfl
  | leaving t =>
    simp only [hph] at hstep
    obtain rfl := Option.some.inj hstep
    by_cases hread : s.read = .token t
    · simp only [hread, if_true]
      refine h.move (.outside h (by simp [Phase.ownToken]) rfl ?_ (by simp))
      intro _ p u hpc hp
      exact hpc (h.alone (by rw [hph]; rfl) hread hp)
    · simp only [hread, if_false]
      exact h.move (.quiet h (by simp [Phase.ownToken]) rfl rfl (by simp))
  | releasing =>
    simp only [hph] at hstep
    obtain rfl := Option.some.inj hstep
    exact h.move (.unlinked h halive (by rw [hph]; rfl) none (.inr rfl))

theorem lockInv_fail (h : LockInv env s) {c : Nat} (halive : Alive env s c) (hstep : fail s c = some s') :
    LockInv env s' := by
  unfold fail at hstep
  cases hph : (s.callers c).phase with
  | trying | created =>
    simp only [hph] at hstep
    obtain rfl := Option.some.inj hstep
    exact h.move (.quiet h (by simp [Phase.ownToken]) rfl rfl (by simp))
  | unlinking =>
    simp only [hph] at hstep
    obtain rfl := Option.some.inj hstep
    exact h.move (.unlinked h halive (by rw [hph]; rfl) s.file (.inl rfl))
  | touching t =>
    simp only [hph] at hstep
    obtain rfl := Option.some.inj hstep
    exact h.move (.stays h halive (t := t) (by rw [hph]; rfl) rfl rfl)
  | releasing =>
    simp only [hph] at hstep
    obtain rfl := Option.some.inj hstep
    exact h.move (.unlinked h halive (by rw [hph]; rfl) s.file (.inr rfl))
  | _ =>
    simp only [hph] at hstep
    cases hstep

theorem lockInv_step (h : LockInv env s) {a : LockAct} (hfresh : KeptFresh env s a) (hentry : NoEntryBeforeUnlink env s a)
    (hstep : lockStep env s a = some s') : LockInv env s' := by
  cases a with
  | call c =>
    simp only [lockStep] at hstep
    split at hstep
    · cases hstep
    · obtain rfl := Option.some.inj hstep
      exact h.move (.quiet h (by simp [Phase.ownToken]) rfl rfl (by simp))
  | proceed c time =>
    simp only [lockStep] at hstep
    split at hstep
    · cases hstep
    · rename_i halive
      exact lockInv_proceed h halive hfresh hentry hstep
  | fail c =>
    simp only [lockStep] at hstep
    split at hstep
    · cases hstep
    · rename_i halive
      exact lockInv_fail h halive hstep
  | touch c =>
    simp only [lockStep] at hstep
    split at hstep
    · cases hstep
    · rename_i halive
      cases hph : (s.callers c).phase with
      | inside t =>
        simp only [hph] at hstep
        obtain rfl := Option.some.inj hstep
        split
        · exact h.move (.stays h halive (t := t) (by rw [hph]; rfl) rfl rfl)
        · exact h
      | _ =>
        simp only [hph] at hstep
        cases hstep
  | giveUp c =>
    simp only [lockStep] at hstep
    split at hstep
    · cases hstep
    · obtain rfl := Option.some.inj hstep
      exact h.move (.quiet h (by simp [Phase.ownToken]) rfl rfl (by simp))
  | die pid =>
    obtain rfl := Option.some.inj hstep
    have halive : ∀ q, Alive env { s with dead := pid :: s.dead } q → Alive env s q :=
      fun q hq hdead => hq (List.mem_cons_of_mem _ hdead)
    have hinside : ∀ p t, Inside env { s with dead := pid :: s.dead } p t → Inside env s p t :=
      fun p t hp => ⟨halive p hp.1, hp.2⟩
    exact ⟨h.issued, h.own, h.unique, fun p t hp => h.held p t (hinside p t hp),
      fun q hq hu p t hp => h.unlinking q (halive q hq) hu p t (hinside p t hp),
      fun q t hq hph p hp => h.judged q t (halive q hq) hph p (hinside p t hp)⟩

/-! ## Runs -/

def LockSafe (env : LockEnv) (s : LockState) : Prop := MutuallyExclusive env s ∧ ∀ a, ¬ DeletesHeld env s a

def Orderly (env : LockEnv) (s : LockState) (a : LockAct) : Prop := KeptFresh env s a ∧ NoEntryBeforeUnlink env s a

theorem lockInv_run {start : LockState} (hstart : LockInv env start) (hrun : Run (lockStep env) (Orderly env) start s) :
    LockInv env s :=
  hrun.invariant hstart fun _ _ _ h hok hstep => lockInv_step h hok.1 hok.2 hstep

/-- Entering before another's unlink leaves that unlink to delete the entered file. -/
theorem deletesHeld_of_entry {a : LockAct} (hentry : ¬ NoEntryBeforeUnlink env s a) (hstep : lockStep env s a = some s') :
    ∃ s'' a', Run (lockStep env) (KeptFresh env) s' s'' ∧ DeletesHeld env s'' a' ∧ (lockStep env s'' a').isSome = true := by
  cases a with
  | proceed c time =>
    simp only [NoEntryBeforeUnlink, not_forall, exists_prop] at hentry
    obtain ⟨t, hph, hread, q, hqc, hq, hgap⟩ := hentry
    have halive : env.pid c ∉ s.dead := by
      intro hdead
      simp only [lockStep, hdead, if_true] at hstep
      cases hstep
    simp only [lockStep, halive, if_false, proceed, hph, hread, if_true] at hstep
    obtain rfl := Option.some.inj hstep
    have hinside : ∀ {me file}, Inside env ((s.move c ⟨.inside t, (s.callers c).watch⟩ s.file).move q me file) c t := by
      intro me file
      rw [inside_move_ne (Ne.symm hqc), inside_move_self]
      exact ⟨halive, rfl⟩
    have hnow : ((s.move c ⟨.inside t, (s.callers c).watch⟩ s.file).callers q) = s.callers q := callers_move_ne hqc _ _
    have hdead : env.pid q ∉ (s.move c ⟨.inside t, (s.callers c).watch⟩ s.file).dead := hq
    by_cases hunl : (s.callers q).phase.unlinks = true
    · -- the unlink comes next
      refine ⟨_, .proceed q 0, .refl, ⟨q, 0, rfl, hq, by rw [hnow]; exact hunl, c, t, Ne.symm hqc, ?_, hread⟩, ?_⟩
      · rw [inside_move_self]
        exact ⟨halive, rfl⟩
      · simp only [lockStep, hdead, if_false, proceed, hnow]
        cases hq' : (s.callers q).phase <;> rw [hq'] at hunl <;> first | rfl | cases hunl
    · -- the token still matches, then the unlink comes
      have hph' : (s.callers q).phase = .reclaiming (.token t) := by
        by_contra hne
        exact hgap ⟨by simpa using hunl, hne⟩
      refine ⟨(s.move c ⟨.inside t, (s.callers c).watch⟩ s.file).move q ⟨.unlinking, (s.callers q).watch⟩ s.file,
        .proceed q 0, Run.single (a := .proceed q 0) ?_ ?_, ?_, ?_⟩
      · intro holder p u hjudging
        rw [hnow, hph'] at hjudging
        cases hjudging
      · simp only [lockStep, hdead, if_false, proceed, hnow, hph']
        rw [if_pos (show (s.move c ⟨.inside t, (s.callers c).watch⟩ s.file).read = .token t from hread)]
        rfl
      · exact ⟨q, 0, rfl, hq, by rw [callers_move_self]; rfl, c, t, Ne.symm hqc, hinside, hread⟩
      · have hdead' : env.pid q ∉ ((s.move c ⟨.inside t, (s.callers c).watch⟩ s.file).move q
            ⟨.unlinking, (s.callers q).watch⟩ s.file).dead := hq
        simp only [lockStep, hdead', if_false, proceed, callers_move_self]
        rfl
  | _ => exact absurd trivial hentry

/-- Runs in which nobody enters between a read and its unlink keep the lock safe, and a
step that does so is followed by an unlink of a held file. -/
theorem lock_safe_iff (env : LockEnv) (file : Option LockFile) (dead : List Nat) (issued : Nat) :
    (∀ s, Run (lockStep env) (Orderly env) (lockStart file dead issued) s → LockSafe env s) ∧
      ∀ s a s', Run (lockStep env) (Orderly env) (lockStart file dead issued) s → ¬ NoEntryBeforeUnlink env s a →
        lockStep env s a = some s' →
          ∃ s'' a', Run (lockStep env) (KeptFresh env) s' s'' ∧ (lockStep env s'' a').isSome = true ∧
            DeletesHeld env s'' a' := by
  constructor
  · intro s hrun
    have h := lockInv_run (lockInv_start file dead issued) hrun
    exact ⟨h.mutuallyExclusive, h.not_deletesHeld⟩
  · intro s a s' _ hentry hstep
    obtain ⟨s'', a', hrun, hdel, hsome⟩ := deletesHeld_of_entry hentry hstep
    exact ⟨s'', a', hrun, hsome, hdel⟩

/-! ## Two reclaimers of a dead holder -/

/-- Three processes, one caller each. -/
def threeCallers : LockEnv := ⟨fun c => c + 1, fun _ => ⟨30000, 10000⟩⟩

/-- The step is no verdict of staleness by age. -/
def noStaleVerdict (env : LockEnv) (s : LockState) : LockAct → Bool
  | .proceed c now =>
    match (s.callers c).phase with
    | .judging holder => !(judge (env.opts c) holder (s.callers c).watch (s.file.map (·.mtime)) now).2
    | _ => true
  | _ => true

theorem keptFresh_of_noStaleVerdict {env : LockEnv} (s : LockState) (a : LockAct) (h : noStaleVerdict env s a = true) :
    KeptFresh env s a := by
  cases a with
  | proceed c now =>
    intro holder p t hph _ _
    unfold noStaleVerdict at h
    simpa [hph] using h
  | _ => trivial

/-- The holder 0 dies; 1 and 2 both read its token; 2 reclaims, creates and enters; then
1 unlinks, creates and enters. -/
def twoReclaimers : List LockAct :=
  [.call 0, .proceed 0 0, .proceed 0 0, .proceed 0 0, .die 1,
    .call 1, .proceed 1 1, .proceed 1 1, .proceed 1 1, .proceed 1 1,
    .call 2, .proceed 2 1, .proceed 2 1, .proceed 2 1, .proceed 2 1,
    .proceed 2 2, .proceed 2 2, .proceed 2 2, .proceed 2 2, .proceed 2 2,
    .proceed 1 3, .proceed 1 3, .proceed 1 3, .proceed 1 3, .proceed 1 3]

/-- Two callers end up inside. -/
theorem lock_admits_two :
    ¬ ∀ s, Run (lockStep threeCallers) (KeptFresh threeCallers) (lockStart none [] 0) s → LockSafe threeCallers s := by
  intro h
  have hend : (runAll (lockStep threeCallers) (noStaleVerdict threeCallers) (lockStart none [] 0) twoReclaimers).map
      (fun s => (s.dead, (s.callers 1).phase, (s.callers 2).phase)) =
        some ([1], .inside ⟨2, 4⟩, .inside ⟨3, 3⟩) := by decide +kernel
  obtain ⟨s, hs, hphases⟩ := Option.map_eq_some_iff.1 hend
  obtain ⟨hdead, hphases⟩ := Prod.mk.inj hphases
  obtain ⟨hone, htwo⟩ := Prod.mk.inj hphases
  have hsafe := h s (run_of_runAll keptFresh_of_noStaleVerdict _ hs)
  have halive : ∀ c, c ≠ 0 → Alive threeCallers s c := by
    intro c hc
    unfold Alive
    rw [hdead]
    simp [threeCallers, hc]
  have hsame := hsafe.1 1 2 _ _ ⟨halive 1 (by decide), by rw [hone]; rfl⟩ ⟨halive 2 (by decide), by rw [htwo]; rfl⟩
  exact absurd hsame (by decide)

end Hayven.Util
