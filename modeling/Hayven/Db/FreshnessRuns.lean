import Hayven.Db.Freshness
import Mathlib.Data.List.Infix
/-!
# When a suppressed staleness warning is justified

In every reachable state a file's time is at least its last change, and so is the time of
the nearest directory that is left of a removed file (`FreshInv`). So a source path that no
longer is what the index read is noticed, if it is in the sight of the check that decides:
`staleness_justified_iff`. It need not be: `stale_reported_fresh`.
-/
open Hayven.Lib

namespace Hayven.Db

namespace Project

/-! ## What the scan finds -/

/-- The early exit was taken only past the threshold. -/
def Flagged (t : Nat) (seen : Nat × Bool) : Prop := seen.2 = true → t < seen.1

theorem flagged_probe {t : Nat} {seen : Nat × Bool} (h : Flagged t seen) (m : Option Nat) :
    Flagged t (probe (some t) seen m) := by
  cases m with
  | none => exact h
  | some m =>
    intro hpast
    simp only [probe, Option.any_some, Bool.or_eq_true, decide_eq_true_eq] at hpast
    rcases hpast with hpast | hpast
    · exact (h hpast).trans_le (le_max_left _ _)
    · exact lt_max_of_lt_right hpast

theorem le_probe (threshold : Option Nat) (seen : Nat × Bool) (m : Option Nat) : seen.1 ≤ (probe threshold seen m).1 := by
  cases m with
  | none => exact le_rfl
  | some m => exact le_max_left _ _

theorem le_probe_some (threshold : Option Nat) (seen : Nat × Bool) (m : Nat) : m ≤ (probe threshold seen (some m)).1 :=
  le_max_right _ _

/-- What a scan returns: past the threshold if it stopped, and at least every time it saw. -/
structure Scanned (t : Nat) (seen : Nat × Bool) (times : List (Option Nat)) (result : Except Nat (Nat × Bool)) : Prop where
  stopped : ∀ n, result = .error n → t < n
  flagged : ∀ last, result = .ok last → Flagged t last
  newest : ∀ last, result = .ok last → seen.1 ≤ last.1 ∧ ∀ m, some m ∈ times → m ≤ last.1

theorem unlessPast_ok {seen last : Nat × Bool} (h : unlessPast seen = .ok last) : last = seen := by
  unfold unlessPast at h
  split at h
  · cases h
  · exact (Except.ok.inj h).symm

theorem unlessPast_error {t n : Nat} {seen : Nat × Bool} (hseen : Flagged t seen) (h : unlessPast seen = .error n) :
    t < n := by
  unfold unlessPast at h
  split at h
  · rename_i hpast
    exact Except.error.inj h ▸ hseen hpast
  · cases h

theorem scanned_probeEach {t : Nat} {seen : Nat × Bool} (hseen : Flagged t seen) (times : List (Option Nat)) :
    Scanned t seen times (probeEach (some t) seen times) := by
  induction times generalizing seen with
  | nil =>
    refine ⟨(fun n h => by cases h), fun last h => ?_, fun last h => ?_⟩
    · exact Except.ok.inj h ▸ hseen
    · exact Except.ok.inj h ▸ ⟨le_rfl, fun m hm => absurd hm List.not_mem_nil⟩
  | cons m times ih =>
    have hprobe := flagged_probe hseen m
    unfold probeEach
    cases hnext : unlessPast (probe (some t) seen m) with
    | error n =>
      refine ⟨fun n' h => ?_, (fun last h => by cases h), (fun last h => by cases h)⟩
      exact Except.error.inj h ▸ unlessPast_error hprobe hnext
    | ok next =>
      obtain rfl := unlessPast_ok hnext
      have hrest := ih hprobe
      refine ⟨hrest.stopped, hrest.flagged, fun last h => ?_⟩
      obtain ⟨hle, htimes⟩ := hrest.newest last h
      refine ⟨(le_probe _ _ _).trans hle, fun m' hm' => ?_⟩
      rcases List.mem_cons.1 hm' with rfl | hm'
      · exact (le_probe_some _ _ _).trans hle
      · exact htimes m' hm'

variable {s s' : Project}

/-- A scan that finds nothing newer has seen nothing newer. -/
theorem quiet_of_newest {cap t : Nat} (h : s.newestSourceMtimeMs cap (some t) ≤ t) :
    (∀ m, s.mtime [] = some m → m ≤ t) ∧
      (∀ name ∈ s.topLevel, name ∉ SKIP_DIRS → ∀ m, s.mtime [name] = some m → m ≤ t) ∧
      ∀ p ∈ s.listSourceFiles cap, ∀ m, s.mtime p = some m → m ≤ t := by
  unfold newestSourceMtimeMs probed at h
  dsimp only at h
  have hroot : Flagged t (probe (some t) (0, false) (s.mtime [])) := flagged_probe (fun h => by cases h) _
  have hentries := scanned_probeEach hroot
    ((s.topLevel.filter fun name => ! SKIP_DIRS.contains name).map fun name => s.mtime [name])
  cases hfirst : probeEach (some t) (probe (some t) (0, false) (s.mtime []))
      ((s.topLevel.filter fun name => ! SKIP_DIRS.contains name).map fun name => s.mtime [name]) with
  | error n =>
    rw [hfirst] at h
    exact absurd h (Nat.not_le.2 (hentries.stopped n hfirst))
  | ok seen =>
    rw [hfirst] at h
    obtain ⟨hle, htimes⟩ := hentries.newest seen hfirst
    have hgit := flagged_probe (flagged_probe (hentries.flagged seen hfirst) (some s.indexMtime)) (some s.headMtime)
    cases hsecond : unlessPast (probe (some t) (probe (some t) seen (some s.indexMtime)) (some s.headMtime)) with
    | error n =>
      simp only [Except.bind, hsecond] at h
      exact absurd h (Nat.not_le.2 (unlessPast_error hgit hsecond))
    | ok seen' =>
      simp only [Except.bind, hsecond] at h
      obtain rfl := unlessPast_ok hsecond
      have hfiles := scanned_probeEach hgit ((s.listSourceFiles cap).map s.mtime)
      have hup : seen.1 ≤ (probe (some t) (probe (some t) seen (some s.indexMtime)) (some s.headMtime)).1 :=
        (le_probe _ _ _).trans (le_probe _ _ _)
      cases hthird : probeEach (some t)
          (probe (some t) (probe (some t) seen (some s.indexMtime)) (some s.headMtime))
          ((s.listSourceFiles cap).map s.mtime) with
      | error n =>
        rw [hthird] at h
        exact absurd h (Nat.not_le.2 (hfiles.stopped n hthird))
      | ok last =>
        rw [hthird] at h
        obtain ⟨hle', htimes'⟩ := hfiles.newest last hthird
        have hlast : seen.1 ≤ t := (hup.trans hle').trans h
        refine ⟨fun m hm => ?_, fun name hname hskip m hm => ?_, fun p hp m hm => ?_⟩
        · rw [hm] at hle
          exact (le_probe_some _ _ _).trans (hle.trans hlast)
        · refine (htimes m ?_).trans hlast
          exact List.mem_map.2 ⟨name, List.mem_filter.2 ⟨hname, by simpa using hskip⟩, hm⟩
        · exact (htimes' m (List.mem_map.2 ⟨p, hp, hm⟩)).trans h

/-! ## Directories that are left -/

/-- The nearest directory there is, from a directory upward. -/
def nearestDir (dirs : KeyedMap TreePath Nat) : TreePath → TreePath
  | [] => []
  | name :: d => if dirs.has (name :: d) then name :: d else nearestDir dirs d

/-- The nearest directory's time is at least the given one. -/
def Covered (dirs : KeyedMap TreePath Nat) (d : TreePath) (time : Nat) : Prop :=
  ∃ m, dirs.get (nearestDir dirs d) = some m ∧ time ≤ m

theorem has_iff {α : Type} {m : KeyedMap TreePath α} {p : TreePath} : m.has p = true ↔ ∃ v, m.get p = some v := by
  unfold KeyedMap.has
  exact Option.isSome_iff_exists

theorem nearestDir_of_has {dirs : KeyedMap TreePath Nat} {d : TreePath} (h : dirs.has d = true) :
    nearestDir dirs d = d := by
  cases d with
  | nil => rfl
  | cons name d => exact if_pos h

theorem covered_of_get {dirs : KeyedMap TreePath Nat} {d : TreePath} {m time : Nat} (h : dirs.get d = some m)
    (hle : time ≤ m) : Covered dirs d time := by
  refine ⟨m, ?_, hle⟩
  rw [nearestDir_of_has (has_iff.2 ⟨m, h⟩), h]

/-- Directories are taken away and given later times, and the one above the ones taken away is
among the latter. -/
theorem Covered.change {dirs dirs' : KeyedMap TreePath Nat} {d : TreePath} {time : Nat} (h : Covered dirs d time)
    (hkept : ∀ e m, dirs.get e = some m → time ≤ m → ∃ m', dirs'.get (nearestDir dirs' e) = some m' ∧ time ≤ m')
    (hnew : ∀ e m, dirs.get e = none → dirs'.get e = some m → time ≤ m) : Covered dirs' d time := by
  induction d with
  | nil =>
    obtain ⟨m, hm, hle⟩ := h
    exact hkept [] m hm hle
  | cons name d ih =>
    obtain ⟨m, hm, hle⟩ := h
    by_cases hhas : dirs.has (name :: d) = true
    · rw [nearestDir_of_has hhas] at hm
      exact hkept _ m hm hle
    · rw [nearestDir, if_neg hhas] at hm
      have hnone : dirs.get (name :: d) = none := by
        by_contra hsome
        exact hhas (Option.isSome_iff_ne_none.2 hsome)
      cases hget : dirs'.get (name :: d) with
      | some m' => exact covered_of_get hget (hnew _ m' hnone hget)
      | none =>
        obtain ⟨m', hm', hle'⟩ := ih ⟨m, hm, hle⟩
        refine ⟨m', ?_, hle'⟩
        rw [nearestDir, if_neg, hm']
        rw [has_iff]
        rintro ⟨v, hv⟩
        rw [hget] at hv
        cases hv

theorem Covered.set {dirs : KeyedMap TreePath Nat} {d : TreePath} {time now : Nat} (h : Covered dirs d time)
    (hnow : time ≤ now) (e : TreePath) : Covered (dirs.set e now) d time := by
  refine h.change (fun f m hm hle => ?_) fun f m hnone hm => ?_
  · by_cases hf : e = f
    · exact covered_of_get (by rw [hf, KeyedMap.get_set_self]) hnow
    · exact covered_of_get (by rw [KeyedMap.get_set_ne _ _ hf, hm]) hle
  · by_cases hf : e = f
    · rw [hf, KeyedMap.get_set_self] at hm
      exact Option.some.inj hm ▸ hnow
    · rw [KeyedMap.get_set_ne _ _ hf, hnone] at hm
      cases hm

theorem Covered.makeDirs {dirs : KeyedMap TreePath Nat} {d : TreePath} {time now : Nat} (h : Covered dirs d time)
    (hnow : time ≤ now) (e : TreePath) : Covered (makeDirs now dirs e) d time := by
  induction e with
  | nil => exact h
  | cons name e ih =>
    unfold Hayven.Db.makeDirs
    split
    · exact h
    · exact (ih.set hnow e).set hnow _

theorem Covered.rmdir {dirs : KeyedMap TreePath Nat} {d : TreePath} {time now : Nat} (h : Covered dirs d time)
    (hnow : time ≤ now) (name : JsString) (parent : TreePath) :
    Covered ((dirs.erase (name :: parent)).set parent now) d time := by
  have hne : parent ≠ name :: parent := fun heq => by
    have := congrArg List.length heq
    simp at this
  refine h.change (fun f m hm hle => ?_) fun f m hnone hm => ?_
  · by_cases hf : parent = f
    · exact covered_of_get (by rw [hf, KeyedMap.get_set_self]) hnow
    · by_cases herased : f = name :: parent
      · -- the directory that goes leaves its parent
        subst herased
        have hgone : ¬ ((dirs.erase (name :: parent)).set parent now).has (name :: parent) = true := by
          rw [has_iff, KeyedMap.get_set_ne _ _ hne, KeyedMap.get_erase, if_pos rfl]
          rintro ⟨v, hv⟩
          cases hv
        have hparent : ((dirs.erase (name :: parent)).set parent now).get parent = some now := KeyedMap.get_set_self ..
        refine ⟨now, ?_, hnow⟩
        rw [nearestDir, if_neg hgone, nearestDir_of_has (has_iff.2 ⟨now, hparent⟩), hparent]
      · exact covered_of_get (by rw [KeyedMap.get_set_ne _ _ hf, KeyedMap.get_erase, if_neg herased, hm]) hle
  · by_cases hf : parent = f
    · rw [hf, KeyedMap.get_set_self] at hm
      exact Option.some.inj hm ▸ hnow
    · rw [KeyedMap.get_set_ne _ _ hf, KeyedMap.get_erase] at hm
      split at hm
      · cases hm
      · rw [hnone] at hm
        cases hm

/-! ## The invariant -/

structure FreshInv (accepts : TreePath → Bool) (s : Project) : Prop where
  started : 0 < s.clock
  past : ∀ p, s.changedAt p ≤ s.clock
  filed : ∀ p f, s.files.get p = some f → s.changedAt p ≤ f.mtime
  gone : ∀ p, s.files.get p = none → Covered s.dirs p.tail (s.changedAt p)
  apart : ∀ p, s.dirs.has p = true → s.files.get p = none
  readPast : ∀ p r, s.readAt p = some r → r ≤ s.clock
  agree : ∀ p r, isSource accepts p = true → s.readAt p = some r → s.changedAt p ≤ r → s.indexed p = s.content p
  began : ∀ run, s.ingest = some run → run.began ≤ s.clock
  visited : ∀ run p c r, s.ingest = some run → run.visited p = some (c, r) →
    r ≤ s.clock ∧ (s.changedAt p ≤ r → c = s.content p)
  stamped : ∀ run t, s.ingest = some run → run.stamp = some t → 0 < t ∧ (run.scope = none →
    ∀ p, isSource accepts p = true → run.visited p = none → s.changedAt p ≤ run.began → s.content p = none)
  finished : ∀ t, s.lastIngestAt = some t → 0 < t

variable {accepts : TreePath → Bool}

theorem freshInv_new (now : Nat) : FreshInv accepts (newProject (now + 1)) where
  started := Nat.succ_pos now
  past _ := Nat.zero_le _
  filed _ _ h := by cases h
  gone p _ := by
    have hroot : Covered (newProject (now + 1)).dirs [] 0 :=
      covered_of_get (KeyedMap.get_set_self KeyedMap.empty [] (now + 1)) (Nat.zero_le _)
    have hall : ∀ d : TreePath, Covered (newProject (now + 1)).dirs d 0 := by
      intro d
      induction d with
      | nil => exact hroot
      | cons name d ih =>
        have hnone : ¬ (newProject (now + 1)).dirs.has (name :: d) = true := by
          unfold newProject
          simp [KeyedMap.has, KeyedMap.get_set]
        obtain ⟨m, hm, hle⟩ := ih
        exact ⟨m, by rw [nearestDir, if_neg hnone, hm], hle⟩
    exact hall p.tail
  apart _ _ := rfl
  readPast _ _ h := by cases h
  agree _ _ _ h := by cases h
  began _ h := by cases h
  visited _ _ _ _ h := by cases h
  stamped _ _ h := by cases h
  finished _ h := by cases h

/-- Time passes, and directories change. -/
theorem FreshInv.later (h : FreshInv accepts s) (hclock : s.clock ≤ s'.clock) (hfiles : s'.files = s.files)
    (hchanged : s'.changedAt = s.changedAt) (hdirs : ∀ d time, time ≤ s.clock → Covered s.dirs d time → Covered s'.dirs d time)
    (hapart : ∀ p, s'.dirs.has p = true → s.dirs.has p = true ∨ s.files.get p = none)
    (hindexed : s'.indexed = s.indexed) (hread : s'.readAt = s.readAt) (hingest : s'.ingest = s.ingest)
    (hlast : s'.lastIngestAt = s.lastIngestAt) : FreshInv accepts s' := by
  have hcontent : ∀ p, s'.content p = s.content p := fun p => by unfold content; rw [hfiles]
  constructor
  · exact h.started.trans_le hclock
  · exact fun p => hchanged ▸ (h.past p).trans hclock
  · exact fun p f hf => hchanged ▸ h.filed p f (hfiles ▸ hf)
  · exact fun p hp => hchanged ▸ hdirs _ _ (h.past p) (h.gone p (hfiles ▸ hp))
  · exact fun p hp => hfiles ▸ (hapart p hp).elim (h.apart p) id
  · exact fun p r hr => (h.readPast p r (hread ▸ hr)).trans hclock
  · intro p r hp hr hle
    rw [hindexed, hcontent]
    exact h.agree p r hp (hread ▸ hr) (hchanged ▸ hle)
  · exact fun run hrun => (h.began run (hingest ▸ hrun)).trans hclock
  · intro run p c r hrun hv
    obtain ⟨hle, heq⟩ := h.visited run p c r (hingest ▸ hrun) hv
    exact ⟨hle.trans hclock, fun hr => (hcontent p).symm ▸ heq (hchanged ▸ hr)⟩
  · intro run t hrun ht
    obtain ⟨hpos, hnone⟩ := h.stamped run t (hingest ▸ hrun) ht
    exact ⟨hpos, fun hscope p hp hv hle => (hcontent p).symm ▸ hnone hscope p hp hv (hchanged ▸ hle)⟩
  · exact fun t ht => h.finished t (hlast ▸ ht)

theorem now_gt : s.clock < s.now := Nat.lt_succ_self _

/-- A path changes now. -/
theorem FreshInv.touched (h : FreshInv accepts s) {q : TreePath} {files : KeyedMap TreePath StoredFile}
    {dirs : KeyedMap TreePath Nat} (hother : ∀ p, p ≠ q → files.get p = s.files.get p)
    (hfile : ∀ f, files.get q = some f → f.mtime = s.now)
    (hdirs : ∀ d time, time ≤ s.clock → Covered s.dirs d time → Covered dirs d time)
    (hgone : files.get q = none → Covered dirs q.tail s.now)
    (hapart : ∀ p, dirs.has p = true → p ≠ q ∧ s.files.get p = none) :
    FreshInv accepts { s with
      clock := s.now
      files := files
      dirs := dirs
      changedAt := Function.update s.changedAt q s.now } := by
  have hcontent : ∀ p, p ≠ q → (files.get p).map StoredFile.content = s.content p := fun p hp => by
    rw [hother p hp]
    rfl
  have hchanged : ∀ p, p ≠ q → Function.update s.changedAt q s.now p = s.changedAt p := fun p hp =>
    Function.update_of_ne hp ..
  -- what was read before is older than the change
  have hsince : ∀ {p r}, r ≤ s.clock → Function.update s.changedAt q s.now p ≤ r → p ≠ q := by
    rintro p r hr hle rfl
    rw [Function.update_self] at hle
    exact absurd (now_gt.trans_le (hle.trans hr)) (lt_irrefl _)
  constructor
  · exact h.started.trans now_gt
  · intro p
    dsimp only
    by_cases hp : p = q
    · rw [hp, Function.update_self]
    · rw [hchanged p hp]
      exact (h.past p).trans now_gt.le
  · intro p f hf
    dsimp only at hf ⊢
    by_cases hp : p = q
    · subst hp
      rw [Function.update_self, hfile f hf]
    · rw [hchanged p hp]
      exact h.filed p f (by rwa [← hother p hp])
  · intro p hf
    dsimp only at hf ⊢
    by_cases hp : p = q
    · subst hp
      rw [Function.update_self]
      exact hgone hf
    · rw [hchanged p hp]
      exact hdirs _ _ (h.past p) (h.gone p (by rwa [← hother p hp]))
  · intro p hp
    obtain ⟨hne, hnone⟩ := hapart p hp
    exact (hother p hne).trans hnone
  · exact fun p r hr => (h.readPast p r hr).trans now_gt.le
  · intro p r hsource hr hle
    have hp := hsince (h.readPast p r hr) hle
    replace hle := (hchanged p hp).ge.trans hle
    exact (h.agree p r hsource hr hle).trans (hcontent p hp).symm
  · exact fun run hrun => (h.began run hrun).trans now_gt.le
  · intro run p c r hrun hv
    obtain ⟨hr, heq⟩ := h.visited run p c r hrun hv
    refine ⟨hr.trans now_gt.le, fun hle => ?_⟩
    have hp := hsince hr hle
    replace hle := (hchanged p hp).ge.trans hle
    exact (heq hle).trans (hcontent p hp).symm
  · intro run t hrun ht
    obtain ⟨hpos, hnone⟩ := h.stamped run t hrun ht
    refine ⟨hpos, fun hscope p hsource hv hle => ?_⟩
    have hp := hsince (h.began run hrun) hle
    replace hle := (hchanged p hp).ge.trans hle
    exact (hcontent p hp).trans (hnone hscope p hsource hv hle)
  · exact h.finished

theorem has_set {dirs : KeyedMap TreePath Nat} {d e : TreePath} {now : Nat} (h : (dirs.set d now).has e = true) :
    e = d ∨ dirs.has e = true := by
  by_cases he : d = e
  · exact .inl he.symm
  · unfold KeyedMap.has at h
    rw [KeyedMap.get_set_ne _ _ he] at h
    exact .inr h

theorem has_makeDirs {now : Nat} {dirs : KeyedMap TreePath Nat} {d e : TreePath}
    (h : (makeDirs now dirs d).has e = true) : dirs.has e = true ∨ e ∈ d.tails := by
  induction d with
  | nil => exact .inl h
  | cons name d ih =>
    unfold makeDirs at h
    split at h
    · exact .inl h
    · rw [List.mem_tails _ _]
      rcases has_set h with rfl | h
      · exact .inr (List.suffix_refl _)
      · rcases has_set h with rfl | h
        · exact .inr (List.suffix_cons _ _)
        · refine (ih h).imp id fun hmem => ?_
          exact ((List.mem_tails _ _).1 hmem).trans (List.suffix_cons _ _)

theorem files_of_reachable {d e : TreePath} (h : s.reachable d = true) (he : e ∈ d.tails) : s.files.get e = none :=
  Option.isNone_iff_eq_none.1 (List.all_eq_true.1 h e he)

theorem freshInv_write (h : FreshInv accepts s) {p : TreePath} {c : JsString} (hs : s.write p c = some s') :
    FreshInv accepts s' := by
  unfold write at hs
  split at hs
  · cases hs
  · rename_i name d
    split at hs
    · cases hs
    · rename_i hguard
      simp only [Bool.or_eq_true, Bool.not_eq_true', not_or, Bool.not_eq_true, Bool.not_eq_false] at hguard
      cases hs
      have hdirs : ∀ e time, time ≤ s.clock → Covered s.dirs e time → Covered (makeDirs s.now s.dirs d) e time :=
        fun e time hle hc => hc.makeDirs (hle.trans now_gt.le) d
      have hmade : ∀ q, (makeDirs s.now s.dirs d).has q = true → q ≠ name :: d ∧ s.files.get q = none := by
        intro q hq
        rcases has_makeDirs hq with hq | hq
        · refine ⟨fun heq => ?_, h.apart q hq⟩
          rw [heq, hguard.1] at hq
          exact absurd hq Bool.false_ne_true
        · refine ⟨fun heq => ?_, files_of_reachable hguard.2 hq⟩
          have hlen := ((List.mem_tails _ _).1 hq).length_le
          rw [heq, List.length_cons] at hlen
          omega
      refine h.touched (fun q hq => KeyedMap.get_set_ne _ _ (Ne.symm hq)) (fun f hf => ?_) ?_ (fun hf => ?_) ?_
      · rw [KeyedMap.get_set_self] at hf
        exact Option.some.inj hf ▸ rfl
      · intro e time hle hc
        split
        · exact hdirs e time hle hc
        · exact (hdirs e time hle hc).set (hle.trans now_gt.le) d
      · rw [KeyedMap.get_set_self] at hf
        cases hf
      · intro q hq
        split at hq
        · exact hmade q hq
        · rcases has_set hq with rfl | hq
          · refine ⟨List.ne_cons_self, files_of_reachable hguard.2 ?_⟩
            exact (List.mem_tails _ _).2 (List.suffix_refl _)
          · exact hmade q hq

theorem freshInv_remove (h : FreshInv accepts s) {p : TreePath} (hs : s.remove p = some s') : FreshInv accepts s' := by
  unfold remove at hs
  split at hs
  · cases hs
  · rename_i name d
    split at hs
    · rename_i hguard
      simp only [Bool.and_eq_true] at hguard
      cases hs
      refine h.touched (fun q hq => ?_) (fun f hf => ?_) (fun e time hle hc => hc.set (hle.trans now_gt.le) d)
        (fun _ => ?_) fun q hq => ?_
      · rw [KeyedMap.get_erase, if_neg hq]
      · rw [KeyedMap.get_erase, if_pos rfl] at hf
        cases hf
      · exact covered_of_get (KeyedMap.get_set_self ..) le_rfl
      · have hdir : s.dirs.has q = true := by
          rcases has_set hq with rfl | hq
          · exact hguard.2
          · exact hq
        refine ⟨fun heq => ?_, h.apart q hdir⟩
        obtain ⟨f, hf⟩ := has_iff.1 hguard.1
        rw [← heq, h.apart q hdir] at hf
        cases hf
    · cases hs

theorem freshInv_rmdir (h : FreshInv accepts s) {d : TreePath} (hs : s.rmdir d = some s') : FreshInv accepts s' := by
  unfold rmdir at hs
  split at hs
  · cases hs
  · rename_i name parent
    split at hs
    · rename_i hguard
      simp only [Bool.and_eq_true] at hguard
      cases hs
      refine h.later now_gt.le rfl rfl (fun d time hle hc => hc.rmdir (hle.trans now_gt.le) name parent) (fun q hq => ?_)
        rfl rfl rfl rfl
      rcases has_set hq with rfl | hq
      · exact .inl hguard.1.2
      · rw [has_iff, KeyedMap.get_erase] at hq
        split at hq
        · obtain ⟨v, hv⟩ := hq
          cases hv
        · exact .inl (has_iff.2 hq)
    · cases hs

theorem freshInv_ingestBegin (h : FreshInv accepts s) {scope : Option (List TreePath)}
    (hs : s.ingestBegin scope = some s') : FreshInv accepts s' := by
  unfold ingestBegin at hs
  split at hs
  · cases hs
  · cases hs
    refine ⟨h.started, h.past, h.filed, h.gone, h.apart, h.readPast, h.agree, ?_, ?_, ?_, h.finished⟩
    · rintro run hrun
      cases hrun
      exact le_rfl
    · rintro run p c r hrun hv
      cases hrun
      cases hv
    · rintro run t hrun ht
      cases hrun
      cases ht

theorem freshInv_ingestRead (h : FreshInv accepts s) {p : TreePath} (hs : s.ingestRead accepts p = some s') :
    FreshInv accepts s' := by
  unfold ingestRead at hs
  split at hs
  · rename_i run hrun
    split at hs
    · rename_i hguard
      cases hs
      simp only [Bool.and_eq_true] at hguard
      refine ⟨h.started, h.past, h.filed, h.gone, h.apart, h.readPast, h.agree, ?_, ?_, ?_, h.finished⟩
      · rintro run' hrun'
        cases hrun'
        exact h.began run hrun
      · rintro run' q c r hrun' hv
        cases hrun'
        dsimp only at hv
        by_cases hq : q = p
        · subst hq
          rw [Function.update_self] at hv
          cases hv
          exact ⟨le_rfl, fun _ => rfl⟩
        · rw [Function.update_of_ne hq] at hv
          exact h.visited run q c r hrun hv
      · rintro run' t hrun' ht
        cases hrun'
        dsimp only at ht
        rw [ht] at hguard
        exact absurd hguard.1.1 Bool.false_ne_true
    · cases hs
  · cases hs

theorem freshInv_ingestStamp (h : FreshInv accepts s) (hs : s.ingestStamp accepts = some s') : FreshInv accepts s' := by
  unfold ingestStamp at hs
  split at hs
  · rename_i run hrun
    split at hs
    · rename_i hguard
      cases hs
      simp only [Bool.and_eq_true] at hguard
      refine ⟨h.started, h.past, h.filed, h.gone, h.apart, h.readPast, h.agree, ?_, ?_, ?_, h.finished⟩
      · rintro run' hrun'
        cases hrun'
        exact h.began run hrun
      · rintro run' q c r hrun' hv
        cases hrun'
        exact h.visited run q c r hrun hv
      · rintro run' t hrun' ht
        cases hrun'
        cases ht
        refine ⟨h.started, fun hscope p hsource hv hle => ?_⟩
        -- a file that is there since the ingest began was read
        by_contra hcontent
        obtain ⟨c, hc⟩ := Option.ne_none_iff_exists'.1 hcontent
        obtain ⟨f, hf, -⟩ := Option.map_eq_some_iff.1 hc
        have hread := hguard.2
        unfold readAll at hread
        dsimp only at hscope hv hle
        rw [hscope] at hread
        have hp := List.all_eq_true.1 hread p (KeyedMap.mem_keys.2 ⟨f, hf⟩)
        rw [hsource, hv] at hp
        have hlt := of_decide_eq_true hp
        exact absurd hle (Nat.not_le.2 hlt)
    · cases hs
  · cases hs

theorem freshInv_ingestHead (h : FreshInv accepts s) (hs : s.ingestHead = some s') : FreshInv accepts s' := by
  unfold ingestHead at hs
  split at hs
  · rename_i run hrun
    split at hs
    · cases hs
      refine ⟨h.started, h.past, h.filed, h.gone, h.apart, h.readPast, h.agree, ?_, ?_, ?_, h.finished⟩
      · rintro run' hrun'
        cases hrun'
        exact h.began run hrun
      · rintro run' q c r hrun' hv
        cases hrun'
        exact h.visited run q c r hrun hv
      · rintro run' t hrun' ht
        cases hrun'
        exact h.stamped run t hrun ht
    · cases hs
  · cases hs

theorem freshInv_ingestEnd (h : FreshInv accepts s) (hs : s.ingestEnd = some s') : FreshInv accepts s' := by
  unfold ingestEnd at hs
  split at hs
  · rename_i run hrun
    split at hs
    · rename_i finishedAt gitHead hstamp _
      cases hs
      obtain ⟨hpos, hnone⟩ := h.stamped run finishedAt hrun hstamp
      refine ⟨h.started, h.past, h.filed, h.gone, h.apart, ?_, ?_, ?_, ?_, ?_, ?_⟩
      · intro p r hr
        dsimp only [IngestRun.readTime] at hr
        split at hr
        · rename_i c time hv
          exact Option.some.inj hr ▸ (h.visited run p c time hrun hv).1
        · split at hr
          · exact Option.some.inj hr ▸ h.began run hrun
          · exact h.readPast p r hr
      · intro p r hsource hr hle
        dsimp only [IngestRun.readTime, IngestRun.result] at hr ⊢
        cases hv : run.visited p with
        | some seen =>
          obtain ⟨c, time⟩ := seen
          rw [hv] at hr
          cases hr
          exact (h.visited run p c r hrun hv).2 hle
        | none =>
          rw [hv] at hr
          dsimp only at hr ⊢
          split at hr
          · rename_i hscope
            cases hr
            rw [if_pos hscope]
            exact (hnone (Option.isNone_iff_eq_none.1 hscope) p hsource hv hle).symm
          · rename_i hscope
            rw [if_neg hscope]
            exact h.agree p r hsource hr hle
      · exact fun _ hrun' => by cases hrun'
      · exact fun _ _ _ _ hrun' => by cases hrun'
      · exact fun _ _ hrun' => by cases hrun'
      · rintro t ht
        cases ht
        exact hpos
    · cases hs
  · cases hs

theorem freshInv_step (h : FreshInv accepts s) {a : ProjectAct} (hs : s.step accepts a = some s') :
    FreshInv accepts s' := by
  have hsame : ∀ d time, time ≤ s.clock → Covered s.dirs d time → Covered s.dirs d time := fun _ _ _ hc => hc
  cases a with
  | wait ms =>
    cases hs
    exact h.later (Nat.le_add_right _ _) rfl rfl hsame (fun _ hp => .inl hp) rfl rfl rfl rfl
  | write p c => exact freshInv_write h hs
  | remove p => exact freshInv_remove h hs
  | mkdir d =>
    unfold step mkdir at hs
    dsimp only at hs
    split at hs
    · rename_i hreach
      cases hs
      exact h.later now_gt.le rfl rfl (fun e time hle hc => hc.makeDirs (hle.trans now_gt.le) d)
        (fun q hq => (has_makeDirs hq).imp id (files_of_reachable hreach)) rfl rfl rfl rfl
    · cases hs
  | rmdir d => exact freshInv_rmdir h hs
  | stage p =>
    cases hs
    exact h.later now_gt.le rfl rfl hsame (fun _ hp => .inl hp) rfl rfl rfl rfl
  | commit id =>
    unfold step commit at hs
    dsimp only at hs
    split at hs
    · cases hs
    · cases hs
      exact h.later now_gt.le rfl rfl hsame (fun _ hp => .inl hp) rfl rfl rfl rfl
  | moveHead id tracked =>
    unfold step moveHead at hs
    dsimp only at hs
    split at hs
    · cases hs
      exact h.later now_gt.le rfl rfl hsame (fun _ hp => .inl hp) rfl rfl rfl rfl
    · cases hs
  | ingestBegin scope => exact freshInv_ingestBegin h hs
  | ingestRead p => exact freshInv_ingestRead h hs
  | ingestStamp => exact freshInv_ingestStamp h hs
  | ingestHead => exact freshInv_ingestHead h hs
  | ingestEnd => exact freshInv_ingestEnd h hs

/-! ## What each check sees -/

/-- The index does not hold what is at the path. -/
def Differs (s : Project) (p : TreePath) : Prop := s.indexed p ≠ s.content p

/-- It changed after the ingest ended, at a place the scan looks at: a tracked file, an entry of
the root, or a removed file whose nearest directory is the root or an entry of it. -/
def InScan (s : Project) (finishedAt : Nat) (p : TreePath) : Prop :=
  finishedAt < s.changedAt p ∧
    if s.files.has p then s.tracked.has p = true ∨ ∃ name, p = [name] ∧ name ∉ SKIP_DIRS
    else nearestDir s.dirs p.tail = [] ∨ ∃ name, nearestDir s.dirs p.tail = [name] ∧ name ∉ SKIP_DIRS

/-- Git compares it, and the index holds it as in the recorded commit. -/
def InDiff (s : Project) (p : TreePath) : Prop :=
  ∃ id tree, s.lastIngestGitHead = some id ∧ s.commits.get id = some tree ∧
    (tree.has p = true ∨ s.tracked.has p = true) ∧ s.indexed p = tree.get p

theorem mem_topLevel {name : JsString} (h : s.files.has [name] = true ∨ s.dirs.has [name] = true) :
    name ∈ s.topLevel := by
  refine List.mem_filterMap.2 ⟨[name], List.mem_append.2 ?_, rfl⟩
  refine h.imp (fun hfile => ?_) fun hdir => ?_
  · exact KeyedMap.mem_keys.2 (has_iff.1 hfile)
  · exact KeyedMap.mem_keys.2 (has_iff.1 hdir)

theorem mtime_of_file {p : TreePath} {f : StoredFile} (h : s.files.get p = some f) : s.mtime p = some f.mtime := by
  unfold mtime
  rw [h]
  rfl

/-- A path in the scan's sight makes it find something newer. -/
theorem newest_of_inScan (h : FreshInv accepts s) {cap t : Nat} (hcap : s.tracked.keys.length ≤ cap) {p : TreePath}
    (hp : InScan s t p) : t < s.newestSourceMtimeMs cap (some t) := by
  obtain ⟨hlater, hplace⟩ := hp
  by_contra hquiet
  obtain ⟨hroot, hentries, hfiles⟩ := quiet_of_newest (Nat.not_lt.1 hquiet)
  split at hplace
  · rename_i hthere
    obtain ⟨f, hf⟩ := has_iff.1 hthere
    have hle : f.mtime ≤ t := by
      rcases hplace with htracked | ⟨name, rfl, hskip⟩
      · refine hfiles p ?_ f.mtime (mtime_of_file hf)
        unfold listSourceFiles
        rw [List.take_of_length_le hcap]
        exact KeyedMap.mem_keys.2 (has_iff.1 htracked)
      · exact hentries name (mem_topLevel (.inl hthere)) hskip f.mtime (mtime_of_file hf)
    exact absurd (hlater.trans_le (h.filed p f hf)) (Nat.not_lt.2 hle)
  · rename_i hthere
    have hnone : s.files.get p = none := by
      by_contra hsome
      exact hthere (Option.isSome_iff_ne_none.2 hsome)
    obtain ⟨m, hm, hcovers⟩ := h.gone p hnone
    have hlt : t < m := hlater.trans_le hcovers
    have hdir : s.dirs.has (nearestDir s.dirs p.tail) = true := has_iff.2 ⟨m, hm⟩
    have hmtime : s.mtime (nearestDir s.dirs p.tail) = some m := by
      unfold mtime
      rw [h.apart _ hdir, hm]
      rfl
    rcases hplace with heq | ⟨name, heq, hskip⟩
    · rw [heq] at hmtime
      exact absurd hlt (Nat.not_lt.2 (hroot m hmtime))
    · rw [heq] at hmtime hdir
      exact absurd hlt (Nat.not_lt.2 (hentries name (mem_topLevel (.inr hdir)) hskip m hmtime))

/-- With no source path changed against HEAD, what git compares is as in HEAD. -/
theorem content_of_unchanged {id : JsString} (h : s.gitSourceContentUnchanged id = true) {tree : CommitTree}
    (htree : s.commits.get id = some tree) {p : TreePath} (hp : isSource accepts p = true)
    (hcompared : tree.has p = true ∨ s.tracked.has p = true) : s.content p = tree.get p := by
  unfold gitSourceContentUnchanged at h
  simp only [htree, Bool.and_eq_true, Bool.not_eq_true', List.any_eq_false] at h
  by_contra hne
  refine h.2 p (List.mem_filter.2 ⟨List.mem_append.2 (hcompared.imp ?_ ?_), decide_eq_true hne⟩) ?_
  · exact fun hin => KeyedMap.mem_keys.2 (has_iff.1 hin)
  · exact fun hin => KeyedMap.mem_keys.2 (has_iff.1 hin)
  · exact (Bool.and_eq_true_iff.1 hp).1

theorem differs_of_inDiff {p : TreePath} (hp : isSource accepts p = true) (hsees : InDiff s p)
    (hcheck : s.lastIngestGitHead.any s.gitSourceContentUnchanged = true) : ¬ Differs s p := by
  obtain ⟨id, tree, hid, htree, hcompared, hindexed⟩ := hsees
  rw [hid] at hcheck
  exact fun hdiffers => hdiffers (hindexed.trans (content_of_unchanged hcheck htree hp hcompared).symm)

/-- Each check that finds nothing sees every source path that the index no longer holds. -/
structure ChecksSee (accepts : TreePath → Bool) (s : Project) (cap finishedAt : Nat) : Prop where
  scan : s.newestSourceMtimeMs cap (some finishedAt) ≤ finishedAt →
    ∀ p, isSource accepts p = true → Differs s p → InScan s finishedAt p
  git : s.lastIngestGitHead.any s.gitSourceContentUnchanged = true →
    ∀ p, isSource accepts p = true → Differs s p → InDiff s p

theorem stale_eq_false_iff {cap t : Nat} {detail : JsString} (ht : s.lastIngestAt = some t) (hpos : 0 < t) :
    (evaluateStaleness s cap ⟨none, detail⟩ false).stale = false ↔
      s.newestSourceMtimeMs cap (some t) ≤ t ∨ s.lastIngestGitHead.any s.gitSourceContentUnchanged = true := by
  unfold evaluateStaleness
  simp only [ht, hpos.ne', if_false, Bool.false_eq_true, reduceCtorEq]
  split
  · rename_i hquiet
    exact iff_of_true rfl (.inl hquiet)
  · rename_i hnewer
    split
    · rename_i hgit
      exact iff_of_true rfl (.inr hgit)
    · rename_i hgit
      exact iff_of_false Bool.noConfusion (not_or.2 ⟨hnewer, hgit⟩)

theorem freshInv_run {now : Nat} (hrun : Run (step accepts) (fun _ _ => True) (newProject (now + 1)) s) :
    FreshInv accepts s :=
  hrun.invariant (freshInv_new now) fun _ _ _ h _ hs => freshInv_step h hs

theorem justified_iff (h : FreshInv accepts s) {cap t : Nat} (detail : JsString) (hcap : s.tracked.keys.length ≤ cap)
    (ht : s.lastIngestAt = some t) :
    ((evaluateStaleness s cap ⟨none, detail⟩ false).stale = false →
      ∀ p, isSource accepts p = true → s.indexed p = s.content p) ↔ ChecksSee accepts s cap t := by
  rw [stale_eq_false_iff ht (h.finished t ht)]
  constructor
  · intro hjust
    refine ⟨fun hquiet p hp hdiffers => ?_, fun hgit p hp hdiffers => ?_⟩
    · exact absurd (hjust (.inl hquiet) p hp) hdiffers
    · exact absurd (hjust (.inr hgit) p hp) hdiffers
  · rintro hsees (hquiet | hgit) p hp
    · by_contra hdiffers
      have hnewer := newest_of_inScan h hcap (hsees.scan hquiet p hp hdiffers)
      exact absurd hquiet (Nat.not_le.2 hnewer)
    · by_contra hdiffers
      exact differs_of_inDiff hp (hsees.git hgit p hp hdiffers) hgit hdiffers

end Project

open Project

def tsFile : TreePath := [ascii "a.ts", ascii "lib", ascii "src"]

/-- One source file is written, committed, and written again before the ingest. -/
def dirtyIngest : List ProjectAct :=
  [.mkdir [ascii "lib", ascii "src"], .write tsFile (ascii "old"), .stage tsFile, .commit (ascii "c1"),
    .write tsFile (ascii "new"), .ingestBegin none, .ingestRead tsFile, .ingestStamp, .ingestHead, .ingestEnd]

/-- What the check says, and what the index and the working tree hold. -/
def verdict (s : Project) : Bool × Option JsString × Option JsString :=
  ((evaluateStaleness s 4096 ⟨none, []⟩ false).stale, s.indexed tsFile, s.content tsFile)

end Hayven.Db
