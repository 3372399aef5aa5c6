import Hayven.Lib.Bytes
import Mathlib.Data.List.Basic
import Mathlib.Tactic.Common
/-!
# Following a checkout

`repointToBranch` of `cli/daemon.ts` and the poller that calls it. The poller remembers a
branch key, the holder `dbRef` the served handle with its path and key. They agree whenever
no re-point is running, as long as no attempt throws: `inLockstep_iff`.
-/
open Hayven.Lib

namespace Hayven.Cli.BranchPoll

/-! ## Paths -/

/-- A path by its parts. -/
abbrev Path := List JsString

abbrev Key := JsString

def BRANCH_INDEX_FILE : JsString := ascii "index.sqlite"

/-- The legacy index lies outside the directory of the branch indexes. -/
structure HayvenPaths where
  sqliteFile : Path
  branchesDir : Path
  apart : ¬ branchesDir <+: sqliteFile

variable (paths : HayvenPaths)

/-- The path that `resolveWriteIndexForKey` resolves; its key is the one it is given. -/
def indexPath : Option Key → Path
  | none => paths.sqliteFile
  | some key => paths.branchesDir ++ [key, BRANCH_INDEX_FILE]

theorem indexPath_injective : Function.Injective (indexPath paths) := by
  have hapart : ∀ key : Key, indexPath paths none ≠ indexPath paths (some key) := by
    intro key h
    have hsqlite : paths.sqliteFile = paths.branchesDir ++ [key, BRANCH_INDEX_FILE] := h
    exact paths.apart (hsqlite ▸ List.prefix_append _ _)
  intro k k' h
  rcases k with _ | k <;> rcases k' with _ | k'
  · rfl
  · exact absurd h (hapart k')
  · exact absurd h.symm (hapart k)
  · have hkeys := List.append_cancel_left h
    rw [(List.cons.inj hkeys).1]

/-! ## One re-point -/

/-- A handle by its number: they are numbered as they are opened. -/
structure DbRef where
  current : Nat
  path : Path
  branchKey : Option Key
deriving DecidableEq

structure World where
  dbRef : DbRef
  issued : Nat
  isOpen : List Nat

inductive Migration where
  | done | schemaTooNew | throws
deriving DecidableEq, Repr

structure IndexIntegrity where
  ok : Bool
  nodes : Nat
deriving DecidableEq, Repr

/-- What the steps of an attempt come to; a failed close is caught. -/
structure Outcomes where
  resolves : Bool
  opens : Bool
  migration : Migration
  freshens : Bool
  integrity : IndexIntegrity
  closes : Bool
deriving DecidableEq, Repr

structure RepointResult where
  path : Path
  branchKey : Option Key
  aborted : Bool
deriving DecidableEq

def World.served (w : World) (aborted : Bool) : RepointResult := ⟨w.dbRef.path, w.dbRef.branchKey, aborted⟩

def World.close (w : World) (closes : Bool) (handle : Nat) : World :=
  if closes then { w with isOpen := w.isOpen.filter (· ≠ handle) } else w

/-- The new handle and the world with it open. -/
def World.openNext (w : World) : Nat × World :=
  (w.issued, { w with issued := w.issued + 1, isOpen := w.issued :: w.isOpen })

/-- A completed freshen, or nodes behind an integrity check. -/
def hasContent (o : Outcomes) : Bool := o.freshens || (o.integrity.ok && decide (0 < o.integrity.nodes))

/-- `repointToBranch`; the result is none if it throws. -/
def repointToBranch (o : Outcomes) (w : World) (newKey : Option Key) : World × Option RepointResult :=
  match newKey with
  | none => (w, some (w.served false))
  | some key =>
    if !o.resolves then (w, none)
    else
      let path := indexPath paths (some key)
      if path = w.dbRef.path then
        let same := { w with dbRef := { w.dbRef with branchKey := some key } }
        (same, some (same.served false))
      else if !o.opens then (w, none)
      else
        let (next, opened) := w.openNext
        match o.migration with
        | .throws => (opened, none)
        | .schemaTooNew => (opened.close o.closes next, some (w.served true))
        | .done =>
          if !hasContent o then (opened.close o.closes next, some (w.served true))
          else
            let swapped := { opened with dbRef := ⟨next, path, some key⟩ }
            (swapped.close o.closes w.dbRef.current, some (swapped.served false))

/-! ## The poller -/

def REPOINT_RETRY_BASE_MS : Nat := 5000

def REPOINT_RETRY_MAX_MS : Nat := 300000

structure Poller where
  lastBranchKey : Option Key
  repointFailKey : Option Key
  repointFailures : Nat
  repointRetryAfterMs : Nat
deriving DecidableEq

def Poller.noteRepointFailure (p : Poller) (key : Option Key) (now : Nat) : Poller :=
  let failures := if key = p.repointFailKey then p.repointFailures + 1 else 1
  { p with
    repointFailKey := key
    repointFailures := failures
    repointRetryAfterMs := now + min (REPOINT_RETRY_BASE_MS * 2 ^ (failures - 1)) REPOINT_RETRY_MAX_MS }

def Poller.clearRepointFailure (p : Poller) : Poller :=
  { p with repointFailKey := none, repointFailures := 0, repointRetryAfterMs := 0 }

/-- The daemon of one project; `repointing` is the key of the attempt that is running. -/
structure Project where
  world : World
  poller : Poller
  repointing : Option (Option Key)

inductive Event where
  /-- A tick of the poller; the key is none if the reading throws. -/
  | tick (currentKey : Option (Option Key)) (now : Nat) (admitted : Bool)
  /-- The attempt runs to its end, and its callbacks with it. -/
  | finish (o : Outcomes) (now : Nat)

/-- The callback of the interval. -/
def tick (s : Project) (currentKey : Option (Option Key)) (now : Nat) (admitted : Bool) : Project :=
  match s.repointing, currentKey with
  | some _, _ => s
  | none, none => s
  | none, some key =>
    if key = s.poller.lastBranchKey then s
    else if key = s.poller.repointFailKey ∧ now < s.poller.repointRetryAfterMs then s
    else if !admitted then s
    else { s with poller := { s.poller with lastBranchKey := key }, repointing := some key }

/-- `.then`, or `.catch`, and `.finally`. -/
def settle (s : Project) (key : Option Key) (now : Nat) (r : World × Option RepointResult) : Project :=
  match r.2 with
  | none => ⟨r.1, s.poller.noteRepointFailure key now, none⟩
  | some result =>
    let claimed := { s.poller with lastBranchKey := result.branchKey }
    ⟨r.1, if result.aborted then claimed.noteRepointFailure key now else claimed.clearRepointFailure, none⟩

def step (s : Project) : Event → Project
  | .tick currentKey now admitted => tick s currentKey now admitted
  | .finish o now =>
    match s.repointing with
    | none => s
    | some key => settle s key now (repointToBranch paths o s.world key)

/-! ## What holds between attempts -/

/-- The served handle is open, and its path is the index resolved for its key. -/
structure World.Sound (w : World) : Prop where
  path : w.dbRef.path = indexPath paths w.dbRef.branchKey
  isOpen : w.dbRef.current ∈ w.isOpen
  issued : ∀ handle ∈ w.isOpen, handle < w.issued

/-- An attempt swaps to an index with content, or leaves the holder as it was. -/
def Swaps (o : Outcomes) (w w' : World) (key : Option Key) : Prop :=
  hasContent o = true ∧ w'.dbRef.branchKey = key ∧ w'.dbRef.current ∉ w.isOpen

def Careful (s : Project) : Event → Prop
  | .tick _ _ _ => True
  | .finish o now => ∀ key, s.repointing = some key →
      (step paths s (.finish o now)).world.dbRef = s.world.dbRef ∨
        Swaps o s.world (step paths s (.finish o now)).world key

/-- The claim of the poller, with the two of the holder. -/
structure Quiet (s : Project) : Prop where
  key : s.repointing = none → s.poller.lastBranchKey = s.world.dbRef.branchKey
  path : s.world.dbRef.path = indexPath paths s.world.dbRef.branchKey
  isOpen : s.world.dbRef.current ∈ s.world.isOpen

/-- Between any two events, and at each of them. -/
def InLockstep : Project → List Event → Prop
  | s, [] => Quiet paths s
  | s, e :: es => Quiet paths s ∧ Careful paths s e ∧ InLockstep (step paths s e) es

/-- An attempt throws if the resolution does; or, at another index than the served one, the
opening, or a migration that does not find the schema too new. -/
def Throws (o : Outcomes) (w : World) : Option Key → Prop
  | none => False
  | some key => o.resolves = false ∨
      indexPath paths (some key) ≠ w.dbRef.path ∧ (o.opens = false ∨ o.migration = .throws)

/-- No attempt of the run throws. -/
def Undisturbed : Project → List Event → Prop
  | _, [] => True
  | s, e :: es =>
    (∀ o now key, e = .finish o now → s.repointing = some key → ¬ Throws paths o s.world key) ∧
      Undisturbed (step paths s e) es

/-! ## One attempt -/

section Attempt
variable {paths} {o : Outcomes} {w : World} {key : Option Key}

theorem mem_close {closes : Bool} {handle h : Nat} (hne : h ≠ handle) (hmem : h ∈ w.isOpen) :
    h ∈ (w.close closes handle).isOpen := by
  unfold World.close
  split
  · exact List.mem_filter.2 ⟨hmem, decide_eq_true hne⟩
  · exact hmem

theorem of_mem_close {closes : Bool} {handle h : Nat} (hmem : h ∈ (w.close closes handle).isOpen) : h ∈ w.isOpen := by
  unfold World.close at hmem
  split at hmem
  · exact (List.mem_filter.1 hmem).1
  · exact hmem

@[simp] theorem dbRef_close (closes : Bool) (handle : Nat) : (w.close closes handle).dbRef = w.dbRef := by
  unfold World.close
  split <;> rfl

@[simp] theorem issued_close (closes : Bool) (handle : Nat) : (w.close closes handle).issued = w.issued := by
  unfold World.close
  split <;> rfl

/-- What an attempt does: it throws and the holder stays, it ends without a swap and reports the
served key, or it swaps. -/
theorem repointToBranch_cases (o : Outcomes) (h : w.Sound paths) (key : Option Key) :
    let r := repointToBranch paths o w key
    r.1.Sound paths ∧
      ((Throws paths o w key ∧ r.2 = none ∧ r.1.dbRef = w.dbRef) ∨
        (¬ Throws paths o w key ∧ r.1.dbRef = w.dbRef ∧ ∃ aborted, r.2 = some (w.served aborted)) ∨
        (¬ Throws paths o w key ∧ Swaps o w r.1 key ∧ r.2 = some (r.1.served false))) := by
  intro r
  rcases key with _ | key
  · exact ⟨h, .inr (.inl ⟨id, rfl, false, rfl⟩)⟩
  rcases hresolves : o.resolves with _ | _
  · have hr : r = (w, none) := by simp [r, repointToBranch, hresolves]
    exact ⟨hr ▸ h, .inl ⟨.inl hresolves, by rw [hr], by rw [hr]⟩⟩
  by_cases hpath : indexPath paths (some key) = w.dbRef.path
  · -- the served index already: its key is the one that is asked for
    have hkey : w.dbRef.branchKey = some key := (indexPath_injective paths (hpath.trans h.path)).symm
    have hsame : ({ w with dbRef := { w.dbRef with branchKey := some key } } : World) = w := by rw [← hkey]
    have hr : r = (w, some (w.served false)) := by
      simp only [r, repointToBranch, hresolves, Bool.not_true, Bool.false_eq_true, if_false, if_pos hpath, hsame]
    refine ⟨hr ▸ h, .inr (.inl ⟨?_, by rw [hr], false, by rw [hr]⟩)⟩
    rintro (hfalse | ⟨hne, -⟩)
    · exact Bool.noConfusion (hresolves.symm.trans hfalse)
    · exact hne hpath
  rcases hopens : o.opens with _ | _
  · have hr : r = (w, none) := by simp [r, repointToBranch, hresolves, hpath, hopens]
    exact ⟨hr ▸ h, .inl ⟨.inr ⟨hpath, .inl hopens⟩, by rw [hr], by rw [hr]⟩⟩
  have hnew : ∀ handle ∈ w.isOpen, handle ≠ w.issued := fun handle hmem => Nat.ne_of_lt (h.issued handle hmem)
  have hopened : w.openNext.2.Sound paths :=
    ⟨h.path, List.mem_cons_of_mem _ h.isOpen, by
      intro handle hmem
      rcases List.mem_cons.1 hmem with rfl | hmem
      · exact Nat.lt_succ_self _
      · exact Nat.lt_succ_of_lt (h.issued handle hmem)⟩
  have hdiscarded : (w.openNext.2.close o.closes w.issued).Sound paths :=
    ⟨by rw [dbRef_close]; exact hopened.path,
      by rw [dbRef_close]; exact mem_close (hnew _ h.isOpen) hopened.isOpen,
      fun handle hmem => by rw [issued_close]; exact hopened.issued handle (of_mem_close hmem)⟩
  have hcalm : o.migration ≠ .throws → ¬ Throws paths o w (some key) := by
    rintro hmigration (hfalse | ⟨-, hfalse | hthrows⟩)
    · exact Bool.noConfusion (hresolves.symm.trans hfalse)
    · exact Bool.noConfusion (hopens.symm.trans hfalse)
    · exact hmigration hthrows
  rcases hmigration : o.migration with _ | _ | _
  · have hquiet := hcalm (by rw [hmigration]; exact Migration.noConfusion)
    rcases hcontent : hasContent o with _ | _
    · have hr : r = (w.openNext.2.close o.closes w.issued, some (w.served true)) := by
        simp [r, repointToBranch, hresolves, hpath, hopens, hmigration, hcontent, World.openNext]
      exact ⟨hr ▸ hdiscarded, .inr (.inl ⟨hquiet, by rw [hr, dbRef_close]; rfl, true, by rw [hr]⟩)⟩
    · let swapped : World := { w.openNext.2 with dbRef := ⟨w.issued, indexPath paths (some key), some key⟩ }
      have hr : r = (swapped.close o.closes w.dbRef.current, some (swapped.served false)) := by
        simp [r, repointToBranch, hresolves, hpath, hopens, hmigration, hcontent, World.openNext, swapped]
      have hfresh : w.issued ≠ w.dbRef.current := (hnew _ h.isOpen).symm
      have hsound : (swapped.close o.closes w.dbRef.current).Sound paths :=
        ⟨by rw [dbRef_close], by rw [dbRef_close]; exact mem_close hfresh List.mem_cons_self,
          fun handle hmem => by rw [issued_close]; exact hopened.issued handle (of_mem_close (w := swapped) hmem)⟩
      have hswaps : Swaps o w (swapped.close o.closes w.dbRef.current) (some key) := by
        refine ⟨hcontent, by rw [dbRef_close], ?_⟩
        rw [dbRef_close]
        exact fun hmem => hnew _ hmem rfl
      have hserved : (swapped.close o.closes w.dbRef.current).served false = swapped.served false := by
        rw [World.served, World.served, dbRef_close]
      exact ⟨hr ▸ hsound, .inr (.inr ⟨hquiet, hr ▸ hswaps, by rw [hr, ← hserved]⟩)⟩
  · have hquiet := hcalm (by rw [hmigration]; exact Migration.noConfusion)
    have hr : r = (w.openNext.2.close o.closes w.issued, some (w.served true)) := by
      simp [r, repointToBranch, hresolves, hpath, hopens, hmigration, World.openNext]
    exact ⟨hr ▸ hdiscarded, .inr (.inl ⟨hquiet, by rw [hr, dbRef_close]; rfl, true, by rw [hr]⟩)⟩
  · have hr : r = (w.openNext.2, none) := by
      simp [r, repointToBranch, hresolves, hpath, hopens, hmigration]
    exact ⟨hr ▸ hopened, .inl ⟨.inr ⟨hpath, .inr hmigration⟩, by rw [hr], by rw [hr]; rfl⟩⟩

end Attempt

/-! ## Runs -/

/-- Between attempts the poller has the served key; while one is running it has claimed another. -/
structure Following (s : Project) : Prop where
  world : s.world.Sound paths
  idle : s.repointing = none → s.poller.lastBranchKey = s.world.dbRef.branchKey
  claimed : ∀ key, s.repointing = some key → s.poller.lastBranchKey = key ∧ key ≠ s.world.dbRef.branchKey

/-- As the daemon starts: one open handle, and the poller at its key. -/
def started (key : Option Key) (handle : Nat) : Project :=
  ⟨⟨⟨handle, indexPath paths key, key⟩, handle + 1, [handle]⟩, ⟨key, none, 0, 0⟩, none⟩

section Runs
variable {paths} {s : Project}

theorem Following.quiet (h : Following paths s) : Quiet paths s := ⟨h.idle, h.world.path, h.world.isOpen⟩

theorem Following.tick (h : Following paths s) (currentKey : Option (Option Key)) (now : Nat) (admitted : Bool) :
    Following paths (tick s currentKey now admitted) := by
  unfold BranchPoll.tick
  split
  · exact h
  · exact h
  · next key hidle =>
    split_ifs with hsame hbackoff hadmitted
    · exact h
    · exact h
    · exact h
    · refine ⟨h.world, fun hnone => (by cases hnone), ?_⟩
      rintro k ⟨rfl⟩
      exact ⟨rfl, fun heq => hsame (heq.trans (h.idle hidle).symm)⟩

theorem lastBranchKey_noteRepointFailure (p : Poller) (key : Option Key) (now : Nat) :
    (p.noteRepointFailure key now).lastBranchKey = p.lastBranchKey := rfl

theorem settle_some {r : World × Option RepointResult} {result : RepointResult} (hr : r.2 = some result)
    (key : Option Key) (now : Nat) : (settle s key now r).world = r.1 ∧ (settle s key now r).repointing = none ∧
      (settle s key now r).poller.lastBranchKey = result.branchKey := by
  rw [settle, hr]
  refine ⟨rfl, rfl, ?_⟩
  dsimp only
  split <;> rfl

theorem settle_none {r : World × Option RepointResult} (hr : r.2 = none) (key : Option Key) (now : Nat) :
    settle s key now r = ⟨r.1, s.poller.noteRepointFailure key now, none⟩ := by
  rw [settle, hr]

theorem step_finish {key : Option Key} (hkey : s.repointing = some key) (o : Outcomes) (now : Nat) :
    step paths s (.finish o now) = settle s key now (repointToBranch paths o s.world key) := by
  rw [step, hkey]

/-- At each event an attempt is careful; unless it throws, the poller follows on. -/
theorem Following.step (h : Following paths s) (e : Event) : Careful paths s e ∧
    ((∀ o now key, e = .finish o now → s.repointing = some key → ¬ Throws paths o s.world key) →
      Following paths (step paths s e)) := by
  rcases e with ⟨currentKey, now, admitted⟩ | ⟨o, now⟩
  · exact ⟨trivial, fun _ => h.tick currentKey now admitted⟩
  rcases hkey : s.repointing with _ | key
  · have hsame : BranchPoll.step paths s (.finish o now) = s := by rw [BranchPoll.step, hkey]
    exact ⟨fun _ hsome => absurd (hkey.symm.trans hsome) (by rintro ⟨⟩), fun _ => by rw [hsame]; exact h⟩
  obtain ⟨hsound, hcase⟩ := repointToBranch_cases o h.world key
  have hworld : (BranchPoll.step paths s (.finish o now)).world = (repointToBranch paths o s.world key).1 := by
    rw [step_finish hkey, settle]
    split <;> rfl
  constructor
  · intro k hk
    have hkk : k = key := Option.some.inj (hk.symm.trans hkey)
    rw [hkk, hworld]
    rcases hcase with ⟨-, -, href⟩ | ⟨-, href, -⟩ | ⟨-, hswaps, -⟩
    · exact .inl href
    · exact .inl href
    · exact .inr hswaps
  · intro hcalm
    have hquiet := hcalm o now key rfl rfl
    have hresult : ∃ result, (repointToBranch paths o s.world key).2 = some result ∧
        result.branchKey = (repointToBranch paths o s.world key).1.dbRef.branchKey := by
      rcases hcase with ⟨hthrows, -, -⟩ | ⟨-, href, aborted, hr⟩ | ⟨-, -, hr⟩
      · exact absurd hthrows hquiet
      · exact ⟨_, hr, by rw [href]; rfl⟩
      · exact ⟨_, hr, rfl⟩
    obtain ⟨result, hr, hbranch⟩ := hresult
    obtain ⟨hw, hidle, hlast⟩ := settle_some (s := s) hr key now
    rw [← step_finish hkey] at hw hidle hlast
    refine ⟨hw ▸ hsound, fun _ => by rw [hlast, hbranch, hw], fun k hk => ?_⟩
    rw [hidle] at hk
    cases hk

/-- An attempt that throws leaves the poller at the key that it did not reach. -/
theorem not_quiet_of_throws (h : Following paths s) {key : Option Key} (hkey : s.repointing = some key) {o : Outcomes}
    (hthrows : Throws paths o s.world key) (now : Nat) : ¬ Quiet paths (BranchPoll.step paths s (.finish o now)) := by
  intro hquiet
  obtain ⟨-, hcase⟩ := repointToBranch_cases o h.world key
  rcases hcase with ⟨-, hr, href⟩ | ⟨hcalm, -⟩ | ⟨hcalm, -⟩
  · rw [step_finish hkey, settle_none hr] at hquiet
    obtain ⟨hlast, hne⟩ := h.claimed key hkey
    have hkeys := hquiet.key rfl
    rw [lastBranchKey_noteRepointFailure, hlast, href] at hkeys
    exact hne hkeys
  · exact hcalm hthrows
  · exact hcalm hthrows

theorem following_iff (h : Following paths s) (es : List Event) : InLockstep paths s es ↔ Undisturbed paths s es := by
  induction es generalizing s with
  | nil => exact ⟨fun _ => trivial, fun _ => h.quiet⟩
  | cons e es ih =>
    obtain ⟨hcareful, hfollowing⟩ := h.step e
    constructor
    · rintro ⟨-, -, hrest⟩
      have hcalm : ∀ o now key, e = .finish o now → s.repointing = some key → ¬ Throws paths o s.world key := by
        rintro o now key rfl hkey hthrows
        apply not_quiet_of_throws h hkey hthrows now
        cases es with
        | nil => exact hrest
        | cons e' es => exact hrest.1
      exact ⟨hcalm, (ih (hfollowing hcalm)).1 hrest⟩
    · rintro ⟨hcalm, hrest⟩
      exact ⟨h.quiet, hcareful, (ih (hfollowing hcalm)).2 hrest⟩

end Runs

theorem inLockstep_iff (key : Option Key) (handle : Nat) (es : List Event) :
    InLockstep paths (started paths key handle) es ↔ Undisturbed paths (started paths key handle) es := by
  apply following_iff
  refine ⟨⟨rfl, List.mem_singleton_self _, ?_⟩, fun _ => rfl, fun k hk => by cases hk⟩
  intro handle hmem
  rw [List.mem_singleton.1 hmem]
  exact Nat.lt_succ_self _

/-! ## Runs of a project with two branches -/

def repo : HayvenPaths where
  sqliteFile := [ascii "repo", ascii ".hayven", ascii "index.sqlite"]
  branchesDir := [ascii "repo", ascii ".hayven", ascii "branches"]
  apart := by decide

/-- The new index cannot be opened. -/
def unopened : Outcomes := ⟨true, false, .done, true, ⟨true, 1⟩, true⟩

theorem unopened_branch_stays_claimed :
    let s := [.tick (some (some (ascii "topic"))) 0 true, .finish unopened 1].foldl (step repo)
      (started repo (some (ascii "main")) 0)
    s.repointing = none ∧ s.poller.lastBranchKey = some (ascii "topic") ∧
      s.world.dbRef.branchKey = some (ascii "main") ∧
      ¬ InLockstep repo (started repo (some (ascii "main")) 0)
        [.tick (some (some (ascii "topic"))) 0 true, .finish unopened 1] := by
  refine ⟨by decide, by decide, by decide, ?_⟩
  rintro ⟨-, -, -, -, hquiet⟩
  exact absurd (hquiet.key (by decide)) (by decide)

end Hayven.Cli.BranchPoll
