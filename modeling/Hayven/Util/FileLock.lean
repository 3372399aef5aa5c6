import Hayven.Lib.Runs
import Mathlib.Logic.Function.Basic
/-!
# The lock file

`util/file_lock.ts`, one file-system step at a time. Callers share one path; each is
somewhere in its own call (`Phase`), and a step takes one of them to the next place its
code touches the file. Times and modification times are whatever the clocks say.
-/
open Hayven.Lib

namespace Hayven.Util

structure FileLockOptions where
  budgetMs : Int
  staleMs : Int

def unreadableStaleMs : Int := 5000

/-- `<pid>.<ms>.<rand>`: the pid, and what makes it unique. -/
structure Token where
  pid : Nat
  serial : Nat
deriving DecidableEq, Repr

/-- What a read of the path gives: the file is gone, or has no owner, or names one. -/
inductive Content where
  | gone
  | empty
  | token (t : Token)
deriving DecidableEq, Repr

def Content.pid : Content → Option Nat
  | .token t => some t.pid
  | _ => none

/-- The file, by the attempt that created it; it is empty until that attempt has
written its token. -/
structure LockFile where
  token : Token
  written : Bool
  mtime : Int
deriving DecidableEq, Repr

structure Watch where
  mtime : Option Int
  since : Int
deriving DecidableEq, Repr

/-- Where a caller is: what its code does next. -/
inductive Phase where
  | outside
  | trying
  | created (t : Token)
  | written (t : Token)
  | blocked
  | saw (holder : Content)
  | judging (holder : Content)
  | reclaiming (expected : Content)
  | unlinking
  | retrying
  | inside (t : Token)
  | touching (t : Token)
  | leaving (t : Token)
  | releasing
deriving DecidableEq, Repr

structure Caller where
  phase : Phase
  watch : Watch
deriving DecidableEq, Repr

/-- Who the callers are: each runs in the process with its pid. -/
structure LockEnv where
  pid : Nat → Nat
  opts : Nat → FileLockOptions

structure LockState where
  file : Option LockFile
  callers : Nat → Caller
  dead : List Nat
  issued : Nat

namespace LockState

/-- `readToken(path)`. -/
def read (s : LockState) : Content :=
  match s.file with
  | none => .gone
  | some f => if f.written then .token f.token else .empty

/-- Caller `c` moves on, leaving the file as given. -/
def move (s : LockState) (c : Nat) (me : Caller) (file : Option LockFile) : LockState :=
  { s with callers := Function.update s.callers c me, file := file }

end LockState

inductive LockAct where
  /-- The caller enters `withFileLock`. -/
  | call (c : Nat)
  /-- It takes the next step of its code, at the given time. -/
  | proceed (c : Nat) (time : Int)
  /-- The next step of its code throws. -/
  | fail (c : Nat)
  /-- The touch timer of a holder fires. -/
  | touch (c : Nat)
  /-- The deadline has passed. -/
  | giveUp (c : Nat)
  /-- A process dies. -/
  | die (pid : Nat)
deriving DecidableEq, Repr

/-- The staleness watch after a stat, and whether the file is stale. -/
def judge (opts : FileLockOptions) (holder : Content) (watch : Watch) (mtime : Option Int) (now : Int) : Watch × Bool :=
  match mtime with
  | none => ({ watch with mtime := none }, false)
  | some m =>
    if watch.mtime ≠ some m then (⟨some m, now⟩, false)
    else (watch, decide ((if holder.pid.isNone then min opts.staleMs unreadableStaleMs else opts.staleMs) ≤
      now - watch.since))

/-- A write or a touch reaches the file only while it is the one that was opened. -/
def writeTo (file : Option LockFile) (t : Token) (mtime : Int) : Option LockFile :=
  file.map fun f => if f.token = t then ⟨t, true, mtime⟩ else f

section Step
variable (env : LockEnv)

/-- `pid !== null && pid !== process.pid && !isAlive(pid)`. -/
def holderDied (s : LockState) (c : Nat) (holder : Content) : Bool :=
  match holder.pid with
  | none => false
  | some pid => pid ≠ env.pid c && pid ∈ s.dead

/-- The next step of caller `c`. -/
def proceed (s : LockState) (c : Nat) (time : Int) : Option LockState :=
  let me := s.callers c
  let goto (phase : Phase) : LockState := s.move c { me with phase := phase } s.file
  let forget (phase : Phase) (file : Option LockFile) : LockState := s.move c ⟨phase, { me.watch with mtime := none }⟩ file
  match me.phase with
  | .outside => none
  | .trying =>
    let token : Token := ⟨env.pid c, s.issued⟩
    some { (if s.file.isNone then s.move c { me with phase := .created token } (some ⟨token, false, time⟩)
      else goto .blocked) with issued := s.issued + 1 }
  | .created t => some (s.move c { me with phase := .written t } (writeTo s.file t time))
  | .written t => some (goto (if s.read = .token t then .inside t else .blocked))
  | .blocked => some (goto (.saw s.read))
  | .saw holder => some (goto (if holderDied env s c holder then .reclaiming holder else .judging holder))
  | .judging holder =>
    let (watch, stale) := judge (env.opts c) holder me.watch (s.file.map (·.mtime)) time
    some (s.move c ⟨if stale then .reclaiming holder else .retrying, watch⟩ s.file)
  | .reclaiming expected => some (if s.read = expected then goto .unlinking else forget .retrying s.file)
  | .unlinking => some (forget .retrying none)
  | .retrying => some (goto .trying)
  | .inside t => some (goto (.leaving t))
  | .touching t => some (s.move c { me with phase := .inside t } (s.file.map fun f => { f with mtime := time }))
  | .leaving t => some (goto (if s.read = .token t then .releasing else .outside))
  | .releasing => some (s.move c { me with phase := .outside } none)

/-- The next step throws: the callers' errors leave the call, those of an unlink or a
touch are swallowed. -/
def fail (s : LockState) (c : Nat) : Option LockState :=
  let me := s.callers c
  match me.phase with
  | .trying | .created _ => some (s.move c { me with phase := .outside } s.file)
  | .unlinking => some (s.move c ⟨.retrying, { me.watch with mtime := none }⟩ s.file)
  | .touching t => some (s.move c { me with phase := .inside t } s.file)
  | .releasing => some (s.move c { me with phase := .outside } s.file)
  | _ => none

def lockStep (s : LockState) : LockAct → Option LockState
  | .die pid => some { s with dead := pid :: s.dead }
  | .call c =>
    if env.pid c ∈ s.dead ∨ (s.callers c).phase ≠ .outside then none
    else some (s.move c ⟨.trying, ⟨none, 0⟩⟩ s.file)
  | .proceed c time => if env.pid c ∈ s.dead then none else proceed env s c time
  | .fail c => if env.pid c ∈ s.dead then none else fail s c
  | .touch c =>
    if env.pid c ∈ s.dead then none
    else match (s.callers c).phase with
      | .inside t => some (if s.read = .token t then s.move c { s.callers c with phase := .touching t } s.file else s)
      | _ => none
  | .giveUp c =>
    if env.pid c ∈ s.dead ∨ (s.callers c).phase ≠ .retrying then none
    else some (s.move c { s.callers c with phase := .outside } s.file)

end Step

/-! ## What the lock is for -/

/-- The token of the critical section a caller is in. -/
def Phase.insideToken : Phase → Option Token
  | .inside t | .touching t => some t
  | _ => none

/-- The caller stands before an unlink. -/
def Phase.unlinks : Phase → Bool
  | .unlinking | .releasing => true
  | _ => false

section Purpose
variable (env : LockEnv) (s : LockState)

def Alive (c : Nat) : Prop := env.pid c ∉ s.dead

/-- A live caller is inside its critical section. -/
def Inside (c : Nat) (t : Token) : Prop := Alive env s c ∧ (s.callers c).phase.insideToken = some t

def MutuallyExclusive : Prop := ∀ p q t u, Inside env s p t → Inside env s q u → p = q

/-- The action deletes a lock file that carries another live holder's token. -/
def DeletesHeld (a : LockAct) : Prop :=
  ∃ c time, a = .proceed c time ∧ Alive env s c ∧ (s.callers c).phase.unlinks = true ∧
    ∃ p t, p ≠ c ∧ Inside env s p t ∧ s.read = .token t

/-- Touches keep the file of a live holder from being judged stale. -/
def KeptFresh : LockAct → Prop
  | .proceed c now => ∀ holder p t, (s.callers c).phase = .judging holder → Inside env s p t → s.read = .token t →
      (judge (env.opts c) holder (s.callers c).watch (s.file.map (·.mtime)) now).2 = false
  | _ => True

/-- No caller reads its token back while another stands between a read and the unlink
it is for, or has judged that token stale. -/
def NoEntryBeforeUnlink : LockAct → Prop
  | .proceed c _ => ∀ t, (s.callers c).phase = .written t → s.read = .token t →
      ∀ q, q ≠ c → Alive env s q →
        (s.callers q).phase.unlinks = false ∧ (s.callers q).phase ≠ .reclaiming (.token t)
  | _ => True

end Purpose

/-- Nobody has called yet; a file may be left from earlier, and some processes may be dead. -/
def lockStart (file : Option LockFile) (dead : List Nat) (issued : Nat) : LockState :=
  ⟨file, fun _ => ⟨.outside, ⟨none, 0⟩⟩, dead, issued⟩

end Hayven.Util
