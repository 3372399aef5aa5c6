import Hayven.Crdt.Hlc
/-!
# HLC generator

`HlcGenerator` of `crdt/hlc.ts`. The physical clock may read anything at any
call, so each call takes its own reading. A tick is above everything the
generator emitted or adopted before; an observation past the skew bound is
refused and leaves the clock alone.
-/
open Hayven.Lib

namespace Hayven.Crdt

def maxObservedSkewMs : Nat := 24 * 60 * 60 * 1000

structure HlcGenerator where
  last : Hlc := ⟨0, 0⟩
  maxSkewMs : Int := maxObservedSkewMs
  skewRejections : Nat := 0
  warnedSkew : Bool := false
deriving DecidableEq, Repr

namespace HlcGenerator

def tick (g : HlcGenerator) (now : Int) : Hlc × HlcGenerator :=
  let last : Hlc :=
    if now > g.last.wallMs then ⟨now.toNat, 0⟩
    else if g.last.counter ≥ counterMax then ⟨g.last.wallMs + 1, 0⟩
    else ⟨g.last.wallMs, g.last.counter + 1⟩
  (last, { g with last })

/-- Adopt a remote clock; `false` if the skew bound refused it. -/
def observe (g : HlcGenerator) (now : Int) (remote : Hlc) : Bool × HlcGenerator :=
  let horizon := now + g.maxSkewMs
  if remote.wallMs > horizon then
    (false, { g with skewRejections := g.skewRejections + 1, warnedSkew := true })
  else if compareHlc remote g.last = .gt then (true, { g with last := remote })
  else (true, g)

def rejectedSkewCount (g : HlcGenerator) : Nat := g.skewRejections

def peek (g : HlcGenerator) : Hlc := g.last

end HlcGenerator

theorem compareHlc_lt {a b : Hlc} :
    compareHlc a b = .lt ↔ a.wallMs < b.wallMs ∨ (a.wallMs = b.wallMs ∧ a.counter < b.counter) := by
  unfold compareHlc
  split
  case isTrue hw =>
    split <;> simp <;> omega
  case isFalse hw =>
    split
    · split <;> simp <;> omega
    · simp; omega

/-- `a` is at or below `b`. -/
def Hlc.le (a b : Hlc) : Prop := (compareHlc a b).isLE

theorem Hlc.le_refl (a : Hlc) : a.le a := Std.ReflCmp.isLE_rfl

theorem Hlc.le_trans {a b c : Hlc} (hab : a.le b) (hbc : b.le c) : a.le c := Std.TransCmp.isLE_trans hab hbc

theorem Hlc.lt_of_le_of_lt {a b c : Hlc} (hab : a.le b) (hbc : compareHlc b c = .lt) : compareHlc a c = .lt :=
  Std.TransCmp.lt_of_isLE_of_lt hab hbc

theorem Hlc.le_of_lt {a b : Hlc} (h : compareHlc a b = .lt) : a.le b := Ordering.isLE_of_eq_lt h

theorem Hlc.ne_of_lt {a b : Hlc} (h : compareHlc a b = .lt) : a ≠ b := by
  rintro rfl
  have hself : compareHlc a a = .eq := Std.ReflCmp.compare_self
  rw [hself] at h
  cases h

namespace HlcGenerator

/-! ## What each call does -/

@[simp] theorem tick_last (g : HlcGenerator) (now : Int) : (g.tick now).2.last = (g.tick now).1 := rfl

/-- A tick is above everything before it. -/
theorem tick_lt (g : HlcGenerator) (now : Int) : compareHlc g.last (g.tick now).1 = .lt := by
  rw [compareHlc_lt]
  unfold tick
  dsimp only
  split
  · left; dsimp only; omega
  · split
    · left; dsimp only; omega
    · right; dsimp only; omega

/-- The counter of a tick fits its two bytes. -/
theorem tick_counter_le (g : HlcGenerator) (now : Int) : (g.tick now).1.counter ≤ counterMax := by
  unfold tick
  dsimp only
  split
  · exact Nat.zero_le _
  · split
    · exact Nat.zero_le _
    · dsimp only; omega

@[simp] theorem observe_maxSkewMs (g : HlcGenerator) (now : Int) (r : Hlc) :
    (g.observe now r).2.maxSkewMs = g.maxSkewMs := by
  unfold observe; dsimp only; split <;> [rfl; split <;> rfl]

/-- Observing never turns the clock back. -/
theorem observe_le (g : HlcGenerator) (now : Int) (r : Hlc) : g.last.le (g.observe now r).2.last := by
  unfold observe
  dsimp only
  split
  · exact Hlc.le_refl _
  · split
    case isTrue h => exact Hlc.le_of_lt (Std.OrientedCmp.lt_of_gt h)
    case isFalse => exact Hlc.le_refl _

/-- An observation is accepted when the remote clock is within the skew bound. -/
theorem observe_accepted {g : HlcGenerator} {now : Int} {r : Hlc} :
    (g.observe now r).1 = true ↔ (r.wallMs : Int) ≤ now + g.maxSkewMs := by
  unfold observe
  dsimp only
  split
  · simp; omega
  · split <;> simp <;> omega

/-- What an accepted observation covers. -/
theorem le_observe {g : HlcGenerator} {now : Int} {r : Hlc} (h : (r.wallMs : Int) ≤ now + g.maxSkewMs) :
    r.le (g.observe now r).2.last := by
  unfold observe
  dsimp only
  rw [if_neg (by omega)]
  split
  case isTrue => exact Hlc.le_refl _
  case isFalse hle => exact Ordering.ne_gt_iff_isLE.1 hle

/-- A refused observation leaves the clock alone; any other sets it to one of the two values. -/
theorem observe_last (g : HlcGenerator) (now : Int) (r : Hlc) :
    (g.observe now r).2.last = g.last ∨
      ((g.observe now r).2.last = r ∧ (r.wallMs : Int) ≤ now + g.maxSkewMs ∧ compareHlc r g.last = .gt) := by
  unfold observe
  dsimp only
  split
  · exact .inl rfl
  · split
    case isTrue h => exact .inr ⟨rfl, by omega, h⟩
    case isFalse => exact .inl rfl

end HlcGenerator

end Hayven.Crdt

/-!
## Laws of the clock over every interleaving

Ticks and observations in any order, each with a physical reading of its own.
What a run emitted and adopted is kept beside the generator; the drift of the
wall part is bounded by the readings, the skew bound and the counter
overflows.
-/

namespace Hayven.Crdt

namespace HlcGenerator

inductive ClockCall where
  | tick (now : Int)
  | observe (now : Int) (remote : Hlc)

def ClockCall.now : ClockCall → Int
  | .tick now | .observe now _ => now

/-- A generator and what it did so far. -/
structure Trace where
  generator : HlcGenerator
  ticks : List Hlc := []
  accepted : List Hlc := []
  readings : List Int := []
  overflows : Nat := 0

/-- A tick that finds its counter full and the physical clock not ahead. -/
def overflowing (g : HlcGenerator) (now : Int) : Bool := ¬ now > g.last.wallMs ∧ g.last.counter ≥ counterMax

def Trace.step (t : Trace) : ClockCall → Trace
  | .tick now =>
    { t with
      generator := (t.generator.tick now).2
      ticks := t.ticks ++ [(t.generator.tick now).1]
      readings := t.readings ++ [now]
      overflows := t.overflows + if overflowing t.generator now then 1 else 0 }
  | .observe now remote =>
    { t with
      generator := (t.generator.observe now remote).2
      accepted := if (t.generator.observe now remote).1 then t.accepted ++ [remote] else t.accepted
      readings := t.readings ++ [now] }

def run (g : HlcGenerator) (calls : List ClockCall) : Trace := calls.foldl Trace.step { generator := g }

/-- What holds of every trace: the clock is at or above all it emitted and adopted, and its wall part has not drifted. -/
structure Trace.Inv (g : HlcGenerator) (t : Trace) : Prop where
  skew : t.generator.maxSkewMs = g.maxSkewMs
  ticks : ∀ h ∈ t.ticks, h.le t.generator.last
  accepted : ∀ h ∈ t.accepted, h.le t.generator.last
  drift : ∀ top : Int, (∀ r ∈ t.readings, r ≤ top) →
    (t.generator.last.wallMs : Int) ≤ max (g.last.wallMs : Int) (top + max g.maxSkewMs 0) + t.overflows

theorem tick_wallMs (g : HlcGenerator) (now : Int) :
    ((g.tick now).1.wallMs : Int) ≤ max (g.last.wallMs : Int) now + if overflowing g now then 1 else 0 := by
  unfold tick overflowing
  dsimp only
  by_cases hnow : now > g.last.wallMs
  · simp only [hnow, if_true, not_true_eq_false, false_and, decide_false, Bool.false_eq_true, if_false]
    omega
  · by_cases hfull : g.last.counter ≥ counterMax
    · simp only [hnow, hfull, if_true, if_false, not_false_eq_true, and_self, decide_true]
      omega
    · simp only [hnow, hfull, if_false, and_false, decide_false, Bool.false_eq_true]
      omega

theorem Trace.Inv.step {g : HlcGenerator} {t : Trace} (h : t.Inv g) (c : ClockCall) : (t.step c).Inv g := by
  cases c with
  | tick now =>
    have hlt := tick_lt t.generator now
    have hup : ∀ r : Hlc, r.le t.generator.last → r.le (t.generator.tick now).1 := fun r hr => Hlc.le_trans hr (Hlc.le_of_lt hlt)
    refine ⟨h.skew, ?_, fun r hr => hup r (h.accepted r hr), ?_⟩
    · intro r hr
      rcases List.mem_append.1 hr with hr | hr
      · exact hup r (h.ticks r hr)
      · rw [List.mem_singleton.1 hr]
        exact Hlc.le_refl _
    · have hwall := tick_wallMs t.generator now
      intro top htop
      have hdrift := h.drift top fun r hr => htop r (List.mem_append_left _ hr)
      have hnow := htop now (List.mem_append_right _ (List.mem_singleton_self now))
      change ((t.generator.tick now).1.wallMs : Int) ≤ _ + ((t.overflows + _ : Nat) : Int)
      split at hwall
      · rename_i hover
        rw [if_pos hover]
        push_cast
        omega
      · rename_i hover
        rw [if_neg hover]
        push_cast
        omega
  | observe now remote =>
    have hle := observe_le t.generator now remote
    refine ⟨(observe_maxSkewMs ..).trans h.skew, fun r hr => Hlc.le_trans (h.ticks r hr) hle, ?_, ?_⟩
    · intro r hr
      simp only [Trace.step] at hr
      split at hr
      · rename_i hacc
        rcases List.mem_append.1 hr with hr | hr
        · exact Hlc.le_trans (h.accepted r hr) hle
        · rw [List.mem_singleton.1 hr]
          exact le_observe (observe_accepted.1 hacc)
      · exact Hlc.le_trans (h.accepted r hr) hle
    · intro top htop
      have hdrift := h.drift top fun r hr => htop r (List.mem_append_left _ hr)
      have hnow := htop now (List.mem_append_right _ (List.mem_singleton_self now))
      simp only [Trace.step]
      rcases observe_last t.generator now remote with hsame | ⟨hset, hbound, -⟩
      · rw [hsame]
        omega
      · rw [hset]
        rw [h.skew] at hbound
        omega

theorem run_inv (g : HlcGenerator) (calls : List ClockCall) : (run g calls).Inv g := by
  have hstart : Trace.Inv g { generator := g } := by
    refine ⟨rfl, fun _ h => absurd h List.not_mem_nil, fun _ h => absurd h List.not_mem_nil, ?_⟩
    intro top _
    dsimp only
    omega
  have hfold : ∀ (calls : List ClockCall) (t : Trace), t.Inv g → (calls.foldl Trace.step t).Inv g := by
    intro calls
    induction calls with
    | nil => exact fun _ h => h
    | cons c calls ih => exact fun t h => ih _ (h.step c)
  exact hfold calls _ hstart

/-- The laws of one generator over every interleaving: the next tick is above every tick and every accepted remote before
it and its counter fits, a refused observation leaves the clock alone, and the clock is `within` some bound. -/
def LawsHold (within : HlcGenerator → Trace → Prop) : Prop :=
  ∀ (g : HlcGenerator) (calls : List ClockCall) (now : Int),
    (∀ h ∈ (run g calls).ticks, compareHlc h ((run g calls).generator.tick now).1 = .lt) ∧
    (∀ h ∈ (run g calls).accepted, compareHlc h ((run g calls).generator.tick now).1 = .lt) ∧
    ((run g calls).generator.tick now).1.counter ≤ counterMax ∧
    (∀ remote, ((run g calls).generator.observe now remote).1 = false →
      ((run g calls).generator.observe now remote).2.last = (run g calls).generator.last) ∧
    within g (run g calls)

/-- The wall part is at most the largest reading plus the skew bound and the counter overflows. -/
def WithinReadings (g : HlcGenerator) (t : Trace) : Prop :=
  ∀ top : Int, t.readings ≠ [] → (∀ r ∈ t.readings, r ≤ top) →
    (t.generator.last.wallMs : Int) ≤ top + g.maxSkewMs + t.overflows

/-- As `WithinReadings`, but never below where the clock started nor for a skew bound below zero. -/
def WithinStart (g : HlcGenerator) (t : Trace) : Prop :=
  ∀ top : Int, (∀ r ∈ t.readings, r ≤ top) →
    (t.generator.last.wallMs : Int) ≤ max (g.last.wallMs : Int) (top + max g.maxSkewMs 0) + t.overflows

theorem observe_refused {g : HlcGenerator} {now : Int} {r : Hlc} (h : (g.observe now r).1 = false) :
    (g.observe now r).2.last = g.last := by
  have hfar : ¬ (r.wallMs : Int) ≤ now + g.maxSkewMs := fun hle => by rw [observe_accepted.2 hle] at h; cases h
  rcases observe_last g now r with hsame | ⟨-, hbound, -⟩
  · exact hsame
  · exact absurd hbound hfar

end HlcGenerator

end Hayven.Crdt
