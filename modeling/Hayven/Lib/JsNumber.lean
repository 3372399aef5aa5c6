import Mathlib.Algebra.Order.Ring.Rat
import Mathlib.Tactic.Common
/-!
# Numbers of the runtime

A number is a double: not-a-number, an infinity, or a finite value, kept as the
rational it stands for (so the two zeros are one). Every comparison with
not-a-number is false.
-/

namespace Hayven.Lib

inductive JsNumber where
  | nan
  | negInf
  | fin (q : Rat)
  | posInf
deriving DecidableEq, Repr

namespace JsNumber

instance : NatCast JsNumber := ⟨fun n => .fin n⟩
instance : IntCast JsNumber := ⟨fun n => .fin n⟩

/-- `a < b`. -/
def lt : JsNumber → JsNumber → Bool
  | .nan, _ | _, .nan => false
  | .negInf, b => b ≠ .negInf
  | .fin q, .fin r => decide (q < r)
  | .fin _, b => b = .posInf
  | .posInf, _ => false

/-- `a > b`. -/
def gt (a b : JsNumber) : Bool := lt b a

/-- `a <= b`. -/
def le : JsNumber → JsNumber → Bool
  | .nan, _ | _, .nan => false
  | a, b => a = b || lt a b

def isFinite : JsNumber → Bool
  | .fin _ => true
  | _ => false

@[simp] theorem gt_fin (q : Rat) (t : Int) : (fin q).gt t = decide ((t : Rat) < q) := rfl
@[simp] theorem gt_nan (t : Int) : nan.gt t = false := rfl
@[simp] theorem gt_negInf (t : Int) : negInf.gt t = false := rfl
@[simp] theorem gt_posInf (t : Int) : posInf.gt t = true := rfl

/-- A number cannot be above a time and at or below it. -/
theorem le_eq_false_of_gt {n : JsNumber} {t : Int} (h : n.gt t = true) : n.le t = false := by
  cases n with
  | fin q =>
    simp only [gt_fin, decide_eq_true_eq] at h
    have hne : ¬ JsNumber.fin q = .fin t := by
      rintro ⟨rfl⟩
      exact Rat.lt_irrefl h
    have hlt : ¬ q < (t : Rat) := Rat.not_lt.2 (Rat.le_of_lt h)
    show (decide (JsNumber.fin q = .fin t) || decide (q < (t : Rat))) = false
    simp [hne, hlt]
  | nan => rfl
  | negInf => simp at h
  | posInf => rfl

/-- What is above a time is above every earlier one. -/
theorem gt_of_le {n : JsNumber} {t t' : Int} (hle : t ≤ t') (h : n.gt t' = true) : n.gt t = true := by
  cases n with
  | fin q =>
    simp only [gt_fin, decide_eq_true_eq] at h ⊢
    rw [← Rat.not_le] at h ⊢
    exact fun hq => h (Rat.le_trans hq (Rat.intCast_le_intCast.2 hle))
  | nan => exact h
  | negInf => exact h
  | posInf => exact gt_posInf t

theorem lt_trans {a b c : JsNumber} (hab : a.lt b = true) (hbc : b.lt c = true) : a.lt c = true := by
  cases a <;> cases b <;> cases c <;> simp only [lt, decide_eq_true_eq, Bool.false_eq_true, reduceCtorEq, ne_eq,
    not_true_eq_false, not_false_eq_true, decide_true, decide_false] at hab hbc ⊢
  exact hab.trans hbc

theorem lt_asymm {a b : JsNumber} (hab : a.lt b = true) : b.lt a = false := by
  cases a <;> cases b <;> simp_all [lt]
  exact le_of_lt hab

end JsNumber

/-! ## Rounding -/

/-- The integer nearest to `n / d`, a tie going to the even one. -/
def divHalfEven (n d : Nat) : Nat :=
  if n % d * 2 < d ∨ (n % d * 2 = d ∧ n / d % 2 = 0) then n / d else n / d + 1

/-- The double nearest to a natural number. -/
def roundNat (n : Nat) : Nat :=
  if n < 2 ^ 53 then n
  else divHalfEven n (2 ^ (n.log2 - 52)) * 2 ^ (n.log2 - 52)

/-- The exponent of the last place of the double next to `n / d`. -/
def lastPlace (n d : Nat) : Int :=
  let e : Int := (n.log2 : Int) - d.log2
  let below := if e < 0 then n * 2 ^ e.natAbs < d else n < d * 2 ^ e.natAbs
  max ((if below then e - 1 else e) - 52) (-1074)

/-- The double nearest to a rational, an infinity past the largest one. -/
def roundRat (q : Rat) : JsNumber :=
  let n := q.num.natAbs
  let place := lastPlace n q.den
  let magnitude : Rat :=
    if place < 0 then mkRat (divHalfEven (n * 2 ^ place.natAbs) q.den) (2 ^ place.natAbs)
    else (divHalfEven n (q.den * 2 ^ place.natAbs) * 2 ^ place.natAbs : Nat)
  if magnitude < (2 ^ 1024 : Nat) then .fin (if q < 0 then -magnitude else magnitude)
  else if q < 0 then .negInf else .posInf

namespace JsNumber

/-- `a + b`. -/
def add : JsNumber → JsNumber → JsNumber
  | .fin q, .fin r => roundRat (q + r)
  | .nan, _ | _, .nan | .posInf, .negInf | .negInf, .posInf => .nan
  | .posInf, _ | _, .posInf => .posInf
  | .negInf, _ | _, .negInf => .negInf

/-- `a * b`. -/
def mul : JsNumber → JsNumber → JsNumber
  | .fin q, .fin r => roundRat (q * r)
  | .nan, _ | _, .nan => .nan
  | .fin q, b | b, .fin q =>
    if q = 0 then .nan else if (q < 0) = (b = .negInf) then .posInf else .negInf
  | a, b => if a = b then .posInf else .negInf

end JsNumber

theorem roundNat_of_lt {n : Nat} (h : n < 2 ^ 53) : roundNat n = n := if_pos h

theorem div_le_divHalfEven (n d : Nat) : n / d ≤ divHalfEven n d := by
  unfold divHalfEven; split <;> omega

/-- Rounding never crosses `2 ^ 53` downwards. -/
theorem le_roundNat_of_le {n : Nat} (h : 2 ^ 53 ≤ n) : 2 ^ 53 ≤ roundNat n := by
  have hn : n ≠ 0 := by omega
  have hlog : 53 ≤ n.log2 := (Nat.le_log2 hn).2 h
  have hquot : 2 ^ 52 ≤ n / 2 ^ (n.log2 - 52) := by
    rw [Nat.le_div_iff_mul_le (Nat.two_pow_pos _), ← Nat.pow_add]
    exact (Nat.le_log2 hn).1 (by omega)
  have hunit : 2 ≤ 2 ^ (n.log2 - 52) := Nat.le_self_pow (by omega) 2
  rw [roundNat, if_neg (by omega)]
  calc 2 ^ 53 = 2 ^ 52 * 2 := rfl
    _ ≤ divHalfEven n _ * 2 ^ (n.log2 - 52) :=
      Nat.mul_le_mul (Nat.le_trans hquot (div_le_divHalfEven _ _)) hunit

end Hayven.Lib
