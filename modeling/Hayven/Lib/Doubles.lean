import Mathlib.Algebra.Order.Field.Power
import Hayven.Lib.WholeNumbers
/-!
# Doubles

What `roundRat` returns is a multiple of a power of two with few digits, and such a
number is its own rounding: rounding twice is rounding once.
-/

namespace Hayven.Lib

/-! ## The last place -/

theorem neg_1074_le_lastPlace (n d : Nat) : -1074 ≤ lastPlace n d := le_max_right _ _

theorem below_iff {n d : Nat} (hd : 0 < d) (e : Int) :
    (if e < 0 then n * 2 ^ e.natAbs < d else n < d * 2 ^ e.natAbs) ↔ (n : Rat) / d < (2 : Rat) ^ e := by
  have hdq : (0 : Rat) < d := by exact_mod_cast hd
  rw [div_lt_iff₀ hdq]
  split
  · next hneg =>
    have hpow : (0 : Rat) < (2 : Rat) ^ e.natAbs := by positivity
    have he : (2 : Rat) ^ e = ((2 : Rat) ^ e.natAbs)⁻¹ := by
      rw [← zpow_natCast, ← zpow_neg]
      congr 1
      omega
    rw [he, inv_mul_eq_div, lt_div_iff₀ hpow]
    exact_mod_cast Iff.rfl
  · next hneg =>
    have he : (2 : Rat) ^ e = (2 : Rat) ^ e.natAbs := by
      rw [← zpow_natCast]
      congr 1
      omega
    rw [he, mul_comm]
    exact_mod_cast Iff.rfl

/-- The binary logarithm of a quotient is that of the parts, or one less. -/
theorem quotient_log {n d : Nat} (hn : n ≠ 0) (hd : 0 < d) :
    (2 : Rat) ^ ((n.log2 : Int) - d.log2 - 1) < (n : Rat) / d ∧ (n : Rat) / d < (2 : Rat) ^ ((n.log2 : Int) - d.log2 + 1) := by
  have hdq : (0 : Rat) < d := by exact_mod_cast hd
  have two_ne : (2 : Rat) ≠ 0 := by norm_num
  have hnlow : (2 : Rat) ^ (n.log2 : Int) ≤ n := by exact_mod_cast (Nat.le_log2 hn).1 le_rfl
  have hnhigh : (n : Rat) < (2 : Rat) ^ ((n.log2 : Int) + 1) := by exact_mod_cast (Nat.lt_log2_self : n < _)
  have hdlow : (2 : Rat) ^ (d.log2 : Int) ≤ d := by exact_mod_cast (Nat.le_log2 hd.ne').1 le_rfl
  have hdhigh : (d : Rat) < (2 : Rat) ^ ((d.log2 : Int) + 1) := by exact_mod_cast (Nat.lt_log2_self : d < _)
  constructor
  · rw [lt_div_iff₀ hdq]
    calc (2 : Rat) ^ ((n.log2 : Int) - d.log2 - 1) * d
        < (2 : Rat) ^ ((n.log2 : Int) - d.log2 - 1) * (2 : Rat) ^ ((d.log2 : Int) + 1) :=
          mul_lt_mul_of_pos_left hdhigh (by positivity)
      _ = (2 : Rat) ^ (n.log2 : Int) := by
          rw [← zpow_add₀ two_ne]
          congr 1
          omega
      _ ≤ n := hnlow
  · rw [div_lt_iff₀ hdq]
    calc (n : Rat) < (2 : Rat) ^ ((n.log2 : Int) + 1) := hnhigh
      _ = (2 : Rat) ^ ((n.log2 : Int) - d.log2 + 1) * (2 : Rat) ^ (d.log2 : Int) := by
          rw [← zpow_add₀ two_ne]
          congr 1
          omega
      _ ≤ (2 : Rat) ^ ((n.log2 : Int) - d.log2 + 1) * d := mul_le_mul_of_nonneg_left hdlow (by positivity)

/-- A quotient has at most 53 digits before its last place. -/
theorem quotient_lt {n d : Nat} (hn : n ≠ 0) (hd : 0 < d) : (n : Rat) / d < (2 : Rat) ^ (lastPlace n d + 53) := by
  obtain ⟨-, hhigh⟩ := quotient_log hn hd
  have hone : (1 : Rat) ≤ 2 := by norm_num
  unfold lastPlace
  dsimp only
  by_cases hbelow : if (n.log2 : Int) - d.log2 < 0 then n * 2 ^ ((n.log2 : Int) - d.log2).natAbs < d
      else n < d * 2 ^ ((n.log2 : Int) - d.log2).natAbs
  · rw [if_pos hbelow]
    exact lt_of_lt_of_le ((below_iff hd _).1 hbelow) (zpow_le_zpow_right₀ hone (by omega))
  · rw [if_neg hbelow]
    exact lt_of_lt_of_le hhigh (zpow_le_zpow_right₀ hone (by omega))

/-- It has 53 of them, unless the last place is the last of all. -/
theorem le_quotient {n d : Nat} (hn : n ≠ 0) (hd : 0 < d) (hplace : lastPlace n d ≠ -1074) :
    (2 : Rat) ^ (lastPlace n d + 52) ≤ (n : Rat) / d := by
  obtain ⟨hlow, -⟩ := quotient_log hn hd
  have hone : (1 : Rat) ≤ 2 := by norm_num
  unfold lastPlace at hplace ⊢
  dsimp only at hplace ⊢
  by_cases hbelow : if (n.log2 : Int) - d.log2 < 0 then n * 2 ^ ((n.log2 : Int) - d.log2).natAbs < d
      else n < d * 2 ^ ((n.log2 : Int) - d.log2).natAbs
  · rw [if_pos hbelow] at hplace ⊢
    exact le_trans (zpow_le_zpow_right₀ hone (by omega)) hlow.le
  · rw [if_neg hbelow] at hplace ⊢
    rw [below_iff hd, not_lt] at hbelow
    exact le_trans (zpow_le_zpow_right₀ hone (by omega)) hbelow

/-! ## Magnitudes -/

/-- The magnitude `roundRat` gives `n / d`. -/
def magnitude (n d : Nat) : Rat :=
  if lastPlace n d < 0 then mkRat (divHalfEven (n * 2 ^ (lastPlace n d).natAbs) d) (2 ^ (lastPlace n d).natAbs)
  else (divHalfEven n (d * 2 ^ (lastPlace n d).natAbs) * 2 ^ (lastPlace n d).natAbs : Nat)

theorem roundRat_eq (q : Rat) :
    roundRat q =
      if magnitude q.num.natAbs q.den < (2 ^ 1024 : Nat) then
        .fin (if q < 0 then -magnitude q.num.natAbs q.den else magnitude q.num.natAbs q.den)
      else if q < 0 then .negInf else .posInf := rfl

theorem divHalfEven_mul {c d : Nat} (hd : 0 < d) : divHalfEven (c * d) d = c := by
  unfold divHalfEven
  rw [Nat.mul_mod_left, Nat.mul_div_cancel _ hd]
  exact if_pos (.inl (by omega))

theorem divHalfEven_le {n d c : Nat} (hd : 0 < d) (h : n < c * d) : divHalfEven n d ≤ c := by
  have hdiv : n / d < c := (Nat.div_lt_iff_lt_mul hd).2 h
  unfold divHalfEven
  split <;> omega

/-- A magnitude counts its last place at most `2 ^ 53` times. -/
theorem magnitude_form {n d : Nat} (hd : 0 < d) :
    ∃ k : Nat, k ≤ 2 ^ 53 ∧ magnitude n d = k * (2 : Rat) ^ lastPlace n d := by
  by_cases hn : n = 0
  · subst hn
    refine ⟨0, Nat.zero_le _, ?_⟩
    have hzero : ∀ e, 0 < e → divHalfEven 0 e = 0 := fun e he => by simpa using divHalfEven_mul (c := 0) he
    unfold magnitude
    split
    · simp [hzero d hd]
    · simp [hzero _ (Nat.mul_pos hd (Nat.two_pow_pos _))]
  · have hdq : (0 : Rat) < d := by exact_mod_cast hd
    have hlt := quotient_lt hn hd
    rw [div_lt_iff₀ hdq] at hlt
    unfold magnitude
    split
    · next hneg =>
      have hplace : lastPlace n d = -((lastPlace n d).natAbs : Int) := by omega
      generalize (lastPlace n d).natAbs = p at hplace ⊢
      rw [hplace] at hlt ⊢
      have hpow : (0 : Rat) < (2 : Rat) ^ p := by positivity
      refine ⟨divHalfEven (n * 2 ^ p) d, divHalfEven_le hd ?_, ?_⟩
      · have hscaled : (n : Rat) * 2 ^ p < 2 ^ 53 * d := by
          calc (n : Rat) * 2 ^ p < (2 : Rat) ^ (-(p : Int) + 53) * d * 2 ^ p := mul_lt_mul_of_pos_right hlt hpow
            _ = 2 ^ 53 * d := by
              rw [zpow_add₀ (by norm_num), zpow_neg, zpow_natCast]
              field_simp
        exact_mod_cast hscaled
      · rw [Rat.mkRat_eq_div, zpow_neg, zpow_natCast]
        push_cast
        rfl
    · next hneg =>
      have hplace : lastPlace n d = ((lastPlace n d).natAbs : Int) := by omega
      generalize (lastPlace n d).natAbs = p at hplace ⊢
      rw [hplace] at hlt ⊢
      refine ⟨divHalfEven n (d * 2 ^ p), divHalfEven_le (Nat.mul_pos hd (Nat.two_pow_pos _)) ?_, ?_⟩
      · have hscaled : (n : Rat) < 2 ^ 53 * (d * 2 ^ p) := by
          calc (n : Rat) < (2 : Rat) ^ ((p : Int) + 53) * d := hlt
            _ = 2 ^ 53 * (d * 2 ^ p) := by
              rw [zpow_add₀ (by norm_num), zpow_natCast]
              norm_num
              ring
        exact_mod_cast hscaled
      · rw [zpow_natCast]
        push_cast
        rfl

/-- What counts some place at most `2 ^ 53` times is a multiple of its own last place. -/
theorem multiple_of_lastPlace {n d k : Nat} {p : Int} (hn : n ≠ 0) (hd : 0 < d) (hk : k ≤ 2 ^ 53) (hp : -1074 ≤ p)
    (h : (n : Rat) / d = k * (2 : Rat) ^ p) : ∃ c : Nat, (n : Rat) / d = c * (2 : Rat) ^ lastPlace n d := by
  have two_ne : (2 : Rat) ≠ 0 := by norm_num
  by_cases hle : lastPlace n d ≤ p
  · refine ⟨k * 2 ^ (p - lastPlace n d).toNat, ?_⟩
    rw [h]
    push_cast
    rw [mul_assoc, ← zpow_natCast, ← zpow_add₀ two_ne]
    congr 2
    omega
  · have hlow := le_quotient hn hd (by have := neg_1074_le_lastPlace n d; omega)
    have hhigh : (n : Rat) / d ≤ (2 : Rat) ^ (53 + p) := by
      rw [h, zpow_add₀ two_ne]
      exact mul_le_mul_of_nonneg_right (by exact_mod_cast hk) (by positivity)
    have hcount : ((2 ^ 52 : Nat) : Rat) * (2 : Rat) ^ lastPlace n d = (2 : Rat) ^ (lastPlace n d + 52) := by
      rw [add_comm, zpow_add₀ two_ne]
      norm_num
    refine ⟨2 ^ 52, le_antisymm ?_ (le_trans (le_of_eq hcount) hlow)⟩
    rw [hcount]
    exact hhigh.trans (zpow_le_zpow_right₀ (by norm_num) (by omega))

theorem magnitude_of_multiple {n d c : Nat} (hd : 0 < d) (h : (n : Rat) / d = c * (2 : Rat) ^ lastPlace n d) :
    magnitude n d = (n : Rat) / d := by
  have hdq : (d : Rat) ≠ 0 := by exact_mod_cast hd.ne'
  rw [div_eq_iff hdq] at h
  unfold magnitude
  split
  · next hneg =>
    have hplace : lastPlace n d = -((lastPlace n d).natAbs : Int) := by omega
    generalize (lastPlace n d).natAbs = p at hplace ⊢
    rw [hplace, zpow_neg, zpow_natCast] at h
    have hcount : n * 2 ^ p = c * d := by
      have hscaled : (n : Rat) * 2 ^ p = c * d := by
        rw [h]
        field_simp
      exact_mod_cast hscaled
    rw [hcount, divHalfEven_mul hd, Rat.mkRat_eq_div, h]
    push_cast
    field_simp
  · next hneg =>
    have hplace : lastPlace n d = ((lastPlace n d).natAbs : Int) := by omega
    generalize (lastPlace n d).natAbs = p at hplace ⊢
    rw [hplace, zpow_natCast] at h
    have hcount : n = c * (d * 2 ^ p) := by
      have hscaled : (n : Rat) = c * (d * 2 ^ p) := by
        rw [h]
        ring
      exact_mod_cast hscaled
    rw [hcount, divHalfEven_mul (Nat.mul_pos hd (Nat.two_pow_pos _))]
    push_cast
    field_simp

/-! ## Rounding twice -/

/-- What rounding returns is its own rounding. -/
theorem roundRat_of_roundRat {r q : Rat} (h : roundRat r = .fin q) : roundRat q = .fin q := by
  obtain ⟨k, hk, hform⟩ := magnitude_form (n := r.num.natAbs) r.den_pos
  have hp := neg_1074_le_lastPlace r.num.natAbs r.den
  rw [roundRat_eq] at h
  generalize lastPlace r.num.natAbs r.den = p at hform hp
  generalize magnitude r.num.natAbs r.den = m at h hform
  have hm : 0 ≤ m := by
    rw [hform]
    positivity
  by_cases hfits : m < (2 ^ 1024 : Nat)
  · rw [if_pos hfits] at h
    have hq : |q| = m := by
      rw [← JsNumber.fin.inj h]
      split
      · rw [abs_neg, abs_of_nonneg hm]
      · exact abs_of_nonneg hm
    have hparts : ((q.num.natAbs : Nat) : Rat) / q.den = |q| := by
      conv_rhs => rw [← Rat.num_div_den q]
      rw [abs_div, Nat.abs_cast, Nat.cast_natAbs, Int.cast_abs]
    have hmag : magnitude q.num.natAbs q.den = |q| := by
      by_cases hzero : q.num.natAbs = 0
      · rw [magnitude_of_multiple (c := 0) q.den_pos (by rw [hzero]; simp), hparts]
      · obtain ⟨c, hc⟩ := multiple_of_lastPlace hzero q.den_pos hk hp (by rw [hparts, hq, hform])
        rw [magnitude_of_multiple q.den_pos hc, hparts]
    rw [roundRat_eq, hmag, if_pos (hq ▸ hfits)]
    congr 1
    split
    · next hneg => rw [abs_of_neg hneg, neg_neg]
    · next hneg => exact abs_of_nonneg (not_lt.1 hneg)
  · rw [if_neg hfits] at h
    split at h <;> cases h

end Hayven.Lib
