import Mathlib.Tactic.FieldSimp
import Mathlib.Tactic.NormNum
import Mathlib.Data.Rat.Floor
import Hayven.Lib.JsNumber
/-!
# Whole numbers of the runtime

The arithmetic of the runtime on integers: exact below `2 ^ 53`, and never across a
power of two after that. Which numbers are natural numbers, and what is left of one
that is divided and rounded down.
-/

namespace Hayven.Lib

namespace JsNumber

/-- The natural number that a number is: `Number.isInteger(n) && n >= 0`. -/
def natValue : JsNumber → Option Nat
  | .fin q => if q.den = 1 ∧ 0 ≤ q.num then some q.num.toNat else none
  | _ => none

/-- `Math.floor(n)`. -/
def floor : JsNumber → JsNumber
  | .fin q => .fin ⌊q⌋
  | n => n

/-- `n / d` for a natural number above zero. -/
def divNat (n : JsNumber) (d : Nat) : JsNumber :=
  match n with
  | .fin q => roundRat (q / d)
  | n => n

def neg : JsNumber → JsNumber
  | .nan => .nan
  | .negInf => .posInf
  | .fin q => .fin (-q)
  | .posInf => .negInf

/-- `a - b`. -/
def sub (a b : JsNumber) : JsNumber := a.add b.neg

/-- `Math.abs(n)`. -/
def abs : JsNumber → JsNumber
  | .nan => .nan
  | .fin q => .fin |q|
  | .negInf | .posInf => .posInf

theorem natValue_eq_some {n : JsNumber} {k : Nat} : n.natValue = some k ↔ n = .fin k := by
  constructor
  · intro h
    cases n with
    | fin q =>
      simp only [natValue] at h
      split at h
      · next hq =>
        have hnum : q.num = k := by
          have := Option.some.inj h
          omega
        have hcast : (q.num : Rat) = q := (Rat.den_eq_one_iff q).1 hq.1
        rw [← hcast, hnum]
        rfl
      · cases h
    | nan => cases h
    | negInf => cases h
    | posInf => cases h
  · rintro rfl
    simp [natValue]

end JsNumber

/-! ## Rounding an integer -/

theorem divHalfEven_one (n : Nat) : divHalfEven n 1 = n := by
  unfold divHalfEven
  rw [Nat.mod_one, Nat.div_one]
  exact if_pos (.inl Nat.one_pos)

theorem lastPlace_one (n : Nat) (h : n ≠ 0) : lastPlace n 1 = (n.log2 : Int) - 52 := by
  have hlog : 2 ^ n.log2 ≤ n := (Nat.le_log2 h).1 le_rfl
  have hone : Nat.log2 1 = 0 := by decide
  have habs : ((n.log2 : Int) - (0 : Nat)).natAbs = n.log2 := by omega
  have hsign : ¬ ((n.log2 : Int) - (0 : Nat) < 0) := by omega
  unfold lastPlace
  simp only [hone, hsign, if_false, habs, Nat.one_mul, Nat.not_lt.2 hlog]
  omega

/-- The magnitude of an integer is rounded as a natural number is. -/
theorem magnitude_natCast (n : Nat) :
    (if lastPlace n 1 < 0 then
      mkRat (divHalfEven (n * 2 ^ (lastPlace n 1).natAbs) 1) (2 ^ (lastPlace n 1).natAbs)
    else ((divHalfEven n (1 * 2 ^ (lastPlace n 1).natAbs) * 2 ^ (lastPlace n 1).natAbs : Nat) : Rat)) = roundNat n := by
  have hscaled : ∀ k : Nat, mkRat (divHalfEven (n * 2 ^ k) 1) (2 ^ k) = n := by
    intro k
    have hpow : ((2 ^ k : Nat) : Rat) ≠ 0 := by positivity
    rw [divHalfEven_one, Rat.mkRat_eq_div]
    push_cast
    field_simp
  by_cases h0 : n = 0
  · subst h0
    have hplace : lastPlace 0 1 = -53 := by decide +kernel
    rw [hplace, if_pos (by decide), hscaled]
    rfl
  · rw [lastPlace_one n h0]
    by_cases hlow : n.log2 < 52
    · have hsmall : n < 2 ^ 53 := by
        have := Nat.lt_log2_self (n := n)
        have hpow : 2 ^ (n.log2 + 1) ≤ 2 ^ 53 := Nat.pow_le_pow_right (by decide) (by omega)
        omega
      rw [if_pos (by omega), hscaled, roundNat_of_lt hsmall]
    · have habs : ((n.log2 : Int) - 52).natAbs = n.log2 - 52 := by omega
      rw [if_neg (by omega), habs, Nat.one_mul, roundNat]
      split
      · next hsmall =>
        have hlog : n.log2 - 52 = 0 := by
          have := (Nat.log2_lt h0).2 hsmall
          omega
        rw [hlog, Nat.pow_zero, divHalfEven_one, Nat.mul_one]
      · rfl

theorem roundRat_intCast (k : Int) :
    roundRat k =
      if (roundNat k.natAbs : Rat) < (2 ^ 1024 : Nat) then
        .fin (if (k : Rat) < 0 then -(roundNat k.natAbs : Rat) else roundNat k.natAbs)
      else if (k : Rat) < 0 then .negInf else .posInf := by
  rw [← magnitude_natCast]
  unfold roundRat
  simp only [Rat.num_intCast, Rat.den_intCast]
  rfl

/-- Rounding never makes a natural number smaller than a bound it keeps exactly. -/
theorem le_roundNat {b n : Nat} (hb : b ≤ 2 ^ 53) (h : b ≤ n) : b ≤ roundNat n := by
  by_cases hn : n < 2 ^ 53
  · rwa [roundNat_of_lt hn]
  · exact hb.trans (le_roundNat_of_le (Nat.le_of_not_lt hn))

/-- An integer is a natural number below a bound after rounding exactly if it is one before. -/
theorem natValue_roundRat {bound : Nat} (hbound : bound ≤ 2 ^ 53) (k : Int) :
    (∃ b < bound, (roundRat k).natValue = some b) ↔ 0 ≤ k ∧ k < bound := by
  simp only [JsNumber.natValue_eq_some, roundRat_intCast]
  constructor
  · rintro ⟨b, hb, h⟩
    split at h
    · rw [JsNumber.fin.injEq] at h
      split at h
      · next hneg =>
        have hk : k < 0 := by exact_mod_cast hneg
        have hpos : 1 ≤ roundNat k.natAbs := le_roundNat (by decide) (by omega)
        have hcast : (1 : Rat) ≤ roundNat k.natAbs := by exact_mod_cast hpos
        have hb0 : (0 : Rat) ≤ b := Nat.cast_nonneg b
        linarith
      · next hneg =>
        have hk : 0 ≤ k := by
          have : ¬ k < 0 := by exact_mod_cast hneg
          omega
        have hround : roundNat k.natAbs = b := by exact_mod_cast h
        refine ⟨hk, ?_⟩
        by_contra hle
        have := le_roundNat hbound (n := k.natAbs) (by omega)
        omega
    · split at h
      · cases h
      · cases h
  · rintro ⟨hk, hlt⟩
    have hsmall : k.natAbs < 2 ^ 53 := by omega
    have hneg : ¬ (k : Rat) < 0 := by
      rw [not_lt]
      exact_mod_cast hk
    have hfits : ((k.natAbs : Nat) : Rat) < (2 ^ 1024 : Nat) := by
      have : k.natAbs < 2 ^ 1024 := hsmall.trans (by decide +kernel)
      exact_mod_cast this
    refine ⟨k.natAbs, by omega, ?_⟩
    rw [roundNat_of_lt hsmall, if_pos hfits, if_neg hneg]

theorem roundRat_of_lt {k : Nat} (h : k < 2 ^ 53) : roundRat ((k : Int) : Rat) = .fin k := by
  have hneg : ¬ (((k : Int)) : Rat) < 0 := by
    rw [not_lt]
    exact_mod_cast Nat.zero_le k
  have hfits : (k : Rat) < (2 ^ 1024 : Nat) := by
    have hlt : k < 2 ^ 1024 := h.trans (by decide +kernel)
    exact_mod_cast hlt
  rw [roundRat_intCast, Int.natAbs_natCast, roundNat_of_lt h, if_pos hfits, if_neg hneg]

/-- Only one integer rounds to a small natural number. -/
theorem roundRat_eq_fin_iff {k : Int} {o : Nat} (ho : o < 2 ^ 53) : roundRat k = .fin o ↔ k = o := by
  constructor
  · intro h
    have hval : ∃ b < o + 1, (roundRat k).natValue = some b := ⟨o, Nat.lt_succ_self o, JsNumber.natValue_eq_some.2 h⟩
    obtain ⟨hpos, hlt⟩ := (natValue_roundRat (by omega) k).1 hval
    obtain ⟨n, rfl⟩ := Int.eq_ofNat_of_zero_le hpos
    rw [roundRat_of_lt (by omega)] at h
    have heq : (n : Rat) = o := JsNumber.fin.inj h
    exact_mod_cast heq
  · rintro rfl
    exact roundRat_of_lt ho

/-- Rounding at most doubles. -/
theorem roundNat_le (n : Nat) : roundNat n ≤ 2 * n := by
  by_cases hn : n < 2 ^ 53
  · rw [roundNat_of_lt hn]
    omega
  · have hne : n ≠ 0 := by omega
    have hunit : 2 ^ (n.log2 - 52) ≤ n :=
      le_trans (Nat.pow_le_pow_right (by decide) (Nat.sub_le _ _)) ((Nat.le_log2 hne).1 le_rfl)
    have hquot : divHalfEven n (2 ^ (n.log2 - 52)) ≤ n / 2 ^ (n.log2 - 52) + 1 := by
      unfold divHalfEven
      split <;> omega
    rw [roundNat, if_neg hn]
    calc divHalfEven n (2 ^ (n.log2 - 52)) * 2 ^ (n.log2 - 52)
        ≤ (n / 2 ^ (n.log2 - 52) + 1) * 2 ^ (n.log2 - 52) := Nat.mul_le_mul_right _ hquot
      _ = n / 2 ^ (n.log2 - 52) * 2 ^ (n.log2 - 52) + 2 ^ (n.log2 - 52) := by rw [Nat.add_mul, Nat.one_mul]
      _ ≤ n + n := Nat.add_le_add (Nat.div_mul_le_self _ _) hunit
      _ = 2 * n := (Nat.two_mul n).symm

/-- A machine integer rounds to a finite number. -/
theorem roundRat_natAbs {k : Int} (h : k.natAbs < 2 ^ 64) :
    roundRat k = .fin (if (k : Rat) < 0 then -(roundNat k.natAbs : Rat) else roundNat k.natAbs) := by
  have hfits : (roundNat k.natAbs : Rat) < (2 ^ 1024 : Nat) := by
    have hle := roundNat_le k.natAbs
    have hpow : 2 * 2 ^ 64 < 2 ^ 1024 := by decide +kernel
    have hlt : roundNat k.natAbs < 2 ^ 1024 := by omega
    exact_mod_cast hlt
  rw [roundRat_intCast, if_pos hfits]

/-- A small integer is a double. -/
theorem roundRat_of_natAbs_lt {k : Int} (h : k.natAbs < 2 ^ 53) : roundRat k = .fin k := by
  rw [roundRat_natAbs (by omega), roundNat_of_lt h]
  congr 1
  have hneg : (k : Rat) < 0 ↔ k < 0 := by exact_mod_cast Iff.rfl
  split
  case isTrue hk =>
    rw [hneg] at hk
    have habs : ((k.natAbs : Nat) : Int) = -k := by omega
    rw [← Int.cast_natCast, habs, Int.cast_neg, neg_neg]
  case isFalse hk =>
    rw [hneg] at hk
    have habs : ((k.natAbs : Nat) : Int) = k := by omega
    rw [← Int.cast_natCast, habs]

/-! ## Quotients -/

theorem lastPlace_le (n d : Nat) : lastPlace n d ≤ max ((n.log2 : Int) - d.log2 - 52) (-1074) := by
  unfold lastPlace
  dsimp only
  split <;> omega

theorem lastPlace_ge (n d : Nat) : (n.log2 : Int) - d.log2 - 53 ≤ lastPlace n d := by
  unfold lastPlace
  dsimp only
  split <;> omega

/-- Rounding a quotient moves it by at most half a unit. -/
theorem divHalfEven_mul_le (n : Nat) {d : Nat} (hd : 0 < d) : 2 * (divHalfEven n d * d) ≤ 2 * n + d := by
  have hdiv := Nat.div_add_mod n d
  have hcomm : d * (n / d) = n / d * d := Nat.mul_comm _ _
  have hmod := Nat.mod_lt n hd
  unfold divHalfEven
  split
  case isTrue => omega
  case isFalse h =>
    rw [Nat.add_mul, Nat.one_mul]
    omega

/-- Rounding a small quotient never reaches the next integer. -/
theorem floor_roundRat_div {a r : Nat} (ha : a < 2 ^ 16) (hr : 0 < r) (hmax : r.log2 ≤ 1074) :
    (roundRat ((a : Rat) / r)).floor = .fin (a / r : Nat) := by
  have hrq : (r : Rat) ≠ 0 := by exact_mod_cast hr.ne'
  have hqnonneg : (0 : Rat) ≤ (a : Rat) / r := by positivity
  have hneg : ¬ (a : Rat) / r < 0 := not_lt.2 hqnonneg
  obtain ⟨n, hn⟩ : ∃ n, n = ((a : Rat) / r).num.natAbs := ⟨_, rfl⟩
  obtain ⟨d, hd⟩ : ∃ d, d = ((a : Rat) / r).den := ⟨_, rfl⟩
  have hdpos : 0 < d := hd ▸ Rat.den_pos _
  have hq : (a : Rat) / r = (n : Rat) / d := by
    have hnum : ((((a : Rat) / r).num.natAbs : Int)) = ((a : Rat) / r).num := Int.natAbs_of_nonneg (Rat.num_nonneg.2 hqnonneg)
    have hsplit := Rat.num_div_den ((a : Rat) / r)
    rw [← hnum, ← hn, ← hd, Int.cast_natCast] at hsplit
    exact hsplit.symm
  have hdq : (d : Rat) ≠ 0 := by exact_mod_cast hdpos.ne'
  have hcross : a * d = n * r := by
    have hmul : (a : Rat) * d = n * r := by
      field_simp at hq
      linarith
    exact_mod_cast hmul
  have hdr : d ≤ r := by
    have hdvd : d ∣ r := by
      have hcop : Nat.Coprime n d := by
        rw [hn, hd]
        exact ((a : Rat) / r).reduced
      exact hcop.symm.dvd_of_dvd_mul_left ⟨a, by rw [← hcross, Nat.mul_comm]⟩
    exact Nat.le_of_dvd hr hdvd
  have hna : n < 2 ^ 16 := by
    have hle : n * d ≤ a * d := by
      rw [hcross]
      exact Nat.mul_le_mul_left n hdr
    exact lt_of_le_of_lt (Nat.le_of_mul_le_mul_right hle hdpos) ha
  have hfloor : a / r = n / d := by
    rw [← Nat.mul_div_mul_right a r hdpos, hcross, Nat.mul_comm n r, Nat.mul_div_mul_left n d hr]
  have hlog : n.log2 ≤ 15 := by
    by_cases h0 : n = 0
    · subst h0
      decide
    · have := (Nat.log2_lt h0).2 hna
      omega
  have hle := lastPlace_le n d
  have hplace : lastPlace n d < 0 := by omega
  obtain ⟨k, hk⟩ : ∃ k, k = (lastPlace n d).natAbs := ⟨_, rfl⟩
  have hk' : (lastPlace n d) = -(k : Int) := by omega
  -- the last place is finer than the denominator
  have hfine : d < 2 ^ (k + 1) := by
    by_cases hbig : 1074 ≤ k
    · exact lt_of_le_of_lt hdr (lt_of_lt_of_le Nat.lt_log2_self (Nat.pow_le_pow_right (by decide) (by omega)))
    · have hlogd : d.log2 ≤ k := by omega
      exact lt_of_lt_of_le Nat.lt_log2_self (Nat.pow_le_pow_right (by decide) (by omega))
  have hlow : n / d * 2 ^ k ≤ divHalfEven (n * 2 ^ k) d := by
    apply le_trans _ (div_le_divHalfEven _ _)
    rw [Nat.le_div_iff_mul_le hdpos]
    calc n / d * 2 ^ k * d = n / d * d * 2 ^ k := by ring
      _ ≤ n * 2 ^ k := Nat.mul_le_mul_right _ (Nat.div_mul_le_self n d)
  have hhigh : divHalfEven (n * 2 ^ k) d < (n / d + 1) * 2 ^ k := by
    have hround := divHalfEven_mul_le (n * 2 ^ k) hdpos
    have hnext : n + 1 ≤ (n / d + 1) * d := Nat.lt_mul_of_div_lt (Nat.lt_succ_self _) hdpos
    have hscaled : (n + 1) * 2 ^ k ≤ (n / d + 1) * d * 2 ^ k := Nat.mul_le_mul_right _ hnext
    have hpow : 2 ^ (k + 1) = 2 * 2 ^ k := by rw [pow_succ, Nat.mul_comm]
    by_contra hge
    have hmul : (n / d + 1) * 2 ^ k * d ≤ divHalfEven (n * 2 ^ k) d * d := Nat.mul_le_mul_right d (Nat.le_of_not_lt hge)
    have hcomm : (n / d + 1) * 2 ^ k * d = (n / d + 1) * d * 2 ^ k := by ring
    have hsum : (n + 1) * 2 ^ k = n * 2 ^ k + 2 ^ k := by ring
    omega
  have hvalue : mkRat (divHalfEven (n * 2 ^ k) d) (2 ^ k) = (divHalfEven (n * 2 ^ k) d : Rat) / 2 ^ k := by
    rw [Rat.mkRat_eq_div]
    push_cast
    rfl
  have hpos : (0 : Rat) < 2 ^ k := by positivity
  have hlowQ : ((n / d : Nat) : Rat) ≤ (divHalfEven (n * 2 ^ k) d : Rat) / 2 ^ k := by
    rw [le_div_iff₀ hpos]
    exact_mod_cast hlow
  have hhighQ : (divHalfEven (n * 2 ^ k) d : Rat) / 2 ^ k < ((n / d : Nat) : Rat) + 1 := by
    rw [div_lt_iff₀ hpos]
    exact_mod_cast hhigh
  have hfits : (divHalfEven (n * 2 ^ k) d : Rat) / 2 ^ k < (2 ^ 1024 : Nat) := by
    have hnd : n / d ≤ n := Nat.div_le_self n d
    have hsmall : n / d + 1 ≤ 2 ^ 1024 := le_trans (by omega : n / d + 1 ≤ 2 ^ 16) (by decide +kernel)
    have hcast : ((n / d : Nat) : Rat) + 1 ≤ (2 ^ 1024 : Nat) := by exact_mod_cast hsmall
    exact lt_of_lt_of_le hhighQ hcast
  have hround : roundRat ((a : Rat) / r) = .fin ((divHalfEven (n * 2 ^ k) d : Rat) / 2 ^ k) := by
    unfold roundRat
    dsimp only
    rw [← hn, ← hd, if_pos hplace, ← hk, hvalue, if_pos hfits, if_neg hneg]
  rw [hround, JsNumber.floor, hfloor]
  congr 1
  have hint : ⌊(divHalfEven (n * 2 ^ k) d : Rat) / 2 ^ k⌋ = ((n / d : Nat) : Int) := by
    rw [Int.floor_eq_iff]
    exact ⟨by exact_mod_cast hlowQ, by exact_mod_cast hhighQ⟩
  rw [hint]
  rfl

/-! ## Rounding down -/

/-- A double that is not below `2 ^ 53` is an integer. -/
theorem den_eq_one_of_large {q : Rat} (h : roundRat q = .fin q) (hbig : (2 ^ 53 : Nat) ≤ q) : q.den = 1 := by
  have hpos : 0 ≤ q := le_trans (Nat.cast_nonneg _) hbig
  have hnum : ((q.num.natAbs : Int)) = q.num := Int.natAbs_of_nonneg (Rat.num_nonneg.2 hpos)
  have hden : q.den ≠ 0 := q.den_nz
  have hle : 2 ^ 53 * q.den ≤ q.num.natAbs := by
    have hq : q = (q.num.natAbs : Rat) / q.den := by
      have hsplit := Rat.num_div_den q
      rw [← hnum, Int.cast_natCast] at hsplit
      exact hsplit.symm
    have hdpos : (0 : Rat) < q.den := by exact_mod_cast q.den_pos
    rw [hq, le_div_iff₀ hdpos] at hbig
    exact_mod_cast hbig
  have hlog : q.den.log2 + 53 ≤ q.num.natAbs.log2 := by
    have hne : q.num.natAbs ≠ 0 := by
      have := q.den_pos
      omega
    rw [Nat.le_log2 hne, pow_add, Nat.mul_comm]
    exact le_trans (Nat.mul_le_mul_left _ ((Nat.le_log2 hden).1 le_rfl)) hle
  have hplace : ¬ lastPlace q.num.natAbs q.den < 0 := by
    have := lastPlace_ge q.num.natAbs q.den
    omega
  unfold roundRat at h
  dsimp only at h
  rw [if_neg hplace] at h
  split at h
  · have heq := JsNumber.fin.inj h
    rw [if_neg (not_lt.2 hpos)] at heq
    rw [← heq, Rat.den_natCast]
  · split at h <;> cases h

theorem lt_of_roundRat_self {q : Rat} (h : roundRat q = .fin q) (hpos : 0 ≤ q) : q < (2 ^ 1024 : Nat) := by
  unfold roundRat at h
  dsimp only at h
  generalize (if lastPlace q.num.natAbs q.den < 0 then _ else _ : Rat) = magnitude at h
  split at h
  · next hfits =>
    have heq := JsNumber.fin.inj h
    rw [if_neg (not_lt.2 hpos)] at heq
    rwa [← heq]
  · split at h <;> cases h

/-- Rounding a double down gives a double. -/
theorem roundRat_floor {q : Rat} (h : roundRat q = .fin q) (hpos : 0 ≤ q) : roundRat ((⌊q⌋ : Int) : Rat) = .fin (⌊q⌋ : Int) := by
  obtain ⟨n, hn⟩ := Int.eq_ofNat_of_zero_le (Int.floor_nonneg.2 hpos)
  by_cases hsmall : q < (2 ^ 53 : Nat)
  · have hlt : ⌊q⌋ < ((2 ^ 53 : Nat) : Int) := Int.floor_lt.2 (by exact_mod_cast hsmall)
    rw [hn] at hlt ⊢
    have hroundNat := roundRat_of_lt (k := n) (by exact_mod_cast hlt)
    rw [hroundNat]
    rfl
  · have hint : ((⌊q⌋ : Int) : Rat) = q := by
      have hden := den_eq_one_of_large h (not_lt.1 hsmall)
      have hcast := (Rat.den_eq_one_iff q).1 hden
      rw [← hcast, Int.floor_intCast]
    rw [hint, h]

end Hayven.Lib
