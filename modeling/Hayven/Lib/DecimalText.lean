import Hayven.Lib.JsonText
import Mathlib.Algebra.Order.Field.Basic
import Mathlib.Algebra.Order.Ring.Rat
import Mathlib.Data.Nat.Prime.Basic
import Mathlib.Tactic.FieldSimp
import Mathlib.Data.List.TakeWhile
/-!
# Decimal text of doubles

A double is an integer over a power of two, so finitely many decimal digits and an
exponent say it exactly. Printed so, every double reads as itself: the promise of
`String(q)` and `Number(s)`, with zero a single digit.
-/

namespace Hayven.Lib

/-! ## Digits -/

theorem digit_toNat {d : Nat} (h : d < 10) : ((48 + d).toUInt16).toNat = 48 + d := toNat_toUInt16 (by omega)

theorem isDigit_digit : ∀ d < 10, isDigit ((48 + d).toUInt16) = true := by decide

theorem decValue_append (a : JsString) (u : UInt16) : decValue (a ++ [u]) = decValue a * 10 + (u.toNat - 48) := by
  simp [decValue, List.foldl_append]

/-- Digits that say the number: the first is no zero unless there is only one. -/
structure Digits (n : Nat) (s : JsString) : Prop where
  value : decValue s = n
  all : ∀ u ∈ s, isDigit u = true
  head : ∃ u rest, s = u :: rest ∧ (u = 0x30 → rest = [])

theorem digits_single {d : Nat} (h : d < 10) : Digits d [(48 + d).toUInt16] where
  value := by
    show 0 * 10 + (((48 + d).toUInt16).toNat - 48) = d
    rw [digit_toNat h]
    omega
  all u hu := by
    rw [List.mem_singleton.1 hu]
    exact isDigit_digit _ h
  head := ⟨_, [], rfl, fun _ => rfl⟩

theorem Digits.snoc {n d : Nat} {s : JsString} (hs : Digits n s) (hn : 0 < n) (hd : d < 10) :
    Digits (n * 10 + d) (s ++ [(48 + d).toUInt16]) where
  value := by
    rw [decValue_append, hs.value, digit_toNat hd]
    omega
  all u hu := by
    rcases List.mem_append.1 hu with hu | hu
    · exact hs.all u hu
    · rw [List.mem_singleton.1 hu]
      exact isDigit_digit _ hd
  head := by
    obtain ⟨u, rest, rfl, hzero⟩ := hs.head
    refine ⟨u, rest ++ [(48 + d).toUInt16], rfl, fun hu => ?_⟩
    -- a number that starts with its only digit zero is zero
    have hvalue := hs.value
    rw [hu, hzero hu] at hvalue
    have : decValue [0x30] = 0 := rfl
    omega

theorem digits_decDigitsFrom {fuel n : Nat} (h : n < fuel) : Digits n (decDigitsFrom fuel n) := by
  induction fuel generalizing n with
  | zero => omega
  | succ fuel ih =>
    rw [decDigitsFrom]
    split
    case isTrue hn => exact digits_single hn
    case isFalse hn =>
      have hsnoc := (ih (n := n / 10) (by omega)).snoc (d := n % 10) (by omega) (by omega)
      rwa [show n / 10 * 10 + n % 10 = n by omega] at hsnoc

theorem digits_decDigits (n : Nat) : Digits n (decDigits n) := digits_decDigitsFrom (Nat.lt_succ_self n)

theorem not_mem_decDigits {u : UInt16} (hu : isDigit u = false) (n : Nat) : u ∉ decDigits n := by
  intro hmem
  have hdigit := (digits_decDigits n).all u hmem
  rw [hu] at hdigit
  cases hdigit

theorem decDigits_inj {m n : Nat} (h : decDigits m = decDigits n) : m = n := by
  rw [← (digits_decDigits m).value, h, (digits_decDigits n).value]

theorem not_mem_intText {u : UInt16} (hu : isDigit u = false) (hminus : u ≠ 0x2D) (i : Int) : u ∉ intText i := by
  unfold intText
  split
  · rw [List.mem_cons, not_or]
    exact ⟨hminus, not_mem_decDigits hu _⟩
  · exact not_mem_decDigits hu _

theorem intText_inj {a b : Int} (h : intText a = intText b) : a = b := by
  have hsign (x y : Nat) : (0x2D : UInt16) :: decDigits x ≠ decDigits y := fun h =>
    not_mem_decDigits (u := 0x2D) rfl y (h ▸ List.mem_cons_self)
  unfold intText at h
  split at h
  · split at h
    · have := decDigits_inj (List.cons.inj h).2
      omega
    · exact absurd h (hsign _ _)
  · split at h
    · exact absurd h.symm (hsign _ _)
    · have := decDigits_inj h
      omega

/-! ## Reading digits -/

/-- No digit follows. -/
def NoDigit (rest : JsString) : Prop := ∀ u ∈ rest.head?, isDigit u = false

theorem digits1_append {ds rest : JsString} (hne : ds ≠ []) (hds : ∀ u ∈ ds, isDigit u = true) (hrest : NoDigit rest) :
    digits1 (ds ++ rest) = some (ds, rest) := by
  have htake : (ds ++ rest).takeWhile isDigit = ds := by
    rw [List.takeWhile_append_of_pos hds]
    cases rest with
    | nil => simp
    | cons u rest => rw [List.takeWhile_cons, hrest u rfl]; simp
  have hdrop : (ds ++ rest).dropWhile isDigit = rest := by
    rw [List.dropWhile_append_of_pos hds]
    cases rest with
    | nil => simp
    | cons u rest => rw [List.dropWhile_cons, hrest u rfl]; simp
  simp only [digits1, htake, hdrop, if_neg hne]

theorem intPart_append {n : Nat} {ds rest : JsString} (h : Digits n ds) (hrest : NoDigit rest) :
    intPart (ds ++ rest) = some (ds, rest) := by
  obtain ⟨u, more, rfl, hzero⟩ := h.head
  by_cases hu : u = 0x30
  · subst hu
    rw [hzero rfl]
    rfl
  · have hcons : intPart (u :: more ++ rest) = digits1 (u :: more ++ rest) := by
      rw [List.cons_append, intPart]
      exact fun _ heq => absurd (List.cons.inj heq).1 hu
    rw [hcons, digits1_append (List.cons_ne_nil u more) h.all hrest]

theorem ends_noDigit {rest : JsString} (h : Ends rest) : NoDigit rest := by
  intro u hu
  have hnot := h u hu
  cases hd : isDigit u with
  | false => rfl
  | true => exact absurd (.inl hd) hnot

theorem fracPart_of_head {s : JsString} (h : ∀ u ∈ s.head?, u ≠ 0x2E) : fracPart s = some ([], s) := by
  cases s with
  | nil => rfl
  | cons u rest =>
    rw [fracPart]
    exact fun _ heq => absurd (List.cons.inj heq).1 (h u rfl)

/-! ## The text -/

/-- A negative exponent, if there is one. -/
def expText (k : Nat) : JsString := if k = 0 then [] else 0x65 :: 0x2D :: decDigits k

theorem expPart_expText (k : Nat) {rest : JsString} (h : Ends rest) :
    expPart (expText k ++ rest) = some (-(k : Int), rest) := by
  unfold expText
  split
  case isTrue hk =>
    subst hk
    cases rest with
    | nil => rfl
    | cons u rest =>
      have hu := h u rfl
      simp only [not_or] at hu
      simp [expPart, hu.2.2.2.2.1, hu.2.2.2.2.2]
  case isFalse =>
    have hdigits := digits_decDigits k
    obtain ⟨u, more, hk, -⟩ := hdigits.head
    have hne : decDigits k ≠ [] := hk ▸ List.cons_ne_nil u more
    simp only [List.cons_append, expPart, true_or, if_true, expDigits,
      digits1_append hne hdigits.all (ends_noDigit h), Option.map_some, hdigits.value]
    simp

theorem unsignedNumber_text (n k : Nat) {rest : JsString} (h : Ends rest) :
    unsignedNumber (decDigits n ++ (expText k ++ rest)) = some ((n : Rat) * (10 : Rat) ^ (-(k : Int)), rest) := by
  have hdigits := digits_decDigits n
  -- what follows the digits is the exponent mark or what follows the number
  have hhead : ∀ u ∈ (expText k ++ rest).head?, isDigit u = false ∧ u ≠ 0x2E := by
    intro u hu
    unfold expText at hu
    split at hu
    case isTrue =>
      have hnot := h u hu
      simp only [not_or] at hnot
      exact ⟨ends_noDigit h u hu, hnot.2.1⟩
    case isFalse =>
      cases hu
      decide
  have hint := intPart_append hdigits fun u hu => (hhead u hu).1
  have hfrac := fracPart_of_head fun u hu => (hhead u hu).2
  simp [unsignedNumber, hint, hfrac, expPart_expText k h, hdigits.value]

/-- The numerator over a power of ten. -/
def decimalText (q : Rat) : JsString :=
  let digits := decDigits (q.num.natAbs * 5 ^ q.den.log2) ++ expText q.den.log2
  if q < 0 then 0x2D :: digits else digits

theorem parseNumber_of_head {s : JsString} (h : ∀ u ∈ s.head?, isDigit u = true) :
    parseNumber s = (unsignedNumber s).map fun p => (roundRat p.1, p.2) := by
  cases s with
  | nil => rfl
  | cons u rest =>
    rw [parseNumber]
    intro _ heq
    have hdigit := h u rfl
    rw [(List.cons.inj heq).1] at hdigit
    revert hdigit
    decide

theorem den_mkRat_dvd (m : Int) (d : Nat) (hd : d ≠ 0) : (mkRat m d).den ∣ d := by
  rw [Rat.den_mkRat, if_neg hd]
  exact Nat.div_dvd_of_dvd (Nat.gcd_dvd_left _ _)

/-- The denominator of a double is a power of two. -/
theorem den_of_isDouble {q : Rat} (h : IsDouble q) : q.den = 2 ^ q.den.log2 := by
  have hdvd : ∃ k, q.den ∣ 2 ^ k := by
    unfold IsDouble roundRat at h
    dsimp only at h
    generalize lastPlace q.num.natAbs q.den = place at h
    have hneg (r : Rat) : (if q < 0 then -r else r).den = r.den := by split <;> rfl
    by_cases hplace : place < 0
    · simp only [hplace, if_true] at h
      split at h
      · rw [← JsNumber.fin.inj h, hneg]
        exact ⟨_, den_mkRat_dvd _ _ (Nat.pos_iff_ne_zero.1 (Nat.two_pow_pos _))⟩
      · split at h <;> cases h
    · simp only [hplace, if_false] at h
      split at h
      · rw [← JsNumber.fin.inj h, hneg, Rat.den_natCast]
        exact ⟨0, Nat.dvd_refl 1⟩
      · split at h <;> cases h
  obtain ⟨k, hk⟩ := hdvd
  obtain ⟨j, -, hj⟩ := (Nat.dvd_prime_pow Nat.prime_two).1 hk
  rw [hj, Nat.log2_two_pow]

/-- The text of a double says its magnitude. -/
theorem text_value {q : Rat} (h : IsDouble q) :
    ((q.num.natAbs * 5 ^ q.den.log2 : Nat) : Rat) * (10 : Rat) ^ (-(q.den.log2 : Int)) = |q| := by
  have hden : (q.den : Rat) = 2 ^ q.den.log2 := by exact_mod_cast den_of_isDouble h
  have habs : |q| = (q.num.natAbs : Rat) / q.den := by
    rw [Nat.cast_natAbs, Int.cast_abs]
    conv_lhs => rw [← Rat.num_div_den q]
    rw [abs_div, Nat.abs_cast]
  rw [habs, hden, zpow_neg, zpow_natCast, Nat.cast_mul, Nat.cast_pow, show (10 : Rat) = 5 * 2 by norm_num, mul_pow]
  push_cast
  field_simp

/-- Every double, printed in full, reads as itself. -/
theorem decimalText_lossless (ofString : JsString → JsNumber) : NumberText.Lossless ⟨decimalText, ofString⟩ := by
  intro q hq rest hrest
  have hparse := unsignedNumber_text (q.num.natAbs * 5 ^ q.den.log2) q.den.log2 hrest
  rw [text_value hq, ← List.append_assoc] at hparse
  show parseNumber (decimalText q ++ rest) = some (.fin q, rest)
  unfold decimalText
  dsimp only
  by_cases hneg : q < 0
  · rw [if_pos hneg, List.cons_append]
    simp only [parseNumber, hparse, Option.map_some, abs_of_neg hneg, neg_neg]
    rw [show roundRat q = .fin q from hq]
  · rw [if_neg hneg, parseNumber_of_head, hparse, Option.map_some, abs_of_nonneg (not_lt.1 hneg)]
    · rw [show roundRat q = .fin q from hq]
    · have hdigits := digits_decDigits (q.num.natAbs * 5 ^ q.den.log2)
      obtain ⟨u, more, hds, -⟩ := hdigits.head
      intro v hv
      rw [hds] at hv
      cases hv
      exact hdigits.all u (hds ▸ List.mem_cons_self)

/-! ## What a runtime promises -/

structure NumberText.Documented (rt : NumberText) : Prop where
  lossless : rt.Lossless
  ofString_print : ∀ q, IsDouble q → rt.ofString (rt.print q) = .fin q
  print_zero : rt.print 0 = ascii "0"

/-! ## The units of a number -/

def isNumberUnit (u : UInt16) : Bool := isDigit u || u = 0x2E || u = 0x2B || u = 0x2D || u = 0x65 || u = 0x45

/-- A reader took units of a number off the text. -/
def Takes (s rest : JsString) : Prop := ∃ t, s = t ++ rest ∧ ∀ u ∈ t, isNumberUnit u = true

theorem Takes.refl (s : JsString) : Takes s s := ⟨[], rfl, fun _ h => absurd h List.not_mem_nil⟩

theorem Takes.cons {u : UInt16} (hu : isNumberUnit u = true) {s rest : JsString} (h : Takes s rest) :
    Takes (u :: s) rest := by
  obtain ⟨t, rfl, ht⟩ := h
  refine ⟨u :: t, rfl, fun v hv => ?_⟩
  rcases List.mem_cons.1 hv with rfl | hv
  · exact hu
  · exact ht v hv

theorem Takes.trans {s t rest : JsString} (h : Takes s t) (h' : Takes t rest) : Takes s rest := by
  obtain ⟨a, rfl, ha⟩ := h
  obtain ⟨b, rfl, hb⟩ := h'
  refine ⟨a ++ b, (List.append_assoc a b rest).symm, fun u hu => ?_⟩
  rcases List.mem_append.1 hu with hu | hu
  · exact ha u hu
  · exact hb u hu

theorem takes_digits1 {s : JsString} {p : JsString × JsString} (h : digits1 s = some p) : Takes s p.2 := by
  unfold digits1 at h
  dsimp only at h
  split at h
  · cases h
  · cases h
    refine ⟨s.takeWhile isDigit, List.takeWhile_append_dropWhile.symm, fun u hu => ?_⟩
    simp [isNumberUnit, List.mem_takeWhile_imp hu]

theorem takes_intPart {s : JsString} {p : JsString × JsString} (h : intPart s = some p) : Takes s p.2 := by
  unfold intPart at h
  split at h
  · cases h
    exact (Takes.refl _).cons (by decide)
  · exact takes_digits1 h

theorem takes_fracPart {s : JsString} {p : JsString × JsString} (h : fracPart s = some p) : Takes s p.2 := by
  unfold fracPart at h
  split at h
  · exact (takes_digits1 h).cons (by decide)
  · cases h
    exact Takes.refl _

theorem takes_expPart {s : JsString} {p : Int × JsString} (h : expPart s = some p) : Takes s p.2 := by
  have hdigits {sign : Int} {s : JsString} {p : Int × JsString} (h : expDigits sign s = some p) : Takes s p.2 := by
    obtain ⟨q, hq, rfl⟩ := Option.map_eq_some_iff.1 h
    exact takes_digits1 hq
  unfold expPart at h
  split at h
  · split at h
    case isTrue e rest hmark =>
      have hunit : isNumberUnit e = true := by rcases hmark with rfl | rfl <;> decide
      apply Takes.cons hunit
      split at h
      · exact (hdigits h).cons (by decide)
      · exact (hdigits h).cons (by decide)
      · exact hdigits h
    case isFalse =>
      cases h
      exact Takes.refl _
  · cases h
    exact Takes.refl _

theorem takes_unsignedNumber {s : JsString} {p : Rat × JsString} (h : unsignedNumber s = some p) : Takes s p.2 := by
  unfold unsignedNumber at h
  obtain ⟨int, hint, h⟩ := Option.bind_eq_some_iff.1 h
  obtain ⟨frac, hfrac, h⟩ := Option.bind_eq_some_iff.1 h
  obtain ⟨exp, hexp, h⟩ := Option.bind_eq_some_iff.1 h
  cases h
  exact (takes_intPart hint).trans ((takes_fracPart hfrac).trans (takes_expPart hexp))

theorem takes_parseNumber {s : JsString} {p : JsNumber × JsString} (h : parseNumber s = some p) : Takes s p.2 := by
  unfold parseNumber at h
  split at h
  · obtain ⟨q, hq, rfl⟩ := Option.map_eq_some_iff.1 h
    exact (takes_unsignedNumber hq).cons (by decide)
  · obtain ⟨q, hq, rfl⟩ := Option.map_eq_some_iff.1 h
    exact takes_unsignedNumber hq

/-- A printed double is not empty, and made of the units of numbers. -/
theorem NumberText.Lossless.print_units {rt : NumberText} (hrt : rt.Lossless) {q : Rat} (hq : IsDouble q) :
    rt.print q ≠ [] ∧ ∀ u ∈ rt.print q, isNumberUnit u = true := by
  have hparse := hrt q hq [] (by simp [Ends])
  rw [List.append_nil] at hparse
  obtain ⟨u, s, hs, -⟩ := parseNumber_head hparse
  obtain ⟨t, ht, hunits⟩ := takes_parseNumber hparse
  rw [List.append_nil] at ht
  exact ⟨hs ▸ List.cons_ne_nil u s, ht ▸ hunits⟩

/-! ## Printing in full -/

/-- `Number(s)` of a text that is a number and nothing else. -/
def numberOfText (s : JsString) : JsNumber :=
  match parseNumber s with
  | some (n, []) => n
  | _ => .nan

def decimalNumberText : NumberText := ⟨decimalText, numberOfText⟩

theorem decimalNumberText_documented : decimalNumberText.Documented where
  lossless := decimalText_lossless numberOfText
  ofString_print q hq := by
    have hparse := decimalText_lossless numberOfText q hq [] (by simp [Ends])
    rw [List.append_nil] at hparse
    show numberOfText (decimalText q) = .fin q
    rw [numberOfText, hparse]
  print_zero := by decide +kernel

end Hayven.Lib
