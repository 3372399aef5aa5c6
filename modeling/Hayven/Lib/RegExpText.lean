import Hayven.Lib.SqlLike
/-!
# Regular expressions of units and runs

The ECMAScript regular expressions `^…$` whose terms are literals, escaped syntax characters
and `[\s\S]`, each with or without a star, under the flag `i` and without `u`. `readRegExp`
reads the source text that the constructor is given; a literal of the ASCII alphabet takes
the units that differ from it in case, and no others: `canonicalize_eq_iff`.
-/

namespace Hayven.Lib

/-! ## Terms -/

inductive RegExpAtom where
  /-- `[\s\S]` -/
  | any
  | unit (u : UInt16)
deriving DecidableEq

structure RegExpTerm where
  atom : RegExpAtom
  starred : Bool
deriving DecidableEq

/-- `^ $ \ . * + ? ( ) [ ] { } |` -/
def isSyntaxUnit (u : UInt16) : Bool :=
  [0x5E, 0x24, 0x5C, 0x2E, 0x2A, 0x2B, 0x3F, 0x28, 0x29, 0x5B, 0x5D, 0x7B, 0x7D, 0x7C].contains u

/-- `\s\S]` -/
def anyClassRest : JsString := [0x5C, 0x73, 0x5C, 0x53, 0x5D]

/-- One atom, and what stands behind it. -/
def readAtom : JsString → Option (RegExpAtom × JsString)
  | [] => none
  | u :: rest =>
    if u = 0x5C then
      match rest with
      | [] => none
      | v :: rest' => if isSyntaxUnit v then some (.unit v, rest') else none
    else if u = 0x5B then
      if anyClassRest.isPrefixOf rest then some (.any, rest.drop 5) else none
    else if isSyntaxUnit u then none
    else some (.unit u, rest)

/-- The terms up to the final `$`. -/
def readTerms : Nat → JsString → Option (List RegExpTerm)
  | 0, _ => none
  | n + 1, s =>
    if s = [0x24] then some []
    else (readAtom s).bind fun r =>
      if r.2.head? = some 0x2A then (readTerms n (r.2.drop 1)).map (⟨r.1, true⟩ :: ·)
      else (readTerms n r.2).map (⟨r.1, false⟩ :: ·)

/-- The terms of an anchored expression, if its source is one of this kind. -/
def readRegExp : JsString → Option (List RegExpTerm)
  | [] => none
  | u :: rest => if u = 0x5E then readTerms (rest.length + 1) rest else none

/-! ## Case -/

def upperAscii (u : UInt16) : UInt16 := if 0x61 ≤ u && u ≤ 0x7A then u - 0x20 else u

/-- `toUpperCase` on one unit; outside ASCII nothing is known of it. -/
structure UpperCase where
  toUpperCase : UInt16 → JsString
  ascii : ∀ u, u < 0x80 → toUpperCase u = [upperAscii u]

/-- `Canonicalize` without the flag `u`: no unit outside ASCII folds into it. -/
def canonicalize (upper : UpperCase) (u : UInt16) : UInt16 :=
  match upper.toUpperCase u with
  | [v] => if 0x80 ≤ u && v < 0x80 then u else v
  | _ => u

def RegExpAtom.takes (upper : UpperCase) : RegExpAtom → UInt16 → Bool
  | .any, _ => true
  | .unit c, u => canonicalize upper c == canonicalize upper u

/-! ## Matching -/

/-- The whole text, in some way of sharing it out among the terms. -/
def regExpAccepts (upper : UpperCase) : List RegExpTerm → JsString → Bool
  | [], text => text.isEmpty
  | t :: ts, text =>
    if t.starred then
      text.tails.any fun tail =>
        (text.take (text.length - tail.length)).all (t.atom.takes upper) && regExpAccepts upper ts tail
    else
      match text with
      | [] => false
      | u :: rest => t.atom.takes upper u && regExpAccepts upper ts rest

/-- `new RegExp(source, "i").test(text)`. -/
def regExpTest (upper : UpperCase) (source text : JsString) : Option Bool :=
  (readRegExp source).map (regExpAccepts upper · text)

/-! ## One term -/

section Term
variable {n : Nat} {s rest : JsString} {atom : RegExpAtom}

theorem readTerms_starred (hend : s ≠ [0x24]) (h : readAtom s = some (atom, 0x2A :: rest)) :
    readTerms (n + 1) s = (readTerms n rest).map (⟨atom, true⟩ :: ·) := by
  rw [readTerms, if_neg hend, h, Option.bind_some]
  exact if_pos rfl

theorem readTerms_single (hend : s ≠ [0x24]) (h : readAtom s = some (atom, rest)) (hrest : rest.head? ≠ some 0x2A) :
    readTerms (n + 1) s = (readTerms n rest).map (⟨atom, false⟩ :: ·) := by
  rw [readTerms, if_neg hend, h, Option.bind_some]
  exact if_neg hrest

/-- A starred class shares nothing out but the length. -/
theorem regExpAccepts_anyRun (upper : UpperCase) (ts : List RegExpTerm) (text : JsString) :
    regExpAccepts upper (⟨.any, true⟩ :: ts) text = text.tails.any (regExpAccepts upper ts) := by
  have hany : ∀ run : JsString, run.all (RegExpAtom.any.takes upper) = true := fun run =>
    List.all_eq_true.2 fun _ _ => rfl
  rw [regExpAccepts.eq_def]
  simp only [if_true, hany, Bool.true_and]

theorem regExpAccepts_unit (upper : UpperCase) (c u : UInt16) (ts : List RegExpTerm) (rest : JsString) :
    regExpAccepts upper (⟨.unit c, false⟩ :: ts) (u :: rest) =
      (canonicalize upper c == canonicalize upper u && regExpAccepts upper ts rest) := rfl

end Term

/-! ## Case of ASCII literals -/

theorem canonicalize_ascii (upper : UpperCase) {u : UInt16} (h : u < 0x80) : canonicalize upper u = upperAscii u := by
  have hnot : ¬ 0x80 ≤ u := UInt16.not_le.2 h
  simp [canonicalize, upper.ascii u h, hnot]

theorem canonicalize_not_ascii (upper : UpperCase) {u : UInt16} (h : 0x80 ≤ u) : 0x80 ≤ canonicalize upper u := by
  unfold canonicalize
  split
  · next v _ =>
    by_cases hv : v < 0x80
    · simp [h, hv]
    · simp only [h, hv, decide_true, decide_false, Bool.and_false, Bool.false_eq_true, if_false]
      exact UInt16.not_lt.1 hv
  · exact h

theorem foldAscii_toNat (u : UInt16) :
    (foldAscii u).toNat = if 65 ≤ u.toNat ∧ u.toNat ≤ 90 then u.toNat + 32 else u.toNat := by
  have hcase : (0x41 ≤ u && u ≤ 0x5A) = decide (65 ≤ u.toNat ∧ u.toNat ≤ 90) := by
    simp [UInt16.le_iff_toNat_le]
  rw [foldAscii, hcase]
  by_cases h : 65 ≤ u.toNat ∧ u.toNat ≤ 90
  · rw [if_pos (decide_eq_true h), if_pos h, UInt16.toNat_add]
    have h20 : (0x20 : UInt16).toNat = 32 := rfl
    exact Nat.mod_eq_of_lt (by omega)
  · rw [if_neg (by simpa using h), if_neg h]

theorem upperAscii_toNat (u : UInt16) :
    (upperAscii u).toNat = if 97 ≤ u.toNat ∧ u.toNat ≤ 122 then u.toNat - 32 else u.toNat := by
  have hcase : (0x61 ≤ u && u ≤ 0x7A) = decide (97 ≤ u.toNat ∧ u.toNat ≤ 122) := by
    simp [UInt16.le_iff_toNat_le]
  rw [upperAscii, hcase]
  by_cases h : 97 ≤ u.toNat ∧ u.toNat ≤ 122
  · rw [if_pos (decide_eq_true h), if_pos h]
    have h20 : (0x20 : UInt16).toNat = 32 := rfl
    exact UInt16.toNat_sub_of_le _ _ (UInt16.le_iff_toNat_le.2 (by omega))
  · rw [if_neg (by simpa using h), if_neg h]

theorem upperAscii_lt {u : UInt16} (h : u < 0x80) : upperAscii u < 0x80 := by
  rw [UInt16.lt_iff_toNat_lt] at h ⊢
  rw [upperAscii_toNat]
  have h80 : (0x80 : UInt16).toNat = 128 := rfl
  split <;> omega

theorem foldAscii_lt {u : UInt16} (h : u < 0x80) : foldAscii u < 0x80 := by
  rw [UInt16.lt_iff_toNat_lt] at h ⊢
  rw [foldAscii_toNat]
  have h80 : (0x80 : UInt16).toNat = 128 := rfl
  split <;> omega

/-- Upper case and lower case tell the same units apart. -/
theorem upperAscii_eq_iff (c u : UInt16) : upperAscii c = upperAscii u ↔ foldAscii c = foldAscii u := by
  rw [← UInt16.toNat_inj, ← UInt16.toNat_inj, upperAscii_toNat, upperAscii_toNat, foldAscii_toNat, foldAscii_toNat]
  constructor
  · intro h
    split_ifs at h ⊢ <;> omega
  · intro h
    split_ifs at h ⊢ <;> omega

theorem canonicalize_eq_iff (upper : UpperCase) {c : UInt16} (hc : c < 0x80) (u : UInt16) :
    canonicalize upper c = canonicalize upper u ↔ foldAscii c = foldAscii u := by
  rw [canonicalize_ascii upper hc]
  by_cases hu : u < 0x80
  · rw [canonicalize_ascii upper hu]
    exact upperAscii_eq_iff c u
  · have hge : 0x80 ≤ u := UInt16.not_lt.1 hu
    have hfold : foldAscii u = u := by
      unfold foldAscii
      split
      · next hcase =>
        simp only [Bool.and_eq_true, decide_eq_true_eq, UInt16.le_iff_toNat_le] at hcase hge
        exact absurd (Nat.le_trans hge hcase.2) (by decide)
      · rfl
    constructor
    · intro h
      exact absurd (h ▸ upperAscii_lt hc) (UInt16.not_lt.2 (canonicalize_not_ascii upper hge))
    · intro h
      rw [hfold] at h
      exact absurd (h ▸ foldAscii_lt hc) hu

end Hayven.Lib
