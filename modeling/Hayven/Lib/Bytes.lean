import Mathlib.Data.List.Basic
import Mathlib.Tactic.Ring
/-!
# Bytes, UTF-16 strings and hexadecimal

A string is its list of UTF-16 code units, so it may hold an unpaired surrogate.
Big-endian numbers and lowercase hex are injective on what they print.
-/

namespace Hayven.Lib

abbrev Bytes := List UInt8

/-- UTF-16 code units. -/
abbrev JsString := List UInt16

instance : LawfulBEq JsString := List.instLawfulBEq

/-- Bounded statements are decided along the string, not over all code units. -/
instance decidableForallUnits (p : UInt16 → Prop) [DecidablePred p] (s : JsString) : Decidable (∀ u ∈ s, p u) :=
  List.decidableBAll p s

/-- The code units of an ASCII literal. -/
def ascii (s : String) : JsString := s.toList.map (fun c => c.toNat.toUInt16)

/-! ## Big-endian numbers -/

/-- The low `n` bytes of `v`, most significant first. -/
def beBytes : Nat → Nat → Bytes
  | 0, _ => []
  | n + 1, v => (v / 256 ^ n % 256).toUInt8 :: beBytes n v

/-- The number a big-endian byte string spells. -/
def ofBe (bs : Bytes) : Nat := bs.foldl (fun acc b => acc * 256 + b.toNat) 0

@[simp] theorem length_beBytes (n v : Nat) : (beBytes n v).length = n := by
  induction n with
  | zero => rfl
  | succ n ih => simp [beBytes, ih]

theorem toNat_toUInt8 {n : Nat} (h : n < 256) : n.toUInt8.toNat = n := by
  simp [Nat.mod_eq_of_lt h]

theorem foldl_beBytes (n v acc : Nat) :
    (beBytes n v).foldl (fun acc b => acc * 256 + b.toNat) acc = acc * 256 ^ n + v % 256 ^ n := by
  induction n generalizing acc with
  | zero => simp [beBytes, Nat.mod_one]
  | succ n ih =>
    have hsplit : v % 256 ^ (n + 1) = v / 256 ^ n % 256 * 256 ^ n + v % 256 ^ n := by
      rw [pow_succ, Nat.mod_mul, Nat.mul_comm, Nat.add_comm]
    simp only [beBytes, List.foldl_cons, ih, toNat_toUInt8 (Nat.mod_lt _ (by decide : 0 < 256)), hsplit]
    ring

@[simp] theorem ofBe_beBytes (n v : Nat) : ofBe (beBytes n v) = v % 256 ^ n := by
  simp [ofBe, foldl_beBytes]

/-- Numbers that fit in `n` bytes are told apart by their bytes. -/
theorem beBytes_inj {n v w : Nat} (hv : v < 256 ^ n) (hw : w < 256 ^ n) (h : beBytes n v = beBytes n w) : v = w := by
  have := congrArg ofBe h
  rwa [ofBe_beBytes, ofBe_beBytes, Nat.mod_eq_of_lt hv, Nat.mod_eq_of_lt hw] at this

/-! ## Comparing byte strings -/

/-- Unsigned lexicographic order, a proper prefix first. -/
def byteCompare : Bytes → Bytes → Ordering
  | [], [] => .eq
  | [], _ :: _ => .lt
  | _ :: _, [] => .gt
  | a :: as, b :: bs => if a ≠ b then (if a < b then .lt else .gt) else byteCompare as bs

theorem byteCompare_eq : byteCompare = compare := by
  funext as bs
  induction as generalizing bs with
  | nil => cases bs <;> rfl
  | cons a as ih =>
    cases bs with
    | nil => rfl
    | cons b bs =>
      by_cases h : a = b
      · subst h
        simp [byteCompare, ih, List.compare_cons_cons]
      · have hab : compare a b = if a < b then .lt else .gt := by
          simp only [compare, compareOfLessAndEq, h, if_false]
        by_cases hlt : a < b <;> simp [byteCompare, h, hlt, List.compare_cons_cons, hab]

instance : Std.TransCmp byteCompare := byteCompare_eq ▸ inferInstanceAs (Std.TransOrd Bytes)

instance : Std.LawfulEqCmp byteCompare := byteCompare_eq ▸ inferInstanceAs (Std.LawfulEqOrd Bytes)

/-! ## Hexadecimal -/

def hexDigit (n : Nat) : UInt16 := if n < 10 then (48 + n).toUInt16 else (87 + n).toUInt16

def hexByte (b : UInt8) : JsString := [hexDigit (b.toNat / 16), hexDigit (b.toNat % 16)]

def bytesToHex (bs : Bytes) : JsString := bs.flatMap hexByte

/-- The value of a hex digit of either case. -/
def hexValue (c : UInt16) : Option Nat :=
  if 48 ≤ c ∧ c ≤ 57 then some (c.toNat - 48)
  else if 97 ≤ c ∧ c ≤ 102 then some (c.toNat - 87)
  else if 65 ≤ c ∧ c ≤ 70 then some (c.toNat - 55)
  else none

/-- `parseInt(pair, 16)` stored into a byte: the longest hex prefix, `NaN` as 0. -/
def parseHexPair (a b : UInt16) : UInt8 :=
  match hexValue a, hexValue b with
  | some x, some y => (x * 16 + y).toUInt8
  | some x, none => x.toUInt8
  | none, _ => 0

def hexToBytes : JsString → Bytes
  | a :: b :: rest => parseHexPair a b :: hexToBytes rest
  | _ => []

theorem hexValue_hexDigit : ∀ n < 16, hexValue (hexDigit n) = some n := by decide

theorem parseHexPair_hexByte (b : UInt8) :
    parseHexPair (hexDigit (b.toNat / 16)) (hexDigit (b.toNat % 16)) = b := by
  have hb := b.toNat_lt
  have hhi := hexValue_hexDigit (b.toNat / 16) (by omega)
  have hlo := hexValue_hexDigit (b.toNat % 16) (by omega)
  simp only [parseHexPair, hhi, hlo, Nat.div_add_mod']
  exact UInt8.ofNat_toNat

@[simp] theorem hexToBytes_bytesToHex (bs : Bytes) : hexToBytes (bytesToHex bs) = bs := by
  induction bs with
  | nil => rfl
  | cons b bs ih =>
    show parseHexPair _ _ :: hexToBytes (bytesToHex bs) = _
    rw [ih, parseHexPair_hexByte]

theorem bytesToHex_inj {a b : Bytes} : bytesToHex a = bytesToHex b ↔ a = b :=
  ⟨fun h => by simpa using congrArg hexToBytes h, fun h => by rw [h]⟩

@[simp] theorem length_bytesToHex (bs : Bytes) : (bytesToHex bs).length = 2 * bs.length := by
  induction bs with
  | nil => rfl
  | cons b bs ih =>
    simp only [bytesToHex, List.flatMap_cons, List.length_append, List.length_cons] at ih ⊢
    simp only [hexByte, List.length_cons, List.length_nil] at ih ⊢
    omega

end Hayven.Lib
