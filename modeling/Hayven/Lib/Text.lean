import Mathlib.Tactic.Common
import Hayven.Lib.Bytes
/-!
# UTF-16 and UTF-8

`TextEncoder` and `TextDecoder` of the Encoding standard, and strict UTF-8. The
encoder replaces an unpaired surrogate by U+FFFD; the decoder drops one leading
byte order mark and replaces each maximal ill-formed run. A string survives the
round trip exactly if it is well formed and does not start with U+FEFF:
`textDecode_textEncode_eq_self`.
-/

namespace Hayven.Lib

def replacementChar : Char := Char.ofNat 0xFFFD

def isHighSurrogate (u : UInt16) : Bool := 0xD800 ≤ u ∧ u ≤ 0xDBFF

def isLowSurrogate (u : UInt16) : Bool := 0xDC00 ≤ u ∧ u ≤ 0xDFFF

/-! ## UTF-16 -/

/-- The code point of one unit that starts no surrogate pair. -/
def unitChar (u : UInt16) : Char :=
  if isHighSurrogate u || isLowSurrogate u then replacementChar else Char.ofNat u.toNat

def pairChar (u v : UInt16) : Char :=
  Char.ofNat (0x10000 + (u.toNat - 0xD800) * 0x400 + (v.toNat - 0xDC00))

/-- The scalar values of a string, an unpaired surrogate read as U+FFFD. -/
def ofUtf16 : JsString → List Char
  | [] => []
  | [u] => [unitChar u]
  | u :: v :: rest =>
    if isHighSurrogate u && isLowSurrogate v then pairChar u v :: ofUtf16 rest
    else unitChar u :: ofUtf16 (v :: rest)

def charUnits (c : Char) : JsString :=
  if c.toNat < 0x10000 then [c.toNat.toUInt16]
  else [(0xD800 + (c.toNat - 0x10000) / 0x400).toUInt16, (0xDC00 + (c.toNat - 0x10000) % 0x400).toUInt16]

def toUtf16 (cs : List Char) : JsString := cs.flatMap charUnits

/-- No unpaired surrogate: `String.prototype.isWellFormed`. -/
def wellFormed : JsString → Bool
  | [] => true
  | [u] => !isHighSurrogate u && !isLowSurrogate u
  | u :: v :: rest =>
    if isHighSurrogate u && isLowSurrogate v then wellFormed rest
    else !isHighSurrogate u && !isLowSurrogate u && wellFormed (v :: rest)

theorem toNat_toUInt16 {n : Nat} (h : n < 65536) : n.toUInt16.toNat = n := by
  simp [Nat.mod_eq_of_lt h]

theorem char_toNat_ofNat {n : Nat} (h : n.isValidChar) : (Char.ofNat n).toNat = n := by
  rw [Char.ofNat, dif_pos h]
  rfl

theorem char_valid (c : Char) : c.toNat < 0xD800 ∨ (0xDFFF < c.toNat ∧ c.toNat < 0x110000) := c.valid

theorem char_ofNat_toNat (c : Char) : Char.ofNat c.toNat = c := Char.ofNat_toNat c

theorem isHighSurrogate_iff {u : UInt16} : isHighSurrogate u = true ↔ 0xD800 ≤ u.toNat ∧ u.toNat ≤ 0xDBFF := by
  simp [isHighSurrogate, UInt16.le_iff_toNat_le]

theorem isLowSurrogate_iff {u : UInt16} : isLowSurrogate u = true ↔ 0xDC00 ≤ u.toNat ∧ u.toNat ≤ 0xDFFF := by
  simp [isLowSurrogate, UInt16.le_iff_toNat_le]

/-- Two units that print one character above the BMP. -/
theorem charUnits_pair {c : Char} (h : 0x10000 ≤ c.toNat) :
    ∃ u v, charUnits c = [u, v] ∧ isHighSurrogate u = true ∧ isLowSurrogate v = true ∧ pairChar u v = c := by
  have hv : c.toNat < 0x110000 := by rcases char_valid c with h | h <;> omega
  have hu : (0xD800 + (c.toNat - 0x10000) / 0x400).toUInt16.toNat = 0xD800 + (c.toNat - 0x10000) / 0x400 :=
    toNat_toUInt16 (by omega)
  have hl : (0xDC00 + (c.toNat - 0x10000) % 0x400).toUInt16.toNat = 0xDC00 + (c.toNat - 0x10000) % 0x400 :=
    toNat_toUInt16 (by omega)
  refine ⟨_, _, if_neg (by omega), ?_, ?_, ?_⟩
  · rw [isHighSurrogate_iff, hu]; omega
  · rw [isLowSurrogate_iff, hl]; omega
  · rw [pairChar, hu, hl, show 0x10000 + (0xD800 + (c.toNat - 0x10000) / 0x400 - 0xD800) * 0x400 +
      (0xDC00 + (c.toNat - 0x10000) % 0x400 - 0xDC00) = c.toNat by omega, char_ofNat_toNat]

/-- The one unit that prints a character of the BMP. -/
theorem charUnits_single {c : Char} (h : c.toNat < 0x10000) :
    ∃ u, charUnits c = [u] ∧ isHighSurrogate u = false ∧ isLowSurrogate u = false ∧ u.toNat = c.toNat ∧
      unitChar u = c := by
  have hu : c.toNat.toUInt16.toNat = c.toNat := toNat_toUInt16 h
  have hh : isHighSurrogate c.toNat.toUInt16 = false := by
    rw [← Bool.not_eq_true, isHighSurrogate_iff, hu]
    rcases char_valid c with h | h <;> omega
  have hl : isLowSurrogate c.toNat.toUInt16 = false := by
    rw [← Bool.not_eq_true, isLowSurrogate_iff, hu]
    rcases char_valid c with h | h <;> omega
  exact ⟨_, if_pos h, hh, hl, hu, by simp [unitChar, hh, hl, hu]⟩

theorem ofUtf16_single {u : UInt16} (rest : JsString) (hh : isHighSurrogate u = false) :
    ofUtf16 (u :: rest) = unitChar u :: ofUtf16 rest := by
  cases rest with
  | nil => rfl
  | cons v rest => simp [ofUtf16, hh]

theorem ofUtf16_charUnits (c : Char) (rest : JsString) : ofUtf16 (charUnits c ++ rest) = c :: ofUtf16 rest := by
  by_cases h : c.toNat < 0x10000
  · obtain ⟨u, hu, hh, -, -, hc⟩ := charUnits_single h
    rw [hu, List.singleton_append, ofUtf16_single rest hh, hc]
  · obtain ⟨u, v, huv, hh, hl, hc⟩ := charUnits_pair (Nat.not_lt.1 h)
    simp [huv, ofUtf16, hh, hl, hc]

@[simp] theorem ofUtf16_toUtf16 (cs : List Char) : ofUtf16 (toUtf16 cs) = cs := by
  induction cs with
  | nil => rfl
  | cons c cs ih =>
    simp only [toUtf16, List.flatMap_cons] at ih ⊢
    rw [ofUtf16_charUnits, ih]

/-- No surrogate pair reaches over the start of a text that does not begin with a low surrogate. -/
theorem ofUtf16_append (a : JsString) {b : JsString} (hb : ∀ u ∈ b.head?, isLowSurrogate u = false) :
    ofUtf16 (a ++ b) = ofUtf16 a ++ ofUtf16 b := by
  induction a using ofUtf16.induct with
  | case1 => rfl
  | case2 u =>
    cases b with
    | nil => rfl
    | cons v b =>
      have hv : isLowSurrogate v = false := hb v rfl
      simp [ofUtf16, hv]
  | case3 u v rest hpair ih =>
    simp only [List.cons_append, ofUtf16, hpair, if_true, ih]
  | case4 u v rest hpair ih =>
    rw [List.cons_append, List.cons_append] at *
    simp only [ofUtf16, if_neg hpair, List.cons_append] at ih ⊢
    rw [ih]

theorem charUnits_unitChar {u : UInt16} (hh : isHighSurrogate u = false) (hl : isLowSurrogate u = false) :
    charUnits (unitChar u) = [u] := by
  have hlt := u.toNat_lt
  have hval : u.toNat.isValidChar := by
    rw [← Bool.not_eq_true, isHighSurrogate_iff] at hh
    rw [← Bool.not_eq_true, isLowSurrogate_iff] at hl
    simp only [Nat.isValidChar]
    omega
  simp only [unitChar, hh, hl, Bool.or_self, Bool.false_eq_true, if_false, charUnits, char_toNat_ofNat hval,
    if_pos hlt]
  simp

theorem charUnits_pairChar {u v : UInt16} (hh : isHighSurrogate u = true) (hl : isLowSurrogate v = true) :
    charUnits (pairChar u v) = [u, v] := by
  rw [isHighSurrogate_iff] at hh
  rw [isLowSurrogate_iff] at hl
  have hval : (0x10000 + (u.toNat - 0xD800) * 0x400 + (v.toNat - 0xDC00)).isValidChar := by
    simp only [Nat.isValidChar]; omega
  rw [charUnits, pairChar, char_toNat_ofNat hval, if_neg (by omega),
    show 0xD800 + (0x10000 + (u.toNat - 0xD800) * 0x400 + (v.toNat - 0xDC00) - 0x10000) / 0x400 = u.toNat by omega,
    show 0xDC00 + (0x10000 + (u.toNat - 0xD800) * 0x400 + (v.toNat - 0xDC00) - 0x10000) % 0x400 = v.toNat by omega]
  simp

/-- A string is well formed exactly if reading it as characters loses nothing. -/
theorem wellFormed_iff (s : JsString) : wellFormed s = true ↔ toUtf16 (ofUtf16 s) = s := by
  have lone {u : UInt16} (rest : JsString) (hu : (isHighSurrogate u || isLowSurrogate u) = true) :
      charUnits (unitChar u) ++ toUtf16 (ofUtf16 rest) ≠ u :: rest := by
    intro h
    have hhead : (0xFFFD : UInt16) = u := by
      simpa [unitChar, hu, replacementChar, charUnits] using congrArg List.head? h
    subst hhead
    simp [isHighSurrogate, isLowSurrogate] at hu
  induction s using wellFormed.induct with
  | case1 => simp [wellFormed, ofUtf16, toUtf16]
  | case2 u =>
    cases hs : (isHighSurrogate u || isLowSurrogate u) with
    | false =>
      simp only [Bool.or_eq_false_iff] at hs
      simp [wellFormed, ofUtf16, toUtf16, hs.1, hs.2, charUnits_unitChar hs.1 hs.2]
    | true =>
      have := lone [] hs
      simp only [ofUtf16, toUtf16, List.flatMap_nil, List.append_nil, List.flatMap_cons] at this ⊢
      simp only [this, iff_false, wellFormed]
      cases h : isHighSurrogate u <;> simp_all
  | case3 u v rest hp ih =>
    have hp' := Bool.and_eq_true_iff.1 hp
    simp [wellFormed, ofUtf16, hp'.1, hp'.2, ih, toUtf16, charUnits_pairChar hp'.1 hp'.2]
  | case4 u v rest hp ih =>
    cases hs : (isHighSurrogate u || isLowSurrogate u) with
    | false =>
      simp only [Bool.or_eq_false_iff] at hs
      simp only [toUtf16] at ih
      simp [wellFormed, ofUtf16, hs.1, hs.2, ih, toUtf16, charUnits_unitChar hs.1 hs.2]
    | true =>
      have := lone (v :: rest) hs
      simp only [ofUtf16, hp, Bool.false_eq_true, if_false, toUtf16, List.flatMap_cons] at this ⊢
      simp only [this, iff_false, wellFormed, hp, Bool.false_eq_true, if_false]
      cases h : isHighSurrogate u <;> simp_all

/-! ## UTF-8 -/

def utf8Char (c : Char) : Bytes :=
  let n := c.toNat
  if n < 0x80 then [n.toUInt8]
  else if n < 0x800 then [(0xC0 + n / 64).toUInt8, (0x80 + n % 64).toUInt8]
  else if n < 0x10000 then [(0xE0 + n / 4096).toUInt8, (0x80 + n / 64 % 64).toUInt8, (0x80 + n % 64).toUInt8]
  else [(0xF0 + n / 262144).toUInt8, (0x80 + n / 4096 % 64).toUInt8, (0x80 + n / 64 % 64).toUInt8,
    (0x80 + n % 64).toUInt8]

def utf8Encode (cs : List Char) : Bytes := cs.flatMap utf8Char

/-- A sequence under way: the bits so far, the bytes still needed, and the range
the next byte must lie in. -/
structure Pending where
  codePoint : Nat
  needed : Nat
  lower : Nat
  upper : Nat

/-- What a byte is between characters. -/
inductive Lead where
  | char (c : Char)
  | pending (p : Pending)
  | bad

def leadByte (b : Nat) : Lead :=
  if b < 0x80 then .char (Char.ofNat b)
  else if 0xC2 ≤ b ∧ b ≤ 0xDF then .pending ⟨b % 32, 1, 0x80, 0xBF⟩
  else if 0xE0 ≤ b ∧ b ≤ 0xEF then
    .pending ⟨b % 16, 2, if b = 0xE0 then 0xA0 else 0x80, if b = 0xED then 0x9F else 0xBF⟩
  else if 0xF0 ≤ b ∧ b ≤ 0xF4 then
    .pending ⟨b % 8, 3, if b = 0xF0 then 0x90 else 0x80, if b = 0xF4 then 0x8F else 0xBF⟩
  else .bad

/-- The decoder of the Encoding standard: a byte that breaks a sequence ends it
with U+FFFD and is read again as a first byte. -/
def utf8DecodeFrom : Option Pending → Bytes → List Char
  | none, [] => []
  | some _, [] => [replacementChar]
  | none, b :: bs =>
    match leadByte b.toNat with
    | .char c => c :: utf8DecodeFrom none bs
    | .pending p => utf8DecodeFrom (some p) bs
    | .bad => replacementChar :: utf8DecodeFrom none bs
  | some p, b :: bs =>
    if p.lower ≤ b.toNat ∧ b.toNat ≤ p.upper then
      if p.needed = 1 then Char.ofNat (p.codePoint * 64 + b.toNat % 64) :: utf8DecodeFrom none bs
      else utf8DecodeFrom (some ⟨p.codePoint * 64 + b.toNat % 64, p.needed - 1, 0x80, 0xBF⟩) bs
    else
      match leadByte b.toNat with
      | .char c => replacementChar :: c :: utf8DecodeFrom none bs
      | .pending q => replacementChar :: utf8DecodeFrom (some q) bs
      | .bad => replacementChar :: replacementChar :: utf8DecodeFrom none bs

def utf8DecodeLossy (bs : Bytes) : List Char := utf8DecodeFrom none bs

/-- The strict decoder: `none` where the lossy one would replace. -/
def utf8StrictFrom : Option Pending → Bytes → Option (List Char)
  | none, [] => some []
  | some _, [] => none
  | none, b :: bs =>
    match leadByte b.toNat with
    | .char c => (utf8StrictFrom none bs).map (c :: ·)
    | .pending p => utf8StrictFrom (some p) bs
    | .bad => none
  | some p, b :: bs =>
    if p.lower ≤ b.toNat ∧ b.toNat ≤ p.upper then
      if p.needed = 1 then
        (utf8StrictFrom none bs).map (Char.ofNat (p.codePoint * 64 + b.toNat % 64) :: ·)
      else utf8StrictFrom (some ⟨p.codePoint * 64 + b.toNat % 64, p.needed - 1, 0x80, 0xBF⟩) bs
    else none

def utf8DecodeStrict (bs : Bytes) : Option (List Char) := utf8StrictFrom none bs

/-- Both decoders read an encoded character whole. -/
theorem utf8From_char (c : Char) (rest : Bytes) :
    utf8DecodeFrom none (utf8Char c ++ rest) = c :: utf8DecodeFrom none rest ∧
    utf8StrictFrom none (utf8Char c ++ rest) = (utf8StrictFrom none rest).map (c :: ·) := by
  have hc := char_ofNat_toNat c
  have hv := char_valid c
  generalize hn : c.toNat = n at hc hv
  unfold utf8Char
  simp only [hn]
  split
  · have h0 := toNat_toUInt8 (n := n) (by omega)
    simp [utf8DecodeFrom, utf8StrictFrom, leadByte, *]
  split
  · have h0 := toNat_toUInt8 (n := 0xC0 + n / 64) (by omega)
    have h1 := toNat_toUInt8 (n := 0x80 + n % 64) (by omega)
    have hl : leadByte (0xC0 + n / 64) = .pending ⟨n / 64, 1, 0x80, 0xBF⟩ := by
      rw [leadByte, if_neg (by omega), if_pos (by omega), show (0xC0 + n / 64) % 32 = n / 64 by omega]
    have hcp : n / 64 * 64 + (0x80 + n % 64) % 64 = n := by omega
    have hr : 0x80 ≤ 0x80 + n % 64 ∧ 0x80 + n % 64 ≤ 0xBF := by omega
    simp only [List.cons_append, List.nil_append, utf8DecodeFrom, utf8StrictFrom, h0, hl, h1, hr, and_self, if_true,
      hcp, hc]
  split
  · have h0 := toNat_toUInt8 (n := 0xE0 + n / 4096) (by omega)
    have h1 := toNat_toUInt8 (n := 0x80 + n / 64 % 64) (by omega)
    have h2 := toNat_toUInt8 (n := 0x80 + n % 64) (by omega)
    have hl : leadByte (0xE0 + n / 4096) = .pending ⟨n / 4096, 2, if 0xE0 + n / 4096 = 0xE0 then 0xA0 else 0x80,
        if 0xE0 + n / 4096 = 0xED then 0x9F else 0xBF⟩ := by
      rw [leadByte, if_neg (by omega), if_neg (by omega), if_pos (by omega),
        show (0xE0 + n / 4096) % 16 = n / 4096 by omega]
    have hr1 : (if 0xE0 + n / 4096 = 0xE0 then 0xA0 else 0x80) ≤ 0x80 + n / 64 % 64 ∧
        0x80 + n / 64 % 64 ≤ (if 0xE0 + n / 4096 = 0xED then 0x9F else 0xBF) := by
      constructor <;> split <;> omega
    have hr2 : 0x80 ≤ 0x80 + n % 64 ∧ 0x80 + n % 64 ≤ 0xBF := by omega
    have hcp : (n / 4096 * 64 + (0x80 + n / 64 % 64) % 64) * 64 + (0x80 + n % 64) % 64 = n := by omega
    simp only [List.cons_append, List.nil_append, utf8DecodeFrom, utf8StrictFrom, h0, hl, h1, h2, hr1, hr2, and_self,
      if_true, Nat.reduceSub, Nat.reduceEqDiff, if_false, hcp, hc]
  · have h0 := toNat_toUInt8 (n := 0xF0 + n / 262144) (by omega)
    have h1 := toNat_toUInt8 (n := 0x80 + n / 4096 % 64) (by omega)
    have h2 := toNat_toUInt8 (n := 0x80 + n / 64 % 64) (by omega)
    have h3 := toNat_toUInt8 (n := 0x80 + n % 64) (by omega)
    have hl : leadByte (0xF0 + n / 262144) = .pending ⟨n / 262144, 3, if 0xF0 + n / 262144 = 0xF0 then 0x90 else 0x80,
        if 0xF0 + n / 262144 = 0xF4 then 0x8F else 0xBF⟩ := by
      rw [leadByte, if_neg (by omega), if_neg (by omega), if_neg (by omega), if_pos (by omega),
        show (0xF0 + n / 262144) % 8 = n / 262144 by omega]
    have hr1 : (if 0xF0 + n / 262144 = 0xF0 then 0x90 else 0x80) ≤ 0x80 + n / 4096 % 64 ∧
        0x80 + n / 4096 % 64 ≤ (if 0xF0 + n / 262144 = 0xF4 then 0x8F else 0xBF) := by
      constructor <;> split <;> omega
    have hr2 : 0x80 ≤ 0x80 + n / 64 % 64 ∧ 0x80 + n / 64 % 64 ≤ 0xBF := by omega
    have hr3 : 0x80 ≤ 0x80 + n % 64 ∧ 0x80 + n % 64 ≤ 0xBF := by omega
    have hcp : ((n / 262144 * 64 + (0x80 + n / 4096 % 64) % 64) * 64 + (0x80 + n / 64 % 64) % 64) * 64 +
        (0x80 + n % 64) % 64 = n := by omega
    simp only [List.cons_append, List.nil_append, utf8DecodeFrom, utf8StrictFrom, h0, hl, h1, h2, h3, hr1, hr2, hr3,
      and_self, if_true, Nat.reduceSub, Nat.reduceEqDiff, if_false, hcp, hc]

@[simp] theorem utf8DecodeLossy_encode (cs : List Char) : utf8DecodeLossy (utf8Encode cs) = cs := by
  unfold utf8DecodeLossy
  induction cs with
  | nil => rfl
  | cons c cs ih =>
    simp only [utf8Encode, List.flatMap_cons] at ih ⊢
    rw [(utf8From_char c _).1, ih]

@[simp] theorem utf8DecodeStrict_encode (cs : List Char) : utf8DecodeStrict (utf8Encode cs) = some cs := by
  unfold utf8DecodeStrict
  induction cs with
  | nil => rfl
  | cons c cs ih =>
    simp only [utf8Encode, List.flatMap_cons] at ih ⊢
    rw [(utf8From_char c _).2, ih]
    rfl

theorem length_utf8Char_le (c : Char) : (utf8Char c).length ≤ 4 := by
  simp only [utf8Char]
  repeat' split
  all_goals simp

theorem length_utf8Char_of_lt {c : Char} {k : Nat} (h : (k = 2 ∧ c.toNat < 0x800) ∨ (k = 3 ∧ c.toNat < 0x10000) ∨ 4 ≤ k) :
    (utf8Char c).length ≤ k := by
  rcases h with ⟨rfl, h⟩ | ⟨rfl, h⟩ | h
  · simp only [utf8Char]
    repeat' split
    all_goals simp_all
  · simp only [utf8Char]
    repeat' split
    all_goals simp_all
  · exact (length_utf8Char_le c).trans h

theorem toNat_ofNat_le (n : Nat) : (Char.ofNat n).toNat ≤ n := by
  by_cases h : n.isValidChar
  · exact (char_toNat_ofNat h).le
  · have hzero : (Char.ofNat n).toNat = 0 := by simp [Char.ofNat, h, Char.toNat]
    omega

/-- After `k` bytes a sequence is under way, of two bytes and below U+0800, of three and below
U+10000, or longer. -/
structure Pending.Within (p : Pending) (k : Nat) : Prop where
  needs : 0 < p.needed
  total : 2 ≤ k + p.needed
  two : k + p.needed = 2 → (p.codePoint + 1) * 64 ^ p.needed ≤ 0x800
  three : k + p.needed = 3 → (p.codePoint + 1) * 64 ^ p.needed ≤ 0x10000

theorem leadByte_char {b : Nat} {c : Char} (h : leadByte b = .char c) : (utf8Char c).length ≤ 1 := by
  unfold leadByte at h
  split at h
  case isTrue hlt =>
    cases h
    have hle := toNat_ofNat_le b
    rw [utf8Char, if_pos (by omega)]
    rfl
  case isFalse =>
    repeat' split at h
    all_goals cases h

theorem leadByte_pending {b : Nat} {p : Pending} (h : leadByte b = .pending p) : p.Within 1 := by
  unfold leadByte at h
  split at h
  · cases h
  split at h
  case isTrue hb =>
    cases h
    refine ⟨Nat.one_pos, Nat.le_refl 2, fun _ => ?_, nofun⟩
    simp only [pow_one]
    omega
  split at h
  case isTrue hb =>
    cases h
    refine ⟨Nat.two_pos, by dsimp only; omega, nofun, fun _ => ?_⟩
    simp only [Nat.reducePow]
    omega
  split at h
  case isTrue hb =>
    cases h
    exact ⟨by dsimp only; omega, by dsimp only; omega, nofun, nofun⟩
  case isFalse => cases h

/-- One more byte. -/
theorem Pending.Within.next {p : Pending} {k : Nat} (h : p.Within k) (hne : p.needed ≠ 1) {d : Nat} (hd : d < 64)
    (lower upper : Nat) : Pending.Within ⟨p.codePoint * 64 + d, p.needed - 1, lower, upper⟩ (k + 1) := by
  obtain ⟨cp, needed, l, u⟩ := p
  obtain ⟨hneeds, htotal, htwo, hthree⟩ := h
  dsimp only at hne hneeds htotal htwo hthree
  obtain ⟨m, rfl⟩ : ∃ m, needed = m + 1 := ⟨needed - 1, by omega⟩
  have hle : (cp * 64 + d + 1) * 64 ^ m ≤ (cp + 1) * 64 ^ (m + 1) := by
    calc (cp * 64 + d + 1) * 64 ^ m ≤ ((cp + 1) * 64) * 64 ^ m := by gcongr; omega
      _ = (cp + 1) * 64 ^ (m + 1) := by ring
  have hsum : k + 1 + (m + 1 - 1) = k + (m + 1) := by omega
  refine ⟨?_, ?_, fun h2 => ?_, fun h3 => ?_⟩
  · show 0 < m + 1 - 1
    omega
  · show 2 ≤ k + 1 + (m + 1 - 1)
    omega
  · exact hle.trans (htwo (hsum.symm.trans h2))
  · exact hle.trans (hthree (hsum.symm.trans h3))

/-- The last byte. -/
theorem Pending.Within.last {p : Pending} {k : Nat} (h : p.Within k) (hone : p.needed = 1) {d : Nat} (hd : d < 64) :
    (utf8Char (Char.ofNat (p.codePoint * 64 + d))).length ≤ k + 1 := by
  obtain ⟨-, htotal, htwo, hthree⟩ := h
  rw [hone] at htotal htwo hthree
  have hle := toNat_ofNat_le (p.codePoint * 64 + d)
  refine length_utf8Char_of_lt ?_
  omega

theorem length_utf8Encode_cons (c : Char) (cs : List Char) :
    (utf8Encode (c :: cs)).length = (utf8Char c).length + (utf8Encode cs).length := by
  rw [utf8Encode, List.flatMap_cons, List.length_append, utf8Encode]

theorem length_utf8StrictFrom (bs : Bytes) (cs : List Char) :
    (utf8StrictFrom none bs = some cs → (utf8Encode cs).length ≤ bs.length) ∧
      ∀ p k, p.Within k → utf8StrictFrom (some p) bs = some cs → (utf8Encode cs).length ≤ k + bs.length := by
  induction bs generalizing cs with
  | nil =>
    refine ⟨fun h => ?_, fun p k _ h => ?_⟩
    · cases h
      exact Nat.le_refl 0
    · cases h
  | cons b bs ih =>
    rw [List.length_cons]
    constructor
    · intro h
      rw [utf8StrictFrom] at h
      cases hlead : leadByte b.toNat with
      | bad => simp [hlead] at h
      | char c =>
        simp only [hlead] at h
        obtain ⟨cs', hcs, rfl⟩ := Option.map_eq_some_iff.1 h
        have hrest := (ih cs').1 hcs
        have hc := leadByte_char hlead
        rw [length_utf8Encode_cons]
        omega
      | pending p =>
        simp only [hlead] at h
        have hrest := (ih cs).2 p 1 (leadByte_pending hlead) h
        omega
    · intro p k hwithin h
      have hmod : b.toNat % 64 < 64 := Nat.mod_lt _ (by omega)
      rw [utf8StrictFrom] at h
      split at h
      case isFalse => cases h
      case isTrue =>
        split at h
        case isTrue hone =>
          obtain ⟨cs', hcs, rfl⟩ := Option.map_eq_some_iff.1 h
          have hrest := (ih cs').1 hcs
          have hc := hwithin.last hone hmod
          rw [length_utf8Encode_cons]
          omega
        case isFalse hne =>
          have hrest := (ih cs).2 _ (k + 1) (hwithin.next hne hmod _ _) h
          omega

/-- What decodes was at least as long as its encoding. -/
theorem length_utf8Encode_le {bs : Bytes} {cs : List Char} (h : utf8DecodeStrict bs = some cs) :
    (utf8Encode cs).length ≤ bs.length :=
  (length_utf8StrictFrom bs cs).1 h

/-! ## TextEncoder and TextDecoder -/

def byteOrderMark : Char := Char.ofNat 0xFEFF

def textEncode (s : JsString) : Bytes := utf8Encode (ofUtf16 s)

/-- `new TextDecoder().decode`: the byte order mark is not part of the text. -/
def textDecode (bs : Bytes) : JsString :=
  match utf8DecodeLossy bs with
  | [] => []
  | c :: cs => if c = byteOrderMark then toUtf16 cs else toUtf16 (c :: cs)

/-- The string that reading back an encoded string gives. -/
theorem textDecode_textEncode (s : JsString) :
    textDecode (textEncode s) = match ofUtf16 s with
      | [] => []
      | c :: cs => if c = byteOrderMark then toUtf16 cs else toUtf16 (c :: cs) := by
  simp [textDecode, textEncode]

/-- What the UTF-8 round trip keeps. -/
def TextSafe (s : JsString) : Prop := wellFormed s = true ∧ s.head? ≠ some 0xFEFF

instance (s : JsString) : Decidable (TextSafe s) := inferInstanceAs (Decidable (_ ∧ _))

theorem head_toUtf16_bom {c : Char} {cs : List Char} :
    (toUtf16 (c :: cs)).head? = some 0xFEFF ↔ c = byteOrderMark := by
  simp only [toUtf16, List.flatMap_cons]
  by_cases h : c.toNat < 0x10000
  · obtain ⟨u, hu, -, -, hn, -⟩ := charUnits_single h
    simp only [hu, List.singleton_append, List.head?_cons, Option.some.injEq]
    rw [← UInt16.toNat_inj, hn]
    constructor
    · intro he
      rw [← char_ofNat_toNat c, he]
      rfl
    · rintro rfl; rfl
  · obtain ⟨u, v, huv, hh, -, -⟩ := charUnits_pair (Nat.not_lt.1 h)
    rw [isHighSurrogate_iff] at hh
    simp only [huv, List.cons_append, List.head?_cons, Option.some.injEq]
    constructor
    · rintro rfl; simp at hh
    · rintro rfl; exact absurd (by decide) h

theorem textDecode_textEncode_eq_self (s : JsString) : textDecode (textEncode s) = s ↔ TextSafe s := by
  rw [textDecode_textEncode, TextSafe, wellFormed_iff]
  cases hs : ofUtf16 s with
  | nil =>
    constructor
    · rintro rfl; exact ⟨rfl, by simp⟩
    · rintro ⟨h, -⟩; exact h
  | cons c cs =>
    by_cases hc : c = byteOrderMark
    · simp only [hc, if_true]
      constructor
      · intro h
        have := congrArg ofUtf16 h
        rw [ofUtf16_toUtf16, hs] at this
        simp [hc] at this
      · rintro ⟨h, hne⟩
        exact absurd (h ▸ head_toUtf16_bom.2 rfl) hne
    · simp only [hc, if_false]
      refine ⟨fun h => ⟨h, fun hb => hc ?_⟩, fun h => h.1⟩
      exact head_toUtf16_bom.1 (h.symm ▸ hb)

end Hayven.Lib
