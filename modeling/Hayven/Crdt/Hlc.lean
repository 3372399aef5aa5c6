import Mathlib.Tactic.Common
import Hayven.Lib.Bytes
import Hayven.Lib.Ordering
/-!
# Hybrid logical clock and writer IDs

`crdt/hlc.ts`. A clock value is a wall part and a 16-bit counter; a writer ID is
16 bytes. The 28-byte composite key `[hlc][writer]` identifies an op: two ops
with encodable clocks have the same key only if clock and writer agree.
-/
open Hayven.Lib

namespace Hayven.Crdt

structure Hlc where
  wallMs : Nat
  counter : Nat
deriving DecidableEq, Repr

def hlcBytes : Nat := 12
def writerBytes : Nat := 16
def compositeBytes : Nat := hlcBytes + writerBytes
def counterMax : Nat := 0xffff

/-- `Number.MAX_SAFE_INTEGER`. -/
def maxSafeInteger : Nat := 2 ^ 53 - 1

abbrev WriterId := { b : Bytes // b.length = writerBytes }

theorem length_replicate_writer (b : UInt8) : (List.replicate 16 b).length = writerBytes := List.length_replicate

/-- The writer id whose sixteen bytes are all `b`. -/
def replicatedWriter (b : UInt8) : WriterId := ⟨List.replicate 16 b, length_replicate_writer b⟩

inductive HlcError where
  | wallMsOutOfRange (wallMs : Nat)
  | counterOutOfRange (counter : Nat)
  | hlcLength (length : Nat)
  | reservedNonZero (reserved : Nat)
deriving DecidableEq, Repr

/-! ## Encoding -/

def encodeHlc (hlc : Hlc) : Except HlcError Bytes :=
  if hlc.wallMs > maxSafeInteger then .error (.wallMsOutOfRange hlc.wallMs)
  else if hlc.counter > counterMax then .error (.counterOutOfRange hlc.counter)
  else .ok (beBytes 4 (hlc.wallMs / 2 ^ 32) ++ beBytes 4 (hlc.wallMs % 2 ^ 32) ++ beBytes 2 hlc.counter ++ [0, 0])

def encodeComposite (hlc : Hlc) (writer : WriterId) : Except HlcError Bytes := do
  let h ← encodeHlc hlc
  return h ++ writer.1

/-- The clocks `encodeHlc` accepts. -/
def Hlc.Encodable (hlc : Hlc) : Prop := hlc.wallMs ≤ maxSafeInteger ∧ hlc.counter ≤ counterMax

instance (hlc : Hlc) : Decidable hlc.Encodable := inferInstanceAs (Decidable (_ ∧ _))

/-- What `encodeHlc` returns when it does not throw. -/
def hlcCode (hlc : Hlc) : Bytes :=
  beBytes 4 (hlc.wallMs / 2 ^ 32) ++ beBytes 4 (hlc.wallMs % 2 ^ 32) ++ beBytes 2 hlc.counter ++ [0, 0]

theorem encodeHlc_of_encodable {hlc : Hlc} (h : hlc.Encodable) : encodeHlc hlc = .ok (hlcCode hlc) := by
  simp [encodeHlc, hlcCode, Nat.not_lt.2 h.1, Nat.not_lt.2 h.2]

theorem encodeHlc_of_not_encodable {hlc : Hlc} (h : ¬ hlc.Encodable) : ∃ e, encodeHlc hlc = .error e := by
  by_cases hw : hlc.wallMs > maxSafeInteger
  · exact ⟨_, if_pos hw⟩
  · have hc : hlc.counter > counterMax := Nat.lt_of_not_le fun hc => h ⟨Nat.not_lt.1 hw, hc⟩
    exact ⟨.counterOutOfRange hlc.counter, by simp [encodeHlc, hw, hc]⟩

theorem length_hlcCode (hlc : Hlc) : (hlcCode hlc).length = hlcBytes := by simp [hlcCode, hlcBytes]

theorem hlcCode_inj {a b : Hlc} (ha : a.Encodable) (hb : b.Encodable) (h : hlcCode a = hlcCode b) : a = b := by
  have hwa := ha.1; have hwb := hb.1; have hca := ha.2; have hcb := hb.2
  simp only [maxSafeInteger, counterMax] at hwa hwb hca hcb
  simp only [hlcCode, List.append_assoc] at h
  obtain ⟨hhi, h⟩ := List.append_inj h (by simp)
  obtain ⟨hlo, h⟩ := List.append_inj h (by simp)
  obtain ⟨hctr, -⟩ := List.append_inj h (by simp)
  have hhi' := beBytes_inj (by omega) (by omega) hhi
  have hlo' := beBytes_inj (by omega) (by omega) hlo
  have hctr' := beBytes_inj (by omega) (by omega) hctr
  have hwall : a.wallMs = b.wallMs := by
    rw [← Nat.div_add_mod a.wallMs (2 ^ 32), ← Nat.div_add_mod b.wallMs (2 ^ 32), hhi', hlo']
  cases a; cases b
  simp only [Hlc.mk.injEq] at hwall hctr' ⊢
  exact ⟨hwall, hctr'⟩

/-- The 28-byte key of an op. -/
def compositeCode (hlc : Hlc) (writer : WriterId) : Bytes := hlcCode hlc ++ writer.1

theorem encodeComposite_of_encodable {hlc : Hlc} (h : hlc.Encodable) (writer : WriterId) :
    encodeComposite hlc writer = .ok (compositeCode hlc writer) := by
  simp only [encodeComposite, encodeHlc_of_encodable h]; rfl

theorem encodeComposite_of_not_encodable {hlc : Hlc} (h : ¬ hlc.Encodable) (writer : WriterId) :
    ∃ e, encodeComposite hlc writer = .error e := by
  obtain ⟨e, he⟩ := encodeHlc_of_not_encodable h
  exact ⟨e, by simp only [encodeComposite, he]; rfl⟩

theorem length_compositeCode (hlc : Hlc) (writer : WriterId) :
    (compositeCode hlc writer).length = compositeBytes := by
  simp [compositeCode, length_hlcCode, writer.2, compositeBytes]

theorem compositeCode_inj {a b : Hlc} {v w : WriterId} (ha : a.Encodable) (hb : b.Encodable)
    (h : compositeCode a v = compositeCode b w) : a = b ∧ v = w := by
  obtain ⟨hh, hw⟩ := List.append_inj h (by simp [length_hlcCode])
  exact ⟨hlcCode_inj ha hb hh, Subtype.ext hw⟩

/-- The hex of a composite key. -/
def keyHex (key : Hlc × WriterId) : JsString := bytesToHex (compositeCode key.1 key.2)

theorem keyHex_inj {a b : Hlc × WriterId} (ha : a.1.Encodable) (hb : b.1.Encodable) (h : keyHex a = keyHex b) :
    a = b :=
  Prod.ext_iff.2 (compositeCode_inj ha hb (bytesToHex_inj.1 h))

/-! ## Comparison -/

def compareHlc (a b : Hlc) : Ordering :=
  if a.wallMs ≠ b.wallMs then (if a.wallMs < b.wallMs then .lt else .gt)
  else if a.counter ≠ b.counter then (if a.counter < b.counter then .lt else .gt)
  else .eq

/-- Unsigned big-endian byte order. Both sides are 16 bytes long by type. -/
def compareWriter (a b : WriterId) : Ordering := byteCompare a.1 b.1

def compareComposite (ah : Hlc) (aw : WriterId) (bh : Hlc) (bw : WriterId) : Ordering :=
  let h := compareHlc ah bh
  if h ≠ .eq then h else compareWriter aw bw

theorem compareHlc_eq : compareHlc = compareLex (compareOn Hlc.wallMs) (compareOn Hlc.counter) := by
  funext a b
  have key (m n : Nat) : compare m n = if m ≠ n then (if m < n then .lt else .gt) else .eq := by
    simp only [compare, compareOfLessAndEq]
    split <;> split <;> simp_all
  simp only [compareHlc, compareLex, compareOn, key]
  by_cases hw : a.wallMs = b.wallMs
  · simp [hw]
  · by_cases hlt : a.wallMs < b.wallMs <;> simp [hw, hlt]

instance : Std.TransCmp compareHlc := compareHlc_eq ▸ inferInstance

instance : Std.LawfulEqCmp compareHlc where
  eq_of_compare {a b} h := by
    rw [compareHlc_eq, compareLex_eq_eq] at h
    simp only [compareOn, Nat.compare_eq_eq] at h
    cases a; cases b
    simpa using h

instance : Std.TransCmp compareWriter := inferInstanceAs (Std.TransCmp (cmpOn Subtype.val byteCompare))

instance : Std.LawfulEqCmp compareWriter where
  compare_self {a} := show byteCompare a.1 a.1 = .eq from Std.ReflCmp.compare_self
  eq_of_compare {a b} h := Subtype.ext (Std.LawfulEqCmp.eq_of_compare (show byteCompare a.1 b.1 = .eq from h))

/-- `compareComposite` on the pair of clock and writer. -/
def compareKey (a b : Hlc × WriterId) : Ordering := compareComposite a.1 a.2 b.1 b.2

theorem compareKey_eq : compareKey = compareLex (cmpOn Prod.fst compareHlc) (cmpOn Prod.snd compareWriter) := by
  funext a b
  simp only [compareKey, compareComposite, compareLex, cmpOn]
  cases compareHlc a.1 b.1 <;> simp

instance : Std.TransCmp compareKey := compareKey_eq ▸ inferInstance

instance : Std.LawfulEqCmp compareKey where
  eq_of_compare {a b} h := by
    rw [compareKey_eq, compareLex_eq_eq] at h
    exact Prod.ext (Std.LawfulEqCmp.eq_of_compare (show compareHlc a.1 b.1 = .eq from h.1))
      (Std.LawfulEqCmp.eq_of_compare (show compareWriter a.2 b.2 = .eq from h.2))

end Hayven.Crdt
