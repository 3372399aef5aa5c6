import Hayven.Lib.DecimalText
import Mathlib.Data.List.TakeWhile
/-!
# JSON text through UTF-8

What `JSON.stringify` prints has no unpaired surrogate and does not start with a byte
order mark, so `TextEncoder` and `TextDecoder` keep it.
-/

namespace Hayven.Lib

/-! ## Paired surrogates -/

/-- Every surrogate of the string has its partner in it. -/
def Paired (s : JsString) : Prop := ∀ rest, wellFormed (s ++ rest) = wellFormed rest

theorem Paired.wellFormed {s : JsString} (h : Paired s) : wellFormed s = true := by
  have hs := h []
  rw [List.append_nil] at hs
  exact hs

theorem paired_nil : Paired [] := fun _ => rfl

theorem Paired.append {s t : JsString} (hs : Paired s) (ht : Paired t) : Paired (s ++ t) := by
  intro rest
  rw [List.append_assoc, hs, ht]

theorem paired_unit {u : UInt16} (hh : isHighSurrogate u = false) (hl : isLowSurrogate u = false) : Paired [u] := by
  intro rest
  cases rest with
  | nil => simp [wellFormed, hh, hl]
  | cons v rest => simp [wellFormed, hh, hl]

theorem paired_pair {u v : UInt16} (hu : isHighSurrogate u = true) (hv : isLowSurrogate v = true) : Paired [u, v] := by
  intro rest
  simp [wellFormed, hu, hv]

/-- Units below the surrogates. -/
def Plain (s : JsString) : Prop := ∀ u ∈ s, u.toNat < 0xD800

theorem not_surrogate {u : UInt16} (h : u.toNat < 0xD800) : isHighSurrogate u = false ∧ isLowSurrogate u = false := by
  constructor
  · rw [← Bool.not_eq_true, isHighSurrogate_iff]
    omega
  · rw [← Bool.not_eq_true, isLowSurrogate_iff]
    omega

theorem Plain.paired {s : JsString} (h : Plain s) : Paired s := by
  induction s with
  | nil => exact paired_nil
  | cons u s ih =>
    obtain ⟨hh, hl⟩ := not_surrogate (h u List.mem_cons_self)
    have hrest := ih fun v hv => h v (List.mem_cons_of_mem u hv)
    exact (paired_unit hh hl).append hrest

/-! ## Numbers are plain -/

theorem plain_numberUnit {u : UInt16} (h : isNumberUnit u = true) : u.toNat < 0xD800 := by
  simp only [isNumberUnit, isDigit, Bool.or_eq_true, Bool.and_eq_true, decide_eq_true_eq] at h
  rcases h with ((((h | rfl) | rfl) | rfl) | rfl) | rfl
  · exact lt_of_le_of_lt (UInt16.le_iff_toNat_le.1 h.2) (by decide)
  all_goals decide

/-- A text that reads as a number is a number's text throughout. -/
theorem plain_print {rt : NumberText} (hrt : rt.Lossless) {q : Rat} (hq : IsDouble q) : Plain (rt.print q) :=
  fun u hu => plain_numberUnit ((hrt.print_units hq).2 u hu)

/-! ## Printed text -/

theorem plain_hexDigit (n : Nat) : (hexDigit (n % 16)).toNat < 0xD800 := by
  have h : ∀ m < 16, (hexDigit m).toNat < 0xD800 := by decide
  exact h _ (Nat.mod_lt n (by decide))

theorem plain_escapeUnit (u : UInt16) : Plain (escapeUnit u) := by
  have hfirst : u.toNat / 4096 = u.toNat / 4096 % 16 := by
    have := u.toNat_lt
    omega
  unfold escapeUnit
  rw [hfirst]
  intro v hv
  simp only [List.mem_cons, List.not_mem_nil, or_false] at hv
  rcases hv with rfl | rfl | rfl | rfl | rfl | rfl
  · decide
  · decide
  all_goals exact plain_hexDigit _

theorem paired_quoteUnit {u : UInt16} (hh : isHighSurrogate u = false) (hl : isLowSurrogate u = false) :
    Paired (quoteUnit u) := by
  have hshort (v : UInt16) (hv : v.toNat < 0xD800) : Paired [0x5C, v] :=
    Plain.paired (List.forall_mem_cons.2 ⟨by decide, List.forall_mem_singleton.2 hv⟩)
  unfold quoteUnit
  repeat' split
  all_goals first
    | exact hshort _ (by decide)
    | exact (plain_escapeUnit u).paired
    | exact paired_unit hh hl

theorem paired_quoteBody (s : JsString) : Paired (quoteBody s) := by
  fun_induction quoteBody s with
  | case1 => exact paired_nil
  | case2 u hu v rest hv ih => exact (paired_pair hu hv).append ih
  | case3 u hu v rest hv ih => exact (plain_escapeUnit u).paired.append ih
  | case4 u hu => exact (plain_escapeUnit u).paired
  | case5 u rest hu hl ih => exact (plain_escapeUnit u).paired.append ih
  | case6 u rest hu hl ih => exact (paired_quoteUnit (by simpa using hu) (by simpa using hl)).append ih

theorem paired_ascii_unit (u : UInt16) (h : u.toNat < 0xD800 := by decide) : Paired [u] :=
  paired_unit (not_surrogate h).1 (not_surrogate h).2

theorem paired_quote (s : JsString) : Paired (quote s) :=
  ((paired_ascii_unit 0x22).append (paired_quoteBody s)).append (paired_ascii_unit 0x22)

theorem plain_of_all {s : JsString} (h : s.all (fun u => u.toNat < 0xD800) = true) : Plain s := fun u hu =>
  of_decide_eq_true (List.all_eq_true.1 h u hu)

mutual

theorem paired_stringify {rt : NumberText} (hrt : rt.Lossless) : ∀ (j : Json), j.Finite → Paired (stringify rt j)
  | .null, _ => (plain_of_all (s := ascii "null") (by decide)).paired
  | .bool true, _ => (plain_of_all (s := ascii "true") (by decide)).paired
  | .bool false, _ => (plain_of_all (s := ascii "false") (by decide)).paired
  | .num _, hj => by
    obtain ⟨q, rfl, hq⟩ := hj
    exact (plain_print hrt hq).paired
  | .str s, _ => paired_quote s
  | .arr items, hj => by
    have hitems := paired_stringifyItems hrt items hj
    exact ((paired_ascii_unit 0x5B).append hitems).append (paired_ascii_unit 0x5D)
  | .obj fields, hj => by
    have hfields := paired_stringifyFields hrt fields hj
    exact ((paired_ascii_unit 0x7B).append hfields).append (paired_ascii_unit 0x7D)

theorem paired_stringifyItems {rt : NumberText} (hrt : rt.Lossless) : ∀ (items : List Json),
    Json.FiniteItems items → Paired (stringifyItems rt items)
  | [], _ => paired_nil
  | [j], hj => paired_stringify hrt j hj.1
  | j :: j' :: items, hj => by
    have hrest := paired_stringifyItems hrt (j' :: items) hj.2
    rw [stringifyItems_cons rt j (j' :: items) (List.cons_ne_nil _ _)]
    exact (paired_stringify hrt j hj.1).append ((paired_ascii_unit 0x2C).append hrest)

theorem paired_stringifyFields {rt : NumberText} (hrt : rt.Lossless) : ∀ (fields : List (JsString × Json)),
    Json.FiniteFields fields → Paired (stringifyFields rt fields)
  | [], _ => paired_nil
  | [(k, j)], hj => (paired_quote k).append ((paired_ascii_unit 0x3A).append (paired_stringify hrt j hj.1))
  | (k, j) :: p :: fields, hj => by
    have hrest := paired_stringifyFields hrt (p :: fields) hj.2
    have hmember := (paired_quote k).append ((paired_ascii_unit 0x3A).append (paired_stringify hrt j hj.1))
    rw [stringifyFields_cons rt k j (p :: fields) (List.cons_ne_nil _ _)]
    exact hmember.append ((paired_ascii_unit 0x2C).append hrest)

end

theorem textSafe_stringify {rt : NumberText} (hrt : rt.Lossless) {j : Json} (hj : j.Finite) :
    TextSafe (stringify rt j) := by
  refine ⟨(paired_stringify hrt j hj).wellFormed, ?_⟩
  obtain ⟨u, s, hs, hu⟩ := stringify_head hrt hj
  rw [hs]
  rintro ⟨rfl⟩
  revert hu
  decide

/-- JSON that goes through `TextEncoder` and `TextDecoder` is read back. -/
theorem parseJson_textDecode {rt : NumberText} (hrt : rt.Lossless) {j : Json} (hj : j.Finite) :
    parseJson (textDecode (textEncode (stringify rt j))) = some j := by
  rw [(textDecode_textEncode_eq_self _).2 (textSafe_stringify hrt hj), parseJson_stringify hrt hj]

end Hayven.Lib
