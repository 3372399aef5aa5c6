import Hayven.Graph.NodeMarkdown
import Hayven.Lib.DecimalText
/-!
# Frontmatter comes back

The block between the fences holds one entry a line, and each entry is read as it was
written, but for a bare text that spells a number: `parseScalar_escapeYaml`,
`parseFrontmatter_lines`.
-/
open Hayven.Lib Hayven.Util Hayven.Native

namespace Hayven.Graph

/-! ## Units -/

theorem isJsSpace_eq_false {u : UInt16} (h : 0x21 ≤ u.toNat ∧ u.toNat ≤ 0x7E) : isJsSpace u = false := by
  unfold isJsSpace
  simp only [Bool.or_eq_false_iff, Bool.and_eq_false_iff, decide_eq_false_iff_not, UInt16.le_iff_toNat_le,
    ← UInt16.toNat_inj]
  simp
  omega

theorem toNat_of_isDigit {u : UInt16} (h : isDigit u = true) : 0x30 ≤ u.toNat ∧ u.toNat ≤ 0x39 := by
  simpa [isDigit, UInt16.le_iff_toNat_le] using h

theorem toNat_of_isBareUnit {u : UInt16} (h : isBareUnit u = true) : 0x2D ≤ u.toNat ∧ u.toNat ≤ 0x7A := by
  simp only [isBareUnit, isDigit, Bool.or_eq_true, Bool.and_eq_true, decide_eq_true_eq, UInt16.le_iff_toNat_le,
    ← UInt16.toNat_inj] at h
  simp at h
  omega

/-- A value the frontmatter can hold: it stays on its line and keeps its ends. -/
structure Inline (value : JsString) : Prop where
  no_lineFeed : lineFeed ∉ value
  no_return : carriageReturn ∉ value
  trimmed : Trimmed isJsSpace value

theorem inline_of_units {value : JsString} (h : ∀ u ∈ value, 0x21 ≤ u.toNat ∧ u.toNat ≤ 0x7E) : Inline value where
  no_lineFeed hm := absurd (h _ hm).1 (by decide)
  no_return hm := absurd (h _ hm).1 (by decide)
  trimmed :=
    { head := fun a ha => isJsSpace_eq_false (h a (List.mem_of_mem_head? ha))
      last := fun a ha => isJsSpace_eq_false (h a (List.mem_of_mem_getLast? ha)) }

theorem trim_of_inline {value : JsString} (h : Inline value) : trim value = value := h.trimmed.trimBy_eq

/-! ## Numerals -/

/-- A numeral is made of digits, a point and a sign. -/
theorem units_of_isNumeral {s : JsString} (h : isNumeral s = true) :
    s ≠ [] ∧ ∀ u ∈ s, isDigit u = true ∨ u = 0x2E ∨ u = 0x2D := by
  have hbody {s : JsString} (hne : s.takeWhile isDigit ≠ [])
      (hrest : ∀ v frac, s.dropWhile isDigit = v :: frac → v = 0x2E ∧ frac.all isDigit = true) :
      s ≠ [] ∧ ∀ u ∈ s, isDigit u = true ∨ u = 0x2E ∨ u = 0x2D := by
    refine ⟨fun hs => hne (by rw [hs]; rfl), fun u hu => ?_⟩
    rw [← List.takeWhile_append_dropWhile (p := isDigit) (l := s), List.mem_append] at hu
    rcases hu with hu | hu
    · exact .inl (List.all_eq_true.1 List.all_takeWhile u hu)
    · cases hdrop : s.dropWhile isDigit with
      | nil => rw [hdrop] at hu; cases hu
      | cons v frac =>
        obtain ⟨hpoint, hdigits⟩ := hrest v frac hdrop
        rw [hdrop] at hu
        rcases List.mem_cons.1 hu with rfl | hu
        · exact .inr (.inl hpoint)
        · exact .inl (List.all_eq_true.1 hdigits u hu)
  unfold isNumeral at h
  dsimp only at h
  split at h
  case isFalse =>
    rw [Bool.and_eq_true] at h
    refine hbody (of_decide_eq_true h.1) fun v frac hdrop => ?_
    have hrest := h.2
    rw [hdrop] at hrest
    simp only [Bool.and_eq_true, decide_eq_true_eq] at hrest
    exact ⟨hrest.1.1, hrest.2⟩
  case isTrue hsign =>
    cases s with
    | nil => cases hsign
    | cons v s =>
      rw [Bool.and_eq_true] at h
      obtain ⟨-, hunits⟩ : s ≠ [] ∧ ∀ u ∈ s, isDigit u = true ∨ u = 0x2E ∨ u = 0x2D := by
        refine hbody (of_decide_eq_true h.1) fun w frac hdrop => ?_
        have hrest := h.2
        rw [List.tail_cons, hdrop] at hrest
        simp only [Bool.and_eq_true, decide_eq_true_eq] at hrest
        exact ⟨hrest.1.1, hrest.2⟩
      refine ⟨List.cons_ne_nil v s, fun u hu => ?_⟩
      rcases List.mem_cons.1 hu with rfl | hu
      · exact .inr (.inr (Option.some.inj hsign))
      · exact hunits u hu

theorem isNumeral_eq_false {s : JsString} {u : UInt16} (hu : u ∈ s) (h : ¬ (isDigit u = true ∨ u = 0x2E ∨ u = 0x2D)) :
    isNumeral s = false := by
  by_contra hs
  exact h ((units_of_isNumeral (by simpa using hs)).2 u hu)

/-! ## Scalars -/

/-- A bare text is a number or itself. -/
theorem parseScalarFrom_bare (rt : Runtime) (fuel : Nat) {value : JsString}
    (hhead : ∀ u ∈ value.head?, u ≠ 0x22 ∧ u ≠ 0x5B) :
    parseScalarFrom rt (fuel + 1) value =
      if isNumeral value then .num (rt.number.ofString value) else .str value := by
  rw [parseScalarFrom]
  by_cases hne : value = []
  · subst hne
    rfl
  · have hquote : value.head? ≠ some 0x22 := fun h => (hhead _ h).1 rfl
    have hbracket : ¬ (value.head? = some 0x5B ∧ value.getLast? = some 0x5D) := fun h => (hhead _ h.1).2 rfl
    simp only [hne, hquote, hbracket, if_false]

theorem parseScalar_bare (rt : Runtime) {value : JsString} (hhead : ∀ u ∈ value.head?, u ≠ 0x22 ∧ u ≠ 0x5B) :
    parseScalar rt value = if isNumeral value then .num (rt.number.ofString value) else .str value :=
  parseScalarFrom_bare rt _ hhead

theorem parseJson_quote (s : JsString) : parseJson (quote s) = some (.str s) := by
  have h := parseJson_stringify decimalNumberText_documented.lossless (j := .str s) trivial
  rwa [stringify] at h

theorem head_bare {value : JsString} (h : ∀ u ∈ value, isBareUnit u = true) :
    ∀ u ∈ value.head?, u ≠ 0x22 ∧ u ≠ 0x5B := by
  intro u hu
  have hbare := h u (List.mem_of_mem_head? hu)
  constructor <;> (rintro rfl; revert hbare; decide)

/-- A text of the frontmatter is read as it was, unless it is a numeral. -/
theorem parseScalar_escapeYaml (rt : Runtime) (s : JsString) :
    parseScalar rt (escapeYaml s) = if isNumeral s then .num (rt.number.ofString s) else .str s := by
  unfold escapeYaml
  split
  case isTrue h => exact parseScalar_bare rt (head_bare (List.all_eq_true.1 h.2))
  case isFalse h =>
    have hnum : isNumeral s = false := by
      by_contra hs
      obtain ⟨hne, hunits⟩ := units_of_isNumeral (by simpa using hs)
      apply h
      refine ⟨hne, List.all_eq_true.2 fun u hu => ?_⟩
      rcases hunits u hu with hd | rfl | rfl
      · simp [isBareUnit, hd]
      · decide
      · decide
    have hquoted : (quote s).head? = some 0x22 := rfl
    rw [parseScalar, parseScalarFrom, if_neg (by simp [quote]), if_pos hquoted, parseJson_quote, hnum]
    rfl

theorem inline_quote (s : JsString) : Inline (quote s) := by
  have hunits := units_quote s
  refine ⟨fun hm => absurd (hunits _ hm) (by decide), fun hm => absurd (hunits _ hm) (by decide), ?_, ?_⟩
  · intro u hu
    cases hu
    decide
  · intro u hu
    rw [quote, List.getLast?_append] at hu
    cases hu
    decide

theorem inline_escapeYaml (s : JsString) : Inline (escapeYaml s) := by
  unfold escapeYaml
  split
  case isTrue h =>
    apply inline_of_units
    intro u hu
    have := toNat_of_isBareUnit (List.all_eq_true.1 h.2 u hu)
    omega
  case isFalse => exact inline_quote s

/-! ## Number text -/

theorem toNat_of_isNumberUnit {u : UInt16} (h : isNumberUnit u = true) : 0x21 ≤ u.toNat ∧ u.toNat ≤ 0x7E := by
  simp only [isNumberUnit, Bool.or_eq_true, decide_eq_true_eq] at h
  rcases h with ((((h | rfl) | rfl) | rfl) | rfl) | rfl
  · have := toNat_of_isDigit h
    omega
  all_goals decide

section NumberText
variable {rt : Runtime} (hrt : rt.number.Documented)
include hrt

theorem inline_print {q : Rat} (hq : IsDouble q) : Inline (rt.number.print q) :=
  inline_of_units fun u hu => toNat_of_isNumberUnit ((hrt.lossless.print_units hq).2 u hu)

/-- A number is read as itself if it is printed as a plain numeral. -/
theorem parseScalarFrom_print (fuel : Nat) {q : Rat} (hq : IsDouble q) :
    parseScalarFrom rt (fuel + 1) (rt.number.print q) =
      if isNumeral (rt.number.print q) then .num (.fin q) else .str (rt.number.print q) := by
  rw [parseScalarFrom_bare, hrt.ofString_print q hq]
  intro u hu
  have hunit := (hrt.lossless.print_units hq).2 u (List.mem_of_mem_head? hu)
  constructor <;> (rintro rfl; revert hunit; decide)

theorem asRange_rangeText {a b : Rat} (ha : IsDouble a) (hb : IsDouble b) :
    asRange (some (parseScalar rt (rangeText rt (.fin a, .fin b)))) =
      if isNumeral (rt.number.print a) ∧ isNumeral (rt.number.print b) then (.fin a, .fin b)
      else (.fin 0, .fin 0) := by
  have hcomma {q : Rat} (hq : IsDouble q) : 0x2C ∉ rt.number.print q := fun hm =>
    absurd ((hrt.lossless.print_units hq).2 _ hm) (by decide)
  have hne {q : Rat} (hq : IsDouble q) : rt.number.print q ≠ [] := (hrt.lossless.print_units hq).1
  have htrim {q : Rat} (hq : IsDouble q) : trim (rt.number.print q) = rt.number.print q :=
    trim_of_inline (inline_print hrt hq)
  have hblank {q : Rat} (hq : IsDouble q) : trim (0x20 :: rt.number.print q) = rt.number.print q := by
    rw [trim, trimBy_blank_cons (by decide)]
    exact htrim hq
  -- the text between the brackets
  generalize hA : rt.number.print a = A
  generalize hB : rt.number.print b = B
  have hneA : A ≠ [] := hA ▸ hne ha
  have hneB : B ≠ [] := hB ▸ hne hb
  have hinner : Trimmed isJsSpace (A ++ 0x2C :: 0x20 :: B) := by
    have hlast : (A ++ 0x2C :: 0x20 :: B).getLast? = B.getLast? := by
      rw [show A ++ 0x2C :: 0x20 :: B = (A ++ [0x2C, 0x20]) ++ B by simp, List.getLast?_append_of_ne_nil _ hneB]
    refine ⟨?_, ?_⟩
    · rw [List.head?_append_of_ne_nil A hneA, ← hA]
      exact (inline_print hrt ha).trimmed.head
    · rw [hlast, ← hB]
      exact (inline_print hrt hb).trimmed.last
  have hsplit : (A ++ 0x2C :: 0x20 :: B).splitOn 0x2C = [A, 0x20 :: B] := by
    have hnone : ∀ l ∈ [A, 0x20 :: B], 0x2C ∉ l := by
      intro l hl
      simp only [List.mem_cons, List.not_mem_nil, or_false] at hl
      rcases hl with rfl | rfl
      · exact hA ▸ hcomma ha
      · rw [List.mem_cons, not_or]
        exact ⟨by decide, hB ▸ hcomma hb⟩
    have hparts := List.splitOn_intercalate 0x2C hnone (List.cons_ne_nil A _)
    simpa [List.intercalate_cons_cons] using hparts
  have hvalue : rangeText rt (.fin a, .fin b) = 0x5B :: ((A ++ 0x2C :: 0x20 :: B) ++ [0x5D]) := by
    simp [rangeText, Json.numToString, hA, hB]
  have hends : (0x5B :: ((A ++ 0x2C :: 0x20 :: B) ++ [0x5D])).getLast? = some 0x5D := by
    rw [← List.cons_append, List.getLast?_concat]
  have hparse : parseScalar rt (rangeText rt (.fin a, .fin b)) =
      .arr [if isNumeral A then .num (.fin a) else .str A, if isNumeral B then .num (.fin b) else .str B] := by
    rw [hvalue, parseScalar, parseScalarFrom, if_neg (List.cons_ne_nil _ _),
      if_neg (by rw [List.head?_cons]; exact fun h => absurd (Option.some.inj h) (by decide)), if_pos ⟨rfl, hends⟩]
    simp only [List.tail_cons, List.dropLast_concat]
    rw [trim, hinner.trimBy_eq, if_neg (by simp), hsplit, List.length_cons]
    simp only [List.map_cons, List.map_nil]
    rw [← hA, ← hB, htrim ha, hblank hb, parseScalarFrom_print hrt _ ha, parseScalarFrom_print hrt _ hb]
  rw [hparse]
  by_cases hnumA : isNumeral A = true
  · by_cases hnumB : isNumeral B = true
    · simp [hnumA, hnumB, asRange]
    · simp [hnumA, hnumB, asRange]
  · simp [hnumA, asRange]

end NumberText

/-! ## The frontmatter block -/

theorem takeFence_cons {u : UInt16} (hu : u ≠ 0x2D) (s : JsString) : takeFence (u :: s) = none := by
  rw [takeFence, if_neg]
  intro h
  exact hu (List.cons_prefix_cons.1 (List.isPrefixOf_iff_prefix.1 h)).1.symm

/-- A line of frontmatter: it starts with its key. -/
structure EntryLine (line : JsString) : Prop where
  no_lineFeed : lineFeed ∉ line
  no_return : carriageReturn ∉ line
  head : ∃ u rest, line = u :: rest ∧ u ≠ 0x2D

theorem takeBlock_append {line : JsString} (hlf : lineFeed ∉ line) (hcr : carriageReturn ∉ line) (s : JsString) :
    takeBlock (line ++ s) = (takeBlock s).map fun p => (line ++ p.1, p.2) := by
  induction line with
  | nil => simp
  | cons u line ih =>
    rw [List.mem_cons, not_or] at hlf hcr
    have hclosing : takeClosing (u :: (line ++ s)) = none := by
      rw [takeClosing, takeLineEnd, if_neg (Ne.symm hlf.1), if_neg (Ne.symm hcr.1), Option.bind_none]
    rw [List.cons_append, takeBlock, hclosing, ih hlf.2 hcr.2]
    cases takeBlock s <;> rfl

/-- The block ends at the first line that is a fence. -/
theorem takeBlock_joinLines {lines : List JsString} (hne : lines ≠ []) (h : ∀ line ∈ lines, EntryLine line)
    (rest : JsString) :
    takeBlock (joinLines lines ++ lineFeed :: fence ++ lineFeed :: rest) = some (joinLines lines, rest) := by
  induction lines with
  | nil => exact absurd rfl hne
  | cons line lines ih =>
    have hline := h line List.mem_cons_self
    cases lines with
    | nil =>
      have hclosing : takeClosing (lineFeed :: (fence ++ lineFeed :: rest)) = some rest := rfl
      rw [joinLines_singleton, List.append_assoc, takeBlock_append hline.no_lineFeed hline.no_return, List.cons_append,
        takeBlock, hclosing]
      simp
    | cons l ls =>
      have hrest := ih (List.cons_ne_nil l ls) fun x hx => h x (List.mem_cons_of_mem _ hx)
      obtain ⟨u, l', rfl, hu⟩ := (h l (List.mem_cons_of_mem _ List.mem_cons_self)).head
      obtain ⟨t, ht⟩ : ∃ t, joinLines ((u :: l') :: ls) ++ lineFeed :: fence ++ lineFeed :: rest = u :: t := by
        cases ls with
        | nil => exact ⟨_, rfl⟩
        | cons l ls => exact ⟨_, by rw [joinLines_cons _ (List.cons_ne_nil l ls)]; rfl⟩
      have hclosing : takeClosing (lineFeed :: u :: t) = none := by
        rw [takeClosing, takeLineEnd, if_pos rfl, Option.bind_some, takeFence_cons hu, Option.bind_none]
      rw [joinLines_cons line (List.cons_ne_nil _ ls), List.append_assoc, List.append_assoc,
        takeBlock_append hline.no_lineFeed hline.no_return, List.cons_append, ← List.append_assoc, ht, takeBlock,
        hclosing, ← ht, hrest]
      rfl

/-! ## Entries -/

/-- A key that the reader finds again. -/
structure PlainKey (key : String) : Prop where
  no_colon : 0x3A ∉ ascii key
  trimmed : trim (ascii key) = ascii key
  inline : lineFeed ∉ ascii key ∧ carriageReturn ∉ ascii key
  head : ∃ u rest, ascii key = u :: rest ∧ u ≠ 0x2D

theorem frontmatterEntry_line (rt : Runtime) {key : String} (hkey : PlainKey key) {value : JsString}
    (hvalue : Inline value) :
    frontmatterEntry rt (frontmatterLine key value) = some (ascii key, parseScalar rt value) := by
  have hcolon : ∀ u ∈ ascii key, (decide (u ≠ 0x3A)) = true := by
    intro u hu
    apply decide_eq_true
    rintro rfl
    exact hkey.no_colon hu
  have hne : ascii key ≠ [] := by
    obtain ⟨u, rest, h, -⟩ := hkey.head
    rw [h]
    exact List.cons_ne_nil u rest
  have htrim : trim (0x20 :: value) = value := by
    rw [trim, trimBy_blank_cons (by decide)]
    exact trim_of_inline hvalue
  have htake : (frontmatterLine key value).takeWhile (· ≠ 0x3A) = ascii key := by
    rw [frontmatterLine, List.takeWhile_append_of_pos hcolon]
    simp
  have hdrop : (frontmatterLine key value).dropWhile (· ≠ 0x3A) = 0x3A :: 0x20 :: value := by
    rw [frontmatterLine, List.dropWhile_append_of_pos hcolon]
    simp
  simp only [frontmatterEntry, htake, hdrop, hkey.trimmed, hne, if_false, htrim]

theorem entryLine_frontmatterLine {key : String} (hkey : PlainKey key) {value : JsString} (hvalue : Inline value) :
    EntryLine (frontmatterLine key value) where
  no_lineFeed := by
    simp only [frontmatterLine, List.mem_append, List.mem_cons, not_or]
    exact ⟨hkey.inline.1, by decide, by decide, hvalue.no_lineFeed⟩
  no_return := by
    simp only [frontmatterLine, List.mem_append, List.mem_cons, not_or]
    exact ⟨hkey.inline.2, by decide, by decide, hvalue.no_return⟩
  head := by
    obtain ⟨u, rest, h, hu⟩ := hkey.head
    exact ⟨u, rest ++ 0x3A :: 0x20 :: value, by rw [frontmatterLine, h, List.cons_append], hu⟩

/-- Lines that hold one entry each give those entries. -/
theorem parseFrontmatter_lines (rt : Runtime) {fields : List (String × JsString)} (hne : fields ≠ [])
    (h : ∀ p ∈ fields, PlainKey p.1 ∧ Inline p.2) (content : JsString) :
    parseFrontmatter rt
        (joinLines (fence :: fields.map (fun p => frontmatterLine p.1 p.2) ++ [fence]) ++ lineFeed :: content) =
      { data := fields.map fun p => (ascii p.1, parseScalar rt p.2), content } := by
  have hlines : fields.map (fun p => frontmatterLine p.1 p.2) ≠ [] := by simpa using hne
  have hentry : ∀ line ∈ fields.map (fun p => frontmatterLine p.1 p.2), EntryLine line := by
    intro line hline
    obtain ⟨p, hp, rfl⟩ := List.mem_map.1 hline
    exact entryLine_frontmatterLine (h p hp).1 (h p hp).2
  have hblock := takeBlock_joinLines hlines hentry content
  have hcut : splitLines (joinLines (fields.map fun p => frontmatterLine p.1 p.2)) =
      fields.map fun p => frontmatterLine p.1 p.2 :=
    splitLines_joinLines_eq hlines fun line hline => ⟨(hentry line hline).no_lineFeed, (hentry line hline).no_return⟩
  have hdata : (fields.map fun p => frontmatterLine p.1 p.2).filterMap (frontmatterEntry rt) =
      fields.map fun p => (ascii p.1, parseScalar rt p.2) := by
    rw [List.filterMap_map, ← List.filterMap_eq_map]
    apply List.filterMap_congr
    intro p hp
    exact frontmatterEntry_line rt (h p hp).1 (h p hp).2
  have htext : joinLines (fence :: fields.map (fun p => frontmatterLine p.1 p.2) ++ [fence]) ++ lineFeed :: content =
      fence ++ lineFeed ::
        (joinLines (fields.map fun p => frontmatterLine p.1 p.2) ++ lineFeed :: fence ++ lineFeed :: content) := by
    rw [joinLines_append (List.cons_ne_nil fence _) (List.cons_ne_nil fence []), joinLines_cons _ hlines,
      joinLines_singleton]
    simp
  have hopen (s : JsString) : (takeFence (stripByteOrderMark (fence ++ lineFeed :: s))).bind takeLineEnd = some s := rfl
  rw [htext, parseFrontmatter]
  rw [hopen, Option.bind_some, hblock]
  simp only [hcut, hdata]

theorem dataField_of_not_mem {key : String} {data : List (JsString × Json)} (h : ascii key ∉ data.map Prod.fst) :
    dataField key data = none := by
  induction data with
  | nil => rfl
  | cons p data ih =>
    rw [List.map_cons, List.mem_cons, not_or] at h
    rw [dataField, ih h.2]
    exact if_neg (Ne.symm h.1)

theorem dataField_of_mem {key : String} {v : Json} {data : List (JsString × Json)} (hkeys : (data.map Prod.fst).Nodup)
    (h : (ascii key, v) ∈ data) : dataField key data = some v := by
  induction data with
  | nil => cases h
  | cons p data ih =>
    rw [List.map_cons, List.nodup_cons] at hkeys
    rcases List.mem_cons.1 h with rfl | h
    · rw [dataField, dataField_of_not_mem hkeys.1]
      exact if_pos rfl
    · rw [dataField, ih hkeys.2 h]

end Hayven.Graph
