import Hayven.Db.ContextCache
import Hayven.Lib.DecimalText
import Hayven.Lib.Segments
/-!
# What a render keeps

A render only depends on which slices there are exactly if no span has two slices that
nothing beats, and a growing render keeps the prior one whole exactly if at every prior
span the slice in front still prints the same block: `renderLaws_iff`.
-/
open Hayven.Lib

namespace Hayven.Db

/-! ## Spans -/

def span (s : ContextSlice) : JsString × Nat × Nat := (s.file, s.startLine, s.endLine)

def spanCompare : JsString × Nat × Nat → JsString × Nat × Nat → Ordering :=
  compareLex (compareOn Prod.fst) (compareLex (compareOn fun p => p.2.1) (compareOn fun p => p.2.2))

instance : Std.TransCmp spanCompare := inferInstanceAs (Std.TransCmp (compareLex _ _))

instance : Std.LawfulEqCmp spanCompare where
  eq_of_compare {a b} h := by
    simp only [spanCompare, compareLex_eq_eq, compareOn] at h
    have hfile := Std.LawfulEqCmp.eq_of_compare h.1
    have hstart := Std.LawfulEqCmp.eq_of_compare h.2.1
    have hend := Std.LawfulEqCmp.eq_of_compare h.2.2
    exact Prod.ext hfile (Prod.ext hstart hend)

/-- The text of a span says the span: from the right, digits, a dash, digits and a colon. -/
theorem spanText_inj {f f' : JsString} {a a' b b' : Nat} (h : spanText f a b = spanText f' a' b') :
    f = f' ∧ a = a' ∧ b = b' := by
  have hparts (f : JsString) (a b : Nat) : spanText f a b = (f ++ 0x3A :: decDigits a) ++ 0x2D :: decDigits b := by
    simp [spanText, ascii]
  rw [hparts, hparts] at h
  obtain ⟨hrest, hb⟩ := cut_at_last_sep (not_mem_decDigits rfl b) (not_mem_decDigits rfl b') h
  obtain ⟨hf, ha⟩ := cut_at_last_sep (not_mem_decDigits rfl a) (not_mem_decDigits rfl a') hrest
  exact ⟨hf, decDigits_inj ha, decDigits_inj hb⟩

theorem sliceKey_eq_iff (a b : ContextSlice) : sliceKey a = sliceKey b ↔ span a = span b := by
  constructor
  · intro h
    obtain ⟨hf, hs, he⟩ := spanText_inj h
    exact Prod.ext hf (Prod.ext hs he)
  · intro h
    simp only [span, Prod.mk.injEq] at h
    rw [sliceKey, sliceKey, h.1, h.2.1, h.2.2]

theorem canonicalSlices_eq (slices : List ContextSlice) :
    canonicalSlices slices = canonical compareSlices span slices :=
  keepFirst_congr sliceKey_eq_iff [] _

/-! ## The comparator -/

theorem subtractSign_swap (a b : JsNumber) : subtractSign a b = (subtractSign b a).swap := by
  unfold subtractSign
  by_cases hab : a.lt b = true
  · simp [hab, JsNumber.lt_asymm hab]
  · by_cases hba : b.lt a = true <;> simp [hab, hba]

theorem subtractSign_eq_lt {a b : JsNumber} : subtractSign a b = .lt ↔ a.lt b = true := by
  unfold subtractSign
  by_cases hab : a.lt b = true
  · simp [hab]
  · by_cases hba : b.lt a = true <;> simp [hab, hba]

theorem subtractSign_trans {a b c : JsNumber} (hab : subtractSign a b = .lt) (hbc : subtractSign b c = .lt) :
    subtractSign a c = .lt := by
  rw [subtractSign_eq_lt] at *
  exact JsNumber.lt_trans hab hbc

theorem compareTies_swap (a b : ContextSlice) : compareTies a b = (compareTies b a).swap := by
  unfold compareTies
  by_cases h : a.role = b.role
  · rw [if_neg (not_not.2 h), if_neg (not_not.2 h.symm), Ordering.swap_then, Ordering.swap_then,
      ← subtractSign_swap, ← Std.OrientedOrd.eq_swap, ← Std.OrientedOrd.eq_swap]
  · rw [if_pos h, if_pos (Ne.symm h), ← Std.OrientedOrd.eq_swap]

/-- Comparing by one key and then by a transitive rest is transitive. -/
theorem then_lt_trans {α β : Type} (key : α → β) [Ord β] [Std.TransOrd β] (rest : α → α → Ordering) {a b c : α}
    (hrest : rest a b = .lt → rest b c = .lt → rest a c = .lt)
    (hab : (compare (key a) (key b)).then (rest a b) = .lt)
    (hbc : (compare (key b) (key c)).then (rest b c) = .lt) :
    (compare (key a) (key c)).then (rest a c) = .lt := by
  rw [Ordering.then_eq_lt] at *
  rcases hab with hab | ⟨hab, hab'⟩
  · rcases hbc with hbc | ⟨hbc, -⟩
    · exact .inl (Std.TransCmp.lt_trans hab hbc)
    · exact .inl (Std.TransCmp.lt_of_lt_of_eq hab hbc)
  · rcases hbc with hbc | ⟨hbc, hbc'⟩
    · exact .inl (Std.TransCmp.lt_of_eq_of_lt hab hbc)
    · exact .inr ⟨Std.TransCmp.eq_trans hab hbc, hrest hab' hbc'⟩

/-- The last two comparisons of the comparator. -/
def compareWeights (a b : ContextSlice) : Ordering := subtractSign (weightOrMinusOne a) (weightOrMinusOne b)

def compareProvenance (a b : ContextSlice) : Ordering :=
  (compare (viaOrEmpty a) (viaOrEmpty b)).then (compareWeights a b)

/-- Two roles of one rank tie, so what beats stays within a role or climbs a rank. -/
theorem compareTies_trans {a b c : ContextSlice} (hab : compareTies a b = .lt) (hbc : compareTies b c = .lt) :
    compareTies a c = .lt := by
  have hrank {a b : ContextSlice} (h : compareTies a b = .lt) (hne : a.role ≠ b.role) :
      roleRank a.role < roleRank b.role := by
    rw [compareTies, if_pos hne] at h
    exact Nat.compare_eq_lt.1 h
  have hlt {a b : ContextSlice} (h : roleRank a.role < roleRank b.role) : compareTies a b = .lt := by
    have hne : a.role ≠ b.role := fun heq => Nat.lt_irrefl _ (heq ▸ h)
    rw [compareTies, if_pos hne]
    exact Nat.compare_eq_lt.2 h
  by_cases h : a.role = b.role
  · by_cases h' : b.role = c.role
    · rw [compareTies, if_neg (not_not.2 h)] at hab
      rw [compareTies, if_neg (not_not.2 h')] at hbc
      rw [compareTies, if_neg (not_not.2 (h.trans h'))]
      exact then_lt_trans ContextSlice.text compareProvenance (then_lt_trans viaOrEmpty compareWeights subtractSign_trans)
        hab hbc
    · exact hlt (h ▸ hrank hbc h')
  · by_cases h' : b.role = c.role
    · exact hlt (h' ▸ hrank hab h)
    · exact hlt ((hrank hab h).trans (hrank hbc h'))

theorem compareSlices_eq (a b : ContextSlice) :
    compareSlices a b = (spanCompare (span a) (span b)).then (compareTies a b) := by
  simp only [compareSlices, spanCompare, compareLex, compareOn, span, Ordering.then_assoc]

theorem compareSlices_of_span {a b : ContextSlice} (h : span a = span b) : compareSlices a b = compareTies a b := by
  have hself : spanCompare (span b) (span b) = .eq := Std.ReflCmp.compare_self
  rw [compareSlices_eq, h, hself, Ordering.eq_then]

theorem compareSlices_keyFirst : KeyFirst compareSlices span spanCompare where
  by_key a b hne := by
    rw [compareSlices_eq]
    cases hcmp : spanCompare (span a) (span b) with
    | eq => exact absurd (Std.LawfulEqCmp.eq_of_compare hcmp) hne
    | lt => rfl
    | gt => rfl
  swap a b := by
    rw [compareSlices_eq, compareSlices_eq, Ordering.swap_then, ← compareTies_swap, ← Std.OrientedCmp.eq_swap]
  trans {a b c} hab hbc h h' := by
    rw [compareSlices_of_span hab] at h
    rw [compareSlices_of_span hbc] at h'
    rw [compareSlices_of_span (hab.trans hbc)]
    exact compareTies_trans h h'

/-- No slice of its span comes strictly before it. -/
abbrev Foremost (slices : List ContextSlice) (s : ContextSlice) : Prop := Unbeaten compareSlices span slices s

/-- No span has two slices in front. -/
abbrev OneForemost (slices : List ContextSlice) : Prop := NoTies compareSlices span slices

theorem mem_canonicalSlices {slices : List ContextSlice} (h : OneForemost slices) {s : ContextSlice} :
    s ∈ canonicalSlices slices ↔ s ∈ slices ∧ Foremost slices s := by
  rw [canonicalSlices_eq]
  exact compareSlices_keyFirst.mem_canonical h

/-! ## Bytes of joined blocks -/

def joinBytes (blocks : List Bytes) : Bytes := ([0x0A, 0x0A] : Bytes).intercalate blocks

theorem joinBytes_append {a b : List Bytes} (ha : a ≠ []) (hb : b ≠ []) :
    joinBytes (a ++ b) = joinBytes a ++ [0x0A, 0x0A] ++ joinBytes b := by
  unfold joinBytes
  induction a with
  | nil => exact absurd rfl ha
  | cons x a ih =>
    cases a with
    | nil =>
      obtain ⟨y, b, rfl⟩ := List.exists_cons_of_ne_nil hb
      simp
    | cons y a =>
      have ih := ih (List.cons_ne_nil y a)
      simp only [List.cons_append, List.intercalate_cons_cons] at ih ⊢
      rw [ih]
      simp

/-- The leading blocks are leading bytes. -/
theorem joinBytes_take_prefix (k : Nat) (blocks : List Bytes) : joinBytes (blocks.take k) <+: joinBytes blocks := by
  by_cases htake : blocks.take k = []
  · rw [htake]
    exact List.nil_prefix
  · by_cases hdrop : blocks.drop k = []
    · rw [List.take_of_length_le (List.drop_eq_nil_iff.1 hdrop)]
    · conv => rhs; rw [← List.take_append_drop k blocks, joinBytes_append htake hdrop]
      rw [List.append_assoc]
      exact List.prefix_append _ _

/-- Blocks left out are bytes missing. -/
theorem length_joinBytes_take {k : Nat} {blocks : List Bytes} (hblocks : ∀ b ∈ blocks, b ≠ [])
    (hlen : (joinBytes (blocks.take k)).length = (joinBytes blocks).length) : blocks.length ≤ k := by
  by_contra hk
  have hdrop : blocks.drop k ≠ [] := fun h => hk (List.drop_eq_nil_iff.1 h)
  by_cases htake : blocks.take k = []
  · obtain ⟨b, rest, hrest⟩ := List.exists_cons_of_ne_nil hdrop
    have hsplit : blocks = b :: rest := by rw [← List.take_append_drop k blocks, htake, hrest]; rfl
    have hb : b ≠ [] := hblocks b (hsplit ▸ List.mem_cons_self)
    rw [htake, hsplit] at hlen
    have hb' : b.length ≠ 0 := fun h => hb (List.length_eq_zero_iff.1 h)
    cases rest with
    | nil => exact hb' (by simpa [joinBytes] using hlen.symm)
    | cons c rest => simp [joinBytes, List.intercalate_cons_cons] at hlen
  · have happend := congrArg List.length (joinBytes_append htake hdrop)
    rw [List.take_append_drop] at happend
    simp only [List.length_append, List.length_cons, List.length_nil] at happend
    omega

section Render
variable (host : RenderHost) (fenceLangFor : Option (JsString → JsString))

/-- The bytes of a slice's block, which the digest reads. -/
def blockBytes (s : ContextSlice) : Bytes := textEncode (blockOf host fenceLangFor s)

theorem blockOf_cons (s : ContextSlice) : ∃ rest, blockOf host fenceLangFor s = 0x23 :: rest :=
  List.head?_eq_some_iff.1 (by simp [blockOf, renderSliceBlock, ascii])

theorem textEncode_append {a b : JsString} (hb : ∀ u ∈ b.head?, isLowSurrogate u = false) :
    textEncode (a ++ b) = textEncode a ++ textEncode b := by
  rw [textEncode, ofUtf16_append a hb, utf8Encode, List.flatMap_append]
  rfl

theorem blockBytes_ne_nil (s : ContextSlice) : blockBytes host fenceLangFor s ≠ [] := by
  obtain ⟨rest, hrest⟩ := blockOf_cons host fenceLangFor s
  have hhash : utf8Char (unitChar 0x23) ≠ [] := by decide
  rw [blockBytes, hrest, textEncode, ofUtf16_single rest rfl, utf8Encode, List.flatMap_cons]
  exact fun h => hhash (List.append_eq_nil_iff.1 h).1

theorem textEncode_joinBlocks (slices : List ContextSlice) :
    textEncode (joinBlocks (slices.map (blockOf host fenceLangFor))) =
      joinBytes (slices.map (blockBytes host fenceLangFor)) := by
  induction slices with
  | nil => rfl
  | cons s slices ih =>
    cases slices with
    | nil => simp [joinBlocks, joinBytes, blockBytes]
    | cons t slices =>
      have hsep : textEncode (ascii "\n\n") = [0x0A, 0x0A] := by decide
      have hhead : ∀ u ∈ (joinBlocks ((t :: slices).map (blockOf host fenceLangFor))).head?,
          isLowSurrogate u = false := by
        intro u hu
        obtain ⟨rest, hrest⟩ := blockOf_cons host fenceLangFor t
        have hu' : u = 0x23 := by
          cases slices with
          | nil => simpa [joinBlocks, hrest, eq_comm] using hu
          | cons t' slices => simpa [joinBlocks, hrest, eq_comm] using hu
        rw [hu']
        decide
      simp only [joinBlocks, joinBytes, List.map_cons, List.intercalate_cons_cons] at ih hhead ⊢
      rw [List.append_assoc, textEncode_append, textEncode_append hhead, hsep, ih]
      · simp [blockBytes]
      · simp [ascii]
        decide

/-! ## What is kept of the prior render -/

/-- The digest tells the blocks of two slice lists apart. -/
def DigestSeparates (before after : List ContextSlice) : Prop :=
  Set.InjOn host.sha256 {bytes | ∃ s ∈ before ++ after, bytes = blockBytes host fenceLangFor s}

theorem mem_keepRun {canon : List ContextSlice} {refs : List SliceRef} {s : ContextSlice}
    (h : s ∈ keepRun host fenceLangFor canon refs) : s ∈ canon := by
  induction refs with
  | nil => exact absurd h List.not_mem_nil
  | cons ref refs ih =>
    unfold keepRun at h
    split at h
    case h_1 => exact absurd h List.not_mem_nil
    case h_2 cur hfind =>
      split at h
      · exact absurd h List.not_mem_nil
      · rcases List.mem_cons.1 h with rfl | h
        · exact List.mem_of_find?_eq_some hfind
        · exact ih h

/-- The kept slices print the leading blocks of the prior render. -/
theorem keepRun_blocks {canon slices before after : List ContextSlice} (hsep : DigestSeparates host fenceLangFor before after)
    (hcanon : ∀ s ∈ canon, s ∈ after) (hslices : ∀ s ∈ slices, s ∈ before) :
    (keepRun host fenceLangFor canon (slices.map (refOf host fenceLangFor))).map (blockBytes host fenceLangFor) <+:
      slices.map (blockBytes host fenceLangFor) := by
  induction slices with
  | nil => exact List.nil_prefix
  | cons s slices ih =>
    rw [List.map_cons, List.map_cons]
    unfold keepRun
    split
    case h_1 => exact List.nil_prefix
    case h_2 cur hfind =>
      split
      case isTrue => exact List.nil_prefix
      case isFalse hhash =>
        have hcur := hcanon cur (List.mem_of_find?_eq_some hfind)
        have hblock : blockBytes host fenceLangFor cur = blockBytes host fenceLangFor s :=
          hsep ⟨cur, List.mem_append_right _ hcur, rfl⟩
            ⟨s, List.mem_append_left _ (hslices s List.mem_cons_self), rfl⟩ (not_not.1 hhash)
        rw [List.map_cons, hblock]
        exact List.cons_prefix_cons.2 ⟨rfl, ih fun t ht => hslices t (List.mem_cons_of_mem s ht)⟩

/-- A slice of the prior render is kept exactly if, where it stands, a slice of its span prints its block. -/
theorem keepRun_length_iff {canon slices before after : List ContextSlice} (hsep : DigestSeparates host fenceLangFor before after)
    (hcanon : ∀ s ∈ canon, s ∈ after) (hslices : ∀ s ∈ slices, s ∈ before)
    (hinj : ∀ a ∈ canon, ∀ b ∈ canon, span a = span b → a = b) :
    (keepRun host fenceLangFor canon (slices.map (refOf host fenceLangFor))).length = slices.length ↔
      ∀ s ∈ slices, ∃ t ∈ canon, span t = span s ∧ blockBytes host fenceLangFor t = blockBytes host fenceLangFor s := by
  induction slices with
  | nil => simp [keepRun]
  | cons s slices ih =>
    specialize ih fun t ht => hslices t (List.mem_cons_of_mem s ht)
    rw [List.map_cons, List.forall_mem_cons, ← ih, keepRun]
    split
    case h_1 hfind =>
      rw [List.find?_eq_none] at hfind
      refine iff_of_false (fun h => absurd h (Nat.zero_ne_add_one _)) ?_
      rintro ⟨⟨t, ht, hspan, -⟩, -⟩
      exact hfind t ht (decide_eq_true ((sliceKey_eq_iff t s).2 hspan))
    case h_2 cur hfind =>
      have hcur := List.mem_of_find?_eq_some hfind
      have hkey : sliceKey cur = sliceKey s := by
        have hfound := List.find?_some hfind
        exact of_decide_eq_true hfound
      have hspan : span cur = span s := (sliceKey_eq_iff cur s).1 hkey
      split
      case isTrue hhash =>
        refine iff_of_false (fun h => absurd h (Nat.zero_ne_add_one _)) ?_
        rintro ⟨⟨t, ht, htspan, hblock⟩, -⟩
        obtain rfl := hinj t ht cur hcur (htspan.trans hspan.symm)
        exact hhash (congrArg host.sha256 hblock)
      case isFalse hhash =>
        have hblock : blockBytes host fenceLangFor cur = blockBytes host fenceLangFor s :=
          hsep ⟨cur, List.mem_append_right _ (hcanon cur hcur), rfl⟩
            ⟨s, List.mem_append_left _ (hslices s List.mem_cons_self), rfl⟩ (not_not.1 hhash)
        rw [List.length_cons, List.length_cons, Nat.add_right_cancel_iff]
        exact ⟨fun h => ⟨⟨cur, hcur, hspan, hblock⟩, h⟩, And.right⟩

/-! ## The order of a render -/

theorem sortWith_canonical {slices kept : List ContextSlice} (h : kept.Sublist (canonicalSlices slices)) :
    sortWith compareSlices kept = kept := by
  apply List.Pairwise.insertionSort_eq
  rw [canonicalSlices_eq] at h
  refine ((compareSlices_keyFirst.canonical_pairwise slices).sublist h).imp fun {a b} hlt => ?_
  rw [compareSlices_eq, hlt]
  rfl

theorem canonicalSlices_inj {slices : List ContextSlice} {a b : ContextSlice} (ha : a ∈ canonicalSlices slices)
    (hb : b ∈ canonicalSlices slices) (h : span a = span b) : a = b := by
  rw [canonicalSlices_eq] at ha hb
  exact canonical_inj ha hb h

theorem orderedSlices_none (slices : List ContextSlice) :
    orderedSlices host fenceLangFor slices none = canonicalSlices slices := by
  have hall : (canonicalSlices slices).filter (fun s => decide (sliceKey s ∉ List.map sliceKey [])) =
      canonicalSlices slices := List.filter_eq_self.2 fun s _ => by simp
  show [] ++ sortWith compareSlices _ = _
  rw [List.nil_append]
  exact (congrArg _ hall).trans (sortWith_canonical (List.Sublist.refl _))

/-- Whatever the prior render, the order holds the canonical slices. -/
theorem mem_orderedSlices {slices : List ContextSlice} {prior : Option StableContextResult} {s : ContextSlice} :
    s ∈ orderedSlices host fenceLangFor slices prior ↔ s ∈ canonicalSlices slices := by
  have hkept {s : ContextSlice} (h : s ∈ keptSlices host fenceLangFor slices prior) : s ∈ canonicalSlices slices := by
    cases prior with
    | none => exact absurd h List.not_mem_nil
    | some p => exact mem_keepRun host fenceLangFor h
  simp only [orderedSlices, List.mem_append, mem_sortWith, List.mem_filter, List.mem_map, decide_eq_true_eq]
  constructor
  · rintro (h | ⟨h, -⟩)
    · exact hkept h
    · exact h
  · intro h
    by_cases hin : ∃ t ∈ keptSlices host fenceLangFor slices prior, sliceKey t = sliceKey s
    · obtain ⟨t, ht, hkey⟩ := hin
      obtain rfl := canonicalSlices_inj (hkept ht) h ((sliceKey_eq_iff t s).1 hkey)
      exact .inl ht
    · exact .inr ⟨h, hin⟩

/-- The kept slices lead the order. -/
theorem take_orderedSlices (slices : List ContextSlice) (prior : Option StableContextResult) :
    (orderedSlices host fenceLangFor slices prior).take (keptSlices host fenceLangFor slices prior).length =
      keptSlices host fenceLangFor slices prior := List.take_left

/-! ## Rendering a set -/

/-- The render of the slices is one of their set, with any prior and in any packs. -/
structure RendersSet (slices : List ContextSlice) : Prop where
  order_free : ∀ other, (∀ s, s ∈ slices ↔ s ∈ other) → ∀ prior notes,
    renderAppendOnly host fenceLangFor slices prior notes = renderAppendOnly host fenceLangFor other prior notes
  packs : ∀ packs : List ContextPack, (∀ s, s ∈ slices ↔ s ∈ packs.flatMap ContextPack.slices) → ∀ notes,
    (renderAppendOnly host fenceLangFor slices none notes).text = (renderStablePacks host fenceLangFor packs).text

theorem canonicalSlices_congr {slices other : List ContextSlice} (h : OneForemost slices)
    (hmem : ∀ s, s ∈ slices ↔ s ∈ other) : canonicalSlices slices = canonicalSlices other := by
  rw [canonicalSlices_eq, canonicalSlices_eq]
  exact compareSlices_keyFirst.canonical_congr h hmem

theorem renderAppendOnly_congr {slices other : List ContextSlice} (h : canonicalSlices slices = canonicalSlices other)
    (prior : Option StableContextResult) (notes : List JsString) :
    renderAppendOnly host fenceLangFor slices prior notes = renderAppendOnly host fenceLangFor other prior notes := by
  unfold renderAppendOnly orderedSlices keptSlices
  rw [h]

/-- Two slices that tie and leave the same entry in the order are the same slice. -/
theorem eq_of_refOf_eq {a b : ContextSlice} (href : refOf host fenceLangFor a = refOf host fenceLangFor b)
    (hab : compareSlices a b ≠ .lt) (hba : compareSlices b a ≠ .lt) : a = b := by
  simp only [refOf, SliceRef.mk.injEq] at href
  obtain ⟨hrole, hfile, hstart, hend, hvia, hweight, -⟩ := href
  have hspan : span a = span b := by rw [span, span, hfile, hstart, hend]
  have htie : compareTies a b = .eq := by
    rw [compareSlices_of_span hspan] at hab
    rw [compareSlices_of_span hspan.symm, compareTies_swap] at hba
    revert hab hba
    cases compareTies a b <;> simp [Ordering.swap]
  rw [compareTies, if_neg (not_not.2 hrole), Ordering.then_eq_eq] at htie
  have htext := Std.LawfulEqCmp.eq_of_compare htie.1
  cases a
  cases b
  simp_all

theorem rendersSet_iff (slices : List ContextSlice) : RendersSet host fenceLangFor slices ↔ OneForemost slices := by
  constructor
  · intro h a ha b hb hspan hfa hfb
    have hcons {c : ContextSlice} (hc : c ∈ slices) : ∀ s, s ∈ slices ↔ s ∈ c :: slices := by
      intro s
      rw [List.mem_cons]
      exact ⟨.inr, fun hs => hs.elim (fun heq => heq ▸ hc) id⟩
    have horder : (canonicalSlices (a :: slices)).map (refOf host fenceLangFor) =
        (canonicalSlices (b :: slices)).map (refOf host fenceLangFor) := by
      have hresult := (h.order_free _ (hcons ha) none []).symm.trans (h.order_free _ (hcons hb) none [])
      have := congrArg StableContextResult.order hresult
      simpa only [renderAppendOnly, orderedSlices_none] using this
    have hmem {c : ContextSlice} (hc : Foremost slices c) : c ∈ canonicalSlices (c :: slices) := by
      rw [canonicalSlices_eq]
      exact compareSlices_keyFirst.mem_canonical_cons hc
    obtain ⟨c, hc, href⟩ := List.mem_map.1 (horder ▸ List.mem_map_of_mem (hmem hfa))
    have hca : span c = span a := by
      simp only [refOf, SliceRef.mk.injEq] at href
      rw [span, span, href.2.1, href.2.2.1, href.2.2.2.1]
    obtain rfl := canonicalSlices_inj hc (hmem hfb) (hca.trans hspan)
    exact eq_of_refOf_eq host fenceLangFor href.symm (hfb a ha hspan) (hfa c hb hca)
  · intro h
    refine ⟨fun other hmem prior notes => ?_, fun packs hmem notes => ?_⟩
    · exact renderAppendOnly_congr host fenceLangFor (canonicalSlices_congr h hmem) prior notes
    · simp only [renderAppendOnly, orderedSlices_none, renderStablePacks, renderCanonical, canonicalSlices_congr h hmem]

/-! ## Growing a render -/

/-- Slices of one span have one text. -/
def SameTexts (before after : List ContextSlice) : Prop :=
  ∀ s ∈ before, ∀ t ∈ after, span s = span t → s.text = t.text

/-- The prior text is what the render keeps in front. -/
structure KeepsAll (prior now : StableContextResult) : Prop where
  kept : now.stablePrefixBytes = byteLength prior.text
  bytes : textEncode prior.text <+: textEncode now.text

/-- At a span of the prior slices the slice in front still prints the block it did. -/
def FrontStays (before after : List ContextSlice) : Prop :=
  ∀ s ∈ before, ∀ t ∈ after, span s = span t → Foremost before s → Foremost after t →
    blockBytes host fenceLangFor t = blockBytes host fenceLangFor s

/-- What the append-only contract says of a render of `after` on top of one of `before`. -/
structure RenderLaws (before after : List ContextSlice) (prior : Option StableContextResult)
    (priorNotes notes : List JsString) : Prop where
  before_set : RendersSet host fenceLangFor before
  after_set : RendersSet host fenceLangFor after
  boundary :
    let p := renderAppendOnly host fenceLangFor before prior priorNotes
    let r := renderAppendOnly host fenceLangFor after (some p) notes
    let priorBlocks := (orderedSlices host fenceLangFor before prior).map (blockBytes host fenceLangFor)
    let blocks := (orderedSlices host fenceLangFor after (some p)).map (blockBytes host fenceLangFor)
    textEncode p.text = joinBytes priorBlocks ∧ textEncode r.text = joinBytes blocks ∧
      ∃ k ≤ priorBlocks.length, k ≤ blocks.length ∧ priorBlocks.take k = blocks.take k ∧
        r.stablePrefixBytes = (joinBytes (blocks.take k)).length ∧
        (textEncode r.text).take r.stablePrefixBytes = (textEncode p.text).take r.stablePrefixBytes
  preserved :
    let p := renderAppendOnly host fenceLangFor before prior priorNotes
    let r := renderAppendOnly host fenceLangFor after (some p) notes
    let kept := (keptSlices host fenceLangFor after (some p)).map (blockOf host fenceLangFor)
    r.priorFullyPreserved = true ↔ textEncode p.text = textEncode (joinBlocks kept)
  growth : before ⊆ after → SameTexts before after →
    let p := renderAppendOnly host fenceLangFor before prior priorNotes
    KeepsAll p (renderAppendOnly host fenceLangFor after (some p) notes)

theorem textEncode_text (slices : List ContextSlice) (prior : Option StableContextResult) (notes : List JsString) :
    textEncode (renderAppendOnly host fenceLangFor slices prior notes).text =
      joinBytes ((orderedSlices host fenceLangFor slices prior).map (blockBytes host fenceLangFor)) :=
  textEncode_joinBlocks host fenceLangFor _

theorem stablePrefixBytes_eq (slices : List ContextSlice) (prior : Option StableContextResult)
    (notes : List JsString) :
    (renderAppendOnly host fenceLangFor slices prior notes).stablePrefixBytes =
      (joinBytes ((keptSlices host fenceLangFor slices prior).map (blockBytes host fenceLangFor))).length := by
  show (if _ then byteLength (joinBlocks (List.map _ (List.take _ _))) else 0) = _
  rw [take_orderedSlices, byteLength, textEncode_joinBlocks]
  split
  · rfl
  · have hnil : keptSlices host fenceLangFor slices prior = [] := List.length_eq_zero_iff.1 (by omega)
    rw [hnil]
    rfl

section Prior
variable {before after : List ContextSlice} {prior : Option StableContextResult} {priorNotes : List JsString}

/-- The blocks kept are the leading blocks of the prior render. -/
theorem kept_bytes (hsep : DigestSeparates host fenceLangFor before after) :
    (keptSlices host fenceLangFor after (some (renderAppendOnly host fenceLangFor before prior priorNotes))).map
        (blockBytes host fenceLangFor) <+:
      (orderedSlices host fenceLangFor before prior).map (blockBytes host fenceLangFor) := by
  refine keepRun_blocks host fenceLangFor hsep (fun s hs => ?_) (fun s hs => ?_)
  · exact mem_of_mem_canonical hs
  · exact mem_of_mem_canonical ((mem_orderedSlices host fenceLangFor).1 hs)

theorem boundary_holds (hsep : DigestSeparates host fenceLangFor before after) (notes : List JsString) :
    let p := renderAppendOnly host fenceLangFor before prior priorNotes
    let r := renderAppendOnly host fenceLangFor after (some p) notes
    let priorBlocks := (orderedSlices host fenceLangFor before prior).map (blockBytes host fenceLangFor)
    let blocks := (orderedSlices host fenceLangFor after (some p)).map (blockBytes host fenceLangFor)
    textEncode p.text = joinBytes priorBlocks ∧ textEncode r.text = joinBytes blocks ∧
      ∃ k ≤ priorBlocks.length, k ≤ blocks.length ∧ priorBlocks.take k = blocks.take k ∧
        r.stablePrefixBytes = (joinBytes (blocks.take k)).length ∧
        (textEncode r.text).take r.stablePrefixBytes = (textEncode p.text).take r.stablePrefixBytes := by
  intro p r priorBlocks blocks
  have hp : textEncode p.text = joinBytes priorBlocks := textEncode_text host fenceLangFor before prior priorNotes
  have hr : textEncode r.text = joinBytes blocks := textEncode_text host fenceLangFor after (some p) notes
  have hkept := @kept_bytes host fenceLangFor before after prior priorNotes hsep
  let kept := (keptSlices host fenceLangFor after (some p)).map (blockBytes host fenceLangFor)
  have hlead : blocks.take kept.length = kept := by
    show List.take _ (List.map _ _) = _
    rw [← List.map_take, List.length_map, take_orderedSlices]
  have hprior : priorBlocks.take kept.length = kept := (List.prefix_iff_eq_take.1 hkept).symm
  have hbytes : r.stablePrefixBytes = (joinBytes kept).length := stablePrefixBytes_eq host fenceLangFor after _ notes
  refine ⟨hp, hr, kept.length, hkept.length_le, ?_, ?_, ?_, ?_⟩
  · exact hlead ▸ List.length_take_le' _ _
  · rw [hlead, hprior]
  · rw [hlead, hbytes]
  · have hnow : joinBytes kept <+: joinBytes blocks := hlead ▸ joinBytes_take_prefix _ blocks
    have hthen : joinBytes kept <+: joinBytes priorBlocks := hprior ▸ joinBytes_take_prefix _ priorBlocks
    rw [hp, hr, hbytes, ← List.prefix_iff_eq_take.1 hnow, ← List.prefix_iff_eq_take.1 hthen]

/-- As many blocks are kept as there were exactly if the prior bytes are all kept. -/
theorem kept_length_iff (hsep : DigestSeparates host fenceLangFor before after) :
    let p := renderAppendOnly host fenceLangFor before prior priorNotes
    let kept := keptSlices host fenceLangFor after (some p)
    kept.length = (orderedSlices host fenceLangFor before prior).length ↔
      (joinBytes (kept.map (blockBytes host fenceLangFor))).length = (textEncode p.text).length := by
  intro p kept
  have hkept := @kept_bytes host fenceLangFor before after prior priorNotes hsep
  have htake := List.prefix_iff_eq_take.1 hkept
  rw [textEncode_text]
  constructor
  · intro hlen
    rw [htake, List.length_map, hlen, ← List.map_take, List.take_length]
  · intro hlen
    rw [htake] at hlen
    have hle := length_joinBytes_take (fun b hb => ?_) hlen
    · have hge := hkept.length_le
      rw [List.length_map, List.length_map] at hle hge
      exact Nat.le_antisymm hge hle
    · obtain ⟨s, -, rfl⟩ := List.mem_map.1 hb
      exact blockBytes_ne_nil host fenceLangFor s

theorem preserved_holds (hsep : DigestSeparates host fenceLangFor before after) (notes : List JsString) :
    let p := renderAppendOnly host fenceLangFor before prior priorNotes
    let r := renderAppendOnly host fenceLangFor after (some p) notes
    let kept := (keptSlices host fenceLangFor after (some p)).map (blockOf host fenceLangFor)
    r.priorFullyPreserved = true ↔ textEncode p.text = textEncode (joinBlocks kept) := by
  intro p r kept
  have hiff := @kept_length_iff host fenceLangFor before after prior priorNotes hsep
  dsimp only at hiff
  have hflag : r.priorFullyPreserved = true ↔
      (keptSlices host fenceLangFor after (some p)).length = (orderedSlices host fenceLangFor before prior).length := by
    show decide ((keptSlices host fenceLangFor after (some p)).length = (List.map _ _).length) = true ↔ _
    rw [decide_eq_true_eq, List.length_map]
  rw [hflag, hiff, textEncode_joinBlocks]
  constructor
  · intro hlen
    have hbegins : joinBytes ((keptSlices host fenceLangFor after (some p)).map (blockBytes host fenceLangFor)) <+:
        textEncode p.text := by
      have hkept := @kept_bytes host fenceLangFor before after prior priorNotes hsep
      rw [textEncode_text, List.prefix_iff_eq_take.1 hkept]
      exact joinBytes_take_prefix _ _
    exact (hbegins.eq_of_length hlen).symm
  · intro heq
    rw [heq]

/-- A growing render keeps the prior one whole exactly if the slices in front stay. -/
theorem keepsAll_iff (hsep : DigestSeparates host fenceLangFor before after) (hbefore : OneForemost before)
    (hafter : OneForemost after) (hsub : before ⊆ after) (notes : List JsString) :
    let p := renderAppendOnly host fenceLangFor before prior priorNotes
    KeepsAll p (renderAppendOnly host fenceLangFor after (some p) notes) ↔ FrontStays host fenceLangFor before after := by
  intro p
  have hiff := @kept_length_iff host fenceLangFor before after prior priorNotes hsep
  dsimp only at hiff
  have hlength : KeepsAll p (renderAppendOnly host fenceLangFor after (some p) notes) ↔
      (keptSlices host fenceLangFor after (some p)).length = (orderedSlices host fenceLangFor before prior).length := by
    rw [hiff]
    constructor
    · intro h
      rw [← stablePrefixBytes_eq host fenceLangFor after (some p) notes, h.kept]
      rfl
    · intro h
      have hkept : (renderAppendOnly host fenceLangFor after (some p) notes).stablePrefixBytes = byteLength p.text := by
        rw [stablePrefixBytes_eq, h]
        rfl
      obtain ⟨-, -, k, -, -, -, -, htake⟩ := @boundary_holds host fenceLangFor before after prior priorNotes hsep notes
      refine ⟨hkept, ?_⟩
      change List.take (renderAppendOnly host fenceLangFor after (some p) notes).stablePrefixBytes _ =
        List.take (renderAppendOnly host fenceLangFor after (some p) notes).stablePrefixBytes _ at htake
      rw [hkept] at htake
      rw [List.prefix_iff_eq_take]
      exact (List.take_length.symm.trans htake.symm)
  have hslices : (keptSlices host fenceLangFor after (some p)).length =
      (orderedSlices host fenceLangFor before prior).length ↔ _ :=
    keepRun_length_iff host fenceLangFor hsep (fun s hs => mem_of_mem_canonical hs)
      (fun s hs => mem_of_mem_canonical ((mem_orderedSlices host fenceLangFor).1 hs))
      (fun a ha b hb => canonicalSlices_inj ha hb)
  rw [hlength, hslices]
  constructor
  · intro hall s hs t ht hspan hfs hft
    obtain ⟨t', ht', hspan', hblock⟩ :=
      hall s ((mem_orderedSlices host fenceLangFor).2 ((mem_canonicalSlices hbefore).2 ⟨hs, hfs⟩))
    obtain rfl := canonicalSlices_inj ht' ((mem_canonicalSlices hafter).2 ⟨ht, hft⟩) (hspan'.trans hspan)
    exact hblock
  · intro hstays s hs
    obtain ⟨hmem, hfront⟩ := (mem_canonicalSlices hbefore).1 ((mem_orderedSlices host fenceLangFor).1 hs)
    obtain ⟨t, ht, hspan, hft, -⟩ := compareSlices_keyFirst.exists_unbeaten (hsub hmem)
    exact ⟨t, (mem_canonicalSlices hafter).2 ⟨ht, hft⟩, hspan, hstays s hmem t ht hspan.symm hfront hft⟩

end Prior

/-- The contract holds of two slice lists exactly if neither has two slices in front at a
span and, where the second extends the first without an edit, the slices in front print
what they did. -/
theorem renderLaws_iff (before after : List ContextSlice) (prior : Option StableContextResult)
    (priorNotes notes : List JsString) (hsep : DigestSeparates host fenceLangFor before after) :
    RenderLaws host fenceLangFor before after prior priorNotes notes ↔
      OneForemost before ∧ OneForemost after ∧
        (before ⊆ after → SameTexts before after → FrontStays host fenceLangFor before after) := by
  constructor
  · intro h
    have hbefore := (rendersSet_iff host fenceLangFor before).1 h.before_set
    have hafter := (rendersSet_iff host fenceLangFor after).1 h.after_set
    refine ⟨hbefore, hafter, fun hsub htexts => ?_⟩
    exact (keepsAll_iff host fenceLangFor hsep hbefore hafter hsub notes).1 (h.growth hsub htexts)
  · rintro ⟨hbefore, hafter, hstays⟩
    exact {
      before_set := (rendersSet_iff host fenceLangFor before).2 hbefore
      after_set := (rendersSet_iff host fenceLangFor after).2 hafter
      boundary := boundary_holds host fenceLangFor hsep notes
      preserved := preserved_holds host fenceLangFor hsep notes
      growth := fun hsub htexts => (keepsAll_iff host fenceLangFor hsep hbefore hafter hsub notes).2 (hstays hsub htexts) }

end Render

/-! ## Slices that change places -/

/-- A function packed as a callee. -/
def calleeSlice : ContextSlice := ⟨.neighbor, ascii "a.ts", 3, 3, ascii "f()", some .call, some (.fin 2)⟩

/-- The same function once it is asked for by name. -/
def targetSlice : ContextSlice := ⟨.target, ascii "a.ts", 3, 3, ascii "f()", none, none⟩

def headerSlice : ContextSlice := ⟨.header, ascii "a.ts", 1, 1, ascii "x", none, none⟩

def frameSlice : ContextSlice := ⟨.moduleFrame, ascii "a.ts", 1, 1, ascii "x", none, none⟩

/-- The digests of the blocks of these slices. -/
def blockDigests : List (JsString × JsString) :=
  [(ascii "### a.ts:3-3 (neighbor via call weight 2)\n```typescript\nf()\n```",
      ascii "9beaecc79470984e9dc5330378687d85ae9c7677547fa7ae7425629371bd75bc"),
    (ascii "### a.ts:3-3 (target)\n```typescript\nf()\n```",
      ascii "5620b37ba0687f5b834d10d812268947a13d2cd78f4ad4e90f42a9e69087d7b9"),
    (ascii "### a.ts:1-1 (header)\n```typescript\nx\n```",
      ascii "c47f847f42f7e45f62341d49388ccb6022dd107f9af22c403206be764d8ed923"),
    (ascii "### a.ts:1-1 (module-frame)\n```typescript\nx\n```",
      ascii "b798f1b9037ff66f280d44e9c2b17429d36b9676c1ee11050d38766ea32865cb")]

def sampleHost : RenderHost where
  sha256 bytes := ((blockDigests.find? fun p => textEncode p.1 = bytes).map Prod.snd).getD []
  numbers := decimalNumberText

/-- Asking for a packed callee by name rewrites the block it had, and a header and a frame
of one span print in the order they came in. -/
theorem render_rewrites_callee :
    ¬ RenderLaws sampleHost none [calleeSlice] [calleeSlice, targetSlice] none [] [] ∧
      ¬ RendersSet sampleHost none [headerSlice, frameSlice] := by
  constructor
  · intro h
    have htexts : SameTexts [calleeSlice] [calleeSlice, targetSlice] := by
      unfold SameTexts
      decide
    have hbytes := (h.growth (by decide) htexts).bytes
    revert hbytes
    decide +kernel
  · intro h
    have horder := h.order_free [frameSlice, headerSlice] (fun s => by simp [or_comm]) none []
    have hblocks := congrArg StableContextResult.text horder
    revert hblocks
    decide +kernel

theorem renderLaws_iff_callee :
    RenderLaws sampleHost none [calleeSlice] [calleeSlice, targetSlice] none [] [] ↔
      OneForemost [calleeSlice] ∧ OneForemost [calleeSlice, targetSlice] ∧
        ([calleeSlice] ⊆ [calleeSlice, targetSlice] → SameTexts [calleeSlice] [calleeSlice, targetSlice] →
          FrontStays sampleHost none [calleeSlice] [calleeSlice, targetSlice]) := by
  apply renderLaws_iff
  have hcallee : sampleHost.sha256 (blockBytes sampleHost none calleeSlice) ≠
      sampleHost.sha256 (blockBytes sampleHost none targetSlice) := by decide +kernel
  rintro _ ⟨s, hs, rfl⟩ _ ⟨t, ht, rfl⟩ h
  simp only [List.cons_append, List.nil_append, List.mem_cons, List.not_mem_nil, or_false, or_self_left] at hs ht
  rcases hs with rfl | rfl <;> rcases ht with rfl | rfl
  · rfl
  · exact absurd h hcallee
  · exact absurd h.symm hcallee
  · rfl

end Hayven.Db
