import Hayven.Graph.Frontmatter
import Hayven.Native.NdjsonLaws
/-!
# Every record is one line

A record that was written is valid text without a line end in it, so the reader gives it back
as it stands and `parseLine` makes of it what it was written from.
-/
open Hayven.Lib

namespace Hayven.Native

/-! ## Text in one line -/

/-- Whole characters, none of them a control character. -/
structure InLine (s : JsString) : Prop where
  paired : Paired s
  printable : ∀ u ∈ s, 0x20 ≤ u.toNat

theorem inLine_nil : InLine [] := ⟨paired_nil, fun _ hu => absurd hu List.not_mem_nil⟩

theorem InLine.append {s t : JsString} (hs : InLine s) (ht : InLine t) : InLine (s ++ t) where
  paired := hs.paired.append ht.paired
  printable u hu := by
    rcases List.mem_append.1 hu with hu | hu
    · exact hs.printable u hu
    · exact ht.printable u hu

theorem inLine_unit {u : UInt16} (hlow : 0x20 ≤ u.toNat) (hhigh : u.toNat < 0xD800) : InLine [u] where
  paired := paired_ascii_unit u hhigh
  printable v hv := by
    rw [List.mem_singleton.1 hv]
    exact hlow

theorem InLine.cons {u : UInt16} {s : JsString} (hlow : 0x20 ≤ u.toNat) (hhigh : u.toNat < 0xD800) (hs : InLine s) :
    InLine (u :: s) := (inLine_unit hlow hhigh).append hs

theorem inLine_unescaped {s : JsString} (h : unescaped s = true) : InLine s := by
  induction s with
  | nil => exact inLine_nil
  | cons u s ih =>
    unfold unescaped at h
    rw [List.all_cons, Bool.and_eq_true] at h
    simp only [Bool.and_eq_true, decide_eq_true_eq] at h
    exact .cons h.1.1.1.1 h.1.1.1.2 (ih h.2)

theorem inLine_escapeUnit (u : UInt16) : InLine (escapeUnit u) where
  paired := (plain_escapeUnit u).paired
  printable v hv := by
    have hdigit : ∀ m < 16, 0x20 ≤ (hexDigit m).toNat := by decide
    have hfirst : u.toNat / 4096 < 16 := by
      have := u.toNat_lt
      omega
    simp only [escapeUnit, List.mem_cons, List.not_mem_nil, or_false] at hv
    rcases hv with rfl | rfl | rfl | rfl | rfl | rfl
    · decide
    · decide
    · exact hdigit _ hfirst
    all_goals exact hdigit _ (Nat.mod_lt _ (by decide))

/-- What is escaped is what may not stand in a line. -/
theorem printable_quoteUnit (u : UInt16) : ∀ v ∈ quoteUnit u, 0x20 ≤ v.toNat := by
  unfold quoteUnit
  repeat' split
  all_goals first
    | exact (inLine_escapeUnit u).printable
    | decide
    | skip
  rename_i hplain
  intro v hv
  rw [List.mem_singleton.1 hv]
  exact Nat.not_lt.1 fun hlt => hplain (UInt16.lt_iff_toNat_lt.2 hlt)

theorem inLine_quoteBody (s : JsString) : InLine (quoteBody s) where
  paired := paired_quoteBody s
  printable := by
    have hsurrogate {u : UInt16} (h : isHighSurrogate u = true ∨ isLowSurrogate u = true) : 0x20 ≤ u.toNat := by
      rcases h with h | h
      · exact le_trans (by decide) (isHighSurrogate_iff.1 h).1
      · exact le_trans (by decide) (isLowSurrogate_iff.1 h).1
    fun_induction quoteBody s with
    | case1 => exact fun _ hu => absurd hu List.not_mem_nil
    | case2 u hu v rest hv ih =>
      rw [List.forall_mem_cons, List.forall_mem_cons]
      exact ⟨hsurrogate (.inl hu), hsurrogate (.inr hv), ih⟩
    | case3 u hu v rest hv ih => exact fun w hw => (List.mem_append.1 hw).elim ((inLine_escapeUnit u).printable w) (ih w)
    | case4 u hu => exact (inLine_escapeUnit u).printable
    | case5 u rest hu hl ih => exact fun w hw => (List.mem_append.1 hw).elim ((inLine_escapeUnit u).printable w) (ih w)
    | case6 u rest hu hl ih => exact fun w hw => (List.mem_append.1 hw).elim (printable_quoteUnit u w) (ih w)

theorem inLine_count (n : WireCount) : InLine (intText n.val) := by
  have hnonneg : ¬ ((n.val : Int) < 0) := Int.not_lt.2 (Int.natCast_nonneg _)
  unfold intText
  rw [if_neg hnonneg, Int.natAbs_natCast]
  have hunit : ∀ u ∈ decDigits n.val, 0x30 ≤ u.toNat ∧ u.toNat ≤ 0x39 := by
    intro u hu
    have hdigit := (digits_decDigits n.val).all u hu
    unfold isDigit at hdigit
    simp only [Bool.and_eq_true, decide_eq_true_eq] at hdigit
    exact ⟨UInt16.le_iff_toNat_le.1 hdigit.1, UInt16.le_iff_toNat_le.1 hdigit.2⟩
  refine ⟨Plain.paired fun u hu => ?_, fun u hu => le_trans (by decide) (hunit u hu).1⟩
  exact lt_of_le_of_lt (hunit u hu).2 (by decide)

/-! ## The text of a value -/

mutual

/-- No string and no number of the value breaks the line. -/
def Tidy : Written → Prop
  | .num text => InLine text
  | .str body => InLine body
  | .arr items => TidyItems items
  | .obj fields => TidyFields fields

def TidyItems : List Written → Prop
  | [] => True
  | w :: rest => Tidy w ∧ TidyItems rest

def TidyFields : List (JsString × Written) → Prop
  | [] => True
  | (k, w) :: rest => InLine k ∧ Tidy w ∧ TidyFields rest

end

theorem InLine.field {k value : JsString} (hk : InLine k) (hvalue : InLine value) :
    InLine (0x22 :: k ++ 0x22 :: 0x3A :: value) :=
  (InLine.cons (by decide) (by decide) hk).append (.cons (by decide) (by decide) (.cons (by decide) (by decide) hvalue))

mutual

theorem inLine_text : ∀ w : Written, Tidy w → InLine w.text
  | .num text, h => by rw [Tidy] at h; rw [Written.text]; exact h
  | .str body, h => by
    rw [Tidy] at h
    rw [Written.text]
    exact (InLine.cons (by decide) (by decide) h).append (inLine_unit (by decide) (by decide))
  | .arr items, h => by
    rw [Tidy] at h
    rw [Written.text]
    exact (InLine.cons (by decide) (by decide) (inLine_itemsText items h)).append (inLine_unit (by decide) (by decide))
  | .obj fields, h => by
    rw [Tidy] at h
    rw [Written.text]
    exact (InLine.cons (by decide) (by decide) (inLine_fieldsText fields h)).append (inLine_unit (by decide) (by decide))

theorem inLine_itemsText : ∀ items : List Written, TidyItems items → InLine (Written.itemsText items)
  | [], _ => by rw [Written.itemsText]; exact inLine_nil
  | [w], h => by
    rw [TidyItems] at h
    rw [Written.itemsText]
    exact inLine_text w h.1
  | w :: w' :: items, h => by
    rw [TidyItems] at h
    rw [Written.itemsText_cons w _ (List.cons_ne_nil _ _)]
    exact (inLine_text w h.1).append (.cons (by decide) (by decide) (inLine_itemsText (w' :: items) h.2))

theorem inLine_fieldsText : ∀ fields : List (JsString × Written), TidyFields fields → InLine (Written.fieldsText fields)
  | [], _ => by rw [Written.fieldsText]; exact inLine_nil
  | [(k, w)], h => by
    rw [TidyFields] at h
    rw [Written.fieldsText]
    exact h.1.field (inLine_text w h.2.1)
  | (k, w) :: p :: fields, h => by
    rw [TidyFields] at h
    rw [Written.fieldsText_cons k w _ (List.cons_ne_nil _ _)]
    exact (h.1.field (inLine_text w h.2.1)).append (.cons (by decide) (by decide) (inLine_fieldsText (p :: fields) h.2.2))

end

theorem tidyItems_map {α : Type} {write : α → Written} (h : ∀ a, Tidy (write a)) (items : List α) :
    TidyItems (items.map write) := by
  induction items with
  | nil => trivial
  | cons a items ih => exact ⟨h a, ih⟩

theorem tidyFields_append {a b : List (JsString × Written)} (ha : TidyFields a) (hb : TidyFields b) :
    TidyFields (a ++ b) := by
  induction a with
  | nil => exact hb
  | cons field a ih =>
    obtain ⟨k, w⟩ := field
    rw [TidyFields] at ha
    rw [List.cons_append, TidyFields]
    exact ⟨ha.1, ha.2.1, ih ha.2.2⟩

/-! ## The text of a record -/

theorem tidy_serdeStr (s : List Char) : Tidy (serdeStr s) := by
  rw [serdeStr, Tidy]
  exact inLine_quoteBody _

theorem tidy_serdeCount (n : WireCount) : Tidy (serdeCount n) := by
  rw [serdeCount, Tidy]
  exact inLine_count n

theorem tidy_serdeList {α : Type} {write : α → Written} (h : ∀ a, Tidy (write a)) (items : List α) :
    Tidy (serdeList write items) := by
  rw [serdeList, Tidy]
  exact tidyItems_map h items

theorem tidyFields_cons {key : String} {w : Written} {rest : List (JsString × Written)} (hw : Tidy w)
    (hrest : TidyFields rest) (hkey : unescaped (ascii key) = true := by decide) :
    TidyFields ((ascii key, w) :: rest) := by
  rw [TidyFields]
  exact ⟨inLine_unescaped hkey, hw, hrest⟩

theorem tidyFields_nil : TidyFields [] := by
  rw [TidyFields]
  trivial

theorem tidy_serdeAlias (a : WireAlias (List Char)) : Tidy (serdeAlias a) := by
  rw [serdeAlias, Tidy]
  exact tidyFields_cons (tidy_serdeStr _) (tidyFields_cons (tidy_serdeStr _) tidyFields_nil)

theorem tidyFields_option {α : Type} {key : String} {write : α → Written} (h : ∀ a, Tidy (write a)) (o : Option α)
    (hkey : unescaped (ascii key) = true := by decide) : TidyFields (serdeOption key write o) := by
  cases o with
  | none => exact tidyFields_nil
  | some a => exact tidyFields_cons (h a) tidyFields_nil hkey

theorem tidy_ascii {text : String} (h : unescaped (ascii text) = true := by decide) : Tidy (.str (ascii text)) := by
  rw [Tidy]
  exact inLine_unescaped h

namespace EmittedRecord

theorem tidy_written (r : EmittedRecord) : Tidy r.written := by
  cases r with
  | node n =>
    rw [written, tagged, Tidy]
    refine tidyFields_cons tidy_ascii (tidyFields_cons (tidy_serdeStr _) (tidyFields_cons (tidy_serdeStr _)
      (tidyFields_cons (tidy_serdeStr _) (tidyFields_cons (tidy_serdeStr _) (tidyFields_cons (tidy_serdeStr _)
      (tidyFields_cons ?_ (tidyFields_cons (tidy_serdeStr _) tidyFields_nil)))))))
    exact tidy_serdeList tidy_serdeCount _
  | edge e =>
    rw [written, tagged, Tidy]
    refine tidyFields_cons tidy_ascii (tidyFields_append (tidyFields_cons (tidy_serdeStr _)
      (tidyFields_cons (tidy_serdeStr _) (tidyFields_cons (tidy_serdeStr _) (tidyFields_cons (tidy_serdeStr _)
      tidyFields_nil)))) ?_)
    refine tidyFields_append (tidyFields_option tidy_serdeStr _) ?_
    refine tidyFields_append (tidyFields_option (tidy_serdeList tidy_serdeStr) _) ?_
    refine tidyFields_append (tidyFields_option (tidy_serdeList tidy_serdeStr) _) ?_
    refine tidyFields_append (tidyFields_option (tidy_serdeList tidy_serdeAlias) _) ?_
    exact tidyFields_append (tidyFields_option tidy_serdeCount _) (tidyFields_option tidy_serdeCount _)
  | change c =>
    have hkind : Tidy (.str (ascii (changeKindText c.kind))) := by
      cases c.kind <;> exact tidy_ascii
    rw [written, tagged, Tidy]
    exact tidyFields_cons tidy_ascii (tidyFields_append (tidyFields_cons (tidy_serdeStr _)
      (tidyFields_cons hkind (tidyFields_cons (tidy_serdeCount _) tidyFields_nil))) (tidyFields_option tidy_serdeStr _))
  | overflow o =>
    rw [written, tagged, Tidy]
    exact tidyFields_cons tidy_ascii (tidyFields_cons (tidy_serdeCount _)
      (tidyFields_cons (tidy_serdeCount _) tidyFields_nil))

theorem text_braces (r : EmittedRecord) : ∃ body, r.text = 0x7B :: body ++ [0x7D] := by
  cases r <;> exact ⟨_, by rw [text, written, tagged, Written.text]⟩

/-- A record as a line of the stream. -/
def line (r : EmittedRecord) : RecordLine where
  text := r.text
  valid := (inLine_text _ r.tidy_written).paired
  oneLine h := absurd ((inLine_text _ r.tidy_written).printable lineFeed h) (by decide)
  closed := by
    obtain ⟨body, hbody⟩ := r.text_braces
    rw [hbody, List.getLast?_concat]
    decide
  nonempty := by
    obtain ⟨body, hbody⟩ := r.text_braces
    rw [hbody]
    exact List.cons_ne_nil _ _
  unmarked := by
    obtain ⟨body, hbody⟩ := r.text_braces
    rw [hbody, List.cons_append, List.head?_cons]
    decide

theorem trim_text (r : EmittedRecord) : Graph.trim r.text = r.text := by
  obtain ⟨body, hbody⟩ := r.text_braces
  refine Trimmed.trimBy_eq ⟨fun u hu => ?_, fun u hu => ?_⟩
  · rw [hbody, List.cons_append, List.head?_cons] at hu
    rw [← Option.some.inj hu]
    decide
  · rw [hbody, List.getLast?_concat] at hu
    rw [← Option.some.inj hu]
    decide

theorem parseLine_text (rt : NumberText) (syntaxError : JsString → JsString) (r : EmittedRecord) :
    parseLine rt syntaxError r.text = .ok r.received := by
  have hlong : ¬ r.text.length = 0 := fun h => r.line.nonempty (List.length_eq_zero_iff.1 h)
  have hparsed : parseJson r.text = some (.obj r.fields) := Written.parseJson_text r.reads_written
  unfold parseLine
  rw [r.trim_text]
  simp only [hlong, if_false, hparsed]
  exact validateRecord_fields r.text rt r

end EmittedRecord

/-- Whatever the chunks and the drains, every line comes once and in order, and a record comes with
the fields it was written with. -/
theorem stream_lossless (rt : NumberText) (syntaxError : JsString → JsString) :
    (∀ (ended : List (RecordLine × LineEnd)) (last : Option RecordLine) (ops : List ReaderOp),
      pushedBytes ops = textEncode (streamText ended last) →
        linesRead ops = (ended.map fun l => l.1.text) ++ (last.map RecordLine.text).toList) ∧
      ∀ r : EmittedRecord, r.line.text = r.text ∧ parseLine rt syntaxError r.text = .ok r.received :=
  ⟨fun _ _ _ h => linesRead_eq h, fun r => ⟨rfl, r.parseLine_text rt syntaxError⟩⟩

/-- A rename whose path takes two bytes for its first letter. -/
def renamedRecord : EmittedRecord := .change ⟨"é.ts".toList, .rename, ⟨3, by decide⟩, some "e.ts".toList⟩

def renamedStream : Bytes := textEncode (streamText [(renamedRecord.line, .crlf)] (some renamedRecord.line))

/-- The first chunk ends inside that letter. -/
theorem stream_lossless_renamed :
    linesRead [.push (renamedStream.take 26), .drain, .push (renamedStream.drop 26)] =
        [renamedRecord.text, renamedRecord.text] ∧
      parseLine decimalNumberText id renamedRecord.text = .ok renamedRecord.received := by
  obtain ⟨hlines, hrecord⟩ := stream_lossless decimalNumberText id
  refine ⟨?_, (hrecord renamedRecord).2⟩
  refine (hlines [(renamedRecord.line, .crlf)] (some renamedRecord.line) _ ?_).trans rfl
  change renamedStream.take 26 ++ (renamedStream.drop 26 ++ []) = renamedStream
  rw [List.append_nil, List.take_append_drop]

end Hayven.Native
