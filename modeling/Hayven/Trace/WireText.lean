import Hayven.Lib.JsonUtf8
import Hayven.Trace.Wire
/-!
# The text of a batch

The Rust collector writes its JSON by hand and the Go collector marshals structs; the
text has the same layout. If its strings and numbers are read as those of a body, the
daemon reads the body.
-/
open Hayven.Lib Hayven.Daemon

namespace Hayven.Trace

/-! ## The layout -/

def quoteMark : Char := Char.ofNat 0x22
def openBrace : Char := Char.ofNat 0x7B
def closeBrace : Char := Char.ofNat 0x7D

/-- A key and its colon. -/
def keyText (name : String) : List Char := quoteMark :: name.toList ++ [quoteMark, ':']

/-- The parts of an observation, strings with their quotes. -/
structure RowText where
  src : List Char
  dst : List Char
  ts : List Char
  observed : List Char
  weight : List Char
  kind : List Char

def RowText.text (t : RowText) : List Char :=
  openBrace :: keyText "src" ++ t.src ++ ',' :: keyText "dst" ++ t.dst ++ ',' :: keyText "ts" ++ t.ts ++
    ',' :: keyText "observed" ++ t.observed ++ ',' :: keyText "weight" ++ t.weight ++ ',' :: keyText "kind" ++ t.kind ++
    [closeBrace]

structure CoverageText where
  test : List Char
  entity : List Char
  weight : List Char

def CoverageText.text (t : CoverageText) : List Char :=
  openBrace :: keyText "test" ++ t.test ++ ',' :: keyText "entity" ++ t.entity ++ ',' :: keyText "weight" ++ t.weight ++
    [closeBrace]

/-- A comma before every item but the first. -/
def commaSeparated : List (List Char) → List Char
  | [] => []
  | [t] => t
  | t :: rest => t ++ ',' :: commaSeparated rest

def bodyText (source sampleRate : List Char) (rows : List RowText) (coverage : List CoverageText) : List Char :=
  openBrace :: keyText "source" ++ source ++ ',' :: keyText "sample_rate" ++ sampleRate ++
    ',' :: keyText "observations" ++ '[' :: commaSeparated (rows.map RowText.text) ++ ']' ::
    (if coverage = [] then []
      else ',' :: keyText "test_coverage" ++ '[' :: commaSeparated (coverage.map CoverageText.text) ++ [']']) ++
    [closeBrace]

/-! ## What it is read as -/

theorem toUtf16_append (a b : List Char) : toUtf16 (a ++ b) = toUtf16 a ++ toUtf16 b := List.flatMap_append

theorem toUtf16_cons (c : Char) (cs : List Char) : toUtf16 (c :: cs) = charUnits c ++ toUtf16 cs := rfl

/-- The text of a string is read as the string. -/
def ReadsQuoted (text : List Char) (s : JsString) : Prop :=
  ∃ body, toUtf16 text = 0x22 :: body ++ [0x22] ∧ Written.ReadsString body s

/-- The text of a number is read as the number. -/
def ReadsNumeric (text : List Char) (j : Json) : Prop :=
  ∃ n, j = .num n ∧ Written.ReadsNumber (toUtf16 text) n

structure RowText.ReadsAs (t : RowText) (row : WireRow) : Prop where
  src : ReadsQuoted t.src row.src
  dst : ReadsQuoted t.dst row.dst
  ts : ReadsNumeric t.ts row.ts
  observed : ReadsNumeric t.observed row.observed
  weight : ReadsNumeric t.weight row.weight
  kind : ReadsQuoted t.kind row.kind

structure CoverageText.ReadsAs (t : CoverageText) (c : WireCoverage) : Prop where
  test : ReadsQuoted t.test c.test
  entity : ReadsQuoted t.entity c.entity
  weight : ReadsNumeric t.weight c.weight

theorem toUtf16_mark (cs : List Char) :
    toUtf16 (quoteMark :: cs) = 0x22 :: toUtf16 cs ∧ toUtf16 (openBrace :: cs) = 0x7B :: toUtf16 cs ∧
      toUtf16 (closeBrace :: cs) = 0x7D :: toUtf16 cs ∧ toUtf16 (',' :: cs) = 0x2C :: toUtf16 cs ∧
      toUtf16 (':' :: cs) = 0x3A :: toUtf16 cs ∧ toUtf16 ('[' :: cs) = 0x5B :: toUtf16 cs ∧
      toUtf16 (']' :: cs) = 0x5D :: toUtf16 cs := ⟨rfl, rfl, rfl, rfl, rfl, rfl, rfl⟩

/-- A name that is written and read as itself. -/
structure PlainKey (name : String) : Prop where
  text : toUtf16 name.toList = ascii name
  quoted : quoteBody (ascii name) = ascii name

theorem PlainKey.keyText {name : String} (h : PlainKey name) :
    toUtf16 (keyText name) = 0x22 :: ascii name ++ [0x22, 0x3A] := by
  rw [Trace.keyText, List.cons_append, (toUtf16_mark _).1, toUtf16_append, h.text]
  rfl

theorem PlainKey.reads {name : String} (h : PlainKey name) : Written.ReadsString (ascii name) (ascii name) := by
  intro rest
  have hread := parseStringBody_quoteBody (ascii name) rest
  rwa [h.quoted] at hread

theorem plainKeys : PlainKey "src" ∧ PlainKey "dst" ∧ PlainKey "ts" ∧ PlainKey "observed" ∧ PlainKey "weight" ∧
    PlainKey "kind" ∧ PlainKey "test" ∧ PlainKey "entity" ∧ PlainKey "source" ∧ PlainKey "sample_rate" ∧
    PlainKey "observations" ∧ PlainKey "test_coverage" := by
  refine ⟨?_, ?_, ?_, ?_, ?_, ?_, ?_, ?_, ?_, ?_, ?_, ?_⟩ <;> exact ⟨by decide +kernel, by decide +kernel⟩

theorem RowText.ReadsAs.written {t : RowText} {row : WireRow} (h : t.ReadsAs row) :
    ∃ w : Written, toUtf16 t.text = w.text ∧ w.Reads row.json := by
  obtain ⟨⟨src, hsrc, hsrcReads⟩, ⟨dst, hdst, hdstReads⟩, ⟨ts, htsNum, htsReads⟩, ⟨observed, hobservedNum, hobservedReads⟩,
    ⟨weight, hweightNum, hweightReads⟩, ⟨kind, hkind, hkindReads⟩⟩ := h
  obtain ⟨ksrc, kdst, kts, kobserved, kweight, kkind, -⟩ := plainKeys
  refine ⟨.obj [(ascii "src", .str src), (ascii "dst", .str dst), (ascii "ts", .num (toUtf16 t.ts)),
    (ascii "observed", .num (toUtf16 t.observed)), (ascii "weight", .num (toUtf16 t.weight)), (ascii "kind", .str kind)],
    ?_, ?_⟩
  · simp only [RowText.text, List.cons_append, toUtf16_append, toUtf16_mark, hsrc, hdst, hkind, Written.text,
      Written.fieldsText, ksrc.keyText, kdst.keyText, kts.keyText, kobserved.keyText, kweight.keyText, kkind.keyText,
      List.append_assoc, List.nil_append]
    rfl
  · rw [WireRow.json, htsNum, hobservedNum, hweightNum]
    exact .obj (.cons ksrc.reads (.str hsrcReads) (.cons kdst.reads (.str hdstReads) (.cons kts.reads (.num htsReads)
      (.cons kobserved.reads (.num hobservedReads) (.cons kweight.reads (.num hweightReads)
      (.cons kkind.reads (.str hkindReads) .nil))))))

theorem CoverageText.ReadsAs.written {t : CoverageText} {c : WireCoverage} (h : t.ReadsAs c) :
    ∃ w : Written, toUtf16 t.text = w.text ∧ w.Reads c.json := by
  obtain ⟨⟨test, htest, htestReads⟩, ⟨entity, hentity, hentityReads⟩, ⟨weight, hweightNum, hweightReads⟩⟩ := h
  obtain ⟨-, -, -, -, kweight, -, ktest, kentity, -⟩ := plainKeys
  refine ⟨.obj [(ascii "test", .str test), (ascii "entity", .str entity), (ascii "weight", .num (toUtf16 t.weight))], ?_, ?_⟩
  · simp only [CoverageText.text, List.cons_append, toUtf16_append, toUtf16_mark, htest, hentity, Written.text,
      Written.fieldsText, ktest.keyText, kentity.keyText, kweight.keyText, List.append_assoc, List.nil_append]
    rfl
  · rw [WireCoverage.json, hweightNum]
    exact .obj (.cons ktest.reads (.str htestReads) (.cons kentity.reads (.str hentityReads)
      (.cons kweight.reads (.num hweightReads) .nil)))

/-- Items, each read as its own value. -/
theorem commaSeparated_written {α β : Type} {text : α → List Char} {json : β → Json} {ts : List α} {bs : List β}
    (h : List.Forall₂ (fun t b => ∃ w : Written, toUtf16 (text t) = w.text ∧ w.Reads (json b)) ts bs) :
    ∃ ws : List Written, toUtf16 (commaSeparated (ts.map text)) = Written.itemsText ws ∧
      Written.ReadsItems ws (bs.map json) := by
  induction h with
  | nil => exact ⟨[], rfl, .nil⟩
  | @cons t b ts bs hfirst hrest ih =>
    obtain ⟨w, hw, hreads⟩ := hfirst
    obtain ⟨ws, hws, hreadsRest⟩ := ih
    refine ⟨w :: ws, ?_, .cons hreads hreadsRest⟩
    cases hrest with
    | nil =>
      cases hreadsRest
      exact hw
    | @cons t' b' ts bs hsecond hmore =>
      have hne : ws ≠ [] := by
        rintro rfl
        cases hreadsRest
      rw [Written.itemsText_cons w ws hne, ← hw, ← hws]
      have hcomma : commaSeparated ((t :: t' :: ts).map text) =
          text t ++ ',' :: commaSeparated ((t' :: ts).map text) := rfl
      rw [hcomma, toUtf16_append, toUtf16_cons]
      rfl

/-- The daemon reads the body off its text. -/
theorem parseJson_bodyText {source sampleRate : List Char} {rows : List RowText} {coverage : List CoverageText}
    {sourceValue : JsString} {rateValue : Json} {wireRows : List WireRow} {wireCoverage : List WireCoverage}
    (hsource : ReadsQuoted source sourceValue) (hrate : ReadsNumeric sampleRate rateValue)
    (hrows : List.Forall₂ RowText.ReadsAs rows wireRows) (hcoverage : List.Forall₂ CoverageText.ReadsAs coverage wireCoverage) :
    parseJson (textDecode (utf8Encode (bodyText source sampleRate rows coverage))) =
      some (wireBody sourceValue rateValue wireRows wireCoverage) := by
  obtain ⟨sourceBody, hsourceText, hsourceReads⟩ := hsource
  obtain ⟨n, rfl, hrateReads⟩ := hrate
  obtain ⟨ws, hws, hwsReads⟩ := commaSeparated_written (hrows.imp fun _ _ h => h.written)
  obtain ⟨cs, hcs, hcsReads⟩ := commaSeparated_written (hcoverage.imp fun _ _ h => h.written)
  have hdecode : textDecode (utf8Encode (bodyText source sampleRate rows coverage)) =
      toUtf16 (bodyText source sampleRate rows coverage) := by
    have hhead : ∃ cs, bodyText source sampleRate rows coverage = openBrace :: cs := ⟨_, rfl⟩
    obtain ⟨cs, hcs⟩ := hhead
    rw [textDecode, utf8DecodeLossy_encode, hcs]
    dsimp only
    rw [if_neg (by decide)]
  obtain ⟨-, -, -, -, -, -, -, -, ksource, krate, kobservations, kcoverage⟩ := plainKeys
  rw [hdecode]
  cases hcoverage with
  | nil =>
    have htext : toUtf16 (bodyText source sampleRate rows []) = (Written.obj [(ascii "source", .str sourceBody),
        (ascii "sample_rate", .num (toUtf16 sampleRate)), (ascii "observations", .arr ws)]).text := by
      simp only [bodyText, if_true, List.cons_append, toUtf16_append, toUtf16_mark, hsourceText, hws, ksource.keyText,
        krate.keyText, kobservations.keyText, Written.text, Written.fieldsText, List.append_assoc, List.nil_append]
      rfl
    rw [htext]
    exact Written.parseJson_text (.obj (.cons ksource.reads (.str hsourceReads) (.cons krate.reads (.num hrateReads)
      (.cons kobservations.reads (.arr hwsReads) .nil))))
  | @cons c _ rest _ hfirst hrest =>
    have htext : toUtf16 (bodyText source sampleRate rows (c :: rest)) = (Written.obj [(ascii "source", .str sourceBody),
        (ascii "sample_rate", .num (toUtf16 sampleRate)), (ascii "observations", .arr ws),
        (ascii "test_coverage", .arr cs)]).text := by
      simp only [bodyText, if_neg (List.cons_ne_nil _ _), List.cons_append, toUtf16_append, toUtf16_mark, hsourceText, hws,
        hcs, ksource.keyText, krate.keyText, kobservations.keyText, kcoverage.keyText, Written.text, Written.fieldsText,
        List.append_assoc, List.nil_append]
      rfl
    rw [htext]
    exact Written.parseJson_text (.obj (.cons ksource.reads (.str hsourceReads) (.cons krate.reads (.num hrateReads)
      (.cons kobservations.reads (.arr hwsReads) (.cons kcoverage.reads (.arr hcsReads) .nil)))))

/-! ## Numbers and strings -/

def backslash : Char := Char.ofNat 0x5C

/-- A character that needs no escape. -/
theorem parseStringBody_char {c : Char} (hlow : 0x20 ≤ c.toNat) (hquote : c ≠ quoteMark) (hslash : c ≠ backslash)
    (s : JsString) : parseStringBody (charUnits c ++ s) = (parseStringBody s).map fun p => (charUnits c ++ p.1, p.2) := by
  by_cases hc : c.toNat < 0x10000
  · obtain ⟨u, hu, -, -, hn, -⟩ := charUnits_single hc
    have hne : ∀ k : Nat, k < 0x10000 → c ≠ Char.ofNat k → u ≠ k.toUInt16 := by
      intro k hk hne heq
      rw [heq, toNat_toUInt16 hk] at hn
      exact hne (by rw [hn, char_ofNat_toNat])
    have hplain : ¬ u < 0x20 := by
      intro hlt
      have : u.toNat < 0x20 := hlt
      omega
    rw [hu, List.singleton_append,
      parseStringBody_plain hplain (hne 0x22 (by decide) hquote) (hne 0x5C (by decide) hslash)]
    rfl
  · obtain ⟨u, v, huv, hh, hl, -⟩ := charUnits_pair (Nat.not_lt.1 hc)
    obtain ⟨h1, h2, h3⟩ := surrogate_plain (isHighSurrogate_iff.1 hh).1
    have hv := (isLowSurrogate_iff.1 hl).1
    obtain ⟨h1', h2', h3'⟩ := surrogate_plain (u := v) (by omega)
    rw [huv]
    simp only [List.cons_append, List.nil_append]
    rw [parseStringBody_plain h1 h2 h3, parseStringBody_plain h1' h2' h3', Option.map_map]
    rfl

/-- A character with a short escape. -/
theorem parseStringBody_shortEscape {c e : Char} {u : UInt16} (k : Nat) (htext : toUtf16 [backslash, e] = [0x5C, u])
    (hne : u ≠ 0x75) (hunescape : unescape u = some k.toUInt16) (hunits : charUnits (Char.ofNat k) = [k.toUInt16])
    (hc : c.toNat = k) (s : JsString) :
    parseStringBody (toUtf16 [backslash, e] ++ s) = (parseStringBody s).map fun p => (charUnits c ++ p.1, p.2) := by
  have hck : c = Char.ofNat k := by rw [← hc, char_ofNat_toNat]
  rw [htext, hck, hunits]
  exact parseStringBody_short hne hunescape s

/-- A character that is escaped by its number. -/
theorem parseStringBody_unitEscape {c : Char} (hc : c.toNat < 0x10000) (s : JsString) :
    parseStringBody (toUtf16 (ofUtf16 (escapeUnit c.toNat.toUInt16)) ++ s) =
      (parseStringBody s).map fun p => (charUnits c ++ p.1, p.2) := by
  have hunits : charUnits c = [c.toNat.toUInt16] := by rw [charUnits, if_pos hc]
  have hback : toUtf16 (ofUtf16 (escapeUnit c.toNat.toUInt16)) = escapeUnit c.toNat.toUInt16 :=
    (wellFormed_iff _).1 (plain_escapeUnit _).paired.wellFormed
  rw [hback, hunits]
  exact parseStringBody_escapeUnit _ s

/-- A string whose pieces are read one by one. -/
theorem readsQuoted_flatMap {α : Type} {escape : α → List Char} {value : α → JsString}
    (h : ∀ a s, parseStringBody (toUtf16 (escape a) ++ s) = (parseStringBody s).map fun p => (value a ++ p.1, p.2))
    (l : List α) : ReadsQuoted (quoteMark :: l.flatMap escape ++ [quoteMark]) (l.flatMap value) := by
  refine ⟨toUtf16 (l.flatMap escape), ?_, fun rest => ?_⟩
  · rw [List.cons_append, (toUtf16_mark _).1, toUtf16_append]
    rfl
  · induction l with
    | nil =>
      show parseStringBody (0x22 :: rest) = some ([], rest)
      rw [parseStringBody.eq_def]
      simp
    | cons a l ih =>
      rw [List.flatMap_cons, toUtf16_append, List.append_assoc, h, ih, List.flatMap_cons]
      rfl

/-- The decimal digits of an integer, as characters. -/
def decimalChars (k : Int) : List Char := ofUtf16 (intText k)

theorem readsNumeric_decimalChars (k : Int) : ReadsNumeric (decimalChars k) (.num (roundRat k)) := by
  have hdigits := digits_decDigits k.natAbs
  have hplain : Plain (intText k) := by
    intro u hu
    have hunit : isNumberUnit u = true := by
      unfold intText at hu
      split at hu
      · rcases List.mem_cons.1 hu with rfl | hu
        · decide
        · simp [isNumberUnit, hdigits.all u hu]
      · simp [isNumberUnit, hdigits.all u hu]
    exact plain_numberUnit hunit
  have hback : toUtf16 (decimalChars k) = intText k := (wellFormed_iff _).1 hplain.paired.wellFormed
  exact ⟨_, rfl, hback ▸ Written.readsNumber_intText k⟩

end Hayven.Trace
