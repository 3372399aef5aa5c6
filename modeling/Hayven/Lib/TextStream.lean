import Hayven.Lib.Lines
import Hayven.Lib.Text
/-!
# Text that arrives in chunks

A decoder that is fed bytes keeps an unfinished character, and a cutter that is fed text
keeps an unfinished line. What both have put out after some chunks is what the bytes say,
however they were cut: `feed_append`, `cutLines_append`.
-/

namespace Hayven.Lib

/-! ## Characters -/

/-- What is decoded so far, and the character under way. -/
def utf8Stream : Option Pending → Bytes → List Char × Option Pending
  | p, [] => ([], p)
  | none, b :: bs =>
    match leadByte b.toNat with
    | .char c => (c :: (utf8Stream none bs).1, (utf8Stream none bs).2)
    | .pending p => utf8Stream (some p) bs
    | .bad => (replacementChar :: (utf8Stream none bs).1, (utf8Stream none bs).2)
  | some p, b :: bs =>
    if p.lower ≤ b.toNat ∧ b.toNat ≤ p.upper then
      if p.needed = 1 then
        (Char.ofNat (p.codePoint * 64 + b.toNat % 64) :: (utf8Stream none bs).1, (utf8Stream none bs).2)
      else utf8Stream (some ⟨p.codePoint * 64 + b.toNat % 64, p.needed - 1, 0x80, 0xBF⟩) bs
    else
      match leadByte b.toNat with
      | .char c => (replacementChar :: c :: (utf8Stream none bs).1, (utf8Stream none bs).2)
      | .pending q => (replacementChar :: (utf8Stream (some q) bs).1, (utf8Stream (some q) bs).2)
      | .bad => (replacementChar :: replacementChar :: (utf8Stream none bs).1, (utf8Stream none bs).2)

theorem utf8Stream_append (a b : Bytes) (p : Option Pending) :
    utf8Stream p (a ++ b) =
      ((utf8Stream p a).1 ++ (utf8Stream (utf8Stream p a).2 b).1, (utf8Stream (utf8Stream p a).2 b).2) := by
  fun_induction utf8Stream p a <;> simp_all [utf8Stream]

/-- Bytes that are read strictly leave no character under way. -/
theorem utf8Stream_of_strict (bs : Bytes) (p : Option Pending) : ∀ cs, utf8StrictFrom p bs = some cs →
    utf8Stream p bs = (cs, none) := by
  fun_induction utf8StrictFrom p bs <;> simp_all [utf8Stream]

theorem utf8Stream_encode (cs : List Char) : utf8Stream none (utf8Encode cs) = (cs, none) :=
  utf8Stream_of_strict _ _ cs (utf8DecodeStrict_encode cs)

/-! ## The decoder -/

/-- A decoder between two chunks: the character under way, and whether any was put out. -/
structure StreamDecoder where
  pending : Option Pending
  started : Bool

namespace StreamDecoder

def fresh : StreamDecoder := ⟨none, false⟩

/-- A byte order mark at the very start is not part of the text. -/
def dropMark : List Char → List Char
  | [] => []
  | c :: cs => if c = byteOrderMark then cs else c :: cs

/-- The text of a chunk, and the decoder after it. -/
def feed (d : StreamDecoder) (chunk : Bytes) : JsString × StreamDecoder :=
  let decoded := utf8Stream d.pending chunk
  (toUtf16 (if d.started then decoded.1 else dropMark decoded.1), ⟨decoded.2, d.started || !decoded.1.isEmpty⟩)

theorem toUtf16_append (a b : List Char) : toUtf16 (a ++ b) = toUtf16 a ++ toUtf16 b := List.flatMap_append

/-- Two chunks are decoded as one. -/
theorem feed_append (d : StreamDecoder) (a b : Bytes) :
    d.feed (a ++ b) = ((d.feed a).1 ++ ((d.feed a).2.feed b).1, ((d.feed a).2.feed b).2) := by
  unfold feed
  rw [utf8Stream_append]
  obtain ⟨pending, started⟩ := d
  dsimp only
  cases utf8Stream pending a with
  | mk cs p =>
    dsimp only
    cases started with
    | true => simp [toUtf16_append]
    | false =>
      -- before the first character nothing has been put out
      cases cs with
      | nil => simp [dropMark, toUtf16]
      | cons c cs =>
        have hmark (rest : List Char) : dropMark (c :: (cs ++ rest)) = dropMark (c :: cs) ++ rest := by
          rw [dropMark, dropMark]
          split <;> rfl
        simp [hmark, toUtf16_append]

theorem feed_nil (d : StreamDecoder) : d.feed [] = ([], d) := by
  obtain ⟨pending, started⟩ := d
  cases started <;> simp [feed, utf8Stream, dropMark, toUtf16]

/-- A whole text that does not start with a byte order mark. -/
theorem feed_encode {cs : List Char} (h : cs.head? ≠ some byteOrderMark) : (fresh.feed (utf8Encode cs)).1 = toUtf16 cs := by
  unfold feed fresh
  rw [utf8Stream_encode]
  cases cs with
  | nil => rfl
  | cons c cs =>
    have hc : c ≠ byteOrderMark := fun heq => h (congrArg some heq)
    simp [dropMark, hc]

end StreamDecoder

/-! ## Lines -/

/-- A carriage return at the end is taken off. -/
def stripReturn (line : JsString) : JsString := if line.getLast? = some carriageReturn then line.dropLast else line

/-- A unit at the start of a text that is cut into lines. -/
def consUnit (u : UInt16) : List JsString × JsString → List JsString × JsString
  | ([], last) => ([], u :: last)
  | (line :: lines, last) => ((u :: line) :: lines, last)

/-- The lines that are ended, and the text after them. -/
def rawLines : JsString → List JsString × JsString
  | [] => ([], [])
  | u :: rest => if u = lineFeed then ([] :: (rawLines rest).1, (rawLines rest).2) else consUnit u (rawLines rest)

/-- The ended lines without their ends, and the text after them. -/
def cutLines (text : JsString) : List JsString × JsString := ((rawLines text).1.map stripReturn, (rawLines text).2)

theorem rawLines_of_not_mem {text : JsString} (h : lineFeed ∉ text) : rawLines text = ([], text) := by
  induction text with
  | nil => rfl
  | cons u text ih =>
    rw [List.mem_cons, not_or] at h
    rw [rawLines, if_neg fun heq => h.1 heq.symm, ih h.2]
    rfl

/-- The first line feed ends the first line. -/
theorem rawLines_line {line : JsString} (h : lineFeed ∉ line) (rest : JsString) :
    rawLines (line ++ lineFeed :: rest) = (line :: (rawLines rest).1, (rawLines rest).2) := by
  induction line with
  | nil => exact if_pos rfl
  | cons u line ih =>
    rw [List.mem_cons, not_or] at h
    rw [List.cons_append, rawLines, if_neg fun heq => h.1 heq.symm, ih h.2]
    rfl

theorem rawLines_append (a b : JsString) : rawLines (a ++ b) =
    ((rawLines a).1 ++ (rawLines ((rawLines a).2 ++ b)).1, (rawLines ((rawLines a).2 ++ b)).2) := by
  induction a with
  | nil => rfl
  | cons u a ih =>
    rw [List.cons_append, rawLines, rawLines]
    by_cases hu : u = lineFeed
    · rw [if_pos hu, if_pos hu, ih]
      rfl
    · rw [if_neg hu, if_neg hu, ih]
      cases hcut : rawLines a with
      | mk lines last =>
        cases lines with
        | nil =>
          change consUnit u ([] ++ (rawLines (last ++ b)).1, (rawLines (last ++ b)).2) =
            ([] ++ (rawLines (u :: last ++ b)).1, (rawLines (u :: last ++ b)).2)
          rw [List.nil_append, List.nil_append, List.cons_append, rawLines, if_neg hu]
        | cons line lines => rfl

/-- A text that comes in two pieces is cut as one. -/
theorem cutLines_append (a b : JsString) : cutLines (a ++ b) =
    ((cutLines a).1 ++ (cutLines ((cutLines a).2 ++ b)).1, (cutLines ((cutLines a).2 ++ b)).2) := by
  unfold cutLines
  rw [rawLines_append, List.map_append]

end Hayven.Lib
