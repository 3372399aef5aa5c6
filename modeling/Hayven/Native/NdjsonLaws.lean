import Hayven.Lib.JsonUtf8
import Hayven.Lib.WholeNumbers
import Hayven.Native.Ndjson
/-!
# The record stream loses nothing

However the bytes of the stream are cut into chunks and whenever it is drained, the reader gives
every line once and in order, and a line the native side wrote is parsed to the record it was
written from.
-/
open Hayven.Lib

namespace Hayven.Native

/-! ## The reader -/

theorem rawLines_rest (text : JsString) : lineFeed ∉ (rawLines text).2 := by
  induction text with
  | nil => exact List.not_mem_nil
  | cons u text ih =>
    rw [rawLines]
    split
    · exact ih
    · rename_i hu
      cases hcut : rawLines text with
      | mk lines last =>
        rw [hcut] at ih
        cases lines with
        | nil =>
          change lineFeed ∉ u :: last
          rw [List.mem_cons, not_or]
          exact ⟨fun heq => hu heq.symm, ih⟩
        | cons line lines => exact ih

/-- What the drains gave and the reader still has is what the bytes say, however they were cut. -/
theorem run_spec (ops : List ReaderOp) : ∀ r : NdjsonLineReader, lineFeed ∉ r.buf →
    (r.run ops).1 ++ (r.run ops).2.lines =
        r.lines ++ (cutLines (r.buf ++ (r.decoder.feed (pushedBytes ops)).1)).1 ∧
      (r.run ops).2.buf = (cutLines (r.buf ++ (r.decoder.feed (pushedBytes ops)).1)).2 := by
  induction ops with
  | nil =>
    intro r hr
    have hcut : cutLines (r.buf ++ (r.decoder.feed []).1) = ([], r.buf) := by
      rw [StreamDecoder.feed_nil, List.append_nil, cutLines, rawLines_of_not_mem hr]
      rfl
    refine ⟨?_, ?_⟩
    · change [] ++ r.lines = r.lines ++ (cutLines (r.buf ++ (r.decoder.feed []).1)).1
      rw [hcut, List.nil_append, List.append_nil]
    · change r.buf = (cutLines (r.buf ++ (r.decoder.feed []).1)).2
      rw [hcut]
  | cons op ops ih =>
    intro r hr
    cases op with
    | drain =>
      obtain ⟨hlines, hbuf⟩ := ih r.drain.2 hr
      refine ⟨?_, hbuf⟩
      change r.drain.1 ++ (r.drain.2.run ops).1 ++ (r.drain.2.run ops).2.lines = _
      rw [List.append_assoc, hlines]
      rfl
    | push chunk =>
      have hrest : lineFeed ∉ (r.push chunk).buf := rawLines_rest _
      obtain ⟨hlines, hbuf⟩ := ih (r.push chunk) hrest
      change _ = r.lines ++ (cutLines (r.buf ++ (r.decoder.feed (chunk ++ pushedBytes ops)).1)).1 ∧
        _ = (cutLines (r.buf ++ (r.decoder.feed (chunk ++ pushedBytes ops)).1)).2
      rw [StreamDecoder.feed_append, ← List.append_assoc, cutLines_append]
      refine ⟨?_, hbuf⟩
      change ((r.push chunk).run ops).1 ++ ((r.push chunk).run ops).2.lines = _
      rw [hlines, ← List.append_assoc]
      rfl

/-- A line of the stream: valid text, not empty, in one line. -/
structure RecordLine where
  text : JsString
  valid : Paired text
  oneLine : lineFeed ∉ text
  closed : text.getLast? ≠ some carriageReturn
  nonempty : text ≠ []
  unmarked : text.head? ≠ some 0xFEFF

inductive LineEnd where
  | lf | crlf

def LineEnd.text : LineEnd → JsString
  | .lf => [lineFeed]
  | .crlf => [carriageReturn, lineFeed]

/-- The stream: lines with their ends, and a last one that may have none. -/
def streamText (ended : List (RecordLine × LineEnd)) (last : Option RecordLine) : JsString :=
  (ended.flatMap fun l => l.1.text ++ l.2.text) ++ (last.map RecordLine.text).getD []

theorem stripReturn_append {line : JsString} : stripReturn (line ++ [carriageReturn]) = line := by
  unfold stripReturn
  rw [if_pos (by simp), List.dropLast_concat]

theorem stripReturn_of_closed {line : JsString} (h : line.getLast? ≠ some carriageReturn) : stripReturn line = line :=
  if_neg h

theorem cutLines_stream (ended : List (RecordLine × LineEnd)) (last : Option RecordLine) :
    cutLines (streamText ended last) = (ended.map fun l => l.1.text, (last.map RecordLine.text).getD []) := by
  induction ended with
  | nil =>
    have hlast : lineFeed ∉ (last.map RecordLine.text).getD [] := by
      cases last with
      | none => exact List.not_mem_nil
      | some l => exact l.oneLine
    change cutLines ((last.map RecordLine.text).getD []) = _
    rw [cutLines, rawLines_of_not_mem hlast]
    rfl
  | cons l ended ih =>
    obtain ⟨line, ending⟩ := l
    have hcut : cutLines (line.text ++ ending.text ++ streamText ended last) =
        (line.text :: (cutLines (streamText ended last)).1, (cutLines (streamText ended last)).2) := by
      unfold cutLines
      cases ending with
      | lf =>
        rw [LineEnd.text, List.append_assoc, List.singleton_append, rawLines_line line.oneLine, List.map_cons,
          stripReturn_of_closed line.closed]
      | crlf =>
        have hline : lineFeed ∉ line.text ++ [carriageReturn] := by
          rw [List.mem_append, not_or]
          exact ⟨line.oneLine, by decide⟩
        rw [LineEnd.text, show line.text ++ [carriageReturn, lineFeed] ++ streamText ended last =
          (line.text ++ [carriageReturn]) ++ lineFeed :: streamText ended last by simp, rawLines_line hline, List.map_cons,
          stripReturn_append]
    rw [show streamText ((line, ending) :: ended) last = line.text ++ ending.text ++ streamText ended last by
      simp [streamText], hcut, ih]
    rfl

theorem paired_streamText (ended : List (RecordLine × LineEnd)) (last : Option RecordLine) :
    Paired (streamText ended last) := by
  induction ended with
  | nil =>
    cases last with
    | none => exact paired_nil
    | some l => exact l.valid
  | cons l ended ih =>
    have hend : Paired l.2.text := by
      cases l.2 with
      | lf => exact paired_ascii_unit lineFeed
      | crlf => exact (paired_ascii_unit carriageReturn).append (paired_ascii_unit lineFeed)
    have hall := (l.1.valid.append hend).append ih
    rwa [show l.1.text ++ l.2.text ++ streamText ended last = streamText (l :: ended) last by simp [streamText]] at hall

theorem head_streamText (ended : List (RecordLine × LineEnd)) (last : Option RecordLine) :
    (streamText ended last).head? ≠ some 0xFEFF := by
  have hhead (line : RecordLine) (rest : JsString) : (line.text ++ rest).head? ≠ some 0xFEFF := by
    rw [List.head?_append_of_ne_nil _ line.nonempty]
    exact line.unmarked
  cases ended with
  | nil =>
    cases last with
    | none => exact fun h => by cases h
    | some l => exact l.unmarked
  | cons l ended =>
    rw [show streamText (l :: ended) last = l.1.text ++ (l.2.text ++ streamText ended last) by simp [streamText]]
    exact hhead l.1 _

/-- The lines of the text, in order and once each. -/
theorem linesRead_eq {ended : List (RecordLine × LineEnd)} {last : Option RecordLine} {ops : List ReaderOp}
    (h : pushedBytes ops = textEncode (streamText ended last)) :
    linesRead ops = (ended.map fun l => l.1.text) ++ (last.map RecordLine.text).toList := by
  have hdecoded : (StreamDecoder.fresh.feed (pushedBytes ops)).1 = streamText ended last := by
    have hround : toUtf16 (ofUtf16 (streamText ended last)) = streamText ended last :=
      (wellFormed_iff _).1 (paired_streamText ended last).wellFormed
    rw [h, textEncode, StreamDecoder.feed_encode, hround]
    intro hmark
    cases htext : ofUtf16 (streamText ended last) with
    | nil => rw [htext] at hmark; cases hmark
    | cons c cs =>
      rw [htext] at hmark hround
      refine head_streamText ended last ?_
      rw [← hround]
      exact head_toUtf16_bom.2 (Option.some.inj hmark)
  obtain ⟨hlines, hbuf⟩ := run_spec ops .fresh List.not_mem_nil
  have hcut : cutLines (NdjsonLineReader.fresh.buf ++ (NdjsonLineReader.fresh.decoder.feed (pushedBytes ops)).1) =
      (ended.map fun l => l.1.text, (last.map RecordLine.text).getD []) := by
    rw [← cutLines_stream, ← hdecoded]
    rfl
  rw [hcut] at hlines hbuf
  unfold linesRead NdjsonLineReader.flush NdjsonLineReader.drain
  dsimp only
  cases last with
  | none =>
    rw [if_neg (by rw [hbuf]; exact Nat.lt_irrefl 0), hlines]
    simp [NdjsonLineReader.fresh]
  | some l =>
    have hlong : (NdjsonLineReader.fresh.run ops).2.buf.length > 0 := by
      rw [hbuf]
      exact List.length_pos_iff.2 l.nonempty
    rw [if_pos hlong, ← List.append_assoc, hlines, hbuf]
    rfl

/-! ## What a written record is read as -/

/-- A text that stands between quotes as it is. -/
def unescaped (s : JsString) : Bool :=
  s.all fun u => 0x20 ≤ u.toNat && u.toNat < 0xD800 && u.toNat ≠ 0x22 && u.toNat ≠ 0x5C

theorem readsString_unescaped {s : JsString} (h : unescaped s = true) : Written.ReadsString s s := by
  intro rest
  induction s with
  | nil =>
    rw [List.nil_append, parseStringBody.eq_def]
    exact if_pos rfl
  | cons u s ih =>
    unfold unescaped at h
    rw [List.all_cons, Bool.and_eq_true] at h
    simp only [Bool.and_eq_true, decide_eq_true_eq] at h
    obtain ⟨⟨⟨⟨hlow, -⟩, hquote⟩, hslash⟩, hrest⟩ := h
    have hplain : ¬ u < 0x20 := fun hlt => Nat.not_le.2 (UInt16.lt_iff_toNat_lt.1 hlt) hlow
    rw [List.cons_append, parseStringBody_plain hplain (fun heq => hquote (heq ▸ rfl)) (fun heq => hslash (heq ▸ rfl)),
      ih hrest]
    rfl

theorem reads_serdeStr (s : List Char) : Written.Reads (serdeStr s) (.str (toUtf16 s)) :=
  .str (Written.readsString_quoteBody _)

theorem reads_serdeCount (n : WireCount) : Written.Reads (serdeCount n) (.num n.number) := by
  have hround : roundRat ((n.val : Int) : Rat) = n.number := by
    rw [roundRat_of_lt n.exact]
    rfl
  exact .num (hround ▸ Written.readsNumber_intText n.val)

theorem reads_serdeList {α : Type} {write : α → Written} {value : α → Json} (h : ∀ a, Written.Reads (write a) (value a))
    (items : List α) : Written.Reads (serdeList write items) (.arr (items.map value)) :=
  .arr (Written.ReadsItems.of_map fun a _ => h a)

/-- A field that is there or not. -/
def optionField {α : Type} (key : String) (value : α → Json) : Option α → List (JsString × Json)
  | none => []
  | some a => [(ascii key, value a)]

theorem reads_serdeOption {α : Type} {key : String} {write : α → Written} {value : α → Json}
    (hkey : unescaped (ascii key) = true) (h : ∀ a, Written.Reads (write a) (value a)) (o : Option α) :
    Written.ReadsFields (serdeOption key write o) (optionField key value o) := by
  cases o with
  | none => exact .nil
  | some a => exact .cons (readsString_unescaped hkey) (h a) .nil

theorem readsFields_append {a b : List (JsString × Written)} {ja jb : List (JsString × Json)}
    (ha : Written.ReadsFields a ja) (hb : Written.ReadsFields b jb) : Written.ReadsFields (a ++ b) (ja ++ jb) := by
  induction a generalizing ja with
  | nil =>
    cases ha
    exact hb
  | cons field a ih =>
    cases ha with
    | cons hk hw hws => exact .cons hk hw (ih hws)

def aliasJson (a : WireAlias (List Char)) : Json :=
  .obj [(ascii "local", .str (toUtf16 a.localName)), (ascii "imported", .str (toUtf16 a.imported))]

theorem reads_serdeAlias (a : WireAlias (List Char)) : Written.Reads (serdeAlias a) (aliasJson a) :=
  .obj (.cons (readsString_unescaped (by decide)) (reads_serdeStr _) (.cons (readsString_unescaped (by decide)) (reads_serdeStr _) .nil))

def strJson (s : List Char) : Json := .str (toUtf16 s)

def listJson {α : Type} (value : α → Json) (items : List α) : Json := .arr (items.map value)

def countJson (n : WireCount) : Json := .num n.number

namespace EmittedRecord

/-- The fields of the object that a record is read as. -/
def fields : EmittedRecord → List (JsString × Json)
  | node n => (ascii "type", .str (ascii "node")) :: [(ascii "file", strJson n.file), (ascii "name", strJson n.name),
      (ascii "kind", strJson n.kind), (ascii "qualified_name", strJson n.qualifiedName),
      (ascii "language", strJson n.language), (ascii "range", listJson countJson [n.range.1, n.range.2]),
      (ascii "ast_hash", strJson n.astHash)]
  | edge e => (ascii "type", .str (ascii "edge")) :: ([(ascii "src_file", strJson e.srcFile),
      (ascii "src_name", strJson e.srcName), (ascii "dst_name", strJson e.dstName), (ascii "kind", strJson e.kind)] ++
      (optionField "receiver" strJson e.receiver ++ (optionField "receiver_chain" (listJson strJson) e.receiverChain ++
      (optionField "local" (listJson strJson) e.localNames ++
      (optionField "import_aliases" (listJson aliasJson) e.importAliases ++
      (optionField "line" countJson e.line ++ optionField "col" countJson e.col))))))
  | change c => (ascii "type", .str (ascii "change")) :: ([(ascii "file", strJson c.file),
      (ascii "kind", .str (ascii (changeKindText c.kind))), (ascii "ts_ms", countJson c.tsMs)] ++
      optionField "from" strJson c.fromPath)
  | overflow o => (ascii "type", .str (ascii "overflow")) :: [(ascii "dropped", countJson o.dropped),
      (ascii "since_ms", countJson o.sinceMs)]

theorem reads_written (r : EmittedRecord) : Written.Reads r.written (.obj r.fields) := by
  have key (k : String) (h : unescaped (ascii k) = true := by decide) : Written.ReadsString (ascii k) (ascii k) :=
    readsString_unescaped h
  have tag (t : String) (h : unescaped (ascii t) = true := by decide) :
      Written.Reads (.str (ascii t)) (.str (ascii t)) := .str (readsString_unescaped h)
  cases r with
  | node n =>
    refine .obj (.cons (key "type") (tag "node") (.cons (key "file") (reads_serdeStr _)
      (.cons (key "name") (reads_serdeStr _) (.cons (key "kind") (reads_serdeStr _)
      (.cons (key "qualified_name") (reads_serdeStr _) (.cons (key "language") (reads_serdeStr _)
      (.cons (key "range") ?_ (.cons (key "ast_hash") (reads_serdeStr _) .nil))))))))
    exact reads_serdeList reads_serdeCount [n.range.1, n.range.2]
  | edge e =>
    refine .obj (.cons (key "type") (tag "edge") (readsFields_append (.cons (key "src_file") (reads_serdeStr _)
      (.cons (key "src_name") (reads_serdeStr _) (.cons (key "dst_name") (reads_serdeStr _)
      (.cons (key "kind") (reads_serdeStr _) .nil)))) ?_))
    refine readsFields_append (reads_serdeOption (by decide) reads_serdeStr _) ?_
    refine readsFields_append (reads_serdeOption (by decide) (reads_serdeList reads_serdeStr) _) ?_
    refine readsFields_append (reads_serdeOption (by decide) (reads_serdeList reads_serdeStr) _) ?_
    refine readsFields_append (reads_serdeOption (by decide) (reads_serdeList reads_serdeAlias) _) ?_
    refine readsFields_append (reads_serdeOption (by decide) reads_serdeCount _) ?_
    exact reads_serdeOption (by decide) reads_serdeCount _
  | change c =>
    have hkind : Written.Reads (.str (ascii (changeKindText c.kind))) (.str (ascii (changeKindText c.kind))) := by
      cases c.kind <;> exact tag _
    refine .obj (.cons (key "type") (tag "change") (readsFields_append (.cons (key "file") (reads_serdeStr _)
      (.cons (key "kind") hkind (.cons (key "ts_ms") (reads_serdeCount _) .nil))) ?_))
    exact reads_serdeOption (by decide) reads_serdeStr _
  | overflow o =>
    exact .obj (.cons (key "type") (tag "overflow") (.cons (key "dropped") (reads_serdeCount _)
      (.cons (key "since_ms") (reads_serdeCount _) .nil)))

end EmittedRecord

/-! ## Validation of a record that was written -/

@[simp] theorem field_nil (key : String) : (Json.obj []).field key = none := rfl

@[simp] theorem field_cons (key : String) (k : JsString) (j : Json) (rest : List (JsString × Json)) :
    (Json.obj ((k, j) :: rest)).field key = ((Json.obj rest).field key).or (if k = ascii key then some j else none) := by
  unfold Json.field
  dsimp only
  rw [List.reverse_cons, List.find?_append]
  cases rest.reverse.find? fun p => p.1 = ascii key with
  | some p => rfl
  | none =>
    rw [Option.none_or, Option.map_none, Option.none_or, List.find?_singleton]
    split
    · rename_i h
      rw [if_pos (of_decide_eq_true h)]
      rfl
    · rename_i h
      rw [if_neg fun heq => h (decide_eq_true heq)]
      rfl

@[simp] theorem field_append (key : String) (a b : List (JsString × Json)) :
    (Json.obj (a ++ b)).field key = ((Json.obj b).field key).or ((Json.obj a).field key) := by
  induction a with
  | nil => rw [List.nil_append, field_nil, Option.or_none]
  | cons p a ih =>
    obtain ⟨k, j⟩ := p
    rw [List.cons_append, field_cons, ih, field_cons, Option.or_assoc]

@[simp] theorem field_option {α : Type} (key k : String) (value : α → Json) (o : Option α) :
    (Json.obj (optionField k value o)).field key = if ascii k = ascii key then o.map value else none := by
  cases o with
  | none => simp [optionField, field_nil]
  | some a =>
    rw [optionField, field_cons, field_nil, Option.none_or]
    rfl

theorem everyString_map (items : List (List Char)) : everyString (items.map strJson) = some (items.map toUtf16) := by
  have hall : (items.map strJson).all (fun j => (string? (some j)).isSome) = true := by
    rw [List.all_map]
    exact List.all_eq_true.2 fun s _ => rfl
  unfold everyString
  rw [if_pos hall, List.filterMap_map]
  exact congrArg some (congrFun List.filterMap_eq_map items)

theorem filterMap_alias (aliases : List (WireAlias (List Char))) :
    (aliases.map aliasJson).filterMap alias? = aliases.map (WireAlias.map toUtf16) := by
  have halias (a : WireAlias (List Char)) : alias? (aliasJson a) = some (a.map toUtf16) := by
    have hlocal : (aliasJson a).field "local" = some (.str (toUtf16 a.localName)) := by
      simp +decide [aliasJson, field_cons, field_nil]
    have himported : (aliasJson a).field "imported" = some (.str (toUtf16 a.imported)) := by
      simp +decide [aliasJson, field_cons, field_nil]
    rw [alias?, hlocal, himported]
    rfl
  rw [List.filterMap_map]
  exact (List.filterMap_congr fun a _ => halias a).trans (congrFun List.filterMap_eq_map aliases)

theorem string?_option (o : Option (List Char)) : string? (o.map strJson) = o.map toUtf16 := by
  cases o <;> rfl

theorem finite?_option (o : Option WireCount) : finite? (o.map countJson) = o.map WireCount.number := by
  cases o <;> rfl

/-- A chain that is not empty is kept. -/
theorem chain_option {o : Option (List (List Char))} (h : o ≠ some []) :
    ((items? (o.map (listJson strJson))).bind everyString).filter (fun chain => !chain.isEmpty) =
      o.map (List.map toUtf16) := by
  cases o with
  | none => rfl
  | some chain =>
    change (everyString (chain.map strJson)).filter (fun chain => !chain.isEmpty) = some (chain.map toUtf16)
    rw [everyString_map, Option.filter_some, if_pos]
    cases chain with
    | nil => exact absurd rfl h
    | cons s chain => rfl

theorem local_option (o : Option (List (List Char))) :
    (items? (o.map (listJson strJson))).map (fun items => items.filterMap fun j => string? (some j)) =
      o.map (List.map toUtf16) := by
  cases o with
  | none => rfl
  | some names =>
    change some ((names.map strJson).filterMap fun j => string? (some j)) = some (names.map toUtf16)
    rw [List.filterMap_map]
    exact congrArg some (congrFun List.filterMap_eq_map names)

theorem aliases_option {o : Option (List (WireAlias (List Char)))} (h : o ≠ some []) :
    ((items? (o.map (listJson aliasJson))).map fun items => items.filterMap alias?).filter
      (fun aliases => !aliases.isEmpty) = o.map (List.map (WireAlias.map toUtf16)) := by
  cases o with
  | none => rfl
  | some aliases =>
    change (some ((aliases.map aliasJson).filterMap alias?)).filter (fun aliases => !aliases.isEmpty) = _
    rw [filterMap_alias, Option.filter_some, if_pos]
    · rfl
    · cases aliases with
      | nil => exact absurd rfl h
      | cons a aliases => rfl

theorem changeKind?_text (kind : ChangeKind) : changeKind? (ascii (changeKindText kind)) = some kind := by
  cases kind <;> decide

theorem validateNode_fields (line : JsString) (n : WireNode (List Char) WireCount) :
    validateNode line (.obj (EmittedRecord.node n).fields) = .ok (n.map toUtf16 WireCount.number) := by
  unfold EmittedRecord.fields validateNode
  simp +decide only [field_cons, field_nil, if_true, if_false, Option.or_none, Option.or_some]
  rfl

theorem validateEdge_fields (line : JsString) (e : EmittedEdge) :
    validateEdge line (.obj (EmittedRecord.edge e).fields) = .ok (e.toWireEdge.map toUtf16 WireCount.number) := by
  have hreceiver : (Json.obj (EmittedRecord.edge e).fields).field "receiver" = e.receiver.map strJson := by
    simp +decide [EmittedRecord.fields]
  have hchain : (Json.obj (EmittedRecord.edge e).fields).field "receiver_chain" = e.receiverChain.map (listJson strJson) := by
    simp +decide [EmittedRecord.fields]
  have hlocal : (Json.obj (EmittedRecord.edge e).fields).field "local" = e.localNames.map (listJson strJson) := by
    simp +decide [EmittedRecord.fields]
  have haliases : (Json.obj (EmittedRecord.edge e).fields).field "import_aliases" =
      e.importAliases.map (listJson aliasJson) := by
    simp +decide [EmittedRecord.fields]
  have hline : (Json.obj (EmittedRecord.edge e).fields).field "line" = e.line.map countJson := by
    simp +decide [EmittedRecord.fields]
  have hcol : (Json.obj (EmittedRecord.edge e).fields).field "col" = e.col.map countJson := by
    simp +decide [EmittedRecord.fields]
  unfold validateEdge
  rw [hreceiver, hchain, hlocal, haliases, hline, hcol, string?_option, chain_option e.chain_ne, local_option,
    aliases_option e.aliases_ne, finite?_option, finite?_option]
  unfold EmittedRecord.fields
  simp +decide only [field_cons, field_nil, field_append, field_option, if_true, if_false, Option.or_none,
    Option.or_some]
  rfl

theorem validateChange_fields (line : JsString) (c : WireChange (List Char) WireCount) :
    validateChange line (.obj (EmittedRecord.change c).fields) = .ok (c.map toUtf16 WireCount.number) := by
  have hfrom : (Json.obj (EmittedRecord.change c).fields).field "from" = c.fromPath.map strJson := by
    simp +decide [EmittedRecord.fields]
  have hkind : (Json.obj (EmittedRecord.change c).fields).field "kind" = some (.str (ascii (changeKindText c.kind))) := by
    simp +decide [EmittedRecord.fields]
  unfold validateChange
  rw [hfrom, hkind, string?_option]
  unfold EmittedRecord.fields
  simp +decide only [field_cons, field_nil, field_append, field_option, if_true, if_false, Option.or_none,
    Option.or_some]
  have hread : asString line "change.kind" (some (.str (ascii (changeKindText c.kind)))) =
      .ok (ascii (changeKindText c.kind)) := rfl
  rw [hread]
  dsimp only [bind, Except.bind]
  rw [changeKind?_text]
  rfl

/-- The type of a record decides what is made of its fields. -/
theorem validateRecord_fields (line : JsString) (rt : NumberText) (r : EmittedRecord) :
    validateRecord line rt (.obj r.fields) = .ok r.received := by
  have htype : ∀ (type : String) (rest : List (JsString × Json)), (Json.obj rest).field "type" = none →
      (Json.obj ((ascii "type", .str (ascii type)) :: rest)).field "type" = some (.str (ascii type)) := by
    intro type rest hnone
    rw [field_cons, hnone, Option.none_or, if_pos rfl]
  unfold validateRecord
  rw [if_neg (by simp [Json.isObject])]
  dsimp only
  cases r with
  | node n =>
    rw [show (Json.obj (EmittedRecord.node n).fields).field "type" = some (.str (ascii "node")) from htype _ _ rfl]
    change NativeRecord.node <$> validateNode line _ = _
    rw [validateNode_fields]
    rfl
  | edge e =>
    have hnone : (Json.obj (EmittedRecord.edge e).fields.tail).field "type" = none := by
      change (Json.obj ([_, _, _, _] ++ _)).field "type" = none
      simp +decide only [field_cons, field_nil, field_append, field_option, if_false, Option.or_none]
    rw [show (Json.obj (EmittedRecord.edge e).fields).field "type" = some (.str (ascii "edge")) from htype _ _ hnone]
    change NativeRecord.edge <$> validateEdge line _ = _
    rw [validateEdge_fields]
    rfl
  | change c =>
    have hnone : (Json.obj (EmittedRecord.change c).fields.tail).field "type" = none := by
      change (Json.obj ([_, _, _] ++ _)).field "type" = none
      simp +decide only [field_cons, field_nil, field_append, field_option, if_false, Option.or_none]
    rw [show (Json.obj (EmittedRecord.change c).fields).field "type" = some (.str (ascii "change")) from htype _ _ hnone]
    change NativeRecord.change <$> validateChange line _ = _
    rw [validateChange_fields]
    rfl
  | overflow o =>
    rw [show (Json.obj (EmittedRecord.overflow o).fields).field "type" = some (.str (ascii "overflow")) from htype _ _ rfl]
    rfl

end Hayven.Native
