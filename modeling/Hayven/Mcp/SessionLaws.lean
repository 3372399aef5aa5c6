import Hayven.Mcp.ContextServer
import Hayven.Db.ContextPackLaws
import Hayven.Lib.DecimalText
/-!
# What a session of the context server answers

However its input is cut into chunks, a session is that of the lines one after another, each over
the limit refused once. Every request is answered under its own id and in order, until the first
line that holds `null`; and the packers are called within their bounds only.
-/
open Hayven.Lib Hayven.Db.Pack Hayven.Graph

namespace Hayven.Mcp

namespace Output

@[simp] theorem andThen_start (a : Output) : andThen a ([], true) = a := by
  obtain ⟨written, going⟩ := a
  cases going <;> simp [andThen]

theorem andThen_assoc (a b c : Output) : andThen (andThen a b) c = andThen a (andThen b c) := by
  obtain ⟨written, going⟩ := a
  obtain ⟨written', going'⟩ := b
  cases going <;> cases going' <;> simp [andThen]

end Output

/-! ## Line by line -/

/-- What a line is answered; one over the limit is refused. -/
def answerLine (s : ContextMcpServer) (line : JsString) : Output :=
  if MAX_PENDING_LINE_CHARS < line.length then ([tooLong s.runtime], true) else outputOf (processLine s line)

def answerAll (s : ContextMcpServer) : List JsString → Output
  | [] => ([], true)
  | line :: lines => (answerLine s line).andThen (answerAll s lines)

/-- The lines of a text, the last being what no line feed ends. -/
def linesOf (text : JsString) : List JsString := (rawLines text).1 ++ [(rawLines text).2]

/-- What the chunks say. -/
def textOf (d : StreamDecoder) : List Chunk → JsString
  | [] => []
  | chunk :: chunks => (decodeChunk d chunk).1 ++ textOf (decodeChunk d chunk).2 chunks

theorem textOf_bytes (d : StreamDecoder) (pieces : List Bytes) :
    textOf d (pieces.map .bytes) = (d.feed pieces.flatten).1 := by
  induction pieces generalizing d with
  | nil => rw [List.flatten_nil, StreamDecoder.feed_nil]; rfl
  | cons piece pieces ih =>
    rw [List.flatten_cons, StreamDecoder.feed_append, List.map_cons, textOf, ih]
    rfl

theorem answerAll_append (s : ContextMcpServer) (a b : List JsString) :
    answerAll s (a ++ b) = (answerAll s a).andThen (answerAll s b) := by
  induction a with
  | nil => rfl
  | cons line a ih => rw [List.cons_append, answerAll, ih, answerAll, Output.andThen_assoc]

theorem linesOf_append (a b : JsString) :
    linesOf (a ++ b) = (rawLines a).1 ++ linesOf ((rawLines a).2 ++ b) := by
  unfold linesOf
  rw [rawLines_append, List.append_assoc]

theorem not_mem_rawLines_snd (text : JsString) : lineFeed ∉ (rawLines text).2 := by
  induction text with
  | nil => exact List.not_mem_nil
  | cons u text ih =>
    rw [rawLines]
    by_cases hu : u = lineFeed
    · rwa [if_pos hu]
    · rw [if_neg hu]
      cases hcut : rawLines text with
      | mk lines last =>
        rw [hcut] at ih
        cases lines with
        | nil =>
          simp only [consUnit, List.mem_cons, not_or]
          exact ⟨fun h => hu h.symm, ih⟩
        | cons line lines => exact ih

/-- A part of a line goes before the first line of what follows. -/
theorem rawLines_part {part : JsString} (h : lineFeed ∉ part) (text : JsString) :
    rawLines (part ++ text) = match rawLines text with
      | ([], last) => ([], part ++ last)
      | (line :: lines, last) => ((part ++ line) :: lines, last) := by
  induction part with
  | nil => cases hcut : rawLines text with | mk lines last => cases lines <;> simp [hcut]
  | cons u part ih =>
    rw [List.mem_cons, not_or] at h
    rw [List.cons_append, rawLines, if_neg fun heq => h.1 heq.symm, ih h.2]
    cases rawLines text with
    | mk lines last => cases lines <;> rfl

/-! ## The loop -/

/-- The loop in the middle of a line: it has the part that came, or has refused it. -/
inductive Holds : Loop → JsString → Prop where
  | kept {d : StreamDecoder} (pieces : List JsString) (hline : lineFeed ∉ pieces.flatten)
      (hfits : pieces.flatten.length ≤ MAX_PENDING_LINE_CHARS) :
      Holds ⟨d, pieces, pieces.flatten.length, false⟩ pieces.flatten
  | refused {d : StreamDecoder} {part : JsString} (hline : lineFeed ∉ part)
      (hover : MAX_PENDING_LINE_CHARS < part.length) : Holds ⟨d, [], 0, true⟩ part

/-- What is already written of the answer to the line under way. -/
def already (s : ContextMcpServer) (loop : Loop) : Output :=
  if loop.skipping then ([tooLong s.runtime], true) else ([], true)

theorem answerLine_of_over {s : ContextMcpServer} {line : JsString} (h : MAX_PENDING_LINE_CHARS < line.length) :
    answerLine s line = ([tooLong s.runtime], true) := if_pos h

theorem drain_empty (s : ContextMcpServer) (d : StreamDecoder) (pieces : List JsString) :
    drain s ⟨d, [], 0, false⟩ pieces = (answerAll s pieces, ⟨d, [], 0, false⟩) := by
  induction pieces with
  | nil => rfl
  | cons piece pieces ih => simp only [drain, ih, answerAll, answerLine, Nat.zero_add, if_true]

/-- The first piece ends the line under way. -/
theorem drain_cons (s : ContextMcpServer) (d : StreamDecoder) (parts : List JsString) (piece : JsString)
    (pieces : List JsString) : drain s ⟨d, parts, parts.flatten.length, false⟩ (piece :: pieces) =
      (answerAll s ((parts.flatten ++ piece) :: pieces), ⟨d, [], 0, false⟩) := by
  have hline : (if parts.flatten.length = 0 then piece else parts.flatten ++ piece) = parts.flatten ++ piece := by
    split
    · next h => rw [List.eq_nil_of_length_eq_zero h, List.nil_append]
    · rfl
  simp only [drain, drain_empty, hline, answerAll, answerLine, List.length_append]

theorem hold_spec (s : ContextMcpServer) (d : StreamDecoder) (parts : List JsString) {last : JsString}
    (hline : lineFeed ∉ parts.flatten ++ last) (hfits : parts.flatten.length ≤ MAX_PENDING_LINE_CHARS) :
    let held := hold s ⟨d, parts, parts.flatten.length, false⟩ last
    held.1 = already s held.2 ∧ Holds held.2 (parts.flatten ++ last) ∧ held.2.decoder = d := by
  unfold hold
  rw [← List.length_append]
  split
  · next hover => exact ⟨rfl, .refused hline hover, rfl⟩
  · next hover =>
    split
    · have hflat : (parts ++ [last]).flatten = parts.flatten ++ last := by simp
      refine ⟨rfl, ?_, rfl⟩
      dsimp only
      rw [← hflat] at hline hover ⊢
      exact .kept _ hline (Nat.le_of_not_lt hover)
    · next hempty =>
      rw [List.eq_nil_of_length_eq_zero (Nat.le_zero.1 (Nat.le_of_not_lt hempty)), List.append_nil] at hline ⊢
      exact ⟨rfl, .kept _ hline hfits, rfl⟩

/-- A text outside an over-long line: the lines that it ends are answered, and its rest is held. -/
theorem takeText_spec (s : ContextMcpServer) (d : StreamDecoder) (parts : List JsString)
    (hline : lineFeed ∉ parts.flatten) (hfits : parts.flatten.length ≤ MAX_PENDING_LINE_CHARS) (text : JsString) :
    let taken := takeText s ⟨d, parts, parts.flatten.length, false⟩ text
    let cut := rawLines (parts.flatten ++ text)
    taken.1 = (answerAll s cut.1).andThen (already s taken.2) ∧ Holds taken.2 cut.2 ∧ taken.2.decoder = d := by
  have hlast := not_mem_rawLines_snd text
  unfold takeText
  rw [rawLines_part hline]
  cases hcut : rawLines text with
  | mk lines last =>
    rw [hcut] at hlast
    cases lines with
    | nil =>
      have hrest : lineFeed ∉ parts.flatten ++ last := fun h => (List.mem_append.1 h).elim hline hlast
      exact hold_spec s d parts hrest hfits
    | cons line lines =>
      obtain ⟨hwritten, hholds, hdecoder⟩ := hold_spec s d [] hlast (Nat.zero_le _)
      simp only [drain_cons]
      exact ⟨congrArg (Output.andThen _) hwritten, hholds, hdecoder⟩

theorem afterLineFeed_eq_none {text : JsString} (h : afterLineFeed text = none) : lineFeed ∉ text := by
  unfold afterLineFeed at h
  intro hmem
  have hall : text.dropWhile (fun u => decide (u ≠ lineFeed)) = [] := by
    cases hdrop : text.dropWhile (fun u => decide (u ≠ lineFeed)) with
    | nil => rfl
    | cons u rest => rw [hdrop] at h; cases h
  have hne := List.dropWhile_eq_nil_iff.1 hall _ hmem
  simp at hne

theorem exists_of_afterLineFeed {text rest : JsString} (h : afterLineFeed text = some rest) :
    ∃ line, lineFeed ∉ line ∧ text = line ++ lineFeed :: rest := by
  unfold afterLineFeed at h
  refine ⟨text.takeWhile (fun u => decide (u ≠ lineFeed)), fun hmem => ?_, ?_⟩
  · simpa using List.mem_takeWhile_imp hmem
  · cases hdrop : text.dropWhile (fun u => decide (u ≠ lineFeed)) with
    | nil => rw [hdrop] at h; cases h
    | cons u rest' =>
      rw [hdrop] at h
      obtain rfl : rest' = rest := Option.some.inj h
      have hu : u = lineFeed := by
        have hhead := List.head?_dropWhile_not (fun u => decide (u ≠ lineFeed)) text
        rw [hdrop] at hhead
        simpa using hhead
      have hsplit : text.takeWhile (fun u => decide (u ≠ lineFeed)) ++ text.dropWhile (fun u => decide (u ≠ lineFeed)) =
          text := List.takeWhile_append_dropWhile
      rw [hdrop, hu] at hsplit
      exact hsplit.symm

/-- One chunk: with what was already written, the answers to the lines that are now ended. -/
theorem takeChunk_spec (s : ContextMcpServer) {loop : Loop} {part : JsString} (h : Holds loop part) (chunk : Chunk) :
    let taken := takeChunk s loop chunk
    let cut := rawLines (part ++ (decodeChunk loop.decoder chunk).1)
    (already s loop).andThen taken.1 = (answerAll s cut.1).andThen (already s taken.2) ∧ Holds taken.2 cut.2 ∧
      taken.2.decoder = (decodeChunk loop.decoder chunk).2 := by
  cases h with
  | kept _ hline hfits => exact takeText_spec s _ _ hline hfits _
  | @refused d part hline hover =>
    unfold takeChunk
    dsimp only
    rw [if_pos rfl]
    cases hafter : afterLineFeed (decodeChunk d chunk).1 with
    | none =>
      have hrest : lineFeed ∉ part ++ (decodeChunk d chunk).1 := fun h =>
        (List.mem_append.1 h).elim hline (afterLineFeed_eq_none hafter)
      rw [rawLines_of_not_mem hrest]
      refine ⟨rfl, .refused hrest ?_, rfl⟩
      rw [List.length_append]
      exact Nat.lt_of_lt_of_le hover (Nat.le_add_right _ _)
    | some rest =>
      obtain ⟨line, hfree, htext⟩ := exists_of_afterLineFeed hafter
      have hend : lineFeed ∉ part ++ line := fun h => (List.mem_append.1 h).elim hline hfree
      obtain ⟨hwritten, hholds, hdecoder⟩ :=
        takeText_spec s (decodeChunk d chunk).2 [] List.not_mem_nil (Nat.zero_le _) rest
      rw [htext, ← List.append_assoc, rawLines_line hend]
      refine ⟨?_, hholds, hdecoder⟩
      -- the refusal was written when the line went over the limit
      have hanswer : answerLine s (part ++ line) = already s ⟨d, [], 0, true⟩ := by
        apply answerLine_of_over
        rw [List.length_append]
        exact Nat.lt_of_lt_of_le hover (Nat.le_add_right _ _)
      rw [answerAll, hanswer, Output.andThen_assoc]
      exact congrArg _ hwritten

theorem run_spec (s : ContextMcpServer) {loop : Loop} {part : JsString} (h : Holds loop part) (chunks : List Chunk) :
    (already s loop).andThen (run s loop chunks) = answerAll s (linesOf (part ++ textOf loop.decoder chunks)) := by
  induction chunks generalizing loop part with
  | nil =>
    rw [textOf, List.append_nil, linesOf]
    cases h with
    | kept pieces hline hfits =>
      rw [rawLines_of_not_mem hline]
      simp only [List.nil_append, answerAll, Output.andThen_start, answerLine, if_neg (Nat.not_lt.2 hfits)]
      unfold run
      cases hempty : pieces.flatten with
      | nil => rfl
      | cons u rest => rfl
    | refused hline hover =>
      rw [rawLines_of_not_mem hline]
      show _ = (answerLine s part).andThen _
      rw [answerLine_of_over hover]
      rfl
  | cons chunk chunks ih =>
    obtain ⟨hwritten, hholds, hdecoder⟩ := takeChunk_spec s h chunk
    rw [run, ← Output.andThen_assoc, hwritten, Output.andThen_assoc, ih hholds, hdecoder, textOf, ← List.append_assoc]
    rw [linesOf_append (part ++ _), answerAll_append]

theorem runStdioLoop_eq (s : ContextMcpServer) (input : List Chunk) :
    runStdioLoop s input = answerAll s (linesOf (textOf .fresh input)) :=
  run_spec s (.kept [] List.not_mem_nil (Nat.zero_le _)) input

/-- A session is that of its lines, whatever the chunks: of the text that they say, and where they
are bytes of the text that the bytes together say. -/
theorem session_by_lines (s : ContextMcpServer) :
    (∀ input, runStdioLoop s input = answerAll s (linesOf (textOf .fresh input))) ∧
      ∀ pieces : List Bytes, runStdioLoop s (pieces.map .bytes) =
        answerAll s (linesOf (StreamDecoder.fresh.feed pieces.flatten).1) := by
  refine ⟨runStdioLoop_eq s, fun pieces => ?_⟩
  rw [runStdioLoop_eq, textOf_bytes]

/-! ## Replies -/

/-- The id under which a value is answered; none where it is not. The methods of the handshake are
answered without one, too. -/
def replyId (req : Json) : Option Json :=
  if req.strField "jsonrpc" = some (ascii "2.0") then
    match req.strField "method" with
    | none => req.field "id"
    | some method =>
      if method ∈ [ascii "initialize", ascii "tools/list", ascii "ping"] then some ((req.field "id").getD .null)
      else if method ∈ [ascii "notifications/initialized", ascii "initialized"] then none
      else req.field "id"
  else req.field "id"

/-- The same of a line: what is no JSON, and what is over the limit, is answered under `null`. -/
def lineId (line : JsString) : Option Json :=
  if MAX_PENDING_LINE_CHARS < line.length then some .null
  else if trim line = [] then none
  else match parseJson (trim line) with
    | none => some .null
    | some req => replyId req

def holdsNull (line : JsString) : Bool :=
  line.length ≤ MAX_PENDING_LINE_CHARS && (parseJson (trim line)).any Json.isNull

/-- A response under an id, with a result or an error. -/
inductive Answers (rt : Runtime) (id : Json) : JsString → Prop where
  | result (value : Json) : Answers rt id (writeLine rt (response (some id) "result" value))
  | error (value : Json) : Answers rt id (writeLine rt (response (some id) "error" value))

/-- A response as `handle` makes it, or none. -/
inductive Replies : Option Json → Option Json → Prop where
  | silent : Replies none none
  | result (id : Option Json) (value : Json) : Replies (some (id.getD .null)) (some (response id "result" value))
  | error (id : Option Json) (value : Json) : Replies (some (id.getD .null)) (some (response id "error" value))

theorem field_id_response (id : Option Json) {outcome : String} (h : ascii outcome ≠ ascii "id") (value : Json) :
    (response id outcome value).field "id" = some (id.getD .null) := by
  simp [response, object, Json.field, h]

/-- `emit` writes a response as it is, or an error under the same id. -/
theorem answers_emit_response {rt : Runtime} {id : Option Json} {outcome : String} (h : ascii outcome ≠ ascii "id")
    {value : Json} (hplain : Answers rt (id.getD .null) (writeLine rt (response (some (id.getD .null)) outcome value))) :
    Answers rt (id.getD .null) (emit rt (response id outcome value)) := by
  simp only [emit, field_id_response id h]
  split
  · exact .error _
  · split
    · exact .error _
    · exact hplain

theorem answers_emit (rt : Runtime) {id : Option Json} {resp : Json} (h : Replies id (some resp)) :
    ∃ i, id = some i ∧ Answers rt i (emit rt resp) := by
  cases h with
  | result i value => exact ⟨_, rfl, answers_emit_response (by decide) (.result value)⟩
  | error i value => exact ⟨_, rfl, answers_emit_response (by decide) (.error value)⟩

theorem answerTool_replies {α : Type} {rt : Runtime} {tool : Tool} {id args : Json} {read : Except JsString α}
    {pack : α → Except JsString (Option StableContextResult)} {unresolved : α → JsString} {resp : Json}
    (h : answerTool rt tool (some id) args read pack unresolved = .ok resp) : Replies (some id) (some resp) := by
  unfold answerTool at h
  cases hrefused : rejectUnknownArgs rt tool args with
  | some message =>
    rw [hrefused] at h
    obtain rfl := Except.ok.inj h
    exact .error (some id) _
  | none =>
    rw [hrefused] at h
    cases read with
    | error message =>
      obtain rfl := Except.ok.inj h
      exact .error (some id) _
    | ok a =>
      dsimp only at h
      cases hpack : pack a with
      | error message => rw [hpack] at h; cases h
      | ok result =>
        rw [hpack] at h
        cases result with
        | none =>
          obtain rfl := Except.ok.inj h
          exact .result (some id) _
        | some result =>
          obtain rfl := Except.ok.inj h
          exact .result (some id) _

theorem callTool_replies {s : ContextMcpServer} {id : Json} {params : Option Json} {resp : Json}
    (h : callTool s (some id) params = .ok resp) : Replies (some id) (some resp) := by
  unfold callTool at h
  split at h
  · obtain rfl := Except.ok.inj h
    exact .error (some id) _
  · next params _ =>
    split at h
    · split at h
      · exact answerTool_replies h
      · exact answerTool_replies h
    · cases hname : nameText s.runtime (params.field "name") with
      | error message => rw [hname] at h; cases h
      | ok name =>
        rw [hname] at h
        obtain rfl := Except.ok.inj h
        exact .error (some id) _

/-- The dispatcher's answer is under the id that it is due; and where it throws there is an id. -/
theorem dispatch_replies (s : ContextMcpServer) (req : Json) :
    (∃ resp, dispatch s req = .ok resp ∧ Replies (replyId req) resp) ∨
      ∃ message id, dispatch s req = .error message ∧ req.field "id" = some id ∧ replyId req = some id := by
  -- a request without an id is not answered
  have hwithout : ∀ value, (∃ resp, (if (req.field "id").isNone then (.ok none : Except JsString (Option Json))
      else .ok (some (response (req.field "id") "error" value))) = .ok resp ∧ Replies (req.field "id") resp) := by
    intro value
    cases req.field "id" with
    | none => exact ⟨none, rfl, .silent⟩
    | some id => exact ⟨_, rfl, .error (some id) value⟩
  unfold dispatch replyId
  by_cases hversion : req.strField "jsonrpc" = some (ascii "2.0")
  · rw [hversion, if_pos rfl]
    simp only [Option.filter_some, decide_true, if_true]
    cases req.strField "method" with
    | none => exact .inl (hwithout _)
    | some method =>
      simp only [List.mem_cons, List.not_mem_nil, or_false]
      by_cases hinit : method = ascii "initialize"
      · exact .inl ⟨_, if_pos hinit, by rw [if_pos (.inl hinit)]; exact .result _ _⟩
      rw [if_neg hinit]
      by_cases hack : method = ascii "notifications/initialized" ∨ method = ascii "initialized"
      · refine .inl ⟨none, if_pos hack, ?_⟩
        rw [if_neg, if_pos hack]
        · exact .silent
        · rcases hack with rfl | rfl <;> decide
      rw [if_neg hack]
      by_cases hlist : method = ascii "tools/list"
      · exact .inl ⟨_, if_pos hlist, by rw [if_pos (.inr (.inl hlist))]; exact .result _ _⟩
      rw [if_neg hlist]
      by_cases hcall : method = ascii "tools/call"
      · have hdue : ¬ (method = ascii "initialize" ∨ method = ascii "tools/list" ∨ method = ascii "ping") := by
          rw [hcall]
          decide
        rw [if_pos hcall, if_neg hdue, if_neg hack]
        cases hid : req.field "id" with
        | none => exact .inl ⟨none, rfl, .silent⟩
        | some id =>
          cases hresp : callTool s (some id) (req.field "params") with
          | error message => exact .inr ⟨message, id, rfl, rfl, rfl⟩
          | ok resp => exact .inl ⟨some resp, rfl, callTool_replies hresp⟩
      rw [if_neg hcall]
      by_cases hping : method = ascii "ping"
      · exact .inl ⟨_, if_pos hping, by rw [if_pos (.inr (.inr hping))]; exact .result _ _⟩
      have hdue : ¬ (method = ascii "initialize" ∨ method = ascii "tools/list" ∨ method = ascii "ping") := fun h =>
        h.elim hinit fun h => h.elim hlist hping
      rw [if_neg hping, if_neg hdue, if_neg hack]
      exact .inl (hwithout _)
  · have hnone : (req.strField "jsonrpc").filter (fun v => decide (v = ascii "2.0")) = none := by
      cases hfield : req.strField "jsonrpc" with
      | none => rfl
      | some v =>
        rw [hfield] at hversion
        exact Option.filter_eq_none_iff.2 fun a ha => by
          obtain rfl := Option.mem_some.1 ha
          simpa using fun heq => hversion (congrArg some heq)
    rw [hnone, if_neg hversion]
    exact .inl (hwithout _)

theorem handle_replies (s : ContextMcpServer) {req : Json} (h : req ≠ .null) :
    ∃ resp, handle s req = some resp ∧ Replies (replyId req) resp := by
  rcases dispatch_replies s req with ⟨resp, hdispatch, hreplies⟩ | ⟨message, id, hdispatch, hid, hreply⟩
  · refine ⟨resp, ?_, hreplies⟩
    cases req with
    | null => exact absurd rfl h
    | _ => simp only [handle, hdispatch]
  · refine ⟨some (fail (some id) ERR_INTERNAL (ascii "internal error: " ++ message)), ?_, ?_⟩
    · cases req with
      | null => exact absurd rfl h
      | _ => simp only [handle, hdispatch, hid, Option.isNone_some, Bool.false_eq_true, if_false]
    · rw [hreply]
      exact .error (some id) _

/-- A line ends the session if it holds `null`, and else is answered under the id that it is due. -/
theorem answerLine_replies (s : ContextMcpServer) (line : JsString) :
    (holdsNull line = true ∧ answerLine s line = ([], false)) ∨
      (holdsNull line = false ∧ ∃ written, answerLine s line = (written, true) ∧
        List.Forall₂ (Answers s.runtime) (lineId line).toList written) := by
  have hunder : ∀ code message, List.Forall₂ (Answers s.runtime) [.null] [emit s.runtime (fail none code message)] := by
    intro code message
    obtain ⟨i, hi, hanswers⟩ := answers_emit s.runtime (.error none (object [("code", number code), ("message", .str message)]))
    obtain rfl := Option.some.inj hi
    exact .cons hanswers .nil
  unfold answerLine lineId
  by_cases hover : MAX_PENDING_LINE_CHARS < line.length
  · rw [if_pos hover, if_pos hover]
    exact .inr ⟨by simp [holdsNull, Nat.not_le.2 hover], _, rfl, hunder _ _⟩
  have hnull : holdsNull line = (parseJson (trim line)).any Json.isNull := by simp [holdsNull, Nat.not_lt.1 hover]
  rw [if_neg hover, if_neg hover, processLine, hnull]
  by_cases hblank : trim line = []
  · rw [if_pos hblank, if_pos hblank]
    exact .inr ⟨by rw [hblank]; rfl, _, rfl, .nil⟩
  rw [if_neg hblank, if_neg hblank]
  cases hparse : parseJson (trim line) with
  | none => exact .inr ⟨rfl, _, rfl, hunder _ _⟩
  | some req =>
    by_cases hreq : req = .null
    · subst hreq
      exact .inl ⟨rfl, rfl⟩
    · obtain ⟨resp, hhandle, hreplies⟩ := handle_replies s hreq
      have hvalue : req.isNull = false := by cases req <;> first | rfl | exact absurd rfl hreq
      have hwritten : outputOf ((handle s req).map fun resp => (resp.map (emit s.runtime)).toList) =
          ((resp.map (emit s.runtime)).toList, true) := by
        rw [hhandle]
        rfl
      refine .inr ⟨hvalue, _, hwritten, ?_⟩
      cases resp with
      | none =>
        dsimp only
        cases hid : replyId req with
        | none => exact .nil
        | some i => rw [hid] at hreplies; cases hreplies
      | some resp =>
        obtain ⟨i, hi, hanswers⟩ := answers_emit s.runtime hreplies
        dsimp only
        rw [hi]
        exact .cons hanswers .nil

/-- The ids under which lines are due a response, up to the first line that holds `null`. -/
def dueIds (lines : List JsString) : List Json := (lines.takeWhile fun line => !holdsNull line).filterMap lineId

theorem answerAll_replies (s : ContextMcpServer) (lines : List JsString) :
    List.Forall₂ (Answers s.runtime) (dueIds lines) (answerAll s lines).1 ∧
      ((answerAll s lines).2 = true ↔ ∀ line ∈ lines, holdsNull line = false) := by
  unfold dueIds
  induction lines with
  | nil => exact ⟨.nil, by simp [answerAll]⟩
  | cons line lines ih =>
    rw [answerAll, List.takeWhile_cons, List.forall_mem_cons]
    rcases answerLine_replies s line with ⟨hnull, hanswer⟩ | ⟨hfree, written, hanswer, hwritten⟩
    · rw [hanswer]
      simp only [hnull, Bool.not_true, Bool.true_eq_false, false_and, iff_false]
      exact ⟨.nil, by simp [Output.andThen]⟩
    · rw [hanswer]
      simp only [hfree, Bool.not_false, if_true, true_and]
      have hfirst : (line :: lines.takeWhile fun line => !holdsNull line).filterMap lineId =
          (lineId line).toList ++ (lines.takeWhile fun line => !holdsNull line).filterMap lineId := by
        rw [List.filterMap_cons]
        cases lineId line <;> rfl
      rw [hfirst]
      exact ⟨List.rel_append hwritten ih.1, ih.2⟩

/-- A session writes one response for each line that is due one, under its id and in their order,
up to the first line that holds `null`; there, and only there, it ends by an exception. -/
theorem session_replies (s : ContextMcpServer) (input : List Chunk) :
    List.Forall₂ (Answers s.runtime) (dueIds (linesOf (textOf .fresh input))) (runStdioLoop s input).1 ∧
      ((runStdioLoop s input).2 = true ↔ ∀ line ∈ linesOf (textOf .fresh input), holdsNull line = false) := by
  rw [runStdioLoop_eq]
  exact answerAll_replies s _

/-! ## The responses as lines -/

theorem lineFeed_not_mem_quote (s : JsString) : lineFeed ∉ quote s := fun h => absurd (units_quote s _ h) (by decide)

variable {rt : NumberText}

mutual
theorem lineFeed_not_mem_stringify (h : ∀ q, lineFeed ∉ rt.print q) : ∀ j, lineFeed ∉ stringify rt j
  | .null => by rw [stringify]; decide
  | .bool b => by cases b <;> (rw [stringify]; decide)
  | .num (.fin q) => h q
  | .num .nan | .num .posInf | .num .negInf => show lineFeed ∉ ascii "null" by decide
  | .str s => lineFeed_not_mem_quote s
  | .arr items => by
    simp only [stringify, List.mem_append, List.mem_cons, List.not_mem_nil, or_false, not_or]
    exact ⟨⟨by decide, lineFeed_not_mem_items h items⟩, by decide⟩
  | .obj fields => by
    simp only [stringify, List.mem_append, List.mem_cons, List.not_mem_nil, or_false, not_or]
    exact ⟨⟨by decide, lineFeed_not_mem_fields h fields⟩, by decide⟩

theorem lineFeed_not_mem_items (h : ∀ q, lineFeed ∉ rt.print q) : ∀ items, lineFeed ∉ stringifyItems rt items
  | [] => List.not_mem_nil
  | [j] => lineFeed_not_mem_stringify h j
  | j :: k :: items => by
    simp only [stringifyItems, List.mem_append, List.mem_cons, not_or]
    exact ⟨lineFeed_not_mem_stringify h j, by decide, lineFeed_not_mem_items h (k :: items)⟩

theorem lineFeed_not_mem_fields (h : ∀ q, lineFeed ∉ rt.print q) : ∀ fields, lineFeed ∉ stringifyFields rt fields
  | [] => List.not_mem_nil
  | [(k, j)] => by
    simp only [stringifyFields, List.mem_append, List.mem_cons, not_or]
    exact ⟨lineFeed_not_mem_quote k, by decide, lineFeed_not_mem_stringify h j⟩
  | (k, j) :: f :: fields => by
    simp only [stringifyFields, List.mem_append, List.mem_cons, not_or]
    exact ⟨⟨lineFeed_not_mem_quote k, by decide, lineFeed_not_mem_stringify h j⟩, by decide,
      lineFeed_not_mem_fields h (f :: fields)⟩
end

/-- The reader at the other end finds in the output the responses that were due, one a line and no
line beside them, whatever names and ids with line ends in them the client sent. -/
theorem session_output_lines {s : ContextMcpServer} (hprint : ∀ q, lineFeed ∉ s.runtime.numberText.print q)
    (input : List Chunk) : ∃ replies, linesOf (runStdioLoop s input).1.flatten = replies ++ [[]] ∧
      List.Forall₂ (fun id reply => Answers s.runtime id (reply ++ [lineFeed]))
        (dueIds (linesOf (textOf .fresh input))) replies := by
  rw [runStdioLoop_eq]
  have hreplies := (answerAll_replies s (linesOf (textOf .fresh input))).1
  generalize dueIds (linesOf (textOf .fresh input)) = ids at hreplies ⊢
  generalize (answerAll s (linesOf (textOf .fresh input))).1 = output at hreplies ⊢
  induction hreplies with
  | nil => exact ⟨[], rfl, .nil⟩
  | @cons id written ids rest hanswers _ ih =>
    obtain ⟨replies, hlines, hall⟩ := ih
    obtain ⟨reply, rfl⟩ : ∃ resp, written = writeLine s.runtime resp := by cases hanswers <;> exact ⟨_, rfl⟩
    refine ⟨stringify s.runtime.numberText reply :: replies, ?_, .cons hanswers hall⟩
    have hcut := rawLines_line (lineFeed_not_mem_stringify hprint reply) rest.flatten
    unfold linesOf at hlines ⊢
    rw [List.flatten_cons, writeLine, List.append_assoc, List.singleton_append, hcut, List.cons_append, hlines,
      List.cons_append]

/-! ## What the packers are given -/

structure BoundedRegions (regions : List ChangeRegion) : Prop where
  few : regions.length ≤ MAX_REGIONS
  lines : ∀ r ∈ regions, 1 ≤ r.startLine ∧ r.startLine ≤ r.endLine ∧ r.endLine ≤ MAX_REGION_LINE

structure BoundedOpts (opts : StableContextOptions) : Prop where
  maxNeighbors : ∀ n ∈ opts.maxNeighbors, n ≤ MAX_PACK_OPT
  maxHeaderLines : ∀ n ∈ opts.maxHeaderLines, n ≤ MAX_PACK_OPT
  maxRefSliceLines : ∀ n ∈ opts.maxRefSliceLines, 1 ≤ n ∧ n ≤ MAX_PACK_OPT
  prior : ∀ p ∈ opts.prior, isStableResultish p = true

/-- A path that the packers may read. -/
structure Packable (s : ContextMcpServer) (file : JsString) : Prop where
  named : file ≠ []
  relative : isAbsolute file = false
  within : (resolveWithinRepo s.files s.repoRoot file).isSome = true

theorem of_bind_ok {α β : Type} {x : Except JsString α} {f : α → Except JsString β} {b : β}
    (h : (x >>= f) = .ok b) : ∃ a, x = .ok a ∧ f a = .ok b := by
  cases x with
  | error message => cases h
  | ok a => exact ⟨a, rfl, h⟩

theorem readRegion_bounded {rt : Runtime} {j : Json} {r : ChangeRegion} (h : readRegion rt j = .ok r) :
    1 ≤ r.startLine ∧ r.startLine ≤ r.endLine ∧ r.endLine ≤ MAX_REGION_LINE := by
  unfold readRegion at h
  split at h
  · cases h
  · split at h
    · split at h
      · cases h
      · next hlow =>
        split at h
        · cases h
        · next horder =>
          split at h
          · cases h
          · next hhigh =>
            obtain rfl := Except.ok.inj h
            rw [not_or] at hlow
            exact ⟨Int.not_lt.1 hlow.1, Int.not_lt.1 horder, Int.not_lt.1 hhigh⟩
    · cases h

theorem mapM_readRegion {rt : Runtime} {raw : List Json} {regions : List ChangeRegion}
    (h : raw.mapM (readRegion rt) = .ok regions) : regions.length = raw.length ∧
      ∀ r ∈ regions, 1 ≤ r.startLine ∧ r.startLine ≤ r.endLine ∧ r.endLine ≤ MAX_REGION_LINE := by
  induction raw generalizing regions with
  | nil =>
    obtain rfl := Except.ok.inj h
    exact ⟨rfl, fun r hr => by cases hr⟩
  | cons j raw ih =>
    rw [List.mapM_cons] at h
    cases hfirst : readRegion rt j with
    | error message => rw [hfirst] at h; cases h
    | ok r =>
      cases hrest : raw.mapM (readRegion rt) with
      | error message => rw [hfirst, hrest] at h; cases h
      | ok rest =>
        rw [hfirst, hrest] at h
        obtain rfl := Except.ok.inj h
        obtain ⟨hlength, hlines⟩ := ih hrest
        exact ⟨congrArg (· + 1) hlength, List.forall_mem_cons.2 ⟨readRegion_bounded hfirst, hlines⟩⟩

theorem readRegions_bounded {rt : Runtime} {raw : Option Json} {regions : List ChangeRegion}
    (h : readRegions rt raw = .ok regions) : BoundedRegions regions := by
  unfold readRegions at h
  split at h
  · split at h
    · cases h
    · next hfew =>
      obtain ⟨hlength, hlines⟩ := mapM_readRegion h
      exact ⟨hlength ▸ Nat.not_lt.1 hfew, hlines⟩
  · cases h

theorem readIntOpt_bounded {rt : Runtime} {args : Json} {key : String} {min : Nat} {got : Option Nat}
    (h : readIntOpt rt args key min = .ok got) : ∀ n ∈ got, min ≤ n ∧ n ≤ MAX_PACK_OPT := by
  unfold readIntOpt at h
  split at h
  · obtain rfl := Except.ok.inj h
    exact fun n hn => by cases hn
  · split at h
    · cases h
    · split at h
      · cases h
      · next hmin =>
        split at h
        · cases h
        · next hmax =>
          obtain rfl := Except.ok.inj h
          intro n hn
          obtain rfl := Option.some.inj hn
          omega

theorem packOptsFrom_bounded {rt : Runtime} {args : Json} {opts : StableContextOptions}
    (h : packOptsFrom rt args = .ok opts) : BoundedOpts opts := by
  unfold packOptsFrom at h
  obtain ⟨neighbors, -, h⟩ := of_bind_ok h
  obtain ⟨maxNeighbors, hneighbors, h⟩ := of_bind_ok h
  obtain ⟨maxHeaderLines, hheader, h⟩ := of_bind_ok h
  obtain ⟨maxRefSliceLines, hslice, h⟩ := of_bind_ok h
  obtain rfl := Except.ok.inj h
  exact ⟨fun n hn => (readIntOpt_bounded hneighbors n hn).2, fun n hn => (readIntOpt_bounded hheader n hn).2,
    readIntOpt_bounded hslice, fun p hp => (Option.mem_filter_iff.1 hp).2⟩

theorem changeArgs_bounded {s : ContextMcpServer} {args : Json} {file : JsString} {regions : List ChangeRegion}
    {opts : StableContextOptions} (h : changeArgs s args = .ok (file, regions, opts)) :
    Packable s file ∧ BoundedRegions regions ∧ BoundedOpts opts := by
  obtain ⟨file', hfile, h⟩ := of_bind_ok h
  have hnamed : file' ≠ [] := by
    unfold readFile at hfile
    split at hfile
    · next hfilter =>
      obtain rfl := Except.ok.inj hfile
      simpa using (Option.mem_filter_iff.1 hfilter).2
    · cases hfile
  split at h
  · cases h
  · next hrelative =>
    split at h
    · cases h
    · next hwithin =>
      obtain ⟨regions', hregions, h⟩ := of_bind_ok h
      obtain ⟨opts', hopts, h⟩ := of_bind_ok h
      obtain ⟨rfl, rfl, rfl⟩ : file' = file ∧ regions' = regions ∧ opts' = opts := by
        simpa using Except.ok.inj h
      refine ⟨⟨hnamed, by simpa using hrelative, ?_⟩, readRegions_bounded hregions, packOptsFrom_bounded hopts⟩
      simpa [Option.isSome_iff_ne_none] using hwithin

theorem symbolArgs_bounded {s : ContextMcpServer} {args : Json} {symbols : List JsString} {opts : StableContextOptions}
    (h : symbolArgs s args = .ok (symbols, opts)) :
    symbols ≠ [] ∧ symbols.length ≤ MAX_SYMBOLS ∧ BoundedOpts opts := by
  obtain ⟨symbols', -, h⟩ := of_bind_ok h
  split at h
  · cases h
  · next hsome =>
    split at h
    · cases h
    · next hfew =>
      obtain ⟨opts', hopts, h⟩ := of_bind_ok h
      obtain ⟨rfl, rfl⟩ : symbols' = symbols ∧ opts' = opts := by simpa using Except.ok.inj h
      exact ⟨hsome, Nat.not_lt.1 hfew, packOptsFrom_bounded hopts⟩

/-- A tool's answer depends on its packer at what was read only. -/
theorem answerTool_congr {α : Type} {rt : Runtime} {tool : Tool} {id : Option Json} {args : Json}
    {read : Except JsString α} {pack pack' : α → Except JsString (Option StableContextResult)}
    {unresolved : α → JsString} (h : ∀ a, read = .ok a → pack a = pack' a) :
    answerTool rt tool id args read pack unresolved = answerTool rt tool id args read pack' unresolved := by
  unfold answerTool
  cases rejectUnknownArgs rt tool args with
  | some message => rfl
  | none =>
    cases read with
    | error message => rfl
    | ok a => simp only [h a rfl]

/-- Two sets of packers that do the same on every bounded request. -/
structure AgreeOnBounded (s : ContextMcpServer) (other : Packers) : Prop where
  change : ∀ file regions opts, Packable s file → BoundedRegions regions → BoundedOpts opts →
    s.packers.contextForChange file regions opts = other.contextForChange file regions opts
  symbols : ∀ symbols opts, symbols ≠ [] → symbols.length ≤ MAX_SYMBOLS → BoundedOpts opts →
    s.packers.contextForSymbols symbols opts = other.contextForSymbols symbols opts

section Bounded
variable {s : ContextMcpServer} {other : Packers} (h : AgreeOnBounded s other)
include h

theorem callTool_bounded (id params : Option Json) :
    callTool s id params = callTool { s with packers := other } id params := by
  unfold callTool
  cases params.filter Json.isObject with
  | none => rfl
  | some params =>
    dsimp only
    cases TOOLS.find? fun t => params.strField "name" = some (ascii t.name) with
    | none => rfl
    | some tool =>
      dsimp only
      split
      · apply answerTool_congr
        rintro ⟨file, regions, opts⟩ hread
        obtain ⟨hfile, hregions, hopts⟩ := changeArgs_bounded hread
        exact h.change file regions opts hfile hregions hopts
      · apply answerTool_congr
        rintro ⟨symbols, opts⟩ hread
        obtain ⟨hsome, hfew, hopts⟩ := symbolArgs_bounded hread
        exact h.symbols symbols opts hsome hfew hopts

theorem processLine_bounded (line : JsString) :
    processLine s line = processLine { s with packers := other } line := by
  have hdispatch : ∀ req, dispatch s req = dispatch { s with packers := other } req := by
    intro req
    unfold dispatch
    simp only [callTool_bounded h]
  have hhandle : ∀ req, handle s req = handle { s with packers := other } req := by
    intro req
    unfold handle
    simp only [hdispatch]
  unfold processLine
  simp only [hhandle]

/-- The packers are called on bounded requests only: paths relative to the repository that lie in it
and may be read, regions and options within their limits, and between one symbol and the limit. So
packers that do the same on those serve the same sessions, whatever a client sends. -/
theorem session_bounded (input : List Chunk) :
    runStdioLoop s input = runStdioLoop { s with packers := other } input := by
  rw [runStdioLoop_eq, runStdioLoop_eq]
  induction linesOf (textOf .fresh input) with
  | nil => rfl
  | cons line lines ih => rw [answerAll, answerAll, ih, answerLine, answerLine, processLine_bounded h]

end Bounded

/-! ## A region without end -/

/-- Whole numbers as the runtime prints them. -/
def plainRuntime : Runtime := ⟨⟨fun q => intText q.num, numberOfText⟩, fun _ => none, [], [], 2 ^ 29⟩

def splitRequest : JsString :=
  writeLine plainRuntime (object [("jsonrpc", text "2.0"), ("id", .str [lineFeed]), ("method", text "ping")])

/-- A server whose packer walks every line of a region. -/
def walkingServer (walk : List ChangeRegion → Except JsString (Option StableContextResult)) : ContextMcpServer :=
  ⟨plainRuntime, smallFiles, ascii "/r", ⟨fun _ regions _ => walk regions, fun _ _ => .ok none⟩⟩

/-- A packer that never comes back from a region longer than any file. -/
def wedgesOnSentinels (regions : List ChangeRegion) : Except JsString (Option StableContextResult) :=
  if regions.any fun r => MAX_REGION_LINE < r.endLine then .error (ascii "wedged") else .ok none

theorem wedgesOnSentinels_agrees :
    AgreeOnBounded (walkingServer fun _ => .ok none) (walkingServer wedgesOnSentinels).packers where
  change := by
    intro file regions opts _ hregions _
    have hlines : ∀ r ∈ regions, r.endLine ≤ MAX_REGION_LINE := fun r hr => (hregions.lines r hr).2.2
    simpa [walkingServer, wedgesOnSentinels] using hlines
  symbols := fun _ _ _ _ _ => rfl

def sentinelRequest : Json :=
  object [("jsonrpc", text "2.0"), ("id", number 1), ("method", text "tools/call"),
    ("params", object [("name", text "context_for_change"), ("arguments", object [("file", text "a.ts"),
      ("regions", .arr [object [("startLine", number 1), ("endLine", number 20000000000)]])])])]

/-- A request whose id has a line end in it gets one line. -/
theorem session_output_lines_split :
    ∃ replies, linesOf (runStdioLoop (walkingServer fun _ => .ok none) [.text splitRequest]).1.flatten = replies ++ [[]] ∧
      List.Forall₂ (fun id reply => Answers plainRuntime id (reply ++ [lineFeed]))
        (dueIds (linesOf (textOf .fresh [.text splitRequest]))) replies :=
  session_output_lines (fun q => not_mem_intText (by decide) (by decide) q.num) _

/-- It is not even called. -/
theorem session_bounded_sentinel :
    runStdioLoop (walkingServer fun _ => .ok none) [.text (writeLine plainRuntime sentinelRequest)] =
      runStdioLoop (walkingServer wedgesOnSentinels) [.text (writeLine plainRuntime sentinelRequest)] :=
  session_bounded wedgesOnSentinels_agrees _

end Hayven.Mcp
