import Hayven.Proxy.CompactionLaws
import Hayven.Proxy.HistoryCompactWires
import Mathlib.Tactic.Linarith
/-!
# The three compactors as walks

Each compactor rewrites a unit by the path it pairs with it: the last read
call of that id anywhere in the transcript, or the path the function's name
last carried. That is the path the answered call asked for unless an id is
used again or one turn reads more than one file through one function.
-/

open Hayven.Lib

namespace Hayven.Proxy

/-! ## The window -/

/-- The recent messages are the last `keepRecentMessages`. -/
theorem isRecent_iff {n i : Nat} (hi : i < n) (opts : CompactOptions) :
    isRecent i (recencyCutoff n opts) = true ↔
      (JsNumber.fin (n - i)).le (opts.keepRecentMessages.getD (.fin 8)) = true := by
  have hpos : (0 : Rat) < n - i := by
    have h : (i : Rat) < n := by exact_mod_cast hi
    linarith
  unfold isRecent recencyCutoff keepRecent
  cases hk : opts.keepRecentMessages.getD (.fin 8) with
  | nan => rfl
  | posInf => rfl
  | negInf =>
    simp only [JsNumber.lt, ne_eq, reduceCtorEq, not_false_eq_true, decide_true, if_true, sub_zero, Wire.le_fin]
    constructor
    · intro h
      have hle : (n : Rat) ≤ i := by simpa using h
      linarith
    · intro h
      cases h
  | fin q =>
    by_cases hq : q < 0
    · simp only [JsNumber.lt, hq, decide_true, if_true, sub_zero, Wire.le_fin, decide_eq_true_eq]
      constructor <;> intro h <;> linarith
    · simp only [JsNumber.lt, hq, decide_false, Bool.false_eq_true, if_false, Wire.le_fin, decide_eq_true_eq]
      constructor <;> intro h <;> linarith

/-! ## Calls and results by id -/

/-- The last of a list of read calls under an id. -/
def lastRead (reads : List (JsString × JsString)) (id : JsString) : Option JsString :=
  ((reads.filter (·.1 = id)).getLast?).map (·.2)

def isTextBlock (b : Json) : Bool := b.strField "type" = some (ascii "text") && (b.strField "text").isSome

/-- Whether a result's content holds nothing but text. -/
def holdsTextOnly (content : Option Json) : Bool :=
  match content with
  | some (.arr items) => items.all isTextBlock
  | _ => true

/-- The unit's `content`, a text of another length. -/
def contentSlot (u : Json) : Slot where
  text := toolResultText (u.field "content")
  put text := u.setField "content" (.str text)
  textOnly := holdsTextOnly (u.field "content")

theorem strField_setContent {u : Json} {key : String} {s text : JsString} (hk : ascii key ≠ ascii "content")
    (h : u.strField key = some s) : (u.setField "content" (.str text)).strField key = some s := by
  obtain ⟨fields, rfl⟩ := Json.obj_of_field (Json.strField_eq_some.1 h)
  rw [Json.strField_eq_some, Json.field_setField, if_neg hk]
  exact Json.strField_eq_some.1 h

theorem contentSlot_put (u : Json) (text : JsString) : toolResultText ((u.setField "content" (.str text)).field "content") = text := by
  rw [Json.field_setField_self]
  rfl

theorem compactKnobs_optsWithEdits (opts : CompactOptions) (edited : List JsString) :
    compactKnobs (optsWithEdits opts edited) = compactKnobs opts := by
  unfold optsWithEdits
  split <;> rfl

theorem note_readPathById (s : CallScan) (name : JsString) (read : Option (JsString × JsString)) (edit : Option JsString) :
    (s.note name read edit).readPathById =
      (read.filter fun _ => name ∈ readToolNames).elim s.readPathById fun r => s.readPathById.set r.1 r.2 := by
  unfold CallScan.note
  by_cases hr : name ∈ readToolNames
  · rw [if_pos hr]
    cases read with
    | none => rfl
    | some r =>
      rw [Option.filter_some, if_pos (by simpa using hr)]
      rfl
  · rw [if_neg hr]
    have hnone : read.filter (fun _ => decide (name ∈ readToolNames)) = none := by
      cases read <;> simp [hr]
    rw [hnone]
    split
    · cases edit <;> rfl
    · rfl

/-- A scan whose every step sets the path of the read call it sees keeps the last of each id. -/
theorem get_scan {step : CallScan → Json → CallScan} {readOf : Json → Option (JsString × JsString)}
    (hstep : ∀ s c, (step s c).readPathById = (readOf c).elim s.readPathById fun r => s.readPathById.set r.1 r.2)
    (calls : List Json) (s : CallScan) (id : JsString) :
    (calls.foldl step s).readPathById.get id = (lastRead (calls.filterMap readOf) id).or (s.readPathById.get id) := by
  have hfold : ∀ s, (calls.foldl step s).readPathById =
      (calls.filterMap readOf).foldl (fun m r => m.set r.1 r.2) s.readPathById := by
    induction calls with
    | nil => exact fun _ => rfl
    | cons c calls ih =>
      intro s
      rw [List.foldl_cons, ih, hstep]
      cases hr : readOf c with
      | none => rw [List.filterMap_cons_none hr]; rfl
      | some r => rw [List.filterMap_cons_some hr]; rfl
  rw [hfold]
  exact KeyedMap.get_foldl_set_by (fun r : JsString × JsString => r.1) (fun r => r.2) _ _ id

theorem get_of_keys_nil {m : KeyedMap JsString JsString} (h : m.keys = []) (k : JsString) : m.get k = none := by
  cases hg : m.get k with
  | none => rfl
  | some v =>
    have hmem := KeyedMap.mem_keys.2 ⟨v, hg⟩
    rw [h] at hmem
    cases hmem

/-! ## Anthropic -/

def anthropicReadCall (b : Json) : Option (JsString × JsString) :=
  if b.strField "type" = some (ascii "tool_use") then
    (b.strField "name").bind fun name => (anthropicRead b).filter fun _ => name ∈ readToolNames
  else none

def isToolUse (id : JsString) (b : Json) : Bool := b.strField "type" = some (ascii "tool_use") && b.strField "id" = some id

def anthropicWire : Wire where
  turns := "messages"
  units m := m.arrField "content"
  withUnits m us := m.setField "content" (.arr us)
  slot b := if b.strField "type" = some (ascii "tool_result") then some (contentSlot b) else none
  asked before b := do
    let id ← b.strField "tool_use_id"
    let call ← before.reverse.find? fun p => isToolUse id p.2
    let read ← anthropicReadCall call.2
    return read.2
  paired msgs _ b := do
    let id ← b.strField "tool_use_id"
    lastRead ((msgs.flatMap fun m => (m.arrField "content").getD []).filterMap anthropicReadCall) id

theorem anthropicWire_lawful : anthropicWire.Lawful where
  units_withUnits _ _ := Json.arrField_setField_self ..
  slot_put {u s} t h := by
    simp only [anthropicWire, Option.ite_none_right_eq_some, Option.some.injEq] at h ⊢
    obtain ⟨htype, rfl⟩ := h
    have htype' : ((contentSlot u).put t).strField "type" = some (ascii "tool_result") :=
      strField_setContent (by decide) htype
    rw [if_pos htype', Option.map_some]
    exact congrArg some (contentSlot_put u t)

theorem scanAnthropicBlock_readPathById (s : CallScan) (b : Json) :
    (scanAnthropicBlock s b).readPathById =
      (anthropicReadCall b).elim s.readPathById fun r => s.readPathById.set r.1 r.2 := by
  unfold scanAnthropicBlock anthropicReadCall
  split
  · cases b.strField "name" with
    | none => rfl
    | some name => exact note_readPathById ..
  · rfl

theorem get_scanAnthropic (opts : CompactOptions) (msgs : List Json) (id : JsString) :
    (scanAnthropic opts msgs).readPathById.get id =
      lastRead ((msgs.flatMap fun m => (m.arrField "content").getD []).filterMap anthropicReadCall) id := by
  rw [scanAnthropic, get_scan scanAnthropicBlock_readPathById]
  exact Option.or_none ..

theorem compactBlock_stepped (repo : Repo) (intentText : JsString) (opts opts' : CompactOptions) (msgs : List Json)
    (before : Before) (b : Json) :
    Wire.Stepped (anthropicWire.UnitRan repo intentText opts' msgs) before b
      (compactBlock repo intentText opts' (scanAnthropic opts msgs).readPathById b) := by
  unfold Wire.Stepped Wire.UnitRan compactBlock
  simp only [anthropicWire]
  split
  · rename_i htype
    rw [Option.bind_some]
    cases hid : b.strField "tool_use_id" with
    | none => exact ⟨rfl, fun _ => rfl⟩
    | some id =>
      rw [Option.bind_eq_bind, Option.bind_some, ← get_scanAnthropic opts]
      simp only [contentSlot]
      cases compactText repo ((scanAnthropic opts msgs).readPathById.get id) (toolResultText (b.field "content")) intentText
          opts' with
      | none => exact ⟨rfl, fun _ => rfl⟩
      | some c => exact ⟨rfl, fun h => by cases h⟩
  · exact ⟨rfl, fun _ => rfl⟩

theorem compactMessage_of_blocks {repo : Repo} {intentText : JsString} {opts : CompactOptions} {scan : CallScan}
    {cutoff : JsNumber} {i : Nat} {m : Json} {blocks : List Json} (hrec : isRecent i cutoff = false)
    (hu : m.arrField "content" = some blocks) {l : List (Json × List CompactStat)}
    (hl : l = blocks.map (compactBlock repo intentText (optsWithEdits opts scan.editedFiles) scan.readPathById)) :
    compactMessage repo intentText opts scan cutoff i m = (m.setField "content" (.arr (gather l).1), (gather l).2) := by
  unfold compactMessage
  rw [if_neg (by simp [hrec]), hu, hl]

theorem compactMessage_stepped (repo : Repo) (intentText : JsString) (opts : CompactOptions) (msgs : List Json)
    (cutoff : JsNumber) (i : Nat) (before : Before) (m : Json) :
    Wire.Stepped
      (anthropicWire.TurnRel (anthropicWire.UnitRan repo intentText (optsWithEdits opts (scanAnthropic opts msgs).editedFiles) msgs)
        cutoff i) before m (compactMessage repo intentText opts (scanAnthropic opts msgs) cutoff i m) := by
  cases hrec : isRecent i cutoff with
  | true =>
    unfold compactMessage
    rw [if_pos hrec]
    exact ⟨Wire.turnRel_recent m hrec, fun _ => Wire.turnRel_recent m hrec⟩
  | false =>
    cases hu : m.arrField "content" with
    | none =>
      unfold compactMessage
      rw [if_neg (by simp [hrec]), hu]
      exact ⟨Wire.turnRel_no_units hu, fun _ => Wire.turnRel_no_units hu⟩
    | some blocks =>
      generalize hl : blocks.map (compactBlock repo intentText (optsWithEdits opts (scanAnthropic opts msgs).editedFiles)
        (scanAnthropic opts msgs).readPathById) = l
      rw [compactMessage_of_blocks hrec hu hl.symm]
      have hblocks : Wire.UnitsRel (Wire.Stepped (anthropicWire.UnitRan repo intentText
          (optsWithEdits opts (scanAnthropic opts msgs).editedFiles) msgs)) i before blocks l :=
        hl ▸ Wire.UnitsRel.of_map (compactBlock_stepped repo intentText opts _ msgs) blocks
      exact Wire.turnRel_gather hrec hu hblocks (Or.inl rfl)

/-- The options a compactor passes down: those of the call with the edits it saw. -/
def anthropicOpts (opts : CompactOptions) (body : Json) : CompactOptions :=
  optsWithEdits opts (scanAnthropic opts ((body.arrField "messages").getD [])).editedFiles

theorem anthropic_ran {repo : Repo} {body : Json} {intentText : JsString} {opts : CompactOptions} {r : CompactResult}
    (h : compactAnthropicHistory repo body intentText opts = some r) :
    anthropicWire.Related (anthropicWire.UnitRan repo intentText (anthropicOpts opts body)) opts body r.body := by
  simp only [compactAnthropicHistory, Option.bind_eq_bind, Option.bind_eq_some_iff] at h
  obtain ⟨msgs, hb, h⟩ := h
  have hopts : anthropicOpts opts body = optsWithEdits opts (scanAnthropic opts msgs).editedFiles := by
    simp [anthropicOpts, hb]
  rw [hopts]
  split at h
  · rename_i hnone
    cases h
    apply Wire.related_untouched
    intro msgs' hb' p hp
    rw [Option.some.inj (hb'.symm.trans hb), Wire.oldUnits_of_noneOld hnone] at hp
    cases hp
  · split at h
    · cases h
    · split at h
      · rename_i hkeys
        cases h
        apply Wire.related_untouched
        intro msgs' hb' p _
        rw [Option.some.inj (hb'.symm.trans hb)]
        have hpaired : anthropicWire.paired msgs p.1 p.2 = none := by
          simp only [anthropicWire, Option.bind_eq_bind, ← get_scanAnthropic opts, get_of_keys_nil hkeys, Option.bind_fun_none]
        unfold Wire.UnitRan
        rw [hpaired]
        cases anthropicWire.slot p.2 <;> rfl
      · cases h
        apply Wire.related_walked (W := anthropicWire) hb
        have hwalk : anthropicWire.TurnsRel _ 0 [] msgs _ := Wire.TurnsRel.of_mapIdx
          (fun i before m => compactMessage_stepped repo intentText opts msgs (recencyCutoff msgs.length opts) i before m) msgs
        simpa only [Nat.zero_add] using hwalk

/-! ## OpenAI -/

/-- The id and path of a tool call that reads. -/
def openaiReadCall (tc : Json) : Option (JsString × JsString) :=
  (tc.strField "id").bind fun id => ((tc.field "function").bind (·.strField "name")).bind fun name =>
    ((pathFromArguments ((tc.field "function").bind (·.field "arguments"))).map (id, ·)).filter fun _ => name ∈ readToolNames

def toolCalls (m : Json) : List Json := (m.arrField "tool_calls").getD []

/-- Every message is a unit of its own. -/
def openaiWire : Wire where
  turns := "messages"
  units m := some [m]
  withUnits m us := us.headD m
  slot m := if m.strField "role" = some (ascii "tool") then some (contentSlot m) else none
  asked before m := do
    let id ← m.strField "tool_call_id"
    let call ← (before.flatMap fun p => toolCalls p.2).reverse.find? fun tc => tc.strField "id" = some id
    let read ← openaiReadCall call
    return read.2
  paired msgs _ m := do
    let id ← m.strField "tool_call_id"
    lastRead ((msgs.flatMap toolCalls).filterMap openaiReadCall) id

theorem openaiWire_lawful : openaiWire.Lawful where
  units_withUnits {m us us'} hu hlen := by
    cases hu
    obtain ⟨u, rfl⟩ := List.length_eq_one_iff.1 hlen
    rfl
  slot_put {u s} t h := by
    simp only [openaiWire, Option.ite_none_right_eq_some, Option.some.injEq] at h ⊢
    obtain ⟨hrole, rfl⟩ := h
    have hrole' : ((contentSlot u).put t).strField "role" = some (ascii "tool") :=
      strField_setContent (by decide) hrole
    rw [if_pos hrole', Option.map_some]
    exact congrArg some (contentSlot_put u t)

theorem scanToolCall_readPathById (s : CallScan) (tc : Json) :
    (scanToolCall s tc).readPathById = (openaiReadCall tc).elim s.readPathById fun r => s.readPathById.set r.1 r.2 := by
  unfold scanToolCall openaiReadCall
  cases tc.strField "id" with
  | none => rfl
  | some id =>
    cases (tc.field "function").bind (·.strField "name") with
    | none => rfl
    | some name => exact note_readPathById ..

theorem get_scanOpenAI (opts : CompactOptions) (msgs : List Json) (id : JsString) :
    (scanOpenAI opts msgs).readPathById.get id = lastRead ((msgs.flatMap toolCalls).filterMap openaiReadCall) id := by
  unfold scanOpenAI
  rw [get_scan scanToolCall_readPathById]
  exact Option.or_none ..

/-- A message under the options with the edits seen. -/
theorem compactToolMessage_stepped (repo : Repo) (intentText : JsString) (opts : CompactOptions) (msgs : List Json)
    (cutoff : JsNumber) (i : Nat) (before : Before) (m : Json) (hrec : isRecent i cutoff = false) :
    Wire.Stepped (openaiWire.UnitRan repo intentText (optsWithEdits opts (scanOpenAI opts msgs).editedFiles) msgs) before m
      (compactToolMessage repo intentText opts (scanOpenAI opts msgs) cutoff i m) := by
  unfold Wire.Stepped Wire.UnitRan compactToolMessage
  rw [if_neg (by simp [hrec])]
  simp only [openaiWire]
  split
  · rw [Option.bind_some]
    cases hid : m.strField "tool_call_id" with
    | none => exact ⟨rfl, fun _ => rfl⟩
    | some id =>
      rw [Option.bind_eq_bind, Option.bind_some, ← get_scanOpenAI opts]
      simp only [contentSlot]
      cases compactText repo ((scanOpenAI opts msgs).readPathById.get id) (toolResultText (m.field "content")) intentText
          (optsWithEdits opts (scanOpenAI opts msgs).editedFiles) with
      | none => exact ⟨rfl, fun _ => rfl⟩
      | some c => exact ⟨rfl, fun h => by cases h⟩
  · exact ⟨rfl, fun _ => rfl⟩

theorem toolMessage_stepped (repo : Repo) (intentText : JsString) (opts : CompactOptions) (msgs : List Json)
    (cutoff : JsNumber) (i : Nat) (before : Before) (m : Json) :
    Wire.Stepped
      (openaiWire.TurnRel (openaiWire.UnitRan repo intentText (optsWithEdits opts (scanOpenAI opts msgs).editedFiles) msgs)
        cutoff i) before m (compactToolMessage repo intentText opts (scanOpenAI opts msgs) cutoff i m) := by
  cases hrec : isRecent i cutoff with
  | true =>
    unfold compactToolMessage
    rw [if_pos hrec]
    exact ⟨Wire.turnRel_recent m hrec, fun _ => Wire.turnRel_recent m hrec⟩
  | false =>
    have hunit := compactToolMessage_stepped repo intentText opts msgs cutoff i before m hrec
    have hturn : ∀ m', openaiWire.UnitRan repo intentText (optsWithEdits opts (scanOpenAI opts msgs).editedFiles) msgs before m m' →
        openaiWire.TurnRel (openaiWire.UnitRan repo intentText (optsWithEdits opts (scanOpenAI opts msgs).editedFiles) msgs)
          cutoff i before m m' := by
      intro m' hm
      unfold Wire.TurnRel
      rw [if_neg (by simp [hrec])]
      exact ⟨[m'], .inl rfl, hm, trivial⟩
    exact ⟨hturn _ hunit.1, fun hnil => hturn _ (hunit.2 hnil)⟩

def openaiOpts (opts : CompactOptions) (body : Json) : CompactOptions :=
  optsWithEdits opts (scanOpenAI opts ((body.arrField "messages").getD [])).editedFiles

theorem openai_ran (repo : Repo) (body : Json) (intentText : JsString) (opts : CompactOptions) :
    openaiWire.Related (openaiWire.UnitRan repo intentText (openaiOpts opts body)) opts body
      (compactOpenAIHistory repo body intentText opts).body := by
  unfold compactOpenAIHistory
  cases hb : body.arrField "messages" with
  | none =>
    apply Wire.related_untouched
    intro msgs hb'
    cases hb.symm.trans hb'
  | some msgs =>
    have hopts : openaiOpts opts body = optsWithEdits opts (scanOpenAI opts msgs).editedFiles := by
      simp [openaiOpts, hb]
    rw [hopts]
    dsimp only
    split
    · rename_i hnone
      apply Wire.related_untouched
      intro msgs' hb' p hp
      rw [Option.some.inj (hb'.symm.trans hb), Wire.oldUnits_of_noneOld hnone] at hp
      cases hp
    · split
      · rename_i hkeys
        apply Wire.related_untouched
        intro msgs' hb' p _
        rw [Option.some.inj (hb'.symm.trans hb)]
        have hpaired : openaiWire.paired msgs p.1 p.2 = none := by
          simp only [openaiWire, Option.bind_eq_bind, ← get_scanOpenAI opts, get_of_keys_nil hkeys, Option.bind_fun_none]
        unfold Wire.UnitRan
        rw [hpaired]
        cases openaiWire.slot p.2 <;> rfl
      · apply Wire.related_walked (W := openaiWire) hb
        have hwalk : openaiWire.TurnsRel _ 0 [] msgs _ := Wire.TurnsRel.of_mapIdx
          (fun i before m => toolMessage_stepped repo intentText opts msgs (recencyCutoff msgs.length opts) i before m) msgs
        simpa only [Nat.zero_add] using hwalk

/-! ## Gemini -/

/-- The latest turn that called a function, and the paths of its calls not yet answered. -/
abbrev OpenCalls := Option Nat × List (Option JsString)

/-- A call opens behind those of its own turn; a response answers the first that is open. -/
def OpenCalls.note (name : JsString) (s : OpenCalls) (p : Nat × Json) : OpenCalls :=
  match partCall p.2 with
  | some (n, path) => if n = name then (some p.1, if s.1 = some p.1 then s.2 ++ [path] else [path]) else s
  | none => if (partResponse p.2).map (·.1) = some name then (s.1, s.2.tail) else s

def openCalls (name : JsString) (before : Before) : OpenCalls := before.foldl (OpenCalls.note name) (none, [])

def latestPaths (before : Before) : LatestPaths := before.foldl (fun latest p => notePart latest p.2) .empty

def responseSlot (p : Json) (r : JsString × String × JsString) : Slot where
  text := r.2.2
  put := putResponseText p r.2.1
  textOnly := true

def geminiWire : Wire where
  turns := "contents"
  units turn := turn.arrField "parts"
  withUnits turn parts := turn.setField "parts" (.arr parts)
  slot p := if (partReadCall p).isSome then none else (partResponse p).map (responseSlot p)
  asked before p := (partResponse p).bind fun r => (openCalls r.1 before).2.head?.join
  paired _ before p := (partResponse p).bind fun r => (latestPaths before).get r.1

theorem strField_setField_ne {j : Json} {key key' : String} (hk : ascii key' ≠ ascii key) (v : Json) {w : Json}
    (hj : j.field key = some w) : (j.setField key v).strField key' = j.strField key' := by
  obtain ⟨fields, rfl⟩ := Json.obj_of_field hj
  unfold Json.strField
  rw [Json.field_setField, if_neg hk]

/-- The text is read back from the key it was written to. -/
theorem responseTextField_setField {response : Json} {key : String} {text : JsString} (t : JsString)
    (h : responseTextField response = some (key, text)) :
    responseTextField (response.setField key (.str t)) = some (key, t) := by
  have hread : ∀ keys : List String, (∀ k ∈ keys, ∀ k' ∈ keys, ascii k = ascii k' → k = k') →
      keys.findSome? (fun k => (response.strField k).map (k, ·)) = some (key, text) →
        keys.findSome? (fun k => ((response.setField key (.str t)).strField k).map (k, ·)) = some (key, t) := by
    intro keys
    induction keys with
    | nil => intro _ h; cases h
    | cons k keys ih =>
      intro hinj h
      have hkey : key ∈ k :: keys ∧ ∃ w, response.field key = some w := by
        obtain ⟨k', hk', hr⟩ := List.exists_of_findSome?_eq_some h
        obtain ⟨s, hs, heq⟩ := Option.map_eq_some_iff.1 hr
        cases heq
        exact ⟨hk', _, Json.strField_eq_some.1 hs⟩
      obtain ⟨hmem, w, hw⟩ := hkey
      by_cases hk : k = key
      · subst hk
        rw [List.findSome?_cons, Json.strField_setField_self]
        rfl
      · rw [List.findSome?_cons] at h ⊢
        rw [strField_setField_ne (fun hne => hk (hinj k (List.mem_cons_self ..) key hmem hne)) _ hw]
        cases hs : response.strField k with
        | some s =>
          rw [hs, Option.map_some] at h
          simp only [Option.some.injEq, Prod.mk.injEq] at h
          exact absurd h.1 hk
        | none =>
          rw [hs, Option.map_none] at h
          exact ih (fun a ha b hb => hinj a (List.mem_cons_of_mem _ ha) b (List.mem_cons_of_mem _ hb)) h
  exact hread responseTextKeys (by decide) h

theorem partResponse_put {p : Json} {name : JsString} {key : String} {text : JsString} (t : JsString)
    (h : partResponse p = some (name, key, text)) : partResponse (putResponseText p key t) = some (name, key, t) := by
  simp only [partResponse, Option.bind_eq_bind, Option.bind_eq_some_iff, Option.guard_eq_some', Option.pure_def,
    Option.some.injEq, exists_const] at h
  obtain ⟨fr, hfr, n, hn, hread, response, hresp, ⟨k, s⟩, htext, heq⟩ := h
  cases heq
  have hname : (fr.setField "response" (response.setField k (.str t))).strField "name" = some name := by
    rw [strField_setField_ne (by decide) _ hresp]
    exact hn
  simp only [partResponse, putResponseText, hfr, hresp, Option.getD_some, Json.field_setField_self, Option.bind_eq_bind,
    Option.bind_some, hname, hread, responseTextField_setField t htext, guard_true, Option.pure_def]

theorem partReadCall_put {p : Json} {r : JsString × String × JsString} (key : String) (t : JsString)
    (h : partResponse p = some r) : partReadCall (putResponseText p key t) = partReadCall p := by
  obtain ⟨fr, hfr, -⟩ : ∃ fr, p.field "functionResponse" = some fr ∧ True := by
    cases hf : p.field "functionResponse" with
    | none => simp [partResponse, hf] at h
    | some fr => exact ⟨fr, rfl, trivial⟩
  obtain ⟨fields, rfl⟩ := Json.obj_of_field hfr
  unfold partReadCall partCall putResponseText
  rw [Json.field_setField, if_neg (by decide)]

theorem geminiWire_lawful : geminiWire.Lawful where
  units_withUnits _ _ := Json.arrField_setField_self ..
  slot_put {p s} t h := by
    simp only [geminiWire, Option.ite_none_left_eq_some, Option.map_eq_some_iff] at h
    obtain ⟨hcall, ⟨name, key, text⟩, hr, rfl⟩ := h
    have hput : (responseSlot p (name, key, text)).put t = putResponseText p key t := rfl
    simp only [geminiWire]
    rw [hput, partReadCall_put key t hr, if_neg hcall, partResponse_put t hr]
    rfl

theorem compactPart_stepped (repo : Repo) (intentText : JsString) (opts : CompactOptions) (contents : List Json)
    (before : Before) (p : Json) :
    Wire.Stepped (geminiWire.UnitRan repo intentText opts contents) before p
      (compactPart repo intentText opts true (latestPaths before) p) := by
  unfold Wire.Stepped Wire.UnitRan compactPart
  simp only [geminiWire]
  split
  · exact ⟨rfl, fun _ => rfl⟩
  · simp only [Bool.not_true, Bool.false_eq_true, if_false]
    cases partResponse p with
    | none => exact ⟨rfl, fun _ => rfl⟩
    | some r =>
      obtain ⟨name, key, text⟩ := r
      simp only [Option.map_some, Option.bind_some, responseSlot]
      cases compactText repo ((latestPaths before).get name) text intentText opts with
      | none => exact ⟨rfl, fun _ => rfl⟩
      | some c => exact ⟨rfl, fun h => by cases h⟩

theorem compactParts_stepped (repo : Repo) (intentText : JsString) (opts : CompactOptions) (contents : List Json) {i : Nat}
    (parts : List Json) (before : Before) :
    Wire.UnitsRel (Wire.Stepped (geminiWire.UnitRan repo intentText opts contents)) i before parts
      (compactParts repo intentText opts true (latestPaths before) parts) := by
  induction parts generalizing before with
  | nil => trivial
  | cons p parts ih =>
    refine ⟨compactPart_stepped repo intentText opts contents before p, ?_⟩
    have hnote : notePart (latestPaths before) p = latestPaths (before ++ [(i, p)]) := by
      simp [latestPaths, List.foldl_append]
    rw [hnote]
    exact ih _

/-- In a recent turn nothing is swapped. -/
theorem compactParts_recent (repo : Repo) (intentText : JsString) (opts : CompactOptions) (latest : LatestPaths)
    (parts : List Json) : (gather (compactParts repo intentText opts false latest parts)).2 = [] := by
  induction parts generalizing latest with
  | nil => rfl
  | cons p parts ih =>
    have hp : (compactPart repo intentText opts false latest p).2 = [] := by
      unfold compactPart
      split <;> rfl
    exact List.append_eq_nil_iff.2 ⟨hp, ih _⟩

theorem latestPaths_after (i : Nat) (before : Before) (turn : Json) :
    latestPaths (geminiWire.after i before turn) = ((turn.arrField "parts").getD []).foldl notePart (latestPaths before) := by
  unfold Wire.after latestPaths
  rw [List.foldl_append, List.foldl_map]
  rfl

theorem compactTurns_of_parts {repo : Repo} {intentText : JsString} {opts : CompactOptions} {cutoff : JsNumber} {i : Nat}
    {latest : LatestPaths} {turn : Json} {turns parts : List Json} (hu : turn.arrField "parts" = some parts)
    {l : List (Json × List CompactStat)} (hl : compactParts repo intentText opts (!isRecent i cutoff) latest parts = l) :
    compactTurns repo intentText opts cutoff i latest (turn :: turns) =
      (if (gather l).2.isEmpty then turn else turn.setField "parts" (.arr (gather l).1), (gather l).2) ::
        compactTurns repo intentText opts cutoff (i + 1) (parts.foldl notePart latest) turns := by
  rw [compactTurns, hu, ← hl]

theorem compactTurns_stepped (repo : Repo) (intentText : JsString) (opts : CompactOptions) (cutoff : JsNumber)
    (contents turns : List Json) (i : Nat) (before : Before) :
    geminiWire.TurnsRel (fun i => Wire.Stepped (geminiWire.TurnRel (geminiWire.UnitRan repo intentText opts contents) cutoff i))
      i before turns (compactTurns repo intentText opts cutoff i (latestPaths before) turns) := by
  induction turns generalizing i before with
  | nil => trivial
  | cons turn turns ih =>
    have hafter := latestPaths_after i before turn
    have hrest := ih (i + 1) (geminiWire.after i before turn)
    rw [hafter] at hrest
    cases hu : turn.arrField "parts" with
    | none =>
      rw [hu] at hrest
      rw [compactTurns, hu]
      exact ⟨⟨Wire.turnRel_no_units hu, fun _ => Wire.turnRel_no_units hu⟩, hrest⟩
    | some parts =>
      rw [hu] at hrest
      generalize hl : compactParts repo intentText opts (!isRecent i cutoff) (latestPaths before) parts = l
      rw [compactTurns_of_parts hu hl]
      refine ⟨?_, hrest⟩
      cases hrec : isRecent i cutoff with
      | true =>
        have hnil : (gather l).2 = [] := by
          rw [← hl, hrec]
          exact compactParts_recent ..
        rw [if_pos (List.isEmpty_iff.2 hnil)]
        exact ⟨Wire.turnRel_recent turn hrec, fun _ => Wire.turnRel_recent turn hrec⟩
      | false =>
        rw [hrec] at hl
        have hparts := compactParts_stepped repo intentText opts contents (i := i) parts before
        rw [← Bool.not_false, hl] at hparts
        apply Wire.turnRel_gather (W := geminiWire) hrec hu hparts
        split
        · rename_i hnil
          exact .inr ⟨rfl, List.isEmpty_iff.1 hnil⟩
        · exact .inl rfl

def geminiOpts (opts : CompactOptions) (body : Json) : CompactOptions :=
  optsWithEdits opts (scanGemini opts ((body.arrField "contents").getD [])).editedFiles

theorem unitsUnder_before {i : Nat} {before : Before} {us : List Json} {p : Before × Json}
    (hp : p ∈ Wire.unitsUnder i before us) {q : Nat × Json} (hq : q ∈ p.1) : q ∈ before ∨ q.2 ∈ us := by
  induction us generalizing before with
  | nil => cases hp
  | cons u us ih =>
    rcases List.mem_cons.1 hp with rfl | hp
    · exact .inl hq
    · rcases ih hp with h | h
      · rcases List.mem_append.1 h with h | h
        · exact .inl h
        · exact .inr (List.mem_singleton.1 h ▸ List.mem_cons_self ..)
      · exact .inr (List.mem_cons_of_mem _ h)

/-- What came before a unit are units of the transcript. -/
theorem oldUnits_before {W : Wire} {cutoff : JsNumber} {i : Nat} {before : Before} {ms : List Json} {p : Before × Json}
    (hp : p ∈ W.oldUnits cutoff i before ms) {q : Nat × Json} (hq : q ∈ p.1) :
    q ∈ before ∨ q.2 ∈ ms.flatMap W.unitsOf := by
  induction ms generalizing i before with
  | nil => cases hp
  | cons m ms ih =>
    rw [List.flatMap_cons, List.mem_append]
    rcases List.mem_append.1 hp with hp | hp
    · split at hp
      · cases hp
      · exact (unitsUnder_before hp hq).imp_right .inl
    · rcases ih hp with h | h
      · rcases List.mem_append.1 h with h | h
        · exact .inl h
        · obtain ⟨u, hu, rfl⟩ := List.mem_map.1 h
          exact .inr (.inl hu)
      · exact .inr (.inr h)

theorem scanPart_sawReadCall (s : GeminiScan) (p : Json) :
    (scanPart s p).sawReadCall = (s.sawReadCall || (partReadCall p).isSome) := by
  unfold scanPart partReadCall
  cases partCall p with
  | none => simp
  | some c =>
    obtain ⟨name, path⟩ := c
    by_cases hr : name ∈ readToolNames
    · simp [hr]
    · simp only [hr, if_false, Option.filter_some, decide_false, Bool.false_eq_true, Option.isSome_none, Bool.or_false]
      split
      · split <;> rfl
      · rfl

theorem sawReadCall_foldl (parts : List Json) (s : GeminiScan) :
    (parts.foldl scanPart s).sawReadCall = (s.sawReadCall || parts.any fun p => (partReadCall p).isSome) := by
  induction parts generalizing s with
  | nil => simp
  | cons p parts ih => rw [List.foldl_cons, ih, scanPart_sawReadCall, List.any_cons, Bool.or_assoc]

theorem latestPaths_no_call {before : Before} (h : ∀ p ∈ before, (partReadCall p.2).isSome = false) :
    latestPaths before = .empty := by
  unfold latestPaths
  generalize KeyedMap.empty = latest
  induction before with
  | nil => rfl
  | cons p before ih =>
    have hp : notePart latest p.2 = latest := by
      have hcall := h p (List.mem_cons_self ..)
      rw [Option.isSome_eq_false_iff, Option.isNone_iff_eq_none] at hcall
      unfold notePart
      rw [hcall]
    rw [List.foldl_cons, hp]
    exact ih fun q hq => h q (List.mem_cons_of_mem _ hq)

theorem gemini_ran {repo : Repo} {body : Json} {intentText : JsString} {opts : CompactOptions} {r : CompactResult}
    (h : compactGeminiHistory repo body intentText opts = some r) :
    geminiWire.Related (geminiWire.UnitRan repo intentText (geminiOpts opts body)) opts body r.body := by
  simp only [compactGeminiHistory, Option.bind_eq_bind, Option.bind_eq_some_iff] at h
  obtain ⟨contents, hb, h⟩ := h
  have hopts : geminiOpts opts body = optsWithEdits opts (scanGemini opts contents).editedFiles := by
    simp [geminiOpts, hb]
  rw [hopts]
  split at h
  · rename_i hnone
    cases h
    apply Wire.related_untouched
    intro contents' hb' p hp
    rw [Option.some.inj (hb'.symm.trans hb), Wire.oldUnits_of_noneOld hnone] at hp
    cases hp
  · split at h
    · cases h
    · split at h
      · rename_i hsaw
        cases h
        apply Wire.related_untouched
        intro contents' hb' p hp
        have hsame := Option.some.inj (hb'.symm.trans hb)
        subst hsame
        have hpaired : geminiWire.paired contents' p.1 p.2 = none := by
          have hempty : latestPaths p.1 = .empty := by
            apply latestPaths_no_call
            intro q hq
            have hmem := (oldUnits_before hp hq).resolve_left List.not_mem_nil
            rw [scanGemini, sawReadCall_foldl, Bool.false_or, Bool.not_eq_true', List.any_eq_false] at hsaw
            simpa using hsaw q.2 hmem
          simp only [geminiWire, hempty]
          cases partResponse p.2 <;> rfl
        unfold Wire.UnitRan
        rw [hpaired]
        cases geminiWire.slot p.2 <;> rfl
      · cases h
        exact Wire.related_walked (W := geminiWire) hb (compactTurns_stepped ..)

/-! ## Every wire -/

def wireOf : ProviderId → Wire
  | .anthropic => anthropicWire
  | .openai => openaiWire
  | .gemini => geminiWire

theorem wireOf_lawful (p : ProviderId) : (wireOf p).Lawful := by
  cases p with
  | anthropic => exact anthropicWire_lawful
  | openai => exact openaiWire_lawful
  | gemini => exact geminiWire_lawful

/-- A `null` among turns that are walked: the walk raises. -/
def walksNull (turns : String) (opts : CompactOptions) (body : Json) : Bool :=
  match body.arrField turns with
  | none => false
  | some msgs => !noneOld (recencyCutoff msgs.length opts) && msgs.any (·.isNull)

def raises (p : ProviderId) (opts : CompactOptions) (body : Json) : Bool :=
  match p with
  | .openai => false
  | .anthropic => walksNull "messages" opts body
  | .gemini => walksNull "contents" opts body

theorem compactHistory_eq_none (p : ProviderId) (repo : Repo) (body : Json) (intentText : JsString) (opts : CompactOptions) :
    compactHistory p repo body intentText opts = none ↔ raises p opts body = true := by
  cases p with
  | openai => simp [compactHistory, raises]
  | anthropic =>
    unfold compactHistory raises walksNull compactAnthropicHistory
    cases body.arrField "messages" with
    | none => simp
    | some msgs =>
      simp only [Option.isSome_some, if_true, Option.bind_eq_bind, Option.bind_some, Option.pure_def]
      cases noneOld (recencyCutoff msgs.length opts) with
      | true => simp
      | false =>
        cases msgs.any (·.isNull) with
        | true => simp
        | false =>
          simp only [Bool.false_eq_true, if_false]
          split <;> simp
  | gemini =>
    unfold compactHistory raises walksNull compactGeminiHistory
    cases body.arrField "contents" with
    | none => simp
    | some msgs =>
      simp only [Option.isSome_some, if_true, Option.bind_eq_bind, Option.bind_some, Option.pure_def]
      cases noneOld (recencyCutoff msgs.length opts) with
      | true => simp
      | false =>
        cases msgs.any (·.isNull) with
        | true => simp
        | false =>
          simp only [Bool.false_eq_true, if_false]
          split <;> simp

/-- The options under which a provider's walk decides on each read. -/
def walkOpts (p : ProviderId) (opts : CompactOptions) (body : Json) : CompactOptions :=
  match p with
  | .anthropic => anthropicOpts opts body
  | .openai => openaiOpts opts body
  | .gemini => geminiOpts opts body

theorem compactHistory_ran {p : ProviderId} {repo : Repo} {body : Json} {intentText : JsString} {opts : CompactOptions}
    {r : CompactResult} (h : compactHistory p repo body intentText opts = some r) :
    (wireOf p).Related ((wireOf p).UnitRan repo intentText (walkOpts p opts body)) opts body r.body := by
  have huntouched : ∀ {W : Wire} {R : List Json → Before → Json → Json → Prop}, body.arrField W.turns = none →
      W.Related R opts body (untouched body).body := by
    intro W R hnone
    unfold Wire.Related
    rw [hnone]
    rfl
  cases p with
  | openai =>
    cases h
    exact openai_ran ..
  | anthropic =>
    unfold compactHistory at h
    dsimp only at h
    split at h
    · exact anthropic_ran h
    · rename_i hnone
      cases h
      exact huntouched (W := anthropicWire) (Option.not_isSome_iff_eq_none.1 hnone)
  | gemini =>
    unfold compactHistory at h
    dsimp only at h
    split at h
    · exact gemini_ran h
    · rename_i hnone
      cases h
      exact huntouched (W := geminiWire) (Option.not_isSome_iff_eq_none.1 hnone)

/-- Where the walk does not raise, the law is the transcript's fit. -/
theorem law_iff_of_reads {p : ProviderId} {body : Json} {opts : CompactOptions} (hr : raises p opts body = false) :
    (∀ repo intentText r, compactHistory p repo body intentText opts = some r → (wireOf p).Law repo opts body r.body) ↔
      (wireOf p).Fit opts body := by
  have hsome : ∀ repo intentText, ∃ r, compactHistory p repo body intentText opts = some r := by
    intro repo intentText
    rw [← Option.isSome_iff_exists, Option.isSome_iff_ne_none]
    intro hnone
    rw [compactHistory_eq_none, hr] at hnone
    cases hnone
  choose out hout using hsome
  have hk : compactKnobs (walkOpts p opts body) = compactKnobs opts := by
    cases p <;> exact compactKnobs_optsWithEdits ..
  have hiff := Wire.law_iff_fit (wireOf_lawful p) (fun repo intentText => (out repo intentText).body)
    (walkOpts p opts body) hk fun repo intentText => compactHistory_ran (hout repo intentText)
  rw [← hiff]
  constructor
  · intro h repo intentText
    exact h repo intentText _ (hout repo intentText)
  · intro h repo intentText r heq
    rw [hout] at heq
    exact Option.some.inj heq ▸ h repo intentText

def readCallPart (path : String) : Json :=
  .obj [(ascii "functionCall", .obj [(ascii "name", .str (ascii "read_file")),
    (ascii "args", .obj [(ascii "path", .str (ascii path))])])]

def readResponsePart (text : JsString) : Json :=
  .obj [(ascii "functionResponse", .obj [(ascii "name", .str (ascii "read_file")),
    (ascii "response", .obj [(ascii "content", .str text)])])]

/-- Two files read in one turn and answered in the next. -/
def twoReads : List Json :=
  [.obj [(ascii "role", .str (ascii "model")), (ascii "parts", .arr [readCallPart "a.ts", readCallPart "b.ts"])],
    .obj [(ascii "role", .str (ascii "user")),
      (ascii "parts", .arr [readResponsePart (List.replicate 200 0x61), readResponsePart (List.replicate 200 0x62)])]]

def twoReadsBody : Json := .obj [(ascii "contents", .arr twoReads)]

def keepNone : CompactOptions := { keepRecentMessages := some (.fin 0) }

end Hayven.Proxy
