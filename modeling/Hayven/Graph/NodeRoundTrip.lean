import Hayven.Graph.Frontmatter
/-!
# Node markdown comes back

Reading undoes writing exactly where no field looks like a number that the reader
would take it for, and the summary is the text between the heading and the callers:
`renderNodeMarkdown_roundTrip_iff`.
-/
open Hayven.Lib Hayven.Util Hayven.Native
open Hayven.Crdt (maxDateMs)

namespace Hayven.Graph

/-! ## The summary -/

/-- The lines a name has below its first one, as they stand under the heading. -/
def nameRest (name : JsString) : List JsString := (splitLines (name ++ [0x60])).tail

/-- The lines up to the first heading that says `Observed`. -/
def unobserved (lines : List JsString) : List JsString := lines.takeWhile fun line => !isObserved line

/-- What a reader makes of a name and a summary that stand one under the other. -/
def readBack (name body : JsString) : JsString :=
  trim (joinLines (unobserved (nameRest name ++ [] :: (splitLines body ++ [[]]))))

/-- The reader finds the summary under the name: a name on one line over a summary with
no `\r\n` and no `Observed` heading. A name on more lines hides the summary behind its
own text, which must then be the summary. -/
def KeepsSummary (name body : JsString) : Prop :=
  if lineFeed ∈ name then
    trim (joinLines (unobserved (nameRest name))) = body ∧
      ((∃ line ∈ nameRest name, isObserved line = true) ∨ isObserved ((splitLines body).headD []) = true)
  else ¬ HasCrlf body ∧ ∀ line ∈ splitLines body, isObserved line = false

instance (name body : JsString) : Decidable (KeepsSummary name body) :=
  inferInstanceAs (Decidable (if lineFeed ∈ name then _ else _))

theorem summaryLines_true (lines : List JsString) : summaryLines true lines = unobserved lines := by
  induction lines with
  | nil => rfl
  | cons line lines ih =>
    rw [summaryLines, unobserved, List.takeWhile_cons]
    cases h : isObserved line with
    | true => rfl
    | false =>
      simp only [Bool.false_eq_true, if_false, if_true, Bool.not_false]
      rw [ih, unobserved]

theorem observed_or_not (lines : List JsString) :
    (∃ line ∈ lines, isObserved line = true) ∨ ∀ line ∈ lines, isObserved line = false := by
  rw [or_iff_not_imp_left]
  intro h line hline
  by_contra hobs
  exact h ⟨line, hline, by simpa using hobs⟩

theorem unobserved_append {a : List JsString} (h : ∀ line ∈ a, isObserved line = false) (b : List JsString) :
    unobserved (a ++ b) = a ++ unobserved b :=
  List.takeWhile_append_of_pos fun line hline => by rw [h line hline]; rfl

theorem unobserved_eq_self {lines : List JsString} (h : ∀ line ∈ lines, isObserved line = false) :
    unobserved lines = lines := by
  simpa [unobserved] using unobserved_append h []

theorem unobserved_append_of_mem {a : List JsString} (h : ∃ line ∈ a, isObserved line = true) (b : List JsString) :
    unobserved (a ++ b) = unobserved a := by
  induction a with
  | nil => simp at h
  | cons line a ih =>
    rw [List.cons_append, unobserved, unobserved, List.takeWhile_cons, List.takeWhile_cons]
    cases hline : isObserved line with
    | true => rfl
    | false =>
      have hrest : ∃ l ∈ a, isObserved l = true := by
        obtain ⟨l, hl, hobs⟩ := h
        rcases List.mem_cons.1 hl with rfl | hl
        · rw [hobs] at hline
          cases hline
        · exact ⟨l, hl, hobs⟩
      have htail := ih hrest
      rw [unobserved, unobserved] at htail
      simp only [Bool.not_false, if_true, htail]

theorem unobserved_append_stop (a : List JsString) {line : JsString} (h : isObserved line = true)
    (b : List JsString) : unobserved (a ++ line :: b) = unobserved a := by
  rcases observed_or_not a with ha | hnone
  · exact unobserved_append_of_mem ha _
  · have hstop : unobserved (line :: b) = [] := by
      rw [unobserved, List.takeWhile_cons, h]
      rfl
    rw [unobserved_append hnone, hstop, List.append_nil, unobserved_eq_self hnone]

theorem length_unobserved_lt {lines : List JsString} (h : ∃ line ∈ lines, isObserved line = true) :
    (unobserved lines).length < lines.length := by
  obtain ⟨line, hline, hobs⟩ := h
  apply lt_of_le_of_ne (List.takeWhile_sublist _).length_le
  intro heq
  have hall := (List.takeWhile_sublist _).eq_of_length heq
  have hnot := List.mem_takeWhile_imp (show line ∈ lines.takeWhile fun line => !isObserved line from hall.symm ▸ hline)
  rw [hobs] at hnot
  cases hnot

theorem not_observed_of_mem {lines : List JsString} {line : JsString} (h : line ∈ unobserved lines) :
    isObserved line = false := by
  simpa using List.mem_takeWhile_imp h

theorem takeSpaces_cons (u : UInt16) (s : JsString) :
    takeSpaces (u :: s) = if isJsSpace u = true then some (s.dropWhile isJsSpace) else none := by
  rw [takeSpaces, List.takeWhile_cons, List.dropWhile_cons]
  by_cases hu : isJsSpace u = true
  · simp [hu]
  · simp [hu]

theorem takeSpaces_append {s rest : JsString} (h : takeSpaces s = some rest) (hne : rest ≠ []) (t : JsString) :
    takeSpaces (s ++ t) = some (rest ++ t) := by
  cases s with
  | nil => cases h
  | cons u s =>
    rw [takeSpaces_cons] at h
    rw [List.cons_append, takeSpaces_cons]
    split at h
    case isFalse => cases h
    case isTrue hu =>
      have hdrop : s.dropWhile isJsSpace = rest := Option.some.inj h
      rw [if_pos hu, List.dropWhile_append, hdrop, if_neg (by simpa using hne)]

theorem isSome_takeSpaces_append {s : JsString} (h : (takeSpaces s).isSome = true) (t : JsString) :
    (takeSpaces (s ++ t)).isSome = true := by
  cases s with
  | nil => cases h
  | cons u s =>
    rw [takeSpaces_cons] at h
    rw [List.cons_append, takeSpaces_cons]
    split at h
    case isFalse => cases h
    case isTrue hu =>
      rw [if_pos hu]
      rfl

/-- A longer line says `Observed` if a beginning of it does. -/
theorem isObserved_of_prefix {a b : JsString} (h : a <+: b) (ha : isObserved a = true) : isObserved b = true := by
  obtain ⟨t, rfl⟩ := h
  unfold isObserved at ha ⊢
  rw [Bool.and_eq_true] at ha
  obtain ⟨hmark, ha⟩ := ha
  have hmark' : (ascii "##").isPrefixOf (a ++ t) = true :=
    List.isPrefixOf_iff_prefix.2 ((List.isPrefixOf_iff_prefix.1 hmark).trans (List.prefix_append a t))
  have hlen : 2 ≤ a.length := (List.isPrefixOf_iff_prefix.1 hmark).length_le
  rw [hmark', Bool.true_and, List.drop_append_of_le_length hlen]
  cases hspaces : takeSpaces (a.drop 2) with
  | none => rw [hspaces] at ha; cases ha
  | some rest =>
    rw [hspaces] at ha
    simp only [Bool.and_eq_true, decide_eq_true_eq] at ha
    have hlen' : 8 ≤ rest.length := by
      have := congrArg List.length ha.1
      simp only [List.length_map, List.length_take] at this
      have h8 : (ascii "observed").length = 8 := rfl
      omega
    have hrest : rest ≠ [] := List.ne_nil_of_length_pos (by omega)
    rw [takeSpaces_append hspaces hrest]
    simp only [List.take_append_of_le_length hlen', ha.1, List.drop_append_of_le_length hlen', decide_true,
      isSome_takeSpaces_append ha.2, Bool.and_self]

section Summary
variable {name body : JsString}

theorem nameRest_of_not_mem (h : lineFeed ∉ name) : nameRest name = [] := by
  have hnot : lineFeed ∉ name ++ [0x60] := by
    rw [List.mem_append, not_or]
    exact ⟨h, by decide⟩
  rw [nameRest, splitLines_of_not_mem hnot, List.tail_cons]

/-- Below its first line, a name on more lines ends in the backtick of the heading. -/
theorem joinLines_nameRest (h : lineFeed ∈ name) :
    nameRest name ≠ [] ∧ ∃ before, joinLines (nameRest name) = before ++ [0x60] := by
  have hlen := length_splitLines (name ++ [0x60])
  have hpos : 0 < name.count lineFeed := List.count_pos_iff.2 h
  have hlast := getLast_joinLines_splitLines (name ++ [0x60])
  rw [List.count_append] at hlen
  unfold nameRest
  cases hs : splitLines (name ++ [0x60]) with
  | nil => exact absurd hs (splitLines_ne_nil _)
  | cons line lines =>
    rw [hs, List.length_cons] at hlen
    have hne : lines ≠ [] := List.ne_nil_of_length_pos (by omega)
    refine ⟨hne, ?_⟩
    rw [hs, joinLines_cons line hne, List.getLast?_concat, List.getLast?_append] at hlast
    rw [List.tail_cons]
    cases hjoin : joinLines lines with
    | nil => rw [hjoin] at hlast; cases hlast
    | cons u rest =>
      rw [hjoin, List.getLast?_cons_cons, List.getLast?_cons] at hlast
      obtain ⟨init, hinit⟩ := List.getLast?_eq_some_iff.1 ((List.getLast?_cons (a := u) (l := rest)).trans hlast)
      exact ⟨init, hinit⟩

theorem not_mem_nameRest : ∀ line ∈ nameRest name, lineFeed ∉ line :=
  fun _ h => not_mem_of_mem_splitLines (List.mem_of_mem_tail h)

/-- A blank line at the end goes with the trimming. -/
theorem trim_joinLines_concat (lines : List JsString) : trim (joinLines (lines ++ [[]])) = trim (joinLines lines) := by
  by_cases hne : lines = []
  · rw [hne]
    rfl
  · rw [joinLines_append hne (List.cons_ne_nil [] []), joinLines_singleton]
    exact trimBy_append_blank _ (List.forall_mem_singleton.2 (by decide))

theorem trim_joinLines_nil_cons (lines : List JsString) : trim (joinLines ([] :: lines)) = trim (joinLines lines) := by
  by_cases hne : lines = []
  · rw [hne]
    rfl
  · rw [joinLines_cons [] hne, List.nil_append]
    exact trimBy_blank_cons (by decide) _

variable (hbody : Trimmed isJsSpace body) (hne : body ≠ [])
include hbody hne

/-- Under a name on one line. -/
theorem readBack_eq_iff_of_not_mem (h : lineFeed ∉ name) :
    readBack name body = body ↔ ¬ HasCrlf body ∧ ∀ line ∈ splitLines body, isObserved line = false := by
  have hread : readBack name body = trim (joinLines (unobserved (splitLines body ++ [[]]))) := by
    rw [readBack, nameRest_of_not_mem h, List.nil_append]
    exact trim_joinLines_nil_cons _
  rw [hread]
  rcases observed_or_not (splitLines body) with hobs | hnone
  · -- what is cut off takes a line end with it, or all of the summary
    have hnot : ¬ ∀ line ∈ splitLines body, isObserved line = false := by
      obtain ⟨line, hline, hline'⟩ := hobs
      intro hall
      rw [hall line hline] at hline'
      cases hline'
    refine ⟨fun heq => ?_, fun hkeep => absurd hkeep.2 hnot⟩
    rw [unobserved_append_of_mem hobs] at heq
    by_cases hnil : unobserved (splitLines body) = []
    · rw [hnil] at heq
      exact absurd heq.symm hne
    · have hlt := length_unobserved_lt hobs
      have hcount := count_joinLines hnil fun line hline =>
        not_mem_of_mem_splitLines ((List.takeWhile_sublist _).subset hline)
      have hle := (trimBy_sublist isJsSpace (joinLines (unobserved (splitLines body)))).count_le lineFeed
      have hbodyCount := length_splitLines body
      rw [trim] at heq
      rw [heq] at hle
      omega
  · rw [unobserved_append hnone, show unobserved [[]] = [[]] from rfl, trim_joinLines_concat]
    refine ⟨fun heq => ⟨fun hcrlf => ?_, hnone⟩, fun hkeep => ?_⟩
    · have hlt := (length_joinLines_splitLines body).2 hcrlf
      have hle := (trimBy_sublist isJsSpace (joinLines (splitLines body))).length_le
      rw [trim] at heq
      rw [heq] at hle
      omega
    · rw [joinLines_splitLines hkeep.1]
      exact hbody.trimBy_eq

/-- Under a name on more lines. -/
theorem readBack_eq_iff_of_mem (h : lineFeed ∈ name) :
    readBack name body = body ↔ trim (joinLines (unobserved (nameRest name))) = body ∧
      ((∃ line ∈ nameRest name, isObserved line = true) ∨ isObserved ((splitLines body).headD []) = true) := by
  rcases observed_or_not (nameRest name) with hname | hnameNone
  · rw [readBack, unobserved_append_of_mem hname]
    exact ⟨fun heq => ⟨heq, .inl hname⟩, fun hkeep => hkeep.1⟩
  have hname : ¬ ∃ line ∈ nameRest name, isObserved line = true := by
    rintro ⟨line, hline, hobs⟩
    rw [hnameNone line hline] at hobs
    cases hobs
  obtain ⟨hrest, before, hbefore⟩ := joinLines_nameRest h
  have hwhole : unobserved (nameRest name) = nameRest name := unobserved_eq_self hnameNone
  have hread : readBack name body =
      trim (joinLines (nameRest name ++ [] :: unobserved (splitLines body ++ [[]]))) := by
    rw [readBack, unobserved_append hnameNone]
    rfl
  rw [hread, hwhole]
  cases hsplit : splitLines body with
  | nil => exact absurd hsplit (splitLines_ne_nil body)
  | cons first others =>
  rw [List.headD_cons]
  by_cases hfirst : isObserved first = true
  · -- the summary is cut off whole
    have hcut : unobserved ((first :: others) ++ [[]]) = [] := by
      rw [unobserved, List.cons_append, List.takeWhile_cons, hfirst]
      rfl
    rw [hcut, trim_joinLines_concat]
    exact ⟨fun heq => ⟨heq, .inr hfirst⟩, fun hkeep => hkeep.1⟩
  · refine ⟨fun heq => ?_, fun hkeep => absurd (hkeep.2.resolve_left hname) hfirst⟩
    exfalso
    rcases observed_or_not (splitLines body) with hobs | hnone
    · -- a line of the summary that says so must then be a line of what is left
      rw [← hsplit, unobserved_append_of_mem hobs] at heq
      obtain ⟨line, hline, hobserved⟩ := hobs
      have htail : line ∈ (splitLines body).tail := by
        rw [hsplit] at hline ⊢
        rcases List.mem_cons.1 hline with rfl | hline
        · exact absurd hobserved hfirst
        · exact hline
      rw [← heq] at htail
      obtain ⟨line', hmem, hbegins⟩ := tail_splitLines_trim (by decide) (by simp) (by
        intro l hl
        rcases List.mem_append.1 hl with hl | hl
        · exact not_mem_nameRest l hl
        · rcases List.mem_cons.1 hl with rfl | hl
          · exact List.not_mem_nil
          · exact not_mem_of_mem_splitLines ((List.takeWhile_sublist _).subset hl)) line htail
      have hobserved' := isObserved_of_prefix hbegins hobserved
      rcases List.mem_append.1 hmem with hl | hl
      · rw [hnameNone _ hl] at hobserved'
        cases hobserved'
      · rcases List.mem_cons.1 hl with rfl | hl
        · cases hobserved'
        · rw [not_observed_of_mem hl] at hobserved'
          cases hobserved'
    · -- nothing is cut off, and the name's lines come on top
      rw [← hsplit, unobserved_append hnone, show unobserved [[]] = [[]] from rfl, ← List.cons_append,
        ← List.append_assoc, trim_joinLines_concat, joinLines_append hrest (List.cons_ne_nil _ _), hbefore,
        joinLines_cons [] (splitLines_ne_nil body)] at heq
      have hlast := getLast_joinLines_splitLines body
      have hmiddle : Trimmed isJsSpace (0x60 :: lineFeed :: lineFeed :: joinLines (splitLines body)) := by
        refine ⟨fun u hu => ?_, fun u hu => ?_⟩
        · cases hu
          decide
        · cases hjoin : joinLines (splitLines body) with
          | nil =>
            rw [hjoin] at hlast
            exact absurd (List.getLast?_eq_none_iff.1 hlast.symm) hne
          | cons v rest =>
            rw [hjoin] at hu hlast
            rw [List.getLast?_cons_cons, List.getLast?_cons_cons, List.getLast?_cons_cons, hlast] at hu
            exact hbody.last u hu
      have hinfix := infix_trimBy (a := before) (b := []) (List.cons_ne_nil _ _) hmiddle
      have hcount := hinfix.sublist.count_le lineFeed
      have htext : before ++ [0x60] ++ lineFeed :: ([] ++ lineFeed :: joinLines (splitLines body)) =
          before ++ 0x60 :: lineFeed :: lineFeed :: joinLines (splitLines body) ++ [] := by simp
      rw [htext, trim] at heq
      rw [heq, List.count_cons_of_ne (by decide), List.count_cons_self, List.count_cons_self] at hcount
      have hlines := count_joinLines (splitLines_ne_nil body) fun line hline => not_mem_of_mem_splitLines hline
      have hbodyCount := length_splitLines body
      omega

theorem readBack_eq_iff : readBack name body = body ↔ KeepsSummary name body := by
  unfold KeepsSummary
  split
  case isTrue h => exact readBack_eq_iff_of_mem hbody hne h
  case isFalse h => exact readBack_eq_iff_of_not_mem hbody hne h

end Summary

/-! ## The body of a file -/

/-- What stands below the frontmatter of a node. -/
def bodyText (rt : Runtime) (node : StoredNode) (neighbors : NodeNeighbors) : JsString :=
  joinLines [[], heading node.name, [], renderBody node, [],
    callersHeading, renderEdgeList rt neighbors.callers GraphEdge.src, [],
    calleesHeading, renderEdgeList rt neighbors.callees GraphEdge.dst, []]

theorem renderNodeMarkdown_eq (rt : Runtime) (node : StoredNode) (neighbors : NodeNeighbors) :
    renderNodeMarkdown rt node neighbors =
      (renderFrontmatter rt node).map fun front => front ++ lineFeed :: bodyText rt node neighbors := by
  unfold renderNodeMarkdown bodyText
  apply congrArg (fun f => Option.map f (renderFrontmatter rt node))
  funext front
  exact joinLines_cons front (List.cons_ne_nil _ _)

/-- The lines of the heading, over those of the name that follow its first one. -/
theorem splitLines_heading (name : JsString) :
    ∃ first, splitLines (heading name) = (0x23 :: 0x20 :: first) :: nameRest name := by
  unfold heading nameRest
  rw [splitLines_cons (by decide) fun h => absurd h.1 (by decide),
    splitLines_cons (by decide) fun h => absurd h.1 (by decide),
    splitLines_cons (by decide) fun h => absurd h.1 (by decide)]
  cases h : splitLines (name ++ [0x60]) with
  | nil => exact absurd h (splitLines_ne_nil _)
  | cons line lines => exact ⟨0x60 :: line, rfl⟩

theorem trimmed_placeholder : Trimmed isJsSpace summaryPlaceholder where
  head u hu := by
    have hfirst : summaryPlaceholder.head? = some 0x5F := by decide
    obtain rfl := Option.some.inj (hfirst.symm.trans hu)
    decide
  last u hu := by
    have hlast : summaryPlaceholder.getLast? = some 0x5F := by decide
    obtain rfl := Option.some.inj (hlast.symm.trans hu)
    decide

theorem trimmed_renderBody (node : StoredNode) : Trimmed isJsSpace (renderBody node) ∧ renderBody node ≠ [] := by
  unfold renderBody trimmedSummary
  cases node.summary with
  | none => exact ⟨trimmed_placeholder, by decide⟩
  | some s =>
    dsimp only
    split
    case isTrue h => exact ⟨trimmed_trimBy isJsSpace s, h⟩
    case isFalse => exact ⟨trimmed_placeholder, by decide⟩

theorem extractSummaryBody_bodyText (rt : Runtime) (node : StoredNode) (neighbors : NodeNeighbors) :
    extractSummaryBody (bodyText rt node neighbors) = readBack node.name (renderBody node) := by
  obtain ⟨hbody, hne⟩ := trimmed_renderBody node
  obtain ⟨first, hfirst⟩ := splitLines_heading node.name
  have hlast : (renderBody node).getLast? ≠ some carriageReturn := by
    intro hcr
    exact absurd (hbody.last _ hcr) (by decide)
  have hheading : (heading node.name).getLast? ≠ some carriageReturn := by
    have hconcat : heading node.name = (0x23 :: 0x20 :: 0x60 :: node.name) ++ [0x60] := rfl
    rw [hconcat, List.getLast?_concat]
    exact fun h => absurd (Option.some.inj h) (by decide)
  have hobserved : isObserved callersHeading = true := by decide
  obtain ⟨rest, hrest⟩ : ∃ rest, bodyText rt node neighbors =
      lineFeed :: (heading node.name ++ lineFeed :: lineFeed :: (renderBody node ++ lineFeed :: lineFeed ::
        (callersHeading ++ lineFeed :: rest))) :=
    ⟨joinLines [renderEdgeList rt neighbors.callers GraphEdge.src, [], calleesHeading,
      renderEdgeList rt neighbors.callees GraphEdge.dst, []], by
        unfold bodyText
        iterate 6 rw [joinLines_cons _ (List.cons_ne_nil _ _)]
        simp⟩
  have hcallers : splitLines (callersHeading ++ lineFeed :: rest) = callersHeading :: splitLines rest := by
    rw [splitLines_append_lineFeed (by decide), splitLines_of_not_mem (by decide), List.singleton_append]
  have hstop (ls : List JsString) : unobserved (nameRest node.name ++ [] :: (splitLines (renderBody node) ++
      [] :: callersHeading :: ls)) =
      unobserved (nameRest node.name ++ [] :: (splitLines (renderBody node) ++ [[]])) := by
    have h := unobserved_append_stop (nameRest node.name ++ [] :: (splitLines (renderBody node) ++ [[]])) hobserved ls
    rwa [List.append_assoc, List.cons_append, List.append_assoc, List.singleton_append] at h
  have hlines : splitLines (bodyText rt node neighbors) = [] :: (0x23 :: 0x20 :: first) ::
      (nameRest node.name ++ [] :: (splitLines (renderBody node) ++ [] :: callersHeading :: splitLines rest)) := by
    rw [hrest, splitLines_lineFeed, splitLines_append_lineFeed hheading, hfirst, splitLines_lineFeed,
      splitLines_append_lineFeed hlast, splitLines_lineFeed, hcallers]
    rfl
  have hskip (ls : List JsString) : summaryLines false ([] :: (0x23 :: 0x20 :: first) :: ls) = summaryLines true ls := rfl
  rw [extractSummaryBody, hlines, hskip, summaryLines_true, hstop, readBack]

/-! ## The fields -/

/-- `as_str` of a language. -/
def languageName : Language → JsString
  | .python => ascii "python"
  | .typescript => ascii "typescript"
  | .tsx => ascii "tsx"
  | .javascript => ascii "javascript"
  | .rust => ascii "rust"
  | .go => ascii "go"
  | .astro => ascii "astro"

def FiniteDouble (n : JsNumber) : Prop := ∃ q, n = .fin q ∧ IsDouble q

/-- A node of the ingest, or of the summarizer: any texts, a language of the parser, a
hash in hex, and finite numbers. -/
structure Produced (node : StoredNode) : Prop where
  language : ∃ l, node.language = languageName l
  astHash : ∃ digest, node.astHash = bytesToHex digest
  start : FiniteDouble node.range.1
  stop : FiniteDouble node.range.2
  clock : FiniteDouble node.logicalClock
  lastSeen : FiniteDouble node.lastSeen

def modifierFields : Option JsString → List (String × JsString)
  | some writer => if writer ≠ [] then [("last_modified_by", escapeYaml writer)] else []
  | none => []

def frontmatterFields (rt : Runtime) (node : StoredNode) (lastSeen : JsString) : List (String × JsString) :=
  [("id", escapeYaml node.id), ("name", escapeYaml node.name), ("qualified_name", escapeYaml node.qualifiedName),
    ("kind", kindText node.kind), ("language", node.language), ("file", escapeYaml node.file),
    ("range", rangeText rt node.range), ("ast_hash", ascii "blake3:" ++ node.astHash), ("last_seen", lastSeen),
    ("logical_clock", Json.numToString rt.number node.logicalClock)] ++ modifierFields node.lastModifiedBy

theorem frontmatterLines_eq (rt : Runtime) (node : StoredNode) (lastSeen : JsString) :
    frontmatterLines rt node lastSeen =
      (frontmatterFields rt node lastSeen).map fun p => frontmatterLine p.1 p.2 := by
  unfold frontmatterLines frontmatterFields modifierLines modifierFields
  cases node.lastModifiedBy with
  | none => rfl
  | some writer =>
    dsimp only
    split <;> rfl

theorem plainKey_of_units {key : String} (hne : ascii key ≠ []) (h : ∀ u ∈ ascii key, 0x5F ≤ u ∧ u ≤ 0x7A) :
    PlainKey key := by
  have hunits : ∀ u ∈ ascii key, 0x5F ≤ u.toNat ∧ u.toNat ≤ 0x7A := fun u hu =>
    ⟨UInt16.le_iff_toNat_le.1 (h u hu).1, UInt16.le_iff_toNat_le.1 (h u hu).2⟩
  have hinline : Inline (ascii key) := inline_of_units fun u hu => by
    have := hunits u hu
    omega
  refine ⟨fun hm => absurd (hunits _ hm).1 (by decide), trim_of_inline hinline,
    ⟨hinline.no_lineFeed, hinline.no_return⟩, ?_⟩
  obtain ⟨u, rest, hu⟩ := List.exists_cons_of_ne_nil hne
  refine ⟨u, rest, hu, ?_⟩
  rintro rfl
  exact absurd (hunits 0x2D (hu ▸ List.mem_cons_self)).1 (by decide)

def frontmatterKeys : List String :=
  ["id", "name", "qualified_name", "kind", "language", "file", "range", "ast_hash", "last_seen", "logical_clock",
    "last_modified_by"]

theorem plainKey_of_mem : ∀ key ∈ frontmatterKeys, PlainKey key := by
  have h : ∀ key ∈ frontmatterKeys, ascii key ≠ [] ∧ ∀ u ∈ ascii key, 0x5F ≤ u ∧ u ≤ 0x7A := by decide
  exact fun key hkey => plainKey_of_units (h key hkey).1 (h key hkey).2

theorem nodup_frontmatterKeys : (frontmatterKeys.map ascii).Nodup := by decide

/-- The writer id comes last, or not at all. -/
theorem keys_frontmatterFields (rt : Runtime) (node : StoredNode) (lastSeen : JsString) :
    (frontmatterFields rt node lastSeen).map Prod.fst <+: frontmatterKeys := by
  unfold frontmatterFields modifierFields
  cases node.lastModifiedBy with
  | none => exact ⟨["last_modified_by"], rfl⟩
  | some writer =>
    dsimp only
    split
    · exact List.prefix_refl _
    · exact ⟨["last_modified_by"], rfl⟩

theorem dataField_frontmatterFields {rt : Runtime} {node : StoredNode} {lastSeen : JsString} {key : String}
    {value : JsString} (h : (key, value) ∈ frontmatterFields rt node lastSeen) :
    dataField key ((frontmatterFields rt node lastSeen).map fun p => (ascii p.1, parseScalar rt p.2)) =
      some (parseScalar rt value) := by
  apply dataField_of_mem
  · have hkeys : ((frontmatterFields rt node lastSeen).map fun p => (ascii p.1, parseScalar rt p.2)).map Prod.fst =
        ((frontmatterFields rt node lastSeen).map Prod.fst).map ascii := by simp
    rw [hkeys]
    exact nodup_frontmatterKeys.sublist ((keys_frontmatterFields rt node lastSeen).sublist.map ascii)
  · exact List.mem_map.2 ⟨(key, value), h, rfl⟩

theorem dataField_modifier_of_nil {rt : Runtime} {node : StoredNode} {lastSeen : JsString}
    (h : modifierFields node.lastModifiedBy = []) :
    dataField "last_modified_by" ((frontmatterFields rt node lastSeen).map fun p => (ascii p.1, parseScalar rt p.2)) =
      none := by
  apply dataField_of_not_mem
  rw [frontmatterFields, h]
  simp only [List.append_nil, List.map_cons, List.map_nil]
  decide

/-- A word that starts with a letter is read as it stands. -/
theorem parseScalar_word (rt : Runtime) {u : UInt16} (s : JsString) (hu : 0x61 ≤ u ∧ u ≤ 0x7A) :
    parseScalar rt (u :: s) = .str (u :: s) := by
  have hlow : 0x61 ≤ u.toNat := UInt16.le_iff_toNat_le.1 hu.1
  have hnum : isNumeral (u :: s) = false := by
    apply isNumeral_eq_false List.mem_cons_self
    rintro (h | rfl | rfl)
    · have := (toNat_of_isDigit h).2
      omega
    · exact absurd hlow (by decide)
    · exact absurd hlow (by decide)
  rw [parseScalar_bare, hnum]
  · rfl
  · intro v hv
    cases hv
    constructor <;> (rintro rfl; exact absurd hlow (by decide))

/-! ## What comes back -/

section Fields
variable {rt : Runtime} (hrt : rt.number.Documented) {node : StoredNode} (hnode : Produced node) {ms : Int}

theorem inline_isoText (ms : Int) : Inline (isoText ms) := by
  apply inline_of_units
  intro u hu
  have hmarks : ∀ v ∈ ascii "+-:.TZ", 0x21 ≤ v.toNat ∧ v.toNat ≤ 0x7E := by decide
  rcases (isoText_units ms).2 u hu with h | h
  · have := toNat_of_isDigit h
    omega
  · exact hmarks u h

theorem parseScalar_isoText (rt : Runtime) (ms : Int) : parseScalar rt (isoText ms) = .str (isoText ms) := by
  obtain ⟨hmark, hunits⟩ := isoText_units ms
  rw [parseScalar_bare, isNumeral_eq_false hmark (by decide)]
  · rfl
  · intro u hu
    have h := hunits u (List.mem_of_mem_head? hu)
    constructor <;> (rintro rfl; revert h; decide)

theorem hexDigit_bare : ∀ n < 16, isBareUnit (hexDigit n) = true := by decide

theorem units_bytesToHex (bs : Bytes) : ∀ u ∈ bytesToHex bs, isBareUnit u = true := by
  intro u hu
  obtain ⟨b, -, hu⟩ := List.mem_flatMap.1 hu
  have hb := b.toNat_lt
  rcases List.mem_cons.1 hu with rfl | hu
  · exact hexDigit_bare _ (by omega)
  · rw [List.mem_singleton.1 hu]
    exact hexDigit_bare _ (by omega)

include hnode in
theorem inline_hash : Inline (ascii "blake3:" ++ node.astHash) := by
  obtain ⟨digest, hdigest⟩ := hnode.astHash
  have hmark : ∀ v ∈ ascii "blake3:", 0x21 ≤ v.toNat ∧ v.toNat ≤ 0x7E := by decide
  apply inline_of_units
  intro u hu
  rcases List.mem_append.1 hu with hu | hu
  · exact hmark u hu
  · rw [hdigest] at hu
    have := toNat_of_isBareUnit (units_bytesToHex digest u hu)
    omega

include hrt hnode in
theorem frontmatterFields_inline : ∀ p ∈ frontmatterFields rt node (isoText ms), PlainKey p.1 ∧ Inline p.2 := by
  have hkind : Inline (kindText node.kind) := by
    apply inline_of_units
    cases node.kind <;> decide
  have hlanguage : Inline node.language := by
    obtain ⟨l, hl⟩ := hnode.language
    rw [hl]
    apply inline_of_units
    cases l <;> decide
  have hrange : Inline (rangeText rt node.range) := by
    obtain ⟨a, ha, hdoubleA⟩ := hnode.start
    obtain ⟨b, hb, hdoubleB⟩ := hnode.stop
    have hA := inline_print hrt hdoubleA
    have hB := inline_print hrt hdoubleB
    rw [rangeText, ha, hb]
    refine ⟨?_, ?_, ⟨by intro u hu; cases hu; decide, ?_⟩⟩
    · simp only [Json.numToString, List.mem_append, List.mem_cons, List.not_mem_nil, not_or]
      exact ⟨⟨⟨by decide, hA.no_lineFeed⟩, by decide, by decide, hB.no_lineFeed⟩, by decide, not_false⟩
    · simp only [Json.numToString, List.mem_append, List.mem_cons, List.not_mem_nil, not_or]
      exact ⟨⟨⟨by decide, hA.no_return⟩, by decide, by decide, hB.no_return⟩, by decide, not_false⟩
    · intro u hu
      rw [List.getLast?_concat] at hu
      cases hu
      decide
  have hclock : Inline (Json.numToString rt.number node.logicalClock) := by
    obtain ⟨q, hq, hdouble⟩ := hnode.clock
    rw [hq]
    exact inline_print hrt hdouble
  intro p hp
  refine ⟨plainKey_of_mem _ ((keys_frontmatterFields rt node (isoText ms)).subset (List.mem_map_of_mem hp)), ?_⟩
  unfold frontmatterFields at hp
  rcases List.mem_append.1 hp with hp | hp
  · simp only [List.mem_cons, List.not_mem_nil, or_false] at hp
    rcases hp with rfl | rfl | rfl | rfl | rfl | rfl | rfl | rfl | rfl | rfl
    · exact inline_escapeYaml _
    · exact inline_escapeYaml _
    · exact inline_escapeYaml _
    · exact hkind
    · exact hlanguage
    · exact inline_escapeYaml _
    · exact hrange
    · exact inline_hash hnode
    · exact inline_isoText ms
    · exact hclock
  · unfold modifierFields at hp
    split at hp
    · split at hp
      · rw [List.mem_singleton.1 hp]
        exact inline_escapeYaml _
      · cases hp
    · cases hp

theorem getD_ite {c : Bool} (s fallback : JsString) :
    (if c then none else some s).getD fallback = if c then fallback else s := by
  cases c <;> rfl

/-- The node that the reader makes of a written one. -/
def readNode (rt : Runtime) (node : StoredNode) (ms : Int) : StoredNode :=
  let id := if isNumeral node.id then [] else node.id
  let name := if isNumeral node.name then lastSegment id else node.name
  { id, name
    qualifiedName := if isNumeral node.qualifiedName then name else node.qualifiedName
    kind := node.kind
    file := if isNumeral node.file then [] else node.file
    language := node.language
    range :=
      if isNumeral (Json.numToString rt.number node.range.1) ∧ isNumeral (Json.numToString rt.number node.range.2) then
        node.range
      else (.fin 0, .fin 0)
    astHash := node.astHash
    summary := some (readBack node.name (renderBody node))
    lastSeen := .fin ms
    logicalClock := if isNumeral (Json.numToString rt.number node.logicalClock) then node.logicalClock else .fin 0
    lastModifiedBy := node.lastModifiedBy.filter fun writer => writer ≠ [] && !isNumeral writer }

theorem stringField_escapeYaml {rt : Runtime} {key : String} {s : JsString} {data : List (JsString × Json)}
    (h : dataField key data = some (parseScalar rt (escapeYaml s))) :
    stringField key data = if isNumeral s then none else some s := by
  rw [stringField, h, parseScalar_escapeYaml]
  cases isNumeral s <;> rfl

theorem stringField_of_str {rt : Runtime} {key : String} {value : JsString} {data : List (JsString × Json)}
    (h : dataField key data = some (parseScalar rt value)) (hvalue : parseScalar rt value = .str value) :
    stringField key data = some value := by
  rw [stringField, h, hvalue]

theorem asKind_kindText (rt : Runtime) (kind : NodeKind) : asKind (some (parseScalar rt (kindText kind))) = kind := by
  have hword : parseScalar rt (kindText kind) = .str (kindText kind) := by
    cases kind <;> exact parseScalar_word rt _ (by decide)
  rw [hword]
  cases kind <;> decide

theorem readLastSeen_isoText (rt : Runtime) (now : JsNumber) {t : JsNumber} {text : JsString}
    (h : toISOString t = some text) (hms : timeClip t = some ms) : readLastSeen rt now (some text) = .fin ms := by
  obtain ⟨ms', hms', hparse⟩ := parseDate_toISOString h rt.otherDate
  have hne : text ≠ [] := by
    rintro rfl
    rw [toISOString, hms, Option.map_some] at h
    exact absurd (Option.some.inj h ▸ (isoText_units ms).1) List.not_mem_nil
  rw [readLastSeen]
  simp only [if_pos hne, hparse]
  rw [hms] at hms'
  rw [Option.some.inj hms']
  rfl

include hrt hnode in
theorem parseNodeMarkdown_text (now : JsNumber) (neighbors : NodeNeighbors) (hms : timeClip node.lastSeen = some ms) :
    (parseNodeMarkdown rt now
      (joinLines (fence :: frontmatterLines rt node (isoText ms) ++ [fence]) ++ lineFeed ::
        bodyText rt node neighbors)).node = readNode rt node ms := by
  have hfields : frontmatterFields rt node (isoText ms) ≠ [] := List.cons_ne_nil _ _
  have hparse := parseFrontmatter_lines rt hfields (frontmatterFields_inline hrt hnode) (bodyText rt node neighbors)
  rw [← frontmatterLines_eq] at hparse
  generalize hdata : ((frontmatterFields rt node (isoText ms)).map fun p => (ascii p.1, parseScalar rt p.2)) = data
    at hparse
  have hget (key : String) (value : JsString) (h : (key, value) ∈ frontmatterFields rt node (isoText ms)) :
      dataField key data = some (parseScalar rt value) := hdata ▸ dataField_frontmatterFields h
  have hid := stringField_escapeYaml (hget "id" (escapeYaml node.id) (by simp [frontmatterFields]))
  have hname := stringField_escapeYaml
    (hget "name" (escapeYaml node.name) (by simp [frontmatterFields]))
  have hqualified := stringField_escapeYaml
    (hget "qualified_name" (escapeYaml node.qualifiedName) (by simp [frontmatterFields]))
  have hfile := stringField_escapeYaml
    (hget "file" (escapeYaml node.file) (by simp [frontmatterFields]))
  have hkind : asKind (dataField "kind" data) = node.kind := by
    rw [hget "kind" (kindText node.kind) (by simp [frontmatterFields])]
    exact asKind_kindText rt node.kind
  have hlanguage : stringField "language" data = some node.language := by
    obtain ⟨l, hl⟩ := hnode.language
    apply stringField_of_str (hget "language" (node.language) (by simp [frontmatterFields]))
    rw [hl]
    cases l <;> exact parseScalar_word rt _ (by decide)
  have hrange : asRange (dataField "range" data) = (readNode rt node ms).range := by
    obtain ⟨a, ha, hdoubleA⟩ := hnode.start
    obtain ⟨b, hb, hdoubleB⟩ := hnode.stop
    have hnodeRange : node.range = (.fin a, .fin b) := by rw [← ha, ← hb]
    rw [hget "range" (rangeText rt node.range) (by simp [frontmatterFields]), hnodeRange,
      asRange_rangeText hrt hdoubleA hdoubleB, readNode, hnodeRange]
    rfl
  have hhash : stringField "ast_hash" data = some (ascii "blake3:" ++ node.astHash) :=
    stringField_of_str (hget _ _ (by simp [frontmatterFields])) (parseScalar_word rt _ (by decide))
  have hseen : readLastSeen rt now (stringField "last_seen" data) = .fin ms := by
    rw [stringField_of_str (hget _ _ (by simp [frontmatterFields])) (parseScalar_isoText rt ms)]
    exact readLastSeen_isoText rt now (by rw [toISOString, hms, Option.map_some]) hms
  have hclock : asClock (dataField "logical_clock" data) = (readNode rt node ms).logicalClock := by
    obtain ⟨q, hq, hdouble⟩ := hnode.clock
    have hvalue : Json.numToString rt.number node.logicalClock = rt.number.print q := by rw [hq, Json.numToString]
    rw [hget "logical_clock" (Json.numToString rt.number node.logicalClock)
      (by simp [frontmatterFields]), readNode, hvalue, parseScalar, parseScalarFrom_print hrt _ hdouble, hq]
    cases isNumeral (rt.number.print q) <;> rfl
  have hmodifier : (stringField "last_modified_by" data).filter (· ≠ []) = (readNode rt node ms).lastModifiedBy := by
    show _ = node.lastModifiedBy.filter fun writer => writer ≠ [] && !isNumeral writer
    by_cases hwriter : modifierFields node.lastModifiedBy = []
    · rw [stringField, ← hdata, dataField_modifier_of_nil hwriter]
      cases hmod : node.lastModifiedBy with
      | none => rfl
      | some writer =>
        have hne : writer = [] := by
          by_contra hne
          rw [hmod, modifierFields, if_pos hne] at hwriter
          exact absurd hwriter (List.cons_ne_nil _ _)
        rw [hne]
        rfl
    · cases hmod : node.lastModifiedBy with
      | none => exact absurd (by rw [hmod, modifierFields]) hwriter
      | some writer =>
        have hne : writer ≠ [] := by
          rintro rfl
          exact hwriter (by rw [hmod, modifierFields, if_neg (not_not.2 rfl)])
        have hread := stringField_escapeYaml (hget "last_modified_by" (escapeYaml writer) (by
          rw [frontmatterFields, hmod, modifierFields, if_pos hne]
          exact List.mem_append_right _ List.mem_cons_self))
        rw [hread]
        cases hnum : isNumeral writer <;> simp [Option.filter_some, hne, hnum]
  unfold parseNodeMarkdown
  dsimp only
  rw [hparse]
  simp only [hid, hname, hqualified, hfile, hkind, hlanguage, hrange, hhash, hseen, hclock, hmodifier,
    extractSummaryBody_bodyText, getD_ite, Option.getD_some, Option.map_some, stripBlakePrefix, stripPrefix_append]
  rfl

end Fields

/-! ## The round trip -/

/-- A node is written, and what is read of the text is the expected one. -/
def ComesBack (rt : Runtime) (now : JsNumber) (node : StoredNode) (neighbors : NodeNeighbors)
    (expected : StoredNode) : Prop :=
  ∃ text, renderNodeMarkdown rt node neighbors = some text ∧ (parseNodeMarkdown rt now text).node = expected

/-- The summary without the blanks around it; an absent or blank one is back as the text
that says so. -/
def restored (node : StoredNode) : StoredNode := { node with summary := some (renderBody node) }

/-- No field of the node is read as something else. -/
structure Recoverable (rt : Runtime) (node : StoredNode) : Prop where
  id : isNumeral node.id = false
  name : isNumeral node.name = false ∨ node.name = lastSegment node.id
  qualifiedName : isNumeral node.qualifiedName = false ∨ node.qualifiedName = node.name
  file : isNumeral node.file = false
  range : isNumeral (Json.numToString rt.number node.range.1) = true ∧
    isNumeral (Json.numToString rt.number node.range.2) = true
  clock : isNumeral (Json.numToString rt.number node.logicalClock) = true
  lastSeen : ∃ t : Int, node.lastSeen = .fin t ∧ |t| ≤ maxDateMs
  modifier : ∀ writer ∈ node.lastModifiedBy, writer ≠ [] ∧ isNumeral writer = false
  summary : KeepsSummary node.name (renderBody node)

theorem isNumeral_print_zero {rt : NumberText} (hrt : rt.Documented) : isNumeral (Json.numToString rt (.fin 0)) = true := by
  rw [Json.numToString, hrt.print_zero]
  decide

theorem nil_eq_iff_of_isNumeral {s : JsString} : (if isNumeral s then [] else s) = s ↔ isNumeral s = false := by
  cases h : isNumeral s with
  | false => simp
  | true => simpa [eq_comm] using (units_of_isNumeral h).1

theorem ite_eq_self_iff {c : Bool} {s fallback : JsString} :
    (if c then fallback else s) = s ↔ c = false ∨ s = fallback := by
  cases c <;> simp [eq_comm]

theorem lastSeen_eq_iff {t : JsNumber} {ms : Int} (hms : timeClip t = some ms) :
    JsNumber.fin ms = t ↔ ∃ s : Int, t = .fin s ∧ |s| ≤ maxDateMs := by
  constructor
  · rintro rfl
    exact ⟨ms, rfl, abs_le_of_timeClip hms⟩
  · rintro ⟨s, rfl, hs⟩
    rw [timeClip_intCast hs] at hms
    rw [Option.some.inj hms]

theorem filter_eq_self_iff {modifier : Option JsString} :
    (modifier.filter fun writer => writer ≠ [] && !isNumeral writer) = modifier ↔
      ∀ writer ∈ modifier, writer ≠ [] ∧ isNumeral writer = false := by
  cases modifier with
  | none => simp
  | some writer => simp [Option.filter_some]

theorem readNode_eq_iff {rt : Runtime} (hrt : rt.number.Documented) {node : StoredNode} {ms : Int}
    (hms : timeClip node.lastSeen = some ms) : readNode rt node ms = restored node ↔ Recoverable rt node := by
  obtain ⟨hbody, hne⟩ := trimmed_renderBody node
  have hzero := isNumeral_print_zero hrt
  have hrange : (if isNumeral (Json.numToString rt.number node.range.1) = true ∧
      isNumeral (Json.numToString rt.number node.range.2) = true then node.range else (.fin 0, .fin 0)) = node.range ↔
      isNumeral (Json.numToString rt.number node.range.1) = true ∧
        isNumeral (Json.numToString rt.number node.range.2) = true := by
    refine ⟨fun h => ?_, fun h => if_pos h⟩
    by_contra hnot
    rw [if_neg hnot] at h
    rw [← h] at hnot
    exact hnot ⟨hzero, hzero⟩
  have hclock : (if isNumeral (Json.numToString rt.number node.logicalClock) = true then node.logicalClock else .fin 0) =
      node.logicalClock ↔ isNumeral (Json.numToString rt.number node.logicalClock) = true := by
    refine ⟨fun h => ?_, fun h => if_pos h⟩
    by_contra hnot
    rw [if_neg hnot] at h
    rw [← h] at hnot
    exact hnot hzero
  constructor
  · intro h
    have hid := nil_eq_iff_of_isNumeral.1 (congrArg (fun n => n.id) h)
    have hname : (if isNumeral node.name then lastSegment (if isNumeral node.id then [] else node.id) else node.name) =
        node.name := congrArg (fun n => n.name) h
    have hqualified : (if isNumeral node.qualifiedName then
        (if isNumeral node.name then lastSegment (if isNumeral node.id then [] else node.id) else node.name)
        else node.qualifiedName) = node.qualifiedName := congrArg (fun n => n.qualifiedName) h
    rw [hname, ite_eq_self_iff] at hqualified
    rw [hid, if_neg Bool.false_ne_true, ite_eq_self_iff] at hname
    have hsummary : some (readBack node.name (renderBody node)) = some (renderBody node) :=
      congrArg (fun n => n.summary) h
    exact
      { id := hid
        name := hname
        qualifiedName := hqualified
        file := nil_eq_iff_of_isNumeral.1 (congrArg (fun n => n.file) h)
        range := hrange.1 (congrArg (fun n => n.range) h)
        clock := hclock.1 (congrArg (fun n => n.logicalClock) h)
        lastSeen := (lastSeen_eq_iff hms).1 (congrArg (fun n => n.lastSeen) h)
        modifier := filter_eq_self_iff.1 (congrArg (fun n => n.lastModifiedBy) h)
        summary := (readBack_eq_iff hbody hne).1 (Option.some.inj hsummary) }
  · intro h
    have hid := nil_eq_iff_of_isNumeral.2 h.id
    have hname := ite_eq_self_iff.2 h.name
    have hqualified := ite_eq_self_iff.2 h.qualifiedName
    have hfile := nil_eq_iff_of_isNumeral.2 h.file
    have hlastSeen := (lastSeen_eq_iff hms).2 h.lastSeen
    have hmodifier := filter_eq_self_iff.2 h.modifier
    have hsummary := (readBack_eq_iff hbody hne).2 h.summary
    unfold readNode restored
    simp only [hid, hname, hqualified, hfile, hrange.2 h.range, hclock.2 h.clock, hlastSeen, hmodifier, hsummary]

/-- What was written is read again exactly if no field is read as something else. -/
theorem renderNodeMarkdown_roundTrip_iff {rt : Runtime} (hrt : rt.number.Documented) (now : JsNumber)
    {node : StoredNode} (hnode : Produced node) (neighbors : NodeNeighbors) :
    ComesBack rt now node neighbors (restored node) ↔ Recoverable rt node := by
  cases hms : timeClip node.lastSeen with
  | none =>
    constructor
    · rintro ⟨text, htext, -⟩
      rw [renderNodeMarkdown_eq, renderFrontmatter, toISOString, hms] at htext
      cases htext
    · rintro h
      obtain ⟨t, ht, hbound⟩ := h.lastSeen
      rw [ht, timeClip_intCast hbound] at hms
      cases hms
  | some ms =>
    have hread := parseNodeMarkdown_text hrt hnode now neighbors hms
    have htext : renderNodeMarkdown rt node neighbors =
        some (joinLines (fence :: frontmatterLines rt node (isoText ms) ++ [fence]) ++ lineFeed ::
          bodyText rt node neighbors) := by
      rw [renderNodeMarkdown_eq, renderFrontmatter, toISOString, hms]
      rfl
    rw [← readNode_eq_iff hrt hms, ← hread, ComesBack, htext]
    constructor
    · rintro ⟨text, h, heq⟩
      rwa [Option.some.inj h]
    · exact fun heq => ⟨_, rfl, heq⟩

/-- A runtime that prints numbers in full, and knows no date but those of `toISOString`. -/
def decimalRuntime : Runtime := ⟨decimalNumberText, fun _ => .nan⟩

/-- A function of `src/auth/login.ts`, as the ingest finds it. -/
def loginNode : StoredNode where
  id := ascii "auth/loginHandler"
  name := ascii "loginHandler"
  qualifiedName := ascii "loginHandler"
  kind := .function
  file := ascii "src/auth/login.ts"
  language := ascii "typescript"
  range := (.fin 42, .fin 87)
  astHash := ascii "7a8f"
  summary := none
  lastSeen := .fin 1778855520000
  logicalClock := .fin 47
  lastModifiedBy := none

theorem isDouble_of_eq {q : Rat} (h : roundRat q = .fin q) : IsDouble q := h

theorem loginNode_produced : Produced loginNode where
  language := ⟨.typescript, rfl⟩
  astHash := ⟨[0x7A, 0x8F], by decide +kernel⟩
  start := ⟨42, rfl, isDouble_of_eq (by decide +kernel)⟩
  stop := ⟨87, rfl, isDouble_of_eq (by decide +kernel)⟩
  clock := ⟨47, rfl, isDouble_of_eq (by decide +kernel)⟩
  lastSeen := ⟨1778855520000, rfl, isDouble_of_eq (by decide +kernel)⟩

/-- The same function with a summary of two paragraphs. -/
def summarizedNode : StoredNode :=
  { loginNode with summary := some (ascii "Signs a user in.\n\n## Notes\nRetries once.") }

theorem summarizedNode_produced : Produced summarizedNode := { loginNode_produced with }

theorem summarizedNode_recoverable : Recoverable decimalRuntime summarizedNode where
  id := by decide +kernel
  name := .inl (by decide +kernel)
  qualifiedName := .inl (by decide +kernel)
  file := by decide +kernel
  range := by decide +kernel
  clock := by decide +kernel
  lastSeen := ⟨1778855520000, rfl, by decide⟩
  modifier := fun _ h => by cases h
  summary := by decide +kernel

theorem roundTrip_login : ComesBack decimalRuntime (.fin 0) summarizedNode ⟨[], []⟩ (restored summarizedNode) :=
  (renderNodeMarkdown_roundTrip_iff decimalNumberText_documented (.fin 0) summarizedNode_produced ⟨[], []⟩).2
    summarizedNode_recoverable

/-- A node without a summary does not come back without one. -/
theorem absent_summary_reads_as_text :
    Produced loginNode ∧
      ¬ ComesBack decimalRuntime (.fin 0) loginNode ⟨[], []⟩
        { loginNode with summary := trimmedSummary loginNode.summary } := by
  refine ⟨loginNode_produced, ?_⟩
  rintro ⟨text, -, heq⟩
  have hsummary := congrArg (fun n => n.summary) heq
  cases hsummary

end Hayven.Graph
