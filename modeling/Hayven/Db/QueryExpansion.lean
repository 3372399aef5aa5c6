import Hayven.Lib.Text
import Hayven.Graph.IdScheme
import Mathlib.Tactic.Common
/-!
# Query expansion

`db/queryExpansion.ts`: the further terms a query term is searched by, the words the
relaxed search drops, and the terms a local model suggests. Text is a list of code
points; the Unicode tables of the runtime are a parameter.
-/
open Hayven.Lib

namespace Hayven.Db.Search

/-! ## Text -/

/-- The classes the code tells apart: `\\p{Lu}`, `\\p{Ll}`, the rest of `\\p{L}`, `\\p{N}`, and the rest. -/
inductive CharClass where
  | upper | lower | letter | number | other
  deriving DecidableEq, Repr

structure UnicodeTables where
  charClass : Char → CharClass
  toLowerCase : List Char → List Char
  /-- U+0022 is punctuation, -/
  quote_other : charClass '"' = .other
  /-- and the lower case of no other character. -/
  lower_quoteless : ∀ s, '"' ∉ s → '"' ∉ toLowerCase s

/-- `String.prototype.length`. -/
def utf16Length (s : List Char) : Nat := (toUtf16 s).length

def isSpaceChar (c : Char) : Bool := c.toNat < 0x10000 && Graph.isJsSpace c.toNat.toUInt16

/-- `String.prototype.trim`. -/
def trimChars (s : List Char) : List Char := trimBy isSpaceChar s

/-- `split(/\\s+/)`. -/
def splitSpaces : List Char → List (List Char)
  | [] => [[]]
  | c :: cs =>
    if isSpaceChar c then
      if cs.head?.any isSpaceChar then splitSpaces cs else [] :: splitSpaces cs
    else
      match splitSpaces cs with
      | [] => [[c]]
      | w :: ws => (c :: w) :: ws

/-- Each run of characters outside `keep` becomes one blank. -/
def blankRuns (keep : Char → Bool) : List Char → List Char
  | [] => []
  | c :: cs =>
    if keep c then c :: blankRuns keep cs
    else if cs.head?.any fun d => !keep d then blankRuns keep cs
    else ' ' :: blankRuns keep cs

/-- A blank between two characters wherever `cut` says so of them and of the one behind. -/
def breakWhere (cut : Char → Char → Option Char → Bool) : List Char → List Char
  | a :: b :: rest =>
    if cut a b rest.head? then a :: ' ' :: breakWhere cut (b :: rest) else a :: breakWhere cut (b :: rest)
  | s => s

namespace UnicodeTables
variable (U : UnicodeTables)

/-- `\\p{L}` -/
def isLetter (c : Char) : Bool := U.charClass c = .upper || U.charClass c = .lower || U.charClass c = .letter

/-- `\\p{N}` -/
def isNumber (c : Char) : Bool := U.charClass c = .number

def isAlnum (c : Char) : Bool := U.isLetter c || U.isNumber c

/-- `[\\p{L}\\p{N}_]` -/
def isWord (c : Char) : Bool := U.isAlnum c || c = '_'

/-! ## Identifiers -/

/-- `userId` into `user Id`. -/
def camelBreak (a b : Char) (_ : Option Char) : Bool :=
  (U.charClass a = .lower || U.isNumber a) && U.charClass b = .upper

/-- `HTTPServer` into `HTTP Server`. -/
def acronymBreak (a b : Char) (c : Option Char) : Bool :=
  U.charClass a = .upper && U.charClass b = .upper && c.any fun c => U.charClass c = .lower

def letterNumberBreak (a b : Char) (_ : Option Char) : Bool := U.isLetter a && U.isNumber b

def numberLetterBreak (a b : Char) (_ : Option Char) : Bool := U.isNumber a && U.isLetter b

def withBoundaries (term : List Char) : List Char :=
  breakWhere U.numberLetterBreak <| breakWhere U.letterNumberBreak <| breakWhere U.acronymBreak <|
    breakWhere U.camelBreak <| blankRuns U.isAlnum term

end UnicodeTables

def MIN_SUBTOKEN_LENGTH : Nat := 2

def MAX_EXPANSIONS_PER_TERM : Nat := 6

def tokenizeIdentifier (U : UnicodeTables) (term : List Char) : List (List Char) :=
  if term = [] then []
  else ((splitSpaces (U.withBoundaries term)).map U.toLowerCase).filter fun s => MIN_SUBTOKEN_LENGTH ≤ utf16Length s

/-! ## Abbreviations -/

def ABBREVIATION_GROUPS : List (List (List Char)) :=
  [["auth", "authentication"], ["authn", "authentication"], ["authz", "authorization"], ["db", "database"],
    ["cfg", "config", "configuration"], ["msg", "message"], ["btn", "button"], ["idx", "index"],
    ["req", "request"], ["res", "resp", "response"], ["err", "error"], ["init", "initialize"],
    ["util", "utility"], ["repo", "repository"], ["ctx", "context"], ["fn", "func", "function"],
    ["val", "value"], ["arg", "argument"], ["impl", "implementation"], ["dir", "directory"],
    ["doc", "document"]].map fun group => group.map String.toList

theorem lawful_chars : LawfulBEq (List Char) := inferInstance

attribute [local instance] lawful_chars

/-- `set.add`. -/
def addNew (set : List (List Char)) (t : List Char) : List (List Char) := if t ∈ set then set else set ++ [t]

/-- `ABBREVIATION_MAP.get(key) ?? []` -/
def partners (U : UnicodeTables) (key : List Char) : List (List Char) :=
  let groups := ABBREVIATION_GROUPS.map fun group => group.map U.toLowerCase
  ((groups.filter (key ∈ ·)).flatMap fun group => group.filter (· ≠ key)).foldl addNew []

/-! ## Expansion -/

def addTerm (original : List Char) (additions : List (List Char)) (t : List Char) : List (List Char) :=
  if MAX_EXPANSIONS_PER_TERM ≤ additions.length then additions
  else if utf16Length t < MIN_SUBTOKEN_LENGTH then additions
  else if t = original ∨ t ∈ additions then additions
  else additions ++ [t]

def expandTerm (U : UnicodeTables) (term : List Char) : List (List Char) :=
  if term = [] then []
  else
    let original := U.toLowerCase term
    let subtokens := tokenizeIdentifier U term
    let candidates := subtokens ++ partners U original ++ subtokens.flatMap (partners U)
    original :: candidates.foldl (addTerm original) []

def expandQuery (U : UnicodeTables) (terms : List (List Char)) : List (List (List Char)) :=
  (terms.map (expandTerm U)).filter (· ≠ [])

/-! ## Stopwords -/

def STOPWORDS : List (List Char) :=
  ["a", "an", "the", "this", "that", "these", "those", "it", "its",
    "how", "what", "why", "when", "where", "which", "who", "whom", "whose",
    "is", "are", "was", "were", "be", "been", "being", "am",
    "do", "does", "did", "done",
    "has", "have", "had",
    "can", "could", "will", "would", "shall", "should", "may", "might", "must",
    "and", "or", "but", "nor", "so", "if", "then", "than", "because",
    "of", "to", "in", "on", "at", "for", "from", "by", "with", "without",
    "into", "onto", "over", "under", "about", "after", "before", "between",
    "through", "during", "as", "up", "down", "out", "off",
    "we", "us", "our", "you", "your", "they", "them", "their", "i", "me", "my",
    "he", "she", "him", "her",
    "does", "do", "stops", "stop", "happens", "happen", "work", "works",
    "same", "two", "one", "some", "any", "all", "each", "every", "there", "here"].map String.toList

def dropStopwords (U : UnicodeTables) (terms : List (List Char)) : List (List Char) :=
  let content := terms.filter fun t => U.toLowerCase t ∉ STOPWORDS
  if content ≠ [] then content else terms

/-! ## The model -/

/-- How a call of the model ends. -/
inductive InferResult where
  | threw
  | answered (ok : Bool) (completion : List Char)
  deriving DecidableEq, Repr

def MAX_SEMANTIC_TERMS : Nat := 8

def buildSemanticExpansionPrompt (query : List Char) : List Char :=
  ("You are helping search a CODE index. Given a natural-language question about a codebase, list the most " ++
    "likely CODE IDENTIFIERS (function, class, type, or module names — camelCase or snake_case, NOT prose) that " ++
    "would implement or relate to it.\nReply with ONLY a comma-separated list of up to 8 identifiers, no " ++
    "explanation.\n\nQuestion: ").toList ++ query ++ "\nIdentifiers:".toList

/-- `push`, behind its guard on the number of terms. -/
def pushTerm (U : UnicodeTables) (out : List (List Char)) (t : List Char) : List (List Char) :=
  if MAX_SEMANTIC_TERMS ≤ out.length then out
  else if utf16Length (U.toLowerCase t) < MIN_SUBTOKEN_LENGTH ∨ U.toLowerCase t ∈ out then out
  else out ++ [U.toLowerCase t]

/-- A piece of the completion without what surrounds its words. -/
def cleanPiece (U : UnicodeTables) (raw : List Char) : List Char := trimChars (blankRuns U.isWord (trimChars raw))

/-- All that a completion offers, each word before its parts. -/
def offeredTerms (U : UnicodeTables) (completion : List Char) : List (List Char) :=
  (((completion.splitOnP fun c => c = ',' || c = '\n').map (cleanPiece U)).filter (· ≠ [])).flatMap fun piece =>
    (splitSpaces piece).flatMap fun word => word :: tokenizeIdentifier U word

def parseSemanticTerms (U : UnicodeTables) (completion : List Char) : List (List Char) :=
  (offeredTerms U completion).foldl (pushTerm U) []

structure ExpandedQuery where
  base : List (List (List Char))
  semantic : List (List Char)
  deriving DecidableEq, Repr

/-- The terms of the model's answer to a query: none without a model, or without a usable answer. -/
def semanticTerms (U : UnicodeTables) (rawQuery : List Char) (infer : Option (List Char → InferResult)) :
    List (List Char) :=
  match infer with
  | none => []
  | some infer =>
    if trimChars rawQuery = [] then []
    else
      match infer (buildSemanticExpansionPrompt rawQuery) with
      | .threw => []
      | .answered ok completion => if !ok || completion = [] then [] else parseSemanticTerms U completion

def expandQueryWithModel (U : UnicodeTables) (terms : List (List Char)) (rawQuery : List Char)
    (infer : Option (List Char → InferResult)) : ExpandedQuery :=
  ⟨expandQuery U terms, semanticTerms U rawQuery infer⟩

/-! ## No term holds a quote -/

/-- No term of a list holds a quote. -/
def Quoteless (terms : List (List Char)) : Prop := ∀ t ∈ terms, '"' ∉ t

theorem mem_splitSpaces {s w : List Char} {c : Char} (hw : w ∈ splitSpaces s) (hc : c ∈ w) : c ∈ s := by
  induction s generalizing w with
  | nil =>
    rw [splitSpaces, List.mem_singleton] at hw
    subst hw
    exact hc
  | cons d ds ih =>
    rw [splitSpaces] at hw
    split at hw
    · split at hw
      · exact List.mem_cons_of_mem _ (ih hw hc)
      · rcases List.mem_cons.1 hw with rfl | hw
        · exact absurd hc List.not_mem_nil
        · exact List.mem_cons_of_mem _ (ih hw hc)
    · split at hw
      · rw [List.mem_singleton] at hw
        subst hw
        exact List.mem_cons.2 (.inl (List.mem_singleton.1 hc))
      · next v vs hsplit =>
        rcases List.mem_cons.1 hw with rfl | hw
        · rcases List.mem_cons.1 hc with rfl | hc
          · exact List.mem_cons_self
          · exact List.mem_cons_of_mem _ (ih (by rw [hsplit]; exact List.mem_cons_self) hc)
        · exact List.mem_cons_of_mem _ (ih (by rw [hsplit]; exact List.mem_cons_of_mem _ hw) hc)

/-- A character that is no blank and has no place in `keep` is gone. -/
theorem mem_blankRuns {keep : Char → Bool} {s : List Char} {c : Char} (h : c ∈ blankRuns keep s) :
    c = ' ' ∨ keep c = true := by
  induction s with
  | nil => exact absurd h List.not_mem_nil
  | cons d ds ih =>
    rw [blankRuns] at h
    split at h
    · next hd =>
      rcases List.mem_cons.1 h with rfl | h
      · exact .inr hd
      · exact ih h
    · split at h
      · exact ih h
      · rcases List.mem_cons.1 h with rfl | h
        · exact .inl rfl
        · exact ih h

theorem mem_breakWhere {cut : Char → Char → Option Char → Bool} {s : List Char} {c : Char}
    (h : c ∈ breakWhere cut s) : c = ' ' ∨ c ∈ s := by
  induction s with
  | nil => exact .inr h
  | cons a s ih =>
    cases s with
    | nil => exact .inr h
    | cons b rest =>
      rw [breakWhere] at h
      have hrest : c ∈ breakWhere cut (b :: rest) → c = ' ' ∨ c ∈ a :: b :: rest := fun hc =>
        (ih hc).imp_right (List.mem_cons_of_mem _)
      split at h
      · rcases List.mem_cons.1 h with rfl | h
        · exact .inr List.mem_cons_self
        · rcases List.mem_cons.1 h with rfl | h
          · exact .inl rfl
          · exact hrest h
      · rcases List.mem_cons.1 h with rfl | h
        · exact .inr List.mem_cons_self
        · exact hrest h

section Terms
variable (U : UnicodeTables)

theorem quote_not_alnum : U.isAlnum '"' = false := by
  simp [UnicodeTables.isAlnum, UnicodeTables.isLetter, UnicodeTables.isNumber, U.quote_other]

theorem quote_not_word : U.isWord '"' = false := by
  simp [UnicodeTables.isWord, quote_not_alnum U]

theorem withBoundaries_quoteless (term : List Char) : '"' ∉ U.withBoundaries term := by
  intro h
  have hblank : ('"' : Char) ≠ ' ' := by decide
  -- the four breaks only add blanks, and the runs have taken every quote away
  have h := (mem_breakWhere h).resolve_left hblank
  have h := (mem_breakWhere h).resolve_left hblank
  have h := (mem_breakWhere h).resolve_left hblank
  have h := (mem_breakWhere h).resolve_left hblank
  have h := (mem_blankRuns h).resolve_left hblank
  rw [quote_not_alnum] at h
  cases h

theorem tokenizeIdentifier_quoteless (term : List Char) : Quoteless (tokenizeIdentifier U term) := by
  intro t ht
  unfold tokenizeIdentifier at ht
  split at ht
  · exact absurd ht List.not_mem_nil
  · obtain ⟨w, hw, rfl⟩ := List.mem_map.1 (List.mem_filter.1 ht).1
    exact U.lower_quoteless w fun hq => withBoundaries_quoteless U term (mem_splitSpaces hw hq)

theorem groups_quoteless : ∀ group ∈ ABBREVIATION_GROUPS, Quoteless group := by
  unfold Quoteless
  decide +kernel

theorem mem_of_mem_addNew {l set : List (List Char)} {t : List Char} (h : t ∈ l.foldl addNew set) : t ∈ set ∨ t ∈ l := by
  induction l generalizing set with
  | nil => exact .inl h
  | cons a l ih =>
    rcases ih h with h | h
    · unfold addNew at h
      split at h
      · exact .inl h
      · rcases List.mem_append.1 h with h | h
        · exact .inl h
        · exact .inr (List.mem_cons.2 (.inl (List.mem_singleton.1 h)))
    · exact .inr (List.mem_cons_of_mem _ h)

theorem partners_quoteless (key : List Char) : Quoteless (partners U key) := by
  intro t ht
  have ht := (mem_of_mem_addNew ht).resolve_left List.not_mem_nil
  obtain ⟨group, hgroup, ht⟩ := List.mem_flatMap.1 ht
  obtain ⟨raw, hraw, rfl⟩ := List.mem_map.1 (List.mem_filter.1 hgroup).1
  obtain ⟨member, hmember, rfl⟩ := List.mem_map.1 (List.mem_filter.1 ht).1
  exact U.lower_quoteless member (groups_quoteless raw hraw member hmember)

theorem mem_of_mem_addTerm {original : List Char} {l additions : List (List Char)} {t : List Char}
    (h : t ∈ l.foldl (addTerm original) additions) : t ∈ additions ∨ t ∈ l := by
  induction l generalizing additions with
  | nil => exact .inl h
  | cons a l ih =>
    rcases ih h with h | h
    · unfold addTerm at h
      split at h
      · exact .inl h
      · split at h
        · exact .inl h
        · split at h
          · exact .inl h
          · rcases List.mem_append.1 h with h | h
            · exact .inl h
            · exact .inr (List.mem_cons.2 (.inl (List.mem_singleton.1 h)))
    · exact .inr (List.mem_cons_of_mem _ h)

theorem expandTerm_quoteless {term : List Char} (h : '"' ∉ term) : Quoteless (expandTerm U term) := by
  intro t ht
  unfold expandTerm at ht
  split at ht
  · exact absurd ht List.not_mem_nil
  · rcases List.mem_cons.1 ht with rfl | ht
    · exact U.lower_quoteless term h
    · have ht := (mem_of_mem_addTerm ht).resolve_left List.not_mem_nil
      rcases List.mem_append.1 ht with ht | ht
      · rcases List.mem_append.1 ht with ht | ht
        · exact tokenizeIdentifier_quoteless U term t ht
        · exact partners_quoteless U _ t ht
      · obtain ⟨sub, hsub, ht⟩ := List.mem_flatMap.1 ht
        exact partners_quoteless U sub t ht

theorem mem_of_mem_pushTerm {l out : List (List Char)} {t : List Char} (h : t ∈ l.foldl (pushTerm U) out) :
    t ∈ out ∨ ∃ raw ∈ l, t = U.toLowerCase raw := by
  induction l generalizing out with
  | nil => exact .inl h
  | cons a l ih =>
    rcases ih h with h | ⟨raw, hraw, rfl⟩
    · unfold pushTerm at h
      split at h
      · exact .inl h
      · split at h
        · exact .inl h
        · rcases List.mem_append.1 h with h | h
          · exact .inl h
          · exact .inr ⟨a, List.mem_cons_self, List.mem_singleton.1 h⟩
    · exact .inr ⟨raw, List.mem_cons_of_mem _ hraw, rfl⟩

theorem cleanPiece_quoteless (raw : List Char) : '"' ∉ cleanPiece U raw := by
  intro h
  have hmem : '"' ∈ blankRuns U.isWord (trimChars raw) := mem_of_mem_trimBy h
  have hword := (mem_blankRuns hmem).resolve_left (by decide)
  rw [quote_not_word] at hword
  cases hword

theorem offeredTerms_quoteless (completion : List Char) : Quoteless (offeredTerms U completion) := by
  intro t ht
  obtain ⟨piece, hpiece, ht⟩ := List.mem_flatMap.1 ht
  obtain ⟨raw, -, rfl⟩ := List.mem_map.1 (List.mem_filter.1 hpiece).1
  obtain ⟨word, hword, ht⟩ := List.mem_flatMap.1 ht
  rcases List.mem_cons.1 ht with rfl | ht
  · exact fun hq => cleanPiece_quoteless U raw (mem_splitSpaces hword hq)
  · exact tokenizeIdentifier_quoteless U word t ht

theorem parseSemanticTerms_quoteless (completion : List Char) : Quoteless (parseSemanticTerms U completion) := by
  intro t ht
  obtain ⟨raw, hraw, rfl⟩ := (mem_of_mem_pushTerm U ht).resolve_left List.not_mem_nil
  exact U.lower_quoteless raw (offeredTerms_quoteless U completion raw hraw)

theorem semanticTerms_quoteless (rawQuery : List Char) (infer : Option (List Char → InferResult)) :
    Quoteless (semanticTerms U rawQuery infer) := by
  have hnil : Quoteless [] := fun t ht => absurd ht List.not_mem_nil
  unfold semanticTerms
  split
  · exact hnil
  · split
    · exact hnil
    · split
      · exact hnil
      · split
        · exact hnil
        · exact parseSemanticTerms_quoteless U _

end Terms

end Hayven.Db.Search
