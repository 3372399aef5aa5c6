import Hayven.Lib.Text
import Mathlib.Data.List.Infix
import Mathlib.Data.List.TakeWhile
/-!
# SQL's LIKE

`text LIKE pattern ESCAPE e`: `%` stands for any run, `_` for one character, an escaped
character for itself, and letters of the ASCII alphabet match in either case. A pattern
that is one literal between two `%` finds the texts that hold the literal:
`sqlLike_between`.
-/

namespace Hayven.Lib

inductive LikeToken where
  | anyRun
  | anyOne
  | unit (u : UInt16)
deriving DecidableEq

/-- The tokens of a pattern; none if it ends in the escape character. -/
def likeTokens (escape : UInt16) : JsString → Option (List LikeToken)
  | [] => some []
  | u :: rest =>
    if u = escape then
      match rest with
      | [] => none
      | v :: rest' => (likeTokens escape rest').map (.unit v :: ·)
    else if u = 0x25 then (likeTokens escape rest).map (.anyRun :: ·)
    else if u = 0x5F then (likeTokens escape rest).map (.anyOne :: ·)
    else (likeTokens escape rest).map (.unit u :: ·)

/-- Upper case of the ASCII alphabet to lower case. -/
def foldAscii (u : UInt16) : UInt16 := if 0x41 ≤ u && u ≤ 0x5A then u + 0x20 else u

/-- The text behind its first character. -/
def dropChar : JsString → Option JsString
  | [] => none
  | [_] => some []
  | u :: v :: rest => if isHighSurrogate u && isLowSurrogate v then some rest else some (v :: rest)

def likeMatch : List LikeToken → JsString → Bool
  | [], text => text.isEmpty
  | .anyRun :: p, text => text.tails.any (likeMatch p)
  | .anyOne :: p, text => (dropChar text).any (likeMatch p)
  | .unit _ :: _, [] => false
  | .unit c :: p, u :: rest => foldAscii c == foldAscii u && likeMatch p rest

/-- LIKE over whole strings. -/
def like (escape : UInt16) (pattern text : JsString) : Bool := (likeTokens escape pattern).any (likeMatch · text)

/-- Text handed to a matcher that reads up to the first NUL. -/
def cText (s : JsString) : JsString := s.takeWhile (· ≠ 0)

def sqlLike (escape : UInt16) (pattern text : JsString) : Bool :=
  (likeTokens escape (cText pattern)).any (likeMatch · (cText text))

/-! ## A literal between two runs -/

theorem cText_eq_self {s : JsString} (h : 0 ∉ s) : cText s = s := by
  apply List.takeWhile_eq_self_iff.2
  intro u hu
  exact decide_eq_true fun h0 => h (h0 ▸ hu)

theorem sqlLike_eq_like {escape : UInt16} {pattern text : JsString} (hpattern : 0 ∉ pattern) (htext : 0 ∉ text) :
    sqlLike escape pattern text = like escape pattern text := by
  rw [sqlLike, like, cText_eq_self hpattern, cText_eq_self htext]

theorem likeMatch_units_append (lit : JsString) (p : List LikeToken) (text : JsString) :
    likeMatch (lit.map .unit ++ p) text = true ↔
      ∃ found rest, text = found ++ rest ∧ found.map foldAscii = lit.map foldAscii ∧ likeMatch p rest = true := by
  induction lit generalizing text with
  | nil => simp
  | cons c lit ih =>
    cases text with
    | nil => simp [likeMatch]
    | cons u text =>
      simp only [List.map_cons, List.cons_append, likeMatch, Bool.and_eq_true, beq_iff_eq, ih]
      constructor
      · rintro ⟨hc, found, rest, rfl, hfound, hrest⟩
        exact ⟨u :: found, rest, rfl, by rw [List.map_cons, hfound, hc], hrest⟩
      · rintro ⟨found, rest, htext, hfound, hrest⟩
        cases found with
        | nil => simp at hfound
        | cons v found =>
          simp only [List.cons_append, List.cons.injEq] at htext
          simp only [List.map_cons, List.cons.injEq] at hfound
          exact ⟨by rw [htext.1, hfound.1], found, rest, htext.2, hfound.2, hrest⟩

theorem likeMatch_anyRun (text : JsString) : likeMatch [.anyRun] text = true := by
  simp only [likeMatch, List.any_eq_true, List.mem_tails]
  exact ⟨[], List.nil_suffix, rfl⟩

/-- The literal occurs in the text, in any case of its ASCII letters. -/
def HoldsText (lit text : JsString) : Prop := lit.map foldAscii <:+: text.map foldAscii

instance (lit text : JsString) : Decidable (HoldsText lit text) := inferInstanceAs (Decidable (_ <:+: _))

theorem likeMatch_between (lit text : JsString) :
    likeMatch (.anyRun :: lit.map .unit ++ [.anyRun]) text = true ↔ HoldsText lit text := by
  simp only [List.cons_append, likeMatch, List.any_eq_true, List.mem_tails]
  constructor
  · rintro ⟨tail, ⟨before, rfl⟩, hmatch⟩
    obtain ⟨found, rest, rfl, hfound, -⟩ := (likeMatch_units_append _ _ _).1 hmatch
    exact ⟨before.map foldAscii, rest.map foldAscii, by simp [hfound]⟩
  · rintro ⟨before, after, h⟩
    obtain ⟨head, after', rfl, hhead, -⟩ := List.map_eq_append_iff.1 h.symm
    obtain ⟨before', found, rfl, -, hfound⟩ := List.map_eq_append_iff.1 hhead
    rw [List.append_assoc]
    exact ⟨found ++ after', List.suffix_append _ _,
      (likeMatch_units_append _ _ _).2 ⟨found, after', rfl, hfound, likeMatch_anyRun _⟩⟩

/-- Every metacharacter escaped. -/
def escapeLike (escape : UInt16) (s : JsString) : JsString :=
  s.flatMap fun u => if u = escape ∨ u = 0x25 ∨ u = 0x5F then [escape, u] else [u]

theorem likeTokens_escaped (escape u : UInt16) (rest : JsString) :
    likeTokens escape (escape :: u :: rest) = (likeTokens escape rest).map (.unit u :: ·) := by
  rw [likeTokens, if_pos rfl]

theorem likeTokens_plain {escape u : UInt16} (hu : ¬(u = escape ∨ u = 0x25 ∨ u = 0x5F)) (rest : JsString) :
    likeTokens escape (u :: rest) = (likeTokens escape rest).map (.unit u :: ·) := by
  rw [not_or, not_or] at hu
  rw [likeTokens.eq_def]
  simp only [if_neg hu.1, if_neg hu.2.1, if_neg hu.2.2]

theorem likeTokens_anyRun {escape : UInt16} (h : escape ≠ 0x25) (rest : JsString) :
    likeTokens escape (0x25 :: rest) = (likeTokens escape rest).map (.anyRun :: ·) := by
  rw [likeTokens.eq_def]
  simp only [if_neg h.symm, if_true]

theorem likeTokens_escapeLike (escape : UInt16) (lit rest : JsString) :
    likeTokens escape (escapeLike escape lit ++ rest) = (likeTokens escape rest).map (lit.map .unit ++ ·) := by
  induction lit with
  | nil => simp [escapeLike]
  | cons u lit ih =>
    have hcons : escapeLike escape (u :: lit) =
        (if u = escape ∨ u = 0x25 ∨ u = 0x5F then [escape, u] else [u]) ++ escapeLike escape lit := rfl
    rw [hcons]
    by_cases hu : u = escape ∨ u = 0x25 ∨ u = 0x5F
    · rw [if_pos hu, List.append_assoc, List.cons_append, List.cons_append, List.nil_append, likeTokens_escaped, ih,
        Option.map_map]
      rfl
    · rw [if_neg hu, List.append_assoc, List.cons_append, List.nil_append, likeTokens_plain hu, ih, Option.map_map]
      rfl

/-- A literal, its metacharacters escaped, between two runs. -/
theorem sqlLike_between {escape : UInt16} (hescape : escape ≠ 0x25) {lit text : JsString} (hlit : 0 ∉ lit)
    (h0 : escape ≠ 0) (htext : 0 ∉ text) :
    sqlLike escape (0x25 :: escapeLike escape lit ++ [0x25]) text = true ↔ HoldsText lit text := by
  have hnul : (0 : UInt16) ∉ 0x25 :: escapeLike escape lit ++ [0x25] := by
    simp only [escapeLike, List.mem_append, List.mem_cons, List.mem_flatMap, List.not_mem_nil, or_false, not_or,
      not_exists, not_and]
    refine ⟨⟨by decide, fun u hu => ?_⟩, by decide⟩
    have hu0 : (0 : UInt16) ≠ u := fun h => hlit (h ▸ hu)
    split_ifs
    · simp [h0.symm, hu0]
    · simp [hu0]
  have hlast : likeTokens escape [0x25] = some [.anyRun] := by
    rw [likeTokens_anyRun hescape]
    rfl
  have htokens : likeTokens escape (0x25 :: escapeLike escape lit ++ [0x25]) =
      some (.anyRun :: lit.map .unit ++ [.anyRun]) := by
    rw [List.cons_append, likeTokens_anyRun hescape, likeTokens_escapeLike, hlast]
    rfl
  rw [sqlLike, cText_eq_self hnul, cText_eq_self htext, htokens]
  exact likeMatch_between lit text

end Hayven.Lib
