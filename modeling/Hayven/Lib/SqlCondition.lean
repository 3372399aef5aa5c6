import Hayven.Lib.SqlLike
/-!
# Disjunctions of LIKE

The SQL conditions `(column LIKE 'pattern' ESCAPE 'e' OR …)`. `readDisjunction` reads one from
its text, with string literals as SQL has them, where only a doubled quote is special;
`disjunctionText` writes one, with blanks of the caller's before each OR, and reading undoes
writing: `readDisjunction_text`.
-/

namespace Hayven.Lib.Sql

/-! ## Conditions -/

structure LikeTerm where
  column : JsString
  pattern : JsString
  escape : JsString
deriving DecidableEq

/-- NULL and a rejected ESCAPE are not true. -/
def LikeTerm.holds (env : JsString → Option JsString) (t : LikeTerm) : Bool :=
  match t.escape, env t.column with
  | [e], some text => sqlLike e t.pattern text
  | _, _ => false

/-! ## Tokens -/

inductive Token where
  | lp | rp
  | word (w : JsString)
  | str (s : JsString)
deriving DecidableEq

def quote : UInt16 := 0x27

def lparen : UInt16 := 0x28

def rparen : UInt16 := 0x29

def isBlank (u : UInt16) : Bool := u = 0x20 || u = 0x0A || u = 0x09 || u = 0x0D || u = 0x0C

/-- The units of a name, and the dot between two names. -/
def isWordUnit (u : UInt16) : Bool :=
  (0x30 ≤ u && u ≤ 0x39) || (0x41 ≤ u && u ≤ 0x5A) || u = 0x5F || (0x61 ≤ u && u ≤ 0x7A) || u = 0x2E

/-- Where the tokenizer stands; `closing` is behind a quote that ends the literal unless
another one follows. -/
inductive Mode where
  | out
  | word (w : JsString)
  | inside (s : JsString)
  | closing (s : JsString)

def Mode.start (u : UInt16) : Option (List Token × Mode) :=
  if isBlank u then some ([], .out)
  else if u = lparen then some ([.lp], .out)
  else if u = rparen then some ([.rp], .out)
  else if u = quote then some ([], .inside [])
  else if isWordUnit u then some ([], .word [u])
  else none

/-- One unit: the tokens it ends or makes, and the next mode. -/
def Mode.step : Mode → UInt16 → Option (List Token × Mode)
  | .out, u => Mode.start u
  | .word w, u =>
    if isWordUnit u then some ([], .word (w ++ [u]))
    else (Mode.start u).map fun r => (.word w :: r.1, r.2)
  | .inside s, u => if u = quote then some ([], .closing s) else some ([], .inside (s ++ [u]))
  | .closing s, u =>
    if u = quote then some ([], .inside (s ++ [u]))
    else (Mode.start u).map fun r => (.str s :: r.1, r.2)

def Mode.finish : Mode → Option (List Token)
  | .out => some []
  | .word w => some [.word w]
  | .inside _ => none
  | .closing s => some [.str s]

def lexFrom : Mode → JsString → Option (List Token)
  | m, [] => m.finish
  | m, u :: rest => (m.step u).bind fun r => (lexFrom r.2 rest).map (r.1 ++ ·)

/-! ## The reader -/

/-- The terms between the parentheses. -/
def readTerms : List Token → Option (List LikeTerm)
  | .word column :: .word like :: .str pattern :: .word escape :: .str e :: rest =>
    if like = ascii "LIKE" ∧ escape = ascii "ESCAPE" then
      match rest with
      | [.rp] => some [⟨column, pattern, e⟩]
      | .word or :: rest' => if or = ascii "OR" then (readTerms rest').map (⟨column, pattern, e⟩ :: ·) else none
      | _ => none
    else none
  | _ => none

def readDisjunction (text : JsString) : Option (List LikeTerm) :=
  match lexFrom .out text with
  | some (.lp :: rest) => readTerms rest
  | _ => none

/-- The truth of a fragment for the columns of a row; none for a text that is no such fragment. -/
def isTrue (env : JsString → Option JsString) (text : JsString) : Option Bool :=
  (readDisjunction text).map fun terms => terms.any (·.holds env)

/-! ## Writing -/

def LikeTerm.text (t : LikeTerm) : JsString :=
  t.column ++ ascii " LIKE " ++ quote :: (t.pattern ++ quote :: (ascii " ESCAPE " ++ quote :: (t.escape ++ [quote])))

/-- Between two terms: a new line, the blanks, and the operator. -/
def orText (indent : JsString) : JsString := 0x0A :: (indent ++ ascii "   OR ")

def disjunctionText (indent : JsString) (terms : List LikeTerm) : JsString :=
  lparen :: ((orText indent).intercalate (terms.map LikeTerm.text) ++ [rparen])

/-- A term whose text is what it looks like. -/
structure LikeTerm.Plain (t : LikeTerm) : Prop where
  named : t.column ≠ []
  column : ∀ u ∈ t.column, isWordUnit u = true
  pattern : quote ∉ t.pattern
  escape : quote ∉ t.escape

def LikeTerm.tokens (t : LikeTerm) : List Token :=
  [.word t.column, .word (ascii "LIKE"), .str t.pattern, .word (ascii "ESCAPE"), .str t.escape]

section Lex
variable {rest : JsString}

theorem lexFrom_cons {m m' : Mode} {u : UInt16} {ts : List Token} (h : m.step u = some (ts, m')) (rest : JsString) :
    lexFrom m (u :: rest) = (lexFrom m' rest).map (ts ++ ·) := by
  rw [lexFrom, h, Option.bind_some]

theorem lexFrom_inside {s : JsString} (hs : quote ∉ s) (acc rest : JsString) :
    lexFrom (.inside acc) (s ++ quote :: rest) = lexFrom (.closing (acc ++ s)) rest := by
  induction s generalizing acc with
  | nil =>
    rw [List.nil_append, List.append_nil, lexFrom_cons rfl]
    exact Option.map_id'
  | cons u s ih =>
    have hu : u ≠ quote := fun h => hs (h ▸ List.mem_cons_self)
    have hrest : quote ∉ s := fun h => hs (List.mem_cons_of_mem _ h)
    have hstep : (Mode.inside acc).step u = some ([], .inside (acc ++ [u])) := by rw [Mode.step, if_neg hu]
    rw [List.cons_append, lexFrom_cons hstep, ih hrest, List.append_assoc, List.singleton_append]
    exact Option.map_id'

theorem lexFrom_closing (hrest : rest.head? ≠ some quote) (s : JsString) :
    lexFrom (.closing s) rest = (lexFrom .out rest).map (.str s :: ·) := by
  cases rest with
  | nil => rfl
  | cons u rest =>
    have hu : u ≠ quote := fun h => hrest (by rw [h]; rfl)
    rcases hstart : Mode.start u with _ | ⟨ts, m⟩
    · simp only [lexFrom, Mode.step, if_neg hu, hstart, Option.map_none, Option.bind_none]
    · have hstep : (Mode.closing s).step u = some (.str s :: ts, m) := by rw [Mode.step, if_neg hu, hstart]; rfl
      rw [lexFrom_cons hstep, lexFrom_cons (m := .out) hstart]
      cases lexFrom m rest <;> rfl

/-- A string literal is one token. -/
theorem lexFrom_literal {s : JsString} (hs : quote ∉ s) (hrest : rest.head? ≠ some quote) :
    lexFrom .out (quote :: (s ++ quote :: rest)) = (lexFrom .out rest).map (.str s :: ·) := by
  rw [lexFrom_cons rfl, lexFrom_inside hs, List.nil_append, lexFrom_closing hrest]
  exact Option.map_id'

theorem lexFrom_blanks {blanks : JsString} (h : ∀ u ∈ blanks, isBlank u = true) (rest : JsString) :
    lexFrom .out (blanks ++ rest) = lexFrom .out rest := by
  induction blanks with
  | nil => rfl
  | cons u blanks ih =>
    have hstep : Mode.out.step u = some ([], .out) := by
      rw [Mode.step, Mode.start, if_pos (h u List.mem_cons_self)]
    rw [List.cons_append, lexFrom_cons hstep, ih fun v hv => h v (List.mem_cons_of_mem _ hv)]
    exact Option.map_id'

theorem lexFrom_word_from {w : JsString} (hw : ∀ u ∈ w, isWordUnit u = true) (acc rest : JsString) :
    lexFrom (.word acc) (w ++ rest) = lexFrom (.word (acc ++ w)) rest := by
  induction w generalizing acc with
  | nil => rw [List.nil_append, List.append_nil]
  | cons u w ih =>
    have hstep : (Mode.word acc).step u = some ([], .word (acc ++ [u])) := by
      rw [Mode.step, if_pos (hw u List.mem_cons_self)]
    rw [List.cons_append, lexFrom_cons hstep, ih fun v hv => hw v (List.mem_cons_of_mem _ hv), List.append_assoc,
      List.singleton_append]
    exact Option.map_id'

theorem start_of_wordUnit {u : UInt16} (h : isWordUnit u = true) : Mode.start u = some ([], .word [u]) := by
  have hne : ∀ v : UInt16, isWordUnit v = false → u ≠ v := fun v hv huv => by
    rw [huv, hv] at h
    cases h
  have hblank : isBlank u = false := by
    simp only [isBlank, Bool.or_eq_false_iff, decide_eq_false_iff_not]
    exact ⟨⟨⟨⟨hne _ rfl, hne _ rfl⟩, hne _ rfl⟩, hne _ rfl⟩, hne _ rfl⟩
  rw [Mode.start, hblank, if_neg (hne _ rfl), if_neg (hne _ rfl), if_neg (hne _ rfl), if_pos h]
  rfl

/-- A word ends at a blank. -/
theorem lexFrom_word {w : JsString} (hne : w ≠ []) (hw : ∀ u ∈ w, isWordUnit u = true) (rest : JsString) :
    lexFrom .out (w ++ 0x20 :: rest) = (lexFrom .out rest).map (.word w :: ·) := by
  rcases w with _ | ⟨u, w⟩
  · exact absurd rfl hne
  · have hstep : Mode.out.step u = some ([], .word [u]) := start_of_wordUnit (hw u List.mem_cons_self)
    have hend : (Mode.word (u :: w)).step 0x20 = some ([.word (u :: w)], .out) := rfl
    rw [List.cons_append, lexFrom_cons hstep, lexFrom_word_from fun v hv => hw v (List.mem_cons_of_mem _ hv),
      List.singleton_append, lexFrom_cons hend]
    exact Option.map_id'

end Lex

/-! ## Reading undoes writing -/

theorem LikeTerm.text_append (t : LikeTerm) (rest : JsString) :
    t.text ++ rest = t.column ++ 0x20 :: (ascii "LIKE" ++ 0x20 :: quote :: (t.pattern ++ quote :: 0x20 ::
      (ascii "ESCAPE" ++ 0x20 :: quote :: (t.escape ++ quote :: rest)))) := by
  have hlike : ascii " LIKE " = 0x20 :: (ascii "LIKE" ++ [0x20]) := by decide
  have hescape : ascii " ESCAPE " = 0x20 :: (ascii "ESCAPE" ++ [0x20]) := by decide
  simp only [LikeTerm.text, hlike, hescape, List.append_assoc, List.cons_append, List.nil_append]

theorem LikeTerm.Plain.lexFrom_text {t : LikeTerm} (h : t.Plain) {rest : JsString} (hrest : rest.head? ≠ some quote) :
    lexFrom .out (t.text ++ rest) = (lexFrom .out rest).map (t.tokens ++ ·) := by
  have hblank : ∀ u ∈ ([0x20] : JsString), isBlank u = true := by decide
  have hspace : ∀ s : JsString, lexFrom .out (0x20 :: s) = lexFrom .out s := lexFrom_blanks hblank
  have hends : ∀ s : JsString, (0x20 :: s).head? ≠ some quote := fun _ h => absurd (Option.some.inj h) (by decide)
  rw [t.text_append, lexFrom_word h.named h.column, lexFrom_word (by decide) (by decide),
    lexFrom_literal h.pattern (hends _), hspace, lexFrom_word (by decide) (by decide), lexFrom_literal h.escape hrest]
  simp only [Option.map_map]
  rfl

def disjunctionTokens : List LikeTerm → List Token
  | [] => [.rp]
  | [t] => t.tokens ++ [.rp]
  | t :: t' :: terms => t.tokens ++ .word (ascii "OR") :: disjunctionTokens (t' :: terms)

/-- The terms and what stands between them, up to the closing parenthesis. -/
theorem lexFrom_terms {indent : JsString} (hindent : ∀ u ∈ indent, isBlank u = true) :
    ∀ {terms : List LikeTerm}, (∀ t ∈ terms, t.Plain) →
      lexFrom .out ((orText indent).intercalate (terms.map LikeTerm.text) ++ [rparen]) = some (disjunctionTokens terms)
  | [], _ => rfl
  | [t], h => by
    rw [List.map_singleton, List.intercalate_singleton, (h t List.mem_cons_self).lexFrom_text (by decide)]
    rfl
  | t :: t' :: terms, h => by
    have hblank : ∀ u ∈ 0x0A :: (indent ++ [0x20, 0x20, 0x20]), isBlank u = true := by
      intro u hu
      simp only [List.mem_cons, List.mem_append, List.not_mem_nil, or_false] at hu
      rcases hu with rfl | hu | rfl | rfl | rfl
      · rfl
      · exact hindent u hu
      all_goals rfl
    have hor : ∀ s : JsString,
        orText indent ++ s = 0x0A :: (indent ++ [0x20, 0x20, 0x20]) ++ (ascii "OR" ++ 0x20 :: s) := by
      intro s
      have htext : ascii "   OR " = [0x20, 0x20, 0x20] ++ (ascii "OR" ++ [0x20]) := by decide
      simp only [orText, htext, List.append_assoc, List.cons_append, List.nil_append]
    have hends : ∀ s : JsString, (orText indent ++ s).head? ≠ some quote :=
      fun _ h => absurd (Option.some.inj h) (by decide)
    have ih := lexFrom_terms hindent (fun s hs => h s (List.mem_cons_of_mem t hs) : ∀ s ∈ t' :: terms, s.Plain)
    rw [List.map_cons, List.map_cons, List.intercalate_cons_cons, List.append_assoc, List.append_assoc,
      (h t List.mem_cons_self).lexFrom_text (hends _), hor, lexFrom_blanks hblank,
      lexFrom_word (by decide) (by decide), ← List.map_cons, ih]
    rfl

theorem readTerms_disjunctionTokens :
    ∀ {terms : List LikeTerm}, terms ≠ [] → readTerms (disjunctionTokens terms) = some terms
  | [], h => absurd rfl h
  | [t], _ => by
    rw [disjunctionTokens, LikeTerm.tokens]
    simp only [List.cons_append, List.nil_append]
    rw [readTerms, if_pos ⟨rfl, rfl⟩]
  | t :: t' :: terms, _ => by
    have ih := readTerms_disjunctionTokens (List.cons_ne_nil t' terms)
    rw [disjunctionTokens, LikeTerm.tokens]
    simp only [List.cons_append, List.nil_append]
    rw [readTerms, if_pos ⟨rfl, rfl⟩]
    simp only [if_true, ih, Option.map_some]

theorem readDisjunction_text {indent : JsString} (hindent : ∀ u ∈ indent, isBlank u = true) {terms : List LikeTerm}
    (hne : terms ≠ []) (hplain : ∀ t ∈ terms, t.Plain) :
    readDisjunction (disjunctionText indent terms) = some terms := by
  have hlex : lexFrom .out (disjunctionText indent terms) = some (.lp :: disjunctionTokens terms) := by
    rw [disjunctionText, lexFrom_cons rfl, lexFrom_terms hindent hplain]
    rfl
  rw [readDisjunction, hlex]
  exact readTerms_disjunctionTokens hne

/-- A written condition is true of a row when one of its terms is. -/
theorem isTrue_text {indent : JsString} (hindent : ∀ u ∈ indent, isBlank u = true) {terms : List LikeTerm}
    (hne : terms ≠ []) (hplain : ∀ t ∈ terms, t.Plain) (env : JsString → Option JsString) :
    isTrue env (disjunctionText indent terms) = some (terms.any (·.holds env)) := by
  rw [isTrue, readDisjunction_text hindent hne hplain, Option.map_some]

end Hayven.Lib.Sql
