import Mathlib.Tactic.Common
import Mathlib.Data.List.Basic
/-!
# Full-text query expressions

The part of the FTS5 query language made of quoted phrases, `AND`, `OR`, parentheses and
juxtaposition, which is an AND that binds tightest and takes phrases only. `parse` reads a
text as FTS5 does, `text` writes an expression, and reading undoes writing: `parse_text`.
`NOT`, `NEAR`, column filters, prefixes and initial tokens are outside this part.
-/

namespace Hayven.Lib.FtsQuery

/-! ## Expressions -/

inductive Expr where
  | phrase (p : List Char)
  /-- A list of phrases and one more phrase. -/
  | near (e : Expr) (p : List Char)
  | paren (e : Expr)
  | both (l r : Expr)
  | either (l r : Expr)
  deriving DecidableEq, Repr

namespace Expr

def phrases : Expr → List (List Char)
  | phrase p => [p]
  | near e p => e.phrases ++ [p]
  | paren e => e.phrases
  | both l r => l.phrases ++ r.phrases
  | either l r => l.phrases ++ r.phrases

/-- What an expression selects, from what each phrase selects. -/
def eval (hit : List Char → Bool) : Expr → Bool
  | phrase p => hit p
  | near e p => e.eval hit && hit p
  | paren e => e.eval hit
  | both l r => l.eval hit && r.eval hit
  | either l r => l.eval hit || r.eval hit

/-- No phrase contains a quote. -/
def Quoteless (e : Expr) : Prop := ∀ p ∈ e.phrases, '"' ∉ p

def isList : Expr → Bool
  | phrase _ | near _ _ => true
  | _ => false

/-- 0 for what an operator takes as it is, 1 for an AND, 2 for an OR. -/
def level : Expr → Nat
  | both _ _ => 1
  | either _ _ => 2
  | _ => 0

/-- The operators nest as their precedence and their grouping to the left have them. -/
def Nested : Expr → Prop
  | phrase _ => True
  | near e _ => e.isList = true ∧ e.Nested
  | paren e => e.Nested
  | both l r => l.level ≤ 1 ∧ r.level = 0 ∧ l.Nested ∧ r.Nested
  | either l r => r.level ≤ 1 ∧ l.Nested ∧ r.Nested

end Expr

def quoted (p : List Char) : List Char := '"' :: (p ++ ['"'])

def andText : List Char := [' ', 'A', 'N', 'D', ' ']

def orText : List Char := [' ', 'O', 'R', ' ']

def Expr.text : Expr → List Char
  | .phrase p => quoted p
  | .near e p => e.text ++ ' ' :: quoted p
  | .paren e => '(' :: (e.text ++ [')'])
  | .both l r => l.text ++ (andText ++ r.text)
  | .either l r => l.text ++ (orText ++ r.text)

/-! ## Tokens -/

inductive Token where
  | lp | rp | and | or
  | str (p : List Char)
  deriving DecidableEq, Repr

def Expr.tokens : Expr → List Token
  | .phrase p => [.str p]
  | .near e p => e.tokens ++ [.str p]
  | .paren e => .lp :: (e.tokens ++ [.rp])
  | .both l r => l.tokens ++ .and :: r.tokens
  | .either l r => l.tokens ++ .or :: r.tokens

/-- What a bareword may hold. -/
def isBareChar (c : Char) : Bool :=
  c.isAlphanum || c = '_' || c = Char.ofNat 26 || 128 ≤ c.toNat

def isBlank (c : Char) : Bool := c = ' ' || c = '\t' || c = '\n' || c = '\r'

/-- The token of a bareword; `NOT` is no token of this part. -/
def bareToken (w : List Char) : Option Token :=
  if w = ['A', 'N', 'D'] then some .and
  else if w = ['O', 'R'] then some .or
  else if w = ['N', 'O', 'T'] then none
  else some (.str w)

/-- Where the tokenizer stands: between tokens, in a quoted phrase, behind a quote that ends
the phrase unless another one follows, or in a bareword. -/
inductive Mode where
  | out
  | inside (p : List Char)
  | closing (p : List Char)
  | word (w : List Char)

def Mode.start (c : Char) : Option (List Token × Mode) :=
  if isBlank c then some ([], .out)
  else if c = '(' then some ([.lp], .out)
  else if c = ')' then some ([.rp], .out)
  else if c = '"' then some ([], .inside [])
  else if isBareChar c then some ([], .word [c])
  else none

/-- One character: the tokens it ends or makes, and the next mode. -/
def Mode.step : Mode → Char → Option (List Token × Mode)
  | .out, c => Mode.start c
  | .inside p, c => if c = '"' then some ([], .closing p) else some ([], .inside (p ++ [c]))
  | .closing p, c =>
    if c = '"' then some ([], .inside (p ++ [c]))
    else (Mode.start c).map fun r => (.str p :: r.1, r.2)
  | .word w, c =>
    if isBareChar c then some ([], .word (w ++ [c]))
    else (bareToken w).bind fun t => (Mode.start c).map fun r => (t :: r.1, r.2)

/-- A text may not end in a quoted phrase. -/
def Mode.finish : Mode → Option (List Token)
  | .out => some []
  | .inside _ => none
  | .closing p => some [.str p]
  | .word w => (bareToken w).map ([·])

def lexFrom : Mode → List Char → Option (List Token)
  | m, [] => m.finish
  | m, c :: cs => (m.step c).bind fun r => (lexFrom r.2 cs).map (r.1 ++ ·)

def lex (cs : List Char) : Option (List Token) := lexFrom .out cs

/-! ## The parser -/

/-- An open parenthesis: the left operand of a pending OR, that of a pending AND, and the
operand just read. -/
structure Frame where
  ors : Option Expr := none
  ands : Option Expr := none
  cur : Option Expr := none
  deriving DecidableEq, Repr

def joinWith (f : Expr → Expr → Expr) : Option Expr → Expr → Expr
  | none, e => e
  | some l, e => f l e

/-- All that a frame has read, with the operand `e` last. -/
def Frame.reduce (fr : Frame) (e : Expr) : Expr := joinWith .either fr.ors (joinWith .both fr.ands e)

def Frame.operand (fr : Frame) (e : Expr) : Frame := { fr with cur := some e }

/-- One token on the stack of open parentheses, the innermost first. -/
def shift : List Frame → Token → Option (List Frame)
  | fr :: st, .str p =>
    match fr.cur with
    | none => some (fr.operand (.phrase p) :: st)
    | some e => if e.isList then some (fr.operand (.near e p) :: st) else none
  | fr :: st, .lp =>
    match fr.cur with
    | none => some ({} :: fr :: st)
    | some _ => none
  | fr :: outer :: st, .rp => fr.cur.map fun e => outer.operand (.paren (fr.reduce e)) :: st
  | fr :: st, .and => fr.cur.map fun e => { fr with ands := some (joinWith .both fr.ands e), cur := none } :: st
  | fr :: st, .or => fr.cur.map fun e => { ors := some (fr.reduce e) } :: st
  | _, _ => none

def shiftAll : List Frame → List Token → Option (List Frame)
  | st, [] => some st
  | st, t :: ts => (shift st t).bind (shiftAll · ts)

def accept : List Frame → Option Expr
  | [fr] => fr.cur.map fr.reduce
  | _ => none

/-- The expression of a `MATCH` text, if it is one. -/
def parse (cs : List Char) : Option Expr := (lex cs).bind fun ts => (shiftAll [{}] ts).bind accept

/-! ## Tokens of a text -/

theorem lexFrom_cons {m m' : Mode} {c : Char} {ts : List Token} (h : m.step c = some (ts, m')) (cs : List Char) :
    lexFrom m (c :: cs) = (lexFrom m' cs).map (ts ++ ·) := by
  rw [lexFrom, h, Option.bind_some]

theorem lexFrom_inside {p : List Char} (hp : '"' ∉ p) (acc rest : List Char) :
    lexFrom (.inside acc) (p ++ '"' :: rest) = lexFrom (.closing (acc ++ p)) rest := by
  induction p generalizing acc with
  | nil =>
    rw [List.nil_append, List.append_nil, lexFrom_cons rfl]
    exact Option.map_id'
  | cons c cs ih =>
    have hc : c ≠ '"' := fun h => hp (h ▸ List.mem_cons_self)
    have hcs : '"' ∉ cs := fun h => hp (List.mem_cons_of_mem _ h)
    have hstep : (Mode.inside acc).step c = some ([], .inside (acc ++ [c])) := by rw [Mode.step, if_neg hc]
    rw [List.cons_append, lexFrom_cons hstep, ih hcs, List.append_assoc, List.singleton_append]
    exact Option.map_id'

/-- A quote that no other quote follows ends its phrase. -/
theorem lexFrom_closing {rest : List Char} (hrest : rest.head? ≠ some '"') (p : List Char) :
    lexFrom (.closing p) rest = (lexFrom .out rest).map (.str p :: ·) := by
  cases rest with
  | nil => rfl
  | cons c cs =>
    have hc : c ≠ '"' := fun h => hrest (by rw [h]; rfl)
    rcases hstart : Mode.start c with _ | ⟨ts, m⟩
    · simp only [lexFrom, Mode.step, if_neg hc, hstart, Option.map_none, Option.bind_none]
    · have hstep : (Mode.closing p).step c = some (.str p :: ts, m) := by rw [Mode.step, if_neg hc, hstart]; rfl
      rw [lexFrom_cons hstep, lexFrom_cons (m := .out) hstart]
      cases lexFrom m cs <;> rfl

theorem lexFrom_quoted {p : List Char} (hp : '"' ∉ p) {rest : List Char} (hrest : rest.head? ≠ some '"') :
    lexFrom .out (quoted p ++ rest) = (lexFrom .out rest).map (.str p :: ·) := by
  rw [quoted, List.cons_append, List.append_assoc, List.singleton_append, lexFrom_cons rfl, lexFrom_inside hp,
    List.nil_append, lexFrom_closing hrest]
  exact Option.map_id'

theorem lexFrom_blank (rest : List Char) : lexFrom .out (' ' :: rest) = lexFrom .out rest := by
  rw [lexFrom_cons rfl]
  exact Option.map_id'

theorem lexFrom_lp (rest : List Char) : lexFrom .out ('(' :: rest) = (lexFrom .out rest).map (.lp :: ·) :=
  lexFrom_cons (show Mode.step .out '(' = some ([.lp], .out) from rfl) rest

theorem lexFrom_rp (rest : List Char) : lexFrom .out (')' :: rest) = (lexFrom .out rest).map (.rp :: ·) :=
  lexFrom_cons (show Mode.step .out ')' = some ([.rp], .out) from rfl) rest

theorem lexFrom_and (rest : List Char) : lexFrom .out (andText ++ rest) = (lexFrom .out rest).map (.and :: ·) := by
  simp only [andText, List.cons_append, List.nil_append, lexFrom_blank]
  rw [lexFrom_cons rfl, lexFrom_cons rfl, lexFrom_cons rfl, lexFrom_cons rfl]
  cases lexFrom .out rest <;> rfl

theorem lexFrom_or (rest : List Char) : lexFrom .out (orText ++ rest) = (lexFrom .out rest).map (.or :: ·) := by
  simp only [orText, List.cons_append, List.nil_append, lexFrom_blank]
  rw [lexFrom_cons rfl, lexFrom_cons rfl, lexFrom_cons rfl]
  cases lexFrom .out rest <;> rfl

/-- Writing and then cutting into tokens gives the tokens of the expression. -/
theorem lexFrom_text {e : Expr} (he : e.Quoteless) {rest : List Char} (hrest : rest.head? ≠ some '"') :
    lexFrom .out (e.text ++ rest) = (lexFrom .out rest).map (e.tokens ++ ·) := by
  induction e generalizing rest with
  | phrase p => exact lexFrom_quoted (he p (List.mem_singleton.2 rfl)) hrest
  | near e p ih =>
    have hp : '"' ∉ p := he p (List.mem_append.2 (.inr (List.mem_singleton.2 rfl)))
    have hl : e.Quoteless := fun q hq => he q (List.mem_append.2 (.inl hq))
    rw [Expr.text, List.append_assoc, List.cons_append, ih hl (by simp), lexFrom_blank, lexFrom_quoted hp hrest]
    cases lexFrom .out rest <;> simp [Expr.tokens]
  | paren e ih =>
    rw [Expr.text, List.cons_append, List.append_assoc, List.singleton_append, lexFrom_lp, ih he (by simp), lexFrom_rp]
    cases lexFrom .out rest <;> simp [Expr.tokens]
  | both l r ihl ihr =>
    have hl : l.Quoteless := fun q hq => he q (List.mem_append.2 (.inl hq))
    have hr : r.Quoteless := fun q hq => he q (List.mem_append.2 (.inr hq))
    rw [Expr.text, List.append_assoc, List.append_assoc, ihl hl (by simp [andText]), lexFrom_and, ihr hr hrest]
    cases lexFrom .out rest <;> simp [Expr.tokens]
  | either l r ihl ihr =>
    have hl : l.Quoteless := fun q hq => he q (List.mem_append.2 (.inl hq))
    have hr : r.Quoteless := fun q hq => he q (List.mem_append.2 (.inr hq))
    rw [Expr.text, List.append_assoc, List.append_assoc, ihl hl (by simp [orText]), lexFrom_or, ihr hr hrest]
    cases lexFrom .out rest <;> simp [Expr.tokens]

theorem lex_text {e : Expr} (he : e.Quoteless) : lex e.text = some e.tokens := by
  have h : lexFrom .out (e.text ++ []) = _ := lexFrom_text he (by decide)
  rw [List.append_nil] at h
  rw [lex, h]
  simp [lexFrom, Mode.finish]

/-! ## The expression of the tokens -/

/-- The frame in which an AND, or one operand, has been read. -/
def Frame.conj (ors : Option Expr) : Expr → Frame
  | .both l r => ⟨ors, some l, some r⟩
  | e => ⟨ors, none, some e⟩

/-- The frame in which an expression has been read. -/
def Frame.disj : Expr → Frame
  | .either l r => Frame.conj (some l) r
  | e => Frame.conj none e

theorem conj_of_level {e : Expr} (he : e.level = 0) (ors : Option Expr) : Frame.conj ors e = ⟨ors, none, some e⟩ := by
  cases e <;> first | rfl | cases he

theorem disj_of_level {e : Expr} (he : e.level ≤ 1) : Frame.disj e = Frame.conj none e := by
  cases e with
  | either l r => exact absurd he (by simp [Expr.level])
  | _ => rfl

theorem conj_split (ors : Option Expr) (e : Expr) :
    (Frame.conj ors e).ors = ors ∧
      ∃ c, (Frame.conj ors e).cur = some c ∧ joinWith .both (Frame.conj ors e).ands c = e := by
  cases e <;> exact ⟨rfl, _, rfl, rfl⟩

theorem disj_split (e : Expr) : ∃ c, (Frame.disj e).cur = some c ∧ (Frame.disj e).reduce c = e := by
  have hconj : ∀ (ors : Option Expr) (e : Expr), ∃ c, (Frame.conj ors e).cur = some c ∧
      (Frame.conj ors e).reduce c = joinWith .either ors e := by
    intro ors e
    obtain ⟨hors, c, hc, hjoin⟩ := conj_split ors e
    exact ⟨c, hc, by rw [Frame.reduce, hors, hjoin]⟩
  cases e with
  | either l r => exact hconj (some l) r
  | _ => exact hconj none _

/-- The parser on the tokens of an expression, in each of the places where one may stand. -/
structure Reads (e : Expr) : Prop where
  operand : e.level = 0 → ∀ (fr : Frame) st rest, fr.cur = none →
    shiftAll (fr :: st) (e.tokens ++ rest) = shiftAll (fr.operand e :: st) rest
  conj : e.level ≤ 1 → ∀ ors st rest,
    shiftAll (⟨ors, none, none⟩ :: st) (e.tokens ++ rest) = shiftAll (Frame.conj ors e :: st) rest
  disj : ∀ st rest, shiftAll ({} :: st) (e.tokens ++ rest) = shiftAll (Frame.disj e :: st) rest

/-- An operand is an AND and an OR of itself alone. -/
theorem Reads.of_operand {e : Expr} (he : e.level = 0)
    (h : ∀ (fr : Frame) st rest, fr.cur = none →
      shiftAll (fr :: st) (e.tokens ++ rest) = shiftAll (fr.operand e :: st) rest) : Reads e := by
  have hconj : ∀ ors st rest,
      shiftAll (⟨ors, none, none⟩ :: st) (e.tokens ++ rest) = shiftAll (Frame.conj ors e :: st) rest := by
    intro ors st rest
    rw [h _ st rest rfl, conj_of_level he]
    rfl
  refine ⟨fun _ => h, fun _ => hconj, fun st rest => ?_⟩
  rw [hconj none st rest, disj_of_level (by omega)]

theorem reads_phrase (p : List Char) : Reads (.phrase p) := by
  refine Reads.of_operand rfl fun fr st rest hfr => ?_
  simp only [Expr.tokens, List.singleton_append, shiftAll, shift, hfr, Option.bind_some]

theorem reads_near {e : Expr} (p : List Char) (he : e.isList = true) (ih : Reads e) : Reads (.near e p) := by
  have hlevel : e.level = 0 := by cases e <;> first | rfl | cases he
  refine Reads.of_operand rfl fun fr st rest hfr => ?_
  rw [Expr.tokens, List.append_assoc, ih.operand hlevel fr st _ hfr]
  simp only [List.singleton_append, shiftAll, shift, Frame.operand, he, if_true, Option.bind_some]

theorem reads_paren {e : Expr} (ih : Reads e) : Reads (.paren e) := by
  refine Reads.of_operand rfl fun fr st rest hfr => ?_
  obtain ⟨c, hc, hreduce⟩ := disj_split e
  rw [Expr.tokens, List.cons_append, List.append_assoc]
  simp only [shiftAll, shift, hfr, Option.bind_some]
  rw [ih.disj]
  simp only [List.singleton_append, shiftAll, shift, hc, hreduce, Option.map_some, Option.bind_some]

theorem reads_both {l r : Expr} (hl : l.level ≤ 1) (hr : r.level = 0) (ihl : Reads l) (ihr : Reads r) :
    Reads (.both l r) := by
  have hconj : ∀ ors st rest, shiftAll (⟨ors, none, none⟩ :: st) ((Expr.both l r).tokens ++ rest) =
      shiftAll (Frame.conj ors (.both l r) :: st) rest := by
    intro ors st rest
    obtain ⟨hors, c, hc, hjoin⟩ := conj_split ors l
    rw [Expr.tokens, List.append_assoc, ihl.conj hl]
    simp only [List.cons_append, shiftAll, shift, hc, hors, hjoin, Option.map_some, Option.bind_some]
    rw [ihr.operand hr _ st rest rfl]
    rfl
  exact ⟨nofun, fun _ => hconj, fun st rest => hconj none st rest⟩

theorem reads_either {l r : Expr} (hr : r.level ≤ 1) (ihl : Reads l) (ihr : Reads r) : Reads (.either l r) := by
  refine ⟨nofun, fun h => absurd h (by simp [Expr.level]), fun st rest => ?_⟩
  obtain ⟨c, hc, hreduce⟩ := disj_split l
  rw [Expr.tokens, List.append_assoc, ihl.disj]
  simp only [List.cons_append, shiftAll, shift, hc, hreduce, Option.map_some, Option.bind_some]
  exact ihr.conj hr (some l) st rest

theorem reads {e : Expr} (he : e.Nested) : Reads e := by
  induction e with
  | phrase p => exact reads_phrase p
  | near e p ih => exact reads_near p he.1 (ih he.2)
  | paren e ih => exact reads_paren (ih he)
  | both l r ihl ihr => exact reads_both he.1 he.2.1 (ihl he.2.2.1) (ihr he.2.2.2)
  | either l r ihl ihr => exact reads_either he.1 (ihl he.2.1) (ihr he.2.2)

/-- Reading undoes writing. -/
theorem parse_text {e : Expr} (hnested : e.Nested) (hquoteless : e.Quoteless) : parse e.text = some e := by
  obtain ⟨c, hc, hreduce⟩ := disj_split e
  have hreads := (reads hnested).disj [] []
  rw [List.append_nil] at hreads
  rw [parse, lex_text hquoteless, Option.bind_some, hreads]
  simp only [shiftAll, Option.bind_some, accept, hc, Option.map_some, hreduce]

/-! ## What a text selects -/

/-- The text of a well-formed expression without quotes in its phrases, of at most this level,
that selects `sel`. -/
def Denotes (level : Nat) (s : List Char) (sel : (List Char → Bool) → Bool) : Prop :=
  ∃ e : Expr, e.text = s ∧ e.Nested ∧ e.Quoteless ∧ e.level ≤ level ∧ ∀ hit, e.eval hit = sel hit

section Denotes
variable {n : Nat} {s t : List Char} {sel sel' : (List Char → Bool) → Bool}

/-- A text that denotes a selection is read as an expression that selects it. -/
theorem Denotes.parse (h : Denotes n s sel) :
    ∃ e, FtsQuery.parse s = some e ∧ e.Quoteless ∧ ∀ hit, e.eval hit = sel hit := by
  obtain ⟨e, rfl, hnested, hquoteless, -, heval⟩ := h
  exact ⟨e, parse_text hnested hquoteless, hquoteless, heval⟩

theorem Denotes.ne_nil (h : Denotes n s sel) : s ≠ [] := by
  rintro rfl
  obtain ⟨e, he, -⟩ := h.parse
  cases he

theorem Denotes.mono {m : Nat} (h : Denotes n s sel) (hle : n ≤ m) : Denotes m s sel := by
  obtain ⟨e, htext, hnested, hquoteless, hlevel, heval⟩ := h
  exact ⟨e, htext, hnested, hquoteless, Nat.le_trans hlevel hle, heval⟩

theorem denotes_quoted {p : List Char} (hp : '"' ∉ p) : Denotes 0 (quoted p) fun hit => hit p :=
  ⟨.phrase p, rfl, trivial, fun q hq => by rw [List.mem_singleton.1 hq]; exact hp, Nat.le_refl 0, fun _ => rfl⟩

theorem Denotes.paren (h : Denotes n s sel) : Denotes 0 ('(' :: (s ++ [')'])) sel := by
  obtain ⟨e, rfl, hnested, hquoteless, -, heval⟩ := h
  exact ⟨.paren e, rfl, hnested, hquoteless, Nat.le_refl 0, heval⟩

theorem Denotes.both (h : Denotes 1 s sel) (h' : Denotes 0 t sel') :
    Denotes 1 (s ++ (andText ++ t)) fun hit => sel hit && sel' hit := by
  obtain ⟨l, rfl, hl, hql, hlevel, hevall⟩ := h
  obtain ⟨r, rfl, hr, hqr, hlevel', hevalr⟩ := h'
  refine ⟨.both l r, rfl, ⟨hlevel, Nat.le_zero.1 hlevel', hl, hr⟩, ?_, Nat.le_refl 1, fun hit => ?_⟩
  · intro p hp
    exact (List.mem_append.1 hp).elim (hql p) (hqr p)
  · rw [Expr.eval, hevall, hevalr]

theorem Denotes.either (h : Denotes 2 s sel) (h' : Denotes 1 t sel') :
    Denotes 2 (s ++ (orText ++ t)) fun hit => sel hit || sel' hit := by
  obtain ⟨l, rfl, hl, hql, -, hevall⟩ := h
  obtain ⟨r, rfl, hr, hqr, hlevel, hevalr⟩ := h'
  refine ⟨.either l r, rfl, ⟨hlevel, hl, hr⟩, ?_, Nat.le_refl 2, fun hit => ?_⟩
  · intro p hp
    exact (List.mem_append.1 hp).elim (hql p) (hqr p)
  · rw [Expr.eval, hevall, hevalr]

end Denotes

/-! ## Joined texts -/

section Joined
variable {α : Type} {text : α → List Char} {sel : α → (List Char → Bool) → Bool}

theorem intercalate_append (sep a b : List Char) (l : List (List Char)) :
    sep.intercalate ((a ++ (sep ++ b)) :: l) = sep.intercalate (a :: b :: l) := by
  cases l <;> simp [List.intercalate]

theorem denotes_or_from {s : List Char} {sel₀ : (List Char → Bool) → Bool} (h₀ : Denotes 2 s sel₀) (as : List α)
    (h : ∀ a ∈ as, Denotes 1 (text a) (sel a)) :
    Denotes 2 (orText.intercalate (s :: as.map text)) fun hit => sel₀ hit || as.any fun a => sel a hit := by
  induction as generalizing s sel₀ with
  | nil => simpa [List.intercalate] using h₀
  | cons a as ih =>
    have hrest := ih (h₀.either (h a List.mem_cons_self)) fun b hb => h b (List.mem_cons_of_mem _ hb)
    rw [intercalate_append] at hrest
    simpa only [List.map_cons, List.any_cons, Bool.or_assoc] using hrest

/-- Texts joined by OR. -/
theorem denotes_or {as : List α} (has : as ≠ []) (h : ∀ a ∈ as, Denotes 1 (text a) (sel a)) :
    Denotes 2 (orText.intercalate (as.map text)) fun hit => as.any fun a => sel a hit := by
  cases as with
  | nil => exact absurd rfl has
  | cons a as =>
    exact denotes_or_from ((h a List.mem_cons_self).mono (by omega)) as fun b hb => h b (List.mem_cons_of_mem _ hb)

theorem denotes_and_from {s : List Char} {sel₀ : (List Char → Bool) → Bool} (h₀ : Denotes 1 s sel₀) (as : List α)
    (h : ∀ a ∈ as, Denotes 0 (text a) (sel a)) :
    Denotes 1 (andText.intercalate (s :: as.map text)) fun hit => sel₀ hit && as.all fun a => sel a hit := by
  induction as generalizing s sel₀ with
  | nil => simpa [List.intercalate] using h₀
  | cons a as ih =>
    have hrest := ih (h₀.both (h a List.mem_cons_self)) fun b hb => h b (List.mem_cons_of_mem _ hb)
    rw [intercalate_append] at hrest
    simpa only [List.map_cons, List.all_cons, Bool.and_assoc] using hrest

/-- Texts joined by AND. -/
theorem denotes_and {as : List α} (has : as ≠ []) (h : ∀ a ∈ as, Denotes 0 (text a) (sel a)) :
    Denotes 1 (andText.intercalate (as.map text)) fun hit => as.all fun a => sel a hit := by
  cases as with
  | nil => exact absurd rfl has
  | cons a as =>
    exact denotes_and_from ((h a List.mem_cons_self).mono (by omega)) as fun b hb => h b (List.mem_cons_of_mem _ hb)

/-- Phrases one behind the other. -/
theorem denotes_list {ps : List (List Char)} (hps : ps ≠ []) (h : ∀ p ∈ ps, '"' ∉ p) :
    Denotes 0 ([' '].intercalate (ps.map quoted)) fun hit => ps.all hit := by
  suffices hfrom : ∀ (ps : List (List Char)) (e : Expr), (∀ p ∈ ps, '"' ∉ p) → e.isList = true → e.Nested →
      e.Quoteless → Denotes 0 ([' '].intercalate (e.text :: ps.map quoted)) fun hit => e.eval hit && ps.all hit by
    cases ps with
    | nil => exact absurd rfl hps
    | cons p ps =>
      refine hfrom ps (.phrase p) (fun q hq => h q (List.mem_cons_of_mem _ hq)) rfl trivial fun q hq => ?_
      rw [List.mem_singleton.1 hq]
      exact h p List.mem_cons_self
  intro ps
  induction ps with
  | nil =>
    intro e _ hlist hnested hquoteless
    have hlevel : e.level = 0 := by cases e <;> first | rfl | cases hlist
    exact ⟨e, by simp [List.intercalate], hnested, hquoteless, Nat.le_of_eq hlevel, fun hit => by simp⟩
  | cons p ps ih =>
    intro e hps hlist hnested hquoteless
    have hquoteless' : (Expr.near e p).Quoteless := by
      intro q hq
      rcases List.mem_append.1 hq with hq | hq
      · exact hquoteless q hq
      · rw [List.mem_singleton.1 hq]
        exact hps p List.mem_cons_self
    have hrest := ih (.near e p) (fun q hq => hps q (List.mem_cons_of_mem _ hq)) rfl ⟨hlist, hnested⟩ hquoteless'
    have htext : (Expr.near e p).text = e.text ++ ([' '] ++ quoted p) := rfl
    rw [htext, intercalate_append] at hrest
    simpa only [List.map_cons, List.all_cons, Expr.eval, Bool.and_assoc] using hrest

end Joined

end Hayven.Lib.FtsQuery
