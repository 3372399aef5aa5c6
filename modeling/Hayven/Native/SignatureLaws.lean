import Hayven.Conflict.ContractDiff
import Hayven.Native.SignatureEntries
import Mathlib.Algebra.Order.BigOperators.Group.List
/-!
# What a signature says of a declaration

A signature should have one entry for each declared slot, whatever the layout, and tell apart
what a caller may pass. Only Go keeps the promise, and Go only where no type has anything
between its tokens: `sound_iff`. Defaults of Python and initializers of TypeScript do not show.
-/
open Hayven.Lib

namespace Hayven.Native.Signatures

/-! ## The contract -/

section Contract
variable {G : Grammar} (up : JsString → Bool)

/-- The arity and the entries count the declared slots. -/
def OneEntry (d : Decl G) : Prop := (d.signature up).arity = d.slots ∧ (d.signature up).params.length = d.slots

/-- The same tokens in the list, whatever stands between them, and whatever stands around the list. -/
def SameTokens (d d' : Decl G) : Prop := d'.params.map G.skeleton = d.params.map G.skeleton ∧ d'.method = d.method

def LayoutFree (d : Decl G) : Prop :=
  ∀ d', SameTokens d d' →
    (d'.signature up).arity = (d.signature up).arity ∧ (d'.signature up).params = (d.signature up).params

/-- Versions of one signature take the same numbers of arguments. -/
def CountsVisible (d : Decl G) : Prop :=
  ∀ d' : Decl G, d'.name = d.name → d'.method = d.method → d'.signature up = d.signature up →
    ∀ n, d'.Accepts n ↔ d.Accepts n

structure Sound (d : Decl G) : Prop where
  one : OneEntry up d
  layout : LayoutFree up d
  counts : CountsVisible up d

/-- No layout is safe from another comment. -/
theorem not_layoutFree (d : Decl G) (hgo : G.language ≠ .go) :
    ¬ LayoutFree up d := by
  intro h
  have hsame : SameTokens d d.comment := ⟨by rw [d.params_comment], rfl⟩
  have harity := (h d.comment hsame).1
  rw [arity_comment up d hgo] at harity
  exact absurd harity (Nat.succ_ne_self _)

/-- One call more or less is open to a version of the same signature. -/
theorem not_countsVisible (d d' : Decl G) (hname : d'.name = d.name) (hmethod : d'.method = d.method)
    (hsignature : d'.signature up = d.signature up) {n : Nat} (hopen : d'.Accepts n) (hclosed : ¬ d.Accepts n) :
    ¬ CountsVisible up d := fun h => hclosed ((h d' hname hmethod hsignature n).1 hopen)

end Contract

/-! ## Go -/

section Go
variable {style : CommentStyle}

theorem inField_nameParts (names : List (Token × Gap style × Gap style)) (f : Field) :
    ((GoParam.nameParts names).flatMap (inField f)) =
      if f = .name then names.map fun n => Node.mk .identifier true n.1.text [] else [] := by
  induction names with
  | nil => simp [GoParam.nameParts]
  | cons n names ih =>
    cases names with
    | nil => by_cases h : f = .name <;> simp [GoParam.nameParts, h, eq_comm]
    | cons n' names =>
      rw [GoParam.nameParts, List.flatMap_cons, List.flatMap_cons, List.flatMap_cons, List.flatMap_cons, ih]
      by_cases h : f = .name <;> simp [h, eq_comm]

theorem inField_ellipsisParts (e : Option (Gap style)) (f : Field) :
    (GoParam.ellipsisParts e).flatMap (inField f) = [] := by
  cases e <;> simp [GoParam.ellipsisParts]

/-- The text of a type, the dots of a variadic parameter before it. -/
def goText (p : GoParam (Gap style) (Piece style)) : JsString :=
  (if p.ellipsis.isSome then ascii "..." else []) ++ p.type.text

theorem goParamTexts_node (p : GoParam (Gap style) (Piece style)) :
    goParamTexts p.node = List.replicate (max p.names.length 1) (goText p) := by
  have hfields : ∀ f, p.node.childrenByFieldName f =
      (if f = .name then p.names.map fun n => Node.mk .identifier true n.1.text [] else []) ++
        if f = .type then [p.type.node .other] else [] := by
    intro f
    rw [GoParam.node, childrenByFieldName_nodeOf, List.flatMap_append, inField_nameParts, List.flatMap_cons,
      List.flatMap_append, inField_ellipsisParts, inField_gap, List.flatMap_singleton, inField_piece]
    simp [eq_comm]
  have htype : goTypeText p.node = p.type.text := by
    rw [goTypeText, Node.childByFieldName, hfields]
    exact trim_text p.type
  have hnames : nameCount p.node = max p.names.length 1 := by
    rw [nameCount, hfields]
    simp
  have hkind : p.node.kind = if p.ellipsis.isSome then .variadicParameterDeclaration else .parameterDeclaration := rfl
  have hdecl : isGoDeclaration p.node = true := by
    rw [isGoDeclaration, hkind]
    cases p.ellipsis <;> rfl
  rw [goParamTexts, if_pos hdecl, hnames, htype, hkind, goText]
  cases p.ellipsis with
  | none => simp
  | some g => simp [text_ne_nil]

theorem go_params (up : JsString → Bool) (d : Decl go) :
    (d.signature up).params = d.params.flatMap fun p => List.replicate (max p.names.length 1) (goText p) := by
  rw [signature_params_param up d entries_comment_go]
  congr 1
  funext p
  exact goParamTexts_node p

end Go

/-! ## The contract in Go -/

section GoContract
variable (up : JsString → Bool)

theorem oneEntry_go (d : Decl go) : OneEntry up d := by
  have hparams : (d.signature up).params.length = d.slots := by
    rw [go_params, Decl.slots]
    simp only [List.length_flatMap, GoParam.shapes, List.length_replicate]
  exact ⟨(signature_arity up d).trans hparams, hparams⟩

/-- What an entry says of its slot. -/
def entryShape (text : JsString) : Shape := if (ascii "...").isPrefixOf text then .variadic else .required

theorem entryShape_goText {style : CommentStyle} {p : GoParam (Gap style) (Piece style)}
    (h : p.type.head.text.head? ≠ some dot) :
    entryShape (goText p) = if p.ellipsis.isSome then .variadic else .required := by
  rcases hellipsis : p.ellipsis with _ | g
  · have htext : (goText p).head? ≠ some dot := by
      rw [goText, hellipsis, Piece.text]
      have hne : p.type.head.text ≠ [] := (isSolid_iff.1 p.type.head.solid).1
      rw [Option.isSome_none, if_neg Bool.false_ne_true, List.nil_append, List.head?_append_of_ne_nil _ hne]
      exact h
    have hnot : (ascii "...").isPrefixOf (goText p) = false := by
      rw [Bool.eq_false_iff]
      intro hprefix
      obtain ⟨rest, hrest⟩ := List.isPrefixOf_iff_prefix.1 hprefix
      exact htext (by rw [← hrest]; rfl)
    rw [entryShape, hnot]
    rfl
  · have hprefix : (ascii "...").isPrefixOf (goText p) = true := by
      rw [goText, hellipsis]
      exact List.isPrefixOf_iff_prefix.2 (List.prefix_append _ _)
    rw [entryShape, hprefix]
    rfl

theorem shapes_go (d : Decl go) : go.shapes d.method d.params = (d.signature up).params.map entryShape := by
  rw [go_params, List.map_flatMap]
  apply List.flatMap_congr
  intro p hp
  rw [List.map_replicate, entryShape_goText (d.legal p hp)]
  rfl

theorem countsVisible_go (d : Decl go) : CountsVisible up d := by
  intro d' _ _ hsignature n
  rw [Decl.Accepts, Decl.Accepts, shapes_go up d, shapes_go up d', hsignature]

/-- The entry of a parameter whose type is one token. -/
def skeletonTexts (s : GoParam Unit (List Token)) : List JsString :=
  List.replicate (max s.names.length 1)
    ((if s.ellipsis.isSome then ascii "..." else []) ++ s.type.flatMap Token.text)

theorem goTexts_skeleton {p : GoParam (Gap .slashes) (Piece .slashes)} (h : (go.skeleton p).type.length = 1) :
    List.replicate (max p.names.length 1) (goText p) = skeletonTexts (go.skeleton p) := by
  obtain ⟨names, before, ellipsis, head, rest⟩ := p
  have hrest : rest = [] := by
    have hlength : rest.length + 1 = 1 := by simpa [GoParam.map, Piece.tokens] using h
    exact List.length_eq_zero_iff.1 (Nat.succ.inj hlength)
  subst hrest
  simp [skeletonTexts, goText, GoParam.map, Piece.text, Piece.tokens]

theorem layoutFree_of_single (d : Decl go) (h : ∀ p ∈ d.params, p.type.rest = []) : LayoutFree up d := by
  have htexts : ∀ d' : Decl go, SameTokens d d' →
      (d'.signature up).params = (d.params.map go.skeleton).flatMap skeletonTexts := by
    intro d' hsame
    have hsingle : ∀ p ∈ d'.params, (go.skeleton p).type.length = 1 := by
      intro p hp
      have hmem : go.skeleton p ∈ d.params.map go.skeleton := hsame.1 ▸ List.mem_map_of_mem hp
      obtain ⟨q, hq, hskeleton⟩ := List.mem_map.1 hmem
      rw [← hskeleton]
      simp [GoParam.map, Piece.tokens, h q hq]
    rw [go_params, ← hsame.1, List.flatMap_map]
    apply List.flatMap_congr
    intro p hp
    exact goTexts_skeleton (hsingle p hp)
  intro d' hsame
  have hparams : (d'.signature up).params = (d.signature up).params := by
    rw [htexts d' hsame, htexts d ⟨rfl, rfl⟩]
  exact ⟨by rw [signature_arity, signature_arity, hparams], hparams⟩

/-! ## Types of several tokens -/

def oneBlank : Filler .slashes := .blank [0x20] (by decide)

/-- One blank more behind the first token. -/
def Piece.loosen (p : Piece .slashes) : Piece .slashes :=
  match p.rest with
  | [] => p
  | (g, t) :: rest => ⟨p.head, (oneBlank :: g, t) :: rest⟩

theorem Piece.tokens_loosen (p : Piece .slashes) : p.loosen.tokens = p.tokens := by
  obtain ⟨head, _ | ⟨⟨g, t⟩, rest⟩⟩ := p <;> rfl

theorem Piece.head_loosen (p : Piece .slashes) : p.loosen.head = p.head := by
  obtain ⟨head, _ | ⟨⟨g, t⟩, rest⟩⟩ := p <;> rfl

theorem Piece.length_loosen (p : Piece .slashes) :
    p.loosen.text.length = p.text.length + if p.rest = [] then 0 else 1 := by
  obtain ⟨head, _ | ⟨⟨g, t⟩, rest⟩⟩ := p
  · rfl
  · simp [Piece.loosen, Piece.text, Gap.text, oneBlank, Filler.text]
    omega

def GoParam.loosen (p : GoParam (Gap .slashes) (Piece .slashes)) : GoParam (Gap .slashes) (Piece .slashes) :=
  { p with type := p.type.loosen }

def Item.loosen : Item go → Item go
  | .param p => .param p.loosen
  | i => i

theorem params_loosen (items : List (Item go)) :
    (items.map Item.loosen).filterMap Item.param? = (items.filterMap Item.param?).map GoParam.loosen := by
  rw [List.filterMap_map, List.map_filterMap]
  congr 1
  funext i
  cases i <;> rfl

/-- The declaration with one blank more in every type of several tokens. -/
def Decl.loosen (d : Decl go) : Decl go :=
  { d with
    items := d.items.map Item.loosen
    legal := by
      intro p hp
      rw [params_loosen] at hp
      obtain ⟨q, hq, rfl⟩ := List.mem_map.1 hp
      exact fun h => d.legal q hq ((congrArg (fun t : Token => t.text.head?) q.type.head_loosen).symm.trans h) }

theorem Decl.params_loosen (d : Decl go) : d.loosen.params = d.params.map GoParam.loosen :=
  Signatures.params_loosen d.items

theorem sameTokens_loosen (d : Decl go) : SameTokens d d.loosen := by
  refine ⟨?_, rfl⟩
  rw [d.params_loosen, List.map_map]
  apply List.map_congr_left
  intro p _
  simp only [Function.comp_apply, GoParam.map, GoParam.loosen, Piece.tokens_loosen]

/-- All the entries of a parameter together. -/
def entryLength (p : GoParam (Gap .slashes) (Piece .slashes)) : Nat := max p.names.length 1 * (goText p).length

theorem go_length (d : Decl go) :
    ((d.signature up).params.map List.length).sum = (d.params.map entryLength).sum := by
  rw [go_params, List.map_flatMap, List.flatMap_def, List.sum_flatten, List.map_map]
  congr 1
  apply List.map_congr_left
  intro p _
  rw [Function.comp_apply, List.map_replicate, List.sum_replicate, entryLength]
  rfl

theorem single_of_layoutFree (d : Decl go) (h : LayoutFree up d) : ∀ p ∈ d.params, p.type.rest = [] := by
  intro p hp
  by_contra hrest
  have hlength : ∀ q : GoParam (Gap .slashes) (Piece .slashes),
      (goText q.loosen).length = (goText q).length + if q.type.rest = [] then 0 else 1 := by
    intro q
    rw [goText, goText, List.length_append, List.length_append, Nat.add_assoc]
    exact congrArg _ q.type.length_loosen
  have hpos : ∀ q : GoParam (Gap .slashes) (Piece .slashes), 0 < max q.names.length 1 := fun q => by omega
  have hlonger : (d.params.map entryLength).sum < (d.params.map (entryLength ∘ GoParam.loosen)).sum := by
    apply List.sum_lt_sum
    · intro q _
      exact Nat.mul_le_mul_left _ (by rw [hlength]; exact Nat.le_add_right _ _)
    · refine ⟨p, hp, ?_⟩
      exact Nat.mul_lt_mul_of_pos_left (by rw [hlength, if_neg hrest]; exact Nat.lt_succ_self _) (hpos p)
  have hsame := go_length up d.loosen
  rw [(h d.loosen (sameTokens_loosen d)).2, go_length, d.params_loosen, List.map_map] at hsame
  exact absurd hsame (Nat.ne_of_lt hlonger)

theorem layoutFree_go_iff (d : Decl go) : LayoutFree up d ↔ ∀ p ∈ d.params, p.type.rest = [] :=
  ⟨single_of_layoutFree up d, layoutFree_of_single up d⟩

end GoContract

/-! ## Defaults -/

theorem accepts_zero_iff (shapes : List Shape) : Accepts shapes 0 ↔ .required ∉ shapes := by
  have hcount : requiredCount shapes = 0 ↔ .required ∉ shapes := by
    induction shapes with
    | nil => simp [requiredCount]
    | cons s shapes ih =>
      rw [requiredCount, List.mem_cons, not_or]
      by_cases hrest : .required ∈ shapes
      · simp [hrest]
      · by_cases hs : s = .required <;> simp [hrest, hs, eq_comm]
  constructor
  · intro h
    exact hcount.1 (Nat.le_zero.1 h.1)
  · intro h
    exact ⟨Nat.le_of_eq (hcount.2 h), .inl (Nat.zero_le _)⟩

section Python
variable {style : CommentStyle} (up : JsString → Bool)

/-- The names that the extractor takes for the receiver. -/
def isReceiverName (name : Token) : Bool := name.text = ascii "self" ∨ name.text = ascii "cls"

def PyParam.isHidden {gap piece : Type} : PyParam gap piece → Bool
  | .plain name => isReceiverName name
  | _ => false

/-- A default for a parameter that has none. -/
def PyParam.withDefault (value : Piece style) : PyParam (Gap style) (Piece style) → PyParam (Gap style) (Piece style)
  | .plain name => if isReceiverName name then .plain name else .defaulted name [] [] value
  | .typed name g₁ g₂ type => .typedDefault name g₁ g₂ type [] [] value
  | p => p

theorem pythonParamText_typed {n type : Node} (hkind : n.kind = .typedParameter ∨ n.kind = .typedDefaultParameter)
    (h : n.childByFieldName .type = some type) : pythonParamText n = some (trim type.text) := by
  rcases hkind with hkind | hkind <;> simp only [pythonParamText, hkind, h]

theorem pythonParamText_default {n name : Node} (hkind : n.kind = .defaultParameter)
    (h : n.childByFieldName .name = some name) : pythonParamText n = some name.text := by
  simp only [pythonParamText, hkind, h]

theorem pythonParamText_plain {name : Token} (h : ¬ isReceiverName name = true) :
    pythonParamText (PyParam.plain name : PyParam (Gap style) (Piece style)).node = some name.text := by
  have hname : ¬(name.text = ascii "self" ∨ name.text = ascii "cls") := by
    simpa [isReceiverName] using h
  exact if_neg hname

theorem pythonParamText_withDefault (value : Piece style) (p : PyParam (Gap style) (Piece style)) :
    pythonParamText (p.withDefault value).node = pythonParamText p.node := by
  cases p with
  | plain name =>
    rw [PyParam.withDefault]
    by_cases hname : isReceiverName name = true
    · rw [if_pos hname]
    · have hfield : (PyParam.defaulted name [] [] value).node.childByFieldName .name =
          some (.mk .identifier true name.text []) := by
        rw [PyParam.node, Node.childByFieldName, childrenByFieldName_nodeOf]
        simp
      rw [if_neg hname, pythonParamText_plain hname, pythonParamText_default rfl hfield]
      rfl
  | typed name g₁ g₂ type =>
    have hfield : (PyParam.typed name g₁ g₂ type).node.childByFieldName .type = some (type.node .other) := by
      rw [PyParam.node, Node.childByFieldName, childrenByFieldName_nodeOf]
      simp
    have hfield' : (PyParam.typedDefault name g₁ g₂ type [] [] value).node.childByFieldName .type =
        some (type.node .other) := by
      rw [PyParam.node, Node.childByFieldName, childrenByFieldName_nodeOf]
      simp
    rw [PyParam.withDefault, pythonParamText_typed (.inr rfl) hfield', pythonParamText_typed (.inl rfl) hfield]
  | _ => rfl

def Decl.withDefaults (d : Decl python) (value : Piece .hash) : Decl python :=
  d.mapParams (PyParam.withDefault value) fun _ => trivial

/-- Defaults do not show in a signature of Python. -/
theorem signature_withDefaults (d : Decl python) (value : Piece .hash) :
    (d.withDefaults value).signature up = d.signature up :=
  signature_mapParams up d _ (by decide) fun p _ => congrArg Option.toList (pythonParamText_withDefault value p)

theorem withoutReceiver_map (method : Bool) (value : Piece style) (ps : List (PyParam (Gap style) (Piece style))) :
    PyParam.withoutReceiver method (ps.map (PyParam.withDefault value)) =
      (PyParam.withoutReceiver method ps).map (PyParam.withDefault value) := by
  have hkept : ∀ p : PyParam (Gap style) (Piece style),
      (p.withDefault value).isSeparator = p.isSeparator ∧ (p.withDefault value).isSplat = p.isSplat := by
    intro p
    cases p with
    | plain name => rw [PyParam.withDefault]; split <;> exact ⟨rfl, rfl⟩
    | _ => exact ⟨rfl, rfl⟩
  cases ps with
  | nil => rfl
  | cons p ps =>
    rw [List.map_cons, PyParam.withoutReceiver, PyParam.withoutReceiver, (hkept p).1, (hkept p).2]
    split <;> rfl

theorem required_not_mem_shapes (value : Piece style) {ps : List (PyParam (Gap style) (Piece style))}
    (h : ∀ p ∈ ps, p.isHidden = false) : .required ∉ PyParam.shapes (ps.map (PyParam.withDefault value)) := by
  induction ps with
  | nil => exact List.not_mem_nil
  | cons p ps ih =>
    have ih := ih fun q hq => h q (List.mem_cons_of_mem _ hq)
    have hp := h p List.mem_cons_self
    rw [List.map_cons]
    cases p with
    | plain name =>
      have hname : ¬ isReceiverName name = true := Bool.eq_false_iff.1 hp
      simpa [PyParam.withDefault, hname, PyParam.shapes] using ih
    | typed name g₁ g₂ type => simpa [PyParam.withDefault, PyParam.shapes] using ih
    | defaulted name g₁ g₂ v => simpa [PyParam.withDefault, PyParam.shapes] using ih
    | typedDefault name g₁ g₂ type g₃ g₄ v => simpa [PyParam.withDefault, PyParam.shapes] using ih
    | splat keywords g name => cases keywords <;> simp [PyParam.withDefault, PyParam.shapes]
    | typedSplat keywords g name g₁ g₂ type => cases keywords <;> simp [PyParam.withDefault, PyParam.shapes]
    | keywordSeparator => exact List.not_mem_nil
    | positionalSeparator => exact ih

/-- A required parameter of Python can get a default unseen. -/
theorem not_countsVisible_python (d : Decl python) (hrequired : .required ∈ python.shapes d.method d.params)
    (hhidden : ∀ p ∈ PyParam.withoutReceiver d.method d.params, p.isHidden = false) : ¬ CountsVisible up d := by
  have value : Piece .hash := ⟨⟨[0x30], by decide⟩, []⟩
  have hopen : (d.withDefaults value).Accepts 0 := by
    rw [Decl.Accepts, accepts_zero_iff, Decl.withDefaults, Decl.params_mapParams]
    have hshapes : .required ∉
        PyParam.shapes (PyParam.withoutReceiver d.method (d.params.map (PyParam.withDefault value))) := by
      rw [withoutReceiver_map]
      exact required_not_mem_shapes value hhidden
    exact hshapes
  refine not_countsVisible up d (d.withDefaults value) rfl rfl (signature_withDefaults up d value) hopen ?_
  rw [Decl.Accepts, accepts_zero_iff, not_not]
  exact hrequired

end Python

section TypeScript
variable (up : JsString → Bool) {language : Language}

/-- An initializer for a parameter that has none. -/
def TsParam.withInitializer {style : CommentStyle} (value : Piece style) :
    TsParam (Gap style) (Piece style) → TsParam (Gap style) (Piece style)
  | .fixed modifiers kind p none type none => .fixed modifiers kind p none type (some ([], [], value))
  | p => p

theorem inField_valueParts {style : CommentStyle} (value : Option (Gap style × Gap style × Piece style)) {f : Field}
    (hf : f ≠ .other) : (TsParam.valueParts value).flatMap (inField f) = [] := by
  have hne : ¬ some Field.other = some f := fun h => hf (Option.some.inj h).symm
  rcases value with _ | ⟨g₁, g₂, p⟩ <;> simp [TsParam.valueParts, hne]

/-- The token of a parameter with a pattern is told by its kind, its type and its pattern. -/
theorem tsParamToken_congr {n n' : Node} (hkind : n'.kind = n.kind)
    (htype : n'.childByFieldName .type = n.childByFieldName .type)
    (hpattern : n'.childByFieldName .pattern = n.childByFieldName .pattern) {pattern : Node}
    (h : n.childByFieldName .pattern = some pattern) : tsParamToken n' = tsParamToken n := by
  rw [tsParamToken, tsParamToken, hkind, htype, hpattern, h]
  cases n.childByFieldName .type <;> rfl

theorem tsParamText_withInitializer (value : Piece .slashes) (p : TsParam (Gap .slashes) (Piece .slashes)) :
    tsParamText (p.withInitializer value).node = tsParamText p.node := by
  rcases p with ⟨modifiers, kind, p, _ | g, type, _ | v⟩ | ⟨g, kind, p, type⟩ | ⟨type⟩ <;> try rfl
  -- the one case that changes: required, without an initializer
  have hfield : ∀ value : Option (Gap .slashes × Gap .slashes × Piece .slashes), ∀ f : Field, f ≠ .other →
      (TsParam.fixed modifiers kind p none type value).node.childByFieldName f =
        ((if f = .pattern then [p.node kind.kind] else []) ++ (TsParam.typeParts type).flatMap (inField f)).head? := by
    intro value f hf
    have hmodifiers : (modifiers.flatMap fun m => [m.1.part none .other, m.2.part]).flatMap (inField f) = [] := by
      rw [List.flatMap_assoc]
      apply List.flatMap_eq_nil_iff.2
      intro m _
      simp
    rw [TsParam.node, Node.childByFieldName, childrenByFieldName_nodeOf, List.flatMap_append,
      inField_valueParts value hf, List.append_nil, List.flatMap_append, List.flatMap_append, List.flatMap_append,
      hmodifiers, List.flatMap_singleton, inField_piece]
    simp [TsParam.optionalParts, eq_comm]
  have hpattern : (TsParam.fixed modifiers kind p none type none).node.childByFieldName .pattern =
      some (p.node kind.kind) := by
    rw [hfield _ _ (by decide), if_pos rfl]
    rfl
  have hsame : ∀ f : Field, f ≠ .other →
      (TsParam.fixed modifiers kind p none type (some ([], [], value))).node.childByFieldName f =
        (TsParam.fixed modifiers kind p none type none).node.childByFieldName f := fun f hf => by
    rw [hfield _ f hf, hfield _ f hf]
  exact congrArg some (tsParamToken_congr rfl (hsame .type (by decide)) (hsame .pattern (by decide)) hpattern)

def Decl.withInitializers (d : Decl (typescript language)) (value : Piece .slashes) : Decl (typescript language) :=
  d.mapParams (TsParam.withInitializer value) fun _ => trivial

/-- Initializers do not show in a signature of TypeScript. -/
theorem signature_withInitializers (hlanguage : language = .typescript ∨ language = .tsx ∨ language = .astro)
    (d : Decl (typescript language)) (value : Piece .slashes) :
    (d.withInitializers value).signature up = d.signature up := by
  apply signature_mapParams up d _ ⟨by rintro ⟨⟩, by rintro ⟨⟩⟩
  intro p _
  rcases hlanguage with rfl | rfl | rfl <;> exact congrArg Option.toList (tsParamText_withInitializer value p)

/-- A required parameter of TypeScript can get an initializer unseen. -/
theorem not_countsVisible_typescript (hlanguage : language = .typescript ∨ language = .tsx ∨ language = .astro)
    (d : Decl (typescript language)) (hrequired : .required ∈ (typescript language).shapes d.method d.params) :
    ¬ CountsVisible up d := by
  have value : Piece .slashes := ⟨⟨[0x30], by decide⟩, []⟩
  have hopen : (d.withInitializers value).Accepts 0 := by
    rw [Decl.Accepts, accepts_zero_iff, Decl.withInitializers, Decl.params_mapParams]
    have hshapes : .required ∉ (d.params.map (TsParam.withInitializer value)).filterMap TsParam.shape? := by
      rw [List.filterMap_map, List.mem_filterMap]
      rintro ⟨p, -, hp⟩
      rcases p with ⟨modifiers, kind, p, _ | g, type, _ | v⟩ | ⟨g, kind, p, type⟩ | ⟨type⟩ <;> cases hp
    exact hshapes
  have hsignature := signature_withInitializers up hlanguage d value
  refine not_countsVisible up d (d.withInitializers value) rfl rfl hsignature hopen ?_
  rw [Decl.Accepts, accepts_zero_iff, not_not]
  exact hrequired

end TypeScript

/-! ## One entry for a slot -/

section Slots
variable {G : Grammar} (up : JsString → Bool)

theorem oneEntry_iff_arity (d : Decl G) : OneEntry up d ↔ (d.signature up).arity = d.slots :=
  ⟨fun h => h.1, fun h => ⟨h, (signature_arity up d).symm.trans h⟩⟩

theorem sum_of_one {α : Type} {f : α → Nat} {l : List α} (h : ∀ a ∈ l, f a = 1) : (l.map f).sum = l.length := by
  rw [List.map_congr_left h, List.map_const', List.sum_replicate]
  exact Nat.mul_one _

/-- Entries beyond the slots: a comment, or a parameter that is no slot. -/
theorem oneEntry_iff_strays (d : Decl G) (hgo : G.language ≠ .go)
    (stray : G.Param → Bool)
    (hslots : (d.params.map fun p => (entries G.language (G.node p)).length).sum = d.slots + d.params.countP stray) :
    OneEntry up d ↔ d.comments = 0 ∧ ∀ p ∈ d.params, stray p = false := by
  have hnone : d.params.countP stray = 0 ↔ ∀ p ∈ d.params, stray p = false := by
    rw [List.countP_eq_zero]
    simp only [Bool.not_eq_true]
  rw [oneEntry_iff_arity, arity_eq up d hgo, hslots, ← hnone]
  omega

theorem oneEntry_javascript (d : Decl javascript) : OneEntry up d ↔ d.comments = 0 := by
  have hone : ∀ p ∈ d.params, (entries .javascript (javascript.node p)).length = 1 := by
    intro p _
    rcases p with ⟨kind, p⟩ | ⟨kind, p, g₁, g₂, value⟩ | ⟨g, kind, p⟩
    · cases kind <;> rfl
    · rfl
    · rfl
  rw [oneEntry_iff_strays up d (by decide) (fun _ => false)]
  · simp
  · rw [sum_of_one hone, List.countP_false]
    rfl

/-- The type of `this` is an entry too. -/
theorem oneEntry_typescript {language : Language} (d : Decl (typescript language))
    (hlanguage : language = .typescript ∨ language = .tsx ∨ language = .astro) :
    OneEntry up d ↔ d.comments = 0 ∧ ∀ p ∈ d.params, p.isThis = false := by
  have hone : ∀ p ∈ d.params, (entries language (TsParam.node p)).length = 1 := by
    intro p _
    have htext : ∃ t, tsParamText (TsParam.node p) = some t := by
      rcases p with ⟨modifiers, kind, p, _ | g, type, value⟩ | ⟨g, kind, p, type⟩ | ⟨type⟩ <;> exact ⟨_, rfl⟩
    obtain ⟨t, ht⟩ := htext
    rcases hlanguage with rfl | rfl | rfl <;> rw [entries, ht, Option.toList_some, List.length_singleton]
  have hgo : language ≠ .go := by
    rcases hlanguage with rfl | rfl | rfl <;> decide
  apply oneEntry_iff_strays up d hgo TsParam.isThis
  have hsplit := List.length_eq_countP_add_countP TsParam.isThis (l := d.params)
  rw [sum_of_one hone, hsplit, Nat.add_comm, Decl.slots, List.countP_eq_length_filter]
  congr 2
  apply List.filter_congr
  intro p _
  cases p.isThis <;> rfl

/-- A receiver with a type, or the attribute of a parameter. -/
def RsParam.isStray {gap piece : Type} : RsParam gap piece → Bool
  | .typedSelf _ _ _ | .attributeItem _ => true
  | _ => false

theorem oneEntry_rust (d : Decl rust) : OneEntry up d ↔ d.comments = 0 ∧ ∀ p ∈ d.params, p.isStray = false := by
  have hcount : ∀ p : RsParam (Gap .slashes) (Piece .slashes),
      (entries .rust p.node).length = p.shape?.toList.length + if p.isStray then 1 else 0 := by
    intro p
    have hraw : ∀ q : Piece .slashes, (nonEmpty (trim q.text)).toList.length = 1 := by
      intro q
      have hne : trim q.text ≠ [] := by
        rw [trim_text]
        exact text_ne_nil q
      rw [nonEmpty, if_neg hne]
      rfl
    have htyped : ∀ n : Node, n.kind = .parameter → (entries .rust n).length = 1 := by
      intro n hn
      simp only [entries, rustParamText, hn]
      cases n.childByFieldName .type <;> rfl
    cases p with
    | selfParam p => rfl
    | typedSelf g₁ g₂ type => exact htyped _ rfl
    | typed p g₁ g₂ type => exact htyped _ rfl
    | bare type => exact hraw type
    | variadic p => exact hraw p
    | attributeItem p => exact hraw p
  apply oneEntry_iff_strays up d (by decide) RsParam.isStray
  have hsum : ∀ ps : List (RsParam (Gap .slashes) (Piece .slashes)),
      (ps.map fun p => (entries .rust p.node).length).sum =
        (ps.filterMap RsParam.shape?).length + ps.countP RsParam.isStray := by
    intro ps
    induction ps with
    | nil => rfl
    | cons p ps ih =>
      rw [List.map_cons, List.sum_cons, ih, hcount, filterMap_eq_flatMap, filterMap_eq_flatMap, List.flatMap_cons,
        List.length_append, List.countP_cons]
      omega
  exact hsum d.params

end Slots

/-! ## All languages -/

/-- A declaration of any of the languages. -/
structure Declaration where
  language : Language
  decl : Decl (grammar language)

/-- A declaration of Go in which the type of each parameter is one token. -/
def Declaration.GoSingle : Declaration → Prop
  | ⟨.go, d⟩ => ∀ p ∈ Decl.params (G := go) d, p.type.rest = []
  | _ => False

theorem sound_iff (up : JsString → Bool) (d : Declaration) : Sound up d.decl ↔ d.GoSingle := by
  obtain ⟨language, decl⟩ := d
  constructor
  · intro h
    cases language with
    | go => exact single_of_layoutFree up decl h.layout
    | python => exact not_layoutFree up decl (by decide) h.layout
    | _ => exact not_layoutFree up decl (by decide) h.layout
  · intro h
    cases language with
    | go => exact ⟨oneEntry_go up decl, layoutFree_of_single up decl h, countsVisible_go up decl⟩
    | _ => exact h.elim

/-- `as_str`. -/
def Visibility.wire : Visibility → Conflict.Contract.Visibility
  | .pub => .pub
  | .priv => .priv
  | .unknown | .restricted => .unknown

/-- The signature that the oracle is given. -/
def Signature.wire (name : JsString) (s : Signature) : Conflict.Contract.Signature :=
  ⟨name, s.arity, s.params, s.returnType, s.visibility.wire, true⟩

/-- `def f(x): ...` -/
def plainX : Decl python where
  name := ascii "f"
  method := false
  items := [.param (.plain ⟨ascii "x", by decide⟩)]
  before := [(some .name, .mk .identifier true (ascii "f") [])]
  after := []
  ancestors := []
  text := ascii "def f(x): ..."
  legal _ _ := trivial
  list_first := by decide

/-- `0` -/
def zeroPiece : Piece .hash := ⟨⟨ascii "0", by decide⟩, []⟩

theorem plainX_not_sound :
    (plainX.withDefaults zeroPiece).params = [.defaulted ⟨ascii "x", by decide⟩ [] [] zeroPiece] ∧
      (plainX.withDefaults zeroPiece).Accepts 0 ∧ ¬ plainX.Accepts 0 ∧
      Conflict.Contract.signatureChangedContract ((plainX.signature fun _ => false).wire plainX.name)
        (((plainX.withDefaults zeroPiece).signature fun _ => false).wire plainX.name) = false ∧
      ¬ Sound (fun _ => false) plainX := by
  have hopen : (plainX.withDefaults zeroPiece).Accepts 0 := by
    rw [Decl.Accepts, accepts_zero_iff]
    decide
  have hclosed : ¬ plainX.Accepts 0 := by
    rw [Decl.Accepts, accepts_zero_iff]
    decide
  refine ⟨rfl, hopen, hclosed, ?_, ?_⟩
  · rw [signature_withDefaults]
    decide +kernel
  · intro h
    have hsignature := signature_withDefaults (fun _ => false) plainX zeroPiece
    exact not_countsVisible _ plainX (plainX.withDefaults zeroPiece) rfl rfl hsignature hopen hclosed h.counts

end Hayven.Native.Signatures
