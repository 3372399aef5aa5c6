import Hayven.Lib.Lines
import Hayven.Native.Declarations
import Mathlib.Data.List.Induction
/-!
# The entries of a signature

What the extractors read from the tree of a declaration: which node a field holds, what a node
of the parameter list adds to the entries, and what of the declaration a signature is made of.
A comment in the list is an entry everywhere but in Go: `arity_eq`.
-/
open Hayven.Lib

namespace Hayven.Native.Signatures

/-! ## Texts -/

section Texts
variable {style : CommentStyle}

theorem isSolid_iff {s : JsString} : isSolid s = true ↔ s ≠ [] ∧ Trimmed isRustSpace s := by
  constructor
  · intro h
    rw [isSolid, Bool.and_eq_true] at h
    obtain ⟨hhead, hlast⟩ := h
    refine ⟨?_, ?_, ?_⟩
    · rintro rfl
      cases hhead
    · intro a ha
      rw [Option.mem_def.1 ha] at hhead
      simpa using hhead
    · intro a ha
      rw [Option.mem_def.1 ha] at hlast
      simpa using hlast
  · rintro ⟨hne, hhead, hlast⟩
    have hfirst : s.head? = some (s.head hne) := List.head?_eq_some_head hne
    have hend : s.getLast? = some (s.getLast hne) := List.getLast?_eq_some_getLast hne
    rw [isSolid, hfirst, hend, Option.any_some, Option.any_some, hhead _ hfirst, hlast _ hend]
    rfl

theorem trim_solid {s : JsString} (h : isSolid s = true) : trim s = s := (isSolid_iff.1 h).2.trimBy_eq

theorem isSolid_between {s t : JsString} (hs : isSolid s = true) (middle : JsString) (ht : isSolid t = true) :
    isSolid (s ++ (middle ++ t)) = true := by
  obtain ⟨hsne, hstrim⟩ := isSolid_iff.1 hs
  obtain ⟨htne, httrim⟩ := isSolid_iff.1 ht
  refine isSolid_iff.2 ⟨?_, ?_, ?_⟩
  · exact fun h => hsne (List.append_eq_nil_iff.1 h).1
  · intro a ha
    rw [List.head?_append_of_ne_nil _ hsne] at ha
    exact hstrim.head a ha
  · intro a ha
    rw [← List.append_assoc, List.getLast?_append_of_ne_nil _ htne] at ha
    exact httrim.last a ha

/-- A run of tokens is trimmed already. -/
theorem Piece.solid (p : Piece style) : isSolid p.text = true := by
  obtain ⟨head, rest⟩ := p
  rw [Piece.text]
  induction rest using List.reverseRecOn with
  | nil => rw [List.flatMap_nil, List.append_nil]; exact head.solid
  | append_singleton rest r ih =>
    rw [List.flatMap_append, List.flatMap_singleton, ← List.append_assoc]
    exact isSolid_between ih r.1.text r.2.solid

theorem trim_text (p : Piece style) : trim p.text = p.text := trim_solid p.solid

theorem text_ne_nil (p : Piece style) : p.text ≠ [] := (isSolid_iff.1 p.solid).1

end Texts

/-! ## Fields of nodes -/

section Fields
variable {style : CommentStyle} {f : Field}

/-- The nodes that a part puts in a field. -/
def inField (f : Field) (p : Part) : List Node := (p.2.filter (·.1 = some f)).map (·.2)

theorem childrenByFieldName_nodeOf (kind : Kind) (parts : List Part) (f : Field) :
    (nodeOf kind parts).childrenByFieldName f = parts.flatMap (inField f) := by
  simp only [Node.childrenByFieldName, nodeOf, Node.children, List.filter_flatMap, List.map_flatMap]
  rfl

@[simp] theorem inField_gap (g : Gap style) : inField f g.part = [] := by
  simp [inField, Gap.part, List.filter_map, Function.comp_def]

@[simp] theorem inField_anonymous (s : String) : inField f (anonymous s) = [] := by
  simp [inField, anonymous]

@[simp] theorem inField_child (s : JsString) (field : Option Field) (n : Node) :
    inField f (s, [(field, n)]) = if field = some f then [n] else [] := by
  by_cases h : field = some f <;> simp [inField, h]

@[simp] theorem inField_piece (field : Option Field) (kind : Kind) (p : Piece style) :
    inField f (p.part field kind) = if field = some f then [p.node kind] else [] := inField_child _ _ _

@[simp] theorem inField_token (field : Option Field) (kind : Kind) (t : Token) :
    inField f (t.part field kind) = if field = some f then [.mk kind true t.text []] else [] := inField_child _ _ _

end Fields

/-! ## Entries -/

/-- What a node of the list adds to the entries. -/
def entries : Language → Node → List JsString
  | .python, n => (pythonParamText n).toList
  | .typescript, n | .tsx, n | .astro, n | .javascript, n => (tsParamText n).toList
  | .rust, n => (rustParamText n).toList
  | .go, n => goParamTexts n

theorem filterMap_eq_flatMap {α β : Type} (f : α → Option β) (l : List α) :
    l.filterMap f = l.flatMap fun a => (f a).toList := by
  induction l with
  | nil => rfl
  | cons a l ih => cases h : f a <;> simp [h, ih]

section Params
variable {G : Grammar} (up : JsString → Bool) (d : Decl G)

theorem childByFieldName_parameters : d.node.childByFieldName .parameters = some d.listNode := by
  have hbefore : d.before.filter (fun c => decide (c.1 = some Field.parameters)) = [] := by
    rw [List.filter_eq_nil_iff]
    intro c hc
    simpa using d.list_first c hc
  simp [Node.childByFieldName, Node.childrenByFieldName, Decl.node, Node.children, hbefore]

/-- The node that an item gives the list. -/
def Item.node? : Item G → Option Node
  | .param p => some (G.node p)
  | .comma => none
  | .filler f => f.node?

theorem listed_node : listed d.node = d.items.filterMap Item.node? := by
  have hitem : ∀ i : Item G, ((Item.part i).2.map (·.2)).filter Node.named = i.node?.toList := by
    intro i
    cases i with
    | param p => simp [Item.part, Item.node?, G.named p]
    | comma => rfl
    | filler f => cases f <;> rfl
  have hends : ∀ s : String, ((anonymous s).2.map (·.2)).filter Node.named = [] := fun _ => rfl
  rw [listed, childByFieldName_parameters, Option.map_some, Option.getD_some, Decl.listNode, nodeOf,
    Node.namedChildren, Node.children, filterMap_eq_flatMap]
  simp only [List.flatMap_cons, List.flatMap_append, List.flatMap_nil, List.map_append, List.filter_append, hends,
    List.nil_append, List.append_nil, List.map_flatMap, List.filter_flatMap, List.flatMap_map, hitem]

theorem signature_params :
    (d.signature up).params = d.items.flatMap fun i => i.node?.toList.flatMap (entries G.language) := by
  have hlist := listed_node d
  have hfield := childByFieldName_parameters d
  have hread : (d.signature up).params = (listed d.node).flatMap (entries G.language) := by
    rw [Decl.signature]
    cases G.language <;>
      simp only [extractSignature, pythonSignature, tsSignature, jsSignature, rustSignature, goSignature,
        Signature.ofParams, tsParamsAndReturn, hfield, filterMap_eq_flatMap] <;> rfl
  rw [hread, hlist, filterMap_eq_flatMap, List.flatMap_assoc]

theorem signature_arity : (d.signature up).arity = (d.signature up).params.length := by
  rw [Decl.signature]
  cases G.language <;> rfl

end Params

/-! ## Comments -/

/-- Four extractors keep a comment as a parameter. -/
theorem entries_comment {language : Language} (h : language ≠ .go) {s : JsString} (hs : trim s ≠ []) :
    entries language (commentNode s) = [trim s] := by
  have hkept : nonEmpty (trim s) = some (trim s) := if_neg hs
  cases language with
  | go => exact absurd rfl h
  | python => rfl
  | rust => exact congrArg Option.toList hkept
  | _ => exact congrArg Option.toList hkept

theorem entries_comment_go (s : JsString) : entries .go (commentNode s) = [] := rfl

/-- Where comments are left out, every entry is one of a parameter. -/
theorem signature_params_param {G : Grammar} (up : JsString → Bool) (d : Decl G)
    (hcomment : ∀ s, entries G.language (commentNode s) = []) :
    (d.signature up).params = d.params.flatMap fun p => entries G.language (G.node p) := by
  rw [signature_params, Decl.params, filterMap_eq_flatMap, List.flatMap_assoc]
  congr 1
  funext i
  cases i with
  | param p => simp only [Item.node?, Item.param?, Option.toList_some, List.flatMap_singleton]
  | comma => rfl
  | filler f =>
    cases f with
    | blank s h => rfl
    | comment s h => exact (List.flatMap_singleton _ _).trans (hcomment s)

theorem trim_ne_nil {s : JsString} {u : UInt16} (hhead : s.head? = some u) (hu : isRustSpace u = false) :
    trim s ≠ [] := by
  obtain ⟨rest, rfl⟩ := List.head?_eq_some_iff.1 hhead
  have htrimmed : Trimmed isRustSpace [u] := (isSolid_iff.1 (by simp [isSolid, hu])).2
  have hinfix := infix_trimBy (a := []) (b := rest) (List.cons_ne_nil u []) htrimmed
  intro hnil
  rw [List.nil_append, List.singleton_append] at hinfix
  rw [trim] at hnil
  rw [hnil] at hinfix
  exact absurd (List.eq_nil_of_infix_nil hinfix) (List.cons_ne_nil _ _)

theorem CommentStyle.trim_ne_nil {style : CommentStyle} {s : JsString} (h : style.admits s = true) : trim s ≠ [] := by
  have hfirst : ∀ (p : JsString) (u : UInt16), p.head? = some u → p.isPrefixOf s = true → s.head? = some u := by
    intro p u hp hprefix
    obtain ⟨rest, rfl⟩ := List.isPrefixOf_iff_prefix.1 hprefix
    rw [List.head?_append, hp]
    rfl
  cases style with
  | hash =>
    rw [admits, Bool.and_eq_true] at h
    exact Signatures.trim_ne_nil (hfirst _ 0x23 rfl h.1) (by decide)
  | slashes =>
    rw [admits, Bool.or_eq_true, Bool.and_eq_true, Bool.and_eq_true] at h
    rcases h with h | h
    · exact Signatures.trim_ne_nil (hfirst _ 0x2F rfl h.1) (by decide)
    · exact Signatures.trim_ne_nil (hfirst _ 0x2F rfl h.1) (by decide)

def CommentStyle.empty : CommentStyle → JsString
  | .hash => ascii "#"
  | .slashes => ascii "/**/"

theorem CommentStyle.admits_empty (style : CommentStyle) : style.admits style.empty = true := by
  cases style <;> decide

/-- The declaration with one more comment and a new line, behind the last parameter. -/
def Decl.comment {G : Grammar} (d : Decl G) : Decl G :=
  { d with
    items := d.items ++ [.filler (.comment G.style.empty G.style.admits_empty), .filler (.blank [newline] (by decide))]
    legal := by
      intro p hp
      rw [List.filterMap_append, List.mem_append] at hp
      rcases hp with hp | hp
      · exact d.legal p hp
      · cases hp }

theorem Decl.params_comment {G : Grammar} (d : Decl G) : d.comment.params = d.params := by
  rw [Decl.params, Decl.comment, List.filterMap_append]
  exact List.append_nil _

/-! ## Arity -/

section Arity
variable {G : Grammar} (up : JsString → Bool)

def Item.isComment : Item G → Bool
  | .filler (.comment _ _) => true
  | _ => false

def Decl.comments (d : Decl G) : Nat := d.items.countP Item.isComment

/-- The arity counts the comments of the list. -/
theorem arity_eq (d : Decl G) (hgo : G.language ≠ .go) :
    (d.signature up).arity = (d.params.map fun p => (entries G.language (G.node p)).length).sum + d.comments := by
  rw [signature_arity, signature_params, Decl.params, Decl.comments]
  induction d.items with
  | nil => rfl
  | cons i items ih =>
    rw [List.flatMap_cons, List.length_append, ih]
    cases i with
    | param p =>
      have hparam : (Item.param p :: items).filterMap Item.param? = p :: items.filterMap Item.param? := rfl
      have hcount : (Item.param p :: items).countP Item.isComment = items.countP Item.isComment := rfl
      have hnode : (Item.param p).node? = some (G.node p) := rfl
      rw [hparam, hcount, hnode, List.map_cons, List.sum_cons, Option.toList_some, List.flatMap_singleton]
      omega
    | comma => exact Nat.zero_add _
    | filler f =>
      cases f with
      | blank s h => exact Nat.zero_add _
      | comment s h =>
        have hparam : (Item.filler (.comment s h) :: items).filterMap Item.param? = items.filterMap Item.param? := rfl
        have hcount : (Item.filler (.comment s h) :: items).countP Item.isComment = items.countP Item.isComment + 1 :=
          List.countP_cons_of_pos rfl
        have hnode : (Item.filler (.comment s h) : Item G).node? = some (commentNode s) := rfl
        rw [hparam, hcount, hnode, Option.toList_some, List.flatMap_singleton,
          entries_comment hgo (CommentStyle.trim_ne_nil h), List.length_singleton]
        omega

theorem arity_comment (d : Decl G) (hgo : G.language ≠ .go) :
    (d.comment.signature up).arity = (d.signature up).arity + 1 := by
  have hcomments : d.comment.comments = d.comments + 1 := by
    rw [Decl.comments, Decl.comment, List.countP_append]
    rfl
  rw [arity_eq up _ hgo, arity_eq up _ hgo, d.params_comment, hcomments, Nat.add_assoc]

end Arity

/-! ## Other versions -/

section Versions
variable {G : Grammar} (up : JsString → Bool)

def Item.mapParam (r : G.Param → G.Param) : Item G → Item G
  | .param p => .param (r p)
  | i => i

/-- Another version of the declaration, parameter by parameter. -/
def Decl.mapParams (d : Decl G) (r : G.Param → G.Param) (hr : ∀ p, G.legal (r p)) : Decl G :=
  { d with
    items := d.items.map (Item.mapParam r)
    legal := by
      intro p hp
      obtain ⟨i, hi, hparam⟩ := List.mem_filterMap.1 hp
      obtain ⟨j, -, rfl⟩ := List.mem_map.1 hi
      cases j with
      | param q => exact Option.some.inj hparam ▸ hr q
      | _ => cases hparam }

theorem Decl.params_mapParams (d : Decl G) (r : G.Param → G.Param) (hr : ∀ p, G.legal (r p)) :
    (d.mapParams r hr).params = d.params.map r := by
  rw [Decl.params, Decl.params, Decl.mapParams, List.filterMap_map, List.map_filterMap]
  congr 1
  funext i
  cases i <;> rfl

theorem childrenByFieldName_node (d : Decl G) {f : Field} (hf : f ≠ .parameters) :
    d.node.childrenByFieldName f = ((d.before ++ d.after).filter (·.1 = some f)).map (·.2) := by
  have hlist : ¬ some Field.parameters = some f := fun h => hf (Option.some.inj h).symm
  simp [Node.childrenByFieldName, Decl.node, Node.children, List.filter_append, hlist]

theorem childByFieldName_node {d d' : Decl G} (hbefore : d'.before = d.before) (hafter : d'.after = d.after)
    {f : Field} (hf : f ≠ .parameters) : d'.node.childByFieldName f = d.node.childByFieldName f := by
  rw [Node.childByFieldName, Node.childByFieldName, childrenByFieldName_node d hf, childrenByFieldName_node d' hf,
    hbefore, hafter]

theorem modifierVisibility_node {d d' : Decl G} (hkind : G.listKind ≠ .accessibilityModifier)
    (hbefore : d'.before = d.before) (hafter : d'.after = d.after) :
    modifierVisibility d'.node = modifierVisibility d.node := by
  have hfirst : ∀ e : Decl G, firstChildOfKind e.node .accessibilityModifier =
      (((e.before ++ e.after).map (·.2)).find? (·.kind = .accessibilityModifier)).map fun n => trim n.text := by
    intro e
    have hlist : ¬ e.listNode.kind = .accessibilityModifier := hkind
    simp [firstChildOfKind, Decl.node, Node.children, List.find?_append, hlist]
  simp only [modifierVisibility, hfirst, hbefore, hafter]

theorem rustVisibility_node {d d' : Decl G} (hkind : G.listKind ≠ .visibilityModifier)
    (hbefore : d'.before = d.before) : rustVisibility d'.node = rustVisibility d.node := by
  have hhead : ∀ e : Decl G, (e.node.children.head?.map (·.2)).filter (·.kind = .visibilityModifier) =
      (e.before.head?.map (·.2)).filter (·.kind = .visibilityModifier) := by
    intro e
    have hlist : ¬ e.listNode.kind = .visibilityModifier := hkind
    rw [Decl.node, Node.children]
    cases e.before with
    | nil => simp [Option.filter, hlist]
    | cons c before => rfl
  simp only [rustVisibility, hhead, hbefore]

/-- The entries are all that a signature takes from the list. -/
theorem signature_of_entries {d d' : Decl G}
    (hkind : G.listKind ≠ .accessibilityModifier ∧ G.listKind ≠ .visibilityModifier) (hname : d'.name = d.name)
    (hbefore : d'.before = d.before) (hafter : d'.after = d.after) (hancestors : d'.ancestors = d.ancestors)
    (hparams : (d'.signature up).params = (d.signature up).params) : d'.signature up = d.signature up := by
  have harity : (d'.signature up).arity = (d.signature up).arity := by
    rw [signature_arity, signature_arity, hparams]
  have hfield : ∀ f, f ≠ .parameters → d'.node.childByFieldName f = d.node.childByFieldName f := fun f hf =>
    childByFieldName_node hbefore hafter hf
  have hlist := childByFieldName_parameters d
  have hlist' := childByFieldName_parameters d'
  have hreturn : (d'.signature up).returnType = (d.signature up).returnType := by
    rw [Decl.signature, Decl.signature]
    cases G.language <;>
      simp only [extractSignature, pythonSignature, tsSignature, jsSignature, rustSignature, goSignature,
        Signature.ofParams, tsParamsAndReturn, hlist, hlist', hfield .returnType (by decide),
        hfield .result (by decide)]
  have hvisible : (d'.signature up).visibility = (d.signature up).visibility := by
    rw [Decl.signature, Decl.signature]
    cases G.language <;>
      simp only [extractSignature, pythonSignature, tsSignature, jsSignature, rustSignature, goSignature,
        Signature.ofParams, tsVisibility, hname, hancestors, modifierVisibility_node hkind.1 hbefore hafter,
        rustVisibility_node hkind.2 hbefore, hfield .name (by decide)]
  cases h : d.signature up
  cases h' : d'.signature up
  simp only [h, h'] at hparams harity hreturn hvisible
  rw [hparams, harity, hreturn, hvisible]

/-- An edit of parameters that keeps their entries is not seen. -/
theorem signature_mapParams (d : Decl G) {r : G.Param → G.Param} (hr : ∀ p, G.legal (r p))
    (hkind : G.listKind ≠ .accessibilityModifier ∧ G.listKind ≠ .visibilityModifier)
    (hsame : ∀ p ∈ d.params, entries G.language (G.node (r p)) = entries G.language (G.node p)) :
    (d.mapParams r hr).signature up = d.signature up := by
  have hparams : ((d.mapParams r hr).signature up).params = (d.signature up).params := by
    rw [signature_params, signature_params, Decl.mapParams, List.flatMap_map]
    apply List.flatMap_congr
    intro i hi
    cases i with
    | param p =>
      have hp : p ∈ d.params := List.mem_filterMap.2 ⟨_, hi, rfl⟩
      exact congrArg (· ++ []) (hsame p hp)
    | _ => rfl
  exact signature_of_entries up hkind rfl rfl rfl rfl hparams

end Versions

end Hayven.Native.Signatures
