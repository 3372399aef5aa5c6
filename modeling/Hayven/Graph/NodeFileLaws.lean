import Hayven.Graph.NodeFiles
import Hayven.Graph.NodeRoundTrip
/-!
# Whose file is it

Two nodes have files of their own unless their ids are spelled alike once sanitized,
or one id goes on below the file of the other: `filesApart_iff`.
-/
open Hayven.Lib Hayven.Native

namespace Hayven.Graph

/-! ## Files apart -/

/-- What is done for the node `a` leaves the file of the node `b` as it is. -/
structure Spares (rt : Runtime) (nodesDir : Path) (a b : JsString) : Prop where
  write : ∀ tree node neighbors tree', node.id = a →
    writeNodeMarkdown rt nodesDir tree node neighbors = some tree' →
      lookupKey (nodeFilePath nodesDir b) tree' = lookupKey (nodeFilePath nodesDir b) tree
  remove : ∀ tree, lookupKey (nodeFilePath nodesDir b) (removeNodeMarkdowns nodesDir [a] tree).2 =
    lookupKey (nodeFilePath nodesDir b) tree
  /-- Keeping `a` does not keep a file of `b` that is swept without it. -/
  keep : ∀ tree keepIds,
    lookupKey (nodeFilePath nodesDir b) (pruneOrphanNodeMarkdowns nodesDir (a :: keepIds) tree).2 =
      lookupKey (nodeFilePath nodesDir b) (pruneOrphanNodeMarkdowns nodesDir keepIds tree).2

/-- Two files, neither below the other, and neither touched for the other's node. -/
structure FilesApart (rt : Runtime) (nodesDir : Path) (a b : JsString) : Prop where
  markdownPath : nodeMarkdownPath a ≠ nodeMarkdownPath b
  filePath : nodeFilePath nodesDir a ≠ nodeFilePath nodesDir b
  notBelow : ¬ nodeFilePath nodesDir a <+: nodeFilePath nodesDir b
  notAbove : ¬ nodeFilePath nodesDir b <+: nodeFilePath nodesDir a
  spares : Spares rt nodesDir a b
  spared : Spares rt nodesDir b a

/-! ## Ids alike -/

/-- The same unit, or two that sanitizing writes as `_`. -/
def AlikeUnits (u v : UInt16) : Prop :=
  u = v ∨ ((isSafeUnit u = false ∨ u = 0x5F) ∧ (isSafeUnit v = false ∨ v = 0x5F))

instance (u v : UInt16) : Decidable (AlikeUnits u v) := inferInstanceAs (Decidable (_ ∨ _))

def Alike (s t : JsString) : Prop := List.Forall₂ AlikeUnits s t

instance (s t : JsString) : Decidable (Alike s t) := inferInstanceAs (Decidable (List.Forall₂ _ _ _))

/-- The ids name alike directories, empty segments apart, and alike files in them. -/
def SamePlace (a b : JsString) : Prop :=
  List.Forall₂ Alike (idDirs a) (idDirs b) ∧ Alike (idName a) (idName b)

instance (a b : JsString) : Decidable (SamePlace a b) := inferInstanceAs (Decidable (_ ∧ _))

/-- The directories of `b` start like the path of the file of `a`. -/
def GoesBelow (a b : JsString) : Prop :=
  ∃ within rest, idDirs b = within ++ rest ∧
    List.Forall₂ Alike (idDirs a ++ [idName a ++ markdownExtension]) within

theorem GoesBelow.length_lt {a b : JsString} (h : GoesBelow a b) : (idDirs a).length < (idDirs b).length := by
  obtain ⟨within, rest, hdirs, hwithin⟩ := h
  have hlen := hwithin.length_eq
  rw [List.length_append, List.length_singleton] at hlen
  rw [hdirs, List.length_append]
  omega

theorem sanitizeUnit_eq_iff {u v : UInt16} : sanitizeUnit u = sanitizeUnit v ↔ AlikeUnits u v := by
  have hunder : isSafeUnit 0x5F = true := by decide
  unfold sanitizeUnit AlikeUnits
  cases hu : isSafeUnit u <;> cases hv : isSafeUnit v
  · simp
  · simp only [Bool.false_eq_true, if_false, if_true, true_or, reduceCtorEq, false_or, true_and]
    refine ⟨fun h => .inr h.symm, ?_⟩
    rintro (rfl | h)
    · rw [hu] at hv
      cases hv
    · exact h.symm
  · simp only [Bool.false_eq_true, if_false, if_true, true_or, reduceCtorEq, false_or, and_true]
    refine ⟨.inr, ?_⟩
    rintro (rfl | h)
    · rw [hu] at hv
      cases hv
    · exact h
  · simp only [if_true, reduceCtorEq, false_or]
    refine ⟨.inl, ?_⟩
    rintro (h | ⟨rfl, rfl⟩)
    · exact h
    · rfl

theorem map_eq_map_iff {α β : Type} {f : α → β} {R : α → α → Prop} (hR : ∀ {x y}, f x = f y ↔ R x y) {xs ys : List α} :
    xs.map f = ys.map f ↔ List.Forall₂ R xs ys := by
  induction xs generalizing ys with
  | nil => cases ys <;> simp
  | cons x xs ih =>
    cases ys with
    | nil => simp
    | cons y ys => simp [ih, hR]

theorem sanitizeSegment_eq_iff {s t : JsString} : sanitizeSegment s = sanitizeSegment t ↔ Alike s t :=
  map_eq_map_iff sanitizeUnit_eq_iff

theorem sanitizeSegment_append (s t : JsString) : sanitizeSegment (s ++ t) = sanitizeSegment s ++ sanitizeSegment t :=
  List.map_append

section Paths
variable {a b : JsString} (ha : NoDots a) (hb : NoDots b) (nodesDir : Path)
include ha hb

theorem nodeFilePath_eq_iff : nodeFilePath nodesDir a = nodeFilePath nodesDir b ↔ SamePlace a b := by
  rw [nodeFilePath_eq ha, nodeFilePath_eq hb, List.append_cancel_left_eq]
  constructor
  · intro h
    obtain ⟨hdirs, hname⟩ := List.append_inj' h rfl
    rw [List.singleton_inj, List.append_cancel_right_eq] at hname
    exact ⟨(map_eq_map_iff sanitizeSegment_eq_iff).1 hdirs, sanitizeSegment_eq_iff.1 hname⟩
  · rintro ⟨hdirs, hname⟩
    rw [(map_eq_map_iff sanitizeSegment_eq_iff).2 hdirs, sanitizeSegment_eq_iff.2 hname]

theorem nodeFilePath_prefix_iff :
    nodeFilePath nodesDir a <+: nodeFilePath nodesDir b ↔ SamePlace a b ∨ GoesBelow a b := by
  have hext : sanitizeSegment markdownExtension = markdownExtension := by decide
  have hfile : (idDirs a).map sanitizeSegment ++ [sanitizeSegment (idName a) ++ markdownExtension] =
      (idDirs a ++ [idName a ++ markdownExtension]).map sanitizeSegment := by
    rw [List.map_append, List.map_singleton, sanitizeSegment_append, hext]
  have hbelow : (idDirs a).map sanitizeSegment ++ [sanitizeSegment (idName a) ++ markdownExtension] <+:
      (idDirs b).map sanitizeSegment ↔ GoesBelow a b := by
    rw [hfile]
    constructor
    · rintro ⟨more, hmore⟩
      obtain ⟨within, rest, hdirs, hwithin, -⟩ := List.map_eq_append_iff.1 hmore.symm
      exact ⟨within, rest, hdirs, (map_eq_map_iff sanitizeSegment_eq_iff).1 hwithin.symm⟩
    · rintro ⟨within, rest, hdirs, hwithin⟩
      rw [(map_eq_map_iff sanitizeSegment_eq_iff).2 hwithin, hdirs, List.map_append]
      exact List.prefix_append _ _
  rw [← nodeFilePath_eq_iff ha hb nodesDir, nodeFilePath_eq ha, nodeFilePath_eq hb, List.append_cancel_left_eq,
    List.prefix_append_right_inj, List.prefix_concat_iff, hbelow]

end Paths

/-! ## What is done for a node -/

section Effects
variable {rt : Runtime} {nodesDir : Path} {a b : JsString}

/-- What is found at a path depends on what is kept of the files there. -/
theorem lookupKey_filter_congr {tree : FileTree} {q : Path} {p p' : Path × JsString → Bool}
    (h : ∀ file ∈ tree, file.1 = q → p file = p' file) :
    lookupKey q (tree.filter p) = lookupKey q (tree.filter p') := by
  induction tree with
  | nil => rfl
  | cons file tree ih =>
    have hrest := ih fun f hf => h f (List.mem_cons_of_mem file hf)
    by_cases hq : file.1 = q
    · rw [List.filter_cons, List.filter_cons, h file List.mem_cons_self hq]
      split
      · rw [lookupKey, lookupKey, if_pos hq, if_pos hq]
      · exact hrest
    · have hskip (r : Path × JsString → Bool) : lookupKey q ((file :: tree).filter r) = lookupKey q (tree.filter r) := by
        rw [List.filter_cons]
        split
        · rw [lookupKey, if_neg hq]
        · rfl
      rw [hskip, hskip, hrest]

theorem lookupKey_unlink {tree : FileTree} {p q : Path} (h : p ≠ q) :
    lookupKey q (unlink tree p) = lookupKey q tree := by
  have hkeep : unlink tree p = tree.filter fun file => file.1 ≠ p := rfl
  have hall : lookupKey q (tree.filter fun file => file.1 ≠ p) = lookupKey q (tree.filter fun _ => true) := by
    apply lookupKey_filter_congr
    rintro file - rfl
    simpa using Ne.symm h
  rw [hkeep, hall, List.filter_true]

theorem writeNodeMarkdown_other {tree tree' : FileTree} {node : StoredNode} {neighbors : NodeNeighbors} {q : Path}
    (hwrite : writeNodeMarkdown rt nodesDir tree node neighbors = some tree')
    (h : nodeFilePath nodesDir node.id ≠ q) : lookupKey q tree' = lookupKey q tree := by
  obtain ⟨content, -, hwrite⟩ := Option.bind_eq_some_iff.1 hwrite
  split at hwrite
  · rw [Option.some.inj hwrite]
  · split at hwrite
    · cases hwrite
    · rw [← Option.some.inj hwrite, lookupKey_setKey, if_neg h]

theorem spares_of_ne (h : nodeFilePath nodesDir a ≠ nodeFilePath nodesDir b) : Spares rt nodesDir a b where
  write tree node neighbors tree' hnode hwrite := by
    subst hnode
    exact writeNodeMarkdown_other hwrite h
  remove tree := by
    rw [removeNodeMarkdowns, List.foldl_cons, List.foldl_nil]
    dsimp only
    split
    · exact lookupKey_unlink h
    · rfl
  keep tree keepIds := by
    apply lookupKey_filter_congr
    intro file _ hfile
    have hkept : file.1 ∈ (a :: keepIds).map (nodeFilePath nodesDir) ↔ file.1 ∈ keepIds.map (nodeFilePath nodesDir) := by
      rw [List.map_cons, List.mem_cons, hfile]
      exact or_iff_right h.symm
    simp only [isOrphan, hkept]

end Effects

/-- Files apart, if ids are not alike and neither goes on below the other's file. -/
theorem filesApart_iff (rt : Runtime) (nodesDir : Path) {a b : JsString} (ha : NoDots a) (hb : NoDots b) :
    FilesApart rt nodesDir a b ↔ ¬ SamePlace a b ∧ ¬ GoesBelow a b ∧ ¬ GoesBelow b a := by
  constructor
  · intro h
    have hbelow := h.notBelow
    have habove := h.notAbove
    rw [nodeFilePath_prefix_iff ha hb, not_or] at hbelow
    rw [nodeFilePath_prefix_iff hb ha, not_or] at habove
    exact ⟨hbelow.1, hbelow.2, habove.2⟩
  · rintro ⟨hplace, hbelow, habove⟩
    have hne : nodeFilePath nodesDir a ≠ nodeFilePath nodesDir b :=
      fun heq => hplace ((nodeFilePath_eq_iff ha hb nodesDir).1 heq)
    have hplace' : ¬ SamePlace b a :=
      fun h => hne ((nodeFilePath_eq_iff hb ha nodesDir).2 h).symm
    exact
      { markdownPath := fun heq => hne (by rw [nodeFilePath, heq, nodeFilePath])
        filePath := hne
        notBelow := fun h => ((nodeFilePath_prefix_iff ha hb nodesDir).1 h).elim hplace hbelow
        notAbove := fun h => ((nodeFilePath_prefix_iff hb ha nodesDir).1 h).elim hplace' habove
        spares := spares_of_ne hne
        spared := spares_of_ne hne.symm }

/-- The ids of `class Counter { #count() {} _count() {} }` in `src/counter.ts`. -/
def privateId : JsString :=
  recordId (fun _ => some (ascii "counter")) ⟨ascii "src/counter.ts", ascii "#count", .method, ascii "Counter.#count"⟩

def underscoreId : JsString :=
  recordId (fun _ => some (ascii "counter")) ⟨ascii "src/counter.ts", ascii "_count", .method, ascii "Counter._count"⟩

/-- Where the index of `/repo` keeps its nodes. -/
def repoNodes : Path := [ascii "repo", ascii ".hayven", ascii "nodes"]

def classId : JsString :=
  recordId (fun _ => some (ascii "counter")) ⟨ascii "src/counter.ts", ascii "Counter", .class, ascii "Counter"⟩

/-- The class and its method lie side by side. -/
theorem filesApart_counter : FilesApart decimalRuntime repoNodes classId underscoreId := by
  have hdirs : (idDirs classId).length = (idDirs underscoreId).length := by decide +kernel
  apply (filesApart_iff decimalRuntime repoNodes (by decide +kernel) (by decide +kernel)).2
  refine ⟨by decide +kernel, fun h => ?_, fun h => ?_⟩
  · exact absurd h.length_lt (Nat.not_lt_of_le hdirs.ge)
  · exact absurd h.length_lt (Nat.not_lt_of_le hdirs.le)

/-- A private member and its namesake with an underscore have one file. -/
theorem private_member_shares_file :
    privateId ≠ underscoreId ∧ NoDots privateId ∧ NoDots underscoreId ∧
      ¬ FilesApart decimalRuntime repoNodes privateId underscoreId :=
  ⟨by decide +kernel, by decide +kernel, by decide +kernel, fun h => h.filePath (by decide +kernel)⟩

end Hayven.Graph
