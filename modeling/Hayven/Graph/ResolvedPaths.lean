import Mathlib.Data.List.Induction
import Mathlib.Data.List.TakeWhile
import Hayven.Graph.Workspace
/-!
# Where a normalized path leads

The parts of a path with its dots resolved, as `normalizePosix` resolves them, and that
`posixNorm` of `graph/workspace.ts` changes nothing about where a path leads. A path that a
directory is part of may still lead out of it: `LeadsBelow`.
-/
open Hayven.Lib Hayven.Native

namespace Hayven.Graph

/-! ## Paths with their dots resolved -/

/-- The parts of a text onto parts that are resolved. -/
def walkParts (parts : List JsString) (text : JsString) : List JsString :=
  (text.splitOn slash).foldl normalizeStep parts

def resolvedParts (path : JsString) : List JsString := walkParts [] (forwardSlashes path)

/-- The path is the directory or leads below it. -/
def LeadsBelow (dir path : JsString) : Prop :=
  ∃ rest, resolvedParts path = resolvedParts dir ++ rest ∧ rest.head? ≠ some [dot, dot]

theorem walkParts_append (parts : List JsString) (a b : JsString) :
    walkParts parts (a ++ slash :: b) = walkParts (walkParts parts a) b := by
  unfold walkParts
  rw [List.splitOn_append_cons_self, List.foldl_append]

@[simp] theorem walkParts_nil (parts : List JsString) : walkParts parts [] = parts := rfl

@[simp] theorem walkParts_slash (parts : List JsString) (b : JsString) :
    walkParts parts (slash :: b) = walkParts parts b :=
  walkParts_append parts [] b

theorem walkParts_slash_end (parts : List JsString) (a : JsString) :
    walkParts parts (a ++ [slash]) = walkParts parts a :=
  walkParts_append parts a []

theorem walkParts_dot (parts : List JsString) (b : JsString) :
    walkParts parts (dot :: slash :: b) = walkParts parts b :=
  walkParts_append parts [dot] b

theorem walkParts_dropWhile (parts : List JsString) (b : JsString) :
    walkParts parts (b.dropWhile (· = slash)) = walkParts parts b := by
  induction b with
  | nil => rfl
  | cons u b ih =>
    by_cases hu : u = slash
    · rw [List.dropWhile_cons, if_pos (decide_eq_true hu), ih, hu, walkParts_slash]
    · rw [List.dropWhile_cons_of_neg (by simpa using hu)]

theorem walkParts_stripTrailing (parts : List JsString) (b : JsString) :
    walkParts parts (stripTrailingSlashes b) = walkParts parts b := by
  induction b using List.reverseRecOn with
  | nil => rfl
  | append_singleton b u ih =>
    unfold stripTrailingSlashes at ih ⊢
    rw [List.reverse_append, List.reverse_singleton, List.singleton_append]
    by_cases hu : u = slash
    · rw [List.dropWhile_cons, if_pos (decide_eq_true hu), ih, hu, walkParts_slash_end]
    · rw [List.dropWhile_cons_of_neg (by simpa using hu), List.reverse_cons, List.reverse_reverse]

/-- Doubled slashes do not matter, whatever stands before. -/
theorem walkParts_collapse (b : JsString) :
    ∀ (parts : List JsString) (a : JsString), walkParts parts (a ++ collapseSlashes b) = walkParts parts (a ++ b) := by
  induction b with
  | nil => exact fun _ _ => rfl
  | cons u rest ih =>
    intro parts a
    cases rest with
    | nil => rfl
    | cons v rest =>
      rw [collapseSlashes]
      split
      · rename_i h
        obtain ⟨rfl, rfl⟩ := h
        rw [ih, walkParts_append, walkParts_append, walkParts_slash]
      · by_cases hu : u = slash
        · subst hu
          rw [walkParts_append, walkParts_append]
          exact ih (walkParts parts a) []
        · have hnext := ih parts (a ++ [u])
          rwa [List.append_assoc, List.append_assoc] at hnext

theorem forwardSlashes_append (a b : JsString) : forwardSlashes (a ++ b) = forwardSlashes a ++ forwardSlashes b :=
  List.map_append

/-- Normalizing a path does not change where it leads. -/
theorem walkParts_posixNorm (parts : List JsString) (p : JsString) :
    walkParts parts (posixNorm p) = walkParts parts (forwardSlashes p) := by
  unfold posixNorm
  dsimp only
  rw [show ∀ b, collapseSlashes b = [] ++ collapseSlashes b from fun _ => rfl, walkParts_collapse, List.nil_append,
    walkParts_stripTrailing]
  split
  · rename_i hdotted
    obtain ⟨rest, hrest⟩ := List.isPrefixOf_iff_prefix.1 hdotted
    rw [walkParts_dropWhile, ← hrest]
    change walkParts parts (slash :: rest) = walkParts parts (dot :: slash :: rest)
    rw [walkParts_slash, walkParts_dot]
  · rfl

/-- Neither a backslash … -/
theorem mem_collapseSlashes {u : UInt16} {b : JsString} (h : u ∈ collapseSlashes b) : u ∈ b := by
  induction b with
  | nil => exact h
  | cons v rest ih =>
    cases rest with
    | nil => exact h
    | cons w rest =>
      rw [collapseSlashes] at h
      split at h
      · exact List.mem_cons_of_mem _ (ih h)
      · rcases List.mem_cons.1 h with rfl | h
        · exact List.mem_cons_self
        · exact List.mem_cons_of_mem _ (ih h)

/-- … nor a part other than the slashes is lost. -/
theorem mem_collapseSlashes_of_ne {u : UInt16} (hu : u ≠ slash) {b : JsString} (h : u ∈ b) : u ∈ collapseSlashes b := by
  induction b with
  | nil => exact h
  | cons v rest ih =>
    cases rest with
    | nil => exact h
    | cons w rest =>
      rw [collapseSlashes]
      split
      · rename_i hboth
        rcases List.mem_cons.1 h with rfl | h
        · exact absurd hboth.1 hu
        · exact ih h
      · rcases List.mem_cons.1 h with rfl | h
        · exact List.mem_cons_self
        · exact List.mem_cons_of_mem _ (ih h)

theorem mem_posixNorm {u : UInt16} {p : JsString} (h : u ∈ posixNorm p) : u ∈ forwardSlashes p := by
  unfold posixNorm at h
  dsimp only at h
  have hstripped := List.mem_reverse.1 (mem_collapseSlashes h)
  have hundotted := List.mem_reverse.1 ((List.dropWhile_suffix _).subset hstripped)
  split at hundotted
  · exact List.mem_of_mem_drop ((List.dropWhile_suffix _).subset hundotted)
  · exact hundotted

theorem forwardSlashes_posixNorm (p : JsString) : forwardSlashes (posixNorm p) = posixNorm p := by
  refine (List.map_congr_left fun u hu => if_neg ?_).trans (List.map_id _)
  rintro rfl
  obtain ⟨v, -, hv⟩ := List.mem_map.1 (mem_posixNorm hu)
  split at hv
  · exact absurd hv (by decide)
  · rename_i hne
    exact hne hv

theorem resolvedParts_posixNorm (p : JsString) : resolvedParts (posixNorm p) = resolvedParts p := by
  unfold resolvedParts
  rw [forwardSlashes_posixNorm, walkParts_posixNorm]

theorem resolvedParts_below (dir p : JsString) :
    resolvedParts (dir ++ slash :: p) = walkParts (resolvedParts dir) (forwardSlashes p) := by
  unfold resolvedParts
  rw [forwardSlashes_append]
  exact walkParts_append [] (forwardSlashes dir) (forwardSlashes p)

theorem mem_dropWhile_of_ne {u : UInt16} (hu : u ≠ slash) {b : JsString} (h : u ∈ b) : u ∈ b.dropWhile (· = slash) := by
  rw [← List.takeWhile_append_dropWhile (p := (· = slash)) (l := b)] at h
  rcases List.mem_append.1 h with hin | hin
  · have hslash := List.mem_takeWhile_imp hin
    exact absurd (by simpa using hslash) hu
  · exact hin

theorem mem_stripTrailing_of_ne {u : UInt16} (hu : u ≠ slash) {b : JsString} (h : u ∈ b) : u ∈ stripTrailingSlashes b :=
  List.mem_reverse.2 (mem_dropWhile_of_ne hu (List.mem_reverse.2 h))

/-- A path that is not normalized to nothing has a part. -/
theorem exists_of_posixNorm {p : JsString} (h : posixNorm p ≠ []) : ∃ u ∈ posixNorm p, u ≠ slash := by
  unfold posixNorm at h ⊢
  dsimp only at h ⊢
  generalize (if [dot, slash].isPrefixOf (forwardSlashes p) then ((forwardSlashes p).drop 1).dropWhile (· = slash)
    else forwardSlashes p) = b at h ⊢
  by_contra hall
  push Not at hall
  apply h
  have hnil : stripTrailingSlashes b = [] := by
    unfold stripTrailingSlashes
    rw [List.reverse_eq_nil_iff, List.dropWhile_eq_nil_iff]
    intro u hu
    by_contra hne
    have hin := mem_collapseSlashes_of_ne (fun heq => hne (decide_eq_true heq))
      (mem_stripTrailing_of_ne (fun heq => hne (decide_eq_true heq)) (List.mem_reverse.1 hu))
    exact hne (decide_eq_true (hall u hin))
  rw [hnil]
  rfl

theorem posixNorm_below_ne_nil (dir : JsString) {p : JsString} (h : posixNorm p ≠ []) :
    posixNorm (dir ++ slash :: posixNorm p) ≠ [] := by
  obtain ⟨u, hin, hu⟩ := exists_of_posixNorm h
  suffices hmem : u ∈ posixNorm (dir ++ slash :: posixNorm p) from List.ne_nil_of_mem hmem
  unfold posixNorm
  dsimp only
  refine mem_collapseSlashes_of_ne hu (mem_stripTrailing_of_ne hu ?_)
  change u ∈ if [dot, slash].isPrefixOf (forwardSlashes (dir ++ slash :: posixNorm p)) then
    ((forwardSlashes (dir ++ slash :: posixNorm p)).drop 1).dropWhile (· = slash)
    else forwardSlashes (dir ++ slash :: posixNorm p)
  have htext : forwardSlashes (dir ++ slash :: posixNorm p) = forwardSlashes dir ++ slash :: posixNorm p := by
    rw [forwardSlashes_append]
    exact congrArg (fun q => forwardSlashes dir ++ slash :: q) (forwardSlashes_posixNorm p)
  rw [htext]
  split
  · apply mem_dropWhile_of_ne hu
    cases forwardSlashes dir with
    | nil => exact hin
    | cons v rest => exact List.mem_append_right _ (List.mem_cons_of_mem _ hin)
  · exact List.mem_append_right _ (List.mem_cons_of_mem _ hin)

/-! ## Both twins of a built artifact -/

/-- Two parts that name directories, at one place of a path: both stay, or the rest leads back over them. -/
theorem walk_twins {a b : JsString} (ha : a ≠ [dot, dot]) (hb : b ≠ [dot, dot])
    (segs : List JsString) : ∀ parts rest : List JsString, [dot, dot] ∉ rest →
      segs.foldl normalizeStep (parts ++ a :: rest) = segs.foldl normalizeStep (parts ++ b :: rest) ∨
        ∃ below, segs.foldl normalizeStep (parts ++ a :: rest) = parts ++ a :: below ∧
          segs.foldl normalizeStep (parts ++ b :: rest) = parts ++ b :: below := by
  induction segs with
  | nil => exact fun parts rest _ => .inr ⟨rest, rfl, rfl⟩
  | cons seg segs ih =>
    intro parts rest hrest
    rw [List.foldl_cons, List.foldl_cons]
    by_cases hskip : seg = [] ∨ seg = [dot]
    · have hstay (out : List JsString) : normalizeStep out seg = out := if_pos hskip
      rw [hstay, hstay]
      exact ih parts rest hrest
    by_cases hup : seg = [dot, dot]
    · have hpop (c : JsString) (out : List JsString) (hc : c ≠ [dot, dot]) :
          normalizeStep (out ++ [c]) seg = out := by
        unfold normalizeStep
        rw [if_neg hskip, if_pos hup, if_pos ⟨by simp, by simpa using hc⟩, List.dropLast_concat]
      rcases List.eq_nil_or_concat rest with rfl | ⟨init, last, rfl⟩
      · rw [hpop a parts ha, hpop b parts hb]
        exact .inl rfl
      · rw [List.concat_eq_append] at hrest ⊢
        rw [List.mem_append, not_or] at hrest
        have hlast : last ≠ [dot, dot] := fun heq => hrest.2 (by simp [heq])
        rw [show parts ++ a :: (init ++ [last]) = parts ++ a :: init ++ [last] by simp,
          show parts ++ b :: (init ++ [last]) = parts ++ b :: init ++ [last] by simp, hpop last _ hlast,
          hpop last _ hlast]
        exact ih parts init hrest.1
    · have hpush (out : List JsString) : normalizeStep out seg = out ++ [seg] := by
        unfold normalizeStep
        rw [if_neg hskip, if_neg hup]
      rw [hpush, hpush, List.append_assoc, List.append_assoc, List.cons_append, List.cons_append]
      exact ih parts (rest ++ [seg]) (by simpa using ⟨hrest, fun heq => hup heq.symm⟩)

theorem walkParts_part (parts : List JsString) {part : JsString} (hpart : slash ∉ part) (hne : part ≠ [] ∧ part ≠ [dot])
    (hup : part ≠ [dot, dot]) : walkParts parts part = parts ++ [part] := by
  unfold walkParts
  rw [List.splitOn_eq_singleton hpart, List.foldl_cons, List.foldl_nil, normalizeStep,
    if_neg (not_or.2 hne), if_neg hup]

/-- The built artifact is below a directory exactly if its source is. -/
theorem leadsBelow_twin (dir rest : JsString) :
    LeadsBelow dir (dir ++ slash :: (ascii "dist/" ++ rest)) ↔
      LeadsBelow dir (dir ++ slash :: (ascii "src/" ++ rest)) := by
  have hdist : resolvedParts (dir ++ slash :: (ascii "dist/" ++ rest)) =
      walkParts (resolvedParts dir ++ [ascii "dist"]) (forwardSlashes rest) := by
    rw [resolvedParts_below, forwardSlashes_append, ← walkParts_part _ (by decide) (by decide) (by decide)]
    exact walkParts_append _ (ascii "dist") _
  have hsrc : resolvedParts (dir ++ slash :: (ascii "src/" ++ rest)) =
      walkParts (resolvedParts dir ++ [ascii "src"]) (forwardSlashes rest) := by
    rw [resolvedParts_below, forwardSlashes_append, ← walkParts_part _ (by decide) (by decide) (by decide)]
    exact walkParts_append _ (ascii "src") _
  unfold LeadsBelow
  rw [hdist, hsrc]
  rcases walk_twins (a := ascii "dist") (b := ascii "src") (by decide) (by decide) ((forwardSlashes rest).splitOn slash)
    (resolvedParts dir) [] List.not_mem_nil with heq | ⟨below, ha, hb⟩
  · rw [show walkParts (resolvedParts dir ++ [ascii "dist"]) (forwardSlashes rest) =
      walkParts (resolvedParts dir ++ [ascii "src"]) (forwardSlashes rest) from heq]
  · constructor
    · exact fun _ => ⟨ascii "src" :: below, hb, fun h => absurd (Option.some.inj h) (by decide)⟩
    · exact fun _ => ⟨ascii "dist" :: below, ha, fun h => absurd (Option.some.inj h) (by decide)⟩

instance (dir path : JsString) : Decidable (LeadsBelow dir path) :=
  decidable_of_iff ((resolvedParts dir).isPrefixOf (resolvedParts path) = true ∧
      ((resolvedParts path).drop (resolvedParts dir).length).head? ≠ some [dot, dot]) <| by
    constructor
    · rintro ⟨hbegins, hhead⟩
      obtain ⟨rest, hrest⟩ := List.isPrefixOf_iff_prefix.1 hbegins
      rw [← hrest, List.drop_left] at hhead
      exact ⟨rest, hrest.symm, hhead⟩
    · rintro ⟨rest, hrest, hhead⟩
      rw [hrest, List.drop_left]
      exact ⟨List.isPrefixOf_iff_prefix.2 (List.prefix_append _ _), hhead⟩

end Hayven.Graph
