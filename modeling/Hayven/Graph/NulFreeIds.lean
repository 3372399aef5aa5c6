import Hayven.Graph.IdScheme
/-!
# Ids without a NUL

Names and paths hold no NUL, and neither do the ids that are derived from them. This is
what makes a NUL a separator between the parts of an edge's key.
-/
open Hayven.Lib Hayven.Native

namespace Hayven.Graph

/-- No code unit of the text is NUL. -/
def NulFree (s : JsString) : Prop := (0 : UInt16) ∉ s

theorem NulFree.subset {s t : JsString} (h : NulFree s) (hsub : t ⊆ s) : NulFree t := fun h0 => h (hsub h0)

theorem NulFree.append {s t : JsString} (hs : NulFree s) (ht : NulFree t) : NulFree (s ++ t) := by
  intro h0
  rcases List.mem_append.1 h0 with h0 | h0
  · exact hs h0
  · exact ht h0

theorem NulFree.slash_cons {s : JsString} (h : NulFree s) : NulFree (slash :: s) := by
  intro h0
  rcases List.mem_cons.1 h0 with h0 | h0
  · exact absurd h0 (by decide)
  · exact h h0

theorem nulFree_intercalate {parts : List JsString} (h : ∀ p ∈ parts, NulFree p) :
    NulFree ([slash].intercalate parts) := by
  induction parts with
  | nil => exact List.not_mem_nil
  | cons p parts ih =>
    have hrest := ih fun q hq => h q (List.mem_cons_of_mem p hq)
    have hp := h p List.mem_cons_self
    cases parts with
    | nil => rwa [List.intercalate_singleton]
    | cons q parts =>
      rw [List.intercalate_cons_cons, List.append_assoc]
      exact hp.append hrest.slash_cons

theorem subset_intercalate {p : JsString} {parts : List JsString} (hp : p ∈ parts) :
    p ⊆ [slash].intercalate parts := by
  induction parts with
  | nil => cases hp
  | cons q parts ih =>
    cases parts with
    | nil =>
      rw [List.mem_singleton] at hp
      rw [List.intercalate_singleton, hp]
      exact List.Subset.refl q
    | cons r parts =>
      rw [List.intercalate_cons_cons]
      rcases List.mem_cons.1 hp with rfl | hp
      · exact fun u hu => List.mem_append_left _ (List.mem_append_left _ hu)
      · exact fun u hu => List.mem_append_right _ (ih hp hu)

theorem NulFree.splitOn {s p : JsString} (h : NulFree s) (hp : p ∈ s.splitOn slash) : NulFree p := by
  apply h.subset
  have hsub := subset_intercalate hp
  rwa [List.intercalate_splitOn] at hsub

theorem NulFree.pathParts {path p : JsString} (h : NulFree path) (hp : p ∈ pathParts path) : NulFree p :=
  h.splitOn (List.mem_filter.1 hp).1

theorem NulFree.stripLeading {path : JsString} (h : NulFree path) : NulFree (stripLeading path) := by
  unfold Graph.stripLeading
  apply h.subset
  refine fun u hu => ?_
  have hdropped := (List.dropWhile_suffix _).subset hu
  split at hdropped
  · exact List.mem_of_mem_drop ((List.dropWhile_suffix _).subset hdropped)
  · exact hdropped

theorem NulFree.normalizePosix {path : JsString} (h : NulFree path) : NulFree (normalizePosix path) := by
  apply nulFree_intercalate
  have hstep : ∀ segs : List JsString, (∀ s ∈ segs, NulFree s) → ∀ out : List JsString,
      (∀ p ∈ out, NulFree p) → ∀ p ∈ segs.foldl normalizeStep out, NulFree p := by
    intro segs
    induction segs with
    | nil => exact fun _ out hout => hout
    | cons seg segs ih =>
      intro hsegs out hout
      rw [List.foldl_cons]
      apply ih fun s hs => hsegs s (List.mem_cons_of_mem seg hs)
      have hpush : ∀ p ∈ out ++ [seg], NulFree p := by
        intro p hp
        rcases List.mem_append.1 hp with hp | hp
        · exact hout p hp
        · rw [List.mem_singleton] at hp
          exact hp ▸ hsegs seg List.mem_cons_self
      unfold normalizeStep
      split
      · exact hout
      · split
        · split
          · exact fun p hp => hout p (List.dropLast_subset out hp)
          · exact hpush
        · exact hpush
  exact hstep _ (fun s hs => h.splitOn hs) [] (by simp)

theorem NulFree.stripExt {s : JsString} (h : NulFree s) : NulFree (stripExt s) := by
  unfold Graph.stripExt
  split
  · split
    · exact h
    · exact h.subset (List.take_subset _ s)
  · exact h

theorem NulFree.trim {s : JsString} (h : NulFree s) : NulFree (trim s) := h.subset fun _ hu => mem_of_mem_trimBy hu

theorem NulFree.inScope {scope rest : JsString} (hscope : NulFree scope) (hrest : NulFree rest) :
    NulFree (inScope scope rest) := by
  unfold Graph.inScope
  split
  · exact hscope.append hrest.slash_cons
  · exact hrest

theorem NulFree.localPath {m qualified : JsString} (hm : NulFree m) (hq : NulFree qualified) (kind : Option NodeKind) :
    NulFree (localPath m qualified kind) := by
  have hdrop : ∀ n, NulFree (qualified.drop n) := fun n => hq.subset (List.drop_subset n qualified)
  unfold Graph.localPath
  dsimp only
  split
  · split
    · exact hm.append (hdrop _).slash_cons
    · exact hdrop _
  · split
    · exact hm.append hq.slash_cons
    · exact hq

theorem nulFree_deriveEntityId {file name : JsString} {options : IdOptions} (hfile : NulFree file)
    (hname : NulFree name) (hmodule : ∀ m, options.moduleName = some m → NulFree m) :
    NulFree (deriveEntityId file name options) := by
  have hscope : NulFree (scopeForFile file) :=
    nulFree_intercalate fun p hp => hfile.stripLeading.pathParts (List.dropLast_subset _ hp)
  unfold deriveEntityId
  dsimp only
  split
  · refine hscope.inScope (NulFree.stripExt ?_)
    cases hlast : (file.splitOn slash).getLast? with
    | none => exact hfile
    | some p => exact hfile.splitOn (List.mem_of_getLast? hlast)
  · refine hscope.inScope (NulFree.localPath (NulFree.trim ?_) hname.trim _)
    cases hm : options.moduleName with
    | none => exact List.not_mem_nil
    | some m => exact hmodule m hm

theorem NulFree.fallbackModuleName {file : JsString} (h : NulFree file) : NulFree (fallbackModuleName file) := by
  have hparts : ∀ p ∈ Graph.pathParts (Graph.normalizePosix file), NulFree p := fun p hp =>
    h.normalizePosix.pathParts hp
  unfold Graph.fallbackModuleName
  dsimp only
  split
  · cases hlast : (Graph.pathParts (Graph.normalizePosix file)).dropLast.getLast? with
    | none => exact List.not_mem_nil
    | some p => exact hparts p (List.dropLast_subset _ (List.mem_of_getLast? hlast))
  · apply NulFree.stripExt
    cases hlast : (Graph.pathParts (Graph.normalizePosix file)).getLast? with
    | none => exact h
    | some p => exact hparts p (List.mem_of_getLast? hlast)

/-- The texts of a node record are names and paths, in which no NUL can be. -/
structure PlainRecord (r : NodeRecord) : Prop where
  file : NulFree r.file
  name : NulFree r.name
  qualifiedName : NulFree r.qualifiedName

theorem PlainRecord.recordName {r : NodeRecord} (h : PlainRecord r) : NulFree (recordName r) := by
  unfold Graph.recordName
  split
  · exact h.name
  · exact h.qualifiedName

theorem PlainRecord.recordId {r : NodeRecord} (h : PlainRecord r) {moduleByFile : JsString → Option JsString}
    (hmodules : ∀ file m, moduleByFile file = some m → NulFree m) : NulFree (recordId moduleByFile r) := by
  apply nulFree_deriveEntityId h.file h.recordName
  intro m hm
  dsimp only at hm
  split at hm
  · cases hm
  · cases hm
    cases hget : moduleByFile r.file with
    | none => exact h.file.fallbackModuleName
    | some m => exact hmodules r.file m hget

end Hayven.Graph
