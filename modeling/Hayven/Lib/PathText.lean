import Mathlib.Data.List.Basic
import Mathlib.Data.List.Infix
import Hayven.Lib.Segments
/-!
# Paths written out

An absolute path is its names, each after a separator; the top is the separator alone. A
path text is cut at separators and normalised name by name, and a text that starts like
another up to a separator lies below it.
-/

namespace Hayven.Lib

section PathText
variable {α : Type} {sep dot : α}

/-- The names, each after a separator. -/
def namesText (sep : α) (names : List (List α)) : List α := names.flatMap (sep :: ·)

/-- The text of an absolute path. -/
def rootedText (sep : α) (names : List (List α)) : List α := if names = [] then [sep] else namesText sep names

/-- A name that stands for a place: not nothing, one dot or two. -/
def PathName (sep dot : α) (name : List α) : Prop := name ≠ [] ∧ sep ∉ name ∧ name ≠ [dot] ∧ name ≠ [dot, dot]

@[simp] theorem namesText_nil : namesText sep ([] : List (List α)) = [] := rfl

@[simp] theorem namesText_cons (name : List α) (names : List (List α)) :
    namesText sep (name :: names) = sep :: (name ++ namesText sep names) := by
  simp [namesText]

theorem namesText_append (a b : List (List α)) : namesText sep (a ++ b) = namesText sep a ++ namesText sep b := by
  simp [namesText]

theorem rootedText_of_ne_nil {names : List (List α)} (h : names ≠ []) : rootedText sep names = namesText sep names := if_neg h

theorem namesText_eq_intercalate {names : List (List α)} (h : names ≠ []) :
    namesText sep names = sep :: [sep].intercalate names := by
  induction names with
  | nil => exact absurd rfl h
  | cons name names ih =>
    by_cases hnames : names = []
    · subst hnames
      simp
    · rw [namesText_cons, ih hnames, List.intercalate_cons_of_ne_nil hnames]
      simp

theorem intercalate_head {names : List (List α)} (hne : names ≠ []) (h : ∀ name ∈ names, name ≠ [] ∧ sep ∉ name) :
    ∃ u rest, [sep].intercalate names = u :: rest ∧ u ≠ sep := by
  obtain ⟨name, names, rfl⟩ := List.exists_cons_of_ne_nil hne
  obtain ⟨hname, hsep⟩ := h name List.mem_cons_self
  obtain ⟨u, name, rfl⟩ := List.exists_cons_of_ne_nil hname
  have hu : u ≠ sep := fun heq => hsep (heq ▸ List.mem_cons_self)
  by_cases hnames : names = []
  · subst hnames
    exact ⟨u, name, by simp, hu⟩
  · exact ⟨u, name ++ sep :: [sep].intercalate names, by rw [List.intercalate_cons_of_ne_nil hnames]; simp, hu⟩

/-- A text that goes on with a separator after some names has those names first. -/
theorem names_of_prefix {a b : List (List α)} (ha : ∀ name ∈ a, sep ∉ name) (hb : ∀ name ∈ b, sep ∉ name) {y : List α}
    (h : namesText sep a ++ sep :: y = namesText sep b) :
    ∃ rest, b = a ++ rest ∧ sep :: y = namesText sep rest := by
  induction a generalizing b with
  | nil => exact ⟨b, rfl, h⟩
  | cons name a ih =>
    cases b with
    | nil => simp at h
    | cons other b =>
      rw [namesText_cons, namesText_cons, List.cons_append, List.append_assoc] at h
      have h := (List.cons.inj h).2
      have hname := ha name List.mem_cons_self
      have hother := hb other List.mem_cons_self
      have hstart : ∃ s, namesText sep a ++ sep :: y = sep :: s := by
        cases a with
        | nil => exact ⟨y, rfl⟩
        | cons n a => exact ⟨_, by rw [namesText_cons, List.cons_append]⟩
      obtain ⟨s, hs⟩ := hstart
      cases b with
      | nil =>
        rw [namesText_nil, List.append_nil, hs] at h
        exact absurd (h ▸ List.mem_append_right name List.mem_cons_self) hother
      | cons n b =>
        rw [hs, namesText_cons] at h
        obtain ⟨rfl, hrest⟩ := cut_at_sep hname hother h
        rw [hrest, ← namesText_cons] at hs
        obtain ⟨rest, hab, hy⟩ := ih (fun m hm => ha m (List.mem_cons_of_mem _ hm))
          (fun m hm => hb m (List.mem_cons_of_mem _ hm)) hs
        exact ⟨rest, by rw [hab, List.cons_append], hy⟩

theorem namesText_inj {a b : List (List α)} (ha : ∀ name ∈ a, sep ∉ name) (hb : ∀ name ∈ b, sep ∉ name)
    (h : namesText sep a = namesText sep b) : a = b := by
  have h' : namesText sep a ++ sep :: [] = namesText sep (b ++ [[]]) := by
    rw [h, namesText_append]
    rfl
  obtain ⟨rest, hrest, hy⟩ := names_of_prefix ha (fun name hm => by
    rcases List.mem_append.1 hm with hm | hm
    · exact hb name hm
    · rw [List.mem_singleton.1 hm]
      exact List.not_mem_nil) h'
  have hone : rest = [[]] := by
    rcases rest with _ | ⟨n, _ | ⟨m, rest⟩⟩
    · cases hy
    · rw [namesText_cons, namesText_nil, List.append_nil] at hy
      rw [← (List.cons.inj hy).2]
    · rw [namesText_cons, namesText_cons] at hy
      have := congrArg List.length (List.cons.inj hy).2
      simp at this
  rw [hone] at hrest
  exact (List.append_inj_left' hrest rfl).symm

theorem rootedText_inj {a b : List (List α)} (ha : ∀ name ∈ a, name ≠ [] ∧ sep ∉ name)
    (hb : ∀ name ∈ b, name ≠ [] ∧ sep ∉ name) (h : rootedText sep a = rootedText sep b) : a = b := by
  have hone : ∀ {names : List (List α)}, names ≠ [] → (∀ name ∈ names, name ≠ [] ∧ sep ∉ name) →
      [sep] ≠ namesText sep names := by
    intro names hne hnames heq
    obtain ⟨u, rest, htext, -⟩ := intercalate_head hne hnames
    rw [namesText_eq_intercalate hne, htext] at heq
    cases heq
  unfold rootedText at h
  split at h <;> split at h
  · next ha' hb' => rw [ha', hb']
  · next _ hb' => exact absurd h (hone hb' hb)
  · next ha' _ => exact absurd h.symm (hone ha' ha)
  · exact namesText_inj (fun n hn => (ha n hn).2) (fun n hn => (hb n hn).2) h

section Cut
variable [DecidableEq α]

theorem splitOn_namesText {names : List (List α)} (hne : names ≠ []) (h : ∀ name ∈ names, sep ∉ name) :
    (namesText sep names).splitOn sep = [] :: names := by
  rw [namesText_eq_intercalate hne]
  have hcut := List.splitOn_append_cons_self (a := sep) [] ([sep].intercalate names)
  rw [List.nil_append] at hcut
  rw [hcut, List.splitOn_nil, List.splitOn_intercalate sep h hne]
  rfl

theorem splitOn_pathText {names : List (List α)} (h : ∀ name ∈ names, sep ∉ name) :
    (rootedText sep names).splitOn sep = [] :: if names = [] then [[]] else names := by
  by_cases hne : names = []
  · subst hne
    have hcut := List.splitOn_append_cons_self (a := sep) [] []
    rw [List.nil_append] at hcut
    rw [rootedText, if_pos rfl, if_pos rfl, hcut]
    rfl
  · rw [rootedText_of_ne_nil hne, splitOn_namesText hne h, if_neg hne]

theorem not_mem_of_mem_splitOn {s name : List α} (h : name ∈ s.splitOn sep) : sep ∉ name := by
  induction s generalizing name with
  | nil =>
    rw [List.splitOn_nil, List.mem_singleton] at h
    rw [h]
    exact List.not_mem_nil
  | cons u s ih =>
    rw [List.splitOn_cons_eq_if_modifyHead] at h
    split at h
    · rcases List.mem_cons.1 h with rfl | h
      · exact List.not_mem_nil
      · exact ih h
    · next hu =>
      obtain ⟨first, rest, hcut⟩ := List.exists_cons_of_ne_nil (List.splitOn_ne_nil sep s)
      rw [hcut, List.modifyHead_cons] at h
      rcases List.mem_cons.1 h with rfl | h
      · have hfirst := ih (hcut ▸ List.mem_cons_self)
        rw [List.mem_cons, not_or]
        exact ⟨fun heq => hu (by simp [heq]), hfirst⟩
      · exact ih (hcut ▸ List.mem_cons_of_mem _ h)

/-! ## Normalising -/

/-- One name after those before it: nothing and a dot stay, two dots go up. -/
def pushName (dot : α) (stack : List (List α)) (name : List α) : List (List α) :=
  if name = [] ∨ name = [dot] then stack
  else if name = [dot, dot] then stack.dropLast
  else stack ++ [name]

def normalizeFrom (dot : α) (base names : List (List α)) : List (List α) := names.foldl (pushName dot) base

theorem pathName_normalizeFrom (sep : α) {base names : List (List α)} (hbase : ∀ name ∈ base, PathName sep dot name)
    (hnames : ∀ name ∈ names, sep ∉ name) : ∀ name ∈ normalizeFrom dot base names, PathName sep dot name := by
  induction names generalizing base with
  | nil => exact hbase
  | cons n names ih =>
    apply ih
    · intro name hname
      unfold pushName at hname
      split at hname
      case isTrue => exact hbase name hname
      case isFalse hone =>
        split at hname
        case isTrue => exact hbase name (List.mem_of_mem_dropLast hname)
        case isFalse htwo =>
          rcases List.mem_append.1 hname with hname | hname
          · exact hbase name hname
          · rw [List.mem_singleton.1 hname]
            rw [not_or] at hone
            exact ⟨hone.1, hnames n List.mem_cons_self, hone.2, htwo⟩
    · exact fun name hname => hnames name (List.mem_cons_of_mem _ hname)

theorem normalizeFrom_names (sep : α) {names : List (List α)} (h : ∀ name ∈ names, PathName sep dot name) (base : List (List α)) :
    normalizeFrom dot base names = base ++ names := by
  induction names generalizing base with
  | nil => rw [List.append_nil]; rfl
  | cons n names ih =>
    obtain ⟨hne, -, hone, htwo⟩ := h n List.mem_cons_self
    show normalizeFrom dot (pushName dot base n) names = base ++ n :: names
    rw [pushName, if_neg (not_or.2 ⟨hne, hone⟩), if_neg htwo,
      ih (fun name hname => h name (List.mem_cons_of_mem _ hname)), List.append_assoc, List.singleton_append]

theorem normalizeFrom_nil_cons (base names : List (List α)) :
    normalizeFrom dot base ([] :: names) = normalizeFrom dot base names := by
  show normalizeFrom dot (pushName dot base []) names = _
  rw [pushName, if_pos (.inl rfl)]

end Cut

end PathText

end Hayven.Lib
