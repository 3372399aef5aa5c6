import Mathlib.Data.List.Infix
/-!
# Files, directories and symbolic links

A place is the list of names from the top. `resolveLinks` is the system's resolution of a
path, which fails at what is missing and gives up after so many links; `Settles` says where
a path leads, what is missing included and however many links it takes.
-/

namespace Hayven.Lib

/-- One step of a path. -/
inductive PathStep (ν : Type) where
  | stay
  | up
  | into (name : ν)
deriving DecidableEq

/-- What stands at a place; a link's target starts at the top or beside the link. -/
inductive TreeEntry (ν : Type) where
  | file
  | dir
  | link (absolute : Bool) (target : List (PathStep ν))
deriving DecidableEq

structure FileTree (ν : Type) where
  entry : List ν → Option (TreeEntry ν)
  top : entry [] = some .dir
  parent : ∀ {p : List ν} {n : ν} {e : TreeEntry ν}, entry (p ++ [n]) = some e → entry p = some .dir

namespace FileTree

section Resolution
variable {ν : Type} (t : FileTree ν)

/-- Walks the steps from a directory; `follow` takes over at a link. -/
def walk (follow : List ν → List (PathStep ν) → Option (List ν)) : List ν → List (PathStep ν) → Option (List ν)
  | p, [] => some p
  | p, .stay :: rest => walk follow p rest
  | p, .up :: rest => walk follow p.dropLast rest
  | p, .into n :: rest =>
    match t.entry (p ++ [n]) with
    | none => none
    | some .file => if rest = [] then some (p ++ [n]) else none
    | some .dir => walk follow (p ++ [n]) rest
    | some (.link absolute target) => follow (if absolute then [] else p) (target ++ rest)

/-- The place a path resolves to, over at most so many links. -/
def resolveLinks : Nat → List ν → List (PathStep ν) → Option (List ν)
  | 0 => t.walk fun _ _ => none
  | links + 1 => t.walk (resolveLinks links)

/-- Where a path leads with every link on it followed. -/
inductive Settles : List ν → List (PathStep ν) → List ν → Prop
  | here (p : List ν) : Settles p [] p
  | stay {p rest q} : Settles p rest q → Settles p (.stay :: rest) q
  | up {p rest q} : Settles p.dropLast rest q → Settles p (.up :: rest) q
  | into {p n rest q} : (∀ absolute target, t.entry (p ++ [n]) ≠ some (.link absolute target)) →
      Settles (p ++ [n]) rest q → Settles p (.into n :: rest) q
  | link {p n rest q absolute target} : t.entry (p ++ [n]) = some (.link absolute target) →
      Settles (if absolute then [] else p) (target ++ rest) q → Settles p (.into n :: rest) q

/-- A file or a directory stands there, not a link. -/
def Plain (p : List ν) : Prop := t.entry p = some .file ∨ t.entry p = some .dir

end Resolution

variable {ν : Type} {t : FileTree ν} {p q d ns : List ν} {steps rest : List (PathStep ν)} {links : Nat}

/-! ## Places -/

theorem dir_of_append {e : TreeEntry ν} (hne : ns ≠ []) (h : t.entry (p ++ ns) = some e) : t.entry p = some .dir := by
  induction ns using List.reverseRecOn generalizing e with
  | nil => exact absurd rfl hne
  | append_singleton ns n ih =>
    rw [← List.append_assoc] at h
    have hdir := t.parent h
    by_cases hns : ns = []
    · rwa [hns, List.append_nil] at hdir
    · exact ih hns hdir

theorem Plain.of_append (h : t.Plain (p ++ ns)) : t.Plain p := by
  by_cases hns : ns = []
  · rwa [hns, List.append_nil] at h
  · rcases h with h | h
    · exact .inr (dir_of_append hns h)
    · exact .inr (dir_of_append hns h)

theorem Plain.not_link (h : t.Plain p) (absolute : Bool) (target : List (PathStep ν)) :
    t.entry p ≠ some (.link absolute target) := by
  rcases h with h | h <;> rw [h] <;> exact fun he => by cases he

theorem dir_dropLast (h : t.entry p = some .dir) : t.entry p.dropLast = some .dir := by
  induction p using List.reverseRecOn with
  | nil => exact h
  | append_singleton p n _ =>
    rw [List.dropLast_concat]
    exact t.parent h

/-! ## The walk -/

theorem resolveLinks_nil : t.resolveLinks links p [] = some p := by
  cases links <;> rfl

theorem resolveLinks_stay : t.resolveLinks links p (.stay :: rest) = t.resolveLinks links p rest := by
  cases links <;> rfl

theorem resolveLinks_up : t.resolveLinks links p (.up :: rest) = t.resolveLinks links p.dropLast rest := by
  cases links <;> rfl

theorem resolveLinks_none {n : ν} (h : t.entry (p ++ [n]) = none) :
    t.resolveLinks links p (.into n :: rest) = none := by
  cases links <;> simp only [resolveLinks, walk, h]

theorem resolveLinks_file {n : ν} (h : t.entry (p ++ [n]) = some .file) :
    t.resolveLinks links p (.into n :: rest) = if rest = [] then some (p ++ [n]) else none := by
  cases links <;> simp only [resolveLinks, walk, h]

theorem resolveLinks_dir {n : ν} (h : t.entry (p ++ [n]) = some .dir) :
    t.resolveLinks links p (.into n :: rest) = t.resolveLinks links (p ++ [n]) rest := by
  cases links <;> simp only [resolveLinks, walk, h]

theorem resolveLinks_link_zero {n : ν} {absolute : Bool} {target : List (PathStep ν)}
    (h : t.entry (p ++ [n]) = some (.link absolute target)) : t.resolveLinks 0 p (.into n :: rest) = none := by
  simp only [resolveLinks, walk, h]

theorem resolveLinks_link {n : ν} {absolute : Bool} {target : List (PathStep ν)}
    (h : t.entry (p ++ [n]) = some (.link absolute target)) :
    t.resolveLinks (links + 1) p (.into n :: rest) =
      t.resolveLinks links (if absolute then [] else p) (target ++ rest) := by
  simp only [resolveLinks, walk, h]

/-- What a resolution of some steps gives holds by the cases of its last step. -/
theorem resolveLinks_induct {motive : Nat → List ν → List (PathStep ν) → Prop}
    (here : ∀ links p, motive links p [])
    (stay : ∀ links p rest, motive links p rest → motive links p (.stay :: rest))
    (up : ∀ links p rest, motive links p.dropLast rest → motive links p (.up :: rest))
    (missing : ∀ links p n rest, t.entry (p ++ [n]) = none → motive links p (.into n :: rest))
    (file : ∀ links p n rest, t.entry (p ++ [n]) = some .file → motive links p (.into n :: rest))
    (dir : ∀ links p n rest, t.entry (p ++ [n]) = some .dir → motive links (p ++ [n]) rest →
      motive links p (.into n :: rest))
    (stuck : ∀ p n rest absolute target, t.entry (p ++ [n]) = some (.link absolute target) →
      motive 0 p (.into n :: rest))
    (link : ∀ links p n rest absolute target, t.entry (p ++ [n]) = some (.link absolute target) →
      motive links (if absolute then [] else p) (target ++ rest) → motive (links + 1) p (.into n :: rest))
    (links : Nat) (p : List ν) (steps : List (PathStep ν)) : motive links p steps := by
  induction links generalizing p steps with
  | zero =>
    induction steps generalizing p with
    | nil => exact here 0 p
    | cons s rest ih =>
      cases s with
      | stay => exact stay 0 p rest (ih p)
      | up => exact up 0 p rest (ih p.dropLast)
      | into n =>
        rcases he : t.entry (p ++ [n]) with _ | _ | _ | ⟨absolute, target⟩
        · exact missing 0 p n rest he
        · exact file 0 p n rest he
        · exact dir 0 p n rest he (ih (p ++ [n]))
        · exact stuck p n rest absolute target he
  | succ links ihLinks =>
    induction steps generalizing p with
    | nil => exact here (links + 1) p
    | cons s rest ih =>
      cases s with
      | stay => exact stay (links + 1) p rest (ih p)
      | up => exact up (links + 1) p rest (ih p.dropLast)
      | into n =>
        rcases he : t.entry (p ++ [n]) with _ | _ | _ | ⟨absolute, target⟩
        · exact missing (links + 1) p n rest he
        · exact file (links + 1) p n rest he
        · exact dir (links + 1) p n rest he (ih (p ++ [n]))
        · exact link links p n rest absolute target he (ihLinks _ _)

/-- What a path resolves to is where it leads. -/
theorem settles_of_resolveLinks (h : t.resolveLinks links p steps = some q) : t.Settles p steps q := by
  induction links, p, steps using resolveLinks_induct (t := t) with
  | here links p =>
    rw [resolveLinks_nil] at h
    cases h
    exact .here _
  | stay links p rest ih =>
    rw [resolveLinks_stay] at h
    exact .stay (ih h)
  | up links p rest ih =>
    rw [resolveLinks_up] at h
    exact .up (ih h)
  | missing links p n rest he =>
    rw [resolveLinks_none he] at h
    cases h
  | file links p n rest he =>
    rw [resolveLinks_file he] at h
    split at h
    case isTrue hrest =>
      cases h
      subst hrest
      exact .into (Plain.not_link (.inl he)) (.here _)
    case isFalse => cases h
  | dir links p n rest he ih =>
    rw [resolveLinks_dir he] at h
    exact .into (Plain.not_link (.inr he)) (ih h)
  | stuck p n rest absolute target he =>
    rw [resolveLinks_link_zero he] at h
    cases h
  | link links p n rest absolute target he ih =>
    rw [resolveLinks_link he] at h
    exact .link he (ih h)

/-- From a directory a path resolves to no link. -/
theorem plain_of_resolveLinks (hp : t.entry p = some .dir) (h : t.resolveLinks links p steps = some q) : t.Plain q := by
  induction links, p, steps using resolveLinks_induct (t := t) with
  | here links p =>
    rw [resolveLinks_nil] at h
    cases h
    exact .inr hp
  | stay links p rest ih =>
    rw [resolveLinks_stay] at h
    exact ih hp h
  | up links p rest ih =>
    rw [resolveLinks_up] at h
    exact ih (dir_dropLast hp) h
  | missing links p n rest he =>
    rw [resolveLinks_none he] at h
    cases h
  | file links p n rest he =>
    rw [resolveLinks_file he] at h
    split at h
    case isTrue hrest =>
      cases h
      exact .inl he
    case isFalse => cases h
  | dir links p n rest he ih =>
    rw [resolveLinks_dir he] at h
    exact ih he h
  | stuck p n rest absolute target he =>
    rw [resolveLinks_link_zero he] at h
    cases h
  | link links p n rest absolute target he ih =>
    rw [resolveLinks_link he] at h
    cases absolute with
    | true => exact ih t.top h
    | false => exact ih hp h

/-- Steps that lead to a directory can be taken first. -/
theorem resolveLinks_append (h : t.resolveLinks links p steps = some d) (hd : t.entry d = some .dir)
    (rest : List (PathStep ν)) : ∃ left, t.resolveLinks links p (steps ++ rest) = t.resolveLinks left d rest := by
  induction links, p, steps using resolveLinks_induct (t := t) with
  | here links p =>
    rw [resolveLinks_nil] at h
    cases h
    exact ⟨links, rfl⟩
  | stay links p steps ih =>
    rw [resolveLinks_stay] at h
    rw [List.cons_append, resolveLinks_stay]
    exact ih h
  | up links p steps ih =>
    rw [resolveLinks_up] at h
    rw [List.cons_append, resolveLinks_up]
    exact ih h
  | missing links p n steps he =>
    rw [resolveLinks_none he] at h
    cases h
  | file links p n steps he =>
    rw [resolveLinks_file he] at h
    split at h
    case isTrue hrest =>
      cases h
      rw [he] at hd
      cases hd
    case isFalse => cases h
  | dir links p n steps he ih =>
    rw [resolveLinks_dir he] at h
    rw [List.cons_append, resolveLinks_dir he]
    exact ih h
  | stuck p n steps absolute target he =>
    rw [resolveLinks_link_zero he] at h
    cases h
  | link links p n steps absolute target he ih =>
    rw [resolveLinks_link he] at h
    rw [List.cons_append, resolveLinks_link he, ← List.append_assoc]
    exact ih h

/-- Names that cross no link are taken as they are. -/
theorem resolveLinks_plain (h : t.Plain (p ++ ns)) : t.resolveLinks links p (ns.map .into) = some (p ++ ns) := by
  induction ns generalizing p with
  | nil => rw [List.map_nil, resolveLinks_nil, List.append_nil]
  | cons n ns ih =>
    rw [List.append_cons] at h ⊢
    rw [List.map_cons]
    rcases h.of_append with hn | hn
    · have hns : ns = [] := by
        by_contra hns
        rcases h with he | he
        · rw [dir_of_append hns he] at hn
          cases hn
        · rw [dir_of_append hns he] at hn
          cases hn
      rw [resolveLinks_file hn, hns, List.map_nil, if_pos rfl, List.append_nil]
    · rw [resolveLinks_dir hn]
      exact ih h

/-! ## Where paths lead -/

theorem Settles.unique {q' : List ν} (h : t.Settles p steps q) (h' : t.Settles p steps q') : q = q' := by
  induction h with
  | here p =>
    cases h'
    rfl
  | stay _ ih =>
    cases h' with
    | stay h' => exact ih h'
  | up _ ih =>
    cases h' with
    | up h' => exact ih h'
  | into hne _ ih =>
    cases h' with
    | into _ h' => exact ih h'
    | link he _ => exact absurd he (hne _ _)
  | link he _ ih =>
    cases h' with
    | into hne _ => exact absurd he (hne _ _)
    | link he' h' =>
      rw [he] at he'
      cases he'
      exact ih h'

theorem Settles.of_plain (h : t.Plain (p ++ ns)) : t.Settles p (ns.map .into) (p ++ ns) :=
  settles_of_resolveLinks (resolveLinks_plain h : t.resolveLinks 0 p (ns.map .into) = some (p ++ ns))

end FileTree

end Hayven.Lib
