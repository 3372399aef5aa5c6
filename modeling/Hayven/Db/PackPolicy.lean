import Hayven.Db.PackGate
/-!
# Names the gate admits

The gate cuts a path at slashes and backslashes, a disk only at slashes. What it admits has
no hidden, pruned or denied name all the same, up to names that a backslash ends or cuts off
from a denied start: `admissibleNames_of_policy`. Of what the walker yields it admits the paths
whose pieces between backslashes are admissible too: `isIndexerAdmissible_of_language`.
-/
open Hayven.Lib Hayven.Native Hayven.Graph

namespace Hayven.Db.Pack

/-! ## Extensions -/

theorem extension_append {b ext : JsString} (hb : b ≠ []) (hext : dot ∉ ext) : extension (b ++ dot :: ext) = some ext := by
  obtain ⟨u, b, rfl⟩ := List.exists_cons_of_ne_nil hb
  rw [extension, lastIndexOf_append_cons _ hext]
  show some (((u :: b) ++ dot :: ext).drop (b.length + 2)) = some ext
  rw [List.append_cons, List.drop_append_of_le_length (by simp), List.drop_of_length_le (by simp), List.nil_append]

theorem extension_eq_some {name ext : JsString} :
    extension name = some ext ↔ ∃ b, b ≠ [] ∧ name = b ++ dot :: ext ∧ dot ∉ ext := by
  constructor
  · intro h
    by_cases hdot : dot ∈ name
    · obtain ⟨b, e, rfl, he⟩ := exists_last_mark hdot
      by_cases hb : b = []
      · subst hb
        rw [extension, lastIndexOf_append_cons _ he] at h
        cases h
      · rw [extension_append hb he] at h
        cases h
        exact ⟨b, hb, rfl, he⟩
    · rw [extension, lastIndexOf_of_not_mem hdot] at h
      cases h
  · rintro ⟨b, hb, rfl, hext⟩
    exact extension_append hb hext

/-- The language of a file by its name. -/
def languageOf (name : JsString) : Option Language :=
  (extension name).bind fun ext => Language.fromExtension (Cli.toLowerCase ext)

theorem fromExtension_isSome_iff {ext : JsString} : (Language.fromExtension ext).isSome ↔ ext ∈ SOURCE_EXTENSIONS := by
  constructor
  · intro h
    by_contra hne
    simp only [SOURCE_EXTENSIONS, List.map_cons, List.map_nil, List.mem_cons, not_or] at hne
    obtain ⟨h1, h2, h3, h4, h5, h6, h7, h8, h9, h10, h11, h12, -⟩ := hne
    simp [Language.fromExtension, h1, h2, h3, h4, h5, h6, h7, h8, h9, h10, h11, h12] at h
  · have hall : ∀ e ∈ SOURCE_EXTENSIONS, (Language.fromExtension e).isSome := by decide +kernel
    exact hall ext

/-! ## Lower case -/

/-- Units of the lower case that stand for themselves or their capital only. -/
def Solid (v : UInt16) : Prop := v < 0x80 ∧ v ≠ 0x69 ∧ v ≠ 0x6B

instance (v : UInt16) : Decidable (Solid v) := inferInstanceAs (Decidable (_ ∧ _ ∧ _))

theorem asciiLower_eq_iff {u v : UInt16} (hv : v < 0x41 ∨ 0x5A < v ∧ v < 0x61) : Cli.asciiLower u = v ↔ u = v := by
  have h41 : (0x41 : UInt16).toNat = 65 := rfl
  have h5A : (0x5A : UInt16).toNat = 90 := rfl
  have h61 : (0x61 : UInt16).toNat = 97 := rfl
  have h20 : (0x20 : UInt16).toNat = 32 := rfl
  unfold Cli.asciiLower
  rw [UInt16.lt_iff_toNat_lt, UInt16.lt_iff_toNat_lt, UInt16.lt_iff_toNat_lt] at hv
  split
  case isTrue h =>
    rw [Bool.and_eq_true, decide_eq_true_eq, decide_eq_true_eq, UInt16.le_iff_toNat_le, UInt16.le_iff_toNat_le] at h
    constructor
    · rintro rfl
      rw [UInt16.toNat_add] at hv
      omega
    · rintro rfl
      omega
  case isFalse => exact Iff.rfl

theorem LowerImage.ne_nil {u : UInt16} {image : JsString} (h : LowerImage u image) : image ≠ [] := by
  by_cases hu : u < 0x80
  · rw [h.1 hu]
    exact List.cons_ne_nil _ _
  · exact (h.2 (UInt16.not_lt.1 hu)).1

theorem LowerImage.of_solid {u v : UInt16} {image : JsString} (h : LowerImage u image) (hv : v ∈ image) (hsolid : Solid v) :
    image = [Cli.asciiLower u] ∧ v = Cli.asciiLower u := by
  by_cases hu : u < 0x80
  · have himage := h.1 hu
    rw [himage, List.mem_singleton] at hv
    exact ⟨himage, hv⟩
  · rcases (h.2 (UInt16.not_lt.1 hu)).2 v hv hsolid.1 with heq | heq
    · exact absurd heq hsolid.2.1
    · exact absurd heq hsolid.2.2

section LowerCase
variable (lower : LowerCase)

theorem images_flatten_eq_nil {s : JsString} {images : List JsString} (h : List.Forall₂ LowerImage s images) :
    images.flatten = [] ↔ s = [] := by
  cases h with
  | nil => simp
  | cons himage _ => simp [himage.ne_nil]

/-- The images of the units before a solid end are what stands before its lower case. -/
theorem images_split {s : JsString} {images : List JsString} (h : List.Forall₂ LowerImage s images) {b tail : JsString}
    (heq : images.flatten = b ++ tail) (htail : ∀ v ∈ tail, Solid v) :
    ∃ s₁ s₂, s = s₁ ++ s₂ ∧ Cli.toLowerCase s₂ = tail ∧ (b = [] ↔ s₁ = []) := by
  induction tail using List.reverseRecOn generalizing s images with
  | nil =>
    rw [List.append_nil] at heq
    refine ⟨s, [], (List.append_nil s).symm, rfl, ?_⟩
    rw [← heq]
    exact images_flatten_eq_nil h
  | append_singleton tail v ih =>
    have hne : images ≠ [] := by
      rintro rfl
      rw [← List.append_assoc] at heq
      exact absurd heq.symm (by simp)
    obtain ⟨images, image, rfl⟩ := (List.eq_nil_or_concat images).resolve_left hne
    rw [List.concat_eq_append] at h heq
    have hinit := List.forall₂_take_append _ _ _ h
    have hlast := List.forall₂_drop_append _ _ _ h
    obtain ⟨u, hu, himage⟩ : ∃ u, s.drop images.length = [u] ∧ LowerImage u image := by
      cases hs : s.drop images.length with
      | nil =>
        rw [hs] at hlast
        cases hlast
      | cons u rest =>
        rw [hs] at hlast
        cases hlast with
        | cons himage hrest =>
          cases hrest
          exact ⟨u, rfl, himage⟩
    have hsplit := List.take_append_drop images.length s
    rw [hu] at hsplit
    obtain ⟨image, w, rfl⟩ := (List.eq_nil_or_concat image).resolve_left himage.ne_nil
    rw [List.concat_eq_append] at himage
    have hw : w = v := by
      rw [List.flatten_append, List.flatten_singleton, List.concat_eq_append, ← List.append_assoc, ← List.append_assoc] at heq
      exact List.head_eq_of_cons_eq (List.append_inj_right' heq rfl)
    subst hw
    obtain ⟨hone, hw⟩ := himage.of_solid (List.mem_append_right _ List.mem_cons_self)
      (htail w (List.mem_append_right _ List.mem_cons_self))
    have hnil : image = [] := by
      have hlen := congrArg List.length hone
      simpa using hlen
    have hflat : images.flatten = b ++ tail := by
      rw [List.flatten_append, List.flatten_singleton, List.concat_eq_append, hnil, List.nil_append, ← List.append_assoc] at heq
      exact List.append_inj_left' heq rfl
    obtain ⟨s₁, s₂, hs, hs₂, hb⟩ := ih hinit hflat fun x hx => htail x (List.mem_append_left _ hx)
    refine ⟨s₁, s₂ ++ [u], by rw [← hsplit, hs, List.append_assoc], ?_, hb⟩
    rw [← hs₂, hw]
    simp [Cli.toLowerCase]

theorem exists_of_toLowerCase_eq {s b tail : JsString} (heq : lower.toLowerCase s = b ++ tail)
    (htail : ∀ v ∈ tail, Solid v) : ∃ s₁ s₂, s = s₁ ++ s₂ ∧ Cli.toLowerCase s₂ = tail ∧ (b = [] ↔ s₁ = []) := by
  obtain ⟨images, himages, hlower⟩ := lower.images s
  exact images_split himages (hlower ▸ heq) htail

/-- An ASCII end is lowered letter by letter whatever stands before it. -/
theorem toLowerCase_append (s : JsString) {tail : JsString} (htail : ∀ u ∈ tail, u < 0x80) :
    ∃ b, lower.toLowerCase (s ++ tail) = b ++ Cli.toLowerCase tail ∧ (b = [] ↔ s = []) := by
  obtain ⟨images, himages, heq⟩ := lower.images (s ++ tail)
  have hinit := List.forall₂_take_append _ _ _ himages.flip
  have hlast := List.forall₂_drop_append _ _ _ himages.flip
  have hascii : ∀ {tail : JsString} {images : List JsString}, (∀ u ∈ tail, u < 0x80) →
      List.Forall₂ (flip LowerImage) images tail → images.flatten = Cli.toLowerCase tail := by
    intro tail images htail h
    induction h with
    | nil => rfl
    | @cons image u images tail himage hrest ih =>
      rw [List.flatten_cons, ih fun x hx => htail x (List.mem_cons_of_mem _ hx), himage.1 (htail u List.mem_cons_self)]
      rfl
  refine ⟨(images.take s.length).flatten, ?_, images_flatten_eq_nil hinit.flip⟩
  rw [heq, ← hascii htail hlast, ← List.flatten_append, List.take_append_drop]

theorem mem_toLowerCase_iff {s : JsString} {v : UInt16} (hv : Solid v) (hlow : v < 0x41 ∨ 0x5A < v ∧ v < 0x61) :
    v ∈ lower.toLowerCase s ↔ v ∈ s := by
  obtain ⟨images, himages, heq⟩ := lower.images s
  rw [heq]
  clear heq
  induction himages with
  | nil => simp
  | @cons u image s images himage _ ih =>
    rw [List.flatten_cons, List.mem_append, ih, List.mem_cons]
    apply or_congr_left
    constructor
    · intro hmem
      exact ((asciiLower_eq_iff hlow).1 (himage.of_solid hmem hv).2.symm).symm
    · rintro rfl
      rw [himage.1 hv.1, (asciiLower_eq_iff hlow).2 rfl]
      exact List.mem_singleton.2 rfl

theorem head_of_toLowerCase {s : JsString} (h : (lower.toLowerCase s).head? = some dot) : s.head? = some dot := by
  obtain ⟨images, himages, heq⟩ := lower.images s
  rw [heq] at h
  cases himages with
  | nil => cases h
  | @cons u image s images himage _ =>
    obtain ⟨w, image, rfl⟩ := List.exists_cons_of_ne_nil himage.ne_nil
    rw [List.flatten_cons, List.cons_append, List.head?_cons, Option.some.injEq] at h
    have hw := (himage.of_solid List.mem_cons_self (h ▸ by decide : Solid w)).2
    rw [h] at hw
    rw [List.head?_cons, (asciiLower_eq_iff (by decide)).1 hw.symm]

end LowerCase

/-! ## Source extensions -/

theorem solid_of_source {ext : JsString} (h : ext ∈ SOURCE_EXTENSIONS) : ∀ v ∈ ext, Solid v := by
  have hall : ∀ ext ∈ SOURCE_EXTENSIONS, ∀ v ∈ ext, Solid v := by decide +kernel
  exact hall ext h

theorem dot_not_mem_of_source {ext : JsString} (h : ext ∈ SOURCE_EXTENSIONS) : dot ∉ ext := by
  have hall : ∀ ext ∈ SOURCE_EXTENSIONS, dot ∉ ext := by decide +kernel
  exact hall ext h

theorem plain_of_source {ext : JsString} (h : Cli.toLowerCase ext ∈ SOURCE_EXTENSIONS) :
    ext ≠ [] ∧ dot ∉ ext ∧ (∀ u ∈ ext, isSeparator u = false) ∧ ∀ u ∈ ext, u < 0x80 := by
  have hall : ∀ e ∈ SOURCE_EXTENSIONS, e ≠ [] ∧ ∀ v ∈ e, 0x61 ≤ v ∧ v < 0x80 := by decide +kernel
  obtain ⟨hne, hunits⟩ := hall _ h
  have hunit : ∀ u ∈ ext, 0x41 ≤ u ∧ u < 0x80 ∧ u ≠ backslash := by
    intro u hu
    obtain ⟨hlow, hhigh⟩ := hunits (Cli.asciiLower u) (List.mem_map.2 ⟨u, hu, rfl⟩)
    unfold Cli.asciiLower at hlow hhigh
    split at hlow
    case isTrue hcase =>
      rw [Bool.and_eq_true, decide_eq_true_eq, decide_eq_true_eq] at hcase
      refine ⟨hcase.1, UInt16.lt_of_le_of_lt hcase.2 (by decide : (0x5A : UInt16) < 0x80), ?_⟩
      rintro rfl
      exact absurd hcase.2 (by decide)
    case isFalse hcase =>
      rw [if_neg hcase] at hhigh
      refine ⟨UInt16.le_trans (by decide : (0x41 : UInt16) ≤ 0x61) hlow, hhigh, ?_⟩
      rintro rfl
      exact absurd hlow (by decide)
  refine ⟨?_, ?_, ?_, fun u hu => (hunit u hu).2.1⟩
  · rintro rfl
    exact hne rfl
  · intro hdot
    exact absurd (hunit dot hdot).1 (by decide)
  · intro u hu
    unfold isSeparator
    rw [Bool.or_eq_false_iff, decide_eq_false_iff_not, decide_eq_false_iff_not]
    refine ⟨?_, (hunit u hu).2.2⟩
    rintro rfl
    exact absurd (hunit slash hu).1 (by decide)

/-- Lowered whole, a name has a source extension exactly if the walker sees a language in it. -/
theorem source_extension_iff (lower : LowerCase) (name : JsString) :
    (extension (lower.toLowerCase name)).any SOURCE_EXTENSIONS.contains = true ↔ (languageOf name).isSome := by
  rw [Option.any_eq_true]
  constructor
  · rintro ⟨ext, hext, hsource⟩
    rw [List.contains_iff_mem] at hsource
    obtain ⟨b, hb, heq, hdot⟩ := extension_eq_some.1 hext
    obtain ⟨s₁, s₂, rfl, hs₂, hnil⟩ := exists_of_toLowerCase_eq lower heq (by
      intro v hv
      rcases List.mem_cons.1 hv with rfl | hv
      · decide
      · exact solid_of_source hsource v hv)
    obtain ⟨u, e, rfl, hu, he⟩ := List.map_eq_cons_iff.1 hs₂
    have hu := (asciiLower_eq_iff (by decide)).1 hu
    subst hu
    have hlower : Cli.toLowerCase e = ext := he
    rw [languageOf, extension_append (fun h => hb (hnil.2 h)) (plain_of_source (hlower ▸ hsource)).2.1]
    show (Language.fromExtension (Cli.toLowerCase e)).isSome
    rw [hlower]
    exact fromExtension_isSome_iff.2 hsource
  · intro h
    rw [languageOf] at h
    cases hext : extension name with
    | none =>
      rw [hext] at h
      cases h
    | some e =>
      rw [hext] at h
      have hsource := fromExtension_isSome_iff.1 h
      obtain ⟨-, -, -, hascii⟩ := plain_of_source hsource
      obtain ⟨b, hb, rfl, -⟩ := extension_eq_some.1 hext
      have hend : ∀ u ∈ dot :: e, u < 0x80 := by
        intro u hu
        rcases List.mem_cons.1 hu with rfl | hu
        · decide
        · exact hascii u hu
      obtain ⟨front, heq, hnil⟩ := toLowerCase_append lower b hend
      refine ⟨Cli.toLowerCase e, ?_, List.contains_iff_mem.2 hsource⟩
      rw [heq]
      exact extension_append (fun h => hb (hnil.1 h)) (dot_not_mem_of_source hsource)

/-! ## Pieces -/

theorem pathPieces_append_cons (a b : JsString) {u : UInt16} (hu : isSeparator u = true) :
    pathPieces (a ++ u :: b) = pathPieces a ++ pathPieces b := by
  rw [pathPieces, List.splitOnP_append_cons a b hu, List.filter_append]
  rfl

theorem pathPieces_of_clean {s : JsString} (hne : s ≠ []) (h : ∀ u ∈ s, isSeparator u = false) : pathPieces s = [s] := by
  rw [pathPieces, List.splitOnP_eq_singleton h]
  simp [hne]

theorem pathPieces_intercalate {names : List JsString} (hne : names ≠ []) :
    pathPieces ([slash].intercalate names) = names.flatMap pathPieces := by
  induction names with
  | nil => exact absurd rfl hne
  | cons n names ih =>
    by_cases hnames : names = []
    · subst hnames
      simp
    · rw [List.intercalate_cons_of_ne_nil hnames, List.append_assoc, List.singleton_append,
        pathPieces_append_cons n _ (by decide), ih hnames, List.flatMap_cons]

/-- The first piece starts as the name does. -/
theorem exists_first_piece {u : UInt16} (hu : isSeparator u = false) (s : JsString) :
    ∃ piece ∈ pathPieces (u :: s), piece.head? = some u := by
  obtain ⟨first, rest, hcut⟩ := List.exists_cons_of_ne_nil (List.splitOnP_ne_nil isSeparator s)
  refine ⟨u :: first, ?_, rfl⟩
  rw [pathPieces, List.splitOnP_cons_eq_if_modifyHead, if_neg (by simp [hu]), hcut, List.modifyHead_cons]
  simp

/-- The last piece of a text whose end no separator cuts. -/
theorem getLast_pathPieces (b : JsString) {tail : JsString} (hne : tail ≠ []) (h : ∀ u ∈ tail, isSeparator u = false) :
    ∃ b₁ b₂, b = b₁ ++ b₂ ∧ (pathPieces (b ++ tail)).getLast? = some (b₂ ++ tail) := by
  induction b using List.reverseRecOn generalizing tail with
  | nil => exact ⟨[], [], rfl, by rw [List.nil_append, pathPieces_of_clean hne h]; rfl⟩
  | append_singleton b u ih =>
    rw [List.append_assoc, List.singleton_append]
    by_cases hu : isSeparator u = true
    · refine ⟨b ++ [u], [], (List.append_nil _).symm, ?_⟩
      rw [pathPieces_append_cons b tail hu, pathPieces_of_clean hne h, List.getLast?_append]
      rfl
    · rw [Bool.not_eq_true] at hu
      have hclean : ∀ v ∈ u :: tail, isSeparator v = false := by
        intro v hv
        rcases List.mem_cons.1 hv with rfl | hv
        · exact hu
        · exact h v hv
      obtain ⟨b₁, b₂, rfl, hlast⟩ := ih (List.cons_ne_nil u tail) hclean
      exact ⟨b₁, b₂ ++ [u], by rw [List.append_assoc], by rw [hlast, List.append_assoc, List.singleton_append]⟩

theorem getLast_flatMap_pieces {names : List JsString} {last piece : JsString} (hlast : names.getLast? = some last)
    (h : (pathPieces last).getLast? = some piece) : (names.flatMap pathPieces).getLast? = some piece := by
  obtain ⟨init, rfl⟩ := List.getLast?_eq_some_iff.1 hlast
  rw [List.flatMap_append, List.flatMap_singleton, List.getLast?_append, h]
  rfl

/-! ## The two checks -/

/-- What the denylist says of a last name. -/
structure AllowedName (lower : LowerCase) (name : JsString) : Prop where
  dirs : lower.toLowerCase name ∉ DENIED_DIR_SEGMENTS
  basenames : lower.toLowerCase name ∉ DENIED_BASENAMES
  prefixes : ∀ p ∈ DENIED_BASENAME_PREFIXES, lower.toLowerCase name ≠ p ∧ ¬ (p ++ [dot]) <+: lower.toLowerCase name
  extensions : ∀ e ∈ DENIED_EXTENSIONS, ¬ e <:+ lower.toLowerCase name

theorem deniedParts_concat (lower : LowerCase) (init : List JsString) (last : JsString) :
    deniedParts lower (init ++ [last]) = false ↔
      (∀ d ∈ init, lower.toLowerCase d ∉ DENIED_DIR_SEGMENTS) ∧ AllowedName lower last := by
  have hname : (DENIED_DIR_SEGMENTS.contains (lower.toLowerCase last) || DENIED_BASENAMES.contains (lower.toLowerCase last) ||
      DENIED_BASENAME_PREFIXES.any (fun p => lower.toLowerCase last = p || (p ++ [dot]).isPrefixOf (lower.toLowerCase last)) ||
      DENIED_EXTENSIONS.any (·.isSuffixOf (lower.toLowerCase last))) = false ↔ AllowedName lower last := by
    simp only [← Bool.not_eq_true, Bool.or_eq_true, List.any_eq_true, not_or, not_exists, not_and, decide_eq_true_eq,
      List.isPrefixOf_iff_prefix, List.isSuffixOf_iff_suffix, List.contains_iff_mem]
    exact ⟨fun ⟨⟨⟨h1, h2⟩, h3⟩, h4⟩ => ⟨h1, h2, h3, h4⟩, fun ⟨h1, h2, h3, h4⟩ => ⟨⟨⟨h1, h2⟩, h3⟩, h4⟩⟩
  have hdirs : (init.any fun part => DENIED_DIR_SEGMENTS.contains (lower.toLowerCase part)) = true ↔
      ¬ ∀ d ∈ init, lower.toLowerCase d ∉ DENIED_DIR_SEGMENTS := by
    simp only [List.any_eq_true, List.contains_iff_mem, not_forall, not_not, exists_prop]
  unfold deniedParts
  rw [if_neg (by simp), List.dropLast_concat]
  show (if _ then true else _) = false ↔ _
  by_cases hinit : ∀ d ∈ init, lower.toLowerCase d ∉ DENIED_DIR_SEGMENTS
  · rw [if_neg (fun h => hdirs.1 h hinit), List.getLast?_concat]
    show (_ || _) = false ↔ _
    rw [Option.getD_some, hname]
    exact (and_iff_right hinit).symm
  · rw [if_pos (hdirs.2 hinit)]
    exact ⟨fun h => absurd h (by decide), fun h => absurd h.1 hinit⟩

theorem isIndexerAdmissible_iff (lower : LowerCase) (rel : JsString) :
    isIndexerAdmissible lower rel = true ↔ (∀ part ∈ pathPieces rel, part.head? ≠ some dot ∧ part ∉ ALWAYS_SKIP_DIR_SEGMENTS) ∧
      ∃ last, (pathPieces rel).getLast? = some last ∧ (languageOf last).isSome := by
  have hparts : ((pathPieces rel).any fun part => part.head? = some dot || ALWAYS_SKIP_DIR_SEGMENTS.contains part) = true ↔
      ¬ ∀ part ∈ pathPieces rel, part.head? ≠ some dot ∧ part ∉ ALWAYS_SKIP_DIR_SEGMENTS := by
    simp only [List.any_eq_true, Bool.or_eq_true, decide_eq_true_eq, List.contains_iff_mem, not_forall, not_and_or, not_not,
      exists_prop]
  unfold isIndexerAdmissible
  by_cases hnil : pathPieces rel = []
  · rw [if_pos hnil, hnil]
    simp
  · obtain ⟨last, hlast⟩ : ∃ last, (pathPieces rel).getLast? = some last := ⟨_, List.getLast?_eq_some_getLast hnil⟩
    rw [if_neg hnil]
    show (if _ then false else _) = true ↔ _
    by_cases hall : ∀ part ∈ pathPieces rel, part.head? ≠ some dot ∧ part ∉ ALWAYS_SKIP_DIR_SEGMENTS
    · rw [if_neg (fun h => hparts.1 h hall), hlast, Option.getD_some, source_extension_iff]
      constructor
      · exact fun h => ⟨hall, last, rfl, h⟩
      · rintro ⟨-, _, hsome, h⟩
        cases hsome
        exact h
    · rw [if_pos (hparts.2 hall)]
      exact ⟨fun h => absurd h (by decide), fun h => absurd h.1 hall⟩

/-! ## The names of a path -/

/-- No name is hidden, pruned or denied, and the last one has a source extension. -/
structure AdmissibleNames (lower : LowerCase) (names : List JsString) : Prop where
  visible : ∀ n ∈ names, n.head? ≠ some dot
  unpruned : ∀ n ∈ names, n ∉ ALWAYS_SKIP_DIR_SEGMENTS
  allowed : deniedParts lower names = false
  source : ∃ last, names.getLast? = some last ∧ (languageOf last).isSome

/-- No backslash ends the name, nor cuts it off from a denied start. -/
structure UncutName (lower : LowerCase) (name : JsString) : Prop where
  ended : name.getLast? ≠ some backslash
  started : backslash ∈ name → ∀ p ∈ DENIED_BASENAME_PREFIXES, ¬ (p ++ [dot]) <+: lower.toLowerCase name

theorem clean_of_segment {n : JsString} (hn : Segment n) (h : backslash ∉ n) : ∀ u ∈ n, isSeparator u = false := by
  intro u hu
  unfold isSeparator
  rw [Bool.or_eq_false_iff, decide_eq_false_iff_not, decide_eq_false_iff_not]
  exact ⟨fun heq => hn.2.1 (heq ▸ hu), fun heq => h (heq ▸ hu)⟩

section Names
variable {lower : LowerCase} {names : List JsString}

/-- A name without a dot in front is in no denied directory's place. -/
theorem not_deniedDir {n : JsString} (h : n.head? ≠ some dot) : lower.toLowerCase n ∉ DENIED_DIR_SEGMENTS := by
  have hall : ∀ d ∈ DENIED_DIR_SEGMENTS, d.head? = some dot := by decide +kernel
  exact fun hmem => h (head_of_toLowerCase lower (hall _ hmem))

/-- A source extension is no denied one. -/
theorem not_deniedExtension {n : JsString} (h : (languageOf n).isSome) {e : JsString} (he : e ∈ DENIED_EXTENSIONS) :
    ¬ e <:+ lower.toLowerCase n := by
  rintro ⟨front, heq⟩
  have hall : ∀ e ∈ DENIED_EXTENSIONS, e.head? = some dot ∧ dot ∉ e.drop 1 ∧ e.drop 1 ∉ SOURCE_EXTENSIONS := by
    decide +kernel
  obtain ⟨hhead, hdot, hsource⟩ := hall e he
  obtain ⟨ext, hext, hmem⟩ := (Option.any_eq_true _ _).1 ((source_extension_iff lower n).2 h)
  obtain ⟨b, -, hlower, hdotext⟩ := extension_eq_some.1 hext
  obtain ⟨e, rfl⟩ : ∃ tail, e = dot :: tail := by
    cases e with
    | nil => cases hhead
    | cons u tail =>
      rw [List.head?_cons, Option.some.injEq] at hhead
      exact ⟨tail, by rw [hhead]⟩
  rw [List.drop_one, List.tail_cons] at hdot hsource
  -- both are what follows the last dot
  have hsame : e = ext := by
    have hfirst := lastIndexOf_append_cons front hdot
    have hsecond := lastIndexOf_append_cons b hdotext
    rw [heq, hlower, hsecond, Option.some.injEq] at hfirst
    rw [hlower] at heq
    exact (List.cons.inj (List.append_inj_right heq hfirst.symm)).2
  exact hsource (hsame ▸ List.contains_iff_mem.1 hmem)

theorem languageOf_append {z : JsString} (front : JsString) (h : (languageOf z).isSome) : (languageOf (front ++ z)).isSome := by
  rw [languageOf] at h ⊢
  cases hext : extension z with
  | none =>
    rw [hext] at h
    cases h
  | some e =>
    rw [hext] at h
    obtain ⟨b, hb, rfl, hdot⟩ := extension_eq_some.1 hext
    rw [← List.append_assoc, extension_append (by simp [hb]) hdot]
    exact h

/-- The end of a name that the walker takes: a dot and an extension that no separator cuts. -/
theorem exists_extension {n : JsString} (h : (languageOf n).isSome) : ∃ b e, b ≠ [] ∧ n = b ++ dot :: e ∧ dot ∉ e ∧
    e ≠ [] ∧ (∀ u ∈ dot :: e, isSeparator u = false) ∧ (Language.fromExtension (Cli.toLowerCase e)).isSome := by
  rw [languageOf] at h
  cases hext : extension n with
  | none =>
    rw [hext] at h
    cases h
  | some e =>
    rw [hext] at h
    obtain ⟨b, hb, heq, hdot⟩ := extension_eq_some.1 hext
    obtain ⟨hne, -, hclean, -⟩ := plain_of_source (fromExtension_isSome_iff.1 h)
    refine ⟨b, e, hb, heq, hdot, hne, ?_, h⟩
    intro u hu
    rcases List.mem_cons.1 hu with rfl | hu
    · decide
    · exact hclean u hu

/-- Of a path that passes both checks, the names are admissible exactly if the last one is not cut. -/
theorem admissibleNames_iff (hnames : ∀ n ∈ names, Segment n) {last : JsString} (hlast : names.getLast? = some last)
    (hdenied : isDeniedRepoPath lower ([slash].intercalate names) = false)
    (hadmissible : isIndexerAdmissible lower ([slash].intercalate names) = true) :
    AdmissibleNames lower names ↔ UncutName lower last := by
  obtain ⟨init, rfl⟩ := List.getLast?_eq_some_iff.1 hlast
  have hpieces := pathPieces_intercalate (by simp : init ++ [last] ≠ [])
  rw [isDeniedRepoPath, hpieces] at hdenied
  obtain ⟨hparts, piece, hpiece, hlanguage⟩ := (isIndexerAdmissible_iff lower _).1 hadmissible
  rw [hpieces] at hparts hpiece
  have hsegment := hnames last (by simp)
  constructor
  · intro h
    obtain ⟨_, hsome, hsource⟩ := h.source
    rw [List.getLast?_concat, Option.some.injEq] at hsome
    subst hsome
    obtain ⟨b, e, -, heq, -, hne, hclean, -⟩ := exists_extension hsource
    refine ⟨?_, fun _ p hp => ((deniedParts_concat lower init last).1 h.allowed).2.prefixes p hp |>.2⟩
    intro hend
    rw [heq, List.getLast?_append] at hend
    have hmem : backslash ∈ dot :: e := by
      rw [List.getLast?_cons, Option.some_or, Option.some.injEq] at hend
      cases hlastE : e.getLast? with
      | none => exact absurd (List.getLast?_eq_none_iff.1 hlastE) hne
      | some u =>
        rw [hlastE, Option.getD_some] at hend
        exact List.mem_cons_of_mem _ (hend ▸ List.mem_of_getLast? hlastE)
    exact absurd (hclean backslash hmem) (by decide)
  · intro h
    have hvisible : ∀ n ∈ init ++ [last], n.head? ≠ some dot := by
      intro n hn hhead
      cases n with
      | nil => cases hhead
      | cons u n =>
        rw [List.head?_cons, Option.some.injEq] at hhead
        subst hhead
        obtain ⟨first, hfirst, hdot⟩ := exists_first_piece (u := dot) (by decide) n
        exact (hparts first (List.mem_flatMap.2 ⟨_, hn, hfirst⟩)).1 hdot
    have hunpruned : ∀ n ∈ init ++ [last], n ∉ ALWAYS_SKIP_DIR_SEGMENTS := by
      intro n hn hskip
      have hall : ∀ d ∈ ALWAYS_SKIP_DIR_SEGMENTS, d ≠ [] ∧ ∀ u ∈ d, isSeparator u = false := by decide +kernel
      obtain ⟨hne, hclean⟩ := hall n hskip
      have hmem : n ∈ pathPieces n := by
        rw [pathPieces_of_clean hne hclean]
        exact List.mem_singleton.2 rfl
      exact (hparts n (List.mem_flatMap.2 ⟨n, hn, hmem⟩)).2 hskip
    have hsource : (languageOf last).isSome := by
      obtain ⟨b, u, rfl⟩ := (List.eq_nil_or_concat last).resolve_left hsegment.1
      rw [List.concat_eq_append] at h hsegment hpiece ⊢
      have hclean : ∀ v ∈ [u], isSeparator v = false := by
        intro v hv
        rw [List.mem_singleton.1 hv]
        unfold isSeparator
        rw [Bool.or_eq_false_iff, decide_eq_false_iff_not, decide_eq_false_iff_not]
        refine ⟨?_, ?_⟩
        · rintro rfl
          exact hsegment.2.1 (by simp)
        · rintro rfl
          exact h.ended (by simp)
      obtain ⟨b₁, b₂, rfl, hend⟩ := getLast_pathPieces b (List.cons_ne_nil u []) hclean
      rw [getLast_flatMap_pieces (by simp) hend, Option.some.injEq] at hpiece
      rw [List.append_assoc]
      exact languageOf_append b₁ (hpiece ▸ hlanguage)
    refine ⟨hvisible, hunpruned, (deniedParts_concat lower init last).2 ⟨?_, ?_⟩, last, List.getLast?_concat .., hsource⟩
    · exact fun d hd => not_deniedDir (hvisible d (by simp [hd]))
    · by_cases hback : backslash ∈ last
      · have hback' := (mem_toLowerCase_iff lower (v := backslash) (by decide) (by decide)).2 hback
        have hbasenames : ∀ d ∈ DENIED_BASENAMES, backslash ∉ d := by decide +kernel
        have hprefixes : ∀ p ∈ DENIED_BASENAME_PREFIXES, backslash ∉ p := by decide +kernel
        refine ⟨not_deniedDir (hvisible last (by simp)), fun hmem => hbasenames _ hmem hback', ?_,
          fun _ he => not_deniedExtension hsource he⟩
        intro p hp
        exact ⟨fun heq => hprefixes p hp (heq ▸ hback'), h.started hback p hp⟩
      · have hone : pathPieces last = [last] := pathPieces_of_clean hsegment.1 (clean_of_segment hsegment hback)
        rw [List.flatMap_append, List.flatMap_singleton, hone] at hdenied
        exact ((deniedParts_concat lower _ last).1 hdenied).2

/-- Of a path that the walker takes for source, the gate's mirror of the walker admits those whose
pieces between backslashes are neither hidden nor pruned. -/
theorem isIndexerAdmissible_iff_pieces {last : JsString} (hlast : names.getLast? = some last)
    (hlanguage : (languageOf last).isSome) : isIndexerAdmissible lower ([slash].intercalate names) = true ↔
      ∀ n ∈ names, ∀ piece ∈ pathPieces n, piece.head? ≠ some dot ∧ piece ∉ ALWAYS_SKIP_DIR_SEGMENTS := by
  have hne : names ≠ [] := by
    rintro rfl
    cases hlast
  rw [isIndexerAdmissible_iff, pathPieces_intercalate hne]
  constructor
  · rintro ⟨h, -⟩ n hn piece hpiece
    exact h piece (List.mem_flatMap.2 ⟨n, hn, hpiece⟩)
  · intro h
    obtain ⟨b, e, hb, rfl, hdot, -, hclean, hext⟩ := exists_extension hlanguage
    obtain ⟨b₁, b₂, rfl, hpiece⟩ := getLast_pathPieces b (List.cons_ne_nil dot e) hclean
    refine ⟨?_, b₂ ++ dot :: e, getLast_flatMap_pieces hlast hpiece, ?_⟩
    · intro piece hmem
      obtain ⟨n, hn, hmem⟩ := List.mem_flatMap.1 hmem
      exact h n hn piece hmem
    · -- a last piece that starts at the dot would be hidden
      have hb₂ : b₂ ≠ [] := by
        rintro rfl
        exact (h _ (List.mem_of_getLast? hlast) _ (List.mem_of_getLast? hpiece)).1 rfl
      rw [languageOf, extension_append hb₂ hdot]
      exact hext

end Names

end Hayven.Db.Pack
