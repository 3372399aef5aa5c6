import Hayven.Lib.Bytes
import Hayven.Lib.Segments
import Mathlib.Data.List.TakeWhile
/-!
# Lines of a text

A text is cut at its line ends, `\n` or `\r\n`, and joined again by `\n`. Joining
gives the text back unless it holds a `\r\n`; cutting a joined text, or a part of
one, gives pieces of the lines it was joined from.
-/

namespace Hayven.Lib

/-! ## Trimming -/

section Trim
variable {α : Type} {blank : α → Bool}

theorem dropWhile_eq_self {s : List α} (h : ∀ a ∈ s.head?, blank a = false) : s.dropWhile blank = s := by
  cases s with
  | nil => rfl
  | cons a s => rw [List.dropWhile_cons, h a rfl]; rfl

theorem head_dropWhile (s : List α) : ∀ a ∈ (s.dropWhile blank).head?, blank a = false := by
  intro a ha
  have h := List.head?_dropWhile_not blank s
  rwa [show (s.dropWhile blank).head? = some a from ha] at h

/-- Neither end of the text is blank. -/
structure Trimmed (blank : α → Bool) (s : List α) : Prop where
  head : ∀ a ∈ s.head?, blank a = false
  last : ∀ a ∈ s.getLast?, blank a = false

theorem Trimmed.trimBy_eq {s : List α} (h : Trimmed blank s) : trimBy blank s = s := by
  unfold trimBy
  rw [dropWhile_eq_self h.head, dropWhile_eq_self, List.reverse_reverse]
  rw [List.head?_reverse]
  exact h.last

/-- What trimming takes off is blank. -/
theorem trimBy_spec (blank : α → Bool) (s : List α) :
    ∃ a b, s = a ++ trimBy blank s ++ b ∧ (∀ u ∈ a, blank u = true) ∧ ∀ u ∈ b, blank u = true := by
  refine ⟨s.takeWhile blank, ((s.dropWhile blank).reverse.takeWhile blank).reverse, ?_, ?_, ?_⟩
  · rw [trimBy, List.append_assoc, ← List.reverse_append, List.takeWhile_append_dropWhile, List.reverse_reverse,
      List.takeWhile_append_dropWhile]
  · exact fun u hu => List.all_eq_true.1 List.all_takeWhile u hu
  · exact fun u hu => List.all_eq_true.1 List.all_takeWhile u (List.mem_reverse.1 hu)

theorem trimmed_trimBy (blank : α → Bool) (s : List α) : Trimmed blank (trimBy blank s) where
  head a ha := by
    -- if anything is left, it starts where the cut text starts
    obtain ⟨t, ht⟩ := (List.dropWhile_suffix (l := (s.dropWhile blank).reverse) blank)
    have hbegins : s.dropWhile blank = trimBy blank s ++ t.reverse := by
      have := congrArg List.reverse ht
      rwa [List.reverse_append, List.reverse_reverse, eq_comm] at this
    apply head_dropWhile s a
    rw [hbegins]
    cases hs : trimBy blank s with
    | nil => rw [hs] at ha; cases ha
    | cons b rest => rw [hs] at ha; exact ha
  last a ha := by
    rw [trimBy, List.getLast?_reverse] at ha
    exact head_dropWhile _ a ha

theorem trimBy_sublist (blank : α → Bool) (s : List α) : (trimBy blank s).Sublist s := by
  obtain ⟨a, b, hs, -, -⟩ := trimBy_spec blank s
  conv_rhs => rw [hs]
  exact (List.sublist_append_right a _).trans (List.sublist_append_left _ b)

theorem trimBy_blank_cons {u : α} (hu : blank u = true) (s : List α) : trimBy blank (u :: s) = trimBy blank s := by
  rw [trimBy, List.dropWhile_cons, if_pos hu, trimBy]

theorem trimBy_append_blank (s : List α) {t : List α} (ht : ∀ u ∈ t, blank u = true) :
    trimBy blank (s ++ t) = trimBy blank s := by
  unfold trimBy
  by_cases hs : s.dropWhile blank = []
  · rw [List.dropWhile_append, hs, List.isEmpty_nil, if_pos rfl, List.dropWhile_eq_nil_iff.2 ht, List.reverse_nil]
  · rw [List.dropWhile_append, if_neg (by simpa using hs), List.reverse_append,
      List.dropWhile_append_of_pos fun u hu => ht u (List.mem_reverse.1 hu)]

/-- A stretch with no blank at its ends is not touched. -/
theorem infix_trimBy {a m b : List α} (hm : m ≠ []) (h : Trimmed blank m) : m <:+: trimBy blank (a ++ m ++ b) := by
  have hdrop : ∃ a', (a ++ m ++ b).dropWhile blank = a' ++ m ++ b := by
    rw [List.append_assoc, List.dropWhile_append]
    split
    · refine ⟨[], dropWhile_eq_self ?_⟩
      rw [List.head?_append_of_ne_nil m hm]
      exact h.head
    · exact ⟨_, (List.append_assoc _ m b).symm⟩
  obtain ⟨a', ha'⟩ := hdrop
  have hrev : ∃ b', (a' ++ m ++ b).reverse.dropWhile blank = b' ++ m.reverse ++ a'.reverse := by
    rw [List.reverse_append, List.reverse_append, List.dropWhile_append]
    split
    · refine ⟨[], dropWhile_eq_self ?_⟩
      rw [List.head?_append_of_ne_nil _ (by simpa using hm), List.head?_reverse]
      exact h.last
    · exact ⟨_, (List.append_assoc _ _ _).symm⟩
  obtain ⟨b', hb'⟩ := hrev
  refine ⟨a', b'.reverse, ?_⟩
  rw [trimBy, ha', hb']
  simp

end Trim

/-! ## Cutting and joining -/

def lineFeed : UInt16 := 0x0A

def carriageReturn : UInt16 := 0x0D

/-- A unit at the start of the first line. -/
def consLine (u : UInt16) : List JsString → List JsString
  | [] => [[u]]
  | line :: lines => (u :: line) :: lines

/-- `text.split(/\r?\n/)`. -/
def splitLines : JsString → List JsString
  | [] => [[]]
  | u :: rest =>
    if u = lineFeed then [] :: splitLines rest
    else if u = carriageReturn ∧ rest.head? = some lineFeed then splitLines rest
    else consLine u (splitLines rest)

/-- `lines.join("\n")`. -/
def joinLines (lines : List JsString) : JsString := [lineFeed].intercalate lines

@[simp] theorem joinLines_nil : joinLines [] = [] := rfl

@[simp] theorem joinLines_singleton (line : JsString) : joinLines [line] = line := by simp [joinLines]

theorem joinLines_cons (line : JsString) {lines : List JsString} (h : lines ≠ []) :
    joinLines (line :: lines) = line ++ lineFeed :: joinLines lines := by
  rw [joinLines, List.intercalate_cons_of_ne_nil h, joinLines]
  simp

theorem joinLines_append {a b : List JsString} (ha : a ≠ []) (hb : b ≠ []) :
    joinLines (a ++ b) = joinLines a ++ lineFeed :: joinLines b := by
  induction a with
  | nil => exact absurd rfl ha
  | cons line a ih =>
    cases a with
    | nil => rw [List.singleton_append, joinLines_cons line hb, joinLines_singleton]
    | cons l a =>
      rw [List.cons_append, joinLines_cons line (by simp), ih (by simp), joinLines_cons line (by simp)]
      simp

theorem splitLines_lineFeed (s : JsString) : splitLines (lineFeed :: s) = [] :: splitLines s := by
  rw [splitLines, if_pos rfl]

theorem splitLines_crlf (s : JsString) :
    splitLines (carriageReturn :: lineFeed :: s) = [] :: splitLines s := by
  rw [splitLines, if_neg (by decide), if_pos ⟨rfl, rfl⟩, splitLines_lineFeed]

theorem splitLines_cons {u : UInt16} {s : JsString} (hu : u ≠ lineFeed)
    (h : ¬ (u = carriageReturn ∧ s.head? = some lineFeed)) : splitLines (u :: s) = consLine u (splitLines s) := by
  rw [splitLines, if_neg hu, if_neg h]

theorem splitLines_ne_nil (s : JsString) : splitLines s ≠ [] := by
  fun_induction splitLines s with
  | case1 => simp
  | case2 => simp
  | case3 u rest _ _ ih => exact ih
  | case4 u rest _ _ ih => cases h : splitLines rest <;> simp [consLine]

theorem joinLines_consLine (u : UInt16) {lines : List JsString} (h : lines ≠ []) :
    joinLines (consLine u lines) = u :: joinLines lines := by
  cases lines with
  | nil => exact absurd rfl h
  | cons line lines =>
    cases lines with
    | nil => simp [consLine]
    | cons l lines =>
      rw [consLine, joinLines_cons _ (List.cons_ne_nil l lines), joinLines_cons _ (List.cons_ne_nil l lines)]
      rfl

/-- A `\r\n` stands in the text. -/
def HasCrlf (s : JsString) : Prop := [carriageReturn, lineFeed] <:+: s

instance (s : JsString) : Decidable (HasCrlf s) := inferInstanceAs (Decidable (_ <:+: _))

theorem hasCrlf_cons (u : UInt16) (s : JsString) :
    HasCrlf (u :: s) ↔ (u = carriageReturn ∧ s.head? = some lineFeed) ∨ HasCrlf s := by
  unfold HasCrlf
  rw [List.infix_cons_iff]
  apply or_congr_left
  cases s with
  | nil => simp
  | cons v s => simp [List.cons_prefix_cons, eq_comm]

theorem length_joinLines_splitLines (s : JsString) :
    (joinLines (splitLines s)).length ≤ s.length ∧
      (HasCrlf s → (joinLines (splitLines s)).length < s.length) := by
  fun_induction splitLines s with
  | case1 => exact ⟨Nat.le_refl _, fun h => absurd (List.IsInfix.length_le h) (by simp)⟩
  | case2 rest ih =>
    rw [joinLines_cons _ (splitLines_ne_nil rest), hasCrlf_cons]
    simp only [List.nil_append, List.length_cons]
    refine ⟨by omega, ?_⟩
    rintro (⟨h, -⟩ | h)
    · exact absurd h (by decide)
    · have := ih.2 h
      omega
  | case3 u rest _ _ ih =>
    simp only [List.length_cons]
    exact ⟨by omega, fun _ => by omega⟩
  | case4 u rest _ hu ih =>
    rw [joinLines_consLine _ (splitLines_ne_nil rest), hasCrlf_cons]
    simp only [List.length_cons]
    refine ⟨by omega, ?_⟩
    rintro (h | h)
    · exact absurd h hu
    · have := ih.2 h
      omega

/-- Without a `\r\n`, joining undoes cutting. -/
theorem joinLines_splitLines {s : JsString} (h : ¬ HasCrlf s) : joinLines (splitLines s) = s := by
  fun_induction splitLines s with
  | case1 => rfl
  | case2 rest ih =>
    rw [hasCrlf_cons, not_or] at h
    rw [joinLines_cons _ (splitLines_ne_nil rest), ih h.2, List.nil_append]
  | case3 u rest _ hu ih => exact absurd ((hasCrlf_cons u rest).2 (.inl hu)) h
  | case4 u rest _ _ ih =>
    rw [hasCrlf_cons, not_or] at h
    rw [joinLines_consLine _ (splitLines_ne_nil rest), ih h.2]

/-- The last unit stays the last. -/
theorem getLast_joinLines_splitLines (s : JsString) : (joinLines (splitLines s)).getLast? = s.getLast? := by
  have hcons (u : UInt16) {t t' : JsString} (h : t.getLast? = t'.getLast?) : (u :: t).getLast? = (u :: t').getLast? := by
    rw [List.getLast?_cons, List.getLast?_cons, h]
  fun_induction splitLines s with
  | case1 => rfl
  | case2 rest ih => rw [joinLines_cons _ (splitLines_ne_nil rest), List.nil_append, hcons _ ih]
  | case3 u rest _ hu ih =>
    obtain ⟨-, hhead⟩ := hu
    cases rest with
    | nil => cases hhead
    | cons v rest => rw [ih, List.getLast?_cons_cons]
  | case4 u rest _ _ ih => rw [joinLines_consLine _ (splitLines_ne_nil rest), hcons _ ih]

/-! ## Counting line ends -/

theorem not_mem_of_mem_splitLines {s line : JsString} (h : line ∈ splitLines s) : lineFeed ∉ line := by
  fun_induction splitLines s generalizing line with
  | case1 =>
    rw [List.mem_singleton.1 h]
    simp
  | case2 rest ih =>
    rcases List.mem_cons.1 h with rfl | h
    · simp
    · exact ih h
  | case3 u rest _ _ ih => exact ih h
  | case4 u rest hu _ ih =>
    cases hs : splitLines rest with
    | nil => exact absurd hs (splitLines_ne_nil rest)
    | cons l ls =>
      rw [hs] at h ih
      rcases List.mem_cons.1 h with rfl | h
      · rw [List.mem_cons, not_or]
        exact ⟨fun heq => hu heq.symm, ih List.mem_cons_self⟩
      · exact ih (List.mem_cons_of_mem _ h)

theorem length_splitLines (s : JsString) : (splitLines s).length = s.count lineFeed + 1 := by
  fun_induction splitLines s with
  | case1 => rfl
  | case2 rest ih => rw [List.length_cons, ih, List.count_cons_self]
  | case3 u rest hu _ ih => rw [ih, List.count_cons_of_ne hu]
  | case4 u rest hu _ ih =>
    rw [List.count_cons_of_ne hu, ← ih]
    cases h : splitLines rest with
    | nil => exact absurd h (splitLines_ne_nil rest)
    | cons l ls => rfl

theorem count_joinLines {lines : List JsString} (hne : lines ≠ []) (h : ∀ line ∈ lines, lineFeed ∉ line) :
    (joinLines lines).count lineFeed + 1 = lines.length := by
  induction lines with
  | nil => exact absurd rfl hne
  | cons line lines ih =>
    have hline := List.count_eq_zero.2 (h line List.mem_cons_self)
    cases lines with
    | nil => rw [joinLines_singleton, hline]; rfl
    | cons l ls =>
      have hrest := ih (by simp) fun x hx => h x (List.mem_cons_of_mem _ hx)
      rw [joinLines_cons _ (by simp), List.count_append, hline, List.count_cons_self, Nat.zero_add, hrest,
        List.length_cons, List.length_cons, List.length_cons]

/-! ## Cutting what was put together -/

theorem splitLines_of_not_mem {s : JsString} (h : lineFeed ∉ s) : splitLines s = [s] := by
  induction s with
  | nil => rfl
  | cons u s ih =>
    rw [List.mem_cons, not_or] at h
    have hhead : ¬ (u = carriageReturn ∧ s.head? = some lineFeed) := by
      rintro ⟨-, hs⟩
      exact h.2 (List.mem_of_mem_head? hs)
    rw [splitLines_cons (Ne.symm h.1) hhead, ih h.2, consLine]

/-- A line end cuts the text, and takes the `\r` before it along. -/
theorem splitLines_append_lineFeed {a : JsString} (ha : a.getLast? ≠ some carriageReturn) (b : JsString) :
    splitLines (a ++ lineFeed :: b) = splitLines a ++ splitLines b := by
  induction a with
  | nil => exact splitLines_lineFeed b
  | cons u a ih =>
    have hlast : a.getLast? ≠ some carriageReturn := by
      cases a with
      | nil => simp
      | cons v a => rwa [List.getLast?_cons_cons] at ha
    have hhead : (u = carriageReturn ∧ (a ++ lineFeed :: b).head? = some lineFeed) ↔
        (u = carriageReturn ∧ a.head? = some lineFeed) := by
      cases a with
      | nil =>
        refine ⟨?_, fun h => absurd h.2 (by simp)⟩
        rintro ⟨rfl, -⟩
        exact absurd rfl ha
      | cons v a => simp
    rw [List.cons_append, splitLines, ih hlast, splitLines]
    split
    · rfl
    · simp only [hhead]
      split
      · rfl
      · cases hs : splitLines a with
        | nil => exact absurd hs (splitLines_ne_nil a)
        | cons l ls => rfl

/-- The first of joined lines is cut off, short of a `\r` at its end. -/
theorem splitLines_line_append {line : JsString} (h : lineFeed ∉ line) (rest : JsString) :
    ∃ line', line' <+: line ∧ splitLines (line ++ lineFeed :: rest) = line' :: splitLines rest := by
  by_cases hlast : line.getLast? = some carriageReturn
  · obtain ⟨init, rfl⟩ : ∃ init, line = init ++ [carriageReturn] := List.getLast?_eq_some_iff.1 hlast
    refine ⟨init, List.prefix_append _ _, ?_⟩
    have hinit : lineFeed ∉ init := fun hm => h (List.mem_append_left _ hm)
    clear hlast h
    induction init with
    | nil =>
      exact splitLines_crlf rest
    | cons u init ih =>
      rw [List.mem_cons, not_or] at hinit
      have hhead : ¬ (u = carriageReturn ∧ (init ++ [carriageReturn] ++ lineFeed :: rest).head? = some lineFeed) := by
        rintro ⟨-, hs⟩
        cases init with
        | nil => exact absurd (Option.some.inj hs) (by decide)
        | cons v init => exact hinit.2 (List.mem_of_mem_head? hs)
      rw [List.cons_append, List.cons_append, splitLines_cons (Ne.symm hinit.1) hhead, ih hinit.2, consLine]
  · exact ⟨line, List.prefix_refl _, by
      rw [splitLines_append_lineFeed hlast, splitLines_of_not_mem h, List.singleton_append]⟩

theorem splitLines_joinLines {lines : List JsString} (hne : lines ≠ []) (h : ∀ line ∈ lines, lineFeed ∉ line) :
    List.Forall₂ (· <+: ·) (splitLines (joinLines lines)) lines := by
  induction lines with
  | nil => exact absurd rfl hne
  | cons line lines ih =>
    have hline := h line List.mem_cons_self
    cases lines with
    | nil =>
      rw [joinLines_singleton, splitLines_of_not_mem hline]
      exact .cons (List.prefix_refl _) .nil
    | cons l ls =>
      rw [joinLines_cons _ (by simp)]
      obtain ⟨line', hbegins, hsplit⟩ := splitLines_line_append hline (joinLines (l :: ls))
      rw [hsplit]
      exact .cons hbegins (ih (by simp) fun x hx => h x (List.mem_cons_of_mem _ hx))

/-- Lines without line ends of any kind are cut as they were joined. -/
theorem splitLines_joinLines_eq {lines : List JsString} (hne : lines ≠ [])
    (h : ∀ line ∈ lines, lineFeed ∉ line ∧ carriageReturn ∉ line) : splitLines (joinLines lines) = lines := by
  induction lines with
  | nil => exact absurd rfl hne
  | cons line lines ih =>
    obtain ⟨hlf, hcr⟩ := h line List.mem_cons_self
    cases lines with
    | nil => rw [joinLines_singleton, splitLines_of_not_mem hlf]
    | cons l ls =>
      have hlast : line.getLast? ≠ some carriageReturn := fun hl => hcr (List.mem_of_mem_getLast? hl)
      rw [joinLines_cons _ (List.cons_ne_nil l ls), splitLines_append_lineFeed hlast, splitLines_of_not_mem hlf,
        ih (List.cons_ne_nil l ls) fun x hx => h x (List.mem_cons_of_mem _ hx), List.singleton_append]

/-- The lines of an ending of a text, the first one apart, are lines of the text. -/
theorem tail_splitLines_suffix (a s : JsString) :
    ∀ line ∈ (splitLines s).tail, line ∈ (splitLines (a ++ s)).tail := by
  induction a with
  | nil => exact fun line h => h
  | cons u a ih =>
    intro line h
    have hline := ih line h
    rw [List.cons_append, splitLines]
    split
    · exact List.mem_of_mem_tail hline
    · split
      · exact hline
      · cases hs : splitLines (a ++ s) with
        | nil => exact absurd hs (splitLines_ne_nil _)
        | cons l ls => rw [hs] at hline; exact hline

/-- The lines of a beginning of a text are those of the text, its last one cut short. -/
theorem splitLines_prefix {s : JsString} (hs : s.getLast? ≠ some carriageReturn) (b : JsString) :
    ∃ lines more, List.Forall₂ (· <+: ·) (splitLines s) lines ∧ splitLines (s ++ b) = lines ++ more := by
  induction s with
  | nil =>
    cases h : splitLines b with
    | nil => exact absurd h (splitLines_ne_nil b)
    | cons l ls => exact ⟨[l], ls, .cons List.nil_prefix .nil, h⟩
  | cons u s ih =>
    have hlast : s.getLast? ≠ some carriageReturn := by
      cases s with
      | nil => simp
      | cons v s => rwa [List.getLast?_cons_cons] at hs
    have hhead : (u = carriageReturn ∧ (s ++ b).head? = some lineFeed) ↔
        (u = carriageReturn ∧ s.head? = some lineFeed) := by
      cases s with
      | nil =>
        refine ⟨?_, fun h => absurd h.2 (by simp)⟩
        rintro ⟨rfl, -⟩
        exact absurd rfl hs
      | cons v s => simp
    obtain ⟨lines, more, hlines, hsplit⟩ := ih hlast
    rw [List.cons_append, splitLines, splitLines, hsplit]
    simp only [hhead]
    split
    · exact ⟨[] :: lines, more, .cons (List.prefix_refl _) hlines, rfl⟩
    · split
      · exact ⟨lines, more, hlines, rfl⟩
      · cases h : splitLines s with
        | nil => exact absurd h (splitLines_ne_nil s)
        | cons l ls =>
          rw [h] at hlines
          cases hlines with
          | cons hl hls => exact ⟨_, more, .cons ((List.prefix_cons_inj u).2 hl) hls, rfl⟩

theorem exists_mem_of_forall₂ {α β : Type} {R : α → β → Prop} {xs : List α} {ys : List β} (h : List.Forall₂ R xs ys)
    {x : α} (hx : x ∈ xs) : ∃ y ∈ ys, R x y := by
  induction h with
  | nil => cases hx
  | cons hab _ ih =>
    rcases List.mem_cons.1 hx with rfl | hx
    · exact ⟨_, List.mem_cons_self, hab⟩
    · obtain ⟨y, hy, hxy⟩ := ih hx
      exact ⟨y, List.mem_cons_of_mem _ hy, hxy⟩

/-- Trimmed and cut again, joined lines give pieces of themselves, but for the first
one, which may have lost what it started with. -/
theorem tail_splitLines_trim {blank : UInt16 → Bool} (hblank : blank carriageReturn = true) {lines : List JsString}
    (hne : lines ≠ []) (h : ∀ line ∈ lines, lineFeed ∉ line) :
    ∀ line ∈ (splitLines (trimBy blank (joinLines lines))).tail, ∃ line' ∈ lines, line <+: line' := by
  intro line hline
  obtain ⟨a, b, hs, -, -⟩ := trimBy_spec blank (joinLines lines)
  have hlast : (trimBy blank (joinLines lines)).getLast? ≠ some carriageReturn := by
    intro hcr
    rw [(trimmed_trimBy blank _).last _ hcr] at hblank
    cases hblank
  obtain ⟨cut, more, hcut, hsplit⟩ := splitLines_prefix hlast b
  have htail : ∃ cut' ∈ (splitLines (trimBy blank (joinLines lines) ++ b)).tail, line <+: cut' := by
    rw [hsplit]
    generalize splitLines (trimBy blank (joinLines lines)) = trimmed at hcut hline
    cases hcut with
    | nil => cases hline
    | cons _ hrest =>
      obtain ⟨cut', hmem, hbegins⟩ := exists_mem_of_forall₂ hrest hline
      exact ⟨cut', List.mem_append_left _ hmem, hbegins⟩
  obtain ⟨cut', hmem, hbegins⟩ := htail
  have hwhole := List.mem_of_mem_tail (tail_splitLines_suffix a _ cut' hmem)
  rw [← List.append_assoc, ← hs] at hwhole
  obtain ⟨line', hmem', hbegins'⟩ := exists_mem_of_forall₂ (splitLines_joinLines hne h) hwhole
  exact ⟨line', hmem', hbegins.trans hbegins'⟩

end Hayven.Lib
