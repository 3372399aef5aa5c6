import Mathlib.Data.List.TakeWhile
import Hayven.Db.PackPolicy
/-!
# What the gate lets through

A path that exists is let through under its real path, which no link leads out of. A path that
does not exist is taken as it is spelled, so a link on it may lead out: `gate_sound_iff`. The
other ways to go wrong are a root whose text goes on in the text of its spelling, and backslashes
in names, which the gate takes for separators.
-/
open Hayven.Lib Hayven.Native Hayven.Graph

namespace Hayven.Db.Pack

/-! ## Places and texts -/

/-- Where a path leads on the disk, every link on it followed. -/
def Host.Leads (h : Host) (p : JsString) (q : List JsString) : Prop := h.disk.Settles [] (pathSteps p) q

section Texts
variable {h : Host} {a b names p q rest : List JsString}

theorem segment_resolveNames (start p : JsString) : ∀ n ∈ resolveNames start p, Segment n := by
  apply pathName_normalizeFrom slash
  · intro n hn
    split at hn
    · cases hn
    · exact pathName_normalizeFrom slash (fun _ h => absurd h List.not_mem_nil)
        (fun _ => not_mem_of_mem_splitOn) n hn
  · exact fun _ => not_mem_of_mem_splitOn

theorem segment_clean {n : JsString} (h : Segment n) : n ≠ [] ∧ slash ∉ n := ⟨h.1, h.2.1⟩

theorem rootedText_eq_slash (ha : ∀ n ∈ a, Segment n) : rootedText slash a = [slash] ↔ a = [] := by
  constructor
  · intro heq
    exact rootedText_inj (fun n hn => segment_clean (ha n hn)) (fun _ hn => absurd hn List.not_mem_nil) heq
  · rintro rfl
    rfl

/-- One path text goes on below another exactly if its names do, and the other is not the top. -/
theorem below_iff (ha : ∀ n ∈ a, Segment n) (hb : ∀ n ∈ b, Segment n) :
    (rootedText slash a ++ [slash]) <+: rootedText slash b ↔ a ≠ [] ∧ ∃ rest, rest ≠ [] ∧ b = a ++ rest := by
  have hclean {names : List JsString} (hnames : ∀ n ∈ names, Segment n) : ∀ n ∈ names, slash ∉ n :=
    fun n hn => (hnames n hn).2.1
  constructor
  · rintro ⟨y, hy⟩
    have hb' : b ≠ [] := by
      rintro rfl
      have hlen := congrArg List.length hy
      unfold rootedText namesText at hlen
      split at hlen
      · simp at hlen
      · obtain ⟨n, a, rfl⟩ := List.exists_cons_of_ne_nil ‹a ≠ []›
        simp at hlen
    rw [rootedText_of_ne_nil hb'] at hy
    have ha' : a ≠ [] := by
      rintro rfl
      obtain ⟨u, rest, htext, hu⟩ := intercalate_head hb' fun n hn => segment_clean (hb n hn)
      rw [namesText_eq_intercalate hb', htext] at hy
      exact hu (List.cons.inj (List.cons.inj hy).2).1.symm
    rw [rootedText_of_ne_nil ha', List.append_assoc, List.singleton_append] at hy
    obtain ⟨rest, hrest, htext⟩ := names_of_prefix (hclean ha) (hclean hb) hy
    refine ⟨ha', rest, ?_, hrest⟩
    rintro rfl
    cases htext
  · rintro ⟨ha', rest, hrest, rfl⟩
    rw [rootedText_of_ne_nil ha', rootedText_of_ne_nil (by simp [ha']), namesText_append, namesText_eq_intercalate hrest]
    exact ⟨[slash].intercalate rest, by simp⟩

theorem splitOn_path (hnames : ∀ n ∈ names, Segment n) :
    (rootedText slash names).splitOn slash = [] :: if names = [] then [[]] else names :=
  splitOn_pathText fun n hn => (hnames n hn).2.1

theorem normalizeFrom_path (hnames : ∀ n ∈ names, Segment n) :
    normalizeFrom dot [] ((rootedText slash names).splitOn slash) = names := by
  rw [splitOn_path hnames, normalizeFrom_nil_cons]
  by_cases hne : names = []
  · rw [if_pos hne, normalizeFrom_nil_cons, hne]
    rfl
  · rw [if_neg hne, normalizeFrom_names slash hnames, List.nil_append]

/-! ## Real paths -/

theorem pathStep_segment {n : JsString} (hn : Segment n) : pathStep n = .into (systemName n) := by
  rw [pathStep, if_neg (not_or.2 ⟨hn.1, hn.2.2.1⟩), if_neg hn.2.2.2]

theorem realNames_path (hnames : ∀ n ∈ names, Segment n) :
    h.realNames (rootedText slash names) = h.disk.resolveLinks h.maxLinks [] (names.map fun n => .into (systemName n)) := by
  have hmap : names.map pathStep = names.map fun n => .into (systemName n) :=
    List.map_congr_left fun n hn => pathStep_segment (hnames n hn)
  rw [Host.realNames, pathSteps, splitOn_path hnames, List.map_cons]
  show h.disk.resolveLinks _ [] (.stay :: _) = _
  rw [FileTree.resolveLinks_stay]
  by_cases hne : names = []
  · rw [if_pos hne, hne]
    show h.disk.resolveLinks _ [] [.stay] = _
    rw [FileTree.resolveLinks_stay]
    rfl
  · rw [if_neg hne, hmap]

theorem leads_path (hnames : ∀ n ∈ names, Segment n) :
    h.Leads (rootedText slash names) q ↔ h.disk.Settles [] (names.map fun n => .into (systemName n)) q := by
  have hmap : names.map pathStep = names.map fun n => .into (systemName n) :=
    List.map_congr_left fun n hn => pathStep_segment (hnames n hn)
  have hstay {steps : List (PathStep JsString)} : h.disk.Settles [] (.stay :: steps) q ↔ h.disk.Settles [] steps q := by
    constructor
    · intro hsettles
      cases hsettles with
      | stay hsettles => exact hsettles
    · exact .stay
  rw [Host.Leads, pathSteps, splitOn_path hnames, List.map_cons]
  show h.disk.Settles [] (.stay :: _) q ↔ _
  rw [hstay]
  by_cases hne : names = []
  · rw [if_pos hne, hne]
    exact hstay
  · rw [if_neg hne, hmap]

theorem fileName_of_plain (hp : h.disk.Plain p) : ∀ n ∈ p, FileName n := by
  induction p using List.reverseRecOn with
  | nil => exact fun _ hn => absurd hn List.not_mem_nil
  | append_singleton p n ih =>
    intro m hm
    rcases List.mem_append.1 hm with hm | hm
    · exact ih hp.of_append m hm
    · rw [List.mem_singleton.1 hm]
      rcases hp with he | he
      · exact h.disk.named he
      · exact h.disk.named he

theorem systemName_fileName {n : JsString} (hn : FileName n) : systemName n = n := (wellFormed_iff n).1 hn.2.2

theorem steps_of_fileNames (hnames : ∀ n ∈ names, FileName n) :
    names.map (fun n => PathStep.into (systemName n)) = names.map .into :=
  List.map_congr_left fun n hn => by rw [systemName_fileName (hnames n hn)]

theorem plain_of_realNames {p : JsString} (hp : h.realNames p = some q) : h.disk.Plain q :=
  FileTree.plain_of_resolveLinks h.disk.top hp

theorem leads_of_realNames {p : JsString} (hp : h.realNames p = some q) : h.Leads p q :=
  FileTree.settles_of_resolveLinks hp

theorem realNames_of_plain (hp : h.disk.Plain p) : h.realNames (rootedText slash p) = some p := by
  have hnames := fileName_of_plain hp
  rw [realNames_path fun n hn => (hnames n hn).1, steps_of_fileNames hnames]
  exact FileTree.resolveLinks_plain (p := []) hp

end Texts

/-! ## What the tests let through -/

namespace Host
variable (h : Host) (root file : JsString)

def rootAbs : JsString := resolve h.cwd root

def rootReal : JsString := (h.tryRealpath (h.rootAbs root)).getD (h.rootAbs root)

/-- The names of the real root, or of the root as spelled if it has no real path. -/
def rootNames : List JsString := (h.realNames (h.rootAbs root)).getD (resolveNames h.cwd root)

/-- The path that a client's string spells. -/
def spelled : JsString := if isAbsolute file then resolve h.cwd file else resolve (h.rootAbs root) file

/-- The path that the tests are run on. -/
def target : JsString := (h.tryRealpath (h.spelled root file)).getD (h.spelled root file)

/-- The root form that the target is taken to start with, and what is taken to follow it. -/
def form : JsString := matchedRoot (h.rootAbs root) (h.rootReal root) (h.target root file)

def rel : JsString := relativePath (h.form root file) (h.target root file)

/-- The string is not refused by a test. -/
structure Admits : Prop where
  named : file ≠ [] ∧ nul ∉ file
  inside : inside (h.rootAbs root) (h.rootReal root) (h.target root file) = true
  allowed : isDeniedRepoPath h.lower (h.rel root file) = false
  admissible : isIndexerAdmissible h.lower (h.rel root file) = true
  kept : h.isPathExcludedByWalker (h.form root file) (h.rel root file) = false

end Host

theorem resolveRepoPath_eq_some {h : Host} {root file : JsString} {r : ResolvedRepoPath} :
    resolveRepoPath h root file = some r ↔ h.Admits root file ∧ r = ⟨h.target root file, h.rel root file⟩ := by
  have hcontain : containWithinRoot h root file =
      if file = [] ∨ nul ∈ file then none
      else if inside (h.rootAbs root) (h.rootReal root) (h.target root file) then
        some ⟨h.target root file, h.rel root file, h.form root file, (h.tryRealpath (h.spelled root file)).isSome⟩
      else none := rfl
  rw [resolveRepoPath, hcontain]
  by_cases hnamed : file = [] ∨ nul ∈ file
  · rw [if_pos hnamed]
    constructor
    · exact fun h => by cases h
    · exact fun hadmits => absurd hnamed (not_or.2 hadmits.1.named)
  · rw [if_neg hnamed]
    by_cases hinside : inside (h.rootAbs root) (h.rootReal root) (h.target root file) = true
    · rw [if_pos hinside, Option.bind_some]
      by_cases hallowed : isDeniedRepoPath h.lower (h.rel root file) = true
      · rw [if_pos hallowed]
        exact ⟨fun h => (by cases h), fun hadmits => absurd hallowed (by simp [hadmits.1.allowed])⟩
      · rw [if_neg hallowed]
        by_cases hadm : isIndexerAdmissible h.lower (h.rel root file) = true
        · rw [if_neg (by simp [hadm])]
          by_cases hkept : h.isPathExcludedByWalker (h.form root file) (h.rel root file) = true
          · rw [if_pos hkept]
            exact ⟨fun h => (by cases h), fun hadmits => absurd hkept (by simp [hadmits.1.kept])⟩
          · rw [if_neg hkept, Option.some.injEq]
            rw [Bool.not_eq_true] at hallowed hkept
            exact ⟨fun heq => ⟨⟨not_or.1 hnamed, hinside, hallowed, hadm, hkept⟩, heq.symm⟩, fun heq => heq.2.symm⟩
        · rw [if_pos (by simp [hadm])]
          exact ⟨fun h => (by cases h), fun hadmits => absurd hadmits.1.admissible hadm⟩
    · rw [if_neg hinside]
      exact ⟨fun h => (by cases h), fun hadmits => absurd hadmits.1.inside hinside⟩

/-! ## The law -/

/-- `root` joined with a path below it. -/
def joinPath (root rel : JsString) : JsString := if root = [slash] then slash :: rel else root ++ slash :: rel

def Under (root p : JsString) : Prop := root = [slash] ∨ (root ++ [slash]) <+: p

instance (root p : JsString) : Decidable (Under root p) := inferInstanceAs (Decidable (_ ∨ _))

/-- The root that a path is below: the real one, else the one spelled. -/
def baseOf (rootAbs rootReal p : JsString) : JsString := if Under rootReal p then rootReal else rootAbs

/-- The names of a path below the root, the file's last. -/
def pathNames (path : RepoPath) : List JsString := path.dir ++ [path.name]

/-- `ALWAYS_SKIP_DIRS` of the walker. -/
def ALWAYS_SKIP_DIRS : List JsString :=
  ["node_modules", "target", "dist", "build", ".venv", "venv", "__pycache__", ".hayven", ".git", ".next", ".turbo",
    ".cache"].map ascii

/-- The walk of the real root reaches the file, whatever its size. -/
structure Yields (h : Host) (root : JsString) (path : RepoPath) : Prop where
  file : h.disk.entry (h.rootNames root ++ pathNames path) = some .file
  unpruned : ∀ d ∈ path.dir, d ∉ ALWAYS_SKIP_DIRS
  language : (languageOf path.name).isSome
  kept : h.isPathExcludedByWalker (h.rootReal root) path.text = false

/-- What the gate promises of a root: all it returns lies inside, is the root joined with the
relative path, and may be packed; a file has one result however it is spelled; and what the
walker yields is let through as it is indexed. -/
structure Sound (h : Host) (root : JsString) : Prop where
  contained : ∀ file r, resolveRepoPath h root file = some r →
    ∀ home q, h.Leads (h.rootAbs root) home → h.Leads r.abs q → home <+: q
  joined : ∀ file r, resolveRepoPath h root file = some r →
    r.abs = joinPath (baseOf (h.rootAbs root) (h.rootReal root) r.abs) r.rel
  admissible : ∀ file r, resolveRepoPath h root file = some r → AdmissibleNames h.lower (r.rel.splitOn slash)
  asked : ∀ file r, resolveRepoPath h root file = some r →
    ∃ form, (form = h.rootAbs root ∨ form = h.rootReal root) ∧ h.isPathExcludedByWalker form r.rel = false
  sameFile : ∀ root' file file' t, h.tryRealpath (h.rootAbs root') = h.tryRealpath (h.rootAbs root) →
    nul ∉ file → nul ∉ file' → h.tryRealpath (h.spelled root file) = some t →
    h.tryRealpath (h.spelled root' file') = some t → resolveRepoPath h root file = resolveRepoPath h root' file'
  yielded : ∀ path, Yields h root path → (∀ n ∈ pathNames path, n.head? ≠ some dot) →
    deniedParts h.lower (pathNames path) = false →
    resolveRepoPath h root path.text = some ⟨rootedText slash (h.rootNames root ++ pathNames path), path.text⟩

/-! ## Where it fails -/

/-- A path that reads the same cut at backslashes too. -/
structure Legible (lower : LowerCase) (path : RepoPath) : Prop where
  led : path.text.head? ≠ some backslash
  pieces : ∀ n ∈ pathNames path, backslash ∈ n →
    ∀ piece ∈ pathPieces n, piece.head? ≠ some dot ∧ piece ∉ ALWAYS_SKIP_DIR_SEGMENTS
  allowed : (∃ n ∈ pathNames path, backslash ∈ n) → isDeniedRepoPath lower path.text = false

structure Clean (h : Host) (root : JsString) : Prop where
  /-- No string of a missing path that is let through has a link on it that leads out. -/
  settled : ∀ file, h.Admits root file → h.tryRealpath (h.spelled root file) = none →
    ∀ home q, h.Leads (h.rootAbs root) home → h.Leads (h.spelled root file) q → home <+: q
  /-- The real root's text goes on in a target that is not below it only by separators. -/
  apart : ∀ file, h.Admits root file → h.rootReal root <+: h.target root file →
    Under (h.rootReal root) (h.target root file) ∨
      ∃ w, h.rootAbs root = h.rootReal root ++ w ∧ ∀ u ∈ w, isSeparator u = true
  /-- No backslash comes first below the root. -/
  led : ∀ file, h.Admits root file → ∀ x, h.target root file =
    joinPath (baseOf (h.rootAbs root) (h.rootReal root) (h.target root file)) x → x.head? ≠ some backslash
  /-- No backslash ends the last name or cuts it off from a denied start. -/
  uncut : ∀ file, h.Admits root file → ∀ last, ((h.target root file).splitOn slash).getLast? = some last →
    UncutName h.lower last
  /-- The root is not the top, and no backslash hides, prunes or denies what the walker yields. -/
  legible : ∀ path, Yields h root path → (∀ n ∈ pathNames path, n.head? ≠ some dot) →
    deniedParts h.lower (pathNames path) = false → h.rootNames root ≠ [] ∧ Legible h.lower path

/-! ## The root and the target -/

section Target
variable (h : Host) (root file : JsString)

/-- The names of the target. -/
def targetNames : List JsString :=
  (h.realNames (h.spelled root file)).getD (resolveNames (if isAbsolute file then h.cwd else h.rootAbs root) file)

theorem spelled_eq : h.spelled root file =
    rootedText slash (resolveNames (if isAbsolute file then h.cwd else h.rootAbs root) file) := by
  unfold Host.spelled resolve
  split <;> rfl

theorem rootReal_eq : h.rootReal root = rootedText slash (h.rootNames root) := by
  unfold Host.rootReal Host.rootNames Host.tryRealpath
  cases h.realNames (h.rootAbs root) <;> rfl

theorem target_eq : h.target root file = rootedText slash (targetNames h root file) := by
  unfold Host.target targetNames Host.tryRealpath
  cases h.realNames (h.spelled root file) with
  | none => exact spelled_eq h root file
  | some q => rfl

theorem segment_rootNames : ∀ n ∈ h.rootNames root, Segment n := by
  unfold Host.rootNames
  cases hreal : h.realNames (h.rootAbs root) with
  | none => exact segment_resolveNames _ _
  | some q => exact fun n hn => (fileName_of_plain (plain_of_realNames hreal) n hn).1

theorem segment_targetNames : ∀ n ∈ targetNames h root file, Segment n := by
  unfold targetNames
  cases hreal : h.realNames (h.spelled root file) with
  | none => exact segment_resolveNames _ _
  | some q => exact fun n hn => (fileName_of_plain (plain_of_realNames hreal) n hn).1

variable {h root file}

/-- A root above a place that no link leads to is its own real path. -/
theorem root_of_plain {p : List JsString} (hp : h.disk.Plain p) (hroot : resolveNames h.cwd root <+: p) :
    h.realNames (h.rootAbs root) = some (resolveNames h.cwd root) ∧ h.rootNames root = resolveNames h.cwd root := by
  obtain ⟨rest, rfl⟩ := hroot
  have hreal : h.realNames (h.rootAbs root) = some (resolveNames h.cwd root) := realNames_of_plain hp.of_append
  exact ⟨hreal, by rw [Host.rootNames, hreal, Option.getD_some]⟩

theorem under_iff : Under (h.rootReal root) (h.target root file) ↔
    h.rootNames root = [] ∨ ∃ rest, rest ≠ [] ∧ targetNames h root file = h.rootNames root ++ rest := by
  rw [Under, rootReal_eq, target_eq, rootedText_eq_slash (segment_rootNames h root),
    below_iff (segment_rootNames h root) (segment_targetNames h root file)]
  by_cases hnil : h.rootNames root = []
  · simp [hnil]
  · simp [hnil]

/-- What is taken to follow the root form, where it is followed by names. -/
theorem relativePath_names {a rest : List JsString} (ha : ∀ n ∈ a, Segment n) (hrest : rest ≠ []) :
    relativePath (rootedText slash a) (rootedText slash (a ++ rest)) =
      ([slash].intercalate rest).dropWhile isSeparator := by
  rw [relativePath, rootedText_of_ne_nil (by simp [hrest] : a ++ rest ≠ []), namesText_append,
    namesText_eq_intercalate hrest]
  by_cases hne : a = []
  · subst hne
    rfl
  · rw [rootedText_of_ne_nil hne, List.drop_left, List.dropWhile_cons_of_pos (by decide)]

theorem joinPath_names {a rest : List JsString} (ha : ∀ n ∈ a, Segment n) (hrest : rest ≠ []) {x : JsString} :
    rootedText slash (a ++ rest) = joinPath (rootedText slash a) x ↔ x = [slash].intercalate rest := by
  rw [joinPath, rootedText_of_ne_nil (by simp [hrest] : a ++ rest ≠ []), namesText_append,
    namesText_eq_intercalate hrest]
  by_cases hne : a = []
  · subst hne
    rw [if_pos (show rootedText slash ([] : List JsString) = [slash] from rfl), namesText_nil, List.nil_append,
      List.cons.injEq]
    exact ⟨fun heq => heq.2.symm, fun heq => ⟨rfl, heq.symm⟩⟩
  · rw [if_neg fun heq => hne ((rootedText_eq_slash ha).1 heq), rootedText_of_ne_nil hne, List.append_cancel_left_eq,
      List.cons.injEq]
    exact ⟨fun heq => heq.2.symm, fun heq => ⟨rfl, heq.symm⟩⟩

theorem pathPieces_nil : pathPieces [] = [] := by decide

/-- An empty relative path is denied. -/
theorem Host.Admits.rel_ne_nil (hadmits : h.Admits root file) : h.rel root file ≠ [] := by
  intro hnil
  have hallowed := hadmits.allowed
  rw [hnil, isDeniedRepoPath, pathPieces_nil, deniedParts, if_pos rfl] at hallowed
  cases hallowed

/-- A root that a target stands for has no other real path. -/
theorem rootReal_of_target (heq : h.target root file = h.rootAbs root) : h.rootReal root = h.rootAbs root := by
  cases hreal : h.realNames (h.spelled root file) with
  | none =>
    have hspelled : h.spelled root file = h.rootAbs root := by
      rw [← heq, Host.target, Host.tryRealpath, hreal]
      rfl
    rw [hspelled] at hreal
    rw [Host.rootReal, Host.tryRealpath, hreal]
    rfl
  | some q =>
    have hplain := plain_of_realNames hreal
    rw [Host.target, Host.tryRealpath, hreal, Option.map_some, Option.getD_some] at heq
    have hnames := rootedText_inj (fun n hn => segment_clean (fileName_of_plain hplain n hn).1)
      (fun n hn => segment_clean (segment_resolveNames _ _ n hn)) heq
    rw [rootReal_eq, (root_of_plain hplain (hnames ▸ List.prefix_refl q : resolveNames h.cwd root <+: q)).2]
    rfl

/-- A root's real path does not lie below the root as it is spelled. -/
theorem rootReal_not_below : ¬ (h.rootAbs root ++ [slash]) <+: h.rootReal root := by
  intro hbelow
  rw [rootReal_eq] at hbelow
  obtain ⟨-, more, hmore, hnames⟩ := (below_iff (segment_resolveNames _ _) (segment_rootNames h root)).1 hbelow
  have hsame : h.rootNames root = resolveNames h.cwd root := by
    cases hreal : h.realNames (h.rootAbs root) with
    | none => rw [Host.rootNames, hreal, Option.getD_none]
    | some r =>
      have hr : h.rootNames root = r := by rw [Host.rootNames, hreal, Option.getD_some]
      exact (root_of_plain (plain_of_realNames (hr ▸ hreal)) ⟨more, hnames.symm⟩).2
  rw [hsame] at hnames
  exact hmore (List.self_eq_append_right.1 hnames)

/-- A target that is let through is a root and names below it, the real root where it can be. -/
inductive Placed (h : Host) (root file : JsString) (rest : List JsString) : Prop
  | real (under : Under (h.rootReal root) (h.target root file))
      (names : targetNames h root file = h.rootNames root ++ rest)
  | spelled (apart : ¬ Under (h.rootReal root) (h.target root file)) (nontop : resolveNames h.cwd root ≠ [])
      (names : targetNames h root file = resolveNames h.cwd root ++ rest)

theorem Host.Admits.placed (hadmits : h.Admits root file) : ∃ rest, rest ≠ [] ∧ Placed h root file rest := by
  have hrel := hadmits.rel_ne_nil
  have hself {root : JsString} : relativePath root root = [] := by
    rw [relativePath, List.drop_length]
    rfl
  by_cases hunder : Under (h.rootReal root) (h.target root file)
  · rcases under_iff.1 hunder with hnil | ⟨rest, hrest, hnames⟩
    · refine ⟨targetNames h root file, ?_, .real hunder (by rw [hnil, List.nil_append])⟩
      intro hempty
      apply hrel
      have hform : h.form root file = h.target root file := by
        rw [Host.form, matchedRoot, rootReal_eq, target_eq, hnil, hempty]
        rfl
      rw [Host.rel, hform, hself]
    · exact ⟨rest, hrest, .real hunder hnames⟩
  · have hinside := hadmits.inside
    rw [Hayven.Db.Pack.inside, Bool.or_eq_true, Bool.or_eq_true, Bool.or_eq_true, decide_eq_true_eq, decide_eq_true_eq,
      List.isPrefixOf_iff_prefix, List.isPrefixOf_iff_prefix] at hinside
    have hsame : h.target root file ≠ h.rootReal root := by
      intro heq
      apply hrel
      have hform : h.form root file = h.target root file := by
        rw [Host.form, matchedRoot, heq, if_pos (List.isPrefixOf_iff_prefix.2 (List.prefix_refl _))]
      rw [Host.rel, hform, hself]
    rcases hinside with ((heq | hbelow) | heq) | hbelow
    · -- the root as spelled has its real path for its target
      exfalso
      apply hsame
      rw [heq]
      exact (rootReal_of_target heq).symm
    · rw [target_eq] at hbelow
      obtain ⟨hne, rest, hrest, hnames⟩ := (below_iff (segment_resolveNames _ _) (segment_targetNames h root file)).1 hbelow
      exact ⟨rest, hrest, .spelled hunder hne hnames⟩
    · exact absurd heq hsame
    · exact absurd (.inr hbelow) hunder

/-- A target with a real path lies below the real root, and the root has one. -/
theorem Host.Admits.below_real (hadmits : h.Admits root file) {q : List JsString}
    (hreal : h.realNames (h.spelled root file) = some q) : h.target root file = rootedText slash q ∧
      h.realNames (h.rootAbs root) = some (h.rootNames root) ∧ h.rootNames root ≠ [] ∧
      ∃ rest, rest ≠ [] ∧ q = h.rootNames root ++ rest := by
  have htarget : targetNames h root file = q := by rw [targetNames, hreal, Option.getD_some]
  have hplain := plain_of_realNames hreal
  have hrootless : resolveNames h.cwd root <+: q → h.realNames (h.rootAbs root) = some (h.rootNames root) := by
    intro hprefix
    rw [(root_of_plain hplain hprefix).1, (root_of_plain hplain hprefix).2]
  have hroot : h.realNames (h.rootAbs root) = some (h.rootNames root) ∨ h.rootNames root = resolveNames h.cwd root := by
    unfold Host.rootNames
    cases h.realNames (h.rootAbs root) with
    | none => exact .inr rfl
    | some r => exact .inl rfl
  refine ⟨by rw [target_eq, htarget], ?_⟩
  obtain ⟨rest, hrest, hplaced⟩ := hadmits.placed
  cases hplaced with
  | real hunder hnames =>
    rw [htarget] at hnames
    have hrooted : h.realNames (h.rootAbs root) = some (h.rootNames root) := by
      rcases hroot with hroot | hroot
      · exact hroot
      · exact hrootless (hroot ▸ ⟨rest, hnames.symm⟩)
    refine ⟨hrooted, ?_, rest, hrest, hnames⟩
    intro hnil
    -- below the top nothing is inside: its text ends with the separator already
    have hinside := hadmits.inside
    rw [Hayven.Db.Pack.inside, Bool.or_eq_true, Bool.or_eq_true, Bool.or_eq_true, decide_eq_true_eq, decide_eq_true_eq,
      List.isPrefixOf_iff_prefix, List.isPrefixOf_iff_prefix] at hinside
    have hreal' : h.target root file ≠ h.rootReal root := by
      rw [target_eq, rootReal_eq, hnil]
      intro heq
      have htop := (rootedText_eq_slash (segment_targetNames h root file)).1 heq
      rw [htarget, hnames, hnil, List.nil_append] at htop
      exact hrest htop
    rcases hinside with ((heq | hbelow) | heq) | hbelow
    · exact hreal' (heq.trans (rootReal_of_target heq).symm)
    · rw [target_eq] at hbelow
      obtain ⟨hne, more, -, hmore⟩ := (below_iff (segment_resolveNames _ _) (segment_targetNames h root file)).1 hbelow
      rw [htarget] at hmore
      exact hne ((root_of_plain hplain ⟨more, hmore.symm⟩).2.symm.trans hnil)
    · exact hreal' heq
    · rw [rootReal_eq, target_eq] at hbelow
      exact ((below_iff (segment_rootNames h root) (segment_targetNames h root file)).1 hbelow).1 hnil
  | spelled _ hne hnames =>
    rw [htarget] at hnames
    have hprefix : resolveNames h.cwd root <+: q := ⟨rest, hnames.symm⟩
    have hsame := (root_of_plain hplain hprefix).2
    exact ⟨hrootless hprefix, hsame ▸ hne, rest, hrest, hsame ▸ hnames⟩

/-- A target with a real path leads nowhere else. -/
theorem Host.Admits.contained_real (hadmits : h.Admits root file) {q : List JsString}
    (hreal : h.realNames (h.spelled root file) = some q) {home place : List JsString} (hhome : h.Leads (h.rootAbs root) home)
    (hplace : h.Leads (h.target root file) place) : home <+: place := by
  obtain ⟨htarget, hroot, -, rest, -, rfl⟩ := hadmits.below_real hreal
  have hplain := plain_of_realNames hreal
  rw [htarget, leads_path fun n hn => (fileName_of_plain hplain n hn).1,
    steps_of_fileNames (fileName_of_plain hplain)] at hplace
  rw [hplace.unique (FileTree.Settles.of_plain (p := []) hplain), hhome.unique (leads_of_realNames hroot)]
  exact List.prefix_append _ _

end Target

/-! ## The relative path -/

section Relative
variable {h : Host} {root file : JsString} {rest : List JsString}

theorem dropWhile_separator_iff {x : JsString} (hx : x.head? ≠ some slash) :
    x.dropWhile isSeparator = x ↔ x.head? ≠ some backslash := by
  cases x with
  | nil => simp
  | cons u x =>
    rw [List.head?_cons, Ne, Option.some.injEq] at hx
    rw [List.head?_cons, Ne, Option.some.injEq]
    by_cases hu : u = backslash
    · subst hu
      rw [List.dropWhile_cons_of_pos (by decide)]
      refine ⟨fun heq => ?_, fun h => absurd rfl h⟩
      have hlen := (List.dropWhile_suffix isSeparator (l := x)).length_le
      rw [heq] at hlen
      simp at hlen
    · rw [List.dropWhile_cons_of_neg (by simp [isSeparator, hx, hu])]
      exact ⟨fun _ => hu, fun _ => rfl⟩

theorem head_rest (hsegments : ∀ n ∈ rest, Segment n) (hrest : rest ≠ []) :
    ([slash].intercalate rest).head? ≠ some slash := by
  obtain ⟨u, tail, htext, hu⟩ := intercalate_head hrest fun n hn => segment_clean (hsegments n hn)
  rw [htext, List.head?_cons, Ne, Option.some.injEq]
  exact hu

theorem baseOf_placed (hplaced : Placed h root file rest) (hrest : rest ≠ []) {x : JsString} :
    h.target root file = joinPath (baseOf (h.rootAbs root) (h.rootReal root) (h.target root file)) x ↔
      x = [slash].intercalate rest := by
  cases hplaced with
  | real hunder hnames =>
    rw [baseOf, if_pos hunder, rootReal_eq, target_eq, hnames]
    exact joinPath_names (segment_rootNames h root) hrest
  | spelled hapart _ hnames =>
    rw [baseOf, if_neg hapart, target_eq, hnames]
    exact joinPath_names (segment_resolveNames _ _) hrest

theorem segments_rest (hplaced : Placed h root file rest) : ∀ n ∈ rest, Segment n := by
  intro n hn
  apply segment_targetNames h root file
  cases hplaced with
  | real _ hnames => rw [hnames]; exact List.mem_append_right _ hn
  | spelled _ _ hnames => rw [hnames]; exact List.mem_append_right _ hn

theorem dropWhile_append_separator {w x : JsString} (hw : ¬ ∀ u ∈ w, isSeparator u = true) :
    (w ++ slash :: x).dropWhile isSeparator ≠ x := by
  intro heq
  have hne : w.dropWhile isSeparator ≠ [] := by
    rw [Ne, List.dropWhile_eq_nil_iff]
    exact hw
  rw [List.dropWhile_append, if_neg (by simpa using hne)] at heq
  have hlen := congrArg List.length heq
  rw [List.length_append, List.length_cons] at hlen
  omega

/-- The root joined with the relative path is the target exactly if no backslash comes first below
the root and the real root's text does not end inside a name of its spelling. -/
theorem Placed.joined_iff (hplaced : Placed h root file rest) (hrest : rest ≠ []) :
    h.rel root file = [slash].intercalate rest ↔ ([slash].intercalate rest).head? ≠ some backslash ∧
      (h.rootReal root <+: h.target root file → Under (h.rootReal root) (h.target root file) ∨
        ∃ w, h.rootAbs root = h.rootReal root ++ w ∧ ∀ u ∈ w, isSeparator u = true) := by
  have hhead := head_rest (segments_rest hplaced) hrest
  cases hplaced with
  | real hunder hnames =>
    have hform : h.form root file = h.rootReal root := by
      have hprefix : h.rootReal root <+: h.target root file := by
        rw [rootReal_eq, target_eq, hnames]
        by_cases hnil : h.rootNames root = []
        · rw [hnil, List.nil_append, rootedText_of_ne_nil hrest, namesText_eq_intercalate hrest]
          exact ⟨[slash].intercalate rest, rfl⟩
        · rw [rootedText_of_ne_nil hnil, rootedText_of_ne_nil (by simp [hnil]), namesText_append]
          exact List.prefix_append _ _
      rw [Host.form, matchedRoot, if_pos (List.isPrefixOf_iff_prefix.2 hprefix)]
    rw [Host.rel, hform, rootReal_eq, target_eq, hnames, relativePath_names (segment_rootNames h root) hrest,
      dropWhile_separator_iff hhead]
    refine ⟨fun hback => ⟨hback, fun _ => .inl ?_⟩, fun hback => hback.1⟩
    rwa [rootReal_eq, target_eq, hnames] at hunder
  | spelled hapart hne hnames =>
    have hsegments := segment_resolveNames h.cwd root
    by_cases hprefix : h.rootReal root <+: h.target root file
    · have htext : h.target root file = h.rootAbs root ++ slash :: [slash].intercalate rest := by
        rw [target_eq, hnames]
        show _ = rootedText slash (resolveNames h.cwd root) ++ _
        rw [rootedText_of_ne_nil hne, rootedText_of_ne_nil (by simp [hne]), namesText_append, namesText_eq_intercalate hrest]
      obtain ⟨w, hw⟩ : h.rootReal root <+: h.rootAbs root := by
        rcases List.prefix_or_prefix_of_prefix hprefix ⟨_, htext.symm⟩ with hshort | hlong
        · exact hshort
        · obtain ⟨v, hv⟩ := hlong
          obtain ⟨y, hy⟩ := hprefix
          rw [← hv, htext, List.append_assoc, List.append_cancel_left_eq] at hy
          cases v with
          | nil => exact ⟨[], by rw [← hv, List.append_nil, List.append_nil]⟩
          | cons u v =>
            rw [List.cons_append, List.cons.injEq] at hy
            have hbelow : (h.rootAbs root ++ [slash]) <+: h.rootReal root := ⟨v, by rw [← hv, hy.1]; simp⟩
            exact absurd hbelow rootReal_not_below
      have hform : h.form root file = h.rootReal root := by
        rw [Host.form, matchedRoot, if_pos (List.isPrefixOf_iff_prefix.2 hprefix)]
      have hrel : h.rel root file = (w ++ slash :: [slash].intercalate rest).dropWhile isSeparator := by
        rw [Host.rel, hform, relativePath, htext, ← hw, List.append_assoc, List.drop_left]
      by_cases hall : ∀ u ∈ w, isSeparator u = true
      · have hdrop : (w ++ slash :: [slash].intercalate rest).dropWhile isSeparator =
            ([slash].intercalate rest).dropWhile isSeparator := by
          rw [List.dropWhile_append, if_pos (List.isEmpty_iff.2 (List.dropWhile_eq_nil_iff.2 hall)), List.dropWhile_cons_of_pos (by decide)]
        rw [hrel, hdrop, dropWhile_separator_iff hhead]
        exact ⟨fun hback => ⟨hback, fun _ => .inr ⟨w, hw.symm, hall⟩⟩, fun hback => hback.1⟩
      · rw [hrel]
        refine ⟨fun heq => absurd heq (dropWhile_append_separator hall), fun hback => ?_⟩
        rcases hback.2 hprefix with hunder | ⟨w', hw', hall'⟩
        · exact absurd hunder hapart
        · rw [← hw, List.append_cancel_left_eq] at hw'
          exact absurd (hw' ▸ hall') hall
    · have hform : h.form root file = rootedText slash (resolveNames h.cwd root) := by
        rw [Host.form, matchedRoot, if_neg fun hp => hprefix (List.isPrefixOf_iff_prefix.1 hp)]
        rfl
      rw [Host.rel, hform, target_eq, hnames, relativePath_names hsegments hrest, dropWhile_separator_iff hhead]
      refine ⟨fun hback => ⟨hback, fun hp => ?_⟩, fun hback => hback.1⟩
      rw [target_eq, hnames] at hprefix
      exact absurd hp hprefix

end Relative

/-! ## One file, two spellings -/

section SameFile
variable {h : Host} {root root' file file' : JsString}

theorem form_real {t : List JsString} (ht : h.target root file = rootedText slash (h.rootNames root ++ t))
    (hne : h.rootNames root ≠ []) : h.form root file = h.rootReal root := by
  have hprefix : h.rootReal root <+: h.target root file := by
    rw [ht, rootReal_eq, rootedText_of_ne_nil hne, rootedText_of_ne_nil (by simp [hne]), namesText_append]
    exact List.prefix_append _ _
  rw [Host.form, matchedRoot, if_pos (List.isPrefixOf_iff_prefix.2 hprefix)]

/-- A string that resolves to no name spells the root. -/
theorem spelled_nil : h.spelled root [] = h.rootAbs root := by
  show resolve (h.rootAbs root) [] = rootedText slash (resolveNames h.cwd root)
  unfold resolve
  rw [resolveNames, List.splitOn_nil, normalizeFrom_nil_cons]
  show rootedText slash (normalizeFrom dot [] ((rootedText slash (resolveNames h.cwd root)).splitOn slash)) = _
  rw [normalizeFrom_path (segment_resolveNames _ _)]

/-- What is let through under one spelling of a file has the same result under another. -/
theorem Host.Admits.respelled (hadmits : h.Admits root file) {q : List JsString}
    (hroots : h.tryRealpath (h.rootAbs root') = h.tryRealpath (h.rootAbs root)) (hnul : nul ∉ file')
    (hreal : h.realNames (h.spelled root file) = some q) (hreal' : h.realNames (h.spelled root' file') = some q) :
    resolveRepoPath h root' file' = some ⟨h.target root file, h.rel root file⟩ := by
  obtain ⟨htarget, hroot, hne, rest, hrest, rfl⟩ := hadmits.below_real hreal
  have htarget' : h.target root' file' = h.target root file := by
    rw [htarget, Host.target, Host.tryRealpath, hreal', Option.map_some, Option.getD_some]
  have hrealpath : h.tryRealpath (h.rootAbs root) = some (h.rootReal root) := by
    rw [rootReal_eq, Host.tryRealpath, hroot, Option.map_some]
  have hrootReal : h.rootReal root' = h.rootReal root := by
    rw [Host.rootReal, hroots, hrealpath, Option.getD_some]
  have hform := form_real htarget hne
  have hprefix : h.rootReal root' <+: h.target root' file' := by
    rw [hrootReal, htarget', htarget, rootReal_eq, rootedText_of_ne_nil hne, rootedText_of_ne_nil (by simp [hne]),
      namesText_append]
    exact List.prefix_append _ _
  have hform' : h.form root' file' = h.form root file := by
    rw [hform, Host.form, matchedRoot, if_pos (List.isPrefixOf_iff_prefix.2 hprefix), hrootReal]
  have hrel' : h.rel root' file' = h.rel root file := by rw [Host.rel, Host.rel, hform', htarget']
  have hbelow : (h.rootReal root' ++ [slash]) <+: h.target root' file' := by
    have hsegments := segment_targetNames h root file
    rw [targetNames, hreal, Option.getD_some] at hsegments
    rw [hrootReal, htarget', htarget, rootReal_eq]
    exact (below_iff (segment_rootNames h root) hsegments).2 ⟨hne, rest, hrest, rfl⟩
  rw [resolveRepoPath_eq_some, htarget', hrel']
  refine ⟨⟨⟨?_, hnul⟩, ?_, hrel' ▸ hadmits.allowed, hrel' ▸ hadmits.admissible, ?_⟩, rfl⟩
  · -- the empty string spells the root, which is not below itself
    rintro rfl
    rw [spelled_nil] at hreal'
    rw [Host.tryRealpath, hreal', hrealpath, rootReal_eq, Option.map_some, Option.some.injEq] at hroots
    have hnames := rootedText_inj (fun n hn => segment_clean (fileName_of_plain (plain_of_realNames hreal) n hn).1)
      (fun n hn => segment_clean (segment_rootNames h root n hn)) hroots
    exact hrest (List.self_eq_append_right.1 hnames.symm)
  · rw [Hayven.Db.Pack.inside, Bool.or_eq_true, List.isPrefixOf_iff_prefix]
    exact .inr hbelow
  · rw [hform', hrel']
    exact hadmits.kept

theorem resolveRepoPath_respelled {t : JsString} (hroots : h.tryRealpath (h.rootAbs root') = h.tryRealpath (h.rootAbs root))
    (hnul : nul ∉ file) (hnul' : nul ∉ file') (hreal : h.tryRealpath (h.spelled root file) = some t)
    (hreal' : h.tryRealpath (h.spelled root' file') = some t) :
    resolveRepoPath h root file = resolveRepoPath h root' file' := by
  obtain ⟨q, hq, rfl⟩ := Option.map_eq_some_iff.1 hreal
  obtain ⟨q', hq', heq⟩ := Option.map_eq_some_iff.1 hreal'
  have hplain {q : List JsString} {p : JsString} (hq : h.realNames p = some q) : ∀ n ∈ q, n ≠ [] ∧ slash ∉ n :=
    fun n hn => segment_clean (fileName_of_plain (plain_of_realNames hq) n hn).1
  have hsame := rootedText_inj (hplain hq') (hplain hq) heq
  subst hsame
  cases hfirst : resolveRepoPath h root file with
  | some r =>
    obtain ⟨hadmits, rfl⟩ := resolveRepoPath_eq_some.1 hfirst
    rw [hadmits.respelled hroots hnul' hq hq']
  | none =>
    cases hsecond : resolveRepoPath h root' file' with
    | none => rfl
    | some r =>
      obtain ⟨hadmits, rfl⟩ := resolveRepoPath_eq_some.1 hsecond
      rw [hadmits.respelled hroots.symm hnul hq' hq] at hfirst
      cases hfirst

end SameFile

/-! ## What the walker yields -/

section Yielded
variable {h : Host} {root : JsString} {path : RepoPath}

theorem pathNames_ne_nil : pathNames path ≠ [] := by simp [pathNames]

theorem segment_pathNames : ∀ n ∈ pathNames path, Segment n := by
  intro n hn
  rcases List.mem_append.1 hn with hn | hn
  · exact path.segments n hn
  · rw [List.mem_singleton.1 hn]
    exact path.named

theorem text_eq : path.text = [slash].intercalate (pathNames path) := below_eq_intercalate path.dir path.name

theorem getLast_pathNames : (pathNames path).getLast? = some path.name := List.getLast?_concat ..

/-- The indexed path of a yielded file spells the file. -/
theorem Yields.realNames (hyields : Yields h root path) :
    h.realNames (h.spelled root path.text) = some (h.rootNames root ++ pathNames path) := by
  have hsegments : ∀ n ∈ pathNames path, Segment n := segment_pathNames
  have hplain : h.disk.Plain (h.rootNames root ++ pathNames path) := .inl hyields.file
  have hroot : h.realNames (h.rootAbs root) = some (h.rootNames root) := by
    cases hreal : h.realNames (h.rootAbs root) with
    | none =>
      have hself : h.rootNames root = resolveNames h.cwd root := by rw [Host.rootNames, hreal, Option.getD_none]
      have hbelow : resolveNames h.cwd root <+: h.rootNames root ++ pathNames path := hself ▸ List.prefix_append _ _
      have htop := (root_of_plain hplain hbelow).1
      rw [hreal] at htop
      cases htop
    | some r => rw [Host.rootNames, hreal, Option.getD_some]
  have hrelative : isAbsolute path.text = false := by
    rw [isAbsolute, text_eq, decide_eq_false_iff_not]
    exact head_rest hsegments pathNames_ne_nil
  have hspelled : h.spelled root path.text = rootedText slash (resolveNames h.cwd root ++ pathNames path) := by
    rw [spelled_eq, hrelative, resolveNames, hrelative]
    show rootedText slash (normalizeFrom dot (normalizeFrom dot []
      ((rootedText slash (resolveNames h.cwd root)).splitOn slash)) (path.text.splitOn slash)) = _
    rw [normalizeFrom_path (segment_resolveNames _ _), text_eq,
      List.splitOn_intercalate slash (fun n hn => (hsegments n hn).2.1) pathNames_ne_nil,
      normalizeFrom_names slash hsegments]
  have hsteps : (pathNames path).map (fun n => PathStep.into (systemName n)) = (pathNames path).map .into :=
    steps_of_fileNames fun n hn => fileName_of_plain hplain n (List.mem_append_right _ hn)
  have hsegments' : ∀ n ∈ resolveNames h.cwd root ++ pathNames path, Segment n := by
    intro n hn
    rcases List.mem_append.1 hn with hn | hn
    · exact segment_resolveNames _ _ n hn
    · exact hsegments n hn
  have hroot' : h.realNames (rootedText slash (resolveNames h.cwd root)) = some (h.rootNames root) := hroot
  rw [realNames_path (segment_resolveNames _ _)] at hroot'
  obtain ⟨left, happend⟩ := FileTree.resolveLinks_append hroot'
    (FileTree.dir_of_append pathNames_ne_nil hyields.file) ((pathNames path).map .into)
  rw [hspelled, realNames_path hsegments', List.map_append, hsteps, happend]
  exact FileTree.resolveLinks_plain hplain

/-- A yielded file is let through as it is indexed exactly if the root is not the top and the path
reads the same cut at backslashes. -/
theorem Yields.accepted_iff (hyields : Yields h root path) (hvisible : ∀ n ∈ pathNames path, n.head? ≠ some dot)
    (hallowed : deniedParts h.lower (pathNames path) = false) :
    resolveRepoPath h root path.text = some ⟨rootedText slash (h.rootNames root ++ pathNames path), path.text⟩ ↔
      h.rootNames root ≠ [] ∧ Legible h.lower path := by
  have hreal := hyields.realNames
  have hsegments : ∀ n ∈ pathNames path, Segment n := segment_pathNames
  have hpieces := pathPieces_intercalate (pathNames_ne_nil : pathNames path ≠ [])
  have htarget : h.target root path.text = rootedText slash (h.rootNames root ++ pathNames path) := by
    rw [Host.target, Host.tryRealpath, hreal, Option.map_some, Option.getD_some]
  have hadmissible : isIndexerAdmissible h.lower ([slash].intercalate (pathNames path)) = true ↔ _ :=
    isIndexerAdmissible_iff_pieces getLast_pathNames hyields.language
  have hrel : h.rootNames root ≠ [] → h.form root path.text = h.rootReal root ∧
      h.rel root path.text = path.text.dropWhile isSeparator := by
    intro hne
    have hform := form_real htarget hne
    refine ⟨hform, ?_⟩
    rw [Host.rel, hform, htarget, rootReal_eq, relativePath_names (segment_rootNames h root) pathNames_ne_nil, text_eq]
  have hhead : path.text.head? ≠ some slash := by
    rw [text_eq]
    exact head_rest hsegments pathNames_ne_nil
  rw [resolveRepoPath_eq_some, htarget]
  constructor
  · rintro ⟨hadmits, heq⟩
    obtain ⟨-, -, hne, -⟩ := hadmits.below_real hreal
    have hsame : h.rel root path.text = path.text := (ResolvedRepoPath.mk.inj heq).2.symm
    have hdenied := hadmits.allowed
    have hadm := hadmits.admissible
    rw [hsame] at hdenied hadm
    rw [text_eq, hadmissible] at hadm
    exact ⟨hne, (dropWhile_separator_iff hhead).1 ((hrel hne).2.symm.trans hsame), fun n hn _ => hadm n hn,
      fun _ => hdenied⟩
  · rintro ⟨hne, hlegible⟩
    obtain ⟨hform, hdrop⟩ := hrel hne
    rw [(dropWhile_separator_iff hhead).2 hlegible.led] at hdrop
    have hwhole : ∀ n ∈ pathNames path, backslash ∉ n → pathPieces n = [n] :=
      fun n hn hback => pathPieces_of_clean (hsegments n hn).1 (clean_of_segment (hsegments n hn) hback)
    have hunpruned : ∀ n ∈ pathNames path, n ∉ ALWAYS_SKIP_DIR_SEGMENTS := by
      have hdirs : ∀ d ∈ ALWAYS_SKIP_DIR_SEGMENTS, d ∈ ALWAYS_SKIP_DIRS ∧ (languageOf d).isSome = false := by
        decide +kernel
      intro n hn hskip
      rcases List.mem_append.1 hn with hn | hn
      · exact hyields.unpruned n hn (hdirs n hskip).1
      · have hlanguage := hyields.language
        rw [← List.mem_singleton.1 hn, (hdirs n hskip).2] at hlanguage
        cases hlanguage
    rw [hdrop]
    refine ⟨⟨⟨?_, ?_⟩, ?_, ?_, ?_, ?_⟩, rfl⟩
    · intro hnil
      obtain ⟨u, tail, htext, -⟩ := intercalate_head pathNames_ne_nil fun n hn => segment_clean (hsegments n hn)
      rw [text_eq, htext] at hnil
      cases hnil
    · intro hmem
      have hmem : nul ∈ namesText slash (pathNames path) := by
        rw [namesText_eq_intercalate pathNames_ne_nil, ← text_eq]
        exact List.mem_cons_of_mem _ hmem
      obtain ⟨n, hn, hmem⟩ := List.mem_flatMap.1 hmem
      rcases List.mem_cons.1 hmem with heq | hmem
      · exact absurd heq (by decide)
      · exact (fileName_of_plain (.inl hyields.file) n (List.mem_append_right _ hn)).2.1 hmem
    · rw [Hayven.Db.Pack.inside, Bool.or_eq_true, List.isPrefixOf_iff_prefix, htarget, rootReal_eq]
      apply Or.inr
      rw [below_iff (segment_rootNames h root) fun n hn => (fileName_of_plain (.inl hyields.file) n hn).1]
      exact ⟨hne, pathNames path, pathNames_ne_nil, rfl⟩
    · rw [hdrop]
      by_cases hback : ∃ n ∈ pathNames path, backslash ∈ n
      · exact hlegible.allowed hback
      · have hsame : pathPieces path.text = pathNames path := by
          rw [text_eq, hpieces, List.flatMap_congr fun n hn => hwhole n hn fun hb => hback ⟨n, hn, hb⟩]
          simp
        rw [isDeniedRepoPath, hsame]
        exact hallowed
    · rw [hdrop, text_eq, hadmissible]
      intro n hn piece hpiece
      by_cases hback : backslash ∈ n
      · exact hlegible.pieces n hn hback piece hpiece
      · rw [hwhole n hn hback, List.mem_singleton] at hpiece
        subst hpiece
        exact ⟨hvisible piece hn, hunpruned piece hn⟩
    · rw [hform, hdrop]
      exact hyields.kept

end Yielded

/-! ## The gate -/

/-- The gate is sound for a root exactly if no missing path that is let through leads out by a link,
the real root's text does not end inside a name of its spelling, no backslash of a name changes how
the path is read, and the root is not the top. -/
theorem gate_sound_iff (h : Host) (root : JsString) : Sound h root ↔ Clean h root := by
  have hresult : ∀ {file : JsString}, h.Admits root file →
      resolveRepoPath h root file = some ⟨h.target root file, h.rel root file⟩ :=
    fun hadmits => resolveRepoPath_eq_some.2 ⟨hadmits, rfl⟩
  have hlast : ∀ {file : JsString} {rest : List JsString}, Placed h root file rest → rest ≠ [] →
      ((h.target root file).splitOn slash).getLast? = rest.getLast? := by
    intro file rest hplaced hrest
    have hnames : ∃ a, targetNames h root file = a ++ rest := by
      cases hplaced with
      | real _ hnames => exact ⟨_, hnames⟩
      | spelled _ _ hnames => exact ⟨_, hnames⟩
    obtain ⟨a, hnames⟩ := hnames
    rw [target_eq, splitOn_path (segment_targetNames h root file), hnames, if_neg (by simp [hrest]), ← List.cons_append,
      List.getLast?_append_of_ne_nil _ hrest]
  have hsplit : ∀ {file : JsString} {rest : List JsString}, Placed h root file rest → rest ≠ [] →
      ([slash].intercalate rest).splitOn slash = rest := by
    intro file rest hplaced hrest
    exact List.splitOn_intercalate slash (fun n hn => (segments_rest hplaced n hn).2.1) hrest
  have hnames : ∀ {file : JsString} {rest : List JsString}, h.Admits root file → Placed h root file rest → rest ≠ [] →
      h.rel root file = [slash].intercalate rest → ∀ {last : JsString}, rest.getLast? = some last →
      (AdmissibleNames h.lower ((h.rel root file).splitOn slash) ↔ UncutName h.lower last) := by
    intro file rest hadmits hplaced hrest hrel last hlast
    have hallowed := hadmits.allowed
    have hadmissible := hadmits.admissible
    rw [hrel] at hallowed hadmissible ⊢
    rw [hsplit hplaced hrest]
    exact admissibleNames_iff (segments_rest hplaced) hlast hallowed hadmissible
  constructor
  · intro hsound
    have hjoined : ∀ {file : JsString} {rest : List JsString}, h.Admits root file → Placed h root file rest → rest ≠ [] →
        h.rel root file = [slash].intercalate rest := fun hadmits hplaced hrest =>
      (baseOf_placed hplaced hrest).1 (hsound.joined _ _ (hresult hadmits))
    refine ⟨?_, ?_, ?_, ?_, ?_⟩
    · intro file hadmits hmissing home q hhome hq
      have htarget : h.target root file = h.spelled root file := by rw [Host.target, hmissing, Option.getD_none]
      exact hsound.contained file _ (hresult hadmits) home q hhome (htarget ▸ hq)
    · intro file hadmits
      obtain ⟨rest, hrest, hplaced⟩ := hadmits.placed
      exact ((hplaced.joined_iff hrest).1 (hjoined hadmits hplaced hrest)).2
    · intro file hadmits x hx
      obtain ⟨rest, hrest, hplaced⟩ := hadmits.placed
      rw [(baseOf_placed hplaced hrest).1 hx]
      exact ((hplaced.joined_iff hrest).1 (hjoined hadmits hplaced hrest)).1
    · intro file hadmits last hend
      obtain ⟨rest, hrest, hplaced⟩ := hadmits.placed
      rw [hlast hplaced hrest] at hend
      exact (hnames hadmits hplaced hrest (hjoined hadmits hplaced hrest) hend).1
        (hsound.admissible file _ (hresult hadmits))
    · intro path hyields hvisible hallowed
      exact (hyields.accepted_iff hvisible hallowed).1 (hsound.yielded path hyields hvisible hallowed)
  · intro hclean
    have hjoined : ∀ {file : JsString} {rest : List JsString}, h.Admits root file → Placed h root file rest → rest ≠ [] →
        h.rel root file = [slash].intercalate rest := fun hadmits hplaced hrest =>
      (hplaced.joined_iff hrest).2
        ⟨hclean.led _ hadmits _ ((baseOf_placed hplaced hrest).2 rfl), hclean.apart _ hadmits⟩
    refine ⟨?_, ?_, ?_, ?_, ?_, ?_⟩
    · intro file r hr home q hhome hq
      obtain ⟨hadmits, rfl⟩ := resolveRepoPath_eq_some.1 hr
      cases hreal : h.realNames (h.spelled root file) with
      | none =>
        have hmissing : h.tryRealpath (h.spelled root file) = none := by rw [Host.tryRealpath, hreal, Option.map_none]
        have htarget : h.target root file = h.spelled root file := by rw [Host.target, hmissing, Option.getD_none]
        exact hclean.settled file hadmits hmissing home q hhome (htarget ▸ hq)
      | some q' => exact hadmits.contained_real hreal hhome hq
    · intro file r hr
      obtain ⟨hadmits, rfl⟩ := resolveRepoPath_eq_some.1 hr
      obtain ⟨rest, hrest, hplaced⟩ := hadmits.placed
      exact (baseOf_placed hplaced hrest).2 (hjoined hadmits hplaced hrest)
    · intro file r hr
      obtain ⟨hadmits, rfl⟩ := resolveRepoPath_eq_some.1 hr
      obtain ⟨rest, hrest, hplaced⟩ := hadmits.placed
      obtain ⟨last, hend⟩ : ∃ last, rest.getLast? = some last := ⟨_, List.getLast?_eq_some_getLast hrest⟩
      exact (hnames hadmits hplaced hrest (hjoined hadmits hplaced hrest) hend).2
        (hclean.uncut file hadmits last ((hlast hplaced hrest).trans hend))
    · intro file r hr
      obtain ⟨hadmits, rfl⟩ := resolveRepoPath_eq_some.1 hr
      refine ⟨h.form root file, ?_, hadmits.kept⟩
      rw [Host.form, matchedRoot]
      split
      · exact .inr rfl
      · exact .inl rfl
    · intro root' file file' t hroots hnul hnul' hreal hreal'
      exact resolveRepoPath_respelled hroots hnul hnul' hreal hreal'
    · intro path hyields hvisible hallowed
      exact (hyields.accepted_iff hvisible hallowed).2 (hclean.legible path hyields hvisible hallowed)

/-- Two directories beside each other, and in the first a link to the second. -/
def linkedTree : FileTree JsString where
  entry p :=
    if p = [] ∨ p = [ascii "r"] ∨ p = [ascii "o"] then some .dir
    else if p = [ascii "r", ascii "l"] then some (.link true [.into (ascii "o")])
    else none
  top := if_pos (.inl rfl)
  parent := by
    intro p n e he
    split at he
    case isTrue h =>
      rcases h with h | h | h
      · simp at h
      · rw [(List.append_eq_singleton_iff.1 h).resolve_right (by simp) |>.1]
        exact if_pos (.inl rfl)
      · rw [(List.append_eq_singleton_iff.1 h).resolve_right (by simp) |>.1]
        exact if_pos (.inl rfl)
    case isFalse =>
      split at he
      case isTrue h =>
        have hp : p = [ascii "r"] := List.append_inj_left' (show p ++ [n] = [ascii "r"] ++ [ascii "l"] from h) rfl
        rw [hp]
        exact if_pos (.inr (.inl rfl))
      case isFalse => cases he

instance (name : JsString) : Decidable (FileName name) := inferInstanceAs (Decidable (_ ∧ _ ∧ _))

def linkedDisk : Disk where
  toFileTree := linkedTree
  named := by
    have hnames : FileName (ascii "r") ∧ FileName (ascii "o") ∧ FileName (ascii "l") := by decide +kernel
    intro p n e he
    change (if _ then _ else _) = _ at he
    split at he
    case isTrue h =>
      rcases h with h | h | h
      · simp at h
      · have hn : [n] = [ascii "r"] := List.append_inj_right' (show p ++ [n] = [] ++ [ascii "r"] from h) rfl
        rw [List.singleton_inj.1 hn]
        exact hnames.1
      · have hn : [n] = [ascii "o"] := List.append_inj_right' (show p ++ [n] = [] ++ [ascii "o"] from h) rfl
        rw [List.singleton_inj.1 hn]
        exact hnames.2.1
    case isFalse =>
      split at he
      case isTrue h =>
        have hn : [n] = [ascii "l"] := List.append_inj_right' (show p ++ [n] = [ascii "r"] ++ [ascii "l"] from h) rfl
        rw [List.singleton_inj.1 hn]
        exact hnames.2.2
      case isFalse => cases he

def asciiLowerCase : LowerCase where
  toLowerCase := Cli.toLowerCase
  images s := by
    refine ⟨s.map fun u => [Cli.asciiLower u], ?_, ?_⟩
    · rw [List.forall₂_map_right_iff, List.forall₂_same]
      intro u _
      refine ⟨fun _ => rfl, fun hu => ⟨List.cons_ne_nil _ _, fun v hv hlt => ?_⟩⟩
      have hkept : Cli.asciiLower u = u := by
        unfold Cli.asciiLower
        rw [if_neg]
        rw [Bool.and_eq_true, decide_eq_true_eq, decide_eq_true_eq]
        rintro ⟨-, hle⟩
        exact absurd (UInt16.le_trans hu hle) (by decide)
      rw [List.mem_singleton.1 hv, hkept] at hlt
      exact absurd hlt (UInt16.not_lt.2 hu)
    · rw [Cli.toLowerCase, List.map_eq_flatMap]
      rfl

/-- A host on which no ignore rule excludes a path. -/
def linkedHost : Host := ⟨linkedDisk, 40, ascii "/", asciiLowerCase, fun _ _ => false⟩

/-- A file that does not exist yet, spelled below a link out of the root, is let through. -/
theorem linkedHost_unsound : ¬ Sound linkedHost (ascii "/r") := by
  intro hsound
  have hresolved : resolveRepoPath linkedHost (ascii "/r") (ascii "l/n.ts") = some ⟨ascii "/r/l/n.ts", ascii "l/n.ts"⟩ := by
    decide +kernel
  have hhome : linkedHost.Leads (linkedHost.rootAbs (ascii "/r")) [ascii "r"] :=
    leads_of_realNames (by decide +kernel)
  have hsteps : pathSteps (ascii "/r/l/n.ts") = [.stay, .into (ascii "r"), .into (ascii "l"), .into (ascii "n.ts")] := by
    decide +kernel
  have hplace : linkedHost.Leads (ascii "/r/l/n.ts") [ascii "o", ascii "n.ts"] := by
    rw [Host.Leads, hsteps]
    have hlink : linkedTree.entry ([ascii "r"] ++ [ascii "l"]) = some (.link true [.into (ascii "o")]) := by decide +kernel
    refine .stay (.into ?_ (.link hlink (.into ?_ (.into ?_ (.here _)))))
    · exact FileTree.Plain.not_link (.inr (by decide +kernel))
    · exact FileTree.Plain.not_link (.inr (by decide +kernel))
    · intro absolute target hlink
      have hnone : linkedTree.entry [ascii "o", ascii "n.ts"] = none := by decide +kernel
      exact absurd (hnone.symm.trans hlink) (by simp)
  exact absurd (hsound.contained _ _ hresolved _ _ hhome hplace) (by decide +kernel)

end Hayven.Db.Pack
