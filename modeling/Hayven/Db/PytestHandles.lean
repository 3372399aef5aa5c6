import Hayven.Db.TestNodes
import Hayven.Graph.NodeMarkdown
import Mathlib.Data.List.Infix
/-!
# Handles for pytest

The definitions of a Python file as the extractor names them, the ids under which pytest collects
them by default, and the handle that `classifyTest` makes of a name and the end of an id. The
handle names one class at most: `handles_exact_iff`.
-/
open Hayven.Lib Hayven.Native

namespace Hayven.Db

/-! ## Definitions of a Python file -/

/-- An identifier. -/
structure PyName where
  text : JsString
  nonempty : text ≠ []
  plain : ∀ u ∈ text, u ≠ dot ∧ u ≠ slash ∧ u ≠ 0x3C

/-- The head of a `class` or a `def`. -/
structure PyScope where
  isClass : Bool
  name : PyName

inductive PyDefinition where
  | mk (head : PyScope) (body : List PyDefinition)

/-- A definition and the ones around it, innermost first. -/
structure PyNode where
  head : PyScope
  scopes : List PyScope

mutual

def emittedOf (scopes : List PyScope) : PyDefinition → List PyNode
  | .mk head body => ⟨head, scopes⟩ :: emittedIn (head :: scopes) body

/-- Every definition of a body, nested ones too. -/
def emittedIn (scopes : List PyScope) : List PyDefinition → List PyNode
  | [] => []
  | d :: rest => emittedOf scopes d ++ emittedIn scopes rest

end

/-! ## Records -/

/-- The syntax node as the walk up its parents looks at it. -/
def PyScope.syntaxNode (s : PyScope) : SyntaxNode :=
  if s.isClass then .mk .classDefinition [] [(some .name, .mk .identifier s.name.text [])] else .mk .other [] []

def PyNode.captured (n : PyNode) : Match where
  capture := if n.head.isClass then .class else .function
  name := n.head.name.text
  node := n.head.syntaxNode
  parents := n.scopes.map PyScope.syntaxNode

def pythonSource (path : RepoPath) (definitions : List PyDefinition) : SourceFile where
  path := path
  language := .python
  captures := (emittedIn [] definitions).map PyNode.captured
  impls := []

/-- The record of a definition of the file. -/
def PyNode.record (path : RepoPath) (n : PyNode) : Graph.NodeRecord := (pythonSource path []).definitionRecord n.captured

/-- The candidate of a record; its id ends in the qualified name. -/
def pythonCandidate (idPrefix : JsString) (r : Graph.NodeRecord) : TestCandidate where
  id := idPrefix ++ slash :: r.qualifiedName
  name := r.name
  file := some r.file
  language := some (ascii "python")
  kind := some (Graph.kindText r.kind)

def runnableOf (path : RepoPath) (idPrefix : JsString) (n : PyNode) : Option JsString :=
  (classifyTest (pythonCandidate idPrefix (n.record path)) DEFAULT_TEST_PATH_PATTERNS).bind (·.runnable)

/-! ## Collection -/

/-- `python_files`: `test_*.py` and `*_test.py`. -/
def pythonFile (name : JsString) : Bool :=
  ((ascii "test_").isPrefixOf name && (ascii ".py").isSuffixOf name) || (ascii "_test.py").isSuffixOf name

/-- `python_classes` and `python_functions`. -/
def collectable (s : PyScope) : Bool := (ascii (if s.isClass then "Test" else "test")).isPrefixOf s.name.text

def nodeIdIn (parent : JsString) (s : PyScope) : JsString := parent ++ ascii "::" ++ s.name.text

mutual

def collectOf (parent : JsString) (scopes : List PyScope) : PyDefinition → List (PyNode × JsString)
  | .mk head body =>
    if collectable head then
      (⟨head, scopes⟩, nodeIdIn parent head) ::
        if head.isClass then collectIn (nodeIdIn parent head) (head :: scopes) body else []
    else []

/-- What is collected in a module or a class, with the node ids. -/
def collectIn (parent : JsString) (scopes : List PyScope) : List PyDefinition → List (PyNode × JsString)
  | [] => []
  | d :: rest => collectOf parent scopes d ++ collectIn parent scopes rest

end

def collected (path : RepoPath) (definitions : List PyDefinition) : List (PyNode × JsString) :=
  if pythonFile path.name then collectIn path.text [] definitions else []

/-- A handle is the id under which its definition is collected, and what is collected has one. -/
def HandlesExact (path : RepoPath) (idPrefix : JsString) (definitions : List PyDefinition) : Prop :=
  ∀ n ∈ emittedIn [] definitions,
    (∀ handle, runnableOf path idPrefix n = some handle → (n, handle) ∈ collected path definitions) ∧
    ((∃ id, (n, id) ∈ collected path definitions) → runnableOf path idPrefix n ≠ none)

/-! ## Where it is exact -/

namespace PyNode

/-- The classes around a definition, innermost first. -/
def classes (n : PyNode) : List PyScope := n.scopes.filter (·.isClass)

/-- The name starts like a test's, and so does that of the class it stands in. -/
def testShaped (n : PyNode) : Bool :=
  ((ascii "test").isPrefixOf n.head.name.text || (ascii "Test").isPrefixOf n.head.name.text) &&
    n.classes.head?.all fun c => (ascii "Test").isPrefixOf c.name.text

/-- At the top of the module, or in a class that is there. -/
def shallow (n : PyNode) : Bool := n.scopes.all (·.isClass) && n.scopes.length ≤ 1

/-- Every class around it is collected, and it is. -/
def reachedBy (n : PyNode) : Bool := n.scopes.all (fun s => s.isClass && collectable s) && collectable n.head

end PyNode

/-! ## Names -/

theorem dot_not_mem (name : PyName) : dot ∉ name.text := fun h => (name.plain _ h).1 rfl

theorem enclosingName_syntaxNode (s : PyScope) :
    enclosingName .python s.syntaxNode = if s.isClass then some s.name.text else none := by
  unfold PyScope.syntaxNode
  split <;> rfl

/-- The names of the classes around a definition, the outermost first. -/
def PyNode.classNames (n : PyNode) : List JsString := (n.classes.map fun c => c.name.text).reverse

theorem qualifiedName_record (path : RepoPath) (n : PyNode) :
    (n.record path).qualifiedName = below dot n.classNames n.head.name.text := by
  have hnames : ((n.scopes.map PyScope.syntaxNode).filterMap (enclosingName .python)).reverse = n.classNames := by
    unfold PyNode.classNames PyNode.classes
    rw [List.filterMap_map]
    congr 1
    induction n.scopes with
    | nil => rfl
    | cons s rest ih =>
      cases hclass : s.isClass with
      | true =>
        have hname : (enclosingName .python ∘ PyScope.syntaxNode) s = some s.name.text :=
          (enclosingName_syntaxNode s).trans (if_pos hclass)
        rw [List.filterMap_cons_some hname, ih, List.filter_cons_of_pos hclass, List.map_cons]
      | false =>
        have hnone : (enclosingName .python ∘ PyScope.syntaxNode) s = none :=
          (enclosingName_syntaxNode s).trans (if_neg (by simp [hclass]))
        rw [List.filterMap_cons_none hnone, ih, List.filter_cons_of_neg (by simp [hclass])]
  have hqualified : (n.record path).qualifiedName =
      qualifiedName n.head.name.text .python (n.scopes.map PyScope.syntaxNode) := by
    cases hclass : n.head.isClass <;>
      simp [PyNode.record, SourceFile.definitionRecord, matchQualifiedName, PyNode.captured, pythonSource, hclass]
  rw [hqualified, qualifiedName, hnames, below_eq_intercalate]
  cases hnone : n.classNames with
  | nil => simp
  | cons name names => rfl

/-- Text above the last class ends with a dot. -/
theorem below_split (sep : UInt16) (segs : List JsString) (tail : JsString) :
    ∃ outer, below sep segs tail = outer ++ tail ∧ (outer = [] ∨ ∃ o, outer = o ++ [sep]) := by
  induction segs with
  | nil => exact ⟨[], rfl, .inl rfl⟩
  | cons seg segs ih =>
    obtain ⟨outer, htext, hends⟩ := ih
    refine ⟨seg ++ sep :: outer, by rw [below_cons, htext]; simp, .inr ?_⟩
    rcases hends with rfl | ⟨o, rfl⟩
    · exact ⟨seg, rfl⟩
    · exact ⟨seg ++ sep :: o, by simp⟩

/-- A name without a dot is its own leaf. -/
theorem qualnameLeaf_of_not_mem {name : JsString} (h : dot ∉ name) : qualnameLeaf name = name := by
  rw [qualnameLeaf, lastIndexOf_of_not_mem h]

theorem qualnameLeaf_append {outer name : JsString} (h : dot ∉ name) : qualnameLeaf (outer ++ dot :: name) = name := by
  rw [qualnameLeaf, lastIndexOf_append_cons outer h]
  simp

theorem idTailOf_append (before : JsString) {tail : JsString} (h : slash ∉ tail) :
    idTailOf (before ++ slash :: tail) = tail := by
  rw [idTailOf, lastIndexOf_append_cons before h]
  simp

theorem qualifierOf_of_not_mem {name : JsString} (h : dot ∉ name) : qualifierOf name = none := by
  rw [qualifierOf, lastIndexOf_of_not_mem h]

theorem qualifierOf_append {outer : JsString} {cls name : PyName} (houter : outer = [] ∨ ∃ o, outer = o ++ [dot]) :
    qualifierOf (outer ++ (cls.text ++ dot :: name.text)) = some cls.text := by
  have hlong : 0 < (outer ++ cls.text).length := by
    have := List.length_pos_iff.2 cls.nonempty
    rw [List.length_append]
    omega
  rw [qualifierOf, ← List.append_assoc, lastIndexOf_append_cons _ (dot_not_mem name)]
  dsimp only
  rw [if_pos hlong, List.take_left]
  rcases houter with rfl | ⟨o, rfl⟩
  · rw [List.nil_append, qualnameLeaf_of_not_mem (dot_not_mem cls)]
  · rw [List.append_assoc, List.singleton_append, qualnameLeaf_append (dot_not_mem cls)]

/-- A name as the handle's derivation reads it: its leaf, and the class that qualifies it. -/
theorem qualified_spec (path : RepoPath) (n : PyNode) :
    qualnameLeaf (n.record path).qualifiedName = n.head.name.text ∧
      qualifierOf (n.record path).qualifiedName = n.classes.head?.map (·.name.text) ∧
      (dot ∈ (n.record path).qualifiedName ↔ n.classes ≠ []) := by
  rw [qualifiedName_record]
  unfold PyNode.classNames
  cases hclasses : n.classes with
  | nil =>
    have hbare := dot_not_mem n.head.name
    exact ⟨qualnameLeaf_of_not_mem hbare, qualifierOf_of_not_mem hbare, fun h => absurd h hbare, fun h => absurd rfl h⟩
  | cons c rest =>
    obtain ⟨outer, htext, hends⟩ := below_split dot (rest.map fun c => c.name.text).reverse
      (c.name.text ++ dot :: n.head.name.text)
    have hbelow : below dot ((c :: rest).map fun c => c.name.text).reverse n.head.name.text =
        outer ++ (c.name.text ++ dot :: n.head.name.text) := by
      rw [List.map_cons, List.reverse_cons, below_append]
      exact htext
    rw [hbelow]
    refine ⟨?_, qualifierOf_append hends, fun _ => List.cons_ne_nil _ _, fun _ => ?_⟩
    · rw [← List.append_assoc]
      exact qualnameLeaf_append (dot_not_mem _)
    · exact List.mem_append_right _ (List.mem_append_right _ List.mem_cons_self)

theorem mem_qualifiedName {path : RepoPath} {n : PyNode} {u : UInt16} (hu : u ∈ (n.record path).qualifiedName) :
    u ≠ slash ∧ u ≠ 0x3C := by
  have hplain : ∀ (segs : List JsString) (tail : JsString), (∀ s ∈ segs, ∀ v ∈ s, v ≠ slash ∧ v ≠ 0x3C) →
      (∀ v ∈ tail, v ≠ slash ∧ v ≠ 0x3C) → ∀ v ∈ below dot segs tail, v ≠ slash ∧ v ≠ 0x3C := by
    intro segs tail hsegs htail
    induction segs with
    | nil => exact htail
    | cons seg segs ih =>
      obtain ⟨hseg, hsegs⟩ := List.forall_mem_cons.1 hsegs
      intro v hv
      rw [below_cons] at hv
      rcases List.mem_append.1 hv with hv | hv
      · exact hseg v hv
      · rcases List.mem_cons.1 hv with rfl | hv
        · decide
        · exact ih hsegs v hv
  rw [qualifiedName_record] at hu
  refine hplain _ _ ?_ (fun v hv => (n.head.name.plain v hv).2) u hu
  intro s hs
  obtain ⟨c, -, rfl⟩ := List.mem_map.1 (List.mem_reverse.1 hs)
  exact fun v hv => (c.name.plain v hv).2

/-! ## The handle -/

theorem includesText_iff {part s : JsString} : includesText part s = true ↔ part <:+: s := by
  rw [includesText, List.any_eq_true, List.infix_iff_prefix_suffix]
  constructor
  · rintro ⟨t, ht, hpart⟩
    exact ⟨t, List.isPrefixOf_iff_prefix.1 hpart, (List.mem_tails _ _).1 ht⟩
  · rintro ⟨t, hpart, ht⟩
    exact ⟨t, (List.mem_tails _ _).2 ht, List.isPrefixOf_iff_prefix.2 hpart⟩

/-- The mark of a nested scope stands in an id only before its last slash. -/
theorem includes_locals_iff (before : JsString) {tail : JsString} (h : (0x3C : UInt16) ∉ tail) :
    includesText (ascii ".<locals>.") (before ++ slash :: tail) = includesText (ascii ".<locals>.") before := by
  rw [Bool.eq_iff_iff, includesText_iff, includesText_iff]
  constructor
  · rintro ⟨a, b, hab⟩
    rcases List.append_eq_append_iff.1 hab with ⟨c, hbefore, -⟩ | ⟨c, hpart, hrest⟩
    · exact ⟨a, c, hbefore.symm⟩
    · cases c with
      | nil =>
        rw [List.append_nil] at hpart
        exact ⟨a, [], by rw [List.append_nil]; exact hpart⟩
      | cons u c =>
        -- the mark goes on beyond the slash: it holds it, or lies in the tail
        obtain ⟨rfl, htail⟩ := List.cons.inj hrest
        rcases List.append_eq_append_iff.1 hpart with ⟨d, -, hmark⟩ | ⟨d, -, hmark⟩
        · have hslash : slash ∈ ascii ".<locals>." := by
            rw [hmark]
            exact List.mem_append_right _ List.mem_cons_self
          exact absurd hslash (by decide)
        · cases d with
          | nil =>
            have hslash : slash ∈ ascii ".<locals>." := by
              rw [← List.nil_append (ascii ".<locals>."), ← hmark]
              exact List.mem_cons_self
            exact absurd hslash (by decide)
          | cons v d =>
            have hmem : ∀ v ∈ ascii ".<locals>.", v ∈ tail := by
              intro v hv
              rw [htail, (List.cons.inj hmark).2]
              exact List.mem_append_left _ (List.mem_append_right _ hv)
            exact absurd (hmem 0x3C (by decide)) h
  · exact fun hpiece => hpiece.trans (List.prefix_append _ _).isInfix

theorem idTailOf_suffix (id : JsString) : idTailOf id <:+ id := by
  unfold idTailOf
  split
  · exact List.drop_suffix _ _
  · exact List.suffix_rfl

/-- What pytest may collect from is a test file by its path. -/
theorem isTestFile_of_collectable {file : JsString} (h : isPytestCollectableFile file = true) :
    isTestFile file DEFAULT_TEST_PATH_PATTERNS = true := by
  have hfound (part : JsString) (hpart : part ∈ DEFAULT_TEST_PATH_PATTERNS)
      (hpiece : part <:+: idTailOf (normalizePath file)) : isTestFile file DEFAULT_TEST_PATH_PATTERNS = true := by
    have hany : DEFAULT_TEST_PATH_PATTERNS.any (fun p => includesText p (normalizePath file)) = true :=
      List.any_eq_true.2 ⟨part, hpart, includesText_iff.2 (hpiece.trans (idTailOf_suffix _).isInfix)⟩
    unfold isTestFile
    dsimp only
    rw [hany, Bool.or_true]
  unfold isPytestCollectableFile at h
  simp only [Bool.and_eq_true, Bool.or_eq_true, List.isSuffixOf_iff_suffix, List.isPrefixOf_iff_prefix] at h
  obtain ⟨⟨hpy, -⟩, hstem⟩ := h
  rcases hstem with hstem | ⟨hstem, -⟩
  · exact hfound _ (by decide) (hstem.trans (List.take_prefix _ _)).isInfix
  · obtain ⟨stem, hbase⟩ := hpy
    rw [← hbase] at hstem hfound
    have hstem : ascii "_test" <:+ stem := by
      rwa [List.length_append, show (ascii ".py").length = 3 from rfl, Nat.add_sub_cancel, List.take_left] at hstem
    obtain ⟨rest, rfl⟩ := hstem
    exact hfound (ascii "_test.") (by decide) ⟨rest, ascii "py", by simp [ascii]⟩

/-- The file, the nearest class and the name. -/
def handleText (path : RepoPath) (n : PyNode) : JsString :=
  path.text ++ (n.classes.head?.elim [] fun c => ascii "::" ++ c.name.text) ++ ascii "::" ++ n.head.name.text

/-- What the code asks of a definition before it makes a handle of it. -/
structure Handled (path : RepoPath) (idPrefix : JsString) (n : PyNode) : Prop where
  file : isPytestCollectableFile path.text = true
  unmarked : includesText (ascii ".<locals>.") idPrefix = false
  named : n.head.name.text ≠ ascii "test"
  shaped : n.testShaped = true

theorem pytestRunnable_record (path : RepoPath) (idPrefix : JsString) (n : PyNode)
    (hclass : ∀ c ∈ n.classes.head?, (ascii "Test").isPrefixOf c.name.text = true) :
    pytestRunnable path.text n.head.name.text (idPrefix ++ slash :: (n.record path).qualifiedName) =
      handleText path n := by
  obtain ⟨hleaf, hqualifier, hdot⟩ := qualified_spec path n
  have htail : idTailOf (idPrefix ++ slash :: (n.record path).qualifiedName) = (n.record path).qualifiedName :=
    idTailOf_append idPrefix fun h => (mem_qualifiedName h).1 rfl
  unfold pytestRunnable dottedName handleText
  rw [htail, if_neg (dot_not_mem _)]
  by_cases hnone : n.classes = []
  · rw [if_neg (mt hdot.1 (by simp [hnone]))]
    dsimp only
    rw [qualifierOf_of_not_mem (dot_not_mem _), hnone]
    simp
  · rw [if_pos (hdot.2 hnone)]
    dsimp only
    rw [hqualifier, hleaf]
    obtain ⟨c, rest, hcons⟩ := List.exists_cons_of_ne_nil hnone
    have hpascal : isPascalCase c.name.text = true := by
      obtain ⟨more, hmore⟩ := List.isPrefixOf_iff_prefix.1 (hclass c (by rw [hcons]; rfl))
      rw [← hmore]
      rfl
    rw [hcons, List.head?_cons, Option.map_some]
    dsimp only
    rw [if_pos hpascal]
    simp

theorem isCollectableTest_record (path : RepoPath) (idPrefix : JsString) (n : PyNode) :
    isCollectableTest (pythonCandidate idPrefix (n.record path)) = true ↔ Handled path idPrefix n := by
  obtain ⟨hleaf, hqualifier, -⟩ := qualified_spec path n
  have hmem : ∀ u ∈ (n.record path).qualifiedName, u ≠ slash ∧ u ≠ 0x3C := fun _ hu => mem_qualifiedName hu
  have htail := idTailOf_append idPrefix fun h => (hmem _ h).1 rfl
  have hid := includes_locals_iff idPrefix fun h => (hmem _ h).2 rfl
  have hbare : includesText (ascii ".<locals>.") n.head.name.text = false := by
    rw [Bool.eq_false_iff, ne_eq, includesText_iff]
    exact fun hpiece => (n.head.name.plain 0x3C (hpiece.subset (by decide))).2.2 rfl
  have hown : qualnameLeaf n.head.name.text = n.head.name.text := qualnameLeaf_of_not_mem (dot_not_mem _)
  let id := idPrefix ++ slash :: (n.record path).qualifiedName
  have hdotted : qualnameLeaf (dottedName n.head.name.text id) = n.head.name.text := by
    unfold dottedName
    rw [htail, if_neg (dot_not_mem _)]
    split
    · exact hleaf
    · exact hown
  have hrunner : inferRunner (some path.text) (some (ascii "python")) = .pytest := if_pos (.inr (by decide))
  have hclass : ([n.head.name.text, (n.record path).qualifiedName].any fun qual => (qualifierOf qual).any fun head =>
      !isPascalCase head || !(ascii "Test").isPrefixOf head) =
        !n.classes.head?.all fun c => (ascii "Test").isPrefixOf c.name.text := by
    have hpascal (name : JsString) : (!isPascalCase name || !(ascii "Test").isPrefixOf name) =
        !(ascii "Test").isPrefixOf name := by
      by_cases htest : (ascii "Test").isPrefixOf name = true
      · obtain ⟨more, rfl⟩ := List.isPrefixOf_iff_prefix.1 htest
        rfl
      · rw [Bool.not_eq_true] at htest
        rw [htest, Bool.not_false, Bool.or_true]
    rw [List.any_cons, List.any_cons, List.any_nil, qualifierOf_of_not_mem (dot_not_mem _), hqualifier]
    cases n.classes.head? with
    | none => rfl
    | some c => simp [hpascal]
  unfold isCollectableTest
  change (if inferRunner (some path.text) (some (ascii "python")) ≠ .pytest then true
    else if (some path.text).any (fun file => !isPytestCollectableFile file) then false
    else if includesText (ascii ".<locals>.") n.head.name.text || includesText (ascii ".<locals>.") id then false
    else if qualnameLeaf n.head.name.text = ascii "test" ∨ qualnameLeaf (idTailOf id) = ascii "test" then false
    else if [n.head.name.text, idTailOf id].any
      (fun qual => (qualifierOf qual).any fun head => !isPascalCase head || !(ascii "Test").isPrefixOf head) then false
    else (ascii "test").isPrefixOf (qualnameLeaf (dottedName n.head.name.text id)) ||
      (ascii "Test").isPrefixOf (qualnameLeaf (dottedName n.head.name.text id))) = true ↔ _
  rw [hrunner, hbare, hid, htail, hown, hleaf, hclass, hdotted, Bool.false_or, if_neg (not_not.2 rfl)]
  have hhandled : Handled path idPrefix n ↔ isPytestCollectableFile path.text = true ∧
      includesText (ascii ".<locals>.") idPrefix = false ∧ n.head.name.text ≠ ascii "test" ∧ n.testShaped = true :=
    ⟨fun h => ⟨h.file, h.unmarked, h.named, h.shaped⟩, fun h => ⟨h.1, h.2.1, h.2.2.1, h.2.2.2⟩⟩
  rw [hhandled, PyNode.testShaped, Option.any_some]
  cases isPytestCollectableFile path.text with
  | false => simp
  | true =>
    cases includesText (ascii ".<locals>.") idPrefix with
    | true => simp
    | false =>
      by_cases htest : n.head.name.text = ascii "test"
      · simp [htest]
      · cases n.classes.head?.all fun c => (ascii "Test").isPrefixOf c.name.text <;> simp [htest]

theorem runnableOf_eq (path : RepoPath) (idPrefix : JsString) (n : PyNode) (handle : JsString) :
    runnableOf path idPrefix n = some handle ↔ Handled path idPrefix n ∧ handle = handleText path n := by
  have hkind : (pythonCandidate idPrefix (n.record path)).kind ≠ some (ascii "module") := by
    have hfunction (b : Bool) : Graph.kindText (if b then .method else .function) ≠ ascii "module" := by
      cases b <;> decide
    change some (Graph.kindText (resolveKind .python n.captured)) ≠ some (ascii "module")
    rw [ne_eq, Option.some.injEq]
    unfold resolveKind PyNode.captured
    cases n.head.isClass with
    | true => exact (show Graph.kindText .class ≠ ascii "module" by decide)
    | false => exact hfunction _
  have hrunner : inferRunner (some path.text) (some (ascii "python")) = .pytest := if_pos (.inr (by decide))
  have hin : runnableIn (pythonCandidate idPrefix (n.record path)) .pytest DEFAULT_TEST_PATH_PATTERNS path.text =
      if isCollectableTest (pythonCandidate idPrefix (n.record path)) then
        some (pytestRunnable path.text n.head.name.text (idPrefix ++ slash :: (n.record path).qualifiedName))
      else none := by
    unfold runnableIn
    rw [if_neg hkind]
    rfl
  unfold runnableOf classifyTest
  by_cases htest : isTestNode (pythonCandidate idPrefix (n.record path)) DEFAULT_TEST_PATH_PATTERNS = true
  · rw [if_pos htest]
    change (some path.text).bind (runnableIn _ (inferRunner (some path.text) (some (ascii "python"))) _) =
      some handle ↔ _
    rw [hrunner, Option.bind_some, hin]
    by_cases hcollectable : isCollectableTest (pythonCandidate idPrefix (n.record path)) = true
    · have hhandled := (isCollectableTest_record path idPrefix n).1 hcollectable
      have hclass : ∀ c ∈ n.classes.head?, (ascii "Test").isPrefixOf c.name.text = true := by
        have hshaped := hhandled.shaped
        rw [PyNode.testShaped, Bool.and_eq_true] at hshaped
        exact fun c hc => (Option.all_eq_true _ _).1 hshaped.2 c hc
      rw [if_pos hcollectable, pytestRunnable_record path idPrefix n hclass, Option.some.injEq]
      exact ⟨fun h => ⟨hhandled, h.symm⟩, fun h => h.2.symm⟩
    · rw [if_neg hcollectable]
      exact ⟨fun h => (by cases h), fun h => absurd ((isCollectableTest_record path idPrefix n).2 h.1) hcollectable⟩
  · rw [if_neg htest]
    refine ⟨fun h => (by cases h), fun h => absurd ?_ htest⟩
    unfold isTestNode
    change (((some path.text).any fun file => isTestFile file DEFAULT_TEST_PATH_PATTERNS) || _) = true
    rw [Option.any_some, isTestFile_of_collectable h.1.file, Bool.true_or]

/-! ## What is collected -/

/-- The node id of nested scopes, innermost first. -/
def nodeIdOf (parent : JsString) : List PyScope → JsString
  | [] => parent
  | s :: outer => nodeIdIn (nodeIdOf parent outer) s

theorem nodeIdOf_append (parent : JsString) (scopes : List PyScope) (head : PyScope) :
    nodeIdOf parent (scopes ++ [head]) = nodeIdOf (nodeIdIn parent head) scopes := by
  induction scopes with
  | nil => rfl
  | cons s scopes ih => rw [List.cons_append, nodeIdOf, nodeIdOf, ih]

mutual

theorem scopes_emittedOf {scopes : List PyScope} {n : PyNode} : ∀ d : PyDefinition, n ∈ emittedOf scopes d →
    ∃ inner, n.scopes = inner ++ scopes
  | .mk head body, hn => by
    rw [emittedOf] at hn
    rcases List.mem_cons.1 hn with rfl | hn
    · exact ⟨[], rfl⟩
    · obtain ⟨inner, hinner⟩ := scopes_emittedIn body hn
      exact ⟨inner ++ [head], by rw [hinner, List.append_assoc]; rfl⟩

theorem scopes_emittedIn {scopes : List PyScope} {n : PyNode} : ∀ ds : List PyDefinition, n ∈ emittedIn scopes ds →
    ∃ inner, n.scopes = inner ++ scopes
  | [], hn => by
    rw [emittedIn] at hn
    exact absurd hn List.not_mem_nil
  | d :: ds, hn => by
    rw [emittedIn] at hn
    rcases List.mem_append.1 hn with hn | hn
    · exact scopes_emittedOf d hn
    · exact scopes_emittedIn ds hn

end

/-- The scopes below the given ones are classes that are collected, and so is the definition. -/
def CollectedUnder (parent : JsString) (scopes : List PyScope) (n : PyNode) (id : JsString) : Prop :=
  ∃ inner, n.scopes = inner ++ scopes ∧ (inner.all fun s => s.isClass && collectable s) = true ∧
    collectable n.head = true ∧ id = nodeIdOf parent (n.head :: inner)

mutual

theorem mem_collectOf {parent : JsString} {scopes : List PyScope} {n : PyNode} {id : JsString} : ∀ d : PyDefinition,
    (n, id) ∈ collectOf parent scopes d ↔ n ∈ emittedOf scopes d ∧ CollectedUnder parent scopes n id
  | .mk head body => by
    have hbody : (n, id) ∈ collectIn (nodeIdIn parent head) (head :: scopes) body ↔
        n ∈ emittedIn (head :: scopes) body ∧ CollectedUnder (nodeIdIn parent head) (head :: scopes) n id :=
      mem_collectIn body
    rw [collectOf, emittedOf]
    constructor
    · intro hn
      split at hn
      · rename_i hhead
        rcases List.mem_cons.1 hn with heq | hn
        · obtain ⟨rfl, rfl⟩ := Prod.mk.inj heq
          exact ⟨List.mem_cons_self, [], rfl, rfl, hhead, rfl⟩
        · split at hn
          · rename_i hclass
            obtain ⟨hemitted, inner, hscopes, hinner, hown, hid⟩ := hbody.1 hn
            refine ⟨List.mem_cons_of_mem _ hemitted, inner ++ [head], ?_, ?_, hown, ?_⟩
            · rw [hscopes, List.append_assoc]
              rfl
            · rw [List.all_append, hinner, List.all_cons, List.all_nil, hclass, hhead]
              rfl
            · rw [hid, ← nodeIdOf_append]
              rfl
          · exact absurd hn List.not_mem_nil
      · exact absurd hn List.not_mem_nil
    · rintro ⟨hn, inner, hscopes, hinner, hown, hid⟩
      rcases List.mem_cons.1 hn with rfl | hemitted
      · have hnil : inner = [] := List.append_left_eq_self.1 hscopes.symm
        subst hnil
        rw [if_pos hown, hid]
        exact List.mem_cons_self
      · -- the head is the innermost of the given scopes
        obtain ⟨inner', hinner'⟩ := scopes_emittedIn body hemitted
        have hsame : inner ++ scopes = (inner' ++ [head]) ++ scopes := by
          rw [← hscopes, hinner', List.append_assoc]
          rfl
        have hcut : inner = inner' ++ [head] := List.append_cancel_right hsame
        subst hcut
        rw [List.all_append, List.all_cons, List.all_nil, Bool.and_true, Bool.and_eq_true, Bool.and_eq_true] at hinner
        rw [if_pos hinner.2.2, if_pos hinner.2.1]
        refine List.mem_cons_of_mem _ (hbody.2 ⟨hemitted, inner', hinner', hinner.1, hown, ?_⟩)
        rw [hid, ← List.cons_append, nodeIdOf_append]

theorem mem_collectIn {parent : JsString} {scopes : List PyScope} {n : PyNode} {id : JsString} :
    ∀ ds : List PyDefinition,
    (n, id) ∈ collectIn parent scopes ds ↔ n ∈ emittedIn scopes ds ∧ CollectedUnder parent scopes n id
  | [] => by
    rw [collectIn, emittedIn]
    exact ⟨fun h => absurd h List.not_mem_nil, fun h => absurd h.1 List.not_mem_nil⟩
  | d :: ds => by
    rw [collectIn, emittedIn, List.mem_append, List.mem_append, mem_collectOf d, mem_collectIn ds, or_and_right]

end

theorem mem_collected {path : RepoPath} {definitions : List PyDefinition} {n : PyNode} {id : JsString}
    (hn : n ∈ emittedIn [] definitions) : (n, id) ∈ collected path definitions ↔
      pythonFile path.name = true ∧ n.reachedBy = true ∧ id = nodeIdOf path.text (n.head :: n.scopes) := by
  have hunder : CollectedUnder path.text [] n id ↔
      n.reachedBy = true ∧ id = nodeIdOf path.text (n.head :: n.scopes) := by
    unfold PyNode.reachedBy
    rw [Bool.and_eq_true]
    constructor
    · rintro ⟨inner, hscopes, hinner, hown, hid⟩
      rw [List.append_nil] at hscopes
      rw [hscopes]
      exact ⟨⟨hinner, hown⟩, hid⟩
    · rintro ⟨⟨hinner, hown⟩, hid⟩
      exact ⟨n.scopes, (List.append_nil _).symm, hinner, hown, hid⟩
  unfold collected
  by_cases hfile : pythonFile path.name = true
  · rw [if_pos hfile, mem_collectIn, hunder]
    exact ⟨fun h => ⟨hfile, h.2⟩, fun h => ⟨hn, h.2⟩⟩
  · rw [if_neg hfile]
    exact ⟨fun h => absurd h List.not_mem_nil, fun h => absurd h.1 hfile⟩

/-! ## The condition -/

/-- The text of a node id grows with every scope. -/
theorem nodeIdOf_eq_self {parent : JsString} {scopes : List PyScope} :
    nodeIdOf parent scopes = parent ↔ scopes = [] := by
  have hlength : ∀ scopes : List PyScope, parent.length + 2 * scopes.length ≤ (nodeIdOf parent scopes).length := by
    intro scopes
    induction scopes with
    | nil => exact le_rfl
    | cons s scopes ih =>
      rw [nodeIdOf, nodeIdIn, List.length_append, List.length_append, List.length_cons,
        show (ascii "::").length = 2 from rfl]
      omega
  constructor
  · intro heq
    have hle := hlength scopes
    rw [heq] at hle
    exact List.length_eq_zero_iff.1 (by omega)
  · rintro rfl
    rfl

/-- The handle names one class, the node id all of them. -/
theorem handleText_eq_iff {path : RepoPath} {n : PyNode} (hclasses : n.scopes.all (·.isClass) = true) :
    handleText path n = nodeIdOf path.text (n.head :: n.scopes) ↔ n.scopes.length ≤ 1 := by
  have hsame : n.classes = n.scopes := List.filter_eq_self.2 fun s hs => List.all_eq_true.1 hclasses s hs
  unfold handleText
  rw [hsame, nodeIdOf, nodeIdIn]
  cases n.scopes with
  | nil => simp [nodeIdOf]
  | cons c outer =>
    rw [List.head?_cons, Option.elim_some, nodeIdOf, nodeIdIn, List.append_left_inj, List.append_left_inj,
      ← List.append_assoc, List.append_left_inj, List.append_left_inj, eq_comm, nodeIdOf_eq_self, List.length_cons]
    constructor
    · rintro rfl
      exact le_rfl
    · intro hle
      exact List.length_eq_zero_iff.1 (by omega)

/-- A definition that the code and pytest agree on. -/
structure Agrees (path : RepoPath) (idPrefix : JsString) (n : PyNode) : Prop where
  /-- What gets a handle stands in a module that is collected, in one class at most, and is of the
  kind that its name says. -/
  plain : Handled path idPrefix n →
    pythonFile path.name = true ∧ n.shallow = true ∧ collectable n.head = true
  /-- What is collected is not called `test`, and neither its file nor its id are odd. -/
  kept : pythonFile path.name = true → n.reachedBy = true → isPytestCollectableFile path.text = true ∧
    includesText (ascii ".<locals>.") idPrefix = false ∧ n.head.name.text ≠ ascii "test"

theorem testShaped_of_reachedBy {n : PyNode} (h : n.reachedBy = true) : n.testShaped = true := by
  unfold PyNode.reachedBy at h
  rw [Bool.and_eq_true] at h
  obtain ⟨hscopes, hown⟩ := h
  have hall := List.all_eq_true.1 hscopes
  unfold PyNode.testShaped
  rw [Bool.and_eq_true, Bool.or_eq_true, Option.all_eq_true]
  refine ⟨?_, fun c hc => ?_⟩
  · unfold collectable at hown
    cases hclass : n.head.isClass with
    | true => exact .inr (by simpa [hclass] using hown)
    | false => exact .inl (by simpa [hclass] using hown)
  · have hmem := List.mem_filter.1 (List.mem_of_mem_head? hc)
    have hcls := (Bool.and_eq_true _ _).mp (hall c hmem.1)
    have htest := hcls.2
    unfold collectable at htest
    rwa [hcls.1] at htest

theorem reachedBy_of_shallow {n : PyNode} (hshaped : n.testShaped = true) (hshallow : n.shallow = true)
    (hown : collectable n.head = true) : n.reachedBy = true := by
  unfold PyNode.shallow at hshallow
  rw [Bool.and_eq_true, decide_eq_true_eq] at hshallow
  obtain ⟨hclasses, hlength⟩ := hshallow
  have hsame : n.classes = n.scopes := List.filter_eq_self.2 fun s hs => List.all_eq_true.1 hclasses s hs
  unfold PyNode.testShaped at hshaped
  rw [Bool.and_eq_true, hsame] at hshaped
  unfold PyNode.reachedBy
  rw [hown, Bool.and_true]
  apply List.all_eq_true.2
  intro s hs
  have hhead : n.scopes.head? = some s := by
    cases hscopes : n.scopes with
    | nil => rw [hscopes] at hs; cases hs
    | cons c outer =>
      rw [hscopes] at hs hlength
      have hnil : outer = [] := List.length_eq_zero_iff.1 (by rw [List.length_cons] at hlength; omega)
      subst hnil
      rw [List.mem_singleton.1 hs]
      rfl
  have hclass : s.isClass = true := List.all_eq_true.1 hclasses s hs
  have htest := (Option.all_eq_true _ _).1 hshaped.2 s hhead
  unfold collectable
  rw [hclass, if_pos rfl, htest]
  rfl

/-- Handles are node ids, and none is missing, exactly where the code and pytest agree on every
definition of the file. -/
theorem handles_exact_iff (path : RepoPath) (idPrefix : JsString) (definitions : List PyDefinition) :
    HandlesExact path idPrefix definitions ↔ ∀ n ∈ emittedIn [] definitions, Agrees path idPrefix n := by
  refine forall₂_congr fun n hn => ?_
  refine ⟨fun hexact => ⟨fun hhandled => ?_, fun hfile hreached => ?_⟩, fun hagrees => ⟨?_, ?_⟩⟩
  · obtain ⟨hfile, hreached, hid⟩ := (mem_collected hn).1
      (hexact.1 _ ((runnableOf_eq path idPrefix n _).2 ⟨hhandled, rfl⟩))
    have hboth := hreached
    unfold PyNode.reachedBy at hboth
    rw [Bool.and_eq_true] at hboth
    have hclasses : n.scopes.all (·.isClass) = true :=
      List.all_eq_true.2 fun s hs => ((Bool.and_eq_true _ _).mp (List.all_eq_true.1 hboth.1 s hs)).1
    refine ⟨hfile, ?_, hboth.2⟩
    unfold PyNode.shallow
    rw [hclasses, Bool.true_and, decide_eq_true_eq]
    exact (handleText_eq_iff hclasses).1 hid
  · have hsome := hexact.2 ⟨_, (mem_collected hn).2 ⟨hfile, hreached, rfl⟩⟩
    obtain ⟨handle, hhandle⟩ := Option.ne_none_iff_exists'.1 hsome
    have hhandled := ((runnableOf_eq path idPrefix n handle).1 hhandle).1
    exact ⟨hhandled.file, hhandled.unmarked, hhandled.named⟩
  · intro handle hhandle
    obtain ⟨hhandled, rfl⟩ := (runnableOf_eq path idPrefix n handle).1 hhandle
    obtain ⟨hfile, hshallow, hown⟩ := hagrees.plain hhandled
    refine (mem_collected hn).2 ⟨hfile, reachedBy_of_shallow hhandled.shaped hshallow hown, ?_⟩
    unfold PyNode.shallow at hshallow
    rw [Bool.and_eq_true, decide_eq_true_eq] at hshallow
    exact (handleText_eq_iff hshallow.1).2 hshallow.2
  · rintro ⟨id, hid⟩ hnone
    obtain ⟨hfile, hreached, -⟩ := (mem_collected hn).1 hid
    obtain ⟨hcode, hunmarked, hnamed⟩ := hagrees.kept hfile hreached
    have hhandled : Handled path idPrefix n := ⟨hcode, hunmarked, hnamed, testShaped_of_reachedBy hreached⟩
    rw [(runnableOf_eq path idPrefix n _).2 ⟨hhandled, rfl⟩] at hnone
    cases hnone

/-! ## A class in a class -/

section Example

def pyName (text : String) (nonempty : ascii text ≠ [] := by decide)
    (plain : ∀ u ∈ ascii text, u ≠ dot ∧ u ≠ slash ∧ u ≠ 0x3C := by decide) : PyName := ⟨ascii text, nonempty, plain⟩

def testsFile : RepoPath := ⟨[ascii "tests"], ascii "test_a.py", by decide, by decide⟩

/-- A test method of a test class that stands in another. -/
def nestedTests : List PyDefinition :=
  [.mk ⟨true, pyName "TestA"⟩ [.mk ⟨true, pyName "TestB"⟩ [.mk ⟨false, pyName "test_x"⟩ []]]]

/-- The handle leaves the outer class out, and pytest finds nothing under it. -/
theorem nestedTests_inexact : ¬ HandlesExact testsFile (ascii "tests/test_a") nestedTests := by
  intro hexact
  let inner : PyNode := ⟨⟨false, pyName "test_x"⟩, [⟨true, pyName "TestB"⟩, ⟨true, pyName "TestA"⟩]⟩
  have hemitted : inner ∈ emittedIn [] nestedTests := by
    simp [nestedTests, emittedIn, emittedOf, inner]
  have hhandle : runnableOf testsFile (ascii "tests/test_a") inner = some (ascii "tests/test_a.py::TestB::test_x") := by
    decide +kernel
  obtain ⟨-, -, hid⟩ := (mem_collected hemitted).1 ((hexact inner hemitted).1 _ hhandle)
  exact absurd hid (by decide +kernel)

end Example

end Hayven.Db
