import Hayven.Graph.IdScheme
import Hayven.Lib.Sole
/-!
# Names within a package

`graph/nameIndex.ts`. A package owns a name if exactly one id of its definitions
goes by it: `lookup_ofNodes`. A directory's name holds no NUL, so the pair of the two
parts stands for the key that the source writes as one text.
-/
open Hayven.Lib

namespace Hayven.Graph

/-- The names of the definitions of each package; `Sole.many` is the mark `AMBIGUOUS`. -/
structure PackageScopedNameIndex where
  byQualified : KeyedMap (JsString × JsString) (Sole JsString)
  byName : KeyedMap (JsString × JsString) (Sole JsString)

namespace PackageScopedNameIndex

def empty : PackageScopedNameIndex := ⟨.empty, .empty⟩

/-- A module is imported, not called: it has no name here. -/
def add (index : PackageScopedNameIndex) (pkg : JsString) (n : GraphNode) : PackageScopedNameIndex :=
  if n.kind = .module then index
  else ⟨noteAt index.byQualified (pkg, n.qualifiedName) n.id, noteAt index.byName (pkg, n.name) n.id⟩

/-- The qualified name first; an ambiguous one is a miss, and the bare name has its turn. -/
def lookup (index : PackageScopedNameIndex) (pkg name : JsString) : Option JsString :=
  ((index.byQualified.get (pkg, name)).bind Sole.value).or ((index.byName.get (pkg, name)).bind Sole.value)

/-- The index of some nodes. -/
def ofNodes (pkgOf : JsString → JsString) (nodes : List GraphNode) : PackageScopedNameIndex :=
  nodes.foldl (fun index n => index.add (pkgOf n.file) n) empty

end PackageScopedNameIndex

/-! ## Owners -/

/-- The definitions of a package that can be called by name. -/
def definitions (pkgOf : JsString → JsString) (nodes : List GraphNode) (pkg : JsString) : List GraphNode :=
  nodes.filter fun n => n.kind ≠ .module ∧ pkgOf n.file = pkg

/-- The ids of the definitions that a name, read by `nameOf`, stands for. -/
def idsNamed (nameOf : GraphNode → JsString) (nodes : List GraphNode) (name : JsString) : List JsString :=
  (nodes.filter (nameOf · = name)).map (·.id)

/-- The definition that a name stands for in a package, if there is just one. -/
def owner (pkgOf : JsString → JsString) (nodes : List GraphNode) (pkg name : JsString) : Option JsString :=
  (soleValue (idsNamed (·.qualifiedName) (definitions pkgOf nodes pkg) name)).or
    (soleValue (idsNamed (·.name) (definitions pkgOf nodes pkg) name))

theorem mem_definitions {pkgOf : JsString → JsString} {nodes : List GraphNode} {pkg : JsString} {n : GraphNode} :
    n ∈ definitions pkgOf nodes pkg ↔ n ∈ nodes ∧ n.kind ≠ .module ∧ pkgOf n.file = pkg := by
  simp [definitions]

theorem mem_idsNamed {nameOf : GraphNode → JsString} {nodes : List GraphNode} {name id : JsString} :
    id ∈ idsNamed nameOf nodes name ↔ ∃ n ∈ nodes, nameOf n = name ∧ n.id = id := by
  simp [idsNamed, and_assoc]

/-- Only the nodes that go by a name decide who owns it. -/
theorem owner_congr {pkgOf : JsString → JsString} {nodes nodes' : List GraphNode} {pkg name : JsString}
    (h : ∀ n, n.name = name ∨ n.qualifiedName = name → (n ∈ nodes ↔ n ∈ nodes')) :
    owner pkgOf nodes pkg name = owner pkgOf nodes' pkg name := by
  have hids : ∀ nameOf : GraphNode → JsString, (∀ n, nameOf n = name → (n ∈ nodes ↔ n ∈ nodes')) →
      ∀ id, id ∈ idsNamed nameOf (definitions pkgOf nodes pkg) name ↔
        id ∈ idsNamed nameOf (definitions pkgOf nodes' pkg) name := by
    intro nameOf hmem id
    simp only [mem_idsNamed, mem_definitions]
    refine exists_congr fun n => ?_
    constructor
    · rintro ⟨⟨hn, hrest⟩, hname, hid⟩
      exact ⟨⟨(hmem n hname).1 hn, hrest⟩, hname, hid⟩
    · rintro ⟨⟨hn, hrest⟩, hname, hid⟩
      exact ⟨⟨(hmem n hname).2 hn, hrest⟩, hname, hid⟩
  rw [owner, owner, soleValue_congr (hids _ fun n hn => h n (.inr hn)),
    soleValue_congr (hids _ fun n hn => h n (.inl hn))]

theorem owner_mem {pkgOf : JsString → JsString} {nodes : List GraphNode} {pkg name id : JsString}
    (h : owner pkgOf nodes pkg name = some id) : ∃ n ∈ nodes, n.id = id ∧ pkgOf n.file = pkg := by
  have hsole : ∀ {nameOf : GraphNode → JsString},
      soleValue (idsNamed nameOf (definitions pkgOf nodes pkg) name) = some id →
        ∃ n ∈ nodes, n.id = id ∧ pkgOf n.file = pkg := by
    intro nameOf hone
    obtain ⟨n, hn, -, hid⟩ := mem_idsNamed.1 (soleValue_eq_some.1 hone).1
    obtain ⟨hmem, -, hpkg⟩ := mem_definitions.1 hn
    exact ⟨n, hmem, hid, hpkg⟩
  rcases Option.or_eq_some_iff.1 h with hqn | ⟨-, hname⟩
  · exact hsole hqn
  · exact hsole hname

/-! ## What the index holds -/

namespace PackageScopedNameIndex

/-- Modules left out, the two maps are filled independently. -/
theorem foldl_add (pkgOf : JsString → JsString) (nodes : List GraphNode) (index : PackageScopedNameIndex) :
    nodes.foldl (fun index n => index.add (pkgOf n.file) n) index =
      ⟨(nodes.filter (·.kind ≠ .module)).foldl
          (fun m n => noteAt m (pkgOf n.file, n.qualifiedName) n.id) index.byQualified,
        (nodes.filter (·.kind ≠ .module)).foldl (fun m n => noteAt m (pkgOf n.file, n.name) n.id) index.byName⟩ := by
  induction nodes generalizing index with
  | nil => rfl
  | cons n nodes ih =>
    rw [List.foldl_cons, ih]
    by_cases hmodule : n.kind = .module
    · rw [List.filter_cons_of_neg (by simpa using hmodule), add, if_pos hmodule]
    · rw [List.filter_cons_of_pos (by simpa using hmodule), add, if_neg hmodule]
      rfl

theorem filter_key (pkgOf : JsString → JsString) (nodes : List GraphNode) (nameOf : GraphNode → JsString)
    (pkg name : JsString) :
    ((nodes.filter (·.kind ≠ .module)).filter fun n => (pkgOf n.file, nameOf n) = (pkg, name)).map (·.id) =
      idsNamed nameOf (definitions pkgOf nodes pkg) name := by
  rw [idsNamed, definitions, List.filter_filter, List.filter_filter]
  congr 2
  funext n
  simp only [Prod.mk.injEq, Bool.decide_and]
  ac_rfl

/-- A lookup finds the owner of the name. -/
theorem lookup_ofNodes (pkgOf : JsString → JsString) (nodes : List GraphNode) (pkg name : JsString) :
    (ofNodes pkgOf nodes).lookup pkg name = owner pkgOf nodes pkg name := by
  rw [ofNodes, foldl_add, lookup]
  simp only [empty, get_index, filter_key]
  rfl

end PackageScopedNameIndex

end Hayven.Graph
