import Hayven.Graph.ModuleLookups
/-!
# What a specifier resolves to

The tables of `SpecifierResolver` hold ids of the node set only, and each stage of
`resolve` answers out of a table. A dotted specifier may stand for a symbol below a
module, and it is looked up for every language.
-/
open Hayven.Lib Hayven.Native

namespace Hayven.Graph

/-! ## The tables -/

/-- The id stands for the file: its module node's, or the one derived from its path,
if some node has it. -/
def OfFile (nodes : List GraphNode) (path id : JsString) : Prop :=
  (∃ n ∈ nodes, n.kind = .module ∧ normalizePosix n.file = path ∧ n.id = id) ∨
    ((∃ n ∈ nodes, n.id = id) ∧ (∃ n ∈ nodes, normalizePosix n.file = path) ∧ moduleIdForFile path = some id)

namespace SpecifierResolver
variable {nodes : List GraphNode} {config : RepoConfig} {path key id : JsString}

theorem ofFile_of_get (h : (ofNodes config nodes).byFile.get path = some id) : OfFile nodes path id := by
  rw [get_byFile] at h
  rcases Option.or_eq_some_iff.1 h with hmodule | ⟨-, hderived⟩
  · obtain ⟨n, hn, hid⟩ := Option.map_eq_some_iff.1 hmodule
    obtain ⟨hmem, hof⟩ := List.mem_filter.1 (List.mem_of_getLast? hn)
    obtain ⟨hkind, hfile⟩ := of_decide_eq_true hof
    exact .inl ⟨n, hmem, hkind, hfile, hid⟩
  · right
    unfold derivedId at hderived
    split at hderived
    · rename_i hfile
      obtain ⟨hid, hmem⟩ := Option.filter_eq_some_iff.1 hderived
      obtain ⟨n, hn, hnid⟩ := List.mem_map.1 (of_decide_eq_true hmem)
      obtain ⟨n', hn', hpath⟩ := List.any_eq_true.1 hfile
      exact ⟨⟨n, hn, hnid⟩, ⟨n', hn', of_decide_eq_true hpath⟩, hid⟩
    · cases hderived

theorem module_of_importPath (h : (ofNodes config nodes).byImportPath.get key = some id) :
    ∃ n ∈ nodes, n.kind = .module ∧ importPathForFile n.file = key ∧ n.id = id := by
  rw [get_byImportPath] at h
  obtain ⟨n, hn, hid⟩ := Option.map_eq_some_iff.1 h
  obtain ⟨hmem, hat⟩ := List.mem_filter.1 (List.mem_of_head? hn)
  obtain ⟨hkind, hrest⟩ := of_decide_eq_true hat
  exact ⟨n, hmem, hkind, hrest.1, hid⟩

/-! ## The stages -/

theorem probeModule_ofFile {candidate : JsString} (h : probeModule (ofNodes config nodes).byFile candidate = some id) :
    ∃ path ∈ probePaths candidate, OfFile nodes path id := by
  obtain ⟨path, hpath, hget⟩ := List.exists_of_findSome?_eq_some h
  exact ⟨path, hpath, ofFile_of_get hget⟩

/-- The path of a relative specifier from its file's directory. -/
def joinedPath (srcFile spec : JsString) : JsString :=
  if posixDir srcFile = [] then spec else posixDir srcFile ++ slash :: spec

/-- The same path with its first `dist` read as `src`. -/
def sourcePath (srcFile spec : JsString) : JsString :=
  [slash].intercalate (swapDist ((normalizePosix (joinedPath srcFile spec)).splitOn slash))

theorem resolveRelative_ofFile {srcFile spec : JsString}
    (h : (ofNodes config nodes).resolveRelative (posixDir srcFile) spec = some id) :
    ∃ path, (path ∈ probePaths (joinedPath srcFile spec) ∨ path ∈ probePaths (sourcePath srcFile spec)) ∧
      OfFile nodes path id := by
  have hrelative : (ofNodes config nodes).resolveRelative (posixDir srcFile) spec =
      (probeModule (ofNodes config nodes).byFile (joinedPath srcFile spec)).or
        (if sourcePath srcFile spec ≠ normalizePosix (joinedPath srcFile spec) then
          probeModule (ofNodes config nodes).byFile (sourcePath srcFile spec) else none) := rfl
  rw [hrelative] at h
  rcases Option.or_eq_some_iff.1 h with hdirect | ⟨-, hswapped⟩
  · obtain ⟨path, hpath, hof⟩ := probeModule_ofFile hdirect
    exact ⟨path, .inl hpath, hof⟩
  · by_cases hswap : sourcePath srcFile spec ≠ normalizePosix (joinedPath srcFile spec)
    · rw [if_pos hswap] at hswapped
      obtain ⟨path, hpath, hof⟩ := probeModule_ofFile hswapped
      exact ⟨path, .inr hpath, hof⟩
    · rw [if_neg hswap] at hswapped
      cases hswapped

/-- A dotted specifier begins with the import path of a module node. -/
def BeginsAtModule (nodes : List GraphNode) (spec : JsString) (n : GraphNode) : Prop :=
  n ∈ nodes ∧ n.kind = .module ∧
    ∃ k, importPathForFile n.file = [slash].intercalate (((spec.splitOn dot).filter fun s => !s.isEmpty).take (k + 1))

/-- A node below another one. -/
def Below (n : GraphNode) (id : JsString) : Prop := (n.id ++ [slash]) <+: id

theorem resolveDotted_target {spec : JsString} (h : (ofNodes config nodes).resolveDotted spec = some id) :
    ∃ m, BeginsAtModule nodes spec m ∧ (m.id = id ∨ (Below m id ∧ ∃ n ∈ nodes, n.id = id)) := by
  unfold resolveDotted at h
  obtain ⟨k, -, hk⟩ := List.exists_of_findSome?_eq_some h
  obtain ⟨moduleId, hget, htarget⟩ := Option.map_eq_some_iff.1 hk
  obtain ⟨m, hm, hkind, hpath, rfl⟩ := module_of_importPath hget
  refine ⟨m, ⟨hm, hkind, k, hpath⟩, ?_⟩
  have hmem : id ∈ (ofNodes config nodes).idSet → ∃ n ∈ nodes, n.id = id := List.mem_map.1
  have hbelow : ∀ rest : JsString, m.id ++ slash :: rest = id → Below m id := by
    rintro rest rfl
    exact ⟨rest, by simp⟩
  unfold dottedTarget at htarget
  simp only at htarget
  split at htarget
  · exact .inl htarget
  split at htarget
  · rename_i hfull
    exact .inr ⟨hbelow _ htarget, hmem (htarget ▸ hfull)⟩
  split at htarget
  · rename_i hlast
    exact .inr ⟨hbelow _ htarget, hmem (htarget ▸ hlast)⟩
  · exact .inl htarget

/-! ## The guarantee -/

/-- The pattern of an alias matches a specifier. -/
def AliasMatches (spec pattern : JsString) : Prop :=
  if star ∈ pattern then
    (starMatch (pattern.takeWhile (· ≠ star)) (pattern.drop ((pattern.takeWhile (· ≠ star)).length + 1)) spec).isSome = true
  else spec = pattern

theorem expandEntry_eq_nil {spec baseDir : JsString} {entry : JsString × List JsString} (h : ¬ AliasMatches spec entry.1) :
    expandEntry spec baseDir entry = [] := by
  unfold expandEntry
  unfold AliasMatches at h
  simp only
  split
  · rename_i hstar
    rw [if_pos hstar] at h
    split
    · rename_i matched hmatch
      rw [hmatch] at h
      exact absurd rfl h
    · rfl
  · rename_i hstar
    rw [if_neg hstar] at h
    rw [if_neg h]

/-- The specifier is no package's name and no path below one. -/
def NamesNoPackage (config : RepoConfig) (spec : JsString) : Prop :=
  ∀ pkg ∈ config.packages, spec ≠ pkg.name ∧ ¬ (pkg.name ++ [slash]) <+: spec

theorem get_byName {packages : List WorkspacePackage} {name : JsString} {pkg : WorkspacePackage} :
    (WorkspaceMap.ofPackages packages).byName.get name = some pkg → pkg ∈ packages ∧ pkg.name = name := by
  have hfold : ∀ (l : List WorkspacePackage) (m : KeyedMap JsString WorkspacePackage),
      (l.foldl (fun m p => if m.has p.name then m else m.set p.name p) m).get name = some pkg →
        m.get name = some pkg ∨ (pkg ∈ l ∧ pkg.name = name) := by
    intro l
    induction l with
    | nil => exact fun m h => .inl h
    | cons p l ih =>
      intro m h
      rcases ih _ h with hget | ⟨hmem, hname⟩
      · simp only at hget
        split at hget
        · exact .inl hget
        · rw [KeyedMap.get_set] at hget
          split at hget
          · rename_i hname
            obtain rfl := Option.some.inj hget
            exact .inr ⟨List.mem_cons_self, hname⟩
          · exact .inl hget
      · exact .inr ⟨List.mem_cons_of_mem p hmem, hname⟩
  intro h
  rcases hfold packages .empty h with hempty | hfound
  · cases hempty
  · exact hfound

theorem foldl_longerMatch_none {spec : JsString} (l : List WorkspacePackage)
    (h : ∀ pkg ∈ l, ¬ (pkg.name ++ [slash]) <+: spec) : l.foldl (WorkspaceMap.longerMatch spec) none = none := by
  induction l with
  | nil => rfl
  | cons pkg l ih =>
    have hpkg := h pkg List.mem_cons_self
    rw [← List.isPrefixOf_iff_prefix] at hpkg
    rw [List.foldl_cons, WorkspaceMap.longerMatch, if_neg fun hboth => hpkg hboth.1]
    exact ih fun p hp => h p (List.mem_cons_of_mem pkg hp)

theorem candidatePaths_eq_nil {spec : JsString} (h : NamesNoPackage config spec) :
    config.workspace.candidatePaths spec = [] := by
  have hmatch : config.workspace.matchSpecifier spec = none := by
    unfold WorkspaceMap.matchSpecifier
    split
    · rfl
    split
    · rename_i pkg hget
      obtain ⟨hmem, hname⟩ := get_byName hget
      exact absurd hname.symm (h pkg hmem).1
    · rw [foldl_longerMatch_none]
      · rfl
      · intro pkg hpkg
        obtain ⟨name, hget⟩ := KeyedMap.mem_values.1 hpkg
        exact (h pkg (get_byName hget).1).2
  rw [WorkspaceMap.candidatePaths, hmatch]

/-- What `resolve` promises of its answer. -/
structure Sound (config : RepoConfig) (nodes : List GraphNode) (srcFile spec id : JsString) : Prop where
  target : (∃ n ∈ nodes, n.kind = .module ∧ n.id = id) ∨
    ((∃ n ∈ nodes, n.id = id) ∧ ((∃ path, OfFile nodes path id) ∨ ∃ m, BeginsAtModule nodes spec m ∧ Below m id))
  relative : isRelative spec = true → ∃ path,
    (path ∈ probePaths (joinedPath srcFile spec) ∨ path ∈ probePaths (sourcePath srcFile spec)) ∧ OfFile nodes path id
  bare : isRelative spec = false → NamesNoPackage config spec →
    (∀ ts, config.nearest (posixDir srcFile) = some ts → ∀ entry ∈ ts.entries, ¬ AliasMatches spec entry.1) →
    isDottedInternalCandidate spec = true ∧ ∃ m, BeginsAtModule nodes spec m

theorem target_of_ofFile {spec : JsString} (h : OfFile nodes path id) :
    (∃ n ∈ nodes, n.kind = .module ∧ n.id = id) ∨
      ((∃ n ∈ nodes, n.id = id) ∧ ((∃ path, OfFile nodes path id) ∨ ∃ m, BeginsAtModule nodes spec m ∧ Below m id)) := by
  rcases h with ⟨n, hn, hkind, -, hid⟩ | h
  · exact .inl ⟨n, hn, hkind, hid⟩
  · exact .inr ⟨h.1, .inl ⟨path, .inr h⟩⟩

theorem resolve_sound (config : RepoConfig) (nodes : List GraphNode) (srcFile spec id : JsString)
    (h : (ofNodes config nodes).resolve srcFile spec = some id) : Sound config nodes srcFile spec id := by
  unfold resolve at h
  simp only at h
  split at h
  · cases h
  by_cases hrelative : isRelative spec = true
  · rw [if_pos hrelative] at h
    obtain ⟨path, hpath, hof⟩ := resolveRelative_ofFile h
    refine ⟨target_of_ofFile hof, fun _ => ⟨path, hpath, hof⟩, fun hno => ?_⟩
    rw [hrelative] at hno
    cases hno
  rw [if_neg hrelative] at h
  split at h
  · cases h
  rcases Option.or_eq_some_iff.1 h with hdotted | ⟨-, hprobe⟩
  · split at hdotted
    · rename_i hcandidate
      obtain ⟨m, hm, htarget⟩ := resolveDotted_target hdotted
      refine ⟨?_, fun hyes => absurd hyes hrelative, fun _ _ _ => ⟨hcandidate, m, hm⟩⟩
      rcases htarget with hid | ⟨hbelow, hn⟩
      · exact .inl ⟨m, hm.1, hm.2.1, hid⟩
      · exact .inr ⟨hn, .inr ⟨m, hm, hbelow⟩⟩
    · cases hdotted
  · obtain ⟨candidate, hmem, hmodule⟩ := List.exists_of_findSome?_eq_some hprobe
    obtain ⟨path, -, hof⟩ := probeModule_ofFile hmodule
    refine ⟨target_of_ofFile hof, fun hyes => absurd hyes hrelative, fun _ hpackage halias => ?_⟩
    have hnil : (config.nearest (posixDir srcFile)).elim [] (expandAlias spec) = [] := by
      cases hts : config.nearest (posixDir srcFile) with
      | none => rfl
      | some ts => exact List.flatMap_eq_nil_iff.2 fun entry hentry => expandEntry_eq_nil (halias ts hts entry hentry)
    rw [show (ofNodes config nodes).config = config from rfl, hnil, candidatePaths_eq_nil hpackage] at hmem
    cases hmem

end SpecifierResolver

open SpecifierResolver

/-- A Python package with a class. -/
def flaskNodes : List GraphNode :=
  [⟨ascii "src/flask/app", ascii "app", ascii "app", .module, ascii "src/flask/app.py"⟩,
    ⟨ascii "src/flask/app/Flask", ascii "Flask", ascii "Flask", .class, ascii "src/flask/app.py"⟩]

theorem resolve_sound_flask :
    (ofNodes {} flaskNodes).resolve (ascii "src/main.py") (ascii "flask.app") = some (ascii "src/flask/app") ∧
      Sound {} flaskNodes (ascii "src/main.py") (ascii "flask.app") (ascii "src/flask/app") :=
  ⟨by decide +kernel, resolve_sound {} flaskNodes _ _ _ (by decide +kernel)⟩

/-- A dotted specifier stands for a class, and the package `preact`, imported by a
TypeScript file, for a file of the repository. -/
theorem symbol_and_shadowed_package :
    (ofNodes {} flaskNodes).resolve (ascii "src/main.py") (ascii "flask.app.Flask") = some (ascii "src/flask/app/Flask") ∧
      ¬ (∃ n ∈ flaskNodes, n.kind = .module ∧ n.id = ascii "src/flask/app/Flask") ∧
      (ofNodes {} [⟨ascii "src/preact", ascii "preact", ascii "preact", .module, ascii "src/preact.ts"⟩]).resolve
        (ascii "web/main.ts") (ascii "preact") = some (ascii "src/preact") := by
  refine ⟨by decide +kernel, by decide +kernel, by decide +kernel⟩

end Hayven.Graph
