import Mathlib.Data.List.Nodup
import Hayven.Graph.IdScheme
/-!
# Collisions of entity ids

An id is the name of its node, written below the directory of its file
(`recordId_eq`). Files that go by their own stem never meet. What is left are two
kinds of collision: definitions of one file whose names differ only by the module's
own name, and files that go by the name of their directory: `idsApart_iff`.
-/
open Hayven.Lib Hayven.Native

namespace Hayven.Graph

/-! ## Paths -/

theorem text_eq_intercalate (path : RepoPath) : path.text = [slash].intercalate (path.dir ++ [path.name]) :=
  below_eq_intercalate path.dir path.name

theorem splitOn_text (path : RepoPath) : path.text.splitOn slash = path.dir ++ [path.name] := by
  rw [text_eq_intercalate]
  refine List.splitOn_intercalate slash (fun s hs => ?_) (by simp)
  rcases List.mem_append.1 hs with hdir | hname
  · exact (path.segments s hdir).2.1
  · rw [List.mem_singleton.1 hname]
    exact path.named.2.1

theorem text_injective {p q : RepoPath} (h : p.text = q.text) : p = q := by
  have hsplit : p.dir ++ [p.name] = q.dir ++ [q.name] := by rw [← splitOn_text, ← splitOn_text, h]
  obtain ⟨hdir, hname⟩ := List.append_inj' hsplit rfl
  obtain ⟨pd, pn, ps, pw⟩ := p
  obtain ⟨qd, qn, qs, qw⟩ := q
  obtain rfl : pd = qd := hdir
  obtain rfl : pn = qn := (List.cons.inj hname).1
  rfl

theorem pathParts_text (path : RepoPath) : pathParts path.text = path.dir ++ [path.name] := by
  rw [pathParts, splitOn_text, List.filter_eq_self]
  intro s hs
  rcases List.mem_append.1 hs with hdir | hname
  · simpa using (path.segments s hdir).1
  · rw [List.mem_singleton.1 hname]
    simpa using path.named.1

/-- A text that starts with a segment has nothing to strip. -/
theorem stripLeading_segment {s rest : JsString} (hs : Segment s) : stripLeading (s ++ rest) = s ++ rest := by
  obtain ⟨hne, hslash, hdot, -⟩ := hs
  obtain ⟨u, t, rfl⟩ := List.exists_cons_of_ne_nil hne
  have hu : u ≠ slash := fun h => hslash (h ▸ List.mem_cons_self)
  have hundotted : [dot, slash].isPrefixOf (u :: t ++ rest) = false := by
    refine Bool.eq_false_iff.2 fun hpre => ?_
    rw [List.isPrefixOf_iff_prefix] at hpre
    obtain ⟨tail, htail⟩ := hpre
    obtain ⟨hdu, hmore⟩ := List.cons.inj htail
    -- `./` would need a segment that is a lone dot.
    cases t with
    | nil => exact hdot (by rw [← hdu])
    | cons v t => exact hslash (List.mem_cons_of_mem _ ((List.cons.inj hmore).1 ▸ List.mem_cons_self))
  have hhead : (u :: t ++ rest).dropWhile (fun x => decide (x = slash)) = u :: t ++ rest := by simp [hu]
  rw [stripLeading, hundotted]
  exact hhead

theorem stripLeading_text (path : RepoPath) : stripLeading path.text = path.text := by
  obtain ⟨dir, name, hdir, hname⟩ := path
  cases dir with
  | nil => simpa [RepoPath.text] using @stripLeading_segment name [] hname
  | cons s dir => exact stripLeading_segment (hdir s List.mem_cons_self)

theorem scopeForFile_text (path : RepoPath) : scopeForFile path.text = [slash].intercalate path.dir := by
  rw [scopeForFile, stripLeading_text, pathParts_text, List.dropLast_concat]

theorem inScope_dir (path : RepoPath) (localPath : JsString) :
    inScope ([slash].intercalate path.dir) localPath = below slash path.dir localPath := by
  obtain ⟨dir, name, hdir, hname⟩ := path
  cases dir with
  | nil => rfl
  | cons s dir =>
    have hne : ([slash].intercalate (s :: dir)).length > 0 := by
      obtain ⟨u, t, rfl⟩ := List.exists_cons_of_ne_nil (hdir s List.mem_cons_self).1
      cases dir <;> simp
    rw [inScope, if_pos hne, below_of_ne_nil (by simp)]

/-- Both sides of the wire cut the extension off alike. -/
theorem stripExt_eq_fileStem (name : JsString) : stripExt name = fileStem name := by
  unfold stripExt fileStem
  rcases lastIndexOf dot name with _ | _ | n <;> rfl

theorem slash_not_mem_fileStem {name : JsString} (h : slash ∉ name) : slash ∉ fileStem name := by
  unfold fileStem
  rcases lastIndexOf dot name with _ | _ | n
  · exact h
  · exact h
  · exact fun hm => h (List.mem_of_mem_take hm)

/-! ## What an id says below the directory -/

/-- The module segment of the ids of a file. -/
def moduleSegment (path : RepoPath) : JsString := trim (moduleNameFor path)

/-- A definition's name without the module's name before it. -/
def ownName (moduleSegment : JsString) (kind : NodeKind) (name : JsString) : JsString :=
  let unqualified := if kind = .method then name else stripPrefix (moduleSegment ++ [dot]) name
  stripPrefix (moduleSegment ++ [slash]) unqualified

/-- The name of a node below the directory of its file: the module, and in it the definition. -/
def written (path : RepoPath) (r : NodeRecord) : JsString :=
  let name := trim (recordName r)
  if name = [] then fileStem path.name
  else if r.kind = .module then name
  else if moduleSegment path = [] then name
  else below slash [moduleSegment path] (ownName (moduleSegment path) r.kind name)

theorem localPath_nil (name : JsString) (kind : Option NodeKind) : localPath [] name kind = name := by
  simp [localPath]

theorem localPath_eq {m : JsString} (hm : m ≠ []) (name : JsString) {kind : NodeKind} (hkind : kind ≠ .module) :
    localPath m name (some kind) = below slash [m] (ownName m kind name) := by
  have hlen : m.length > 0 := List.length_pos_of_ne_nil hm
  have hqn : (if m.length > 0 ∧ some kind ≠ some NodeKind.method ∧ (m ++ [dot]).isPrefixOf name = true
      then name.drop (m.length + 1) else name) =
        (if kind = .method then name else stripPrefix (m ++ [dot]) name) := by
    by_cases hmethod : kind = .method
    · simp [hmethod]
    · rw [if_neg hmethod, stripPrefix, List.length_append, List.length_singleton]
      simp [hlen, hmethod]
  unfold localPath ownName
  simp only [hqn]
  generalize (if kind = .method then name else stripPrefix (m ++ [dot]) name) = qn
  cases hpre : (m ++ [slash]).isPrefixOf qn with
  | true =>
    rw [if_neg (fun h => Bool.noConfusion h.2.1)]
    conv => lhs; rw [← append_of_isPrefixOf hpre]
    simp
  | false =>
    rw [if_pos ⟨hlen, rfl, .inr ⟨by simpa using hkind, by simp⟩⟩, stripPrefix_of_not hpre]
    simp

/-! ## The ids of a repository -/

/-- The files of a repository, one for each path. -/
structure Repository where
  files : List SourceFile
  onePerPath : (files.map SourceFile.path).Nodup

namespace Repository

/-- The module name of each file, read off its module record. -/
def moduleByFile (repo : Repository) (file : JsString) : Option JsString :=
  (repo.files.find? fun f => f.path.text = file).map fun f => recordName f.moduleRecord

def idOf (repo : Repository) (r : NodeRecord) : JsString := recordId repo.moduleByFile r

/-- No two paths differ only by extension, and no file has the name of a sibling
directory plus an extension. -/
structure Tidy (repo : Repository) : Prop where
  extensions : ∀ f ∈ repo.files, ∀ g ∈ repo.files, f.path ≠ g.path →
    ¬ (f.path.dir = g.path.dir ∧ fileStem f.path.name = fileStem g.path.name)
  directories : ∀ f ∈ repo.files, ∀ g ∈ repo.files,
    ¬ (f.path.dir ++ [fileStem f.path.name]) <+: g.path.dir

/-- Nodes of different files, or of different names, have different ids. -/
def IdsApart (repo : Repository) : Prop :=
  ∀ f ∈ repo.files, ∀ g ∈ repo.files, ∀ r ∈ f.nodeRecords, ∀ s ∈ g.nodeRecords,
    (r.file, r.qualifiedName) ≠ (s.file, s.qualifiedName) → repo.idOf r ≠ repo.idOf s

theorem recordName_module (f : SourceFile) : recordName f.moduleRecord = moduleNameFor f.path := by
  simp [recordName, SourceFile.moduleRecord]

/-- A file of the repository is found under its own path. -/
theorem moduleByFile_path (repo : Repository) {f : SourceFile} (hf : f ∈ repo.files) :
    repo.moduleByFile f.path.text = some (moduleNameFor f.path) := by
  have hsome : (repo.files.find? fun g => g.path.text = f.path.text).isSome := by
    rw [List.find?_isSome]
    exact ⟨f, hf, by simp⟩
  obtain ⟨g, hg⟩ := Option.isSome_iff_exists.1 hsome
  have hpath : g.path = f.path := text_injective (by simpa using List.find?_some hg)
  rw [moduleByFile, hg, Option.map_some, recordName_module, hpath]

/-- The id of a node is its name, written below the directory of its file. -/
theorem idOf_eq (repo : Repository) {f : SourceFile} (hf : f ∈ repo.files) {r : NodeRecord} (hr : r ∈ f.nodeRecords) :
    repo.idOf r = below slash f.path.dir (written f.path r) := by
  have hfile := SourceFile.file_of_mem hr
  have hlast : ((f.path.text.splitOn slash).getLast?.getD f.path.text) = f.path.name := by
    simp [splitOn_text]
  rw [idOf, recordId, deriveEntityId, hfile, scopeForFile_text, hlast, moduleByFile_path repo hf, stripExt_eq_fileStem]
  unfold written
  by_cases hname : trim (recordName r) = []
  · rw [if_pos (by simp [hname]), if_pos hname, inScope_dir]
  · rw [if_neg (by simpa using hname), if_neg hname, inScope_dir]
    by_cases hkind : r.kind = .module
    · rw [if_pos hkind, if_pos hkind, show trim ((none : Option JsString).getD []) = [] from rfl, localPath_nil]
    · simp only [if_neg hkind, Option.getD_some]
      change below slash f.path.dir (localPath (moduleSegment f.path) _ _) = _
      by_cases hm : moduleSegment f.path = []
      · rw [if_pos hm, hm, localPath_nil]
      · rw [if_neg hm, localPath_eq hm _ hkind]

end Repository

/-! ## Files that go by their stem -/

/-- The ids of the file say its name without the extension. -/
def GoesByStem (path : RepoPath) : Prop := moduleSegment path = fileStem path.name

instance (path : RepoPath) : Decidable (GoesByStem path) := inferInstanceAs (Decidable (_ = _))

theorem fileStem_ne_nil {name : JsString} (h : name ≠ []) : fileStem name ≠ [] := by
  unfold fileStem
  rcases lastIndexOf dot name with _ | _ | n
  · exact h
  · exact h
  · simpa using h

theorem eq_moduleRecord {f : SourceFile} {r : NodeRecord} (hr : r ∈ f.nodeRecords) (hkind : r.kind = .module) :
    r = f.moduleRecord := by
  rcases List.mem_cons.1 hr with rfl | hdef
  · rfl
  · exact absurd hkind (SourceFile.kind_of_mem_definitions hdef)

theorem firstSegment_written {f : SourceFile} (hstem : GoesByStem f.path) {r : NodeRecord} (hr : r ∈ f.nodeRecords) :
    firstSegment slash (written f.path r) = fileStem f.path.name := by
  have hfree : slash ∉ fileStem f.path.name := slash_not_mem_fileStem f.path.named.2.1
  have hne : moduleSegment f.path ≠ [] := by
    rw [hstem]
    exact fileStem_ne_nil f.path.named.1
  unfold written
  by_cases hname : trim (recordName r) = []
  · rw [if_pos hname, firstSegment_of_not_mem hfree]
  · rw [if_neg hname]
    by_cases hkind : r.kind = .module
    · rw [if_pos hkind, eq_moduleRecord hr hkind, Repository.recordName_module]
      change firstSegment slash (moduleSegment f.path) = _
      rw [hstem, firstSegment_of_not_mem hfree]
    · rw [if_neg hkind, if_neg hne, hstem, firstSegment_below hfree]

/-- In a tidy repository two such files never meet: the first segment of a name is
its file's stem, so the stem would be shared or lead into a directory. -/
theorem written_apart_of_stem {repo : Repository} (htidy : repo.Tidy) {f g : SourceFile} (hf : f ∈ repo.files)
    (hg : g ∈ repo.files) (hpath : f.path ≠ g.path) (hfstem : GoesByStem f.path) (hgstem : GoesByStem g.path)
    {r s : NodeRecord} (hr : r ∈ f.nodeRecords) (hs : s ∈ g.nodeRecords) {rest : List JsString}
    (hdir : g.path.dir = f.path.dir ++ rest) : written f.path r ≠ below slash rest (written g.path s) := by
  intro heq
  have hfirst := congrArg (firstSegment slash) heq
  rw [firstSegment_written hfstem hr] at hfirst
  cases rest with
  | nil =>
    rw [below_nil, firstSegment_written hgstem hs] at hfirst
    exact htidy.extensions f hf g hg hpath ⟨by simpa using hdir.symm, hfirst⟩
  | cons seg rest =>
    have hseg : seg ∈ g.path.dir := by simp [hdir]
    rw [firstSegment_below (g.path.slash_not_mem_dir seg hseg)] at hfirst
    exact htidy.directories f hf g hg ⟨rest, by rw [hdir, hfirst]; simp⟩

/-! ## When ids collide -/

namespace Repository

/-- Names that stay apart where ids could meet: in one file, and between two files of
which one does not go by its stem. -/
structure NamesApart (repo : Repository) : Prop where
  within : ∀ f ∈ repo.files, ∀ r ∈ f.nodeRecords, ∀ s ∈ f.nodeRecords,
    r.qualifiedName ≠ s.qualifiedName → written f.path r ≠ written f.path s
  across : ∀ f ∈ repo.files, ∀ g ∈ repo.files, f.path ≠ g.path → ¬ (GoesByStem f.path ∧ GoesByStem g.path) →
    ∀ r ∈ f.nodeRecords, ∀ s ∈ g.nodeRecords, ∀ rest, g.path.dir = f.path.dir ++ rest →
      written f.path r ≠ below slash rest (written g.path s)

/-- Two files' nodes share an id exactly if one directory lies below the other and a
name spells the way down. -/
theorem idOf_eq_idOf (repo : Repository) {f g : SourceFile} (hf : f ∈ repo.files) (hg : g ∈ repo.files)
    {r s : NodeRecord} (hr : r ∈ f.nodeRecords) (hs : s ∈ g.nodeRecords) :
    repo.idOf r = repo.idOf s ↔
      ∃ rest, (g.path.dir = f.path.dir ++ rest ∧ written f.path r = below slash rest (written g.path s)) ∨
        (f.path.dir = g.path.dir ++ rest ∧ written g.path s = below slash rest (written f.path r)) := by
  rw [repo.idOf_eq hf hr, repo.idOf_eq hg hs]
  exact below_eq_below f.path.slash_not_mem_dir g.path.slash_not_mem_dir _ _

theorem NamesApart.idsApart {repo : Repository} (htidy : repo.Tidy) (h : repo.NamesApart) : repo.IdsApart := by
  have hapart : ∀ f ∈ repo.files, ∀ g ∈ repo.files, f.path ≠ g.path → ∀ r ∈ f.nodeRecords, ∀ s ∈ g.nodeRecords,
      ∀ rest, g.path.dir = f.path.dir ++ rest → written f.path r ≠ below slash rest (written g.path s) := by
    intro f hf g hg hpath r hr s hs rest hdir
    by_cases hstem : GoesByStem f.path ∧ GoesByStem g.path
    · exact written_apart_of_stem htidy hf hg hpath hstem.1 hstem.2 hr hs hdir
    · exact h.across f hf g hg hpath hstem r hr s hs rest hdir
  intro f hf g hg r hr s hs hne heq
  obtain ⟨rest, hmeet⟩ := (repo.idOf_eq_idOf hf hg hr hs).1 heq
  by_cases hpath : f.path = g.path
  · have hname : r.qualifiedName ≠ s.qualifiedName := by
      intro hname
      exact hne (by rw [SourceFile.file_of_mem hr, SourceFile.file_of_mem hs, hpath, hname])
    have hrest : rest = [] := by
      rcases hmeet with ⟨hdir, -⟩ | ⟨hdir, -⟩ <;> simpa [hpath] using hdir
    have hfg : f = g := List.inj_on_of_nodup_map repo.onePerPath hf hg hpath
    subst hfg hrest
    rcases hmeet with ⟨-, hwritten⟩ | ⟨-, hwritten⟩
    · exact h.within f hf r hr s hs hname hwritten
    · exact h.within f hf r hr s hs hname hwritten.symm
  · rcases hmeet with ⟨hdir, hwritten⟩ | ⟨hdir, hwritten⟩
    · exact hapart f hf g hg hpath r hr s hs rest hdir hwritten
    · exact hapart g hg f hf (Ne.symm hpath) s hs r hr rest hdir hwritten

theorem IdsApart.namesApart {repo : Repository} (h : repo.IdsApart) : repo.NamesApart := by
  constructor
  · intro f hf r hr s hs hname hwritten
    refine h f hf f hf r hr s hs (fun heq => hname (Prod.mk.inj heq).2) ?_
    exact (repo.idOf_eq_idOf hf hf hr hs).2 ⟨[], .inl ⟨by simp, hwritten⟩⟩
  · intro f hf g hg hpath _ r hr s hs rest hdir hwritten
    refine h f hf g hg r hr s hs (fun heq => hpath (text_injective ?_)) ?_
    · rw [← SourceFile.file_of_mem hr, ← SourceFile.file_of_mem hs, (Prod.mk.inj heq).1]
    · exact (repo.idOf_eq_idOf hf hg hr hs).2 ⟨rest, .inl ⟨hdir, hwritten⟩⟩

end Repository

/-- The ids of a tidy repository are apart exactly if its names are. -/
theorem idsApart_iff (repo : Repository) (htidy : repo.Tidy) : repo.IdsApart ↔ repo.NamesApart :=
  ⟨fun h => h.namesApart, fun h => h.idsApart htidy⟩

/-! ## Repositories with and without collisions -/

section Repositories

/-- A node that only encloses others. -/
def plainNode : SyntaxNode := .mk .other [] []

/-- A node of a kind, with the name it carries. -/
def namedNode (kind : SyntaxKind) (name : JsString) : SyntaxNode :=
  .mk kind [] [(some .name, .mk .identifier name [])]

/-- `function name() {}` at the top of a file. -/
def topFunction (name : JsString) : Match :=
  { capture := .function, name := name, node := namedNode .functionDeclaration name, parents := [plainNode] }

/-- `const name = () => …` in the body of the function `outer`. -/
def innerArrow (outer name : JsString) : Match :=
  { capture := .arrow, name := name, node := namedNode .variableDeclarator name
    parents := [plainNode, plainNode, namedNode .functionDeclaration outer, plainNode] }

/-- A method `name` of the class `cls`. -/
def classMethod (cls name : JsString) : Match :=
  { capture := .method, name := name, node := namedNode .methodDefinition name
    parents := [plainNode, namedNode .classDeclaration cls, plainNode] }

/-- `src/auth/login.ts` and `src/auth/logout.ts`. -/
def authRepo : Repository where
  files :=
    [{ path := { dir := [ascii "src", ascii "auth"], name := ascii "login.ts"
                 segments := by decide +kernel, named := by decide +kernel }
       language := .typescript
       captures := [topFunction (ascii "loginHandler"), classMethod (ascii "Session") (ascii "refresh")]
       impls := [] },
     { path := { dir := [ascii "src", ascii "auth"], name := ascii "logout.ts"
                 segments := by decide +kernel, named := by decide +kernel }
       language := .typescript
       captures := [topFunction (ascii "loginHandler")]
       impls := [] }]
  onePerPath := by decide +kernel

theorem authRepo_ids_apart : authRepo.IdsApart :=
  (idsApart_iff authRepo ⟨by decide +kernel, by decide +kernel⟩).2
    ⟨by decide +kernel, fun f hf g hg _ hstem => absurd
      (⟨(by decide +kernel : ∀ f ∈ authRepo.files, GoesByStem f.path) f hf,
        (by decide +kernel : ∀ f ∈ authRepo.files, GoesByStem f.path) g hg⟩) hstem⟩

/-- `util.ts` with a function `util`, a `helper` inside it and a `helper` of its own. -/
def utilRepo : Repository where
  files :=
    [{ path := { dir := [], name := ascii "util.ts", segments := by decide +kernel, named := by decide +kernel }
       language := .typescript
       captures := [topFunction (ascii "util"), innerArrow (ascii "util") (ascii "helper"), topFunction (ascii "helper")]
       impls := [] }]
  onePerPath := by decide +kernel

/-- A crate with a library and a program: `src/lib.rs` and `src/main.rs`. -/
def crateRepo : Repository where
  files :=
    [{ path := { dir := [ascii "src"], name := ascii "lib.rs", segments := by decide +kernel, named := by decide +kernel }
       language := .rust, captures := [topFunction (ascii "run")], impls := [] },
     { path := { dir := [ascii "src"], name := ascii "main.rs", segments := by decide +kernel, named := by decide +kernel }
       language := .rust, captures := [topFunction (ascii "main")], impls := [] }]
  onePerPath := by decide +kernel

/-- The helpers of `util.ts` share an id, and so do the modules of the crate. -/
theorem ids_collide :
    (utilRepo.Tidy ∧ ¬ utilRepo.IdsApart) ∧ (crateRepo.Tidy ∧ ¬ crateRepo.IdsApart) := by
  refine ⟨⟨⟨by decide +kernel, by decide +kernel⟩, ?_⟩, ⟨⟨by decide +kernel, by decide +kernel⟩, ?_⟩⟩
  · exact (by decide +kernel : ¬ ∀ f ∈ utilRepo.files, ∀ g ∈ utilRepo.files, ∀ r ∈ f.nodeRecords,
      ∀ s ∈ g.nodeRecords, (r.file, r.qualifiedName) ≠ (s.file, s.qualifiedName) → utilRepo.idOf r ≠ utilRepo.idOf s)
  · exact (by decide +kernel : ¬ ∀ f ∈ crateRepo.files, ∀ g ∈ crateRepo.files, ∀ r ∈ f.nodeRecords,
      ∀ s ∈ g.nodeRecords, (r.file, r.qualifiedName) ≠ (s.file, s.qualifiedName) → crateRepo.idOf r ≠ crateRepo.idOf s)

end Repositories

end Hayven.Graph
