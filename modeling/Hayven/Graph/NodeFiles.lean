import Hayven.Graph.NodeMarkdown
import Hayven.Lib.KeyedMap
/-!
# Node files

Where the markdown of a node lies (`nodeMarkdownPath` of `graph/idScheme.ts`), and what
`graph/nodeWriter.ts` does to the files below the nodes directory: write one, remove
those of given ids, sweep those of no id. Directories are those of the files in them.
-/
open Hayven.Lib Hayven.Native

namespace Hayven.Graph

/-! ## Paths -/

/-- An absolute path, as its segments. -/
abbrev Path := List JsString

/-- `[A-Za-z0-9_.\-]`. -/
def isSafeUnit (u : UInt16) : Bool :=
  (0x41 ≤ u && u ≤ 0x5A) || (0x61 ≤ u && u ≤ 0x7A) || isDigit u || u = 0x5F || u = 0x2E || u = 0x2D

def sanitizeUnit (u : UInt16) : UInt16 := if isSafeUnit u then u else 0x5F

def sanitizeSegment (s : JsString) : JsString := s.map sanitizeUnit

def markdownExtension : JsString := ascii ".md"

def nodeMarkdownPath (id : JsString) : JsString :=
  let parts := (id.splitOn slash).map sanitizeSegment
  [slash].intercalate (parts.dropLast ++ [parts.getLast?.getD (ascii "node") ++ markdownExtension])

/-- One segment onto a normalized absolute path. -/
def joinStep (out : Path) (seg : JsString) : Path :=
  if seg = [] ∨ seg = [dot] then out else if seg = [dot, dot] then out.dropLast else out ++ [seg]

/-- `join(nodesDir, nodeMarkdownPath(id))`. -/
def nodeFilePath (nodesDir : Path) (id : JsString) : Path :=
  ((nodeMarkdownPath id).splitOn slash).foldl joinStep nodesDir

/-- `path.startsWith(nodesDir + sep)`. -/
def isBelow (nodesDir path : Path) : Bool := nodesDir.isPrefixOf path && nodesDir ≠ path

/-! ## Files -/

/-- The files there are, with their texts. -/
abbrev FileTree := List (Path × JsString)

/-- A directory stands at the path, or a file stands where it needs a directory. -/
def blocked (tree : FileTree) (path : Path) : Bool :=
  tree.any fun file => (path.isPrefixOf file.1 || file.1.isPrefixOf path) && file.1 ≠ path

/-- The file is there no more. -/
def unlink (tree : FileTree) (path : Path) : FileTree := tree.filter fun file => file.1 ≠ path

/-! ## Writing -/

/-- What ends a line for `^`, `$` and `.`. -/
def isLineTerminator (u : UInt16) : Bool := u = lineFeed || u = carriageReturn || u = 0x2028 || u = 0x2029

def volatileKey : JsString := ascii "last_seen: "

/-- The first line that starts with the key, from a place that starts a line or does not. -/
def sansVolatileFrom : Bool → JsString → JsString
  | _, [] => []
  | lineStart, u :: rest =>
    if lineStart = true ∧ volatileKey.isPrefixOf (u :: rest) = true then
      volatileKey ++ ascii "<ignored>" ++
        ((u :: rest).drop volatileKey.length).dropWhile fun v => !isLineTerminator v
    else u :: sansVolatileFrom (isLineTerminator u) rest

def sansVolatile (md : JsString) : JsString := sansVolatileFrom true md

/-- The file holds the content already, but for the time it was last seen. -/
def unchanged (tree : FileTree) (path : Path) (content : JsString) : Bool :=
  match lookupKey path tree with
  | some current => sansVolatile current = sansVolatile content
  | none => false

/-- One step of `writeNodeMarkdowns`, or `writeNodeMarkdown`; it throws where the path is
blocked or the node cannot be rendered. -/
def writeNodeMarkdown (rt : Runtime) (nodesDir : Path) (tree : FileTree) (node : StoredNode)
    (neighbors : NodeNeighbors) : Option FileTree := do
  let path := nodeFilePath nodesDir node.id
  let content ← renderNodeMarkdown rt node neighbors
  if unchanged tree path content then some tree
  else if blocked tree path then none
  else some (setKey path content tree)

/-! ## Removing -/

/-- How many files are removed, and what is left. -/
def removeNodeMarkdowns (nodesDir : Path) (ids : List JsString) (tree : FileTree) : Nat × FileTree :=
  ids.foldl (fun acc id =>
    let path := nodeFilePath nodesDir id
    if isBelow nodesDir path = true ∧ (lookupKey path acc.2).isSome = true then (acc.1 + 1, unlink acc.2 path) else acc)
    (0, tree)

/-! ## Sweeping -/

def idLineStart : JsString := fence ++ lineFeed :: ascii "id: "

/-- `/^---\nid: (.+)$/m`, from a place that starts a line or does not. -/
def matchIdLine : Bool → JsString → Option JsString
  | _, [] => none
  | lineStart, u :: rest =>
    let value := ((u :: rest).drop idLineStart.length).takeWhile fun v => !isLineTerminator v
    if lineStart = true ∧ idLineStart.isPrefixOf (u :: rest) = true ∧ value ≠ [] then some value
    else matchIdLine (isLineTerminator u) rest

/-- The id that the frontmatter declares. -/
def declaredId (text : JsString) : Option JsString :=
  let head := text.take 512
  if (fence ++ [lineFeed]).isPrefixOf head then
    (matchIdLine true head).bind fun value =>
      let raw := trim value
      if raw = [] then none
      else if raw.head? = some 0x22 then
        match parseJson raw with
        | some (.str id) => some id
        | _ => none
      else some raw
  else none

/-- The file declares the id whose path it stands at. -/
def isOwnNodeMarkdown (nodesDir path : Path) (text : JsString) : Bool :=
  match declaredId text with
  | some id => nodeFilePath nodesDir id = path
  | none => false

/-- A file that the sweep takes: markdown below the directory, of no kept id, and ours. -/
def isOrphan (nodesDir : Path) (keepPaths : List Path) (file : Path × JsString) : Bool :=
  isBelow nodesDir file.1 && markdownExtension.isSuffixOf (file.1.getLast?.getD []) && file.1 ∉ keepPaths &&
    isOwnNodeMarkdown nodesDir file.1 file.2

/-- How many files are removed, and what is left. -/
def pruneOrphanNodeMarkdowns (nodesDir : Path) (keepIds : List JsString) (tree : FileTree) : Nat × FileTree :=
  let keepPaths := keepIds.map (nodeFilePath nodesDir)
  ((tree.filter (isOrphan nodesDir keepPaths)).length, tree.filter fun file => !isOrphan nodesDir keepPaths file)

/-! ## Where a node's file lies -/

/-- No segment of the id is a dot or two. -/
def NoDots (id : JsString) : Prop := ∀ seg ∈ id.splitOn slash, seg ≠ [dot] ∧ seg ≠ [dot, dot]

instance (id : JsString) : Decidable (NoDots id) := inferInstanceAs (Decidable (∀ _ ∈ _, _))

/-- The segments that name a directory. -/
def idDirs (id : JsString) : List JsString := (id.splitOn slash).dropLast.filter (· ≠ [])

def idName (id : JsString) : JsString := (id.splitOn slash).getLast?.getD []

theorem isSafeUnit_ne_slash {u : UInt16} (h : isSafeUnit u = true) : u ≠ slash := by
  rintro rfl
  revert h
  decide

theorem slash_not_mem_sanitizeSegment (s : JsString) : slash ∉ sanitizeSegment s := by
  intro h
  obtain ⟨u, -, hu⟩ := List.mem_map.1 h
  unfold sanitizeUnit at hu
  split at hu
  case isTrue hsafe => exact isSafeUnit_ne_slash hsafe hu
  case isFalse => exact absurd hu (by decide)

theorem sanitizeUnit_eq_dot {u : UInt16} (h : sanitizeUnit u = dot) : u = dot := by
  unfold sanitizeUnit at h
  split at h
  · exact h
  · exact absurd h (by decide)

theorem sanitizeSegment_eq_nil {s : JsString} : sanitizeSegment s = [] ↔ s = [] := List.map_eq_nil_iff

/-- Sanitizing makes no segment of dots. -/
theorem eq_dots_of_sanitizeSegment {s : JsString} {n : Nat} (h : sanitizeSegment s = List.replicate n dot) :
    s = List.replicate n dot := by
  obtain ⟨hlen, hall⟩ := List.eq_replicate_iff.1 h
  refine List.eq_replicate_iff.2 ⟨by simpa [sanitizeSegment] using hlen, fun u hu => ?_⟩
  exact sanitizeUnit_eq_dot (hall _ (List.mem_map_of_mem hu))

theorem sanitizeSegment_ne_dots {s : JsString} (h : s ≠ [dot] ∧ s ≠ [dot, dot]) :
    sanitizeSegment s ≠ [dot] ∧ sanitizeSegment s ≠ [dot, dot] :=
  ⟨fun heq => h.1 (eq_dots_of_sanitizeSegment (n := 1) heq), fun heq => h.2 (eq_dots_of_sanitizeSegment (n := 2) heq)⟩

theorem foldl_joinStep {parts : List JsString} (h : ∀ seg ∈ parts, seg ≠ [dot] ∧ seg ≠ [dot, dot]) (out : Path) :
    parts.foldl joinStep out = out ++ parts.filter (· ≠ []) := by
  induction parts generalizing out with
  | nil => simp
  | cons seg parts ih =>
    have hseg := h seg List.mem_cons_self
    rw [List.foldl_cons, ih fun s hs => h s (List.mem_cons_of_mem seg hs), joinStep]
    by_cases hne : seg = []
    · simp [hne]
    · simp [hne, hseg.1, hseg.2]

/-- A node's file: the sanitized segments of its id below the directory, the last one
with its extension. -/
theorem nodeFilePath_eq {id : JsString} (h : NoDots id) (nodesDir : Path) :
    nodeFilePath nodesDir id =
      nodesDir ++ ((idDirs id).map sanitizeSegment ++ [sanitizeSegment (idName id) ++ markdownExtension]) := by
  obtain ⟨dirs, name, hparts⟩ : ∃ dirs name, id.splitOn slash = dirs ++ [name] :=
    ⟨_, _, (List.dropLast_append_getLast (List.splitOn_ne_nil slash id)).symm⟩
  have hfile : sanitizeSegment name ++ markdownExtension ≠ [] ∧
      sanitizeSegment name ++ markdownExtension ≠ [dot] ∧ sanitizeSegment name ++ markdownExtension ≠ [dot, dot] := by
    have hlen : 3 ≤ (sanitizeSegment name ++ markdownExtension).length := by
      rw [List.length_append]
      exact Nat.le_add_left 3 _
    refine ⟨fun heq => ?_, fun heq => ?_, fun heq => ?_⟩ <;> (rw [heq] at hlen; exact absurd hlen (by decide))
  have hpath : nodeMarkdownPath id =
      [slash].intercalate (dirs.map sanitizeSegment ++ [sanitizeSegment name ++ markdownExtension]) := by
    simp [nodeMarkdownPath, hparts]
  have hslash : ∀ seg ∈ dirs.map sanitizeSegment ++ [sanitizeSegment name ++ markdownExtension], slash ∉ seg := by
    intro seg hseg
    rcases List.mem_append.1 hseg with hseg | hseg
    · obtain ⟨s, -, rfl⟩ := List.mem_map.1 hseg
      exact slash_not_mem_sanitizeSegment s
    · rw [List.mem_singleton.1 hseg, List.mem_append, not_or]
      exact ⟨slash_not_mem_sanitizeSegment name, by decide⟩
  have hdots : ∀ seg ∈ dirs.map sanitizeSegment ++ [sanitizeSegment name ++ markdownExtension],
      seg ≠ [dot] ∧ seg ≠ [dot, dot] := by
    intro seg hseg
    rcases List.mem_append.1 hseg with hseg | hseg
    · obtain ⟨s, hs, rfl⟩ := List.mem_map.1 hseg
      exact sanitizeSegment_ne_dots (h s (hparts ▸ List.mem_append_left _ hs))
    · rw [List.mem_singleton.1 hseg]
      exact hfile.2
  have hfilter : (dirs.map sanitizeSegment).filter (· ≠ []) = (dirs.filter (· ≠ [])).map sanitizeSegment := by
    rw [List.filter_map]
    congr 1
    apply List.filter_congr
    intro s _
    simp [sanitizeSegment_eq_nil]
  rw [nodeFilePath, hpath, List.splitOn_intercalate slash hslash (by simp), foldl_joinStep hdots, List.filter_append,
    hfilter, List.filter_singleton, idDirs, idName, hparts]
  simp [hfile.1]

end Hayven.Graph
