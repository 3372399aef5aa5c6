import Mathlib.Data.List.Infix
import Hayven.Graph.Workspace
/-!
# Module specifiers

`graph/specifierResolve.ts`. The `paths` tables that `TsconfigCache` parses out of
the repository's `tsconfig.json` files are an input, by directory.
-/
open Hayven.Lib Hayven.Native

namespace Hayven.Graph

/-- The extensions probed when a specifier omits one, in order. -/
def extensions : List JsString :=
  [".ts", ".tsx", ".js", ".jsx", ".astro", ".py", ".rs", ".go", ".mts", ".cts", ".mjs", ".cjs"].map ascii

/-! ## Paths of modules -/

/-- The id of a file's module, as its module node would have it. -/
def moduleIdForFile (file : JsString) : Option JsString :=
  let norm := normalizePosix file
  let last := (norm.splitOn slash).getLast?.getD []
  if last = [] then none else some (inScope (scopeForFile norm) (stripExt last))

/-- The parts of a path after its first `src`. -/
def partsBelowSrc (parts : List JsString) : List JsString :=
  match parts.findIdx? (· = ascii "src") with
  | some i => parts.drop (i + 1)
  | none => parts

/-- The dotted import path of a module's file, its dots written as slashes. -/
def importPathForFile (file : JsString) : JsString :=
  let parts := partsBelowSrc (pathParts (normalizePosix file))
  match parts.getLast? with
  | none => []
  | some last =>
    if last = ascii "__init__.py" ∨ last = ascii "__init__.pyi" then [slash].intercalate parts.dropLast
    else [slash].intercalate (parts.dropLast ++ [stripExt last])

def isDottedInternalCandidate (spec : JsString) : Bool :=
  !spec.isEmpty && spec.head? ≠ some dot && spec.head? ≠ some 0x40 && !spec.contains slash &&
    !spec.contains 0x3A && !spec.any isJsSpace

def posixDir (file : JsString) : JsString :=
  let norm := stripTrailingSlashes (forwardSlashes file)
  match lastIndexOf slash norm with
  | some i => norm.take i
  | none => []

/-- The files a candidate path may stand for, in the order of `probeModule`. -/
def probePaths (candidate : JsString) : List JsString :=
  let base := normalizePosix candidate
  let dirPrefix := if base = [] then [] else base ++ [slash]
  let stems :=
    match lastIndexOf dot base with
    | some d => if (lastIndexOf slash base).all (· < d) then extensions.map (base.take d ++ ·) else []
    | none => []
  base :: extensions.map (base ++ ·) ++ extensions.map (dirPrefix ++ ascii "index" ++ ·) ++ stems

def probeModule (byFile : KeyedMap JsString JsString) (candidate : JsString) : Option JsString :=
  (probePaths candidate).findSome? byFile.get

/-! ## Aliases -/

structure TsPaths where
  baseDir : JsString
  entries : List (JsString × List JsString)

/-- What the resolver reads of a repository besides its sources. -/
structure RepoConfig where
  packages : List WorkspacePackage := []
  /-- The usable `paths` table of the `tsconfig.json` in a directory. -/
  tsconfig : JsString → Option TsPaths := fun _ => none

namespace RepoConfig

def workspace (config : RepoConfig) : WorkspaceMap := .ofPackages config.packages

/-- The package of a file. -/
def pkgOf (config : RepoConfig) (file : JsString) : JsString := config.workspace.packageForFile file

/-- The table of the nearest `tsconfig.json` at or above a directory. -/
def nearest (config : RepoConfig) (repoRelDir : JsString) : Option TsPaths :=
  (pathParts (normalizePosix repoRelDir)).inits.reverse.findSome? fun parts => config.tsconfig ([slash].intercalate parts)

end RepoConfig

/-- The paths that one entry of a `paths` table expands a specifier to. -/
def expandEntry (spec baseDir : JsString) (entry : JsString × List JsString) : List JsString :=
  let pattern := entry.1
  let expand (target : JsString) : JsString := normalizePosix (baseDir ++ slash :: target)
  if star ∈ pattern then
    let before := pattern.takeWhile (· ≠ star)
    match starMatch before (pattern.drop (before.length + 1)) spec with
    | some matched => entry.2.map fun t => expand (replaceStar t matched)
    | none => []
  else if spec = pattern then entry.2.map expand else []

def expandAlias (spec : JsString) (ts : TsPaths) : List JsString := ts.entries.flatMap (expandEntry spec ts.baseDir)

def isRelative (spec : JsString) : Bool :=
  (ascii "./").isPrefixOf spec || (ascii "../").isPrefixOf spec || spec = ascii "." || spec = ascii ".."

/-- An absolute path; a name with a protocol goes on to the tables, which do not hold it. -/
def isBare (spec : JsString) : Bool := !isRelative spec && spec.head? = some slash

/-- The first `dist` on the way of a path read as `src`. -/
def swapDist : List JsString → List JsString
  | seg :: next :: rest =>
    if seg = ascii "dist" then ascii "src" :: next :: rest else seg :: swapDist (next :: rest)
  | parts => parts

/-! ## The resolver -/

structure SpecifierResolver where
  config : RepoConfig
  byFile : KeyedMap JsString JsString
  byImportPath : KeyedMap JsString JsString
  idSet : List JsString

namespace SpecifierResolver

/-- The module nodes' files; the last node of a file stands. -/
def moduleFiles (nodes : List GraphNode) : KeyedMap JsString JsString :=
  nodes.foldl (fun m n => if n.kind = .module then m.set (normalizePosix n.file) n.id else m) .empty

/-- A file without a module node gets the id it would have, if some node has that id. -/
def addDerived (ids : List JsString) (m : KeyedMap JsString JsString) (n : GraphNode) : KeyedMap JsString JsString :=
  let file := normalizePosix n.file
  if m.has file then m
  else
    match moduleIdForFile file with
    | some derived => if derived ∈ ids then m.set file derived else m
    | none => m

/-- The first module of an import path stands. -/
def addImportPath (m : KeyedMap JsString JsString) (n : GraphNode) : KeyedMap JsString JsString :=
  let key := importPathForFile n.file
  if n.kind = .module ∧ key ≠ [] ∧ m.has key = false then m.set key n.id else m

def ofNodes (config : RepoConfig) (nodes : List GraphNode) : SpecifierResolver where
  config := config
  byFile := nodes.foldl (addDerived (nodes.map (·.id))) (moduleFiles nodes)
  byImportPath := nodes.foldl addImportPath .empty
  idSet := nodes.map (·.id)

/-- The symbol that the rest of a dotted specifier names in a module, else the module. -/
def dottedTarget (r : SpecifierResolver) (moduleId : JsString) (rest : List JsString) : JsString :=
  let full := moduleId ++ slash :: [slash].intercalate rest
  let last := moduleId ++ slash :: rest.getLast?.getD []
  if rest = [] then moduleId
  else if full ∈ r.idSet then full
  else if last ∈ r.idSet then last
  else moduleId

/-- A dotted specifier, by the longest internal module that it starts with. -/
def resolveDotted (r : SpecifierResolver) (spec : JsString) : Option JsString :=
  let segs := (spec.splitOn dot).filter fun s => !s.isEmpty
  (List.range segs.length).reverse.findSome? fun k =>
    (r.byImportPath.get ([slash].intercalate (segs.take (k + 1)))).map fun moduleId =>
      r.dottedTarget moduleId (segs.drop (k + 1))

/-- A relative specifier; a built file's path is read as the path of its source. -/
def resolveRelative (r : SpecifierResolver) (srcDir spec : JsString) : Option JsString :=
  let joined := if srcDir = [] then spec else srcDir ++ slash :: spec
  let norm := normalizePosix joined
  let swapped := [slash].intercalate (swapDist (norm.splitOn slash))
  (probeModule r.byFile joined).or (if swapped ≠ norm then probeModule r.byFile swapped else none)

/-- The module, or for a dotted path the symbol, that a specifier in a file stands for. -/
def resolve (r : SpecifierResolver) (srcFile spec : JsString) : Option JsString :=
  let srcDir := posixDir srcFile
  if spec = [] then none
  else if isRelative spec then r.resolveRelative srcDir spec
  else if isBare spec then none
  else
    let dotted := if isDottedInternalCandidate spec then r.resolveDotted spec else none
    let aliases := (r.config.nearest srcDir).elim [] (expandAlias spec)
    dotted.or ((aliases ++ r.config.workspace.candidatePaths spec).findSome? (probeModule r.byFile))

end SpecifierResolver

end Hayven.Graph
