import Hayven.Native.Extract
/-!
# Entity ids

`graph/idScheme.ts`, and the id that `graph/ingest.ts` gives a node record. An id
is a text below the directory of its file: `deriveEntityId_eq_below`.
-/
open Hayven.Lib Hayven.Native

namespace Hayven.Graph

/-! ## Text -/

/-- White space and line ends of ECMAScript. -/
def isJsSpace (u : UInt16) : Bool :=
  (0x9 ≤ u && u ≤ 0xD) || u = 0x20 || u = 0xA0 || u = 0x1680 || (0x2000 ≤ u && u ≤ 0x200A) ||
    u = 0x2028 || u = 0x2029 || u = 0x202F || u = 0x205F || u = 0x3000 || u = 0xFEFF

/-- `String.prototype.trim`. -/
def trim (s : JsString) : JsString := trimBy isJsSpace s

/-- `path.replace(/^\.\/+/, "").replace(/^\/+/, "")`. -/
def stripLeading (path : JsString) : JsString :=
  let undotted := if [dot, slash].isPrefixOf path then (path.drop 1).dropWhile (· = slash) else path
  undotted.dropWhile (· = slash)

/-- The non-empty parts of a path. -/
def pathParts (path : JsString) : List JsString := (path.splitOn slash).filter fun p => !p.isEmpty

/-- One part of a path onto a normalized one; a `..` that escapes the start is kept. -/
def normalizeStep (out : List JsString) (seg : JsString) : List JsString :=
  if seg = [] ∨ seg = [dot] then out
  else if seg = [dot, dot] then
    if out ≠ [] ∧ out.getLast? ≠ some [dot, dot] then out.dropLast else out ++ [seg]
  else out ++ [seg]

/-- `normalizePosix` of `graph/specifierResolve.ts`. -/
def normalizePosix (path : JsString) : JsString :=
  [slash].intercalate ((path.splitOn slash).foldl normalizeStep [])

/-- Strip a trailing file extension from a path segment. -/
def stripExt (segment : JsString) : JsString :=
  match lastIndexOf dot segment with
  | some d => if d = 0 then segment else segment.take d
  | none => segment

/-! ## Ids -/

/-- The directory of a file, which is the scope of its ids. -/
def scopeForFile (repoRelFile : JsString) : JsString :=
  [slash].intercalate (pathParts (stripLeading repoRelFile)).dropLast

/-- `scope.length > 0 ? scope + "/" + local : local`. -/
def inScope (scope localPath : JsString) : JsString :=
  if scope.length > 0 then scope ++ slash :: localPath else localPath

/-- `deriveEntityId`'s options: the module's name and the node's kind. -/
structure IdOptions where
  moduleName : Option JsString := none
  kind : Option NodeKind := none

/-- What an id says below the scope, for a name that is not empty. -/
def localPath (moduleSegment qualified : JsString) (kind : Option NodeKind) : JsString :=
  let qualifier := moduleSegment ++ [dot]
  let qn :=
    if moduleSegment.length > 0 ∧ kind ≠ some .method ∧ qualifier.isPrefixOf qualified = true then
      qualified.drop (moduleSegment.length + 1)
    else qualified
  let sameAsModule := moduleSegment = qn
  let isModuleKind := kind = some .module
  let needsPrefix :=
    moduleSegment.length > 0 ∧ (moduleSegment ++ [slash]).isPrefixOf qn = false ∧
      (¬ sameAsModule ∨ (¬ isModuleKind ∧ kind ≠ none))
  if needsPrefix then moduleSegment ++ slash :: qn else qn

def deriveEntityId (repoRelFile qualifiedName : JsString) (options : IdOptions) : JsString :=
  let scope := scopeForFile repoRelFile
  let qn := trim qualifiedName
  if qn.length = 0 then inScope scope (stripExt ((repoRelFile.splitOn slash).getLast?.getD repoRelFile))
  else inScope scope (localPath (trim (options.moduleName.getD [])) qn options.kind)

/-- The prefix `?:` of an unresolved edge's target. -/
def unresolvedPrefix : JsString := ascii "?:"

def unresolvedEdgeId (dstName : JsString) : JsString := unresolvedPrefix ++ dstName

/-! ## Ids of the scheme before v8 -/

/-- The directory of a file, its first `src` elided. -/
def legacyScopeForFile (repoRelFile : JsString) : JsString :=
  let dirParts := (pathParts (stripLeading repoRelFile)).dropLast
  match dirParts.findIdx? (· = ascii "src") with
  | some i => [slash].intercalate (dirParts.take i ++ dirParts.drop (i + 1))
  | none => [slash].intercalate dirParts

/-- What an id says below its file's scope of the old scheme. -/
def legacyLocalPath (oldId repoRelFile : JsString) : Option JsString :=
  let legacy := legacyScopeForFile repoRelFile
  let localPath :=
    if legacy.length = 0 then some oldId
    else if (legacy ++ [slash]).isPrefixOf oldId then some (oldId.drop (legacy.length + 1))
    else none
  localPath.filter (!·.isEmpty)

/-- The spelling of an id below its file's scope of today. -/
def remapLegacyId (oldId repoRelFile : JsString) : Option JsString :=
  (legacyLocalPath oldId repoRelFile).map (inScope (scopeForFile repoRelFile))

/-! ## Node records -/

/-- The module segment of a file whose module record has not arrived. -/
def fallbackModuleName (file : JsString) : JsString :=
  let parts := pathParts (normalizePosix file)
  let filename := parts.getLast?.getD file
  if filename ∈ parentNamedFiles ∧ parts.length ≥ 2 then parts.dropLast.getLast?.getD []
  else stripExt filename

/-- `rec.qualified_name || rec.name`. -/
def recordName (r : NodeRecord) : JsString := if r.qualifiedName.isEmpty then r.name else r.qualifiedName

/-- The id of a node record, `moduleByFile` holding the module names seen so far. -/
def recordId (moduleByFile : JsString → Option JsString) (r : NodeRecord) : JsString :=
  let moduleName :=
    if r.kind = .module then none else some ((moduleByFile r.file).getD (fallbackModuleName r.file))
  deriveEntityId r.file (recordName r) { moduleName := moduleName, kind := some r.kind }

end Hayven.Graph
