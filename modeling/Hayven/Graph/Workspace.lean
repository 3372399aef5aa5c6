import Mathlib.Data.List.Sort
import Hayven.Graph.IdScheme
import Hayven.Lib.Json
import Hayven.Lib.KeyedMap
/-!
# Workspace packages

`graph/workspace.ts`. What `WorkspaceMap.load` reads from the manifests is an input:
the packages in the order in which it finds them, or none where a read fails.
-/
open Hayven.Lib Hayven.Native

namespace Hayven.Graph

/-! ## Text -/

def star : UInt16 := 0x2A

def dollar : UInt16 := 0x24

def backslash : UInt16 := 0x5C

/-- Backslashes read as slashes. -/
def forwardSlashes (s : JsString) : JsString := s.map fun u => if u = backslash then slash else u

def stripTrailingSlashes (s : JsString) : JsString := (s.reverse.dropWhile (· = slash)).reverse

def collapseSlashes : JsString → JsString
  | u :: v :: rest => if u = slash ∧ v = slash then collapseSlashes (v :: rest) else u :: collapseSlashes (v :: rest)
  | s => s

def posixNorm (p : JsString) : JsString :=
  let p := forwardSlashes p
  let undotted := if [dot, slash].isPrefixOf p then (p.drop 1).dropWhile (· = slash) else p
  collapseSlashes (stripTrailingSlashes undotted)

/-- What stands for the star between `before` and `after` in a text. -/
def starMatch (before after text : JsString) : Option JsString :=
  if before.isPrefixOf text ∧ after.isSuffixOf text ∧ before.length + after.length ≤ text.length then
    some ((text.take (text.length - after.length)).drop before.length)
  else none

/-- The `$` patterns of a replacement, for a match of one star between `before` and `after`. -/
def substitute (before after : JsString) : JsString → JsString
  | d :: u :: rest =>
    if d ≠ dollar then d :: substitute before after (u :: rest)
    else if u = dollar then dollar :: substitute before after rest
    else if u = 0x26 then star :: substitute before after rest
    else if u = 0x60 then before ++ substitute before after rest
    else if u = 0x27 then after ++ substitute before after rest
    else d :: substitute before after (u :: rest)
  | s => s

/-- `text.replace("*", value)`. -/
def replaceStar (text value : JsString) : JsString :=
  if star ∈ text then
    let before := text.takeWhile (· ≠ star)
    let after := text.drop (before.length + 1)
    before ++ substitute before after value ++ after
  else text

/-! ## Packages -/

structure WorkspacePackage where
  name : JsString
  /-- The directory, with forward slashes and none at its end. -/
  dir : JsString
  exports : Option Json := none
  main : Option JsString := none
  module : Option JsString := none

/-- Every string leaf of an `exports` target, to the depth of its conditions. -/
def collectTargetStrings : Nat → Json → List JsString
  | 0, _ => []
  | _ + 1, .str s => [s]
  | depth + 1, .arr items => items.flatMap (collectTargetStrings depth)
  | depth + 1, .obj fields => fields.flatMap fun field => collectTargetStrings depth field.2
  | _ + 1, _ => []

/-- The depth below which conditions are not followed. -/
def exportsDepth : Nat := 5

/-- What an entry of `exports` with a star yields for a subpath. -/
def wildcardTargets (subpath : JsString) (entry : JsString × Json) : List JsString :=
  let key := entry.1
  let before := (key.takeWhile (· ≠ star)).drop 2
  let after := key.drop ((key.takeWhile (· ≠ star)).length + 1)
  if star ∈ key ∧ [dot, slash].isPrefixOf key = true then
    match starMatch before after subpath with
    | some matched => (collectTargetStrings exportsDepth entry.2).map fun t => replaceStar t matched
    | none => []
  else []

/-- The targets of the `exports` field; the empty subpath is the package itself. -/
def exportTargets (exports : Option Json) (subpath : JsString) : List JsString :=
  match exports with
  | some (.str s) => if subpath = [] then collectTargetStrings exportsDepth (.str s) else []
  | some (.obj entries) =>
    let wantKey := if subpath = [] then [dot] else dot :: slash :: subpath
    -- Without subpath keys the conditions are those of the package itself.
    if entries.any fun entry => entry.1 = [dot] || [dot, slash].isPrefixOf entry.1 then
      (entries.filter (·.1 = wantKey)).flatMap (fun entry => collectTargetStrings exportsDepth entry.2) ++
        if subpath = [] then [] else entries.flatMap (wildcardTargets subpath)
    else if subpath = [] then collectTargetStrings exportsDepth (.obj entries) else []
  | _ => []

/-- The non-empty text of an optional field. -/
def truthy (s : Option JsString) : Option JsString := s.filter (!·.isEmpty)

@[simp] theorem truthy_none : truthy none = none := rfl

theorem truthy_eq_some {s : Option JsString} {t : JsString} : truthy s = some t ↔ s = some t ∧ t ≠ [] := by
  simp [truthy, Option.filter_eq_some_iff]

structure WorkspaceMap where
  byName : KeyedMap JsString WorkspacePackage
  dirsLongestFirst : List JsString

namespace WorkspaceMap

/-- The first package of a name stands. -/
def ofPackages (packages : List WorkspacePackage) : WorkspaceMap where
  byName := packages.foldl (fun m p => if m.has p.name then m else m.set p.name p) .empty
  dirsLongestFirst := (packages.map (·.dir)).eraseDups.insertionSort fun a b => b.length ≤ a.length

/-- The directory of the package that contains a file, or the empty text of the root package. -/
def packageForFile (ws : WorkspaceMap) (repoRelFile : JsString) : JsString :=
  let file := posixNorm repoRelFile
  (ws.dirsLongestFirst.find? fun dir => (dir ++ [slash]).isPrefixOf file).getD []

/-- The longer of the packages whose name a specifier starts with. -/
def longerMatch (spec : JsString) (best : Option WorkspacePackage) (pkg : WorkspacePackage) : Option WorkspacePackage :=
  if (pkg.name ++ [slash]).isPrefixOf spec ∧ best.all (·.name.length < pkg.name.length) = true then some pkg
  else best

/-- The package a specifier names, and the path in it. -/
def matchSpecifier (ws : WorkspaceMap) (spec : JsString) : Option (WorkspacePackage × JsString) :=
  if spec = [] ∨ spec.head? = some dot then none
  else
    match ws.byName.get spec with
    | some pkg => some (pkg, [])
    | none => (ws.byName.values.foldl (longerMatch spec) none).map fun pkg => (pkg, spec.drop (pkg.name.length + 1))

/-- Every path that a specifier's targets may stand for below the package's directory. -/
def targetPaths (dir target : JsString) : List JsString :=
  let rel := posixNorm target
  if rel = [] ∨ [dot, dot].isPrefixOf rel = true then []
  else if (ascii "dist/").isPrefixOf rel then
    [posixNorm (dir ++ slash :: rel), posixNorm (dir ++ slash :: ascii "src/" ++ rel.drop 5)]
  else [posixNorm (dir ++ slash :: rel)]

/-- The paths a bare specifier may stand for, the most specific first. -/
def candidatePaths (ws : WorkspaceMap) (spec : JsString) : List JsString :=
  match ws.matchSpecifier spec with
  | none => []
  | some (pkg, subpath) =>
    let manifest := if subpath = [] then (truthy pkg.module).toList ++ (truthy pkg.main).toList else []
    let conventional :=
      if subpath = [] then [ascii "src/index", ascii "index"] else [ascii "src/" ++ subpath, subpath]
    let targets := exportTargets pkg.exports subpath ++ manifest ++ conventional
    ((targets.flatMap (targetPaths pkg.dir)).filter (!·.isEmpty)).eraseDups

end WorkspaceMap

end Hayven.Graph
