import Hayven.Cli.Ingest
import Hayven.Graph.Workspace
import Hayven.Lib.FileTree
import Hayven.Lib.PathText
import Hayven.Lib.Text
/-!
# The packer's path gate

`db/pack_containment.ts` on a POSIX disk, and what it asks of the system: `resolve` of
`node:path`, `realpathSync` and the walker's verdict on a path.
-/
open Hayven.Lib Hayven.Native Hayven.Graph

namespace Hayven.Db.Pack

/-! ## The disk -/

def nul : UInt16 := 0

/-- A name that an entry of a disk can have. -/
def FileName (name : JsString) : Prop := Segment name ∧ nul ∉ name ∧ wellFormed name = true

structure Disk extends FileTree JsString where
  named : ∀ {p : List JsString} {n : JsString} {e : TreeEntry JsString}, entry (p ++ [n]) = some e → FileName n

/-- A name as the system gets it: a lone surrogate is replaced. -/
def systemName (name : JsString) : JsString := toUtf16 (ofUtf16 name)

def pathStep (name : JsString) : PathStep JsString :=
  if name = [] ∨ name = [dot] then .stay
  else if name = [dot, dot] then .up
  else .into (systemName name)

/-- The steps of an absolute path. -/
def pathSteps (p : JsString) : List (PathStep JsString) := (p.splitOn slash).map pathStep

/-! ## Lower case -/

/-- What `toLowerCase` may make of one unit, whatever stands around it. Outside ASCII only two
letters, a dotted capital I and the Kelvin sign, have ASCII in their lower case. -/
def LowerImage (u : UInt16) (image : JsString) : Prop :=
  (u < 0x80 → image = [Cli.asciiLower u]) ∧
    (0x80 ≤ u → image ≠ [] ∧ ∀ v ∈ image, v < 0x80 → v = 0x69 ∨ v = 0x6B)

structure LowerCase where
  toLowerCase : JsString → JsString
  images : ∀ s, ∃ images : List JsString, List.Forall₂ LowerImage s images ∧ toLowerCase s = images.flatten

/-! ## The lists -/

def DENIED_DIR_SEGMENTS : List JsString :=
  [".git", ".ssh", ".aws", ".gnupg", ".docker", ".hayven"].map ascii

def ALWAYS_SKIP_DIR_SEGMENTS : List JsString :=
  ["node_modules", "target", "dist", "build", ".venv", "venv", "__pycache__", ".next", ".turbo", ".cache"].map ascii

def SOURCE_EXTENSIONS : List JsString :=
  ["py", "ts", "cts", "mts", "tsx", "js", "mjs", "cjs", "jsx", "rs", "go", "astro"].map ascii

def DENIED_BASENAMES : List JsString :=
  [".npmrc", ".netrc", "_netrc", ".pgpass", ".htpasswd", ".git-credentials", ".dockercfg", ".envrc", "credentials",
    "master.key", "terraform.tfstate"].map ascii

def DENIED_BASENAME_PREFIXES : List JsString :=
  ["id_rsa", "id_dsa", "id_ecdsa", "id_ed25519", ".env"].map ascii

def DENIED_EXTENSIONS : List JsString :=
  [".pem", ".key", ".p12", ".pfx", ".jks", ".keystore", ".asc", ".gpg", ".ppk"].map ascii

/-! ## Policy -/

def isSeparator (u : UInt16) : Bool := u = slash || u = backslash

/-- `rel.split(/[\\/]+/)`, its empty parts dropped. -/
def pathPieces (rel : JsString) : List JsString := (rel.splitOnP isSeparator).filter (· ≠ [])

/-- The loop of `isIndexerAdmissible` and its test of the extension. -/
def isIndexerAdmissible (lower : LowerCase) (rel : JsString) : Bool :=
  let parts := pathPieces rel
  if parts = [] then false
  else if parts.any fun part => part.head? = some dot || ALWAYS_SKIP_DIR_SEGMENTS.contains part then false
  else (extension (lower.toLowerCase (parts.getLast?.getD []))).any SOURCE_EXTENSIONS.contains

/-- `isDeniedRepoPath` on the parts of a path. -/
def deniedParts (lower : LowerCase) (parts : List JsString) : Bool :=
  if parts = [] then true
  else if parts.dropLast.any fun part => DENIED_DIR_SEGMENTS.contains (lower.toLowerCase part) then true
  else
    let base := lower.toLowerCase (parts.getLast?.getD [])
    DENIED_DIR_SEGMENTS.contains base || DENIED_BASENAMES.contains base ||
      DENIED_BASENAME_PREFIXES.any (fun p => base = p || (p ++ [dot]).isPrefixOf base) ||
      DENIED_EXTENSIONS.any (·.isSuffixOf base)

def isDeniedRepoPath (lower : LowerCase) (rel : JsString) : Bool := deniedParts lower (pathPieces rel)

/-! ## Paths -/

def isAbsolute (p : JsString) : Bool := p.head? = some slash

/-- The names of the path that `resolve(start, p)` gives. -/
def resolveNames (start p : JsString) : List JsString :=
  normalizeFrom dot (if isAbsolute p then [] else normalizeFrom dot [] (start.splitOn slash)) (p.splitOn slash)

def resolve (start p : JsString) : JsString := rootedText slash (resolveNames start p)

/-- What the gate runs on: the disk, how many links a path may cross, the working directory,
and the walker's verdict on a path below a root. -/
structure Host where
  disk : Disk
  maxLinks : Nat
  cwd : JsString
  lower : LowerCase
  isPathExcludedByWalker : JsString → JsString → Bool

namespace Host

/-- The names of a path's real path; none if `realpathSync` throws. -/
def realNames (h : Host) (p : JsString) : Option (List JsString) :=
  h.disk.resolveLinks h.maxLinks [] (pathSteps p)

def tryRealpath (h : Host) (p : JsString) : Option JsString := (h.realNames p).map (rootedText slash)

end Host

/-! ## The gate -/

structure ContainedPath where
  abs : JsString
  rel : JsString
  root : JsString
  existed : Bool
deriving DecidableEq

/-- `inside` of `containWithinRoot`. -/
def inside (rootAbs rootReal p : JsString) : Bool :=
  p = rootAbs || (rootAbs ++ [slash]).isPrefixOf p || p = rootReal || (rootReal ++ [slash]).isPrefixOf p

/-- The root form that a path is taken to start with. -/
def matchedRoot (rootAbs rootReal target : JsString) : JsString :=
  if rootReal.isPrefixOf target then rootReal else rootAbs

/-- What follows a root form, without separators before it. -/
def relativePath (root target : JsString) : JsString := (target.drop root.length).dropWhile isSeparator

def containWithinRoot (h : Host) (root candidate : JsString) : Option ContainedPath :=
  if candidate = [] ∨ nul ∈ candidate then none
  else
    let rootAbs := resolve h.cwd root
    let rootReal := (h.tryRealpath rootAbs).getD rootAbs
    let abs := if isAbsolute candidate then resolve h.cwd candidate else resolve rootAbs candidate
    let real := h.tryRealpath abs
    let target := real.getD abs
    if inside rootAbs rootReal target then
      let root := matchedRoot rootAbs rootReal target
      some ⟨target, relativePath root target, root, real.isSome⟩
    else none

structure ResolvedRepoPath where
  abs : JsString
  rel : JsString
deriving DecidableEq

def resolveRepoPath (h : Host) (repoRoot file : JsString) : Option ResolvedRepoPath :=
  (containWithinRoot h repoRoot file).bind fun c =>
    if isDeniedRepoPath h.lower c.rel then none
    else if !isIndexerAdmissible h.lower c.rel then none
    else if h.isPathExcludedByWalker c.root c.rel then none
    else some ⟨c.abs, c.rel⟩

end Hayven.Db.Pack
