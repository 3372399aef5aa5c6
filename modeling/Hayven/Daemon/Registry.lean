import Hayven.Graph.IdScheme
import Hayven.Lib.Json
import Hayven.Lib.KeyedSort
/-!
# The project registry

`daemon/registry.ts`: `projects.json` maps an alias to the root of a repository. Every
operation reads the file, repairs what it reads, and writes the whole list back. Paths, the
file system and the clock are the host's, as they are during one call. The backups a
mutation takes are left out; nothing reads them.
-/
open Hayven.Lib

namespace Hayven.Daemon

/-! ## The host -/

def isHexDigit (u : UInt16) : Bool := isDigit u || (0x61 ≤ u && u ≤ 0x66) || (0x41 ≤ u && u ≤ 0x46)

/-- `IDENTITY_RE`. -/
def isIdentity (s : JsString) : Bool := s.length = 32 && s.all isHexDigit

def lowerHexDigit (u : UInt16) : UInt16 := if 0x41 ≤ u && u ≤ 0x46 then u + 0x20 else u

/-- A project's `writer_id`: 32 hex digits in lower case. -/
structure Identity where
  val : JsString
  valid : isIdentity val = true
  lower : val.map lowerHexDigit = val

instance : DecidableEq Identity := fun a b =>
  decidable_of_iff (a.val = b.val) ⟨fun h => by cases a; cases b; cases h; rfl, congrArg Identity.val⟩

/-- The letters `A` to `F` and what they become. -/
theorem lowerHexDigit_upper {u : UInt16} (h : (0x41 ≤ u && u ≤ 0x46) = true) :
    (lowerHexDigit u).toNat = u.toNat + 0x20 ∧ 0x61 ≤ (lowerHexDigit u).toNat ∧ (lowerHexDigit u).toNat ≤ 0x66 := by
  have hsum : (u + 0x20).toNat = (u.toNat + 0x20) % 65536 := UInt16.toNat_add u 0x20
  simp only [Bool.and_eq_true, decide_eq_true_eq, UInt16.le_iff_toNat_le] at h
  obtain ⟨hlow, hhigh⟩ := h
  change 0x41 ≤ u.toNat at hlow
  change u.toNat ≤ 0x46 at hhigh
  rw [lowerHexDigit, if_pos (by simp only [Bool.and_eq_true, decide_eq_true_eq, UInt16.le_iff_toNat_le]; exact ⟨hlow, hhigh⟩)]
  omega

theorem isHexDigit_lowerHexDigit {u : UInt16} (h : isHexDigit u = true) : isHexDigit (lowerHexDigit u) = true := by
  by_cases hupper : (0x41 ≤ u && u ≤ 0x46) = true
  · obtain ⟨-, hlow, hhigh⟩ := lowerHexDigit_upper hupper
    simp only [isHexDigit, Bool.or_eq_true, Bool.and_eq_true, decide_eq_true_eq, UInt16.le_iff_toNat_le]
    exact .inl (.inr ⟨hlow, hhigh⟩)
  · rwa [lowerHexDigit, if_neg hupper]

theorem lowerHexDigit_lowerHexDigit (u : UInt16) : lowerHexDigit (lowerHexDigit u) = lowerHexDigit u := by
  by_cases hupper : (0x41 ≤ u && u ≤ 0x46) = true
  · obtain ⟨-, hlow, -⟩ := lowerHexDigit_upper hupper
    generalize lowerHexDigit u = v at hlow
    rw [lowerHexDigit, if_neg]
    simp only [Bool.and_eq_true, decide_eq_true_eq, UInt16.le_iff_toNat_le, not_and, not_le]
    intro _
    exact lt_of_lt_of_le (by decide) hlow
  · have hid : lowerHexDigit u = u := by rw [lowerHexDigit, if_neg hupper]
    rw [hid, hid]

theorem isIdentity_lower {s : JsString} (h : isIdentity s = true) : isIdentity (s.map lowerHexDigit) = true := by
  simp only [isIdentity, Bool.and_eq_true, decide_eq_true_eq, List.all_eq_true, List.length_map, List.mem_map] at h ⊢
  refine ⟨h.1, ?_⟩
  rintro _ ⟨u, hu, rfl⟩
  exact isHexDigit_lowerHexDigit (h.2 u hu)

theorem lower_lower (s : JsString) : (s.map lowerHexDigit).map lowerHexDigit = s.map lowerHexDigit := by
  rw [List.map_map]
  exact List.map_congr_left fun u _ => lowerHexDigit_lowerHexDigit u

/-- What one call is answered by paths, file system and clock. -/
structure RegistryHost where
  isAbsolute : JsString → Bool
  /-- `resolve(process.cwd(), p)`. -/
  resolve : JsString → JsString
  join : JsString → JsString → JsString
  basename : JsString → JsString
  dirname : JsString → JsString
  homedir : JsString
  hayvenHomeDir : JsString
  canonicalRoot : JsString → JsString
  rootKey : JsString → JsString
  isDirectory : JsString → Bool
  /-- What `.hayven/config.json` under a root parses to, if it can be read and parsed. -/
  config : JsString → Option Json
  toLowerCase : JsString → JsString
  localeCompare : JsString → JsString → Ordering
  /-- `Date.parse`, if it is a number. -/
  dateParse : JsString → Option Int
  toISOString : Int → JsString

structure ProjectEntry where
  aliasName : JsString
  root : JsString
  id : Option Identity
  missingSince : Option JsString
deriving DecidableEq

/-- The registry file: not there, or a text that parses or does not. -/
inductive ProjectsFile where
  | absent
  | text (parsed : Option Json)

section Host
variable (host : RegistryHost)

def sameRoot (a b : JsString) : Bool := host.rootKey a = host.rootKey b

/-- An id that passes the test, in lower case. -/
def toIdentity (s : JsString) : Option Identity :=
  if h : isIdentity s = true then some ⟨s.map lowerHexDigit, isIdentity_lower h, lower_lower s⟩ else none

def readProjectIdentity (root : JsString) : Option Identity :=
  match (host.config root).bind (Json.field "writer_id") with
  | some (.str id) => toIdentity id
  | _ => none

/-! ## Aliases -/

def isAliasUnit (u : UInt16) : Bool := isDigit u || (0x61 ≤ u && u ≤ 0x7A) || u = 0x2E || u = 0x5F || u = 0x2D

/-- `s.replace(/[^a-z0-9._-]+/g, "-")`. -/
def dashRuns : JsString → JsString
  | [] => []
  | [u] => if isAliasUnit u then [u] else [0x2D]
  | u :: v :: rest =>
    if isAliasUnit u then u :: dashRuns (v :: rest)
    else if isAliasUnit v then 0x2D :: dashRuns (v :: rest) else dashRuns (v :: rest)

def sanitizeAlias (raw : JsString) : JsString :=
  let cleaned := trimBy (· = 0x2D) (dashRuns (host.toLowerCase (Graph.trim raw)))
  if cleaned = [] then ascii "project" else cleaned

/-- `new Map(taken.map((e) => [e.alias, e.root])).get(alias)`. -/
def rootOfAlias (taken : List ProjectEntry) (name : JsString) : Option JsString :=
  (taken.reverse.find? fun e => e.aliasName = name).map ProjectEntry.root

def numbered (base : JsString) (n : Nat) : JsString := base ++ ascii "-" ++ decDigits n

/-- The handle is free, or names this very root. -/
def aliasFree (root : JsString) (taken : List ProjectEntry) (name : JsString) : Bool :=
  match rootOfAlias taken name with
  | none => true
  | some owner => owner = root

/-- The first free one of `base-n`, `base-(n+1)`, … -/
def deriveNumbered (root : JsString) (taken : List ProjectEntry) (base : JsString) : Nat → Nat → JsString
  | 0, n => numbered base n
  | fuel + 1, n =>
    if aliasFree root taken (numbered base n) then numbered base n
    else deriveNumbered root taken base fuel (n + 1)

/-- `preferred && preferred.length > 0 ? preferred : basename(root)`. -/
def aliasWish (root : JsString) : Option JsString → JsString
  | some (u :: p) => u :: p
  | _ => host.basename root

/-- The loop has no bound in the source; among one candidate more than there are entries one is free. -/
def deriveAlias (root : JsString) (preferred : Option JsString) (taken : List ProjectEntry) : JsString :=
  let base := sanitizeAlias host (aliasWish host root preferred)
  if aliasFree root taken base then base else deriveNumbered root taken base taken.length 2

/-! ## Reading and writing -/

def expandHomePrefix (p : JsString) : JsString :=
  match p with
  | [0x7E] => host.homedir
  | 0x7E :: 0x2F :: rest => host.join host.homedir rest
  | _ => p

/-- The string in a field, blank if there is none. -/
def textField (key : String) (raw : Json) : JsString :=
  match raw.field key with
  | some (.str s) => s
  | _ => []

/-- A row of the file as it is stored, if alias and root are there. -/
def storedRow (raw : Json) : Option ProjectEntry :=
  if textField "alias" raw = [] || textField "root" raw = [] then none
  else some
    { aliasName := textField "alias" raw
      root := expandHomePrefix host (textField "root" raw)
      id := toIdentity (textField "id" raw)
      missingSince := if textField "missing_since" raw = [] then none else some (textField "missing_since" raw) }

/-- What two rows of one repository share. -/
def repoKey (e : ProjectEntry) : JsString :=
  if host.isAbsolute e.root then host.rootKey e.root else ascii "unresolvable:" ++ e.root

/-- An alias that an earlier row has is replaced. -/
def repairAlias (out : List ProjectEntry) (e : ProjectEntry) : ProjectEntry :=
  if out.any (fun o => o.aliasName = e.aliasName) then { e with aliasName := deriveAlias host e.root (some e.aliasName) out } else e

/-- The loop of `readRegistryRaw`. -/
def readRows (seen : List JsString) (out : List ProjectEntry) : List Json → List ProjectEntry
  | [] => out
  | raw :: rest =>
    match storedRow host raw with
    | none => readRows seen out rest
    | some e =>
      if repoKey host e ∈ seen then readRows seen out rest
      else readRows (repoKey host e :: seen) (out ++ [repairAlias host out e]) rest

/-- The rows of a file that parses to a list of projects; no rows of any other. -/
def projectRows (file : ProjectsFile) (readable : Bool) : List Json :=
  match file with
  | .text (some parsed) =>
    match parsed.field "projects" with
    | some (.arr list) => if readable then list else []
    | _ => []
  | _ => []

def readRegistryRaw (file : ProjectsFile) (readable : Bool) : List ProjectEntry :=
  readRows host [] [] (projectRows file readable)

def optionalField (key : String) : Option JsString → List (JsString × Json)
  | none => []
  | some s => [(ascii key, .str s)]

def projectJson (e : ProjectEntry) : Json :=
  .obj ([(ascii "alias", .str e.aliasName), (ascii "root", .str e.root)] ++
    optionalField "id" (e.id.map Identity.val) ++ optionalField "missing_since" e.missingSince)

def projectsJson (entries : List ProjectEntry) : Json :=
  .obj [(ascii "version", .num (.fin 1)), (ascii "projects", .arr (entries.map projectJson))]

/-! ## Roots that are never registered -/

def sameDir (a b : JsString) : Bool := host.resolve a = host.resolve b || sameRoot host a b

/-- What the mutations throw. -/
inductive RegistryError where
  | home (abs : JsString)
  | fsRoot (abs : JsString)
  | unknownAlias (name : JsString) (known : List JsString)
  | badAlias (given clean : JsString)
  | aliasTaken (clean root : JsString)
  | notDirectory (abs : JsString)
  | notProject (abs : JsString)
  | stillThere (name root abs : JsString)
  | otherProject (abs name : JsString) (identity id : Identity)
  | foldedOther (replaced abs : JsString) (id identity : Identity) (name : JsString)

def commaSpaced (names : List JsString) : JsString := (ascii ", ").intercalate names

def RegistryError.message : RegistryError → JsString
  | .home abs => ascii "refusing to register the home directory (" ++ abs ++ ascii ") as a project — " ++
      ascii "`~/.hayven` is the global config dir, not a project marker. " ++
      ascii "cd into a repository and run the command there."
  | .fsRoot abs => ascii "refusing to register the filesystem root (" ++ abs ++ ascii ") as a project."
  | .unknownAlias name known => ascii "no registered project with the alias \"" ++ name ++
      ascii "\". Registered aliases: " ++ (if known = [] then ascii "(none registered)" else commaSpaced known) ++ ascii "."
  | .badAlias given clean => ascii "\"" ++ given ++
      ascii "\" is not a valid alias: aliases are lowercase letters, digits, '.', '_' and '-'. It would become \"" ++
      clean ++ ascii "\"; run the command again with that if it is what you want."
  | .aliasTaken clean root => ascii "the alias \"" ++ clean ++ ascii "\" is already used by " ++ root ++
      ascii ". Rename or remove that one first (`hayven projects remove " ++ clean ++ ascii "`)."
  | .notDirectory abs => abs ++ ascii " is not a directory"
  | .notProject abs => abs ++ ascii " has no .hayven/ directory, so it is not a Hayvenhurst project. " ++
      ascii "Run `hayven init` there first, or check the path."
  | .stillThere name root abs => ascii "\"" ++ name ++ ascii "\" still exists at " ++ root ++
      ascii ", so this would move the registration away from a live repo. If that folder is a stale copy, " ++
      ascii "re-run with --force; to track both, register the new one on its own (`hayven daemon register " ++
      abs ++ ascii "`)."
  | .otherProject abs name identity id => abs ++ ascii " is a different project than \"" ++ name ++
      ascii "\" was: its .hayven/config.json writer_id is " ++ identity.val ++ ascii ", but \"" ++ name ++
      ascii "\" was registered with " ++ id.val ++
      ascii ". If you re-ran `hayven init` there or are sure it is the same repo, re-run with --force."
  | .foldedOther replaced abs id identity name => ascii "\"" ++ replaced ++ ascii "\" is registered at " ++ abs ++
      ascii " with identity " ++ id.val ++ ascii ", but the project there now has " ++ identity.val ++
      ascii ". Folding it into \"" ++ name ++
      ascii "\" would drop that record; re-run with --force if that is intended."

def assertRegistrableRoot (root : JsString) : Except RegistryError Unit :=
  let abs := host.resolve root
  if sameDir host abs host.homedir || sameDir host abs host.hayvenHomeDir then .error (.home abs)
  else if abs = host.dirname abs || host.canonicalRoot abs = host.dirname (host.canonicalRoot abs) then
    .error (.fsRoot abs)
  else .ok ()

def isRegistrableRoot (root : JsString) : Bool :=
  match assertRegistrableRoot host root with
  | .ok _ => true
  | .error _ => false

end Host

end Hayven.Daemon
