import Hayven.Daemon.Registry
/-!
# Operations on the project registry

What each mutation of `daemon/registry.ts` does under the lock: from the entries it reads
there, the list it writes, if it writes, and its outcome. What a call looked up before it
took the lock is an argument.
-/
open Hayven.Lib

namespace Hayven.Daemon

/-- The list to write, if any, and the result. -/
abbrev Written (α : Type) := Option (List ProjectEntry) × α

section Host
variable (host : RegistryHost)

def sortEntries (entries : List ProjectEntry) : List ProjectEntry :=
  sortWith (fun a b => host.localeCompare a.aliasName b.aliasName) entries

/-- `isAbsolute(root) ? root : resolve(process.cwd(), root)`, canonical. -/
def absoluteRoot (root : JsString) : JsString :=
  host.canonicalRoot (if host.isAbsolute root then root else host.resolve root)

/-- The row names the repository at a root. -/
def isAt (abs : JsString) (e : ProjectEntry) : Bool := host.isAbsolute e.root && sameRoot host e.root abs

/-- An observed absence. -/
def isMissing (e : ProjectEntry) : Bool := host.isAbsolute e.root && ! host.isDirectory e.root

def mountDirs : List JsString := [ascii "/Volumes", ascii "/mnt", ascii "/media", ascii "/run/media"]

def isOnMountLocation (root : JsString) : Bool :=
  mountDirs.any fun d => host.resolve root = d || (d ++ ascii "/").isPrefixOf (host.resolve root)

/-! ## Registering -/

inductive AmbiguityReason where
  | unknownIdentity
  | idMismatch
  | severalMatches
  | parentMissing
  | aliasBusy

structure RegisterOutcome where
  entry : ProjectEntry
  relocatedFrom : Option JsString
  ambiguousWith : Option (ProjectEntry × AmbiguityReason)

/-- The missing rows of the same identity. -/
def sameIdentity (identity : Option Identity) (entries : List ProjectEntry) : List ProjectEntry :=
  match identity with
  | none => []
  | some id => entries.filter fun e => e.id = some id && isMissing host e

/-- The old root reads as offline rather than as left. -/
def looksUnmounted (e : ProjectEntry) : Bool :=
  ! host.isDirectory (host.dirname e.root) || isOnMountLocation host e.root

/-- The alias a row gets: the wish, made unique, or the one it has. -/
def wishOr (abs : JsString) (wish : Option JsString) (others : List ProjectEntry) (current : JsString) : JsString :=
  match wish with
  | some name => deriveAlias host abs (some name) others
  | none => current

/-- A new row, and the row it may be the moved form of. -/
def registerPlain (abs : JsString) (wish : Option JsString) (identity : Option Identity)
    (ambiguousWith : Option (ProjectEntry × AmbiguityReason)) (entries : List ProjectEntry) : Written RegisterOutcome :=
  let entry : ProjectEntry := ⟨deriveAlias host abs wish entries, abs, identity, none⟩
  (some (sortEntries host (entries ++ [entry])), ⟨entry, none, ambiguousWith⟩)

/-- Why the natural alias is taken by a row that is missing. -/
def aliasHolder (base : JsString) (identity : Option Identity) (entries : List ProjectEntry) :
    Option (ProjectEntry × AmbiguityReason) :=
  match entries.find? fun e => e.aliasName = base with
  | none => none
  | some holder =>
    if isMissing host holder then
      some (holder, if holder.id.isNone || identity.isNone then .unknownIdentity else .idMismatch)
    else none

/-- The part of `registerProjectDetailed` under the lock; a blank alias is no wish. -/
def registerLocked (abs : JsString) (wish : Option JsString) (blocked : List JsString) (entries : List ProjectEntry) :
    Written RegisterOutcome :=
  let identity := readProjectIdentity host abs
  let base := sanitizeAlias host (wish.getD (host.basename abs))
  match entries.find? (isAt host abs) with
  | some existing =>
    let id := identity <|> existing.id
    if wish.isNone && id = existing.id then (none, ⟨existing, none, none⟩)
    else
      let others := entries.filter fun e => ! isAt host abs e
      let entry : ProjectEntry := ⟨wishOr host abs wish others existing.aliasName, abs, id, existing.missingSince⟩
      (some (sortEntries host (others ++ [entry])), ⟨entry, none, none⟩)
  | none =>
    match sameIdentity host identity entries with
    | [] => registerPlain host abs wish identity (aliasHolder host base identity entries) entries
    | [moved] =>
      if ! looksUnmounted host moved && ! blocked.contains moved.aliasName then
        let others := entries.filter fun e => e ≠ moved
        let entry : ProjectEntry := ⟨wishOr host abs wish others moved.aliasName, abs, identity, none⟩
        (some (sortEntries host (others ++ [entry])), ⟨entry, some moved.root, none⟩)
      else
        registerPlain host abs wish identity
          (some (moved, if looksUnmounted host moved then .parentMissing else .aliasBusy)) entries
    | first :: several =>
      registerPlain host abs wish identity
        (some (((first :: several).find? fun e => e.aliasName = base).getD first, .severalMatches)) entries

/-! ## Identities -/

/-- The identity read of the last of the roots that has the key. -/
def foundIdentity (roots : List JsString) (key : JsString) : Option Identity :=
  roots.reverse.findSome? fun root => if host.rootKey root = key then readProjectIdentity host root else none

def previousIdentity (previous : List (JsString × Identity)) (key : JsString) : Option Identity :=
  (previous.find? fun p => p.1 = key).map Prod.snd

/-- The row with the identity that was found, or that it has lost. -/
def recordEntry (roots : List JsString) (previous : List (JsString × Identity)) (e : ProjectEntry) : ProjectEntry :=
  if host.isAbsolute e.root then
    let key := host.rootKey e.root
    match foundIdentity host roots key <|> (if e.id.isNone then previousIdentity previous key else none) with
    | none => e
    | some id => if some id = e.id then e else { e with id := some id }
  else e

def recordLocked (roots : List JsString) (previous : List (JsString × Identity)) (entries : List ProjectEntry) :
    Written Nat :=
  let changed := entries.countP fun e => recordEntry host roots previous e ≠ e
  (if changed > 0 then some (entries.map (recordEntry host roots previous)) else none, changed)

/-! ## Renaming and relocating -/

structure RegistryChange where
  entry : ProjectEntry
  previous : ProjectEntry
  replaced : Option ProjectEntry

def findAlias (name : JsString) (entries : List ProjectEntry) : Except RegistryError ProjectEntry :=
  match entries.find? fun e => e.aliasName = name with
  | none => .error (.unknownAlias name (entries.map ProjectEntry.aliasName))
  | some e => .ok e

/-- Put an entry in the place of another, and sort. -/
def replaceEntry (previous entry : ProjectEntry) (entries : List ProjectEntry) : List ProjectEntry :=
  sortEntries host (entries.map fun e => if e = previous then entry else e)

def renameLocked (oldAlias newAlias : JsString) (dryRun : Bool) (entries : List ProjectEntry) :
    Except RegistryError (Written RegistryChange) :=
  let wanted := Graph.trim newAlias
  let clean := sanitizeAlias host wanted
  if wanted = [] || clean ≠ wanted then .error (.badAlias newAlias clean)
  else
    (findAlias oldAlias entries).bind fun previous =>
      if oldAlias = clean then .ok (none, ⟨previous, previous, none⟩)
      else
        match entries.find? fun e => e.aliasName = clean with
        | some holder => .error (.aliasTaken clean holder.root)
        | none =>
          let entry := { previous with aliasName := clean }
          .ok (if dryRun then none else some (replaceEntry host previous entry entries), ⟨entry, previous, none⟩)

/-- Both identities are known and differ. -/
def identitiesDiffer (id identity : Option Identity) : Option (Identity × Identity) :=
  match id, identity with
  | some a, some b => if a ≠ b then some (a, b) else none
  | _, _ => none

/-- The part of `relocateProject` under the lock; `before` is the row the alias had when the
call looked for it without the lock. -/
def relocateLocked (name abs : JsString) (force dryRun : Bool) (before : Option ProjectEntry)
    (entries : List ProjectEntry) : Except RegistryError (Written RegistryChange) :=
  let identity := readProjectIdentity host abs
  let stillThere (previous : ProjectEntry) := match before with
    | none => false
    | some b => host.isAbsolute b.root && ! sameRoot host b.root abs && host.isDirectory b.root && previous.root = b.root
  (findAlias name entries).bind fun previous =>
    if stillThere previous && ! force then .error (.stillThere name previous.root abs)
    else
      match if force then none else identitiesDiffer previous.id identity with
      | some (id, now) => .error (.otherProject abs name now id)
      | none =>
        let replaced := entries.find? fun e => e ≠ previous && isAt host abs e
        match if force then none else identitiesDiffer (replaced.bind ProjectEntry.id) identity with
        | some (id, now) => .error (.foldedOther ((replaced.map ProjectEntry.aliasName).getD []) abs id now name)
        | none =>
          let entry : ProjectEntry := ⟨name, abs, identity <|> previous.id, none⟩
          if replaced.isNone && entry = previous then .ok (none, ⟨entry, previous, none⟩)
          else
            let kept := entries.filter fun e => some e ≠ replaced
            .ok (if dryRun then none else some (replaceEntry host previous entry kept), ⟨entry, previous, replaced⟩)

/-! ## Pruning -/

def staleGraceMs : Int := 7 * 24 * 60 * 60 * 1000

def implausibleMissingAgeMs : Int := 365 * 24 * 60 * 60 * 1000

/-- When the grace window of a stamp started, if the stamp can be trusted. -/
def graceStartMs (stamp : Option JsString) (nowMs : Int) : Option Int :=
  match stamp.bind host.dateParse with
  | none => none
  | some parsed =>
    if parsed > nowMs || nowMs - parsed > implausibleMissingAgeMs then none else some parsed

/-- The identity read before the lock, of the roots there were then. -/
def identityBefore (before : List ProjectEntry) (root : JsString) : Option Identity :=
  if before.any (fun e => host.isAbsolute e.root && e.root = root) && host.isDirectory root then
    readProjectIdentity host root
  else none

/-- What `pruneStaleProjects` makes of a row, unless it is removed. -/
def pruneEntry (before : List ProjectEntry) (nowMs : Int) (e : ProjectEntry) : Option ProjectEntry :=
  if ! host.isAbsolute e.root then some e
  else if ! isRegistrableRoot host e.root then none
  else if host.isDirectory e.root then
    some { e with id := identityBefore host before e.root <|> e.id, missingSince := none }
  else
    match graceStartMs host e.missingSince nowMs with
    | some since => if nowMs - since > staleGraceMs then none else some e
    | none => some { e with missingSince := some (host.toISOString nowMs) }

def pruneStaleLocked (before : List ProjectEntry) (nowMs : Int) (entries : List ProjectEntry) :
    Written (List ProjectEntry) :=
  let keep := entries.filterMap (pruneEntry host before nowMs)
  (if keep ≠ entries then some keep else none,
    entries.filter fun e => (pruneEntry host before nowMs e).isNone)

def doomed (minMissingMs nowMs : Int) (e : ProjectEntry) : Bool :=
  isMissing host e && (minMissingMs ≤ 0 ||
    match graceStartMs host e.missingSince nowMs with
    | none => false
    | some since => nowMs - since ≥ minMissingMs)

def pruneMissingLocked (minMissingMs nowMs : Int) (dryRun : Bool) (entries : List ProjectEntry) :
    Written (List ProjectEntry) :=
  let removed := entries.filter (doomed host minMissingMs nowMs)
  (if dryRun || removed = [] then none else some (entries.filter fun e => ! removed.contains e), removed)

/-! ## Unregistering -/

inductive UnregisterTarget where
  | byAlias (name : JsString)
  | byPath (given root : JsString)

def looksLikePath (arg : JsString) : Bool :=
  host.isAbsolute arg || arg = ascii "~" || (ascii "~/").isPrefixOf arg || arg = ascii "." || arg = ascii ".." ||
    arg.any fun u => u = 0x5C || u = 0x2F

def classifyUnregisterArg (aliasOrRoot : JsString) : UnregisterTarget :=
  let arg := Graph.trim aliasOrRoot
  if looksLikePath host arg then .byPath arg (absoluteRoot host (expandHomePrefix host arg)) else .byAlias arg

def UnregisterTarget.selects (target : UnregisterTarget) (e : ProjectEntry) : Bool :=
  match target with
  | .byAlias name => e.aliasName = name
  | .byPath _ root => isAt host root e

def notFoundMessage (target : UnregisterTarget) (entries : List ProjectEntry) : JsString :=
  match target with
  | .byAlias name =>
    let known := entries.map ProjectEntry.aliasName
    ascii "no registered project with the alias \"" ++ name ++ ascii "\". Registered aliases: " ++
      (if known = [] then ascii "(none registered)" else commaSpaced known) ++
      ascii ". A bare name is treated as an ALIAS only — to remove by location, pass a path (e.g. ./" ++ name ++
      ascii " or an absolute path)."
  | .byPath given root =>
    ascii "no registered project rooted at " ++ root ++ ascii " (read \"" ++ given ++
      ascii "\" as a path because it names one; a bare name would have been an alias)."

structure UnregisterOutcome where
  removed : Bool
  target : UnregisterTarget
  message : JsString
  removedEntries : List ProjectEntry

def unregisterLocked (aliasOrRoot : JsString) (entries : List ProjectEntry) : Written UnregisterOutcome :=
  let target := classifyUnregisterArg host aliasOrRoot
  let next := entries.filter fun e => ! target.selects host e
  if next.length = entries.length then (none, ⟨false, target, notFoundMessage target entries, []⟩)
  else
    let what := match target with
      | .byAlias name => ascii "alias \"" ++ name ++ ascii "\""
      | .byPath _ root => ascii "the project rooted at " ++ root
    (some next, ⟨true, target, ascii "unregistered " ++ what, entries.filter (target.selects host)⟩)

end Host

/-! ## Calls -/

inductive RegistryOp where
  | register (root : JsString) (wish : Option JsString) (blocked : List JsString)
  | recordIdentities (roots : List JsString) (previous : List (JsString × Identity))
  | rename (oldAlias newAlias : JsString) (dryRun : Bool)
  | relocate (name newRoot : JsString) (force dryRun : Bool)
  | pruneStale (nowMs : Int)
  | pruneMissing (minMissingMs nowMs : Int) (dryRun : Bool)
  | unregister (aliasOrRoot : JsString)

/-- An operation on the entries read under the lock, given those read before: the list it writes. -/
def RegistryOp.locked (host : RegistryHost) (before entries : List ProjectEntry) :
    RegistryOp → Except RegistryError (Option (List ProjectEntry))
  | .register root wish blocked =>
    let abs := absoluteRoot host root
    (assertRegistrableRoot host abs).bind fun _ =>
      .ok (registerLocked host abs (wish.filter (· ≠ [])) blocked entries).1
  | .recordIdentities roots previous => .ok (recordLocked host roots previous entries).1
  | .rename oldAlias newAlias dryRun => (renameLocked host oldAlias newAlias dryRun entries).map Prod.fst
  | .relocate name newRoot force dryRun =>
    let abs := absoluteRoot host newRoot
    (assertRegistrableRoot host abs).bind fun _ =>
      if ! host.isDirectory abs then .error (.notDirectory abs)
      else if ! host.isDirectory (host.join abs (ascii ".hayven")) then .error (.notProject abs)
      else (relocateLocked host name abs force dryRun (before.find? fun e => e.aliasName = name) entries).map Prod.fst
  | .pruneStale nowMs => .ok (pruneStaleLocked host before nowMs entries).1
  | .pruneMissing minMissingMs nowMs dryRun => .ok (pruneMissingLocked host minMissingMs nowMs dryRun entries).1
  | .unregister aliasOrRoot => .ok (unregisterLocked host aliasOrRoot entries).1

/-- One call: its operation, what the host answers, and whether the file could be read
before the lock and under it and be written. -/
structure RegistryCall where
  host : RegistryHost
  op : RegistryOp
  readableBefore : Bool
  readable : Bool
  done : Bool

/-- The list the call writes over a file, if it writes. -/
def RegistryCall.writes (call : RegistryCall) (file : ProjectsFile) : Option (List ProjectEntry) :=
  match call.op.locked call.host (readRegistryRaw call.host file call.readableBefore)
      (readRegistryRaw call.host file call.readable) with
  | .ok next => if call.done then next else none
  | .error _ => none

def RegistryCall.apply (call : RegistryCall) (file : ProjectsFile) : ProjectsFile :=
  match call.writes file with
  | some next => .text (some (projectsJson next))
  | none => file

end Hayven.Daemon
