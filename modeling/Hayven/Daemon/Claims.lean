import Hayven.Conflict.Adjacency
import Hayven.Crdt.Clock
import Hayven.Crdt.Orset
import Hayven.Lib.Json
/-!
# Claim board routes

`daemon/routes/claims.ts`. `POST /api/claims` reads the board, may wait once
for the oracle on each adjacent claim, and then registers. While it waits other
requests run, so the handler is cut at its awaits: `beginPost` up to the first
one, `resumePost` from one to the next, `finishPost` after the last.
-/
open Hayven.Lib Hayven.Crdt Hayven.Conflict

namespace Hayven.Daemon

structure ConflictVerdict where
  conflict : Bool
  reason : JsString
  confidence : JsNumber
  oracle : JsString
deriving DecidableEq

structure ClaimContext where
  scope : List JsString
  intent : JsString
  neighbors : List JsString
deriving DecidableEq

structure ClaimDto where
  id : JsString
  agent : JsString
  intent : JsString
  scope : List JsString
  fingerprint : JsString
  created : JsNumber
  ttl : JsNumber
  /-- `"active"`; otherwise `"expired"`. -/
  isActive : Bool
  overriddenVerdicts : List ConflictVerdict := []
  suggestedScope : List JsString := []
deriving DecidableEq

structure CreatePayload where
  id : JsString
  agent : JsString
  intent : JsString
  scope : List JsString
  fingerprint : JsString
  ttlSeconds : JsNumber
  force : Bool
deriving DecidableEq

/-! ## Checking a body -/

inductive CreateError where
  /-- Answered with 400 and this text. -/
  | invalid (error : JsString)
  /-- `Number(...)` threw on an object it cannot convert. -/
  | thrown
deriving DecidableEq

/-- A field that must be a non-empty string. -/
def nonEmptyString (name : String) (body : Json) : Except CreateError JsString :=
  match body.field name with
  | some (.str s) => if s.length = 0 then .error (.invalid (ascii ("`" ++ name ++ "` must be a non-empty string")))
    else .ok s
  | _ => .error (.invalid (ascii ("`" ++ name ++ "` must be a non-empty string")))

/-- The entries of a scope array from index `i` on. -/
def scopeEntries (i : Nat) : List Json → Except CreateError (List JsString)
  | [] => .ok []
  | .str s :: rest =>
    if s.length = 0 then .error (.invalid (ascii s!"scope[{i}] must be a non-empty string"))
    else do
      let scope ← scopeEntries (i + 1) rest
      return s :: scope
  | _ :: _ => .error (.invalid (ascii s!"scope[{i}] must be a non-empty string"))

def validScope (body : Json) : Except CreateError (List JsString) :=
  match body.field "scope" with
  | some (.arr (e :: entries)) => scopeEntries 0 (e :: entries)
  | _ => .error (.invalid (ascii "`scope` must be a non-empty array of strings"))

/-- `Number.isInteger(n) && n >= 1`. -/
def isPositiveInteger : JsNumber → Bool
  | .fin q => q.den = 1 && decide (1 ≤ q)
  | _ => false

def validTtlSeconds (rt : NumberText) (body : Json) : Except CreateError JsNumber :=
  match (match body.field "ttlSeconds" with
    | none => some .nan
    | some j => j.toNumber rt) with
  | none => .error .thrown
  | some n => if isPositiveInteger n then .ok n
    else .error (.invalid (ascii "`ttlSeconds` must be a positive integer"))

def validForce (body : Json) : Except CreateError Bool :=
  match body.field "force" with
  | none => .ok false
  | some (.bool b) => .ok b
  | some _ => .error (.invalid (ascii "`force` must be a boolean when present"))

def validateCreate (rt : NumberText) (body : Option Json) : Except CreateError CreatePayload :=
  match body with
  | none => .error (.invalid (ascii "body must be a JSON object"))
  | some raw => do
    if !raw.isObject then throw (.invalid (ascii "body must be a JSON object"))
    let id ← nonEmptyString "id" raw
    let agent ← nonEmptyString "agent" raw
    let intent ← nonEmptyString "intent" raw
    let scope ← validScope raw
    let fingerprint ← nonEmptyString "fingerprint" raw
    let ttlSeconds ← validTtlSeconds rt raw
    let force ← validForce raw
    return { id, agent, intent, scope, fingerprint, ttlSeconds, force }

/-! ## Reading the board -/

def findActive (orset : OrSetState) (claimId : JsString) : Option OrAddOp :=
  (orset.active none).find? (fun op => op.claimId = claimId)

/-- The intent of an active claim, empty if there is none. -/
def intentOf (orset : OrSetState) (claimId : JsString) : JsString :=
  match findActive orset claimId with
  | some op => op.payload.intent
  | none => []

def addOpToDto (op : OrAddOp) (now : Int) (overriddenVerdicts : List ConflictVerdict) : ClaimDto :=
  { id := op.claimId, agent := op.agent, intent := op.payload.intent, scope := op.payload.scope,
    fingerprint := op.payload.fingerprint, created := op.payload.createdMs, ttl := op.payload.ttlMs,
    isActive := op.payload.ttlMs.gt now, overriddenVerdicts }

/-- The unexpired claims, as the overlap and adjacency checks see them. -/
def activeClaims (orset : OrSetState) (now : Int) : List ClaimLike :=
  (orset.active (some now)).map (fun op => ⟨op.claimId, op.payload.scope⟩)

/-! ## Registering a claim -/

/-- What the routes depend on besides the board. -/
structure Env where
  neighbors : NeighborLookup
  gate : AdjacencyGate
  writer : WriterId
  numbers : NumberText

/-- The board of one daemon. -/
structure Board where
  orset : OrSetState
  clock : HlcGenerator
  overriddenVerdicts : KeyedMap JsString (List ConflictVerdict)

inductive PostReply where
  | badRequest (error : JsString)
  | alreadyHeld (dto : ClaimDto)
  | idTaken (dto : ClaimDto)
  | overlaps (conflictingClaimId : JsString) (overlappingEntities : List JsString)
  | potentialConflict (verdicts : List ConflictVerdict)
  | registered (dto : ClaimDto)
  | failed
deriving DecidableEq

def PostReply.status : PostReply → Nat
  | .badRequest _ => 400
  | .alreadyHeld _ => 200
  | .idTaken _ => 409
  | .overlaps _ _ => 409
  | .potentialConflict _ => 202
  | .registered _ => 201
  | .failed => 500

/-- A request that waits for the oracle, with its local variables. -/
structure Pending where
  input : CreatePayload
  active : List ClaimLike
  incomingCtx : ClaimContext
  current : ClaimLike
  adjacentCtx : ClaimContext
  rest : List ClaimLike
  conflictVerdicts : List ConflictVerdict

/-- Where a handler stands after running up to an await or to the end of its loop. -/
inductive Stage where
  | replied (reply : PostReply)
  | waiting (p : Pending)
  | assessed (input : CreatePayload) (conflictVerdicts : List ConflictVerdict)

/-- The head of the oracle loop. -/
def nextAssess (env : Env) (board : Board) (input : CreatePayload) (active : List ClaimLike)
    (incomingCtx : ClaimContext) (conflictVerdicts : List ConflictVerdict) : List ClaimLike → Stage
  | [] => .assessed input conflictVerdicts
  | adj :: rest => .waiting
      { input, active, incomingCtx, current := adj, rest, conflictVerdicts,
        adjacentCtx :=
          { scope := adj.scope, intent := intentOf board.orset adj.id,
            neighbors := scopeNeighbors adj.scope env.neighbors } }

/-- The handler up to its first await. -/
def beginPost (env : Env) (board : Board) (now : Int) (body : Option Json) : Stage :=
  match validateCreate env.numbers body with
  | .error (.invalid e) => .replied (.badRequest e)
  | .error .thrown => .replied .failed
  | .ok input =>
    match findActive board.orset input.id with
    | some existing =>
      if existing.agent = input.agent then .replied (.alreadyHeld (addOpToDto existing now []))
      else .replied (.idTaken (addOpToDto existing now []))
    | none =>
      let active := activeClaims board.orset now
      match findOverlap input.scope active with
      | some (claim, entities) => .replied (.overlaps claim.id entities)
      | none =>
        let incomingCtx : ClaimContext :=
          { scope := input.scope, intent := input.intent, neighbors := scopeNeighbors input.scope env.neighbors }
        nextAssess env board input active incomingCtx [] (findAdjacent input.scope active env.neighbors env.gate)

/-- A conflict that an edge explains says so. -/
def annotate (viaEdge : Bool) (adjId : JsString) (verdict : ConflictVerdict) : ConflictVerdict :=
  if viaEdge then
    let reason := ascii "Connected by a call/import edge to active claim `" ++ adjId ++ ascii "`. " ++ verdict.reason
    { verdict with reason }
  else verdict

/-- The verdicts collected once the oracle has answered. -/
def addVerdict (env : Env) (p : Pending) (verdict : ConflictVerdict) : List ConflictVerdict :=
  if verdict.conflict then
    p.conflictVerdicts ++ [annotate (edgeAdjacency p.input.scope p.current.scope env.neighbors) p.current.id verdict]
  else p.conflictVerdicts

/-- The handler from one answer of the oracle to the next await. -/
def resumePost (env : Env) (board : Board) (p : Pending) (verdict : ConflictVerdict) : Stage :=
  nextAssess env board p.input p.active p.incomingCtx (addVerdict env p verdict) p.rest

/-- What `finishPost` reads from outside: three clock readings, whether the op log
took the op and whether the SQL row was written. -/
structure Surroundings where
  created : Int
  tick : Int
  dto : Int
  appended : Bool
  rowWritten : Bool

def registers (input : CreatePayload) (conflictVerdicts : List ConflictVerdict) : Bool :=
  !(conflictVerdicts.length > 0 && input.force ≠ true)

/-- The op a request registers. -/
def claimOp (env : Env) (board : Board) (input : CreatePayload) (r : Surroundings) : OrAddOp :=
  { claimId := input.id, agent := input.agent,
    payload :=
      { intent := input.intent, scope := input.scope, fingerprint := input.fingerprint, createdMs := r.created,
        ttlMs := JsNumber.add r.created (JsNumber.mul input.ttlSeconds (1000 : Nat)) },
    hlc := (board.clock.tick r.tick).1, writer := env.writer }

/-- The handler after its loop. -/
def finishPost (env : Env) (board : Board) (input : CreatePayload) (conflictVerdicts : List ConflictVerdict)
    (r : Surroundings) : Board × PostReply :=
  if !registers input conflictVerdicts then (board, .potentialConflict conflictVerdicts)
  else
    let op := claimOp env board input r
    let ticked := { board with clock := (board.clock.tick r.tick).2 }
    if !r.appended then (ticked, .failed)
    else match board.orset.apply (.add op) with
      | .error _ => (ticked, .failed)
      | .ok orset =>
        let applied := { ticked with orset }
        if !r.rowWritten then (applied, .failed)
        else
          let recorded := if conflictVerdicts.length > 0 then
              { applied with overriddenVerdicts := applied.overriddenVerdicts.set input.id conflictVerdicts }
            else applied
          let dto := addOpToDto op r.dto conflictVerdicts
          (recorded, .registered { dto with suggestedScope := (suggestScope input.scope env.neighbors).2 })

/-! ## Releasing a claim -/

inductive DeleteReply where
  | notFound
  | released (id : JsString)
  | failed
deriving DecidableEq

/-- A key removed from a map. -/
def eraseKey {α : Type} (m : KeyedMap JsString α) (k : JsString) : KeyedMap JsString α :=
  ⟨m.entries.filter (fun p => p.1 ≠ k), (m.nodup.sublist (List.filter_sublist.map _))⟩

def deleteClaim (env : Env) (board : Board) (id : JsString) (tick : Int) (appended rowDeleted : Bool) :
    Board × DeleteReply :=
  match findActive board.orset id with
  | none => (board, .notFound)
  | some _ =>
    let ticked := { board with clock := (board.clock.tick tick).2 }
    match makeRemoveOpFor board.orset id (board.clock.tick tick).1 env.writer with
    | .error _ => (ticked, .failed)
    | .ok op =>
      if !appended then (ticked, .failed)
      else
        let applied := { ticked with orset := board.orset.applyRemove op }
        if !rowDeleted then (applied, .failed)
        else ({ applied with overriddenVerdicts := eraseKey applied.overriddenVerdicts id }, .released id)

end Hayven.Daemon
