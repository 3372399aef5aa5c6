import Hayven.Db.Queries
import Hayven.Lib.DecimalText
import Hayven.Lib.JsonReread
import Hayven.Lib.Lines
import Hayven.Util.DateText
/-!
# Whether an index is usable

`db/index_health.ts`: the entries of the `ingest_in_progress` marker, who minted their
tokens, and the one decision that readers ask for. A marker that was written comes back:
`parseInFlight_writeInFlight`. Tables that cannot be read at all are left out.
-/
open Hayven.Lib Hayven.Graph Hayven.Util

namespace Hayven.Db

instance (q : Rat) : Decidable (IsDouble q) := inferInstanceAs (Decidable (_ = _))

/-- A finite number of the runtime. -/
abbrev Double := {q : Rat // IsDouble q}

/-! ## The marker -/

structure InFlightIngest where
  t : JsString
  startedAt : Double
deriving DecidableEq

def LEGACY_TOKEN : JsString := ascii "legacy"

def MALFORMED_TOKEN : JsString := ascii "malformed"

def isAdoptableToken (token : JsString) : Bool := token = LEGACY_TOKEN || token = MALFORMED_TOKEN

def malformed : InFlightIngest := ⟨MALFORMED_TOKEN, 0, by decide +kernel⟩

/-- An element that is a well-formed entry; every number of the runtime is a double. -/
def entryOf (e : Json) : Option InFlightIngest :=
  match e.field "t", e.field "at" with
  | some (.str t), some (.num (.fin q)) => if h : IsDouble q then some ⟨t, q, h⟩ else none
  | _, _ => none

/-- The bare scalar of an older build. -/
def legacyEntry (n : JsNumber) : InFlightIngest :=
  match n with
  | .fin q => if h : 0 < q ∧ IsDouble q then ⟨LEGACY_TOKEN, q, h.2⟩ else malformed
  | _ => malformed

section Marker
variable (rt : NumberText)

def parseInFlight : Option JsString → List InFlightIngest
  | none => []
  | some raw =>
    let trimmed := trim raw
    if trimmed = [] ∨ trimmed = ascii "[]" then []
    else match parseJson trimmed with
      | some (.arr items) =>
        let entries := items.filterMap entryOf
        if entries = [] then [malformed] else entries
      | _ => [legacyEntry (rt.ofString trimmed)]

def InFlightIngest.toJson (e : InFlightIngest) : Json :=
  .obj [(ascii "t", .str e.t), (ascii "at", .num (.fin e.startedAt))]

/-- What `writeInFlight` leaves in the row; none deletes it. -/
def writeInFlight (entries : List InFlightIngest) : Option JsString :=
  if entries = [] then none else some (stringify rt (.arr (entries.map InFlightIngest.toJson)))

end Marker

/-- The earliest start. -/
def inProgressSince : List InFlightIngest → Option Double
  | [] => none
  | e :: rest =>
    some (rest.foldl (fun least e => if e.startedAt.val < least.val then e.startedAt else least) e.startedAt)

/-! ## Owners -/

/-- A process id, an integer that the runtime holds exactly. -/
@[ext] structure Pid where
  val : Nat
  pos : 0 < val
  small : val < 2 ^ 53
deriving DecidableEq

/-- The pid of `<pid>:<time36>:<rand>`. -/
def tokenPid (token : JsString) : Option Nat :=
  let head := firstSegment 0x3A token
  if head ≠ [] ∧ head.all isDigit = true then
    match roundRat (decValue head) with
    | .fin q => if q.den = 1 ∧ 0 < q then some q.num.toNat else none
    | _ => none
  else none

/-- `alive pid` unless the probe says that there is no such process. -/
def isDeadOwnerToken (alive : Nat → Bool) (token : JsString) : Bool := (tokenPid token).any fun pid => !alive pid

/-! ## The decision -/

/-- The tables of an index that are read here: the graph, and two rows of `stats`. -/
structure IndexFile where
  graph : GraphDb
  ingestInProgress : Option JsString
  lastIngestNodes : Option JsString

inductive IndexIntegrityReason where
  | ok | ingestInterrupted | emptyButClaimsContent
deriving DecidableEq, Repr

structure IndexIntegrity where
  ok : Bool
  reason : IndexIntegrityReason
  detail : JsString
  nodes : Nat
  claimedNodes : Rat
  inProgressSince : Option Double

/-- It throws on a start that no date can hold. -/
def describeInterrupted (since : Double) : Option JsString :=
  if since.val ≤ 0 then
    some (ascii "an ingest left an in-progress marker this build cannot parse — the graph may be half-written")
  else
    (toISOString (.fin since)).map fun date =>
      ascii "an ingest started at " ++ date ++ ascii " and never finished — the graph is half-written"

section Decision
variable (rt : NumberText)

def readInFlight (db : IndexFile) : List InFlightIngest := parseInFlight rt db.ingestInProgress

/-- `last_ingest_nodes`, or -1. -/
def claimedNodes (db : IndexFile) : Rat :=
  match db.lastIngestNodes.map rt.ofString with
  | some (.fin n) => if 0 ≤ n then n else -1
  | _ => -1

def readIndexIntegrity (db : IndexFile) : Option IndexIntegrity :=
  let nodes := db.graph.nodes.keys.length
  let claimed := claimedNodes rt db
  let since := inProgressSince (readInFlight rt db)
  if nodes = 0 ∧ 0 < claimed then
    some ⟨false, .emptyButClaimsContent,
      ascii "the graph holds 0 nodes but the last successful ingest recorded " ++ rt.print claimed ++
        ascii " — the index was wiped by an interrupted rebuild", nodes, claimed, since⟩
  else match since with
    | some at' => (describeInterrupted at').map fun detail => ⟨false, .ingestInterrupted, detail, nodes, claimed, since⟩
    | none => some ⟨true, .ok, [], nodes, claimed, since⟩

/-- The index reads as usable. -/
def IndexFile.Healthy (db : IndexFile) : Prop :=
  ∃ integrity, readIndexIntegrity rt db = some integrity ∧ integrity.ok = true

end Decision

/-! ## Laws -/

section Laws
variable {rt : NumberText}

theorem inProgressSince_eq_none {entries : List InFlightIngest} : inProgressSince entries = none ↔ entries = [] := by
  cases entries <;> simp [inProgressSince]

/-- An index is usable if no ingest is in flight, and it is not empty where it claims nodes. -/
theorem healthy_iff {db : IndexFile} : db.Healthy rt ↔
    readInFlight rt db = [] ∧ ¬ (db.graph.nodes.keys.length = 0 ∧ 0 < claimedNodes rt db) := by
  unfold IndexFile.Healthy readIndexIntegrity
  dsimp only
  by_cases hempty : db.graph.nodes.keys.length = 0 ∧ 0 < claimedNodes rt db
  · simp [hempty]
  rw [if_neg hempty]
  cases hsince : inProgressSince (readInFlight rt db) with
  | none => exact ⟨fun _ => ⟨inProgressSince_eq_none.1 hsince, hempty⟩, fun _ => ⟨_, rfl, rfl⟩⟩
  | some since =>
    constructor
    · rintro ⟨integrity, hdetail, hok⟩
      obtain ⟨detail, -, rfl⟩ := Option.map_eq_some_iff.1 hdetail
      cases hok
    · rintro ⟨hnone, -⟩
      rw [inProgressSince_eq_none.2 hnone] at hsince
      cases hsince

theorem entryOf_toJson (e : InFlightIngest) : entryOf e.toJson = some e := by
  obtain ⟨t, q, h⟩ := e
  have ht : (InFlightIngest.toJson ⟨t, q, h⟩).field "t" = some (.str t) := rfl
  have hat : (InFlightIngest.toJson ⟨t, q, h⟩).field "at" = some (.num (.fin q)) := rfl
  rw [entryOf, ht, hat]
  exact dif_pos h

theorem finite_toJson (e : InFlightIngest) : e.toJson.Finite := ⟨trivial, ⟨_, rfl, e.startedAt.2⟩, trivial⟩

theorem parseInFlight_writeInFlight (hrt : rt.Lossless) (entries : List InFlightIngest) :
    parseInFlight rt (writeInFlight rt entries) = entries := by
  unfold writeInFlight
  split
  case isTrue hnil => rw [hnil]; rfl
  case isFalse hne =>
    have hfinite : (Json.arr (entries.map InFlightIngest.toJson)).Finite := by
      refine (Json.finiteItems_iff _).2 fun j hj => ?_
      obtain ⟨e, -, rfl⟩ := List.mem_map.1 hj
      exact finite_toJson e
    have hparse := parseJson_stringify hrt hfinite
    generalize htext : stringify rt (.arr (entries.map InFlightIngest.toJson)) = text at *
    have htrim : trim text = text := by
      apply Trimmed.trimBy_eq
      rw [← htext]
      constructor
      · intro u hu
        obtain rfl := Option.some.inj hu
        rfl
      · intro u hu
        rw [stringify, List.getLast?_append] at hu
        obtain rfl := Option.some.inj hu
        rfl
    have hmarks : ¬ (text = [] ∨ text = ascii "[]") := by
      rintro (rfl | rfl)
      · cases hparse
      · have hnil : parseJson (ascii "[]") = some (.arr []) := rfl
        rw [hnil] at hparse
        exact hne (List.map_eq_nil_iff.1 (Json.arr.inj (Option.some.inj hparse)).symm)
    have hentries : (entries.map InFlightIngest.toJson).filterMap entryOf = entries := by
      rw [List.filterMap_map]
      have : entryOf ∘ InFlightIngest.toJson = some := funext entryOf_toJson
      rw [this, List.filterMap_some]
    simp only [parseInFlight, htrim, if_neg hmarks, hparse, hentries, if_neg hne]

end Laws

end Hayven.Db
