import Hayven.Lib.JsonUtf8
import Hayven.Lib.JsonWriter
import Hayven.Lib.Ordering
import Hayven.Lib.SqlLike
/-!
# Fleet memory

`db/fleet_memory.ts`: notes about graph nodes, each with an optional scope of further
nodes and an optional time to live. SQLite is a parameter where its values go beyond
the model: what a bound string reads back as, and its arithmetic.
-/
open Hayven.Lib

namespace Hayven.Db.Fleet

/-- What the code relies on in SQLite and in `String(now)`: a text column holds a
well-formed string as it is, and always a well-formed one; `created + ttl * 1000` is a
number of the same ordered kind. -/
structure Engine (N : Type) where
  text : JsString → JsString
  text_wellFormed : ∀ s, wellFormed (text s) = true
  text_eq : ∀ s, wellFormed s = true → text s = s
  expiry : N → N → N
  printNumber : N → JsString

/-! ## Notes and rows -/

inductive MemoryKind where
  | decision | deadend | gotcha | note
deriving DecidableEq, Repr

def MemoryKind.text : MemoryKind → JsString
  | .decision => ascii "decision"
  | .deadend => ascii "deadend"
  | .gotcha => ascii "gotcha"
  | .note => ascii "note"

structure MemoryNote (N : Type) where
  id : JsString
  agent : Option JsString
  nodeId : Option JsString
  kind : MemoryKind
  note : JsString
  scope : List JsString
  created : N
  ttl : Option N
deriving DecidableEq

structure RecordMemoryInput (N : Type) where
  agent : Option JsString
  nodeId : Option JsString
  kind : MemoryKind
  note : JsString
  scope : Option (List JsString)
  ttl : Option N
  now : N
  id : Option JsString

structure FleetMemoryRow (N : Type) where
  id : JsString
  agent : Option JsString
  nodeId : Option JsString
  kind : MemoryKind
  note : JsString
  scopeJson : Option JsString
  created : N
  ttl : Option N

/-- The table: `id` is its primary key. -/
structure FleetMemory (N : Type) where
  rows : List (FleetMemoryRow N)
  ids_nodup : (rows.map (·.id)).Nodup

/-! ## Ids -/

def hex8 (h : UInt32) : JsString := (List.range 8).map fun i => hexDigit (h.toNat / 16 ^ (7 - i) % 16)

/-- Two lanes of FNV-1a over the code units. -/
def fnv1aHex (input : JsString) : JsString :=
  let h1 := input.foldl (fun h c => (h ^^^ c.toUInt32) * 0x01000193) (0x811c9dc5 : UInt32)
  let h2 := input.foldl (fun h c => (h ^^^ c.toUInt32) * 0x85ebca6b) (0x01000193 : UInt32)
  hex8 h1 ++ hex8 h2

section Store
variable {N : Type} (e : Engine N)

def deriveId (input : RecordMemoryInput N) : JsString :=
  let parts := [input.agent.getD [], input.nodeId.getD [], input.kind.text, input.note, e.printNumber input.now]
  ascii "mem_" ++ fnv1aHex ([0].intercalate parts)

/-! ## Scopes -/

/-- `JSON.stringify` of an array of strings. -/
def scopeText (scope : List JsString) : JsString := 0x5B :: Json.commaJoin (scope.map quote) ++ [0x5D]

def serializeScope (scope : List JsString) : Option JsString := if scope = [] then none else some (scopeText scope)

def parseScope (scopeJson : Option JsString) : List JsString :=
  match scopeJson with
  | none | some [] => []
  | some json =>
    match parseJson json with
    | some (.arr items) => items.filterMap fun j => match j with
      | .str s => some s
      | _ => none
    | _ => []

def rowToNote (row : FleetMemoryRow N) : MemoryNote N :=
  ⟨row.id, row.agent, row.nodeId, row.kind, row.note, parseScope row.scopeJson, row.created, row.ttl⟩

/-! ## Writes -/

/-- `INSERT OR REPLACE`: a row under the same id goes first. -/
def FleetMemory.insertOrReplace (t : FleetMemory N) (row : FleetMemoryRow N) : FleetMemory N where
  rows := t.rows.filter (·.id ≠ row.id) ++ [row]
  ids_nodup := by
    rw [List.map_append, List.map_singleton, List.nodup_append]
    refine ⟨(List.filter_sublist.map _).nodup t.ids_nodup, List.nodup_singleton _, ?_⟩
    intro id hid id' hid' heq
    obtain ⟨r, hr, rfl⟩ := List.mem_map.1 hid
    rw [List.mem_singleton.1 hid'] at heq
    exact of_decide_eq_true (List.mem_filter.1 hr).2 heq

def FleetMemory.delete (t : FleetMemory N) (p : FleetMemoryRow N → Bool) : FleetMemory N where
  rows := t.rows.filter fun r => !p r
  ids_nodup := (List.filter_sublist.map _).nodup t.ids_nodup

def FleetMemory.empty : FleetMemory N := ⟨[], List.nodup_nil⟩

/-- The row bound by `recordMemory`. -/
def rowOf (input : RecordMemoryInput N) : FleetMemoryRow N where
  id := e.text (input.id.getD (deriveId e input))
  agent := input.agent.map e.text
  nodeId := input.nodeId.map e.text
  kind := input.kind
  note := e.text input.note
  scopeJson := (serializeScope (input.scope.getD [])).map e.text
  created := input.now
  ttl := input.ttl

def recordMemory (t : FleetMemory N) (input : RecordMemoryInput N) : FleetMemory N × MemoryNote N :=
  (t.insertOrReplace (rowOf e input),
    ⟨input.id.getD (deriveId e input), input.agent, input.nodeId, input.kind, input.note, input.scope.getD [], input.now,
      input.ttl⟩)

def forgetMemory (t : FleetMemory N) (id : JsString) : FleetMemory N × Bool :=
  (t.delete (·.id = e.text id), t.rows.any (·.id = e.text id))

variable [LinearOrder N]

/-- `ttl IS NULL OR created + ttl * 1000 >= now`. -/
def live (now : N) (row : FleetMemoryRow N) : Bool := row.ttl.all fun ttl => decide (now ≤ e.expiry row.created ttl)

/-- `ttl IS NOT NULL AND created + ttl * 1000 < now`. -/
def expired (now : N) (row : FleetMemoryRow N) : Bool := row.ttl.any fun ttl => decide (e.expiry row.created ttl < now)

def pruneExpired (t : FleetMemory N) (now : N) : FleetMemory N × Nat :=
  (t.delete (expired e now), t.rows.countP (expired e now))

/-! ## Reading by node -/

/-- `created DESC, id ASC`; text is compared byte by byte. -/
def newest (a b : FleetMemoryRow N) : Ordering :=
  (compare b.created a.created).then (byteCompare (textEncode a.id) (textEncode b.id))

def backslash : UInt16 := 0x5C

/-- The pattern for the id in quotes. -/
def likePattern (nodeId : JsString) : JsString := ascii "%\"" ++ escapeLike backslash nodeId ++ ascii "\"%"

/-- The rows the query lets through: `node_id = ? OR scope_json LIKE ?`. -/
def prefiltered (nodeId : JsString) (row : FleetMemoryRow N) : Bool :=
  row.nodeId == some (e.text nodeId) || row.scopeJson.any (sqlLike backslash (e.text (likePattern nodeId)))

def isAbout (nodeId : JsString) (n : MemoryNote N) : Bool := n.nodeId == some nodeId || n.scope.contains nodeId

def memoryForNode (t : FleetMemory N) (nodeId : JsString) (now : N) : List (MemoryNote N) :=
  let rows := sortWith newest (t.rows.filter fun r => prefiltered e nodeId r && live e now r)
  (rows.map rowToNote).filter (isAbout nodeId)

end Store

/-! ## Runs -/

inductive MemoryOp (N : Type) where
  | record (input : RecordMemoryInput N)
  | forget (id : JsString)
  | prune (now : N)

section Runs
variable {N : Type} [LinearOrder N] (e : Engine N)

def step (t : FleetMemory N) : MemoryOp N → FleetMemory N
  | .record input => (recordMemory e t input).1
  | .forget id => (forgetMemory e t id).1
  | .prune now => (pruneExpired e t now).1

def run (t : FleetMemory N) (ops : List (MemoryOp N)) : FleetMemory N := ops.foldl (step e) t

end Runs

end Hayven.Db.Fleet
