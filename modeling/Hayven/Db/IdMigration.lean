import Hayven.Graph.IdScheme
import Hayven.Lib.DecimalText
import Hayven.Lib.JsonReread
import Hayven.Lib.Tally
/-!
# The v8 id migration

`migrateIdSchemeV8` of `db/migrations.ts`: the anchors of the fleet memory follow the
ids of their nodes to the new scheme, and the graph is dropped. The guard against
merging two anchors sees the nodes with a file only: `migrateIdSchemeV8_keeps_iff`.
-/
open Hayven.Lib Hayven.Graph

namespace Hayven.Db

/-! ## The remap table -/

structure RemapTable where
  remap : KeyedMap JsString JsString
  newIdOwners : KeyedMap JsString Nat

/-- A node without a file is skipped: nothing says which path produced its id. -/
def remapRow (t : RemapTable) (row : JsString × Option JsString) : RemapTable :=
  match row.2 with
  | none => t
  | some file =>
    if file.length = 0 then t
    else
      match remapLegacyId row.1 file with
      | none => { t with newIdOwners := tally t.newIdOwners row.1 1 }
      | some next =>
        { newIdOwners := tally t.newIdOwners next 1
          remap := if next = row.1 then t.remap else t.remap.set row.1 next }

/-- From `SELECT id, file FROM nodes`. -/
def remapTable (nodes : KeyedMap JsString (Option JsString)) : RemapTable :=
  nodes.entries.foldl remapRow ⟨.empty, .empty⟩

/-- The ambiguity guard: a new id with several owners moves nobody. -/
def guardedRemap (t : RemapTable) : KeyedMap JsString JsString :=
  t.remap.filter fun _ newId => !decide ((t.newIdOwners.get newId).getD 0 > 1)

/-! ## The fleet memory -/

/-- The two columns of a note that hold ids. -/
structure MemoryAnchors where
  nodeId : Option JsString
  scopeJson : Option JsString
deriving DecidableEq

def respell (remap : KeyedMap JsString JsString) (id : JsString) : JsString := (remap.get id).getD id

/-- A string element of a scope that the table maps. -/
def isMapped (remap : KeyedMap JsString JsString) : Json → Bool
  | .str s => remap.has s
  | _ => false

def respellElement (remap : KeyedMap JsString JsString) : Json → Json
  | .str s => .str (respell remap s)
  | j => j

/-- The elements of a scope that is a JSON array. -/
def scopeElements (text : JsString) : Option (List Json) :=
  match parseJson text with
  | some (.arr items) => some items
  | _ => none

/-- A scope that no entry of the table touches, or that is no array, stays as it is written. -/
def rewriteScope (rt : NumberText) (remap : KeyedMap JsString JsString) (text : JsString) : JsString :=
  match scopeElements text with
  | none => text
  | some items =>
    if items.any (isMapped remap) then stringify rt (.arr (items.map (respellElement remap))) else text

def rewriteRow (rt : NumberText) (remap : KeyedMap JsString JsString) (row : MemoryAnchors) : MemoryAnchors :=
  ⟨row.nodeId.map (respell remap), row.scopeJson.map (rewriteScope rt remap)⟩

structure AnchorRewrite where
  memory : KeyedMap JsString MemoryAnchors
  nodeIds : Nat
  scopes : Nat

def rewriteFleetMemoryAnchors (rt : NumberText) (memory : KeyedMap JsString MemoryAnchors)
    (remap : KeyedMap JsString JsString) : AnchorRewrite where
  memory := memory.mapValues (rewriteRow rt remap)
  nodeIds := memory.values.countP fun row => row.nodeId.any remap.has
  scopes := memory.values.countP fun row => ((row.scopeJson.bind scopeElements).getD []).any (isMapped remap)

/-! ## The migration -/

/-- The parts of an index that the migration reads and writes; `graph` stands for the
other tables that are keyed by ids. -/
structure IndexTables (G : Type) where
  userVersion : Int
  nodes : Option (KeyedMap JsString (Option JsString))
  graph : Option G
  fleetMemory : Option (KeyedMap JsString MemoryAnchors)
  stats : Option (KeyedMap JsString JsString)

structure IdSchemeMigration where
  remapped : Nat
  memoryNodeIds : Nat
  memoryScopes : Nat
  ambiguous : Nat
  droppedNodes : Nat

def reindexPreservedStatKeys : List JsString := [ascii "ingest_in_progress", ascii "last_ingest_nodes"]

section Migration
variable {G : Type}

/-- The statements from the number `k` on, and the commit. Every one of them can fail. -/
def runStatements (fails : Nat → Bool) (k : Nat) :
    List (IndexTables G → IndexTables G) → IndexTables G → Option (IndexTables G)
  | [], db => if fails k then none else some db
  | statement :: rest, db => if fails k then none else runStatements fails (k + 1) rest (statement db)

/-- `BEGIN` to `COMMIT`. A failure rolls back, and is thrown on. -/
def inTransaction (fails : Nat → Bool) (statements : List (IndexTables G → IndexTables G)) (db : IndexTables G) :
    IndexTables G × Bool :=
  match runStatements fails 0 statements db with
  | some committed => (committed, false)
  | none => (db, true)

def clearStats (stats : KeyedMap JsString JsString) : KeyedMap JsString JsString :=
  stats.filter fun key _ => key ∈ reindexPreservedStatKeys

def stampMigration (now : Int) (rewritten : Nat) (stats : KeyedMap JsString JsString) : KeyedMap JsString JsString :=
  let stamped := stats.set (ascii "id_scheme_v8_migrated_at") (intText now)
  stamped.set (ascii "id_scheme_v8_anchors_rewritten") (intText rewritten)

/-- What the migration leaves, whether it threw, and what it reports. -/
structure Migrated (G : Type) where
  db : IndexTables G
  threw : Bool
  report : Option IdSchemeMigration

def migrateIdSchemeV8 (rt : NumberText) (now : Int) (fails : Nat → Bool) (fromVersion : Int) (db : IndexTables G) :
    Migrated G :=
  match db.nodes with
  | none => ⟨db, false, none⟩
  | some nodes =>
    if fromVersion ≤ 0 ∨ fromVersion ≥ 8 then ⟨db, false, none⟩
    else
      let table := remapTable nodes
      let remap := guardedRemap table
      let rewrite := db.fleetMemory.map fun memory => rewriteFleetMemoryAnchors rt memory remap
      let nodeIds := (rewrite.map (·.nodeIds)).getD 0
      let scopes := (rewrite.map (·.scopes)).getD 0
      let outcome := inTransaction fails
        [fun db => { db with fleetMemory := rewrite.map (·.memory) },
          fun db => { db with nodes := none, graph := none },
          fun db => { db with stats := db.stats.map clearStats },
          fun db => { db with stats := db.stats.map (stampMigration now (nodeIds + scopes)) },
          fun db => { db with userVersion := 8 }] db
      ⟨outcome.1, outcome.2, if outcome.2 then none else
        some ⟨remap.entries.length, nodeIds, scopes, table.remap.entries.length - remap.entries.length,
          nodes.entries.length⟩⟩

end Migration

/-! ## Which ids move -/

section Remap
variable {nodes : KeyedMap JsString (Option JsString)}

/-- The id that a node with a file has after the migration, if its own has a new spelling. -/
def newId (row : JsString × Option JsString) : Option JsString :=
  row.2.bind fun file => if file.length = 0 then none else remapLegacyId row.1 file

/-- The id that a node with a file occupies after the migration. -/
def occupiedId (row : JsString × Option JsString) : Option JsString :=
  row.2.bind fun file => if file.length = 0 then none else some ((remapLegacyId row.1 file).getD row.1)

theorem occupiedId_of_newId {row : JsString × Option JsString} {n : JsString} (h : newId row = some n) :
    occupiedId row = some n := by
  obtain ⟨id, file⟩ := row
  cases file with
  | none => cases h
  | some file =>
    simp only [newId, occupiedId, Option.bind_some] at h ⊢
    split at h
    · cases h
    · next hfile => rw [if_neg hfile, h, Option.getD_some]

theorem remapRow_newIdOwners (t : RemapTable) (row : JsString × Option JsString) :
    (remapRow t row).newIdOwners = (occupiedId row).elim t.newIdOwners fun n => tally t.newIdOwners n 1 := by
  obtain ⟨id, file⟩ := row
  cases file with
  | none => rfl
  | some file =>
    simp only [remapRow, occupiedId, Option.bind_some]
    by_cases hfile : file.length = 0
    · rw [if_pos hfile, if_pos hfile]
      rfl
    · rw [if_neg hfile, if_neg hfile]
      cases remapLegacyId id file <;> rfl

/-- The new id of a row that moves. -/
def movedId (row : JsString × Option JsString) : Option JsString := (newId row).filter (· ≠ row.1)

theorem movedId_eq_some {row : JsString × Option JsString} {n : JsString} :
    movedId row = some n ↔ newId row = some n ∧ n ≠ row.1 := by
  simp [movedId, Option.filter_eq_some_iff]

theorem remapRow_remap (t : RemapTable) (row : JsString × Option JsString) :
    (remapRow t row).remap = (movedId row).elim t.remap fun n => t.remap.set row.1 n := by
  obtain ⟨id, file⟩ := row
  cases file with
  | none => rfl
  | some file =>
    simp only [remapRow, movedId, newId, Option.bind_some]
    by_cases hfile : file.length = 0
    · rw [if_pos hfile, if_pos hfile]
      rfl
    · rw [if_neg hfile, if_neg hfile]
      cases remapLegacyId id file with
      | none => rfl
      | some next =>
        simp only [Option.filter_some, ne_eq, decide_not, Bool.not_eq_true', decide_eq_false_iff_not]
        by_cases hnext : next = id
        · rw [if_pos hnext, if_neg (not_not.2 hnext), Option.elim_none]
        · rw [if_neg hnext, if_pos hnext, Option.elim_some]

theorem getD_newIdOwners (rows : List (JsString × Option JsString)) (t : RemapTable) (n : JsString) :
    ((rows.foldl remapRow t).newIdOwners.get n).getD 0 =
      (t.newIdOwners.get n).getD 0 + rows.countP (occupiedId · = some n) := by
  induction rows generalizing t with
  | nil => rfl
  | cons row rows ih =>
    rw [List.foldl_cons, ih, List.countP_cons, remapRow_newIdOwners]
    cases hrow : occupiedId row with
    | none => simp
    | some m =>
      rw [Option.elim_some, tally, KeyedMap.get_set]
      by_cases hm : m = n
      · subst hm
        simp only [if_true, Option.getD_some, decide_true]
        omega
      · simp [hm]

theorem get_remap (rows : List (JsString × Option JsString)) (t : RemapTable) (hnodup : (rows.map Prod.fst).Nodup)
    (a n : JsString) :
    (rows.foldl remapRow t).remap.get a = some n ↔
      (∃ file, (a, file) ∈ rows ∧ movedId (a, file) = some n) ∨
        ((∀ file, (a, file) ∈ rows → movedId (a, file) = none) ∧ t.remap.get a = some n) := by
  induction rows generalizing t with
  | nil => simp
  | cons row rows ih =>
    obtain ⟨id, file⟩ := row
    rw [List.map_cons, List.nodup_cons] at hnodup
    rw [List.foldl_cons, ih _ hnodup.2, remapRow_remap]
    by_cases hid : id = a
    · subst hid
      have hnotin : ∀ file', (id, file') ∉ rows := fun file' hmem => hnodup.1 (List.mem_map.2 ⟨_, hmem, rfl⟩)
      cases hmoved : movedId (id, file) <;> simp [hnotin, hmoved]
    · have hother : ((movedId (id, file)).elim t.remap fun n => t.remap.set id n).get a = t.remap.get a := by
        cases movedId (id, file) with
        | none => rfl
        | some m => rw [Option.elim_some, KeyedMap.get_set_ne _ _ hid]
      simp only [hother, List.mem_cons, Prod.mk.injEq, Ne.symm hid, false_and, false_or]

/-- Exactly one element has the property. -/
theorem countP_le_one_iff {α : Type} [DecidableEq α] {p : α → Bool} {l : List α} (hl : l.Nodup) {a : α} (ha : a ∈ l)
    (hp : p a = true) : l.countP p ≤ 1 ↔ ∀ b ∈ l, p b = true → b = a := by
  have hperm := List.perm_cons_erase ha
  rw [hperm.countP_eq, List.countP_cons, hp]
  simp only [if_true]
  rw [show (l.erase a).countP p + 1 ≤ 1 ↔ (l.erase a).countP p = 0 by omega, List.countP_eq_zero]
  simp only [hl.mem_erase_iff]
  constructor
  · intro h b hb hpb
    by_contra hne
    exact h b ⟨hne, hb⟩ hpb
  · rintro h b ⟨hne, hb⟩ hpb
    exact hne (h b hb hpb)

/-- What the guarded table holds: a node with a file whose new spelling no other node with
a file occupies. -/
theorem get_guardedRemap (a n : JsString) :
    (guardedRemap (remapTable nodes)).get a = some n ↔
      n ≠ a ∧ (∃ file, nodes.get a = some file ∧ newId (a, file) = some n) ∧
        ∀ b file, nodes.get b = some file → occupiedId (b, file) = some n → b = a := by
  have hnodup : nodes.entries.Nodup := nodes.nodup.of_map _
  rw [guardedRemap, KeyedMap.get_filter, Option.filter_eq_some_iff, remapTable, get_remap _ _ nodes.nodup,
    getD_newIdOwners]
  simp only [KeyedMap.get_empty, Option.getD_none, Nat.zero_add, reduceCtorEq, and_false, or_false,
    Bool.not_eq_true', decide_eq_false_iff_not, gt_iff_lt, not_lt, KeyedMap.get_eq_some, movedId_eq_some]
  constructor
  · rintro ⟨⟨file, hmem, hnew, hne⟩, hcount⟩
    have hocc := occupiedId_of_newId hnew
    rw [countP_le_one_iff hnodup hmem (by simpa using hocc)] at hcount
    refine ⟨hne, ⟨file, hmem, hnew⟩, fun b file' hb hb' => ?_⟩
    exact congrArg Prod.fst (hcount (b, file') hb (by simpa using hb'))
  · rintro ⟨hne, ⟨file, hmem, hnew⟩, honly⟩
    have hocc := occupiedId_of_newId hnew
    refine ⟨⟨file, hmem, hnew, hne⟩, ?_⟩
    rw [countP_le_one_iff hnodup hmem (by simpa using hocc)]
    rintro ⟨b, file'⟩ hb hb'
    obtain rfl := honly b file' hb (by simpa using hb')
    have hfile : some file' = some file :=
      (KeyedMap.get_eq_some.2 hb).symm.trans (KeyedMap.get_eq_some.2 hmem)
    rw [Option.some.inj hfile]

end Remap

/-! ## Anchors -/

def asString : Json → Option JsString
  | .str s => some s
  | _ => none

/-- The anchor of a note: its node id, or an element of its scope. -/
def anchorAt (memory : KeyedMap JsString MemoryAnchors) (row : JsString) (place : Option Nat) : Option JsString :=
  (memory.get row).bind fun columns =>
    place.elim columns.nodeId fun i => ((columns.scopeJson.bind scopeElements).getD [])[i]?.bind asString

section Anchors
variable {rt : NumberText} {remap : KeyedMap JsString JsString} {memory : KeyedMap JsString MemoryAnchors}

theorem respell_of_get {a n : JsString} (h : remap.get a = some n) : respell remap a = n := by
  rw [respell, h, Option.getD_some]

theorem respell_of_unmapped {a : JsString} (h : ∀ n, remap.get a ≠ some n) : respell remap a = a := by
  rw [respell, Option.eq_none_iff_forall_ne_some.2 h, Option.getD_none]

theorem asString_printed (j : Json) : asString j.printed = asString j := by
  cases j with
  | num n => cases n <;> rfl
  | _ => rfl

theorem asString_respellElement (j : Json) : asString (respellElement remap j) = (asString j).map (respell remap) := by
  cases j <;> rfl

theorem finite_respellElement {j : Json} (h : j.printed.Finite) : (respellElement remap j).printed.Finite := by
  cases j with
  | str s => trivial
  | _ => exact h

theorem parse_of_scopeElements {text : JsString} {items : List Json} (h : scopeElements text = some items) :
    parseJson text = some (.arr items) := by
  unfold scopeElements at h
  split at h
  · next hparse =>
    cases h
    exact hparse
  · cases h

/-- A rewritten scope reads as its elements respelled. -/
theorem scopeElements_stringify (hrt : rt.Lossless) {text : JsString} {items : List Json}
    (h : scopeElements text = some items) :
    scopeElements (stringify rt (.arr (items.map (respellElement remap)))) =
      some ((items.map (respellElement remap)).map Json.printed) := by
  have hread := finite_of_parseJson (parse_of_scopeElements h)
  have hfinite : (Json.arr (items.map (respellElement remap))).printed.Finite := by
    show Json.FiniteItems (Json.printedItems _)
    change Json.FiniteItems (Json.printedItems _) at hread
    rw [Json.printedItems_eq_map, Json.finiteItems_iff] at hread ⊢
    intro j hj
    obtain ⟨j', hj', rfl⟩ := List.mem_map.1 hj
    obtain ⟨j₀, hj₀, rfl⟩ := List.mem_map.1 hj'
    exact finite_respellElement (hread _ (List.mem_map.2 ⟨j₀, hj₀, rfl⟩))
  rw [scopeElements, parseJson_rewritten hrt hfinite, Json.printed, Json.printedItems_eq_map]

theorem not_mapped {items : List Json} (h : items.any (isMapped remap) = false) {i : Nat} {s : JsString}
    (hi : items[i]?.bind asString = some s) : ∀ n, remap.get s ≠ some n := by
  intro n hn
  obtain ⟨j, hj, hs⟩ := Option.bind_eq_some_iff.1 hi
  have hnot := List.any_eq_false.1 h j (List.mem_of_getElem? hj)
  cases j with
  | str s' =>
    cases hs
    apply hnot
    rw [isMapped, KeyedMap.has, hn]
    rfl
  | _ => cases hs

theorem element_rewriteScope (hrt : rt.Lossless) (text : JsString) (i : Nat) :
    ((scopeElements (rewriteScope rt remap text)).getD [])[i]?.bind asString =
      (((scopeElements text).getD [])[i]?.bind asString).map (respell remap) := by
  unfold rewriteScope
  cases helements : scopeElements text with
  | none => simp [helements]
  | some items =>
    dsimp only
    by_cases hany : items.any (isMapped remap) = true
    · rw [if_pos hany, scopeElements_stringify hrt helements, Option.getD_some, Option.getD_some, List.getElem?_map,
        List.getElem?_map]
      cases items[i]? with
      | none => rfl
      | some j => exact (asString_printed _).trans (asString_respellElement j)
    · rw [if_neg hany, helements, Option.getD_some]
      rw [Bool.not_eq_true] at hany
      cases hi : items[i]?.bind asString with
      | none => rfl
      | some s => rw [Option.map_some, respell_of_unmapped (not_mapped hany hi)]

/-- Every anchor is respelled where it stands. -/
theorem anchorAt_rewrite (hrt : rt.Lossless) (row : JsString) (place : Option Nat) :
    anchorAt (rewriteFleetMemoryAnchors rt memory remap).memory row place =
      (anchorAt memory row place).map (respell remap) := by
  rw [anchorAt, rewriteFleetMemoryAnchors, KeyedMap.get_mapValues, anchorAt]
  cases memory.get row with
  | none => rfl
  | some columns =>
    cases place with
    | none => rfl
    | some i =>
      show (((columns.scopeJson.map (rewriteScope rt remap)).bind scopeElements).getD [])[i]?.bind asString =
        (((columns.scopeJson.bind scopeElements).getD [])[i]?.bind asString).map (respell remap)
      cases columns.scopeJson with
      | none => rfl
      | some text => exact element_rewriteScope hrt text i

/-- A scope none of whose elements moves stays byte for byte. -/
theorem rewriteScope_of_unmapped {text : JsString}
    (h : ∀ (i : Nat) s, ((scopeElements text).getD [])[i]?.bind asString = some s → ∀ n, remap.get s ≠ some n) :
    rewriteScope rt remap text = text := by
  unfold rewriteScope
  cases helements : scopeElements text with
  | none => rfl
  | some items =>
    dsimp only
    rw [helements, Option.getD_some] at h
    rw [if_neg]
    intro hany
    obtain ⟨j, hj, hmapped⟩ := List.any_eq_true.1 hany
    obtain ⟨i, hi⟩ := List.getElem?_of_mem hj
    cases j with
    | str s =>
      obtain ⟨n, hn⟩ := Option.isSome_iff_exists.1 hmapped
      exact h i s (by rw [hi]; rfl) n hn
    | _ => cases hmapped

end Anchors

/-! ## What the migration keeps -/

section Kept
variable {G : Type} {rt : NumberText} {nodes : KeyedMap JsString (Option JsString)}
  {memory : KeyedMap JsString MemoryAnchors}

/-- Every node has an id after the migration, a node without a file its own. -/
def Occupies (nodes : KeyedMap JsString (Option JsString)) (b n : JsString) : Prop :=
  ∃ file, nodes.get b = some file ∧ (occupiedId (b, file)).getD b = n

/-- The id of a node with a file has a new spelling, the scope of its file and what it said
below the old scope, and no other node occupies that. -/
def Follows (nodes : KeyedMap JsString (Option JsString)) (a n : JsString) : Prop :=
  (∃ file, nodes.get a = some (some file) ∧ file.length ≠ 0 ∧
    ∃ unchanged, legacyLocalPath a file = some unchanged ∧ n = inScope (scopeForFile file) unchanged) ∧
  ∀ b, Occupies nodes b n → b = a

/-- Anchors stay apart; those that follow their node are rewritten; all others, and every
scope that holds no such anchor, are as they were. -/
structure AnchorsKept (nodes : KeyedMap JsString (Option JsString)) (memory memory' : KeyedMap JsString MemoryAnchors) :
    Prop where
  distinct : ∀ row place row' place' a a', anchorAt memory row place = some a → anchorAt memory row' place' = some a' →
    a ≠ a' → anchorAt memory' row place ≠ anchorAt memory' row' place'
  rewritten : ∀ row place a n, anchorAt memory row place = some a → Follows nodes a n →
    anchorAt memory' row place = some n
  kept : ∀ row place, (∀ a n, anchorAt memory row place = some a → ¬ Follows nodes a n) →
    anchorAt memory' row place = anchorAt memory row place
  scopes : ∀ row columns, memory.get row = some columns →
    (∀ i a n, anchorAt memory row (some i) = some a → Follows nodes a n → n = a) →
      ∃ columns', memory'.get row = some columns' ∧ columns'.scopeJson = columns.scopeJson
  rows : ∀ row, memory'.get row = none ↔ memory.get row = none

/-- An id has a new spelling that no other node with a file occupies. -/
def Moves (nodes : KeyedMap JsString (Option JsString)) (a n : JsString) : Prop :=
  n ≠ a ∧ (∃ file, nodes.get a = some file ∧ newId (a, file) = some n) ∧
    ∀ b file, nodes.get b = some file → occupiedId (b, file) = some n → b = a

/-- The new spelling of an anchor that moves is not the id of a node without a file, nor an
anchor that stays. -/
def NewSpellingsFree (nodes : KeyedMap JsString (Option JsString)) (memory : KeyedMap JsString MemoryAnchors) : Prop :=
  ∀ row place a n, anchorAt memory row place = some a → Moves nodes a n →
    (∀ file, nodes.get n = some file → occupiedId (n, file) ≠ none) ∧
      ∀ row' place', anchorAt memory row' place' = some n → ∃ m, Moves nodes n m

theorem newId_eq_some {a n : JsString} {file : Option JsString} :
    newId (a, file) = some n ↔ ∃ f, file = some f ∧ f.length ≠ 0 ∧
      ∃ unchanged, legacyLocalPath a f = some unchanged ∧ n = inScope (scopeForFile f) unchanged := by
  cases file with
  | none => simp [newId]
  | some f =>
    simp only [newId, Option.bind_some, remapLegacyId, Option.some.injEq, exists_eq_left']
    by_cases hf : f.length = 0
    · simp [hf]
    · simp only [hf, if_false, Option.map_eq_some_iff, ne_eq, not_false_eq_true, true_and, @eq_comm _ n]

theorem Follows.newId {a n : JsString} (h : Follows nodes a n) :
    ∃ file, nodes.get a = some file ∧ Db.newId (a, file) = some n := by
  obtain ⟨⟨file, hget, hrest⟩, -⟩ := h
  exact ⟨some file, hget, newId_eq_some.2 ⟨file, rfl, hrest⟩⟩

theorem newId_unique {a n m : JsString} (h : ∃ file, nodes.get a = some file ∧ newId (a, file) = some n)
    (h' : ∃ file, nodes.get a = some file ∧ newId (a, file) = some m) : n = m := by
  obtain ⟨file, hget, hn⟩ := h
  obtain ⟨file', hget', hm⟩ := h'
  rw [hget] at hget'
  cases hget'
  exact Option.some.inj (hn.symm.trans hm)

/-- An id that moves follows its node, where the new spelling is not that of a node without a file. -/
theorem Moves.follows {a n : JsString} (h : Moves nodes a n)
    (hfree : ∀ file, nodes.get n = some file → occupiedId (n, file) ≠ none) : Follows nodes a n := by
  obtain ⟨-, ⟨file, hget, hnew⟩, honly⟩ := h
  obtain ⟨f, rfl, hrest⟩ := newId_eq_some.1 hnew
  refine ⟨⟨f, hget, hrest⟩, ?_⟩
  rintro b ⟨file', hb, hocc⟩
  cases hoccupied : occupiedId (b, file') with
  | none =>
    rw [hoccupied, Option.getD_none] at hocc
    subst hocc
    exact absurd hoccupied (hfree file' hb)
  | some m =>
    rw [hoccupied, Option.getD_some] at hocc
    subst hocc
    exact honly b file' hb hoccupied

theorem Follows.moves {a n : JsString} (h : Follows nodes a n) (hne : n ≠ a) : Moves nodes a n := by
  refine ⟨hne, h.newId, fun b file hb hocc => h.2 b ⟨file, hb, ?_⟩⟩
  rw [hocc, Option.getD_some]

theorem respell_of_moves {a n : JsString} (h : Moves nodes a n) : respell (guardedRemap (remapTable nodes)) a = n :=
  respell_of_get ((get_guardedRemap a n).2 h)

theorem respell_of_stays {a : JsString} (h : ∀ n, ¬ Moves nodes a n) :
    respell (guardedRemap (remapTable nodes)) a = a :=
  respell_of_unmapped fun n hn => h n ((get_guardedRemap a n).1 hn)

/-- Two anchors are respelled apart. -/
theorem respell_injective (h : NewSpellingsFree nodes memory) {row row' a a' : JsString} {place place' : Option Nat}
    (ha : anchorAt memory row place = some a) (ha' : anchorAt memory row' place' = some a') (hne : a ≠ a') :
    respell (guardedRemap (remapTable nodes)) a ≠ respell (guardedRemap (remapTable nodes)) a' := by
  by_cases hmoves : ∃ n, Moves nodes a n
  · obtain ⟨n, hn⟩ := hmoves
    by_cases hmoves' : ∃ m, Moves nodes a' m
    · obtain ⟨m, hm⟩ := hmoves'
      rw [respell_of_moves hn, respell_of_moves hm]
      rintro rfl
      obtain ⟨file, hget, hnew⟩ := hm.2.1
      exact hne (hn.2.2 a' file hget (occupiedId_of_newId hnew)).symm
    · rw [respell_of_moves hn, respell_of_stays (not_exists.1 hmoves')]
      rintro rfl
      exact hmoves' ((h row place a n ha hn).2 row' place' ha')
  · rw [respell_of_stays (not_exists.1 hmoves)]
    by_cases hmoves' : ∃ m, Moves nodes a' m
    · obtain ⟨m, hm⟩ := hmoves'
      rw [respell_of_moves hm]
      rintro rfl
      exact hmoves ((h row' place' a' a ha' hm).2 row place ha)
    · rwa [respell_of_stays (not_exists.1 hmoves')]

theorem anchorsKept_of_free (hrt : rt.Lossless) (h : NewSpellingsFree nodes memory) :
    AnchorsKept nodes memory (rewriteFleetMemoryAnchors rt memory (guardedRemap (remapTable nodes))).memory := by
  refine ⟨?_, ?_, ?_, ?_, ?_⟩
  · intro row place row' place' a a' ha ha' hne heq
    rw [anchorAt_rewrite hrt, anchorAt_rewrite hrt, ha, ha', Option.map_some, Option.map_some] at heq
    exact respell_injective h ha ha' hne (Option.some.inj heq)
  · intro row place a n ha hfollows
    rw [anchorAt_rewrite hrt, ha, Option.map_some]
    by_cases hn : n = a
    · rw [respell_of_stays, hn]
      rintro m ⟨hm, hnew, -⟩
      exact hm ((newId_unique hnew hfollows.newId).trans hn)
    · rw [respell_of_moves (hfollows.moves hn)]
  · intro row place hkept
    rw [anchorAt_rewrite hrt]
    cases ha : anchorAt memory row place with
    | none => rfl
    | some a =>
      rw [Option.map_some, respell_of_stays]
      intro n hn
      exact hkept a n ha (hn.follows (h row place a n ha hn).1)
  · intro row columns hget hstay
    refine ⟨_, by rw [rewriteFleetMemoryAnchors, KeyedMap.get_mapValues, hget]; rfl, ?_⟩
    cases hscope : columns.scopeJson with
    | none => rw [rewriteRow, hscope]; rfl
    | some text =>
      rw [rewriteRow, hscope, Option.map_some, rewriteScope_of_unmapped]
      intro i s hs n hn
      have hanchor : anchorAt memory row (some i) = some s := by
        rw [anchorAt, hget, Option.bind_some, Option.elim_some, hscope]
        exact hs
      have hmoves := (get_guardedRemap s n).1 hn
      exact hmoves.1 (hstay i s n hanchor (Moves.follows hmoves (h row (some i) s n hanchor hmoves).1))
  · intro row
    rw [rewriteFleetMemoryAnchors, KeyedMap.get_mapValues, Option.map_eq_none_iff]

theorem free_of_anchorsKept (hrt : rt.Lossless)
    (h : AnchorsKept nodes memory (rewriteFleetMemoryAnchors rt memory (guardedRemap (remapTable nodes))).memory) :
    NewSpellingsFree nodes memory := by
  intro row place a n ha hmoves
  have hafter : anchorAt (rewriteFleetMemoryAnchors rt memory (guardedRemap (remapTable nodes))).memory row place =
      some n := by
    rw [anchorAt_rewrite hrt, ha, Option.map_some, respell_of_moves hmoves]
  constructor
  · intro file hget hnone
    have hstays := h.kept row place fun a' m ha' hfollows => by
      rw [ha] at ha'
      cases ha'
      obtain rfl := newId_unique hfollows.newId hmoves.2.1
      exact hmoves.1 (hfollows.2 m ⟨file, hget, by rw [hnone, Option.getD_none]⟩)
    rw [hafter, ha] at hstays
    exact hmoves.1 (Option.some.inj hstays)
  · intro row' place' hn
    by_contra hstays
    apply h.distinct row place row' place' a n ha hn hmoves.1.symm
    rw [hafter, anchorAt_rewrite hrt, hn, Option.map_some, respell_of_stays (not_exists.1 hstays)]

/-! ## The transaction -/

theorem runStatements_eq (fails : Nat → Bool) (k : Nat) (statements : List (IndexTables G → IndexTables G))
    (db : IndexTables G)
    (h : ∀ i, i ≤ statements.length → fails (k + i) = false) :
    runStatements fails k statements db = some (statements.foldl (fun db statement => statement db) db) := by
  induction statements generalizing k db with
  | nil =>
    have hcommit := h 0 (Nat.le_refl 0)
    rw [Nat.add_zero] at hcommit
    rw [runStatements, hcommit]
    rfl
  | cons statement rest ih =>
    have hfirst := h 0 (Nat.zero_le _)
    rw [Nat.add_zero] at hfirst
    rw [runStatements, hfirst, List.foldl_cons]
    refine ih (k + 1) (statement db) fun i hi => ?_
    have hlater := h (i + 1) (by rw [List.length_cons]; omega)
    rwa [show k + 1 + i = k + (i + 1) by omega]

theorem runStatements_eq_some (fails : Nat → Bool) (k : Nat) (statements : List (IndexTables G → IndexTables G))
    {db committed : IndexTables G} (h : runStatements fails k statements db = some committed) :
    committed = statements.foldl (fun db statement => statement db) db := by
  induction statements generalizing k db with
  | nil =>
    rw [runStatements] at h
    split at h
    · cases h
    · exact (Option.some.inj h).symm
  | cons statement rest ih =>
    rw [runStatements] at h
    split at h
    · cases h
    · exact ih (k + 1) h

/-- A transaction does all it says or nothing. -/
theorem inTransaction_cases (fails : Nat → Bool) (statements : List (IndexTables G → IndexTables G)) (db : IndexTables G) :
    inTransaction fails statements db = (db, true) ∨
      inTransaction fails statements db = (statements.foldl (fun db statement => statement db) db, false) := by
  unfold inTransaction
  cases hrun : runStatements fails 0 statements db with
  | none => exact .inl rfl
  | some committed =>
    refine .inr ?_
    rw [← runStatements_eq_some fails 0 statements hrun]

variable {fromVersion : Int} {db : IndexTables G}

variable (rt) in
/-- The migration of an old index throws and changes nothing, or rewrites the fleet memory. -/
theorem migrateIdSchemeV8_cases (now : Int) (fails : Nat → Bool) (hlow : 0 < fromVersion) (hhigh : fromVersion < 8)
    (hnodes : db.nodes = some nodes) :
    let out := migrateIdSchemeV8 rt now fails fromVersion db
    out.threw = true ∧ out.db = db ∨
      out.threw = false ∧ out.db.fleetMemory =
        db.fleetMemory.map fun memory => (rewriteFleetMemoryAnchors rt memory (guardedRemap (remapTable nodes))).memory := by
  intro out
  have hout : out = migrateIdSchemeV8 rt now fails fromVersion db := rfl
  rw [migrateIdSchemeV8, hnodes] at hout
  dsimp only at hout
  rw [if_neg (by omega)] at hout
  rcases inTransaction_cases fails _ db with hthrew | hran
  · refine .inl ?_
    rw [hout]
    exact ⟨congrArg Prod.snd hthrew, congrArg Prod.fst hthrew⟩
  · refine .inr ?_
    rw [hout]
    refine ⟨congrArg Prod.snd hran, ?_⟩
    have hdb := congrArg (fun p => p.1.fleetMemory) hran
    refine hdb.trans ?_
    simp only [List.foldl_cons, List.foldl_nil, Option.map_map]
    rfl

/-- Where no statement fails the migration does not throw. -/
theorem migrateIdSchemeV8_runs (now : Int) (hlow : 0 < fromVersion) (hhigh : fromVersion < 8)
    (hnodes : db.nodes = some nodes) : (migrateIdSchemeV8 rt now (fun _ => false) fromVersion db).threw = false := by
  rw [migrateIdSchemeV8, hnodes]
  dsimp only
  rw [if_neg (by omega), inTransaction, runStatements_eq _ _ _ _ fun _ _ => rfl]

/-- The migration of an old index merges and loses no anchor, and a failure leaves the
index as it was, exactly where no new spelling is taken by a node without a file or by
an anchor that stays. -/
theorem migrateIdSchemeV8_keeps_iff (hrt : rt.Lossless) (hlow : 0 < fromVersion) (hhigh : fromVersion < 8)
    (hnodes : db.nodes = some nodes) (hmemory : db.fleetMemory = some memory) :
    (∀ now fails,
      ((migrateIdSchemeV8 rt now fails fromVersion db).threw = true →
        (migrateIdSchemeV8 rt now fails fromVersion db).db = db) ∧
      ((migrateIdSchemeV8 rt now fails fromVersion db).threw = false →
        ∃ memory', (migrateIdSchemeV8 rt now fails fromVersion db).db.fleetMemory = some memory' ∧
          AnchorsKept nodes memory memory')) ↔
      NewSpellingsFree nodes memory := by
  constructor
  · intro h
    obtain ⟨memory', hafter, hkept⟩ := (h 0 fun _ => false).2 (migrateIdSchemeV8_runs 0 hlow hhigh hnodes)
    rcases migrateIdSchemeV8_cases rt 0 (fun _ => false) hlow hhigh hnodes with ⟨hthrew, -⟩ | ⟨-, hran⟩
    · rw [migrateIdSchemeV8_runs 0 hlow hhigh hnodes] at hthrew
      cases hthrew
    · rw [hafter, hmemory, Option.map_some] at hran
      rw [Option.some.inj hran] at hkept
      exact free_of_anchorsKept hrt hkept
  · intro hfree now fails
    rcases migrateIdSchemeV8_cases rt now fails hlow hhigh hnodes with ⟨hthrew, hdb⟩ | ⟨hthrew, hran⟩
    · refine ⟨fun _ => hdb, fun hno => ?_⟩
      rw [hthrew] at hno
      cases hno
    · refine ⟨fun hyes => ?_, fun _ => ?_⟩
      · rw [hthrew] at hyes
        cases hyes
      rw [hmemory, Option.map_some] at hran
      exact ⟨_, hran, anchorsKept_of_free hrt hfree⟩

end Kept


/-! ## A note on a node that is gone -/

section Login

def loginId : JsString := ascii "auth/login"

def movedLoginId : JsString := ascii "src/auth/login"

/-- One node, `auth/login` of `src/auth/login.ts`. -/
def loginNodes : KeyedMap JsString (Option JsString) := KeyedMap.empty.set loginId (some (ascii "src/auth/login.ts"))

def noteOn (id : JsString) : MemoryAnchors := ⟨some id, none⟩

def loginIndex (memory : KeyedMap JsString MemoryAnchors) : IndexTables Unit := ⟨7, some loginNodes, none, some memory, none⟩

def loginNote : KeyedMap JsString MemoryAnchors := KeyedMap.empty.set (ascii "n1") (noteOn loginId)

theorem loginNote_free : NewSpellingsFree loginNodes loginNote := by
  intro row place a n _ hmoves
  obtain ⟨-, ⟨file, hget, hnew⟩, -⟩ := hmoves
  rw [loginNodes, KeyedMap.get_set] at hget
  split at hget
  · next ha =>
    subst ha
    cases hget
    have hn : some movedLoginId = some n := (show newId _ = some movedLoginId by decide +kernel).symm.trans hnew
    cases hn
    constructor
    · intro file hfile
      rw [show loginNodes.get movedLoginId = none by decide +kernel] at hfile
      cases hfile
    · intro row' place' hanchor
      rw [anchorAt, loginNote, KeyedMap.get_set] at hanchor
      split at hanchor
      · cases place' with
        | none => exact absurd hanchor (by decide +kernel)
        | some i => cases hanchor
      · cases hanchor
  · cases hget

theorem migrateIdSchemeV8_keeps_login :
    NewSpellingsFree loginNodes loginNote ∧ ∀ now fails,
      ((migrateIdSchemeV8 ⟨decimalText, fun _ => .nan⟩ now fails 7 (loginIndex loginNote)).threw = true →
        (migrateIdSchemeV8 ⟨decimalText, fun _ => .nan⟩ now fails 7 (loginIndex loginNote)).db = loginIndex loginNote) ∧
      ((migrateIdSchemeV8 ⟨decimalText, fun _ => .nan⟩ now fails 7 (loginIndex loginNote)).threw = false →
        ∃ memory', (migrateIdSchemeV8 ⟨decimalText, fun _ => .nan⟩ now fails 7 (loginIndex loginNote)).db.fleetMemory =
          some memory' ∧ AnchorsKept loginNodes loginNote memory') :=
  ⟨loginNote_free,
    (migrateIdSchemeV8_keeps_iff (decimalText_lossless _) (by decide) (by decide) rfl rfl).2 loginNote_free⟩

/-- A second note, on an id of the same spelling whose node is gone. -/
def staleNotes : KeyedMap JsString MemoryAnchors := loginNote.set (ascii "n2") (noteOn movedLoginId)

theorem stale_anchor_merged :
    ¬ ∀ now fails,
      ((migrateIdSchemeV8 ⟨decimalText, fun _ => .nan⟩ now fails 7 (loginIndex staleNotes)).threw = true →
        (migrateIdSchemeV8 ⟨decimalText, fun _ => .nan⟩ now fails 7 (loginIndex staleNotes)).db = loginIndex staleNotes) ∧
      ((migrateIdSchemeV8 ⟨decimalText, fun _ => .nan⟩ now fails 7 (loginIndex staleNotes)).threw = false →
        ∃ memory', (migrateIdSchemeV8 ⟨decimalText, fun _ => .nan⟩ now fails 7 (loginIndex staleNotes)).db.fleetMemory =
          some memory' ∧ AnchorsKept loginNodes staleNotes memory') := by
  intro h
  obtain ⟨memory', hafter, hkept⟩ := (h 0 fun _ => false).2 (by decide +kernel)
  have hsame : (migrateIdSchemeV8 ⟨decimalText, fun _ => .nan⟩ 0 (fun _ => false) 7 (loginIndex staleNotes)).db.fleetMemory.map
      (fun m => decide (anchorAt m (ascii "n1") none = anchorAt m (ascii "n2") none)) = some true := by decide +kernel
  rw [hafter, Option.map_some, Option.some.injEq, decide_eq_true_eq] at hsame
  exact hkept.distinct (ascii "n1") none (ascii "n2") none loginId movedLoginId (by decide +kernel) (by decide +kernel)
    (by decide +kernel) hsame

end Login

end Hayven.Db
