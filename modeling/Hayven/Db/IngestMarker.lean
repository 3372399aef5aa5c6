import Hayven.Db.IndexHealth
import Hayven.Lib.Segments
/-!
# Declaring an ingest

The writers of the `ingest_in_progress` marker in `db/queries.ts`, each one transaction:
`clearGraph`, `beginIngest`, `endIngest` and `recordNodeWatermark`. The caller passes the
token of its handle, and `alive`, what a probe says of a process.
-/
open Hayven.Lib Hayven.Graph

namespace Hayven.Db

/-- `${process.pid}:${Date.now().toString(36)}:${rand}`; the stamp is what follows the pid. -/
def mintToken (pid : Pid) (stamp : JsString) : JsString := decDigits pid.val ++ 0x3A :: stamp

def GraphDb.clear (db : GraphDb) : GraphDb := { db with nodes := .empty, edges := .empty }

namespace IndexFile

/-- Some row of `nodes` names the file. -/
def hasRows (db : IndexFile) (file : JsString) : Bool := db.graph.nodes.values.any (·.file = file)

def deleteNodesByFile (db : IndexFile) (file : JsString) : IndexFile :=
  { db with graph := db.graph.deleteNodesByFile file }

def upsertNodes (db : IndexFile) (nodes : List GraphNode) : IndexFile :=
  { db with graph := db.graph.upsertNodes nodes }

section Writers
variable (rt : NumberText)

/-- The tokens in flight. -/
def tokens (db : IndexFile) : List JsString := (readInFlight rt db).map (·.t)

/-- The graph is wiped; sentinels, and tokens of processes that are gone, give way to the token. -/
def clearGraph (alive : Nat → Bool) (token : JsString) (now : Double) (db : IndexFile) : IndexFile :=
  let entries := (readInFlight rt db).filter fun e =>
    !isAdoptableToken e.t && e.t ≠ token && !isDeadOwnerToken alive e.t
  { db with
    graph := db.graph.clear
    ingestInProgress := writeInFlight rt (entries ++ [⟨token, now⟩]) }

/-- Sentinels give way to the token, which keeps the start of a legacy one. -/
def beginIngest (token : JsString) (startedAt : Double) (db : IndexFile) : IndexFile :=
  let existing := readInFlight rt db
  let entries := existing.filter fun e => !isAdoptableToken e.t && e.t ≠ token
  let legacyAt := (existing.find? (·.t = LEGACY_TOKEN)).map (·.startedAt)
  { db with ingestInProgress := writeInFlight rt (entries ++ [⟨token, legacyAt.getD startedAt⟩]) }

/-- `writeInFlight` of what was read, without the token. -/
def retract (read : List InFlightIngest) (token : JsString) (db : IndexFile) : IndexFile :=
  { db with ingestInProgress := writeInFlight rt (read.filter (·.t ≠ token)) }

/-- A handle without a token has nothing to retract. -/
def endIngest (token : Option JsString) (db : IndexFile) : IndexFile :=
  match token with
  | some token => db.retract rt (readInFlight rt db) token
  | none => db

/-- Only a run that rebuilt the whole graph lowers the watermark. -/
def recordNodeWatermark (authoritative : Bool) (db : IndexFile) : IndexFile :=
  let count : Rat := db.graph.nodes.keys.length
  let prior := match rt.ofString (db.lastIngestNodes.getD (ascii "0")) with
    | .fin q => if 0 < q then q else 0
    | _ => 0
  { db with lastIngestNodes := some (rt.print (if authoritative then count else max prior count)) }

/-- The transaction that records success. -/
def succeed (token : Option JsString) (authoritative : Bool) (db : IndexFile) : IndexFile :=
  (db.recordNodeWatermark rt authoritative).endIngest rt token

end Writers

end IndexFile

/-! ## Tokens -/

section Tokens
variable (pid : Pid) (stamp : JsString)

theorem tokenPid_mintToken : tokenPid (mintToken pid stamp) = some pid.val := by
  have hdigits := digits_decDigits pid.val
  have hhead : firstSegment 0x3A (mintToken pid stamp) = decDigits pid.val := by
    rw [mintToken, firstSegment_append (not_mem_decDigits rfl _), firstSegment]
    exact List.append_nil _
  have hne : decDigits pid.val ≠ [] := by
    obtain ⟨u, rest, h, -⟩ := hdigits.head
    exact h ▸ List.cons_ne_nil u rest
  have hround : roundRat (decValue (decDigits pid.val)) = .fin pid.val := by
    rw [hdigits.value]
    exact roundRat_of_lt pid.small
  rw [tokenPid]
  simp only [hhead, hround]
  rw [if_pos ⟨hne, List.all_eq_true.2 hdigits.all⟩, if_pos ⟨rfl, by exact_mod_cast pid.pos⟩]
  rfl

/-- A minted token starts with a digit. -/
theorem isAdoptableToken_mintToken : isAdoptableToken (mintToken pid stamp) = false := by
  obtain ⟨u, rest, h, -⟩ := (digits_decDigits pid.val).head
  have hdigit := (digits_decDigits pid.val).all u (h ▸ List.mem_cons_self)
  have hne : ∀ (v : UInt16) (s : JsString), isDigit v = false → mintToken pid stamp ≠ v :: s := by
    intro v s hv heq
    rw [mintToken, h] at heq
    obtain rfl := (List.cons.inj heq).1
    exact Bool.noConfusion (hv.symm.trans hdigit)
  rw [isAdoptableToken, Bool.or_eq_false_iff]
  exact ⟨decide_eq_false (hne 0x6C _ rfl), decide_eq_false (hne 0x6D _ rfl)⟩

theorem mintToken_inj {pid pid' : Pid} {stamp stamp' : JsString} (h : mintToken pid stamp = mintToken pid' stamp') :
    stamp = stamp' :=
  (cut_at_sep (not_mem_decDigits rfl _) (not_mem_decDigits rfl _) h).2

theorem isDeadOwnerToken_mintToken (alive : Nat → Bool) :
    isDeadOwnerToken alive (mintToken pid stamp) = !alive pid.val := by
  rw [isDeadOwnerToken, tokenPid_mintToken]
  rfl

end Tokens

/-! ## The marker after a write -/

namespace IndexFile
variable {rt : NumberText} {db : IndexFile} {token e : JsString}

theorem tokens_of_write (hrt : rt.Lossless) {entries : List InFlightIngest}
    (h : db.ingestInProgress = writeInFlight rt entries) : db.tokens rt = entries.map (·.t) := by
  rw [tokens, readInFlight, h, parseInFlight_writeInFlight hrt]

theorem mem_tokens (entries : List InFlightIngest) (keep : JsString → Bool) :
    e ∈ (entries.filter fun entry => keep entry.t).map (·.t) ↔ e ∈ entries.map (·.t) ∧ keep e = true := by
  simp only [List.mem_map, List.mem_filter]
  constructor
  · rintro ⟨entry, ⟨hmem, hkeep⟩, rfl⟩
    exact ⟨⟨entry, hmem, rfl⟩, hkeep⟩
  · rintro ⟨⟨entry, hmem, rfl⟩, hkeep⟩
    exact ⟨entry, ⟨hmem, hkeep⟩, rfl⟩

theorem mem_tokens_retract (hrt : rt.Lossless) (read : List InFlightIngest) :
    e ∈ (db.retract rt read token).tokens rt ↔ e ∈ read.map (·.t) ∧ e ≠ token := by
  rw [tokens_of_write hrt rfl]
  exact (mem_tokens read fun t => t ≠ token).trans (by rw [decide_eq_true_eq])

/-- The token is added to what is kept. -/
theorem mem_tokens_declare (hrt : rt.Lossless) {db' : IndexFile} (keep : JsString → Bool) {startedAt : Double}
    (h : db'.ingestInProgress =
      writeInFlight rt (((readInFlight rt db).filter fun entry => keep entry.t) ++ [⟨token, startedAt⟩])) :
    e ∈ db'.tokens rt ↔ e = token ∨ (e ∈ db.tokens rt ∧ keep e = true) := by
  rw [tokens_of_write hrt h, List.map_append, List.mem_append, mem_tokens, or_comm]
  exact or_congr List.mem_singleton Iff.rfl

theorem mem_tokens_beginIngest (hrt : rt.Lossless) (startedAt : Double) :
    e ∈ (db.beginIngest rt token startedAt).tokens rt ↔
      e = token ∨ (e ∈ db.tokens rt ∧ isAdoptableToken e = false) := by
  rw [mem_tokens_declare hrt (fun t => !isAdoptableToken t && t ≠ token) rfl]
  by_cases he : e = token <;> simp [he]

theorem mem_tokens_clearGraph (hrt : rt.Lossless) (alive : Nat → Bool) (now : Double) :
    e ∈ (db.clearGraph rt alive token now).tokens rt ↔
      e = token ∨ (e ∈ db.tokens rt ∧ isAdoptableToken e = false ∧ isDeadOwnerToken alive e = false) := by
  rw [mem_tokens_declare hrt (fun t => !isAdoptableToken t && t ≠ token && !isDeadOwnerToken alive t) rfl]
  by_cases he : e = token <;> simp [he]

theorem mem_tokens_succeed (hrt : rt.Lossless) (authoritative : Bool) :
    e ∈ (db.succeed rt (some token) authoritative).tokens rt ↔ e ∈ db.tokens rt ∧ e ≠ token :=
  mem_tokens_retract hrt _

/-! ## A healthy index -/

theorem Healthy.tokens_eq_nil (h : db.Healthy rt) : db.tokens rt = [] := by
  rw [tokens, (healthy_iff.1 h).1]
  rfl

/-- A rebuilt graph that is empty claims no nodes. -/
theorem claimedNodes_recordNodeWatermark (hrt : rt.Documented) (hempty : db.graph.nodes.keys.length = 0) :
    claimedNodes rt (db.recordNodeWatermark rt true) = 0 := by
  have hzero : IsDouble 0 := by decide +kernel
  have hclaim : rt.ofString (rt.print ((db.graph.nodes.keys.length : Nat) : Rat)) = .fin 0 := by
    rw [hempty]
    exact hrt.ofString_print 0 hzero
  rw [claimedNodes, recordNodeWatermark]
  simp only [if_true, Option.map_some, hclaim]
  rfl

/-- After a rebuild the index is usable if no other ingest was in flight. -/
theorem healthy_succeed_iff (hrt : rt.Documented) :
    (db.succeed rt (some token) true).Healthy rt ↔ ∀ e ∈ db.tokens rt, e = token := by
  rw [healthy_iff]
  constructor
  · rintro ⟨hnone, -⟩ e he
    by_contra hne
    have hmem := (mem_tokens_succeed hrt.lossless true).2 ⟨he, hne⟩
    rw [tokens, hnone] at hmem
    exact absurd hmem List.not_mem_nil
  · intro hall
    constructor
    · have hnil : (db.succeed rt (some token) true).tokens rt = [] :=
        List.eq_nil_iff_forall_not_mem.2 fun e he =>
          ((mem_tokens_succeed hrt.lossless true).1 he).2 (hall e ((mem_tokens_succeed hrt.lossless true).1 he).1)
      exact List.map_eq_nil_iff.1 hnil
    · rintro ⟨hempty, hclaims⟩
      have hzero := claimedNodes_recordNodeWatermark hrt hempty
      exact lt_irrefl (0 : Rat) (hclaims.trans_eq hzero)

end IndexFile

end Hayven.Db
