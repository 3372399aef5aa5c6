import Hayven.Db.Freshness
import Hayven.Lib.JsonWriter
import Hayven.Lib.Ordering
import Mathlib.Data.List.Dedup
/-!
# The record of uncommitted content

`db/ingest_dirty.ts`, and `gitStatus` of `worktree/git.ts`, whose answer goes into the
record. A record is read as it was written, and git's listing is read path by path.
-/
open Hayven.Lib

namespace Hayven.Db

/-! ## `git status --porcelain=v1 -z` -/

/-- The two letters say that the entry is of a rename or a copy. -/
def renamedOrCopied (xy : JsString) : Bool := xy.contains 0x52 || xy.contains 0x43

/-- What git prints of a path: two letters and, if it was renamed or copied, the path before. -/
structure StatusEntry where
  x : UInt16
  y : UInt16
  path : JsString
  orig : Option JsString
  letters : x ≠ 0 ∧ y ≠ 0
  named : path ≠ [] ∧ 0 ∉ path
  origNamed : ∀ o, orig = some o → o ≠ [] ∧ 0 ∉ o
  origPrinted : orig.isSome = renamedOrCopied [x, y]

def StatusEntry.text (e : StatusEntry) : JsString :=
  e.x :: e.y :: 0x20 :: e.path ++ 0 :: match e.orig with
    | none => []
    | some orig => orig ++ [0]

def porcelain (entries : List StatusEntry) : JsString := entries.flatMap StatusEntry.text

/-- The loop over the tokens. -/
def statusPaths : List JsString → List JsString
  | [] => []
  | [t] => if t.length < 4 then [] else [t.drop 3]
  | t :: next :: rest =>
    if t.length < 4 then statusPaths (next :: rest)
    else if renamedOrCopied (t.take 2) then
      t.drop 3 :: ((if next.length > 0 then [next] else []) ++ statusPaths rest)
    else t.drop 3 :: statusPaths (next :: rest)

def sortedSet (paths : List JsString) : List JsString := sortWith compare paths.dedup

/-- The paths of `gitStatus`, from what git printed. -/
def gitStatus (raw : JsString) : List JsString := sortedSet (statusPaths (raw.splitOn 0))

@[simp] theorem mem_sortedSet {paths : List JsString} {p : JsString} : p ∈ sortedSet paths ↔ p ∈ paths := by
  rw [sortedSet, mem_sortWith, List.mem_dedup]

/-- The tokens of an entry. -/
def StatusEntry.tokens (e : StatusEntry) : List JsString := (e.x :: e.y :: 0x20 :: e.path) :: e.orig.toList

theorem splitOn_text (e : StatusEntry) (rest : JsString) :
    (e.text ++ rest).splitOn 0 = e.tokens ++ rest.splitOn 0 := by
  have hfree : (0 : UInt16) ∉ e.x :: e.y :: 0x20 :: e.path := by
    simp [e.letters.1.symm, e.letters.2.symm, e.named.2]
  rcases horig : e.orig with _ | orig
  · have htext : e.text ++ rest = (e.x :: e.y :: 0x20 :: e.path) ++ 0 :: rest := by simp [StatusEntry.text, horig]
    rw [htext, List.splitOn_append_cons_self_of_not_mem hfree]
    simp [StatusEntry.tokens, horig]
  · have htext : e.text ++ rest = (e.x :: e.y :: 0x20 :: e.path) ++ 0 :: (orig ++ 0 :: rest) := by
      simp [StatusEntry.text, horig]
    rw [htext, List.splitOn_append_cons_self_of_not_mem hfree,
      List.splitOn_append_cons_self_of_not_mem (e.origNamed orig horig).2]
    simp [StatusEntry.tokens, horig]

theorem splitOn_porcelain (entries : List StatusEntry) :
    (porcelain entries).splitOn 0 = entries.flatMap StatusEntry.tokens ++ [[]] := by
  induction entries with
  | nil => rfl
  | cons e entries ih =>
    rw [porcelain, List.flatMap_cons, splitOn_text, List.flatMap_cons, List.append_assoc]
    exact congrArg (e.tokens ++ ·) ih

theorem statusPaths_tokens (e : StatusEntry) {rest : List JsString} (hne : rest ≠ []) :
    statusPaths (e.tokens ++ rest) = e.path :: e.orig.toList ++ statusPaths rest := by
  obtain ⟨next, rest, rfl⟩ := List.exists_cons_of_ne_nil hne
  have hlen : ¬ (e.x :: e.y :: 0x20 :: e.path).length < 4 := by
    have := List.length_pos_iff.2 e.named.1
    simp only [List.length_cons]
    omega
  have hprinted := e.origPrinted
  rcases horig : e.orig with _ | orig
  · rw [horig] at hprinted
    simp only [StatusEntry.tokens, horig, Option.toList_none, List.cons_append, List.nil_append, statusPaths, hlen,
      if_false, List.take_succ_cons, List.take_zero, ← hprinted, Option.isSome_none, Bool.false_eq_true,
      List.drop_succ_cons, List.drop_zero]
  · rw [horig] at hprinted
    have hpos := List.length_pos_iff.2 (e.origNamed orig horig).1
    simp only [StatusEntry.tokens, horig, Option.toList_some, List.cons_append, List.nil_append, statusPaths, hlen,
      if_false, List.take_succ_cons, List.take_zero, ← hprinted, Option.isSome_some, if_true, hpos, gt_iff_lt,
      List.drop_succ_cons, List.drop_zero]

/-- Every path that git prints is read, also the old path of a rename. -/
theorem mem_gitStatus {entries : List StatusEntry} {p : JsString} :
    p ∈ gitStatus (porcelain entries) ↔ ∃ e ∈ entries, p = e.path ∨ e.orig = some p := by
  have hpaths : statusPaths (entries.flatMap StatusEntry.tokens ++ [[]]) =
      entries.flatMap fun e => e.path :: e.orig.toList := by
    induction entries with
    | nil => rfl
    | cons e entries ih =>
      rw [List.flatMap_cons, List.append_assoc, statusPaths_tokens e (by simp), ih, List.flatMap_cons]
  rw [gitStatus, splitOn_porcelain, hpaths, mem_sortedSet, List.mem_flatMap]
  simp [Option.mem_toList]

/-! ## The record -/

def DIRTY_RECORD_CAP : Nat := 2000

def OVERFLOW : JsString := ascii "overflow"

def UNKNOWN : JsString := ascii "unknown"

inductive IngestDirty where
  | paths (paths : List JsString)
  | overflow
  | unknown
deriving DecidableEq

/-- The strings of a parsed list. -/
def stringItem : Json → Option JsString
  | .str s => some s
  | _ => none

/-- `readIngestDirty`, from the stat. -/
def readIngestDirty (raw : Option JsString) : Option IngestDirty :=
  raw.map fun raw =>
    if raw = OVERFLOW then .overflow
    else if raw = UNKNOWN then .unknown
    else match parseJson raw with
      | some (.arr items) => .paths (items.filterMap stringItem)
      | _ => .unknown

/-- `JSON.stringify` of a list of strings. -/
def pathsText (paths : List JsString) : JsString := (Written.arr (paths.map fun p => .str (quoteBody p))).text

/-- `writeIngestDirty`: the stat afterwards. -/
def writeIngestDirty (record : Option IngestDirty) : Option JsString :=
  record.map fun
    | .paths paths => pathsText paths
    | .overflow => OVERFLOW
    | .unknown => UNKNOWN

/-- `nextIngestDirty`: `registry` says whether `worktrees.json` exists, `status` is git's answer. -/
def nextIngestDirty (registry : Bool) (stat : Option JsString) (authoritative : Bool)
    (status : Option (List JsString)) : Option IngestDirty :=
  if !registry then none
  else
    let prior := if authoritative then none else readIngestDirty stat
    if !authoritative && prior.isNone then some .unknown
    else
      match prior with
      | some .overflow => some .overflow
      | some .unknown => some .unknown
      | some (.paths old) => some (merge old status)
      | none => some (merge [] status)
where
  merge (old : List JsString) (status : Option (List JsString)) : IngestDirty :=
    match status with
    | none => .unknown
    | some paths =>
      let merged := sortedSet (old ++ paths.filter isSourcePath)
      if merged.length > DIRTY_RECORD_CAP then .overflow else .paths merged

/-! ## Reading what was written -/

theorem parseJson_pathsText (paths : List JsString) : parseJson (pathsText paths) = some (.arr (paths.map .str)) :=
  Written.parseJson_text (.arr (.of_map fun p _ => .str (Written.readsString_quoteBody p)))

theorem readIngestDirty_write (record : Option IngestDirty) : readIngestDirty (writeIngestDirty record) = record := by
  rcases record with _ | paths | _ | _
  · rfl
  · have hover : pathsText paths ≠ OVERFLOW := by simp [pathsText, Written.text, OVERFLOW, ascii]
    have hunknown : pathsText paths ≠ UNKNOWN := by simp [pathsText, Written.text, UNKNOWN, ascii]
    have hitems : (paths.map Json.str).filterMap stringItem = paths := by
      rw [List.filterMap_map]
      exact List.filterMap_some
    simp only [writeIngestDirty, readIngestDirty, Option.map_some, if_neg hover, if_neg hunknown, parseJson_pathsText,
      hitems]
  · rfl
  · simp [writeIngestDirty, readIngestDirty, UNKNOWN, OVERFLOW, ascii]

/-! ## The next record -/

section Next
variable {registry authoritative : Bool} {stat : Option JsString} {status : Option (List JsString)}

/-- A list is written only beside a registry and with git's answer. It extends the list
before, and only a full rebuild starts one. -/
theorem nextIngestDirty_paths {paths : List JsString}
    (h : nextIngestDirty registry stat authoritative status = some (.paths paths)) :
    registry = true ∧ ∃ current old, status = some current ∧
      (if authoritative then old = [] else readIngestDirty stat = some (.paths old)) ∧
      paths.length ≤ DIRTY_RECORD_CAP ∧ ∀ p, p ∈ paths ↔ p ∈ old ∨ (p ∈ current ∧ isSourcePath p = true) := by
  have hmerge : ∀ {old}, nextIngestDirty.merge old status = .paths paths →
      ∃ current, status = some current ∧ paths.length ≤ DIRTY_RECORD_CAP ∧
        ∀ p, p ∈ paths ↔ p ∈ old ∨ (p ∈ current ∧ isSourcePath p = true) := by
    intro old hm
    rcases status with _ | current
    · cases hm
    · simp only [nextIngestDirty.merge] at hm
      split at hm
      · cases hm
      · next hcap =>
        injection hm with hm
        subst hm
        exact ⟨current, rfl, by omega, fun p => by rw [mem_sortedSet, List.mem_append, List.mem_filter]⟩
  unfold nextIngestDirty at h
  cases registry
  · cases h
  refine ⟨rfl, ?_⟩
  cases authoritative
  · rcases hprior : readIngestDirty stat with _ | old | _ | _ <;> simp [hprior] at h
    obtain ⟨current, hstatus, hrest⟩ := hmerge h
    exact ⟨current, old, hstatus, rfl, hrest⟩
  · simp only [Bool.not_true, Bool.false_eq_true, if_false, if_true, Bool.false_and, Option.some.injEq] at h
    obtain ⟨current, hstatus, hrest⟩ := hmerge h
    exact ⟨current, [], hstatus, rfl, hrest⟩

/-- A record that is no list stays as it is. -/
theorem nextIngestDirty_sticky {record : IngestDirty} (h : readIngestDirty stat = some record)
    (hno : ∀ paths, record ≠ .paths paths) : nextIngestDirty true stat false status = some record := by
  rcases record with paths | _ | _
  · exact absurd rfl (hno paths)
  · simp [nextIngestDirty, h]
  · simp [nextIngestDirty, h]

end Next

end Hayven.Db
