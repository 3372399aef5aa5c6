import Hayven.Db.ContextPack
/-!
# The ladder of contexts

`db/context_escalation.ts`: over the pack of a symbol the packs of its callees, and over these the
whole files; which rung is recommended, and which one a budget buys. The files of the last rung
are read after the packs were built, so the disk may be another by then.
-/
open Hayven.Lib Hayven.Native Hayven.Graph

namespace Hayven.Db.Pack

inductive RungLevel where
  | pack
  | pack2hop
  | wholeFile
deriving DecidableEq

def RungLevel.text : RungLevel → JsString
  | .pack => ascii "pack"
  | .pack2hop => ascii "pack-2hop"
  | .wholeFile => ascii "whole-file"

/-- The place in `RUNG_ORDER`. -/
def RungLevel.index : RungLevel → Nat
  | .pack => 0
  | .pack2hop => 1
  | .wholeFile => 2

/-- The slices of a rung and what they cost. -/
structure ContextRung where
  level : RungLevel
  slices : List ContextSlice
  files : List JsString
  estTokens : Nat
deriving DecidableEq

structure EscalationResult where
  symbol : JsString
  resolved : Option JsString
  rungs : List ContextRung
  recommended : ContextRung
  notes : List JsString

structure EscalationOptions extends ContextPackOptions where
  maxRung : Option RungLevel := none

def sliceKey (s : ContextSlice) : JsString :=
  s.file ++ ascii ":" ++ intText s.startLine ++ ascii "-" ++ intText s.endLine

def rungTokens (slices : List ContextSlice) : Nat := estimateTokens (charsOf slices)

/-- The files in the order in which they are first seen. -/
def rungFiles (slices : List ContextSlice) : List JsString :=
  slices.foldl (fun files s => if files.contains s.file then files else files ++ [s.file]) []

def makeRung (level : RungLevel) (slices : List ContextSlice) : ContextRung where
  level := level
  slices := slices
  files := rungFiles slices
  estTokens := rungTokens slices

/-! ## The second hop -/

/-- The neighbours that a call led to. -/
def calledIds (slices : List ContextSlice) : List JsString :=
  slices.filterMap fun s => if s.role = .neighbor ∧ s.via = some .call then s.id else none

/-- A slice is new if none with its file and lines is there. -/
def addSlice (merged : List ContextSlice) (s : ContextSlice) : List ContextSlice :=
  if (merged.map sliceKey).contains (sliceKey s) then merged else merged ++ [s]

/-! ## The whole files -/

/-- The lines of a text; a line feed at its end starts no line. -/
def contentLines (text : JsString) : Nat :=
  let parts := text.splitOn lineFeed
  if parts.getLast? = some [] then parts.length - 1 else parts.length

def fileSlice (file content : JsString) : ContextSlice where
  role := .target
  id := none
  kind := ascii "file"
  file := file
  startLine := 1
  endLine := contentLines content
  text := content

def refusedNote (file : JsString) : JsString :=
  ascii "refused to read `" ++ file ++ ascii "` for the whole-file rung: outside the repository"

def unreadNote (readError : JsString → JsString) (file : JsString) : JsString :=
  ascii "could not read `" ++ file ++ ascii "` for the whole-file rung: " ++ readError file

section Build
variable (localeCompare : JsString → JsString → Ordering) (db : PackDb) (h later : Files) (repoRoot : JsString)
  (readError : JsString → JsString)

/-- `readFileSync` behind the gate. -/
def fileText (h : Files) (repoRoot file : JsString) : Option JsString :=
  (resolveWithinRepo h repoRoot file).bind h.readText

def twoHop (packSlices : List ContextSlice) (packOpts : ContextPackOptions) : List ContextSlice :=
  (calledIds packSlices).foldl (fun merged id =>
    match buildContextPack localeCompare db h repoRoot id packOpts with
    | none => merged
    | some sub => sub.slices.foldl addSlice merged) packSlices

def wholeSlices (files : List JsString) : List ContextSlice :=
  files.filterMap fun file => (fileText later repoRoot file).map (fileSlice file)

def wholeNotes (files : List JsString) : List JsString :=
  files.filterMap fun file =>
    if resolveWithinRepo later repoRoot file = none then some (refusedNote file)
    else if fileText later repoRoot file = none then some (unreadNote readError file)
    else none

/-! ## The recommendation -/

def tok (rung : ContextRung) : JsString := ascii "(~" ++ decDigits rung.estTokens ++ ascii " tok)"

/-- The note that names a rung, up to its dash. -/
def recommendedThe (rung : ContextRung) : JsString :=
  ascii "recommended the `" ++ rung.level.text ++ ascii "` rung " ++ tok rung ++ [0x20, 0x2014, 0x20]

/-- The rung and the note about it. `lower` are the rungs below the whole files. -/
def recommend (packRung : ContextRung) (lower : List ContextRung) (maxRung : RungLevel) :
    Option ContextRung → ContextRung × JsString
  | some whole =>
    if whole.slices.length > 0 then
      match lower.find? fun r => r.estTokens < whole.estTokens with
      | some r => (r, recommendedThe r ++ ascii "the cheapest rung below the whole-file baseline " ++ tok whole)
      | none => (whole, ascii "recommended the whole-file rung " ++ tok whole ++ ascii ": no cheaper rung beats it " ++
          [0x2014] ++ ascii " the precise pack is not smaller than the files it touches (tiny-file case)")
    else
      let r := ((lower ++ [whole]).find? fun r => r.slices.length > 0).getD packRung
      (r, recommendedThe r ++
        ascii "the whole-file rung read none of its files (unreadable), so it is not a usable baseline")
  | none => (packRung, recommendedThe packRung ++ ascii "the cheapest rung built under maxRung:\"" ++ maxRung.text ++
      ascii "\" (no whole-file baseline to compare against)")

def selfContained : JsString :=
  ascii "pack-2hop omitted: adds no new context over the pack rung (self-contained 1-hop)"

def buildEscalatingContext (rawId : JsString) (opts : EscalationOptions) : Option EscalationResult :=
  (buildContextPack localeCompare db h repoRoot rawId opts.toContextPackOptions).map fun pack =>
    let maxRung := opts.maxRung.getD .wholeFile
    let packRung := makeRung .pack pack.slices
    let merged := if maxRung.index ≥ RungLevel.pack2hop.index then
        twoHop localeCompare db h repoRoot pack.slices opts.toContextPackOptions
      else pack.slices
    let second : List ContextRung × List JsString :=
      if maxRung.index ≥ RungLevel.pack2hop.index then
        if merged.length > pack.slices.length then ([makeRung .pack2hop merged], []) else ([], [selfContained])
      else ([], [])
    let whole : Option ContextRung × List JsString :=
      if maxRung.index ≥ RungLevel.wholeFile.index then
        (some (makeRung .wholeFile (wholeSlices later repoRoot (rungFiles merged))),
          wholeNotes later repoRoot readError (rungFiles merged))
      else (none, [])
    let recommended := recommend packRung (packRung :: second.1) maxRung whole.1
    { symbol := pack.symbol
      resolved := pack.resolved
      rungs := packRung :: second.1 ++ whole.1.toList
      recommended := recommended.1
      notes := second.2 ++ whole.2 ++ [recommended.2] }

end Build

/-! ## A budget -/

structure BudgetedRung where
  rung : ContextRung
  fits : Bool
  budget : JsNumber

/-- `rung.estTokens <= budget`. -/
def ContextRung.fits (budget : JsNumber) (rung : ContextRung) : Bool := JsNumber.le (rung.estTokens : Nat) budget

/-- The richest rung that fits, else the first. Every result has a rung. -/
def selectRungForBudget (result : EscalationResult) (budget : JsNumber) : BudgetedRung :=
  match result.rungs.reverse.find? (ContextRung.fits budget) with
  | some rung => ⟨rung, true, budget⟩
  | none => ⟨result.rungs.headD result.recommended, false, budget⟩

end Hayven.Db.Pack
