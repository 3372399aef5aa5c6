import Hayven.Db.ContextPack
import Hayven.Db.PackGateLaws
/-!
# The builders agree

On one root the two builders run the same passes on the same slices, and only their notes
differ: `pack_builders_agree`. An id that resolves to a root before it adds nothing.
-/
open Hayven.Lib Hayven.Native Hayven.Graph

namespace Hayven.Db.Pack

/-! ## Notes decide nothing -/

/-- Two states that differ in their notes at most. -/
def Alike (st st' : PassState) : Prop := ∃ notes, st' = { st with notes := notes }

section Passes
variable (localeCompare : JsString → JsString → Ordering) (db : PackDb) (h : Files) (repoRoot : JsString)
  {st st' : PassState}

theorem alike_addCalleeNeighbors (hst : Alike st st') (suffix suffix' : JsString) :
    Alike (addCalleeNeighbors localeCompare db h repoRoot st suffix)
      (addCalleeNeighbors localeCompare db h repoRoot st' suffix') := by
  obtain ⟨notes, rfl⟩ := hst
  exact ⟨_, rfl⟩

theorem alike_addCallerNeighbors (hst : Alike st st') (maxCallers : Nat) :
    Alike (addCallerNeighbors localeCompare db h repoRoot st maxCallers)
      (addCallerNeighbors localeCompare db h repoRoot st' maxCallers) := by
  obtain ⟨notes, rfl⟩ := hst
  unfold addCallerNeighbors
  split
  · exact ⟨notes, rfl⟩
  · exact ⟨_, rfl⟩

theorem alike_tryAddRef (hst : Alike st st') (rootText : JsString) (maxRefSliceLines n : Nat) (r : NodeRow) :
    Alike (tryAddRef db h repoRoot rootText maxRefSliceLines (st, n) r).1
      (tryAddRef db h repoRoot rootText maxRefSliceLines (st', n) r).1 ∧
    (tryAddRef db h repoRoot rootText maxRefSliceLines (st', n) r).2 =
      (tryAddRef db h repoRoot rootText maxRefSliceLines (st, n) r).2 := by
  obtain ⟨notes, rfl⟩ := hst
  have hslice : refSlice db h repoRoot rootText maxRefSliceLines ({ st with notes := notes }, n) r =
      refSlice db h repoRoot rootText maxRefSliceLines (st, n) r := rfl
  unfold tryAddRef
  rw [hslice]
  cases refSlice db h repoRoot rootText maxRefSliceLines (st, n) r with
  | none => exact ⟨⟨notes, rfl⟩, rfl⟩
  | some slice => exact ⟨⟨_, rfl⟩, rfl⟩

theorem alike_foldl_tryAddRef (rootText : JsString) (maxRefSliceLines : Nat) (rows : List NodeRow) :
    ∀ {st st' : PassState} (n : Nat), Alike st st' →
      Alike (rows.foldl (tryAddRef db h repoRoot rootText maxRefSliceLines) (st, n)).1
        (rows.foldl (tryAddRef db h repoRoot rootText maxRefSliceLines) (st', n)).1 := by
  induction rows with
  | nil => exact fun _ hst => hst
  | cons r rows ih =>
    intro st st' n hst
    obtain ⟨hstep, hcount⟩ := alike_tryAddRef db h repoRoot hst rootText maxRefSliceLines n r
    have hrest := ih (tryAddRef db h repoRoot rootText maxRefSliceLines (st, n) r).2 hstep
    rw [List.foldl_cons, List.foldl_cons]
    rw [← Prod.mk.eta (p := tryAddRef db h repoRoot rootText maxRefSliceLines (st', n) r), hcount]
    exact hrest

theorem alike_addRefNeighbors (hst : Alike st st') (rootText : JsString) (rootFiles : List JsString)
    (maxRefSliceLines : Nat) :
    Alike (addRefNeighbors localeCompare db h repoRoot st rootText rootFiles maxRefSliceLines)
      (addRefNeighbors localeCompare db h repoRoot st' rootText rootFiles maxRefSliceLines) :=
  alike_foldl_tryAddRef db h repoRoot rootText maxRefSliceLines _ 0 hst

theorem alike_addImportedSymbolNeighbors (hst : Alike st st') (rootText : JsString → JsString) (maxSymbols : Nat) :
    Alike (addImportedSymbolNeighbors db h repoRoot st rootText maxSymbols)
      (addImportedSymbolNeighbors db h repoRoot st' rootText maxSymbols) := by
  obtain ⟨notes, rfl⟩ := hst
  unfold addImportedSymbolNeighbors
  split
  · exact ⟨notes, rfl⟩
  · exact ⟨_, rfl⟩

end Passes

/-! ## Roots -/

section Roots
variable (localeCompare : JsString → JsString → Ordering) (db : PackDb) (h : Files) (repoRoot : JsString)

/-- The node that an id resolves to. -/
def rootOf (rawId : JsString) : Option NodeRow :=
  (resolveNodeId db.graph rawId).bind fun resolved => db.getNode resolved.id

theorem getNode_id {db : PackDb} {id : JsString} {n : NodeRow} (hn : db.getNode id = some n) : n.id = id := by
  obtain ⟨cells, -, rfl⟩ := Option.map_eq_some_iff.1 hn
  rfl

theorem addRoot_of_rootOf {roots : List NodeRow} {rawId : JsString} {root : NodeRow}
    (hroot : rootOf db rawId = some root) :
    addRoot db roots rawId = if (roots.map (·.id)).contains root.id then roots else roots ++ [root] := by
  obtain ⟨resolved, hresolved, hnode⟩ := Option.bind_eq_some_iff.1 hroot
  rw [addRoot, hresolved, getNode_id hnode]
  dsimp only
  rw [hnode]

theorem addRoot_subset (roots : List NodeRow) (rawId : JsString) {r : NodeRow} (hr : r ∈ roots) :
    r ∈ addRoot db roots rawId := by
  unfold addRoot
  split
  · exact hr
  · split
    · exact hr
    · split
      · exact hr
      · exact List.mem_append_left _ hr

theorem foldl_addRoot_subset (rawIds : List JsString) : ∀ {roots : List NodeRow} {r : NodeRow}, r ∈ roots →
    r ∈ rawIds.foldl (addRoot db) roots := by
  induction rawIds with
  | nil => exact fun hr => hr
  | cons rawId rawIds ih => exact fun hr => ih (addRoot_subset db _ rawId hr)

/-- Every id that resolves has its root listed. -/
theorem mem_foldl_addRoot {rawIds : List JsString} {rawId : JsString} {root : NodeRow} (hmem : rawId ∈ rawIds)
    (hroot : rootOf db rawId = some root) :
    ∀ roots : List NodeRow, root.id ∈ (rawIds.foldl (addRoot db) roots).map (·.id) := by
  induction rawIds with
  | nil => cases hmem
  | cons first rawIds ih =>
    intro roots
    rcases List.mem_cons.1 hmem with rfl | hmem
    · rw [List.foldl_cons, addRoot_of_rootOf db hroot]
      split
      · next hlisted =>
        obtain ⟨r, hr, hid⟩ := List.mem_map.1 (List.contains_iff_mem.1 hlisted)
        exact List.mem_map.2 ⟨r, foldl_addRoot_subset db rawIds hr, hid⟩
      · exact List.mem_map.2 ⟨root, foldl_addRoot_subset db rawIds (by simp), rfl⟩
    · exact ih hmem _

/-- An id whose root is listed already adds none. -/
theorem foldl_addRoot_respelled {pre post : List JsString} {seen rawId : JsString} {root : NodeRow} (hseen : seen ∈ pre)
    (hroot : rootOf db seen = some root) (hrespelled : rootOf db rawId = some root) :
    (pre ++ rawId :: post).foldl (addRoot db) [] = (pre ++ post).foldl (addRoot db) [] := by
  have hlisted := mem_foldl_addRoot db hseen hroot []
  rw [List.foldl_append, List.foldl_append, List.foldl_cons, addRoot_of_rootOf db hrespelled,
    if_pos (List.contains_iff_mem.2 hlisted)]

theorem foldl_addRoot_singleton (rawId : JsString) : [rawId].foldl (addRoot db) [] = (rootOf db rawId).toList := by
  rw [List.foldl_cons, List.foldl_nil, addRoot, rootOf]
  cases resolveNodeId db.graph rawId with
  | none => rfl
  | some resolved =>
    show (if false = true then _ else _) = _
    rw [if_neg Bool.false_ne_true, Option.bind_some]
    cases db.getNode resolved.id <;> rfl

end Roots

/-! ## The packs -/

/-- Two packs with the same slices, text and tags included, and the same sizes. -/
structure SamePack (p q : ContextPack) : Prop where
  slices : p.slices = q.slices
  lineCount : p.lineCount = q.lineCount
  estTokens : p.estTokens = q.estTokens
  targetFileEstTokens : p.targetFileEstTokens = q.targetFileEstTokens
  worthwhile : p.worthwhile = q.worthwhile

theorem samePack_finishPack {st st' : PassState} (hst : Alike st st') (read : JsString → Option (List JsString))
    (symbol symbol' : JsString) (resolved resolved' anchorFile : Option JsString) :
    SamePack (finishPack read symbol resolved anchorFile st) (finishPack read symbol' resolved' anchorFile st') := by
  obtain ⟨notes, rfl⟩ := hst
  exact ⟨rfl, rfl, rfl, rfl, rfl⟩

section Packs
variable (localeCompare : JsString → JsString → Ordering) (db : PackDb) (h : Files) (repoRoot : JsString)
  (opts : ContextPackOptions)

theorem rootsByFile_singleton (target : NodeRow) :
    (rootsByFile [target]).entries = (named target.file).toList.map fun file => (file, [target]) := by
  rw [rootsByFile, List.foldl_cons, List.foldl_nil]
  cases named target.file <;> rfl

/-- The header and the target are the same. -/
theorem alike_start (maxNeighbors maxHeaderLines : Nat) (target : NodeRow) :
    Alike (startAll db h repoRoot maxNeighbors maxHeaderLines [target])
      (startOne db h repoRoot maxNeighbors maxHeaderLines target) := by
  have htarget : ([target].map fun r => (r.id, sliceNode (read h repoRoot) r .target)).filterMap (·.2) =
      (sliceNode (read h repoRoot) target .target).toList := by
    rw [List.map_singleton]
    cases sliceNode (read h repoRoot) target .target <;> rfl
  have hheader : ((rootsByFile [target]).entries.map fun row =>
      rootHeader db h repoRoot maxHeaderLines row.1 row.2).flatMap (·.1) =
      (named target.file).elim [] fun file => (rootHeader db h repoRoot maxHeaderLines file [target]).1 := by
    rw [rootsByFile_singleton]
    cases named target.file with
    | none => rfl
    | some file => exact List.append_nil _
  unfold startAll startOne
  dsimp only
  rw [hheader, htarget]
  cases hfile : named target.file with
  | none => exact ⟨_, rfl⟩
  | some file =>
    have htext : target.file.getD [] = file := by
      rw [(Option.filter_eq_some_iff.1 hfile).1, Option.getD_some]
    simp only [Option.elim_some, rootHeader, moduleScopeSegments, htext]
    cases read h repoRoot file <;> exact ⟨_, rfl⟩

theorem rootTextOf_singleton (target : NodeRow) :
    rootTextOf h repoRoot [target] = fun id => if id = target.id then targetText h repoRoot target else [] := by
  funext id
  by_cases hid : id = target.id
  · simp [rootTextOf, hid]
  · simp [rootTextOf, hid, Ne.symm hid]

theorem alike_ite {c : Prop} [Decidable c] {st st' stElse stElse' : PassState} (hst : Alike st st')
    (helse : Alike stElse stElse') : Alike (if c then st else stElse) (if c then st' else stElse') := by
  by_cases hc : c
  · rw [if_pos hc, if_pos hc]
    exact hst
  · rw [if_neg hc, if_neg hc]
    exact helse

/-- The passes of both builders, from a start that differs in its notes at most. -/
theorem one_root (rawId : JsString) :
    Option.Rel SamePack (buildContextPackForSymbols localeCompare db h repoRoot [rawId] opts)
      (buildContextPack localeCompare db h repoRoot rawId opts) := by
  unfold buildContextPackForSymbols buildContextPack
  rw [foldl_addRoot_singleton, rootOf]
  cases hresolved : resolveNodeId db.graph rawId with
  | none => exact .none
  | some resolved =>
    cases htarget : db.getNode resolved.id with
    | none => simp [htarget]
    | some target =>
      simp only [Option.bind_some, htarget, Option.toList_some, Option.map_some]
      rw [if_neg (List.cons_ne_nil _ _), rootTextOf_singleton]
      refine .some (samePack_finishPack ?_ _ _ _ _ _ _)
      have hstart := alike_start db h repoRoot (countOpt opts.maxNeighbors DEFAULT_MAX_NEIGHBORS 0)
        (countOpt opts.maxHeaderLines DEFAULT_MAX_HEADER_LINES 0) target
      have hcallees := alike_addCalleeNeighbors localeCompare db h repoRoot hstart (ascii "unresolved/module/dup")
        (ascii "unresolved/module")
      have htext : joinLines ([target].map fun r => if r.id = target.id then targetText h repoRoot target else []) =
          targetText h repoRoot target := by
        simp
      have hfiles : sortWith compare (rootsByFile [target]).keys = (named target.file).toList := by
        rw [KeyedMap.keys, rootsByFile_singleton]
        cases named target.file <;> rfl
      rw [htext, hfiles]
      have hcallers : ∀ {st st' : PassState}, Alike st st' → Alike _ _ := fun hst =>
        alike_addCallerNeighbors localeCompare db h repoRoot hst (countOpt opts.maxCallers DEFAULT_MAX_CALLERS 0)
      cases hfile : named target.file with
      | none =>
        have hbefore := hcallers (alike_ite (c := opts.neighbors ≠ some false ∧
          countOpt opts.maxNeighbors DEFAULT_MAX_NEIGHBORS 0 > 0) hcallees hstart)
        exact alike_ite (alike_addImportedSymbolNeighbors db h repoRoot hbefore _ _) hbefore
      | some file =>
        -- the one builder asks twice whether there is to be a neighbour, the other once
        by_cases hneighbors : opts.neighbors ≠ some false ∧ countOpt opts.maxNeighbors DEFAULT_MAX_NEIGHBORS 0 > 0
        · simp only [if_pos hneighbors]
          have hbefore := hcallers (alike_addRefNeighbors localeCompare db h repoRoot hcallees
            (targetText h repoRoot target) [file] (countOpt opts.maxRefSliceLines DEFAULT_MAX_REF_SLICE_LINES 1))
          exact alike_ite (alike_addImportedSymbolNeighbors db h repoRoot hbefore _ _) hbefore
        · simp only [if_neg hneighbors]
          have hbefore := hcallers hstart
          exact alike_ite (alike_addImportedSymbolNeighbors db h repoRoot hbefore _ _) hbefore

/-- On one root the builders agree, and an id whose root is listed already changes nothing. -/
theorem pack_builders_agree :
    (∀ rawId, Option.Rel SamePack (buildContextPackForSymbols localeCompare db h repoRoot [rawId] opts)
      (buildContextPack localeCompare db h repoRoot rawId opts)) ∧
    ∀ (pre post : List JsString) (seen rawId : JsString) (root : NodeRow), seen ∈ pre → rootOf db seen = some root →
      rootOf db rawId = some root →
        buildContextPackForSymbols localeCompare db h repoRoot (pre ++ rawId :: post) opts =
          buildContextPackForSymbols localeCompare db h repoRoot (pre ++ post) opts := by
  refine ⟨one_root localeCompare db h repoRoot opts, fun pre post seen rawId root hseen hroot hrespelled => ?_⟩
  unfold buildContextPackForSymbols
  rw [foldl_addRoot_respelled db hseen hroot hrespelled]

end Packs

/-! ## A pack -/

section Example

/-- A file with a class and a function that names it, and a search that finds the function. -/
def smallDb : PackDb where
  nodes := (((KeyedMap.empty.set (ascii "a.ts") ⟨ascii "a", ascii "module", some (ascii "a.ts"), 1, 4⟩).set
    (ascii "a.ts::T") ⟨ascii "T", ascii "class", some (ascii "a.ts"), 2, 2⟩).set
    (ascii "a.ts::f") ⟨ascii "f", ascii "function", some (ascii "a.ts"), 3, 4⟩)
  edges := []
  searchFts := fun text => if text = ascii "f" then some (ascii "a.ts::f") else none

def smallFiles : Files :=
  { linkedHost with
    stat := fun _ => some (true, 60)
    readText := fun _ => some ((([0x0A] : JsString).intercalate
      [ascii "import y;", ascii "type T = y.S", ascii "function f(x: T)", ascii "  return x"])) }

/-- Header, target and the class it names; the short name of the function adds nothing. -/
theorem smallDb_packs :
    ((buildContextPack compare smallDb smallFiles (ascii "/r") (ascii "f") {}).map fun p =>
      p.slices.map fun s => (s.role, s.startLine, s.endLine)) =
        some [(.header, 1, 1), (.target, 3, 4), (.neighbor, 2, 2)] ∧
    buildContextPackForSymbols compare smallDb smallFiles (ascii "/r") [ascii "a.ts::f", ascii "f"] {} =
      buildContextPackForSymbols compare smallDb smallFiles (ascii "/r") [ascii "a.ts::f"] {} := by
  have hroot : ∀ raw ∈ [ascii "a.ts::f", ascii "f"], rootOf smallDb raw =
      some ⟨⟨ascii "f", ascii "function", some (ascii "a.ts"), 3, 4⟩, ascii "a.ts::f"⟩ := by
    intro raw hraw
    rcases List.mem_cons.1 hraw with rfl | hraw
    · rfl
    · rw [List.mem_singleton.1 hraw]
      rfl
  refine ⟨by decide +kernel, ?_⟩
  exact (pack_builders_agree compare smallDb smallFiles (ascii "/r") {}).2 [ascii "a.ts::f"] [] (ascii "a.ts::f")
    (ascii "f") _ (by simp) (hroot _ (by simp)) (hroot _ (by simp))

end Example

end Hayven.Db.Pack
