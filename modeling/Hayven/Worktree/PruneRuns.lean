import Hayven.Lib.Runs
import Hayven.Worktree.Registry
/-!
# Pruning next to other commands

Any number of prunes, `add`s and `remove`s step in any order. A prune spares what it did
not judge in the runs in which no registration falls between its reading of the registry
and its acting on that reading, and in which it can read the registry: `prune_spares`.
Outside them it drops a registration it never looked at: `prune_deletes_registered`.
-/
open Hayven.Lib

namespace Hayven.Worktree

/-! ## The system -/

/-- A run of prune, with what it judged invalid and the ids registered beside it. -/
structure Prune where
  phase : PrunePhase
  judged : List WorktreeEntry
  /-- Registered since the prune started. -/
  sinceStart : List JsString
  /-- Registered since the prune last read the registry. -/
  sinceRead : List JsString

structure OverlayState where
  fs : Overlays
  prunes : Nat → Prune
  commands : Nat → CommandPhase

inductive OverlayAct where
  /-- Prune `p` starts, or takes its next step. -/
  | prune (p : Nat) (ans : Answer)
  /-- Command `c` is an `add` of a validated path and registers it. -/
  | add (c : Nat) (path createdAt : JsString) (seedHead : Option JsString) (ans : Answer)
  /-- Command `c` is a `remove` and drops the row. -/
  | remove (c : Nat) (target raw : JsString) (ans : Answer)
  | command (c : Nat) (ans : Answer)

def overlayStart (fs : Overlays) : OverlayState := ⟨fs, fun _ => ⟨.idle, [], [], []⟩, fun _ => .idle⟩

/-- Every prune sees the id registered beside it. -/
def Prune.note (id : JsString) (me : Prune) : Prune :=
  { me with sinceStart := id :: me.sinceStart, sinceRead := id :: me.sinceRead }

def PrunePhase.atRest : PrunePhase → Bool
  | .idle | .finished _ | .thrown => true
  | _ => false

/-- The first read: a malformed file throws. -/
def pruneBegin (fs : Overlays) (ans : Answer) : Prune :=
  match readWorktreeRegistryStrict fs.registry ans.readable with
  | .error _ => ⟨.thrown, [], [], []⟩
  | .ok entries => ⟨.judging entries .empty, [], [], []⟩

/-- The entry judged by the next step, if it is found invalid. -/
def judgedNow (ans : Answer) : PrunePhase → List WorktreeEntry
  | .judging (e :: _) _ => if (judge e ans.verdict).isSome then [e] else []
  | _ => []

/-- The next step reads the registry. -/
def PrunePhase.reads : PrunePhase → Bool
  | .judging [] _ | .scanning _ => true
  | _ => false

def pruneNext (fs : Overlays) (ans : Answer) (me : Prune) : Overlays × Prune :=
  if me.phase.atRest then (fs, pruneBegin fs ans)
  else
    let r := pruneStep fs ans me.phase
    (r.1, { me with
      phase := r.2
      judged := judgedNow ans me.phase ++ me.judged
      sinceRead := if me.phase.reads then [] else me.sinceRead })

def overlayStep (overlayId : JsString → JsString) (s : OverlayState) : OverlayAct → Option OverlayState
  | .prune p ans =>
    let r := pruneNext s.fs ans (s.prunes p)
    some { s with fs := r.1, prunes := Function.update s.prunes p r.2 }
  | .add c path createdAt seedHead ans =>
    match s.commands c with
    | .idle =>
      match mutateWorktreeRegistry s.fs.registry ans (register ⟨path, overlayId path, createdAt, seedHead⟩) with
      | none => some s
      | some (registry, entry, added) => some
          { fs := { s.fs with registry }
            prunes := fun p => if added then (s.prunes p).note entry.id else s.prunes p
            commands := Function.update s.commands c (.building entry added) }
    | _ => none
  | .remove c target raw ans =>
    match s.commands c with
    | .idle =>
      match mutateWorktreeRegistry s.fs.registry ans fun entries => some (unregister target raw entries) with
      | none => some s
      | some (_, none) => some s
      | some (registry, some hit) => some
          { s with fs := { s.fs with registry }, commands := Function.update s.commands c (.deleting hit.id) }
    | _ => none
  | .command c ans =>
    let r := commandStep s.fs ans (s.commands c)
    some { s with fs := r.1, commands := Function.update s.commands c r.2 }

/-! ## What a prune may take -/

/-- The file is not there, or holds a registry. -/
def RegistryFile.WellFormed : RegistryFile → Prop
  | .absent => True
  | .text parsed => ∃ entries, parseEntries parsed = .ok entries

/-- The registered worktrees, whoever can read them. -/
def rows (fs : Overlays) : List WorktreeEntry := readWorktreeRegistry fs.registry true

/-- The prune itself judged this registration: it was not registered since. -/
def JudgedBy (me : Prune) (row : WorktreeEntry) : Prop := row ∈ me.judged ∧ row.id ∉ me.sinceStart

/-- A registration that goes was judged, and a directory that goes has no registration or a judged one. -/
structure Justified (me : Prune) (before after : Overlays) : Prop where
  rows : ∀ row ∈ rows before, row ∉ rows after → JudgedBy me row
  dirs : ∀ id ∈ before.dirs, id ∉ after.dirs →
    before.registry.WellFormed ∧ ∀ row ∈ Worktree.rows before, row.id = id → JudgedBy me row

/-- No row of the id is there since the prune last read the registry only. -/
def Unrenewed (fs : Overlays) (me : Prune) (id : JsString) : Prop :=
  ∀ row ∈ rows fs, row.id = id → id ∉ me.sinceRead

/-- The next step of the prune finds what it last read still true: the registry, where it
is read, is there to be read, and no id it is about to take was registered in between. -/
def ReadHolds (fs : Overlays) (me : Prune) (ans : Answer) : Prop :=
  match me.phase with
  | .judging [] verdicts => verdicts.keys.isEmpty = true ∨
      (fs.registry = .absent ∨ ans.readable = true) ∧ ∀ id, verdicts.has id = true → Unrenewed fs me id
  | .judging (_ :: _) _ | .listing .. | .sweeping _ _ [] _ | .deleting [] _ => True
  | .deleting (e :: _) _ => Unrenewed fs me e.id
  | .scanning _ => fs.registry = .absent ∨ ans.readable = true ∧ fs.registry.WellFormed
  | .sweeping _ live (d :: _) _ => d ∈ live ∨ Unrenewed fs me d
  | .idle | .finished _ | .thrown => ((rows fs).map WorktreeEntry.id).Nodup

/-- The condition on the steps of a run. -/
def PrunesKeepUp (s : OverlayState) : OverlayAct → Prop
  | .prune p ans => ReadHolds s.fs (s.prunes p) ans
  | _ => True

/-! ## What a mutation leaves -/

theorem stringField_obj (fields : List (JsString × Json)) (key : String) (v : JsString)
    (h : (fields.reverse.find? fun p => p.1 = ascii key).map Prod.snd = some (.str v)) :
    stringField key (.obj fields) = some v := by
  rw [stringField, Json.field, h]

theorem parseEntry_entryJson (e : WorktreeEntry) : parseEntry (entryJson e) = some e := by
  obtain ⟨path, id, createdAt, seedHead⟩ := e
  have hpath : stringField "path" (entryJson ⟨path, id, createdAt, seedHead⟩) = some path :=
    stringField_obj _ _ _ (by simp [ascii])
  have hid : stringField "id" (entryJson ⟨path, id, createdAt, seedHead⟩) = some id :=
    stringField_obj _ _ _ (by simp [ascii])
  have hcreated : stringField "created_at" (entryJson ⟨path, id, createdAt, seedHead⟩) = some createdAt :=
    stringField_obj _ _ _ (by simp [ascii])
  have hseed : stringField "seed_head" (entryJson ⟨path, id, createdAt, seedHead⟩) = seedHead := by
    cases seedHead with
    | none => simp [stringField, Json.field, entryJson, ascii]
    | some head => exact stringField_obj _ _ _ (by simp [ascii])
  simp only [parseEntry, hpath, hid, hcreated, hseed, Option.getD_some]

theorem parseEntries_registryJson (entries : List WorktreeEntry) :
    parseEntries (.ok (registryJson entries)) = .ok entries := by
  have hlist : (registryJson entries).field "worktrees" = some (.arr (entries.map entryJson)) := by
    simp [registryJson, Json.field, ascii]
  simp only [parseEntries, hlist, List.filterMap_map, Function.comp_def, parseEntry_entryJson, List.filterMap_some]

theorem read_subset_rows {fs : Overlays} {readable : Bool} {entries : List WorktreeEntry}
    (h : readWorktreeRegistryStrict fs.registry readable = .ok entries) : entries ⊆ rows fs := by
  unfold rows readWorktreeRegistry readWorktreeRegistryStrict
  unfold readWorktreeRegistryStrict at h
  cases hfile : fs.registry with
  | absent =>
    rw [hfile] at h
    cases h
    exact List.nil_subset _
  | text parsed =>
    rw [hfile] at h
    cases readable with
    | true =>
      simp only [if_true] at h ⊢
      rw [h]
      exact List.Subset.refl _
    | false =>
      cases h
      exact List.nil_subset _

/-- A read that finds the file where there is one finds the rows. -/
theorem read_eq_rows {fs : Overlays} {ans : Answer} {entries : List WorktreeEntry}
    (hread : fs.registry = .absent ∨ ans.readable = true)
    (h : readWorktreeRegistryStrict fs.registry ans.readable = .ok entries) : entries = rows fs := by
  unfold rows readWorktreeRegistry
  rcases hread with hread | hread
  · rw [hread] at h ⊢
    cases h
    rfl
  · rw [hread] at h
    rw [h]

/-- The file after a mutation holds what `fn` made of the rows that were read. -/
theorem mutate_eq_some {α : Type} {fs : Overlays} {ans : Answer}
    {fn : List WorktreeEntry → Option (List WorktreeEntry × α)} {registry : RegistryFile} {a : α}
    (h : mutateWorktreeRegistry fs.registry ans fn = some (registry, a)) :
    ∃ entries new, readWorktreeRegistryStrict fs.registry ans.readable = .ok entries ∧ fn entries = some (new, a) ∧
      registry = .text (.ok (registryJson new)) := by
  unfold mutateWorktreeRegistry at h
  split at h
  case h_1 => cases h
  case h_2 entries hread =>
    obtain ⟨⟨new, b⟩, hfn, hdone⟩ := Option.bind_eq_some_iff.1 h
    split at hdone
    · cases hdone
      exact ⟨entries, new, hread, hfn, rfl⟩
    · cases hdone

theorem rows_written (dirs : List JsString) (new : List WorktreeEntry) :
    rows ⟨.text (.ok (registryJson new)), dirs⟩ = new := by
  simp only [rows, readWorktreeRegistry, readWorktreeRegistryStrict, if_true, parseEntries_registryJson]

theorem wellFormed_written (new : List WorktreeEntry) : (RegistryFile.text (.ok (registryJson new))).WellFormed :=
  ⟨new, parseEntries_registryJson new⟩

/-! ## What holds of a prune on its way -/

/-- What the prune knows of the rows that were there when it last read the registry. -/
def Knows (fs : Overlays) (me : Prune) : Prop :=
  match me.phase with
  | .judging todo verdicts => (∀ id ∈ me.sinceStart, id ∈ me.sinceRead) ∧
      ∀ row ∈ rows fs, row.id ∉ me.sinceRead →
        (∀ e ∈ todo, e.id = row.id → e = row) ∧ (verdicts.has row.id = true → row ∈ me.judged)
  | .deleting todo _ => fs.registry.WellFormed ∧
      ∀ row ∈ rows fs, row.id ∉ me.sinceRead → ∀ e ∈ todo, e.id ≠ row.id
  | .listing _ live | .sweeping _ live _ _ => fs.registry.WellFormed ∧
      ∀ row ∈ rows fs, row.id ∉ me.sinceRead → row.id ∈ live
  | .idle | .scanning _ | .finished _ | .thrown => True

structure PruneInv (fs : Overlays) (me : Prune) : Prop where
  since : ∀ id ∈ me.sinceRead, id ∈ me.sinceStart
  knows : Knows fs me

/-- What a step of anyone else does to a prune: rows go, or one comes and is noted. -/
structure Beside (fs fs' : Overlays) (me me' : Prune) : Prop where
  noted : me' = me ∧ rows fs' ⊆ rows fs ∨ ∃ id, me' = me.note id ∧ ∀ row ∈ rows fs', row ∈ rows fs ∨ row.id = id
  wellFormed : fs.registry.WellFormed → fs'.registry.WellFormed

theorem Beside.refl (fs : Overlays) (dirs : List JsString) (me : Prune) : Beside fs { fs with dirs } me me :=
  ⟨.inl ⟨rfl, List.Subset.refl _⟩, id⟩

theorem pruneInv_beside {fs fs' : Overlays} {me me' : Prune} (hi : PruneInv fs me) (hb : Beside fs fs' me me') :
    PruneInv fs' me' := by
  -- what is there and was not registered since was there before
  have hold : me'.phase = me.phase ∧ me'.judged = me.judged ∧ (∀ id ∈ me'.sinceRead, id ∈ me'.sinceStart) ∧
      ((∀ id ∈ me.sinceStart, id ∈ me.sinceRead) → ∀ id ∈ me'.sinceStart, id ∈ me'.sinceRead) ∧
      ∀ row ∈ rows fs', row.id ∉ me'.sinceRead → row ∈ rows fs ∧ row.id ∉ me.sinceRead := by
    rcases hb.noted with ⟨rfl, hsub⟩ | ⟨id, rfl, hrows⟩
    · exact ⟨rfl, rfl, hi.since, fun h => h, fun row hrow hnew => ⟨hsub hrow, hnew⟩⟩
    · refine ⟨rfl, rfl, ?_, ?_, ?_⟩
      · intro x hx
        exact (List.mem_cons.1 hx).elim (fun h => h ▸ List.mem_cons_self)
          fun h => List.mem_cons_of_mem _ (hi.since x h)
      · intro h x hx
        exact (List.mem_cons.1 hx).elim (fun h => h ▸ List.mem_cons_self)
          fun hx => List.mem_cons_of_mem _ (h x hx)
      · intro row hrow hnew
        have hne := not_or.1 (mt List.mem_cons.2 hnew)
        exact ⟨(hrows row hrow).resolve_right hne.1, hne.2⟩
  obtain ⟨hphase, hjudged, hsince, hstart, hrows⟩ := hold
  refine ⟨hsince, ?_⟩
  have hknows := hi.knows
  unfold Knows at hknows ⊢
  rw [hphase, hjudged]
  cases hp : me.phase with
  | judging todo verdicts =>
    rw [hp] at hknows
    refine ⟨hstart hknows.1, fun row hrow hnew => ?_⟩
    exact hknows.2 row (hrows row hrow hnew).1 (hrows row hrow hnew).2
  | deleting todo removed =>
    rw [hp] at hknows
    exact ⟨hb.wellFormed hknows.1, fun row hrow hnew => hknows.2 row (hrows row hrow hnew).1 (hrows row hrow hnew).2⟩
  | listing removed live =>
    rw [hp] at hknows
    exact ⟨hb.wellFormed hknows.1, fun row hrow hnew => hknows.2 row (hrows row hrow hnew).1 (hrows row hrow hnew).2⟩
  | sweeping removed live todo orphanDirs =>
    rw [hp] at hknows
    exact ⟨hb.wellFormed hknows.1, fun row hrow hnew => hknows.2 row (hrows row hrow hnew).1 (hrows row hrow hnew).2⟩
  | idle | scanning | finished | thrown => trivial

/-! ## A step of the prune -/

variable {fs : Overlays} {me : Prune} {ans : Answer}

theorem pruneInv_begin (h : ((rows fs).map WorktreeEntry.id).Nodup) : PruneInv fs (pruneBegin fs ans) := by
  unfold pruneBegin
  split
  case h_1 => exact ⟨fun _ hid => absurd hid List.not_mem_nil, trivial⟩
  case h_2 entries hread =>
    refine ⟨fun _ hid => absurd hid List.not_mem_nil, fun _ hid => absurd hid List.not_mem_nil, ?_⟩
    intro row hrow _
    refine ⟨fun e he hid => ?_, fun hhas => ?_⟩
    · exact List.inj_on_of_nodup_map h (read_subset_rows hread he) hrow hid
    · simp [KeyedMap.has] at hhas

theorem has_noteVerdict {verdicts : KeyedMap JsString JsString} {e : WorktreeEntry} {v : WorktreeVerdict}
    {id : JsString} (h : (noteVerdict verdicts e v).has id = true) :
    verdicts.has id = true ∨ id = e.id ∧ (judge e v).isSome = true := by
  unfold noteVerdict at h
  cases hv : judge e v with
  | none =>
    rw [hv] at h
    exact .inl h
  | some reason =>
    rw [hv] at h
    by_cases hid : id = e.id
    · exact .inr ⟨hid, rfl⟩
    · left
      rwa [KeyedMap.has, KeyedMap.get_set_ne _ _ (Ne.symm hid)] at h

theorem mem_dropJudged {verdicts : KeyedMap JsString JsString} {entries : List WorktreeEntry} {e : WorktreeEntry} :
    e ∈ (dropJudged verdicts entries).1 ↔ e ∈ entries ∧ verdicts.has e.id = false := by
  simp [dropJudged]

theorem mem_dropJudged_removed {verdicts : KeyedMap JsString JsString} {entries : List WorktreeEntry} {e : WorktreeEntry}
    (h : e ∈ (dropJudged verdicts entries).2.map Prod.fst) : verdicts.has e.id = true := by
  simp only [dropJudged, List.map_map, Function.comp_def, List.map_id'] at h
  exact (List.mem_filter.1 h).2

/-- The step keeps what the prune knows, if its reading held. -/
theorem pruneInv_next (hi : PruneInv fs me) (hok : ReadHolds fs me ans) :
    PruneInv (pruneNext fs ans me).1 (pruneNext fs ans me).2 := by
  obtain ⟨phase, judged, sinceStart, sinceRead⟩ := me
  obtain ⟨hsince, hknows⟩ := hi
  have hnil : ∀ id ∈ ([] : List JsString), id ∈ sinceStart := fun _ h => absurd h List.not_mem_nil
  cases phase with
  | idle => exact pruneInv_begin hok
  | finished result => exact pruneInv_begin hok
  | thrown => exact pruneInv_begin hok
  | judging todo verdicts =>
    obtain ⟨hstart, hrows⟩ := hknows
    cases todo with
    | cons e todo =>
      refine ⟨hsince, hstart, fun row hrow hnew => ?_⟩
      obtain ⟨htodo, hjudged⟩ := hrows row hrow hnew
      refine ⟨fun e' he' => htodo e' (List.mem_cons_of_mem e he'), fun hhas => ?_⟩
      rcases has_noteVerdict hhas with hhas | ⟨hid, hinvalid⟩
      · exact List.mem_append_right _ (hjudged hhas)
      · refine List.mem_append_left _ ?_
        rw [htodo e List.mem_cons_self hid.symm] at hinvalid ⊢
        simp [judgedNow, hinvalid]
    | nil =>
      simp only [pruneNext, PrunePhase.atRest, Bool.false_eq_true, if_false, pruneStep, PrunePhase.reads, if_true]
      split
      · exact ⟨hnil, trivial⟩
      · rename_i hnonempty
        split
        case h_1 => exact ⟨hnil, trivial⟩
        case h_2 registry removed hmutate =>
          obtain ⟨entries, new, hread, hfn, rfl⟩ := mutate_eq_some hmutate
          obtain ⟨rfl, rfl⟩ := Prod.mk.inj (Option.some.inj hfn)
          refine ⟨hnil, wellFormed_written _, fun row hrow _ e he hid => ?_⟩
          rw [rows_written] at hrow
          have hkept := (mem_dropJudged.1 hrow).2
          rw [← hid, mem_dropJudged_removed he] at hkept
          cases hkept
  | deleting todo removed =>
    obtain ⟨hwf, hrows⟩ := hknows
    cases todo with
    | nil => exact ⟨hsince, trivial⟩
    | cons e todo =>
      simp only [pruneNext, PrunePhase.atRest, Bool.false_eq_true, if_false, pruneStep, PrunePhase.reads]
      split
      · exact ⟨hsince, hwf, fun row hrow hnew e' he' => hrows row hrow hnew e' (List.mem_cons_of_mem e he')⟩
      · exact ⟨hsince, trivial⟩
  | scanning removed =>
    have hwf : fs.registry.WellFormed := by
      rcases hok with habsent | ⟨-, hwf⟩
      · rw [habsent]
        trivial
      · exact hwf
    refine ⟨hnil, hwf, fun row hrow _ => ?_⟩
    have hread : readWorktreeRegistry fs.registry ans.readable = rows fs := by
      rcases hok with habsent | ⟨hreadable, -⟩
      · unfold rows
        rw [habsent]
        rfl
      · rw [hreadable]
        rfl
    show row.id ∈ (readWorktreeRegistry fs.registry ans.readable).map WorktreeEntry.id
    rw [hread]
    exact List.mem_map_of_mem hrow
  | listing removed live => exact ⟨hsince, hknows⟩
  | sweeping removed live todo orphanDirs =>
    cases todo with
    | nil => exact ⟨hsince, trivial⟩
    | cons d todo =>
      simp only [pruneNext, PrunePhase.atRest, Bool.false_eq_true, if_false, pruneStep, PrunePhase.reads]
      split
      · exact ⟨hsince, hknows⟩
      · split
        · exact ⟨hsince, hknows⟩
        · exact ⟨hsince, trivial⟩

theorem mem_removeOverlayFiles {dirs : List JsString} {id id' : JsString} (h : id ∈ dirs)
    (hgone : id ∉ removeOverlayFiles dirs id') : id = id' := by
  unfold removeOverlayFiles at hgone
  split at hgone
  · by_contra hne
    exact hgone (List.mem_filter.2 ⟨h, by simpa using hne⟩)
  · exact absurd h hgone

theorem justified_refl (me : Prune) (fs : Overlays) : Justified me fs fs :=
  ⟨fun _ h hgone => absurd h hgone, fun _ h hgone => absurd h hgone⟩

/-- A directory goes that no row names. -/
theorem justified_delete {id : JsString} (hwf : fs.registry.WellFormed) (h : ∀ row ∈ rows fs, row.id ≠ id) :
    Justified me fs { fs with dirs := removeOverlayFiles fs.dirs id } := by
  refine ⟨fun row hrow hgone => absurd hrow hgone, fun id' hid hgone => ⟨hwf, fun row hrow hrowid => ?_⟩⟩
  rw [mem_removeOverlayFiles hid hgone] at hrowid
  exact absurd hrowid (h row hrow)

/-- What the step takes was judged, if the reading held. -/
theorem justified_next (hi : PruneInv fs me) (hok : ReadHolds fs me ans) :
    Justified me fs (pruneNext fs ans me).1 := by
  obtain ⟨phase, judged, sinceStart, sinceRead⟩ := me
  obtain ⟨hsince, hknows⟩ := hi
  cases phase with
  | idle | finished | thrown => exact justified_refl _ _
  | scanning | listing => exact justified_refl _ _
  | judging todo verdicts =>
    cases todo with
    | cons e todo => exact justified_refl _ _
    | nil =>
      obtain ⟨hstart, hrows⟩ := hknows
      simp only [pruneNext, PrunePhase.atRest, Bool.false_eq_true, if_false, pruneStep]
      split
      · exact justified_refl _ _
      · rename_i hnonempty
        split
        case h_1 => exact justified_refl _ _
        case h_2 registry removed hmutate =>
          obtain ⟨entries, new, hread, hfn, rfl⟩ := mutate_eq_some hmutate
          obtain ⟨rfl, rfl⟩ := Prod.mk.inj (Option.some.inj hfn)
          obtain ⟨hreads, hunrenewed⟩ := Or.resolve_left hok hnonempty
          obtain rfl := read_eq_rows hreads hread
          refine ⟨fun row hrow hgone => ?_, fun _ h hgone => absurd h hgone⟩
          have hhas : verdicts.has row.id = true := by
            rw [rows_written] at hgone
            have hdropped := mt mem_dropJudged.2 hgone
            rw [not_and, Bool.not_eq_false] at hdropped
            exact hdropped hrow
          have hnew : row.id ∉ sinceRead := hunrenewed row.id hhas row hrow rfl
          exact ⟨(hrows row hrow hnew).2 hhas, fun h => hnew (hstart _ h)⟩
  | deleting todo removed =>
    obtain ⟨hwf, hrows⟩ := hknows
    cases todo with
    | nil => exact justified_refl _ _
    | cons e todo =>
      simp only [pruneNext, PrunePhase.atRest, Bool.false_eq_true, if_false, pruneStep]
      split
      · refine justified_delete hwf fun row hrow hid => ?_
        have hnew : row.id ∉ sinceRead := hid ▸ hok row hrow hid
        exact hrows row hrow hnew e List.mem_cons_self hid.symm
      · exact justified_refl _ _
  | sweeping removed live todo orphanDirs =>
    obtain ⟨hwf, hrows⟩ := hknows
    cases todo with
    | nil => exact justified_refl _ _
    | cons d todo =>
      simp only [pruneNext, PrunePhase.atRest, Bool.false_eq_true, if_false, pruneStep]
      split
      · exact justified_refl _ _
      · rename_i hdead
        split
        · have hlive : d ∉ live := fun h => hdead (by simp [h])
          refine justified_delete hwf fun row hrow hid => ?_
          have hnew : row.id ∉ sinceRead := hid ▸ Or.resolve_left hok hlive row hrow hid
          exact hlive (hid ▸ hrows row hrow hnew)
        · exact justified_refl _ _

/-! ## A step of anyone else -/

theorem beside_mutate {α : Type} {fn : List WorktreeEntry → Option (List WorktreeEntry × α)} {registry : RegistryFile}
    {a : α} (h : mutateWorktreeRegistry fs.registry ans fn = some (registry, a))
    (hfn : ∀ entries new, fn entries = some (new, a) → new ⊆ entries) (me : Prune) :
    Beside fs { fs with registry } me me := by
  obtain ⟨entries, new, hread, heq, rfl⟩ := mutate_eq_some h
  refine ⟨.inl ⟨rfl, ?_⟩, fun _ => wellFormed_written new⟩
  rw [rows_written]
  exact List.Subset.trans (hfn entries new heq) (read_subset_rows hread)

theorem beside_next (other : Prune) (me : Prune) : Beside fs (pruneNext fs ans other).1 me me := by
  obtain ⟨phase, judged, sinceStart, sinceRead⟩ := other
  have hrefl : Beside fs fs me me := Beside.refl fs fs.dirs me
  cases phase with
  | idle | finished | thrown | scanning | listing => exact hrefl
  | judging todo verdicts =>
    cases todo with
    | cons e todo => exact hrefl
    | nil =>
      simp only [pruneNext, PrunePhase.atRest, Bool.false_eq_true, if_false, pruneStep]
      split
      · exact hrefl
      · split
        case h_1 => exact hrefl
        case h_2 registry removed hmutate =>
          refine beside_mutate hmutate (fun entries new heq => ?_) me
          rw [← (Prod.mk.inj (Option.some.inj heq)).1]
          exact List.filter_sublist.subset
  | deleting todo removed =>
    cases todo with
    | nil => exact hrefl
    | cons e todo =>
      simp only [pruneNext, PrunePhase.atRest, Bool.false_eq_true, if_false, pruneStep]
      split
      · exact Beside.refl fs _ me
      · exact hrefl
  | sweeping removed live todo orphanDirs =>
    cases todo with
    | nil => exact hrefl
    | cons d todo =>
      simp only [pruneNext, PrunePhase.atRest, Bool.false_eq_true, if_false, pruneStep]
      split
      · exact hrefl
      · split
        · exact Beside.refl fs _ me
        · exact hrefl

theorem beside_command (phase : CommandPhase) (me : Prune) : Beside fs (commandStep fs ans phase).1 me me := by
  cases phase with
  | idle | ingesting => exact Beside.refl fs fs.dirs me
  | building entry added =>
    simp only [commandStep]
    split
    · exact Beside.refl fs _ me
    · exact Beside.refl fs fs.dirs me
  | withdrawing entry =>
    simp only [commandStep]
    split
    case h_1 => exact Beside.refl fs fs.dirs me
    case h_2 registry _ hmutate =>
      refine beside_mutate hmutate (fun entries new heq => ?_) me
      rw [← (Prod.mk.inj (Option.some.inj heq)).1]
      exact List.filter_sublist.subset
  | deleting id =>
    simp only [commandStep]
    split
    · exact Beside.refl fs _ me
    · exact Beside.refl fs fs.dirs me

theorem beside_register {entry hit : WorktreeEntry} {added : Bool} {registry : RegistryFile}
    (h : mutateWorktreeRegistry fs.registry ans (register entry) = some (registry, hit, added)) (me : Prune) :
    Beside fs { fs with registry } me (if added then me.note hit.id else me) := by
  obtain ⟨entries, new, hread, hfn, rfl⟩ := mutate_eq_some h
  have hsub := read_subset_rows hread
  refine ⟨?_, fun _ => wellFormed_written new⟩
  rw [rows_written]
  unfold register at hfn
  split at hfn
  · cases hfn
    exact .inl ⟨rfl, hsub⟩
  · split at hfn
    · cases hfn
    · cases hfn
      refine .inr ⟨_, rfl, fun row hrow => ?_⟩
      rcases List.mem_append.1 hrow with hrow | hrow
      · exact .inl (hsub hrow)
      · exact .inr (congrArg WorktreeEntry.id (List.mem_singleton.1 hrow))

theorem unregister_subset (target raw : JsString) (entries : List WorktreeEntry) :
    (unregister target raw entries).1 ⊆ entries := by
  unfold unregister
  split
  · exact List.erase_subset
  · exact List.Subset.refl _

/-! ## Runs -/

section Runs
variable {overlayId : JsString → JsString} {s t : OverlayState}

theorem pruneInv_step {a : OverlayAct} (hi : ∀ p, PruneInv s.fs (s.prunes p)) (hok : PrunesKeepUp s a)
    (h : overlayStep overlayId s a = some t) : ∀ p, PruneInv t.fs (t.prunes p) := by
  intro p
  cases a with
  | prune q ans =>
    obtain rfl := Option.some.inj h
    by_cases hp : p = q
    · subst hp
      simp only [Function.update_self]
      exact pruneInv_next (hi p) hok
    · simp only [Function.update_of_ne hp]
      exact pruneInv_beside (hi p) (beside_next (s.prunes q) (s.prunes p))
  | add c path createdAt seedHead ans =>
    simp only [overlayStep] at h
    split at h
    · split at h
      case h_1 =>
        obtain rfl := Option.some.inj h
        exact hi p
      case h_2 registry entry added hmutate =>
        obtain rfl := Option.some.inj h
        exact pruneInv_beside (hi p) (beside_register hmutate (s.prunes p))
    · cases h
  | remove c target raw ans =>
    simp only [overlayStep] at h
    split at h
    · split at h
      case h_1 | h_2 =>
        obtain rfl := Option.some.inj h
        exact hi p
      case h_3 registry hit hmutate =>
        obtain rfl := Option.some.inj h
        refine pruneInv_beside (hi p) (beside_mutate hmutate (fun entries new heq => ?_) (s.prunes p))
        rw [← (Prod.mk.inj (Option.some.inj heq)).1]
        exact unregister_subset target raw entries
    · cases h
  | command c ans =>
    obtain rfl := Option.some.inj h
    exact pruneInv_beside (hi p) (beside_command (s.commands c) (s.prunes p))

theorem pruneInv_start (fs : Overlays) (p : Nat) : PruneInv fs ((overlayStart fs).prunes p) :=
  ⟨fun _ h => absurd h List.not_mem_nil, trivial⟩

/-- Every step of a prune takes only what that prune judged. -/
def Spares (overlayId : JsString → JsString) (ok : OverlayState → OverlayAct → Prop) (fs : Overlays) : Prop :=
  ∀ s, Run (overlayStep overlayId) ok (overlayStart fs) s → ∀ p ans t, ok s (.prune p ans) →
    overlayStep overlayId s (.prune p ans) = some t → Justified (s.prunes p) s.fs t.fs

/-- In the runs whose prunes find their last reading still true, a prune takes only what it
judged; and what was registered since its last reading it cannot have judged. -/
theorem prune_spares (overlayId : JsString → JsString) (fs : Overlays) :
    Spares overlayId PrunesKeepUp fs ∧
      ∀ s, Run (overlayStep overlayId) PrunesKeepUp (overlayStart fs) s → ∀ p ans t,
        overlayStep overlayId s (.prune p ans) = some t →
        (∃ id ∈ s.fs.dirs, id ∉ t.fs.dirs ∧ ¬ Unrenewed s.fs (s.prunes p) id) →
          ¬ Justified (s.prunes p) s.fs t.fs := by
  have hinv : ∀ s, Run (overlayStep overlayId) PrunesKeepUp (overlayStart fs) s →
      ∀ p, PruneInv s.fs (s.prunes p) := by
    intro s hrun
    exact hrun.invariant (P := fun s => ∀ p, PruneInv s.fs (s.prunes p)) (pruneInv_start fs)
      fun _ _ _ hi hok hstep => pruneInv_step hi hok hstep
  constructor
  · intro s hrun p ans t hok hstep
    obtain rfl := Option.some.inj hstep
    exact justified_next (hinv s hrun p) hok
  · rintro s hrun p ans t - ⟨id, hid, hgone, hrenewed⟩ hjustified
    refine hrenewed fun row hrow hrowid hsince => ?_
    have hjudged := (hjustified.dirs id hid hgone).2 row hrow hrowid
    exact hjudged.2 (hrowid ▸ (hinv s hrun p).since id hsince)

end Runs

/-! ## A worktree added again -/

def goneEntry : WorktreeEntry := ⟨ascii "/w", ascii "0123456789ab", ascii "2026-01-01", none⟩

/-- One registered worktree and its overlay. -/
def oneOverlay : Overlays := ⟨.text (.ok (registryJson [goneEntry])), [goneEntry.id]⟩

def answers (verdict : WorktreeVerdict) (readable : Bool) : Answer := ⟨readable, verdict, true⟩

/-- The prune finds the worktree gone; before it takes the lock the worktree is removed and added again. -/
def readded : List OverlayAct :=
  [.prune 0 (answers (.unknown []) true), .prune 0 (answers (.invalid []) true),
    .remove 1 (ascii "/w") [] (answers (.unknown []) true), .command 1 (answers (.unknown []) true),
    .add 2 (ascii "/w") (ascii "2026-01-02") none (answers (.unknown []) true),
    .command 2 (answers (.unknown []) true)]

/-- The prune keeps the worktree, and then cannot read the registry. -/
def unread : List OverlayAct :=
  [.prune 0 (answers (.unknown []) true), .prune 0 (answers (.ok (ascii "/w")) true),
    .prune 0 (answers (.unknown []) true), .prune 0 (answers (.unknown []) false),
    .prune 0 (answers (.unknown []) true)]

/-- A prune drops a registration made after it asked git, and deletes a registered overlay
when it cannot read the registry. -/
theorem prune_deletes_registered :
    ¬ Spares (fun _ => goneEntry.id) (fun _ _ => True) oneOverlay ∧
      ∃ s t, runAll (overlayStep fun _ => goneEntry.id) (fun _ _ => true) (overlayStart oneOverlay) unread = some s ∧
        overlayStep (fun _ => goneEntry.id) s (.prune 0 (answers (.unknown []) true)) = some t ∧
        rows t.fs = [goneEntry] ∧ (s.prunes 0).judged = [] ∧ s.fs.dirs = [goneEntry.id] ∧ t.fs.dirs = [] := by
  constructor
  · intro h
    have hend : (runAll (overlayStep fun _ => goneEntry.id) (fun _ _ => true) (overlayStart oneOverlay) readded).map
        (fun s => (rows s.fs, (s.prunes 0).sinceStart,
          rows (pruneNext s.fs (answers (.unknown []) true) (s.prunes 0)).1)) =
          some ([{ goneEntry with createdAt := ascii "2026-01-02" }], [goneEntry.id], []) := by decide +kernel
    obtain ⟨s, hs, hshape⟩ := Option.map_eq_some_iff.1 hend
    simp only [Prod.mk.injEq] at hshape
    obtain ⟨hrows, hsince, hafter⟩ := hshape
    have hrun := @run_of_runAll _ _ _ (fun _ _ => True) _ (fun _ _ _ => trivial) _ _ _ hs
    have hjustified := h s hrun 0 (answers (.unknown []) true) _ trivial rfl
    have hrow : { goneEntry with createdAt := ascii "2026-01-02" } ∈ rows s.fs := hrows ▸ List.mem_cons_self
    have hjudged := hjustified.rows _ hrow (by rw [hafter]; exact List.not_mem_nil)
    exact hjudged.2 (hsince ▸ List.mem_cons_self)
  · have hend : (runAll (overlayStep fun _ => goneEntry.id) (fun _ _ => true) (overlayStart oneOverlay) unread).map
        (fun s => (rows (pruneNext s.fs (answers (.unknown []) true) (s.prunes 0)).1, (s.prunes 0).judged,
          s.fs.dirs, (pruneNext s.fs (answers (.unknown []) true) (s.prunes 0)).1.dirs)) =
          some ([goneEntry], [], [goneEntry.id], []) := by decide +kernel
    obtain ⟨s, hs, hshape⟩ := Option.map_eq_some_iff.1 hend
    simp only [Prod.mk.injEq] at hshape
    obtain ⟨hrows, hjudged, hdirs, hdirs'⟩ := hshape
    exact ⟨s, _, hs, rfl, hrows, hjudged, hdirs, hdirs'⟩

end Hayven.Worktree
