import Hayven.Daemon.RegistryLaws
import Hayven.Lib.Runs
/-!
# Sequences of registry operations

What each operation is about, that it leaves every other row alone, and that the list it
writes is clean, so that the rows survive any sequence of calls that are not about them.
-/
open Hayven.Lib

namespace Hayven.Daemon

section Host
variable {host : RegistryHost} {entries : List ProjectEntry}

/-! ## Rows an operation is about -/

/-- The row is the one that registering this root re-points. -/
def Repointed (host : RegistryHost) (abs : JsString) (blocked : List JsString) (entries : List ProjectEntry)
    (e : ProjectEntry) : Prop :=
  (∀ o ∈ entries, isAt host abs o = false) ∧ sameIdentity host (readProjectIdentity host abs) entries = [e] ∧
    looksUnmounted host e = false ∧ e.aliasName ∉ blocked

def RegistryOp.About (host : RegistryHost) (before entries : List ProjectEntry) (e : ProjectEntry) : RegistryOp → Prop
  | .register root _ blocked =>
    isAt host (absoluteRoot host root) e = true ∨ Repointed host (absoluteRoot host root) blocked entries e
  | .recordIdentities roots previous => host.isAbsolute e.root = true ∧
      ((foundIdentity host roots (host.rootKey e.root)).isSome = true ∨
        e.id = none ∧ (previousIdentity previous (host.rootKey e.root)).isSome = true)
  | .rename oldAlias _ _ => e.aliasName = oldAlias
  | .relocate name newRoot _ _ => e.aliasName = name ∨ isAt host (absoluteRoot host newRoot) e = true
  | .pruneStale _ => host.isAbsolute e.root = true ∧ (isRegistrableRoot host e.root = false ∨
      host.isDirectory e.root = false ∨ e.missingSince ≠ none ∨ (identityBefore host before e.root).isSome = true)
  | .pruneMissing minMissingMs nowMs _ => doomed host minMissingMs nowMs e = true
  | .unregister aliasOrRoot => (classifyUnregisterArg host aliasOrRoot).selects host e = true

/-- A written list is clean and has every row the operation is not about. -/
structure Keeps (host : RegistryHost) (entries next : List ProjectEntry) (about : ProjectEntry → Prop) : Prop where
  clean : Clean host next
  rows : ∀ e ∈ entries, ¬ about e → e ∈ next

/-! ## Registering -/

theorem wishOr_ne_nil {abs current : JsString} {wish : Option JsString} {others : List ProjectEntry}
    (h : current ≠ []) : wishOr host abs wish others current ≠ [] := by
  cases wish with
  | none => exact h
  | some name => exact deriveAlias_ne_nil _ _ _

theorem wishOr_fresh {abs current : JsString} {wish : Option JsString} {others : List ProjectEntry}
    (hroot : ∀ o ∈ others, o.root ≠ abs) (h : current ∉ others.map ProjectEntry.aliasName) :
    wishOr host abs wish others current ∉ others.map ProjectEntry.aliasName := by
  cases wish with
  | none => exact h
  | some name => exact deriveAlias_fresh hroot

/-- The rows that are not at a root have another one. -/
theorem root_ne_of_not_isAt {abs : JsString} (habs : host.isAbsolute abs = true) {e : ProjectEntry}
    (h : isAt host abs e = false) : e.root ≠ abs := by
  rintro rfl
  simp [isAt, sameRoot, habs] at h

theorem keeps_registerPlain (h : host.Documented) (hclean : Clean host entries) {abs : JsString}
    (habs : host.isAbsolute abs = true) (hat : ∀ o ∈ entries, isAt host abs o = false) (wish : Option JsString)
    (identity : Option Identity) (ambiguous : Option (ProjectEntry × AmbiguityReason)) {next : List ProjectEntry}
    (hnext : (registerPlain host abs wish identity ambiguous entries).1 = some next) (about : ProjectEntry → Prop) :
    Keeps host entries next about := by
  obtain rfl := Option.some.inj hnext
  have hperm := @sortEntries_perm host (entries ++ [⟨deriveAlias host abs wish entries, abs, identity, none⟩])
  refine ⟨clean_perm (clean_with h hclean habs rfl (deriveAlias_ne_nil _ _ _) (by simp) ?_ hat) hperm, ?_⟩
  · exact deriveAlias_fresh fun o ho => root_ne_of_not_isAt habs (hat o ho)
  · intro e he _
    exact hperm.symm.subset (List.mem_append_left _ he)

/-- A row taken out and one for the root put in. -/
theorem keeps_moved (h : host.Documented) (hclean : Clean host entries) {abs : JsString}
    (habs : host.isAbsolute abs = true) {old : ProjectEntry} (hold : old ∈ entries) {others : List ProjectEntry}
    (hsub : others.Sublist entries) (hnot : old ∉ others) (hat : ∀ o ∈ others, isAt host abs o = false)
    (wish : Option JsString) (id : Option Identity) {stamp : Option JsString} (hstamp : stamp ≠ some []) :
    Clean host (sortEntries host (others ++ [⟨wishOr host abs wish others old.aliasName, abs, id, stamp⟩])) := by
  refine clean_perm (clean_with h (clean_sublist hclean hsub) habs rfl ?_ hstamp ?_ hat) (sortEntries_perm _)
  · exact wishOr_ne_nil (hclean.rows old hold).named
  · refine wishOr_fresh (fun o ho => root_ne_of_not_isAt habs (hat o ho)) fun hmem => ?_
    obtain ⟨o, ho, hname⟩ := List.mem_map.1 hmem
    exact hnot (eq_of_aliasName hclean (hsub.subset ho) hold hname ▸ ho)

theorem keeps_register (h : host.Documented) (hclean : Clean host entries) {abs : JsString}
    (habs : host.isAbsolute abs = true) (wish : Option JsString) (blocked : List JsString) {next : List ProjectEntry}
    (hnext : (registerLocked host abs wish blocked entries).1 = some next) :
    Keeps host entries next fun e => isAt host abs e = true ∨ Repointed host abs blocked entries e := by
  unfold registerLocked at hnext
  dsimp only at hnext
  split at hnext
  case h_1 existing hfind =>
    have hmem := List.mem_of_find?_eq_some hfind
    have hexisting : isAt host abs existing = true := List.find?_some hfind
    split at hnext
    · cases hnext
    · obtain rfl := Option.some.inj hnext
      have hothers : ∀ o ∈ entries.filter (fun e => ! isAt host abs e), isAt host abs o = false := by
        intro o ho
        simpa using (List.mem_filter.1 ho).2
      refine ⟨keeps_moved h hclean habs hmem List.filter_sublist ?_ hothers wish _ (hclean.rows _ hmem).stamped, ?_⟩
      · exact fun hin => absurd (hothers _ hin) (by simp [hexisting])
      · intro e he hnot
        refine (sortEntries_perm _).symm.subset (List.mem_append_left _ (List.mem_filter.2 ⟨he, ?_⟩))
        simpa using fun hat => hnot (.inl hat)
  case h_2 hfind =>
    have hat : ∀ o ∈ entries, isAt host abs o = false := fun o ho => by
      simpa using List.find?_eq_none.1 hfind o ho
    split at hnext
    · exact keeps_registerPlain h hclean habs hat _ _ _ hnext _
    case h_2 moved hsame =>
      have hmoved : moved ∈ entries := by
        have : moved ∈ sameIdentity host (readProjectIdentity host abs) entries := hsame ▸ List.mem_cons_self
        unfold sameIdentity at this
        split at this
        · exact absurd this List.not_mem_nil
        · exact (List.mem_filter.1 this).1
      split at hnext
      · rename_i hmovable
        simp only [Bool.and_eq_true, Bool.not_eq_true', List.contains_eq_mem, decide_eq_false_iff_not] at hmovable
        obtain rfl := Option.some.inj hnext
        refine ⟨keeps_moved h hclean habs hmoved List.filter_sublist ?_ ?_ wish _ (by simp), ?_⟩
        · simp
        · exact fun o ho => hat o (List.mem_filter.1 ho).1
        · intro e he hnot
          refine (sortEntries_perm _).symm.subset (List.mem_append_left _ (List.mem_filter.2 ⟨he, ?_⟩))
          refine decide_eq_true fun heq => hnot (.inr ?_)
          subst heq
          exact ⟨hat, hsame, hmovable.1, hmovable.2⟩
      · exact keeps_registerPlain h hclean habs hat _ _ _ hnext _
    · exact keeps_registerPlain h hclean habs hat _ _ _ hnext _

/-! ## Identities -/

theorem recordEntry_aliasName (roots : List JsString) (previous : List (JsString × Identity)) (e : ProjectEntry) :
    (recordEntry host roots previous e).aliasName = e.aliasName ∧ (recordEntry host roots previous e).root = e.root ∧
      (recordEntry host roots previous e).missingSince = e.missingSince := by
  unfold recordEntry
  dsimp only
  split
  · split
    · exact ⟨rfl, rfl, rfl⟩
    · split <;> exact ⟨rfl, rfl, rfl⟩
  · exact ⟨rfl, rfl, rfl⟩

theorem keeps_record (hclean : Clean host entries) (roots : List JsString) (previous : List (JsString × Identity))
    {next : List ProjectEntry} (hnext : (recordLocked host roots previous entries).1 = some next) :
    Keeps host entries next fun e => RegistryOp.About host [] entries e (.recordIdentities roots previous) := by
  unfold recordLocked at hnext
  dsimp only at hnext
  split at hnext
  · obtain rfl := Option.some.inj hnext
    refine ⟨clean_map hclean (fun e => (recordEntry_aliasName roots previous e).1)
      (fun e => (recordEntry_aliasName roots previous e).2.1)
      (fun e he => (recordEntry_aliasName roots previous e).2.2 ▸ he.stamped), fun e he hnot => ?_⟩
    have hsame : recordEntry host roots previous e = e := by
      unfold recordEntry
      dsimp only
      split
      · rename_i habs
        have hnone : foundIdentity host roots (host.rootKey e.root) = none := by
          by_contra hsome
          exact hnot ⟨habs, .inl (Option.isSome_iff_ne_none.2 hsome)⟩
        have hprevious : (if e.id.isNone then previousIdentity previous (host.rootKey e.root) else none) = none := by
          split
          · rename_i hid
            by_contra hsome
            exact hnot ⟨habs, .inr ⟨Option.isNone_iff_eq_none.1 hid, Option.isSome_iff_ne_none.2 hsome⟩⟩
          · rfl
        rw [hnone, hprevious]
        rfl
      · rfl
    exact List.mem_map.2 ⟨e, he, hsame⟩
  · cases hnext

/-! ## Renaming and relocating -/

theorem findAlias_ok {name : JsString} {e : ProjectEntry} (h : findAlias name entries = .ok e) :
    e ∈ entries ∧ e.aliasName = name := by
  unfold findAlias at h
  split at h
  · cases h
  · rename_i hfind
    cases h
    have hname := List.find?_some hfind
    exact ⟨List.mem_of_find?_eq_some hfind, of_decide_eq_true hname⟩

theorem bind_eq_ok {ε α β : Type} {x : Except ε α} {f : α → Except ε β} {b : β} (h : x.bind f = .ok b) :
    ∃ a, x = .ok a ∧ f a = .ok b := by
  cases x with
  | error _ => cases h
  | ok a => exact ⟨a, rfl, h⟩

theorem of_ite_error {ε α : Type} {c : Prop} [Decidable c] {err : ε} {x : Except ε α} {a : α}
    (h : (if c then .error err else x) = .ok a) : x = .ok a := by
  by_cases hc : c
  · rw [if_pos hc] at h
    cases h
  · rwa [if_neg hc] at h

theorem mem_replaceEntry {previous entry e : ProjectEntry} (he : e ∈ entries) (hne : e ≠ previous) :
    e ∈ replaceEntry host previous entry entries :=
  (sortEntries_perm _).symm.subset (List.mem_map.2 ⟨e, he, if_neg hne⟩)

theorem keeps_rename (hclean : Clean host entries) {oldAlias newAlias : JsString} {dryRun : Bool}
    {next : List ProjectEntry} {change : RegistryChange}
    (hnext : renameLocked host oldAlias newAlias dryRun entries = .ok (some next, change)) :
    Keeps host entries next fun e => e.aliasName = oldAlias := by
  unfold renameLocked at hnext
  dsimp only at hnext
  split at hnext
  · cases hnext
  · obtain ⟨previous, hprevious, hnext⟩ := bind_eq_ok hnext
    obtain ⟨hmem, hname⟩ := findAlias_ok hprevious
    split at hnext
    · cases hnext
    · split at hnext
      · cases hnext
      · rename_i hfree
        split at hnext
        · cases hnext
        · cases hnext
          have hperm := @replaceEntry_perm host entries (nodup_of_clean hclean) previous
            { previous with aliasName := sanitizeAlias host (Graph.trim newAlias) } hmem
          refine ⟨clean_perm (clean_append (clean_sublist hclean List.filter_sublist) ?_ ?_ ?_) hperm, ?_⟩
          · have hrow := hclean.rows previous hmem
            exact ⟨sanitizeAlias_ne_nil _, hrow.rooted, hrow.expanded, hrow.stamped⟩
          · intro hin
            obtain ⟨o, ho, hsame⟩ := List.mem_map.1 hin
            exact List.find?_eq_none.1 hfree o (List.mem_filter.1 ho).1 (decide_eq_true hsame)
          · intro hin
            obtain ⟨o, ho, hkey⟩ := List.mem_map.1 hin
            obtain ⟨ho, hne⟩ := List.mem_filter.1 ho
            exact of_decide_eq_true hne (List.inj_on_of_nodup_map hclean.roots ho hmem hkey)
          · intro e he hnot
            exact mem_replaceEntry he fun heq => hnot (heq ▸ hname)

/-- What a relocation that writes has found and writes. -/
theorem relocateLocked_ok {name abs : JsString} {force dryRun : Bool} {before : Option ProjectEntry}
    {next : List ProjectEntry} {change : RegistryChange}
    (hnext : relocateLocked host name abs force dryRun before entries = .ok (some next, change)) :
    ∃ previous ∈ entries, previous.aliasName = name ∧
      next = replaceEntry host previous ⟨name, abs, readProjectIdentity host abs <|> previous.id, none⟩
        (entries.filter fun e => some e ≠ entries.find? fun e => e ≠ previous && isAt host abs e) := by
  unfold relocateLocked at hnext
  dsimp only at hnext
  obtain ⟨previous, hprevious, hnext⟩ := bind_eq_ok hnext
  obtain ⟨hmem, hname⟩ := findAlias_ok hprevious
  refine ⟨previous, hmem, hname, ?_⟩
  replace hnext := of_ite_error hnext
  generalize (if force = true then none else identitiesDiffer previous.id (readProjectIdentity host abs)) = own at hnext
  cases own with
  | some ids => cases hnext
  | none =>
    dsimp only at hnext
    generalize (if force = true then none else identitiesDiffer
      ((entries.find? fun e => e ≠ previous && isAt host abs e).bind ProjectEntry.id)
        (readProjectIdentity host abs)) = folded at hnext
    cases folded with
    | some ids => cases hnext
    | none =>
      dsimp only at hnext
      split at hnext
      · cases hnext
      · have hpair := Except.ok.inj hnext
        cases dryRun with
        | true => cases hpair
        | false => exact (Option.some.inj (congrArg Prod.fst hpair)).symm

theorem keeps_relocate (h : host.Documented) (hclean : Clean host entries) {name abs : JsString}
    (habs : host.isAbsolute abs = true) {force dryRun : Bool} {before : Option ProjectEntry}
    {next : List ProjectEntry} {change : RegistryChange}
    (hnext : relocateLocked host name abs force dryRun before entries = .ok (some next, change)) :
    Keeps host entries next fun e => e.aliasName = name ∨ isAt host abs e = true := by
  obtain ⟨previous, hmem, hname, rfl⟩ := relocateLocked_ok hnext
  generalize hreplaced : entries.find? (fun e => e ≠ previous && isAt host abs e) = replaced
  have hkeptmem : ∀ e, e ∈ entries.filter (fun e => some e ≠ replaced) ↔ e ∈ entries ∧ some e ≠ replaced := by
    simp
  have hprev : previous ∈ entries.filter (fun e => some e ≠ replaced) := by
    refine (hkeptmem previous).2 ⟨hmem, fun heq => ?_⟩
    have hfound := List.find?_some (hreplaced.trans heq.symm)
    simp at hfound
  have hkept := clean_sublist hclean (@List.filter_sublist _ (fun e => some e ≠ replaced) entries)
  -- whatever else is at the root was replaced
  have hat : ∀ o ∈ (entries.filter (fun e => some e ≠ replaced)).filter (fun e => e ≠ previous),
      isAt host abs o = false := by
    intro o ho
    obtain ⟨hin, hne⟩ := List.mem_filter.1 ho
    obtain ⟨hmem', hnot⟩ := (hkeptmem o).1 hin
    by_contra hto
    rw [Bool.not_eq_false] at hto
    cases replaced with
    | none =>
      have := List.find?_eq_none.1 hreplaced o hmem'
      exact this (by simp [hto, of_decide_eq_true hne])
    | some r =>
      have hr := List.mem_of_find?_eq_some hreplaced
      have hfound := List.find?_some hreplaced
      simp only [Bool.and_eq_true] at hfound
      have heq := List.inj_on_of_nodup_map hclean.roots hmem' hr
        ((repoKey_of_isAt hto).trans (repoKey_of_isAt hfound.2).symm)
      exact hnot (congrArg some heq)
  have hperm := @replaceEntry_perm host _ (nodup_of_clean hkept) previous
    ⟨name, abs, readProjectIdentity host abs <|> previous.id, none⟩ hprev
  refine ⟨clean_perm (clean_with h (clean_sublist hkept List.filter_sublist) habs rfl ?_ (by simp) ?_ hat) hperm, ?_⟩
  · exact hname ▸ (hclean.rows previous hmem).named
  · intro hin
    obtain ⟨o, ho, hsame⟩ := List.mem_map.1 hin
    obtain ⟨ho, hne⟩ := List.mem_filter.1 ho
    exact of_decide_eq_true hne (eq_of_aliasName hclean ((hkeptmem o).1 ho).1 hmem (hsame.trans hname.symm))
  · intro e he hnot
    refine mem_replaceEntry ((hkeptmem e).2 ⟨he, ?_⟩) fun heq => hnot (.inl (heq ▸ hname))
    intro heq
    have hfound := List.find?_some (hreplaced.trans heq.symm)
    simp only [Bool.and_eq_true] at hfound
    exact hnot (.inr hfound.2)

/-! ## Pruning and unregistering -/

theorem pruneEntry_some {before : List ProjectEntry} {nowMs : Int} {e e' : ProjectEntry}
    (he : pruneEntry host before nowMs e = some e') :
    e'.aliasName = e.aliasName ∧ e'.root = e.root ∧ (e'.missingSince = e.missingSince ∨ e'.missingSince = none ∨
      e'.missingSince = some (host.toISOString nowMs)) := by
  unfold pruneEntry at he
  split at he
  · cases he
    exact ⟨rfl, rfl, .inl rfl⟩
  · split at he
    · cases he
    · split at he
      · cases he
        exact ⟨rfl, rfl, .inr (.inl rfl)⟩
      · split at he
        · split at he
          · cases he
          · cases he
            exact ⟨rfl, rfl, .inl rfl⟩
        · cases he
          exact ⟨rfl, rfl, .inr (.inr rfl)⟩

theorem filterMap_map_sublist {α β : Type} {f : α → Option α} {g : α → β} (h : ∀ a b, f a = some b → g b = g a)
    (l : List α) : ((l.filterMap f).map g).Sublist (l.map g) := by
  induction l with
  | nil => exact List.Sublist.refl _
  | cons a l ih =>
    cases hf : f a with
    | none =>
      rw [List.filterMap_cons_none hf]
      exact ih.cons _
    | some b =>
      rw [List.filterMap_cons_some hf, List.map_cons, List.map_cons, h a b hf]
      exact ih.cons_cons _

theorem keeps_pruneStale (h : host.Documented) (hclean : Clean host entries) {before : List ProjectEntry} {nowMs : Int}
    {next : List ProjectEntry} (hnext : (pruneStaleLocked host before nowMs entries).1 = some next) :
    Keeps host entries next fun e => RegistryOp.About host before entries e (.pruneStale nowMs) := by
  unfold pruneStaleLocked at hnext
  dsimp only at hnext
  split at hnext
  · obtain rfl := Option.some.inj hnext
    refine ⟨⟨fun e' he' => ?_, ?_, ?_⟩, fun e he hnot => ?_⟩
    · obtain ⟨e, he, hkept⟩ := List.mem_filterMap.1 he'
      obtain ⟨hname, hroot, hstamp⟩ := pruneEntry_some hkept
      have hrow := hclean.rows e he
      refine ⟨hname ▸ hrow.named, hroot ▸ hrow.rooted, hroot ▸ hrow.expanded, ?_⟩
      rcases hstamp with hstamp | hstamp | hstamp
      · exact hstamp ▸ hrow.stamped
      · simp [hstamp]
      · rw [hstamp]
        exact fun heq => h.isoString_ne_nil nowMs (Option.some.inj heq)
    · exact hclean.aliases.sublist (filterMap_map_sublist (fun a b hab => (pruneEntry_some hab).1) entries)
    · exact hclean.roots.sublist
        (filterMap_map_sublist (fun a b hab => repoKey_congr (pruneEntry_some hab).2.1) entries)
    · refine List.mem_filterMap.2 ⟨e, he, ?_⟩
      unfold pruneEntry
      split
      · rfl
      · rename_i habs
        have hquiet := (not_and.1 hnot) (by simpa using habs)
        simp only [not_or, Bool.not_eq_false, ne_eq, not_not, Bool.not_eq_true] at hquiet
        obtain ⟨hreg, hdir, hstamp, hid⟩ := hquiet
        rw [if_neg (by simp [hreg]), if_pos hdir, Option.isSome_eq_false_iff.1 hid |> Option.isNone_iff_eq_none.1]
        obtain ⟨name, root, id, missing⟩ := e
        cases hstamp
        rfl
  · cases hnext

theorem keeps_pruneMissing (hclean : Clean host entries) {minMissingMs nowMs : Int} {dryRun : Bool}
    {next : List ProjectEntry} (hnext : (pruneMissingLocked host minMissingMs nowMs dryRun entries).1 = some next) :
    Keeps host entries next fun e => doomed host minMissingMs nowMs e = true := by
  unfold pruneMissingLocked at hnext
  dsimp only at hnext
  split at hnext
  · cases hnext
  · obtain rfl := Option.some.inj hnext
    refine ⟨clean_sublist hclean List.filter_sublist, fun e he hnot => List.mem_filter.2 ⟨he, ?_⟩⟩
    simp only [List.contains_eq_mem, Bool.not_eq_true', decide_eq_false_iff_not, List.mem_filter, not_and]
    exact fun _ => hnot

theorem keeps_unregister (hclean : Clean host entries) {aliasOrRoot : JsString} {next : List ProjectEntry}
    (hnext : (unregisterLocked host aliasOrRoot entries).1 = some next) :
    Keeps host entries next fun e => (classifyUnregisterArg host aliasOrRoot).selects host e = true := by
  unfold unregisterLocked at hnext
  dsimp only at hnext
  split at hnext
  · cases hnext
  · obtain rfl := Option.some.inj hnext
    exact ⟨clean_sublist hclean List.filter_sublist, fun e he hnot => List.mem_filter.2 ⟨he, by simpa using hnot⟩⟩

theorem map_eq_ok {ε α β : Type} {x : Except ε α} {f : α → β} {b : β} (h : x.map f = .ok b) :
    ∃ a, x = .ok a ∧ f a = b := by
  cases x with
  | error _ => cases h
  | ok a => exact ⟨a, rfl, Except.ok.inj h⟩

theorem absoluteRoot_absolute (h : host.Documented) (root : JsString) :
    host.isAbsolute (absoluteRoot host root) = true :=
  h.canonical_absolute _

/-- Whatever an operation writes over clean entries is clean and has the rows it is not about. -/
theorem keeps_locked (h : host.Documented) (hclean : Clean host entries) {op : RegistryOp}
    {before next : List ProjectEntry} (hop : op.locked host before entries = .ok (some next)) :
    Keeps host entries next fun e => op.About host before entries e := by
  cases op with
  | register root wish blocked =>
    obtain ⟨-, -, hop⟩ := bind_eq_ok hop
    exact keeps_register h hclean (absoluteRoot_absolute h root) _ blocked (Except.ok.inj hop)
  | recordIdentities roots previous => exact keeps_record hclean roots previous (Except.ok.inj hop)
  | rename oldAlias newAlias dryRun =>
    obtain ⟨⟨_, change⟩, hlocked, rfl⟩ := map_eq_ok hop
    exact keeps_rename hclean hlocked
  | relocate name newRoot force dryRun =>
    obtain ⟨-, -, hop⟩ := bind_eq_ok hop
    obtain ⟨⟨_, change⟩, hlocked, rfl⟩ := map_eq_ok (of_ite_error (of_ite_error hop))
    exact keeps_relocate h hclean (absoluteRoot_absolute h newRoot) hlocked
  | pruneStale nowMs => exact keeps_pruneStale h hclean (Except.ok.inj hop)
  | pruneMissing minMissingMs nowMs dryRun => exact keeps_pruneMissing hclean (Except.ok.inj hop)
  | unregister aliasOrRoot => exact keeps_unregister hclean (Except.ok.inj hop)

/-! ## Calls -/

/-- The file is there, and this call takes it for an empty registry. -/
def RegistryCall.Unread (call : RegistryCall) (file : ProjectsFile) : Prop :=
  file ≠ .absent ∧ (call.readable = false ∨ file = .text none)

/-- A registration whose root is accepted and whose write succeeds. -/
def RegistryCall.Registers (call : RegistryCall) : Prop :=
  (∃ root wish blocked, call.op = .register root wish blocked ∧
    assertRegistrableRoot call.host (absoluteRoot call.host root) = .ok ()) ∧ call.done = true

def RegistryCall.About (call : RegistryCall) (file : ProjectsFile) (e : ProjectEntry) : Prop :=
  call.op.About call.host (readRegistryRaw call.host file call.readableBefore)
    (readRegistryRaw call.host file call.readable) e

/-- No registration over a file that is there and was not read. -/
structure CallOk (file : ProjectsFile) (call : RegistryCall) : Prop where
  host : call.host.Documented
  read : call.Registers → ¬ call.Unread file

/-- What a call leaves alone. -/
structure RegistryCall.Spares (call : RegistryCall) (file : ProjectsFile) : Prop where
  rows : ∀ e ∈ readRegistryRaw call.host file true, ¬ call.About file e →
    e ∈ readRegistryRaw call.host (call.apply file) true
  file : call.Unread file → call.apply file = file

theorem projectRows_unread {call : RegistryCall} {file : ProjectsFile} (h : call.Unread file) :
    projectRows file call.readable = [] := by
  obtain ⟨-, hread | rfl⟩ := h
  · unfold projectRows
    split
    · split
      · rw [hread]
        rfl
      · rfl
    · rfl
  · rfl

theorem read_unread {call : RegistryCall} {file : ProjectsFile} (h : call.Unread file) :
    readRegistryRaw call.host file call.readable = [] := by
  unfold readRegistryRaw
  rw [projectRows_unread h]
  rfl

theorem writes_eq_some {call : RegistryCall} {file : ProjectsFile} {next : List ProjectEntry} :
    call.writes file = some next ↔
      call.op.locked call.host (readRegistryRaw call.host file call.readableBefore)
        (readRegistryRaw call.host file call.readable) = .ok (some next) ∧ call.done = true := by
  unfold RegistryCall.writes
  cases call.op.locked call.host (readRegistryRaw call.host file call.readableBefore)
      (readRegistryRaw call.host file call.readable) with
  | error err => simp
  | ok written => cases call.done <;> simp

/-- Registering is the only operation that writes over no entries. -/
theorem locked_nil {op : RegistryOp} {before next : List ProjectEntry}
    (hop : op.locked host before [] = .ok (some next)) :
    ∃ root wish blocked, op = .register root wish blocked ∧
      assertRegistrableRoot host (absoluteRoot host root) = .ok () := by
  cases op with
  | register root wish blocked =>
    obtain ⟨_, hroot, -⟩ := bind_eq_ok hop
    exact ⟨root, wish, blocked, rfl, hroot⟩
  | recordIdentities roots previous => cases Except.ok.inj hop
  | rename oldAlias newAlias dryRun =>
    obtain ⟨_, hlocked, -⟩ := map_eq_ok hop
    obtain ⟨_, hfound, -⟩ := bind_eq_ok (of_ite_error hlocked)
    cases hfound
  | relocate name newRoot force dryRun =>
    obtain ⟨-, -, hop⟩ := bind_eq_ok hop
    obtain ⟨⟨_, change⟩, hlocked, rfl⟩ := map_eq_ok (of_ite_error (of_ite_error hop))
    obtain ⟨previous, hmem, -⟩ := relocateLocked_ok hlocked
    exact absurd hmem List.not_mem_nil
  | pruneStale nowMs => cases Except.ok.inj hop
  | pruneMissing minMissingMs nowMs dryRun => cases dryRun <;> cases Except.ok.inj hop
  | unregister aliasOrRoot => cases Except.ok.inj hop

theorem registerLocked_nil (abs : JsString) (wish : Option JsString) (blocked : List JsString) :
    ∃ next, (registerLocked host abs wish blocked []).1 = some next := by
  unfold registerLocked sameIdentity
  dsimp only [List.find?_nil]
  cases readProjectIdentity host abs with
  | none => exact ⟨_, rfl⟩
  | some id => exact ⟨_, rfl⟩

/-- A call that took the file for an empty registry writes exactly if it registers. -/
theorem writes_unread {call : RegistryCall} {file : ProjectsFile} (h : call.Unread file) :
    call.writes file = none ↔ ¬ call.Registers := by
  rw [← not_iff_not, not_not, ← ne_eq, Option.ne_none_iff_exists']
  constructor
  · rintro ⟨next, hnext⟩
    obtain ⟨hop, hdone⟩ := writes_eq_some.1 hnext
    rw [read_unread h] at hop
    exact ⟨locked_nil hop, hdone⟩
  · rintro ⟨⟨root, wish, blocked, hregister, hroot⟩, hdone⟩
    obtain ⟨next, hnext⟩ := @registerLocked_nil call.host (absoluteRoot call.host root) (wish.filter (· ≠ [])) blocked
    refine ⟨next, writes_eq_some.2 ⟨?_, hdone⟩⟩
    rw [read_unread h, hregister]
    unfold RegistryOp.locked
    dsimp only
    rw [hroot]
    exact congrArg Except.ok hnext

/-- What is not about a row leaves it, whatever the presence answers are. -/
theorem call_spares {call : RegistryCall} {file : ProjectsFile} (hok : CallOk file call) : call.Spares file := by
  constructor
  · intro e he hnot
    unfold RegistryCall.apply
    cases hwrites : call.writes file with
    | none => exact he
    | some next =>
      have hread : ¬ call.Unread file := fun hunread => by
        have hregisters : ¬ call.Registers := fun hr => hok.read hr hunread
        rw [(writes_unread hunread).2 hregisters] at hwrites
        cases hwrites
      have hkeeps := keeps_locked hok.host (read_clean hok.host file call.readable) (writes_eq_some.1 hwrites).1
      dsimp only
      rw [read_written hkeeps.clean]
      refine hkeeps.rows e ?_ hnot
      -- an absent file reads the same either way
      cases file with
      | absent => exact he
      | text parsed =>
        have hreadable : call.readable = true := by
          by_contra hno
          exact hread ⟨(fun heq => by cases heq), .inl (Bool.eq_false_iff.2 hno)⟩
        rwa [hreadable]
  · intro hunread
    unfold RegistryCall.apply
    rw [(writes_unread hunread).2 fun hregisters => hok.read hregisters hunread]

/-! ## Sequences of calls -/

def registryStep (file : ProjectsFile) (call : RegistryCall) : Option ProjectsFile := some (call.apply file)

/-- A call under the condition that is not about a row, and reads files as this host does. -/
structure Passes (host : RegistryHost) (e : ProjectEntry) (file : ProjectsFile) (call : RegistryCall) : Prop where
  ok : CallOk file call
  reads : ∀ other, readRegistryRaw call.host other true = readRegistryRaw host other true
  spared : ¬ call.About file e

/-- A row outlives any sequence of calls that are not about it. -/
theorem row_survives {e : ProjectEntry} {file file' : ProjectsFile} (he : e ∈ readRegistryRaw host file true)
    (hrun : Run registryStep (Passes host e) file file') : e ∈ readRegistryRaw host file' true := by
  refine Run.invariant (P := fun f => e ∈ readRegistryRaw host f true) hrun he fun f call f' hmem hpass hstep => ?_
  cases hstep
  have hspares := (call_spares hpass.ok).rows e
  rw [hpass.reads, hpass.reads] at hspares
  exact hspares hmem hpass.spared

end Host

/-- From any file, over any sequence of calls: what is read back has distinct aliases and roots; an
alias that no other row carries is kept exactly if no repeated alias is repaired to it; and a call
leaves every row it is not about, and a file it could not read, as they are. -/
theorem registry_keeps_rows (file : ProjectsFile) :
    (∀ host r, host.Documented → Clean host (readRegistryRaw host file r)) ∧
      (∀ host r, host.Documented → (AliasesKept host (usableRows host (projectRows file r)) ↔
        NoTheft host (usableRows host (projectRows file r)))) ∧
      (∀ call : RegistryCall, call.Unread file → (call.writes file = none ↔ ¬ call.Registers)) ∧
      (∀ file', Run registryStep CallOk file file' → ∀ call, CallOk file' call → call.Spares file') ∧
      ∀ host, ∀ e ∈ readRegistryRaw host file true, ∀ file', Run registryStep (Passes host e) file file' →
        e ∈ readRegistryRaw host file' true := by
  refine ⟨fun host r h => read_clean h file r, fun host r h => ?_, fun call => writes_unread,
    fun _ _ call hok => call_spares hok, fun host e he file' hrun => row_survives he hrun⟩
  exact aliasesKept_iff (usableRows_rowOk h _) (usableRows_nodup _)

/-! ## The rows that are lost -/

/-- A host with one directory, no identities and paths that start with a slash. -/
def posixHost : RegistryHost where
  isAbsolute p := p.head? = some 0x2F
  resolve p := if p.head? = some 0x2F then p else 0x2F :: p
  join a b := a ++ ascii "/" ++ b
  basename p := (p.reverse.takeWhile (· ≠ 0x2F)).reverse
  dirname _ := ascii "/"
  homedir := ascii "/home"
  hayvenHomeDir := ascii "/home"
  canonicalRoot p := if p.head? = some 0x2F then p else 0x2F :: p
  rootKey p := if p.head? = some 0x2F then p else 0x2F :: p
  isDirectory p := p = ascii "/r4"
  config _ := none
  toLowerCase s := s
  localeCompare a b := compareOfLessAndEq a b
  dateParse _ := none
  toISOString _ := ascii "1970-01-01T00:00:00.000Z"

theorem slash_head (p : JsString) : (if p.head? = some 0x2F then p else 0x2F :: p : JsString).head? = some 0x2F := by
  split
  · assumption
  · rfl

theorem posixHost_documented : posixHost.Documented where
  canonical_absolute p := decide_eq_true (slash_head p)
  rootKey_canonical p := if_pos (slash_head p)
  key_resolvable p r hp heq := by
    have hhead := congrArg List.head? heq
    rw [show posixHost.rootKey p = p from if_pos (of_decide_eq_true hp), of_decide_eq_true hp] at hhead
    simp [ascii] at hhead
  absolute_head p hp := by
    have hhead : p.head? = some 0x2F := of_decide_eq_true hp
    refine ⟨fun hnil => ?_, fun heq => ?_⟩
    · simp [hnil] at hhead
    · rw [hhead] at heq
      simp at heq
  home_absolute := rfl
  join_absolute r := rfl
  isoString_ne_nil t := List.cons_ne_nil _ _

def plainRow (name root : String) : ProjectEntry := ⟨ascii name, ascii root, none, none⟩

/-- Two rows carry `a`, and a third one `a-2`. -/
def repeatedAliases : ProjectsFile :=
  .text (some (projectsJson [plainRow "a" "/r1", plainRow "a" "/r2", plainRow "a-2" "/r3"]))

/-- Registering `/r4` over a file that cannot be read at that moment. -/
def unreadRegistration : RegistryCall where
  host := posixHost
  op := .register (ascii "/r4") none []
  readableBefore := false
  readable := false
  done := true

theorem registry_loses_rows :
    ((readRegistryRaw posixHost repeatedAliases true).map ProjectEntry.aliasName =
        [ascii "a", ascii "a-2", ascii "a-2-2"] ∧
      ¬ AliasesKept posixHost (usableRows posixHost (projectRows repeatedAliases true))) ∧
      readRegistryRaw posixHost (unreadRegistration.apply repeatedAliases) true = [plainRow "r4" "/r4"] ∧
      ¬ unreadRegistration.Spares repeatedAliases := by
  have hrows : usableRows posixHost (projectRows repeatedAliases true) =
      [plainRow "a" "/r1", plainRow "a" "/r2", plainRow "a-2" "/r3"] := by decide +kernel
  have hread : readRegistryRaw posixHost repeatedAliases true =
      [plainRow "a" "/r1", plainRow "a-2" "/r2", plainRow "a-2-2" "/r3"] := by decide +kernel
  have hlost : readRegistryRaw posixHost (unreadRegistration.apply repeatedAliases) true = [plainRow "r4" "/r4"] := by
    decide +kernel
  refine ⟨⟨by rw [hread]; rfl, fun hkept => ?_⟩, hlost, fun hspares => ?_⟩
  · have hmem := hkept (plainRow "a-2" "/r3") (by rw [hrows]; simp) (by rw [hrows]; decide +kernel)
    rw [← readRegistryRaw_eq, hread] at hmem
    revert hmem
    decide +kernel
  · have heq := hspares.file ⟨(fun h => by cases h), .inl rfl⟩
    rw [heq, hread] at hlost
    revert hlost
    decide +kernel

end Hayven.Daemon
