import Hayven.Daemon.RegistryRuns
/-!
# What start-time pruning evicts

A history of `pruneStaleProjects` and `registerProject` calls over a registry they wrote, each
call with the answers its own host gives. A row is followed from call to call, and every stamp
in the file is traced to the prune that found the row missing: `stamped_step`. So what a prune
evicts was missing all along, as long as no registration overlooks a row that has come back.
-/
open Hayven.Lib

namespace Hayven.Daemon

/-! ## Histories -/

/-- The file after some calls, the latest first; before all of them there is none. -/
def fileAfter : List RegistryCall → ProjectsFile
  | [] => .absent
  | call :: past => call.apply (fileAfter past)

/-- The rows the call reads under the lock. -/
def RegistryCall.reads (call : RegistryCall) (file : ProjectsFile) : List ProjectEntry :=
  readRegistryRaw call.host file call.readable

/-- The call does not throw. -/
def RegistryCall.Returns (call : RegistryCall) (file : ProjectsFile) : Prop :=
  ∃ next, call.op.locked call.host (readRegistryRaw call.host file call.readableBefore) (call.reads file) = .ok next ∧
    (next.isSome = true → call.done = true)

/-- What a call that writes makes of a row it read, if the row is still there; only pruning at
start and registering are followed. -/
def RegistryOp.rowAfter (host : RegistryHost) (before entries : List ProjectEntry) (e : ProjectEntry) :
    RegistryOp → Option ProjectEntry
  | .pruneStale nowMs => pruneEntry host before nowMs e
  | .register root wish blocked =>
    let abs := absoluteRoot host root
    let outcome := (registerLocked host abs (wish.filter (· ≠ [])) blocked entries).2
    if isAt host abs e then some outcome.entry
    else if outcome.relocatedFrom = some e.root then none else some e
  | _ => none

/-- What a call makes of a row of the file. -/
def RegistryCall.rowAfter (call : RegistryCall) (file : ProjectsFile) (e : ProjectEntry) : Option ProjectEntry :=
  match call.writes file with
  | none => some e
  | some _ =>
    if e ∈ call.reads file then
      call.op.rowAfter call.host (readRegistryRaw call.host file call.readableBefore) (call.reads file) e
    else none

/-- A prune, or a registration of this very root, that returns and finds the root there. -/
def RegistryCall.FindsPresent (call : RegistryCall) (file : ProjectsFile) (e : ProjectEntry) : Prop :=
  call.Returns file ∧ e ∈ call.reads file ∧
    match call.op with
    | .pruneStale _ => call.host.isAbsolute e.root = true ∧ call.host.isDirectory e.root = true
    | .register root _ _ => isAt call.host (absoluteRoot call.host root) e = true ∧
        (call.host.isDirectory e.root = true ∨ call.host.isDirectory (absoluteRoot call.host root) = true)
    | _ => False

/-- A prune at this time that returns and does not find the root. -/
def RegistryCall.FindsMissing (call : RegistryCall) (file : ProjectsFile) (nowMs : Int) (e : ProjectEntry) : Prop :=
  call.op = .pruneStale nowMs ∧ call.Returns file ∧ e ∈ call.reads file ∧ isMissing call.host e = true

/-- A prune at this time found the row missing, and no call since has found it present. -/
inductive Watched (since : Int) : List RegistryCall → ProjectEntry → Prop
  | found {past : List RegistryCall} {call : RegistryCall} {e e' : ProjectEntry} :
      call.FindsMissing (fileAfter past) since e → call.rowAfter (fileAfter past) e = some e' →
        Watched since (call :: past) e'
  | kept {past : List RegistryCall} {call : RegistryCall} {e e' : ProjectEntry} :
      Watched since past e → ¬ call.FindsPresent (fileAfter past) e → call.rowAfter (fileAfter past) e = some e' →
        Watched since (call :: past) e'

/-- A prune at this time returns and has removed the row. -/
def RegistryCall.Evicts (call : RegistryCall) (file : ProjectsFile) (nowMs : Int) (e : ProjectEntry) : Prop :=
  call.op = .pruneStale nowMs ∧ call.Returns file ∧
    e ∈ (pruneStaleLocked call.host (readRegistryRaw call.host file call.readableBefore) nowMs (call.reads file)).2

/-- A start-time prune, whose clock reading `Date.parse` gives back, or a registration. -/
structure StartCall (dates : JsString → Option Int) (call : RegistryCall) : Prop where
  host : call.host.Documented
  parse : call.host.dateParse = dates
  op : (∃ nowMs, call.op = .pruneStale nowMs ∧ dates (call.host.toISOString nowMs) = some nowMs) ∨
    ∃ root wish blocked, call.op = .register root wish blocked

/-- A registration that finds a stamped row present; it leaves the stamp. -/
def RegistryCall.Overlooks (call : RegistryCall) (file : ProjectsFile) : Prop :=
  (∃ root wish blocked, call.op = .register root wish blocked) ∧
    ∃ e, call.FindsPresent file e ∧ e.missingSince ≠ none

def appendCall (past : List RegistryCall) (call : RegistryCall) : Option (List RegistryCall) := some (call :: past)

/-- A registrable row the next prune evicts is missing then, and was found so more than the grace
window before, with nobody finding it present in between. -/
def EvictsObserved (dates : JsString → Option Int) (past : List RegistryCall) : Prop :=
  ∀ call nowMs e, StartCall dates call → call.Evicts (fileAfter past) nowMs e →
    call.host.isAbsolute e.root = true → isRegistrableRoot call.host e.root = true →
      call.FindsMissing (fileAfter past) nowMs e ∧ ∃ since, nowMs - since > staleGraceMs ∧ Watched since past e

section Host
variable {host : RegistryHost} {entries : List ProjectEntry}

/-! ## Rows under any host -/

/-- The prefix of a home directory is gone from a row that was read. -/
theorem expand_any {p : JsString} (h : host.Documented) (hp : expandHomePrefix host p = p) (other : RegistryHost) :
    expandHomePrefix other p = p := by
  rw [expandHomePrefix.eq_def] at hp
  rw [expandHomePrefix.eq_def]
  split at hp
  · exact absurd (congrArg List.head? hp) (h.absolute_head _ h.home_absolute).2
  case h_2 rest =>
    have hhead := (h.absolute_head _ (h.join_absolute rest)).2
    rw [hp] at hhead
    exact absurd rfl hhead
  · rfl

theorem rowOk_any {e : ProjectEntry} (h : host.Documented) (he : RowOk host e) (other : RegistryHost) :
    RowOk other e :=
  ⟨he.named, he.rooted, expand_any h he.expanded other, he.stamped⟩

/-- A file these calls wrote, as the list they wrote. -/
structure Stored (past : List RegistryCall) (rows : List ProjectEntry) : Prop where
  file : fileAfter past = .absent ∧ rows = [] ∨ fileAfter past = .text (some (projectsJson rows))
  rowOk : ∀ e ∈ rows, ∀ other, RowOk other e
  aliases : (rows.map ProjectEntry.aliasName).Nodup

/-- Whoever reads a written list reads a part of it. -/
theorem read_sublist {past : List RegistryCall} {rows : List ProjectEntry} (h : Stored past rows)
    (host : RegistryHost) (readable : Bool) : (readRegistryRaw host (fileAfter past) readable).Sublist rows := by
  have hall : (usableRows host (projectRows (fileAfter past) readable)).Sublist rows := by
    rcases h.file with ⟨habsent, rfl⟩ | hfile
    · rw [habsent]
      exact List.Sublist.refl _
    · have hlist : (projectsJson rows).field "projects" = some (.arr (rows.map projectJson)) := by
        simp [projectsJson, Json.field, ascii]
      have hrows : (rows.map projectJson).filterMap (storedRow host) = rows := by
        rw [List.filterMap_map]
        exact (List.filterMap_congr fun e he => storedRow_projectJson (h.rowOk e he host)).trans List.filterMap_some
      rw [hfile]
      unfold projectRows
      dsimp only
      rw [hlist]
      cases readable with
      | false => exact List.nil_sublist _
      | true =>
        refine (keepFirst_sublist _ _).trans ?_
        change ((rows.map projectJson).filterMap (storedRow host)).Sublist rows
        rw [hrows]
  rw [readRegistryRaw_eq]
  rw [repairAll_of_nodup (by simpa using h.aliases.sublist (hall.map _))]
  exact hall

/-! ## One call -/

theorem eq_of_filterMap_eq {α : Type} {f : α → Option α} {l : List α} (h : l.filterMap f = l) :
    ∀ a ∈ l, f a = some a := by
  induction l with
  | nil => exact fun a ha => absurd ha List.not_mem_nil
  | cons b l ih =>
    cases hb : f b with
    | none =>
      rw [List.filterMap_cons_none hb] at h
      have hle := List.length_filterMap_le f l
      rw [h, List.length_cons] at hle
      omega
    | some c =>
      rw [List.filterMap_cons_some hb] at h
      injection h with hc htail
      rintro a (_ | ⟨_, ha⟩)
      · exact hb.trans (congrArg some hc)
      · exact ih htail a ha

/-- A row a prune keeps: not missing and without a stamp, as it was, or newly stamped. -/
theorem pruneEntry_stamped {before : List ProjectEntry} {nowMs : Int} {e e' : ProjectEntry} {stamp : JsString}
    (he : pruneEntry host before nowMs e = some e') (hstamp : e'.missingSince = some stamp) :
    (e.missingSince = some stamp ∧ ¬ (host.isAbsolute e.root = true ∧ host.isDirectory e.root = true)) ∨
      isMissing host e = true ∧ stamp = host.toISOString nowMs := by
  unfold pruneEntry at he
  split at he
  · rename_i hrel
    obtain rfl := Option.some.inj he
    exact .inl ⟨hstamp, fun hboth => by simp [hboth.1] at hrel⟩
  · rename_i habs
    split at he
    · cases he
    · split at he
      · obtain rfl := Option.some.inj he
        cases hstamp
      · rename_i hgone
        have hmissing : isMissing host e = true := by
          simp only [Bool.not_eq_true', Bool.not_eq_false] at habs
          simp [isMissing, habs, hgone]
        split at he
        · split at he
          · cases he
          · obtain rfl := Option.some.inj he
            exact .inl ⟨hstamp, fun hboth => hgone hboth.2⟩
        · obtain rfl := Option.some.inj he
          exact .inr ⟨hmissing, (Option.some.inj hstamp).symm⟩

/-- A registrable row a prune removes carries a stamp older than the grace window, and is missing. -/
theorem pruneEntry_none {before : List ProjectEntry} {nowMs : Int} {e : ProjectEntry}
    (he : pruneEntry host before nowMs e = none) (hreg : isRegistrableRoot host e.root = true) :
    isMissing host e = true ∧
      ∃ stamp since, e.missingSince = some stamp ∧ host.dateParse stamp = some since ∧ nowMs - since > staleGraceMs := by
  unfold pruneEntry at he
  split at he
  · cases he
  · rename_i habs
    rw [if_neg (by simp [hreg])] at he
    split at he
    · cases he
    · rename_i hgone
      have hmissing : isMissing host e = true := by
        simp only [Bool.not_eq_true', Bool.not_eq_false] at habs
        simp [isMissing, habs, hgone]
      split at he
      case h_1 since hgrace =>
        split at he
        · rename_i hold
          unfold graceStartMs at hgrace
          split at hgrace
          · cases hgrace
          · rename_i parsed hparsed
            obtain ⟨stamp, hstamp, hdate⟩ := Option.bind_eq_some_iff.1 hparsed
            split at hgrace
            · cases hgrace
            · obtain rfl := Option.some.inj hgrace
              exact ⟨hmissing, stamp, parsed, hstamp, hdate, hold⟩
        · cases he
      case h_2 => cases he

/-- A row of the list that registering writes was there and is another's, or has taken the place of
the row of its repository and its stamp, or has no stamp. -/
theorem registerLocked_stamped (hclean : Clean host entries) {abs : JsString} {wish : Option JsString}
    {blocked : List JsString} {next : List ProjectEntry}
    (hnext : (registerLocked host abs wish blocked entries).1 = some next) {e' : ProjectEntry} (he' : e' ∈ next)
    {stamp : JsString} (hstamp : e'.missingSince = some stamp) :
    (e' ∈ entries ∧ isAt host abs e' = false ∧
        (registerLocked host abs wish blocked entries).2.relocatedFrom ≠ some e'.root) ∨
      ∃ e ∈ entries, isAt host abs e = true ∧ e.missingSince = some stamp ∧
        (registerLocked host abs wish blocked entries).2.entry = e' := by
  have hplain : ∀ (identity : Option Identity) (ambiguous : Option (ProjectEntry × AmbiguityReason)),
      (∀ o ∈ entries, isAt host abs o = false) → (registerPlain host abs wish identity ambiguous entries).1 = some next →
      e' ∈ entries ∧ isAt host abs e' = false ∧
        (registerPlain host abs wish identity ambiguous entries).2.relocatedFrom ≠ some e'.root := by
    intro identity ambiguous hat hwritten
    obtain rfl := Option.some.inj hwritten
    rcases List.mem_append.1 ((sortEntries_perm _).subset he') with hin | hnew
    · exact ⟨hin, hat e' hin, fun h => by cases h⟩
    · obtain rfl := List.mem_singleton.1 hnew
      cases hstamp
  revert hnext
  unfold registerLocked
  dsimp only
  cases hfind : entries.find? (isAt host abs) with
  | some existing =>
    dsimp only
    have hexisting : isAt host abs existing = true := List.find?_some hfind
    split
    · intro hnext
      cases hnext
    · intro hnext
      obtain rfl := Option.some.inj hnext
      rcases List.mem_append.1 ((sortEntries_perm _).subset he') with hin | hnew
      · obtain ⟨hmem, hnot⟩ := List.mem_filter.1 hin
        exact .inl ⟨hmem, by simpa using hnot, fun h => by cases h⟩
      · obtain rfl := List.mem_singleton.1 hnew
        exact .inr ⟨existing, List.mem_of_find?_eq_some hfind, hexisting, hstamp, rfl⟩
  | none =>
    dsimp only
    have hat : ∀ o ∈ entries, isAt host abs o = false := fun o ho => by
      simpa using List.find?_eq_none.1 hfind o ho
    split
    · exact fun hnext => .inl (hplain _ _ hat hnext)
    case h_2 moved hsame =>
      split
      · intro hnext
        obtain rfl := Option.some.inj hnext
        rcases List.mem_append.1 ((sortEntries_perm _).subset he') with hin | hnew
        · obtain ⟨hmem, hne⟩ := List.mem_filter.1 hin
          have hmoved : moved ∈ entries := by
            have hin' : moved ∈ sameIdentity host (readProjectIdentity host abs) entries := hsame ▸ List.mem_cons_self
            unfold sameIdentity at hin'
            split at hin'
            · exact absurd hin' List.not_mem_nil
            · exact (List.mem_filter.1 hin').1
          -- another row of the same root would be the same row
          refine .inl ⟨hmem, hat e' hmem, fun hroot => of_decide_eq_true hne ?_⟩
          exact List.inj_on_of_nodup_map hclean.roots hmem hmoved (repoKey_congr (Option.some.inj hroot).symm)
        · obtain rfl := List.mem_singleton.1 hnew
          cases hstamp
      · exact fun hnext => .inl (hplain _ _ hat hnext)
    · exact fun hnext => .inl (hplain _ _ hat hnext)

end Host

section Runs
variable {dates : JsString → Option Int} {past : List RegistryCall} {call : RegistryCall} {rows : List ProjectEntry}

/-- What a call that returns has done under the lock. -/
theorem returns_of_writes {file : ProjectsFile} {next : List ProjectEntry} (h : call.writes file = some next) :
    call.Returns file := by
  obtain ⟨hop, hdone⟩ := writes_eq_some.1 h
  exact ⟨some next, hop, fun _ => hdone⟩

theorem locked_none {file : ProjectsFile} (hreturns : call.Returns file) (h : call.writes file = none) :
    call.op.locked call.host (readRegistryRaw call.host file call.readableBefore) (call.reads file) = .ok none := by
  obtain ⟨next, hop, hdone⟩ := hreturns
  cases next with
  | none => exact hop
  | some next =>
    have hwrites : call.writes file = some next := writes_eq_some.2 ⟨hop, hdone rfl⟩
    rw [hwrites] at h
    cases h

/-- A call that writes nothing has not found a stamped row present, unless it overlooks it. -/
theorem unwritten_absent (hcall : StartCall dates call) {file : ProjectsFile} (hquiet : ¬ call.Overlooks file)
    (hwrites : call.writes file = none) {e : ProjectEntry} (hstamp : e.missingSince ≠ none) :
    ¬ call.FindsPresent file e := by
  intro hfinds
  rcases hcall.op with ⟨nowMs, hop, -⟩ | hregister
  · obtain ⟨hreturns, hread, hpresent⟩ := hfinds
    have hlocked := locked_none hreturns hwrites
    rw [hop] at hlocked hpresent
    have hkeep := Except.ok.inj hlocked
    unfold pruneStaleLocked at hkeep
    dsimp only at hkeep
    split at hkeep
    · cases hkeep
    · rename_i hsame
      have hrow := eq_of_filterMap_eq (not_not.1 hsame) e hread
      obtain ⟨stamp, hsome⟩ := Option.ne_none_iff_exists'.1 hstamp
      rcases pruneEntry_stamped hrow hsome with ⟨-, hnot⟩ | ⟨hmissing, -⟩
      · exact hnot hpresent
      · simp [isMissing, hpresent.2] at hmissing
  · exact hquiet ⟨hregister, e, hfinds, hstamp⟩

/-- Where a stamp in a written list comes from. -/
theorem written_stamped (hcall : StartCall dates call) {file : ProjectsFile} (hquiet : ¬ call.Overlooks file)
    {next : List ProjectEntry} (hwrites : call.writes file = some next) {e' : ProjectEntry} (he' : e' ∈ next)
    {stamp : JsString} (hstamp : e'.missingSince = some stamp) :
    ∃ e ∈ call.reads file, call.rowAfter file e = some e' ∧
      ((e.missingSince = some stamp ∧ ¬ call.FindsPresent file e) ∨
        ∃ nowMs, call.FindsMissing file nowMs e ∧ dates stamp = some nowMs) := by
  have hreturns := returns_of_writes hwrites
  have hlocked := (writes_eq_some.1 hwrites).1
  have hafter : ∀ e ∈ call.reads file, call.rowAfter file e =
      call.op.rowAfter call.host (readRegistryRaw call.host file call.readableBefore) (call.reads file) e := by
    intro e he
    unfold RegistryCall.rowAfter
    rw [hwrites]
    exact if_pos he
  rcases hcall.op with ⟨nowMs, hop, hdate⟩ | ⟨root, wish, blocked, hop⟩
  · rw [hop] at hlocked hafter
    have hkeep := Except.ok.inj hlocked
    unfold pruneStaleLocked at hkeep
    dsimp only at hkeep
    split at hkeep
    · obtain rfl := Option.some.inj hkeep
      obtain ⟨e, he, hrow⟩ := List.mem_filterMap.1 he'
      refine ⟨e, he, (hafter e he).trans hrow, ?_⟩
      rcases pruneEntry_stamped hrow hstamp with ⟨hsame, hnot⟩ | ⟨hmissing, rfl⟩
      · refine .inl ⟨hsame, fun hfinds => hnot ?_⟩
        have hpresent := hfinds.2.2
        rw [hop] at hpresent
        exact hpresent
      · exact .inr ⟨nowMs, ⟨hop, hreturns, he, hmissing⟩, hdate⟩
    · cases hkeep
  · have hregister : ∃ root wish blocked, call.op = .register root wish blocked := ⟨root, wish, blocked, hop⟩
    rw [hop] at hlocked hafter
    obtain ⟨-, -, hlocked⟩ := bind_eq_ok hlocked
    rcases registerLocked_stamped (read_clean hcall.host file call.readable) (Except.ok.inj hlocked) he' hstamp
      with ⟨hmem, hnot, hfrom⟩ | ⟨e, hmem, hat, hsame, hentry⟩
    · refine ⟨e', hmem, (hafter e' hmem).trans ?_, .inl ⟨hstamp, fun hfinds => ?_⟩⟩
      · unfold RegistryOp.rowAfter
        dsimp only
        rw [if_neg (by simp [hnot])]
        exact if_neg hfrom
      · have hpresent := hfinds.2.2
        rw [hop] at hpresent
        rw [hpresent.1] at hnot
        cases hnot
    · refine ⟨e, hmem, (hafter e hmem).trans ?_, .inl ⟨hsame, fun hfinds => ?_⟩⟩
      · unfold RegistryOp.rowAfter
        dsimp only
        rw [if_pos hat]
        exact congrArg some hentry
      · exact hquiet ⟨hregister, e, hfinds, by simp [hsame]⟩

/-! ## Histories of calls -/

/-- Every stamp in the file is the time of a prune that found the row missing, and nobody has found
it present since. -/
structure Accounted (dates : JsString → Option Int) (past : List RegistryCall) (rows : List ProjectEntry) : Prop where
  stored : Stored past rows
  stamps : ∀ e ∈ rows, ∀ stamp, e.missingSince = some stamp → ∃ since, dates stamp = some since ∧ Watched since past e

theorem accounted_nil : Accounted dates [] [] where
  stored := ⟨.inl ⟨rfl, rfl⟩, fun _ h => absurd h List.not_mem_nil, List.nodup_nil⟩
  stamps _ h := absurd h List.not_mem_nil

theorem accounted_step (h : Accounted dates past rows) (hcall : StartCall dates call)
    (hquiet : ¬ call.Overlooks (fileAfter past)) : ∃ rows', Accounted dates (call :: past) rows' := by
  cases hwrites : call.writes (fileAfter past) with
  | none =>
    have hfile : fileAfter (call :: past) = fileAfter past := by
      change call.apply _ = _
      unfold RegistryCall.apply
      rw [hwrites]
    refine ⟨rows, ⟨hfile ▸ h.stored.file, h.stored.rowOk, h.stored.aliases⟩, fun e he stamp hstamp => ?_⟩
    obtain ⟨since, hdate, hwatched⟩ := h.stamps e he stamp hstamp
    refine ⟨since, hdate, .kept hwatched ?_ ?_⟩
    · exact unwritten_absent hcall hquiet hwrites (by simp [hstamp])
    · unfold RegistryCall.rowAfter
      rw [hwrites]
  | some next =>
    have hclean : Clean call.host next := (keeps_locked hcall.host
      (read_clean hcall.host _ call.readable) (writes_eq_some.1 hwrites).1).clean
    have hfile : fileAfter (call :: past) = .text (some (projectsJson next)) := by
      change call.apply _ = _
      unfold RegistryCall.apply
      rw [hwrites]
    refine ⟨next, ⟨.inr hfile, fun e he => rowOk_any hcall.host (hclean.rows e he), hclean.aliases⟩, ?_⟩
    intro e' he' stamp hstamp
    obtain ⟨e, he, hafter, ⟨hsame, hnot⟩ | ⟨nowMs, hmissing, hdate⟩⟩ := written_stamped hcall hquiet hwrites he' hstamp
    · obtain ⟨since, hdate, hwatched⟩ := h.stamps e ((read_sublist h.stored _ _).subset he) stamp hsame
      exact ⟨since, hdate, .kept hwatched hnot hafter⟩
    · exact ⟨nowMs, hdate, .found hmissing hafter⟩

theorem accounted_run (hrun : Run appendCall (fun past call => StartCall dates call ∧ ¬ call.Overlooks (fileAfter past))
    [] past) : ∃ rows, Accounted dates past rows := by
  refine Run.invariant (P := fun past => ∃ rows, Accounted dates past rows) hrun ⟨[], accounted_nil⟩ ?_
  rintro past call past' ⟨rows, h⟩ ⟨hcall, hquiet⟩ hstep
  obtain rfl := Option.some.inj hstep
  exact accounted_step h hcall hquiet

/-- Over any history in which no registration finds present a row with a stamp, pruning evicts only
what it has watched being away for longer than the grace window. -/
theorem evicts_observed (past : List RegistryCall)
    (hrun : Run appendCall (fun past call => StartCall dates call ∧ ¬ call.Overlooks (fileAfter past)) [] past) :
    EvictsObserved dates past := by
  intro call nowMs e hcall ⟨hop, hreturns, hevicted⟩ habs hreg
  obtain ⟨rows, haccounted⟩ := accounted_run hrun
  obtain ⟨hread, hgone⟩ := List.mem_filter.1 hevicted
  obtain ⟨hmissing, stamp, since, hstamp, hdate, hlong⟩ := pruneEntry_none (Option.isNone_iff_eq_none.1 hgone) hreg
  refine ⟨⟨hop, hreturns, hread, hmissing⟩, since, hlong, ?_⟩
  obtain ⟨since', hdate', hwatched⟩ :=
    haccounted.stamps e ((read_sublist haccounted.stored _ _).subset hread) stamp hstamp
  rw [hcall.parse, hdate', Option.some.injEq] at hdate
  exact hdate ▸ hwatched

end Runs

/-! ## A root that comes back and is registered again -/

def knownDates : List (JsString × Int) :=
  [(ascii "1970-01-01T00:00:00.000Z", 0), (ascii "1970-01-09T00:00:00.000Z", 691200000)]

def parseKnown (s : JsString) : Option Int := (knownDates.find? fun p => p.1 = s).map Prod.snd

/-- The host of one call: two dates, and one directory that is there or not. -/
def drive (mounted : Bool) : RegistryHost :=
  { posixHost with
    isDirectory := fun p => mounted && p = ascii "/r4"
    dateParse := parseKnown
    toISOString := fun t => ((knownDates.find? fun p => p.2 = t).map Prod.fst).getD (ascii "?") }

theorem drive_documented (mounted : Bool) : (drive mounted).Documented :=
  { posixHost_documented with
    isoString_ne_nil := fun t => by
      change ((knownDates.find? fun p => p.2 = t).map Prod.fst).getD (ascii "?") ≠ []
      cases hfind : knownDates.find? fun p => p.2 = t with
      | none => decide
      | some p =>
        have hdates : ∀ q ∈ knownDates, q.1 ≠ [] := by decide
        exact hdates p (List.mem_of_find?_eq_some hfind) }

def driveCall (mounted : Bool) (op : RegistryOp) : RegistryCall := ⟨drive mounted, op, true, true, true⟩

def registerDrive : RegistryCall := driveCall true (.register (ascii "/r4") none [])

def pruneAt (nowMs : Int) : RegistryCall := driveCall false (.pruneStale nowMs)

theorem registerDrive_start : StartCall parseKnown registerDrive :=
  ⟨drive_documented true, rfl, .inr ⟨ascii "/r4", none, [], rfl⟩⟩

theorem pruneAt_start {nowMs : Int} (h : parseKnown ((drive false).toISOString nowMs) = some nowMs) :
    StartCall parseKnown (pruneAt nowMs) :=
  ⟨drive_documented false, rfl, .inl ⟨nowMs, rfl, h⟩⟩

/-- The row after the first of January. -/
def stampedDrive : ProjectEntry := ⟨ascii "r4", ascii "/r4", none, some (ascii "1970-01-01T00:00:00.000Z")⟩

theorem returns_prune (nowMs : Int) (file : ProjectsFile) : (pruneAt nowMs).Returns file := ⟨_, rfl, fun _ => rfl⟩

theorem returns_register (file : ProjectsFile) : registerDrive.Returns file := by
  have hroot : isRegistrableRoot (drive true) (absoluteRoot (drive true) (ascii "/r4")) = true := by decide +kernel
  have hok : assertRegistrableRoot (drive true) (absoluteRoot (drive true) (ascii "/r4")) = .ok () := by
    unfold isRegistrableRoot at hroot
    split at hroot
    · assumption
    · cases hroot
  refine ⟨(registerLocked (drive true) (absoluteRoot (drive true) (ascii "/r4")) none [] (registerDrive.reads file)).1,
    ?_, fun _ => rfl⟩
  change RegistryOp.locked (drive true) _ _ (.register (ascii "/r4") none []) = _
  unfold RegistryOp.locked
  dsimp only
  rw [hok]
  rfl

theorem pruneAt_quiet (nowMs : Int) (file : ProjectsFile) : ¬ (pruneAt nowMs).Overlooks file := by
  rintro ⟨⟨root, wish, blocked, hop⟩, -⟩
  cases hop

theorem evicts_observed_drive :
    (pruneAt 691200000).Evicts (fileAfter [pruneAt 0, registerDrive]) 691200000 stampedDrive ∧
      EvictsObserved parseKnown [pruneAt 0, registerDrive] := by
  refine ⟨⟨rfl, returns_prune _ _, by decide +kernel⟩, evicts_observed _ ?_⟩
  have hfirst : Run appendCall
      (fun past call => StartCall parseKnown call ∧ ¬ call.Overlooks (fileAfter past)) [] [registerDrive] := by
    refine .single ⟨registerDrive_start, ?_⟩ rfl
    rintro ⟨-, e, ⟨-, hread, -⟩, -⟩
    exact absurd hread List.not_mem_nil
  exact hfirst.tail ⟨pruneAt_start (by decide), pruneAt_quiet 0 _⟩ rfl

/-- The time a prune reads. -/
def RegistryCall.clock (call : RegistryCall) : Option Int :=
  match call.op with
  | .pruneStale nowMs => some nowMs
  | _ => none

/-- Missing on the first, registered while mounted, missing and evicted on the ninth. -/
theorem remounted_drive_evicted :
    Run appendCall (fun _ call => StartCall parseKnown call) [] [registerDrive, pruneAt 0, registerDrive] ∧
      ([pruneAt 691200000, registerDrive, pruneAt 0, registerDrive].filterMap RegistryCall.clock).Pairwise (· ≥ ·) ∧
      ¬ EvictsObserved parseKnown [registerDrive, pruneAt 0, registerDrive] := by
  have hstart : StartCall parseKnown (pruneAt 0) := pruneAt_start (by decide)
  refine ⟨.tail (.tail (.single registerDrive_start rfl) hstart rfl) registerDrive_start rfl, by decide, ?_⟩
  intro hobserved
  obtain ⟨-, since, -, hwatched⟩ := hobserved (pruneAt 691200000) 691200000 stampedDrive (pruneAt_start (by decide))
    ⟨rfl, returns_prune _ _, by decide +kernel⟩ rfl (by decide +kernel)
  have hunwritten : registerDrive.writes (fileAfter [pruneAt 0, registerDrive]) = none := by decide +kernel
  cases hwatched with
  | found hmissing _ => cases hmissing.1
  | @kept _ _ e _ _ hnot hafter =>
    unfold RegistryCall.rowAfter at hafter
    rw [hunwritten] at hafter
    obtain rfl := Option.some.inj hafter
    -- the second registration stats the root and finds it
    exact hnot ⟨returns_register _, by decide +kernel, by decide +kernel, .inl (by decide +kernel)⟩

end Hayven.Daemon
