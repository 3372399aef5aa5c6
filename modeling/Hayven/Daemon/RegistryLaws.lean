import Hayven.Daemon.RegistryOps
import Hayven.Lib.DecimalText
/-!
# What reading the registry gives

However the file was edited, the rows read back have distinct aliases and distinct roots
(`read_clean`), and a clean list is read back as it was written (`read_written`). A row
whose alias was its own keeps it unless an earlier row is repaired to it
(`aliasesKept_iff`).
-/
open Hayven.Lib

namespace Hayven.Daemon

/-! ## What is relied on of the host -/

structure RegistryHost.Documented (host : RegistryHost) : Prop where
  canonical_absolute : ∀ p, host.isAbsolute (host.canonicalRoot p) = true
  rootKey_canonical : ∀ p, host.rootKey (host.canonicalRoot p) = host.rootKey p
  key_resolvable : ∀ p r, host.isAbsolute p = true → host.rootKey p ≠ ascii "unresolvable:" ++ r
  absolute_head : ∀ p, host.isAbsolute p = true → p ≠ [] ∧ p.head? ≠ some 0x7E
  home_absolute : host.isAbsolute host.homedir = true
  join_absolute : ∀ r, host.isAbsolute (host.join host.homedir r) = true
  isoString_ne_nil : ∀ t, host.toISOString t ≠ []

section Host
variable {host : RegistryHost}

theorem expand_absolute (h : host.Documented) {p : JsString} (hp : host.isAbsolute p = true) :
    expandHomePrefix host p = p := by
  have hhead := (h.absolute_head p hp).2
  unfold expandHomePrefix
  split
  · exact absurd rfl hhead
  · exact absurd rfl hhead
  · rfl

theorem expand_expand (h : host.Documented) (p : JsString) :
    expandHomePrefix host (expandHomePrefix host p) = expandHomePrefix host p := by
  rw [expandHomePrefix.eq_def host p]
  split
  · exact expand_absolute h h.home_absolute
  · exact expand_absolute h (h.join_absolute _)
  · rename_i hone htwo
    rw [expandHomePrefix.eq_def]
    split
    · exact absurd rfl hone
    · exact absurd rfl (htwo _)
    · rfl

theorem expand_ne_nil (h : host.Documented) {p : JsString} (hp : p ≠ []) : expandHomePrefix host p ≠ [] := by
  unfold expandHomePrefix
  split
  · exact (h.absolute_head _ h.home_absolute).1
  · exact (h.absolute_head _ (h.join_absolute _)).1
  · exact hp

/-! ## Fresh aliases -/

theorem numbered_inj {base : JsString} {n m : Nat} (h : numbered base n = numbered base m) : n = m := by
  rw [numbered, numbered, List.append_cancel_left_eq] at h
  rw [← (digits_decDigits n).value, h, (digits_decDigits m).value]

theorem not_mem_of_aliasFree {root : JsString} {taken : List ProjectEntry} {name : JsString}
    (hroot : ∀ e ∈ taken, e.root ≠ root) (h : aliasFree root taken name = true) :
    name ∉ taken.map ProjectEntry.aliasName := by
  intro hmem
  obtain ⟨e, he, hname⟩ := List.mem_map.1 hmem
  unfold aliasFree rootOfAlias at h
  cases hfind : taken.reverse.find? fun e => e.aliasName = name with
  | none => exact List.find?_eq_none.1 hfind e (List.mem_reverse.2 he) (decide_eq_true hname)
  | some o =>
    rw [hfind] at h
    exact hroot o (List.mem_reverse.1 (List.mem_of_find?_eq_some hfind)) (of_decide_eq_true h)

theorem mem_of_not_aliasFree {root : JsString} {taken : List ProjectEntry} {name : JsString}
    (h : ¬ aliasFree root taken name = true) : name ∈ taken.map ProjectEntry.aliasName := by
  unfold aliasFree rootOfAlias at h
  cases hfind : taken.reverse.find? fun e => e.aliasName = name with
  | none =>
    rw [hfind] at h
    exact absurd rfl h
  | some o =>
    have hname := List.find?_some hfind
    exact List.mem_map.2 ⟨o, List.mem_reverse.1 (List.mem_of_find?_eq_some hfind), of_decide_eq_true hname⟩

/-- If the numbered alias that comes out is taken, all that were tried are. -/
theorem deriveNumbered_taken {root base : JsString} {taken : List ProjectEntry} (fuel n : Nat)
    (h : ¬ aliasFree root taken (deriveNumbered root taken base fuel n) = true) :
    ∀ k ≤ fuel, numbered base (n + k) ∈ taken.map ProjectEntry.aliasName := by
  induction fuel generalizing n with
  | zero =>
    intro k hk
    obtain rfl := Nat.le_zero.1 hk
    exact mem_of_not_aliasFree h
  | succ fuel ih =>
    unfold deriveNumbered at h
    split at h
    · contradiction
    · rename_i hn
      intro k hk
      cases k with
      | zero => exact mem_of_not_aliasFree hn
      | succ k =>
        have := ih (n + 1) h k (Nat.le_of_succ_le_succ hk)
        rwa [Nat.add_assoc, Nat.add_comm 1 k] at this

/-- One of one more candidates than entries is free. -/
theorem deriveNumbered_free (root base : JsString) (taken : List ProjectEntry) :
    aliasFree root taken (deriveNumbered root taken base taken.length 2) = true := by
  by_contra h
  have htaken := deriveNumbered_taken taken.length 2 h
  let tried := (List.range (taken.length + 1)).map fun k => numbered base (2 + k)
  have hnodup : tried.Nodup := by
    refine List.Nodup.map (fun a b hab => ?_) List.nodup_range
    exact Nat.add_left_cancel (numbered_inj hab)
  have hsub : tried ⊆ taken.map ProjectEntry.aliasName := by
    intro name hname
    obtain ⟨k, hk, rfl⟩ := List.mem_map.1 hname
    exact htaken k (Nat.lt_succ_iff.1 (List.mem_range.1 hk))
  have hlen := (List.subperm_of_subset hnodup hsub).length_le
  simp [tried] at hlen

theorem sanitizeAlias_ne_nil (raw : JsString) : sanitizeAlias host raw ≠ [] := by
  unfold sanitizeAlias
  dsimp only
  split
  · decide
  · assumption

/-- The derived alias is the sanitized wish, or that with a number. -/
theorem deriveAlias_cases (root : JsString) (preferred : Option JsString) (taken : List ProjectEntry) :
    let base := sanitizeAlias host (aliasWish host root preferred)
    (aliasFree root taken base = true ∧ deriveAlias host root preferred taken = base) ∨
      deriveAlias host root preferred taken = deriveNumbered root taken base taken.length 2 := by
  intro base
  by_cases hfree : aliasFree root taken base = true
  · exact .inl ⟨hfree, if_pos hfree⟩
  · exact .inr (if_neg hfree)

theorem deriveAlias_ne_nil (root : JsString) (preferred : Option JsString) (taken : List ProjectEntry) :
    deriveAlias host root preferred taken ≠ [] := by
  have hnumbered (base : JsString) (fuel n : Nat) : deriveNumbered root taken base fuel n ≠ [] := by
    induction fuel generalizing n with
    | zero => simp [deriveNumbered, numbered, ascii]
    | succ fuel ih =>
      unfold deriveNumbered
      split
      · simp [numbered, ascii]
      · exact ih (n + 1)
  obtain ⟨-, heq⟩ | heq := @deriveAlias_cases host root preferred taken
  · exact heq ▸ sanitizeAlias_ne_nil _
  · exact heq ▸ hnumbered _ _ _

/-- The derived alias is nobody else's. -/
theorem deriveAlias_fresh {root : JsString} {preferred : Option JsString} {taken : List ProjectEntry}
    (hroot : ∀ e ∈ taken, e.root ≠ root) :
    deriveAlias host root preferred taken ∉ taken.map ProjectEntry.aliasName := by
  obtain ⟨hfree, heq⟩ | heq := @deriveAlias_cases host root preferred taken
  · exact heq ▸ not_mem_of_aliasFree hroot hfree
  · exact heq ▸ not_mem_of_aliasFree hroot (deriveNumbered_free root _ taken)

/-! ## Reading -/

/-- A row that reading leaves as it is. -/
structure RowOk (host : RegistryHost) (e : ProjectEntry) : Prop where
  named : e.aliasName ≠ []
  rooted : e.root ≠ []
  expanded : expandHomePrefix host e.root = e.root
  stamped : e.missingSince ≠ some []

/-- Rows with distinct aliases and distinct roots. -/
structure Clean (host : RegistryHost) (entries : List ProjectEntry) : Prop where
  rows : ∀ e ∈ entries, RowOk host e
  aliases : (entries.map ProjectEntry.aliasName).Nodup
  roots : (entries.map (repoKey host)).Nodup

/-- The repair of the aliases, row after row. -/
def repairAll (host : RegistryHost) (out rows : List ProjectEntry) : List ProjectEntry :=
  rows.foldl (fun out e => out ++ [repairAlias host out e]) out

/-- The usable rows of the file, the first of each repository. -/
def usableRows (host : RegistryHost) (list : List Json) : List ProjectEntry :=
  keepFirst (repoKey host) [] (list.filterMap (storedRow host))

theorem readRows_eq (seen : List JsString) (out : List ProjectEntry) (list : List Json) :
    readRows host seen out list = repairAll host out (keepFirst (repoKey host) seen (list.filterMap (storedRow host))) := by
  induction list generalizing seen out with
  | nil => rfl
  | cons raw list ih =>
    unfold readRows
    cases hrow : storedRow host raw with
    | none =>
      rw [List.filterMap_cons_none hrow]
      exact ih seen out
    | some e =>
      rw [List.filterMap_cons_some hrow, keepFirst]
      dsimp only
      split
      · exact ih seen out
      · rw [ih]
        rfl

theorem readRegistryRaw_eq (file : ProjectsFile) (readable : Bool) :
    readRegistryRaw host file readable = repairAll host [] (usableRows host (projectRows file readable)) :=
  readRows_eq [] [] _

theorem storedRow_rowOk (h : host.Documented) {raw : Json} {e : ProjectEntry} (he : storedRow host raw = some e) :
    RowOk host e := by
  unfold storedRow at he
  split at he
  · cases he
  · rename_i hblank
    simp only [Bool.or_eq_true, decide_eq_true_eq, not_or] at hblank
    obtain rfl := Option.some.inj he
    refine ⟨hblank.1, expand_ne_nil h hblank.2, expand_expand h _, ?_⟩
    dsimp only
    split
    · exact Option.some_ne_none _ ∘ Eq.symm
    · rename_i hmissing
      exact fun heq => hmissing (Option.some.inj heq)

@[simp] theorem repairAlias_root (out : List ProjectEntry) (e : ProjectEntry) :
    (repairAlias host out e).root = e.root := by
  unfold repairAlias
  split <;> rfl

theorem repoKey_congr {a b : ProjectEntry} (h : a.root = b.root) : repoKey host a = repoKey host b := by
  unfold repoKey
  rw [h]

/-- A row whose repository no earlier row has keeps the list clean. -/
theorem clean_append {out : List ProjectEntry} {e : ProjectEntry} (hout : Clean host out) (he : RowOk host e)
    (hname : e.aliasName ∉ out.map ProjectEntry.aliasName) (hkey : repoKey host e ∉ out.map (repoKey host)) :
    Clean host (out ++ [e]) where
  rows := by
    intro e' he'
    rcases List.mem_append.1 he' with he' | he'
    · exact hout.rows e' he'
    · exact List.mem_singleton.1 he' ▸ he
  aliases := by
    rw [List.map_append]
    exact List.Nodup.append hout.aliases (List.nodup_singleton _) (List.disjoint_singleton.2 hname)
  roots := by
    rw [List.map_append]
    exact List.Nodup.append hout.roots (List.nodup_singleton _) (List.disjoint_singleton.2 hkey)

theorem roots_ne {out : List ProjectEntry} {e : ProjectEntry} (hkey : repoKey host e ∉ out.map (repoKey host)) :
    ∀ o ∈ out, o.root ≠ e.root :=
  fun o ho heq => hkey (List.mem_map.2 ⟨o, ho, repoKey_congr heq⟩)

theorem clean_repair {out : List ProjectEntry} {e : ProjectEntry} (hout : Clean host out) (he : RowOk host e)
    (hkey : repoKey host e ∉ out.map (repoKey host)) : Clean host (out ++ [repairAlias host out e]) := by
  unfold repairAlias
  split
  · refine clean_append hout ⟨deriveAlias_ne_nil _ _ _, he.rooted, he.expanded, he.stamped⟩ ?_ hkey
    exact deriveAlias_fresh (roots_ne hkey)
  · rename_i hfree
    refine clean_append hout he (fun hmem => hfree ?_) hkey
    obtain ⟨o, ho, hname⟩ := List.mem_map.1 hmem
    exact List.any_eq_true.2 ⟨o, ho, decide_eq_true hname⟩

theorem clean_repairAll {out rows : List ProjectEntry} (hout : Clean host out) (hrows : ∀ e ∈ rows, RowOk host e)
    (hkeys : (out.map (repoKey host) ++ rows.map (repoKey host)).Nodup) : Clean host (repairAll host out rows) := by
  induction rows generalizing out with
  | nil => exact hout
  | cons e rows ih =>
    have hkey : repoKey host e ∉ out.map (repoKey host) := fun hmem =>
      (List.nodup_append.1 hkeys).2.2 _ hmem _ List.mem_cons_self rfl
    have hrepaired : repoKey host (repairAlias host out e) = repoKey host e := repoKey_congr (repairAlias_root out e)
    refine ih (clean_repair hout (hrows e List.mem_cons_self) hkey) (fun e' he' => hrows e' (List.mem_cons_of_mem e he')) ?_
    rw [List.map_append, List.map_singleton, hrepaired, List.append_assoc]
    exact hkeys

theorem clean_nil : Clean host [] := ⟨fun _ h => absurd h List.not_mem_nil, List.nodup_nil, List.nodup_nil⟩

theorem usableRows_rowOk (h : host.Documented) (list : List Json) : ∀ e ∈ usableRows host list, RowOk host e := by
  intro e he
  obtain ⟨raw, -, hrow⟩ := List.mem_filterMap.1 ((keepFirst_sublist _ _).subset he)
  exact storedRow_rowOk h hrow

theorem usableRows_nodup (list : List Json) : ((usableRows host list).map (repoKey host)).Nodup :=
  List.pairwise_map.2 (keepFirst_pairwise_ne [] _)

/-- Whatever the file holds, the rows read have distinct aliases and distinct roots. -/
theorem read_clean (h : host.Documented) (file : ProjectsFile) (readable : Bool) :
    Clean host (readRegistryRaw host file readable) := by
  rw [readRegistryRaw_eq]
  exact clean_repairAll clean_nil (usableRows_rowOk h _) (usableRows_nodup _)

/-! ## Reading what was written -/

theorem toIdentity_val (id : Identity) : toIdentity id.val = some id := by
  rw [toIdentity, dif_pos id.valid]
  obtain ⟨val, valid, lower⟩ := id
  simp only [lower]

theorem textField_str {fields : List (JsString × Json)} {key : String} {s : JsString}
    (h : (fields.reverse.find? fun p => p.1 = ascii key).map Prod.snd = some (.str s)) :
    textField key (.obj fields) = s := by
  rw [textField, Json.field, h]

theorem textField_none {fields : List (JsString × Json)} {key : String}
    (h : (fields.reverse.find? fun p => p.1 = ascii key).map Prod.snd = none) : textField key (.obj fields) = [] := by
  rw [textField, Json.field, h]

theorem storedRow_projectJson {e : ProjectEntry} (h : RowOk host e) : storedRow host (projectJson e) = some e := by
  obtain ⟨name, root, id, missing⟩ := e
  have hname : textField "alias" (projectJson ⟨name, root, id, missing⟩) = name := by
    cases id <;> cases missing <;> exact textField_str (by simp [optionalField, ascii])
  have hroot : textField "root" (projectJson ⟨name, root, id, missing⟩) = root := by
    cases id <;> cases missing <;> exact textField_str (by simp [optionalField, ascii])
  have hid : toIdentity (textField "id" (projectJson ⟨name, root, id, missing⟩)) = id := by
    cases id with
    | none =>
      have hnone : textField "id" (projectJson ⟨name, root, none, missing⟩) = [] := by
        cases missing <;> exact textField_none (by simp [optionalField, ascii])
      rw [hnone]
      rfl
    | some i =>
      have hsome : textField "id" (projectJson ⟨name, root, some i, missing⟩) = i.val := by
        cases missing <;> exact textField_str (by simp [optionalField, ascii])
      rw [hsome, toIdentity_val]
  have hmissing : textField "missing_since" (projectJson ⟨name, root, id, missing⟩) = missing.getD [] := by
    cases missing with
    | none => cases id <;> exact textField_none (by simp [optionalField, ascii])
    | some m => cases id <;> exact textField_str (by simp [optionalField, ascii])
  rw [storedRow, hname, hroot, hid, hmissing, if_neg]
  · have hstamp := h.stamped
    cases missing with
    | none => simp [h.expanded]
    | some m =>
      have hm : m ≠ [] := fun heq => hstamp (congrArg some heq)
      simp [h.expanded, hm]
  · simp only [Bool.or_eq_true, decide_eq_true_eq, not_or]
    exact ⟨h.named, h.rooted⟩

/-- Distinct keys are all kept. -/
theorem keepFirst_of_nodup {rows : List ProjectEntry} {seen : List JsString}
    (h : (seen ++ rows.map (repoKey host)).Nodup) : keepFirst (repoKey host) seen rows = rows := by
  induction rows generalizing seen with
  | nil => rfl
  | cons e rows ih =>
    have hnew : repoKey host e ∉ seen := fun hmem => (List.nodup_append.1 h).2.2 _ hmem _ List.mem_cons_self rfl
    rw [keepFirst, if_neg hnew, ih]
    refine (List.Perm.nodup_iff ?_).1 h
    exact (List.perm_middle (a := repoKey host e))

/-- Distinct aliases need no repair. -/
theorem repairAll_of_nodup {out rows : List ProjectEntry}
    (h : (out.map ProjectEntry.aliasName ++ rows.map ProjectEntry.aliasName).Nodup) :
    repairAll host out rows = out ++ rows := by
  induction rows generalizing out with
  | nil => exact (List.append_nil out).symm
  | cons e rows ih =>
    have hnew : ¬ (out.any fun o => o.aliasName = e.aliasName) = true := by
      rw [List.any_eq_true]
      rintro ⟨o, ho, hname⟩
      exact (List.nodup_append.1 h).2.2 _ (List.mem_map_of_mem ho) _ List.mem_cons_self (of_decide_eq_true hname)
    have hsame : repairAlias host out e = e := if_neg hnew
    show repairAll host (out ++ [repairAlias host out e]) rows = _
    rw [hsame, ih, List.append_assoc, List.singleton_append]
    rw [List.map_append, List.append_assoc]
    exact h

theorem read_written {entries : List ProjectEntry} (h : Clean host entries) :
    readRegistryRaw host (.text (some (projectsJson entries))) true = entries := by
  have hlist : (projectsJson entries).field "projects" = some (.arr (entries.map projectJson)) := by
    simp [projectsJson, Json.field, ascii]
  have hrows : (entries.map projectJson).filterMap (storedRow host) = entries := by
    rw [List.filterMap_map]
    have hall : ∀ e ∈ entries, (storedRow host ∘ projectJson) e = some e := fun e he =>
      storedRow_projectJson (h.rows e he)
    rw [List.filterMap_congr hall, List.filterMap_some]
  rw [readRegistryRaw_eq, projectRows]
  simp only [hlist, if_true, usableRows]
  rw [hrows, keepFirst_of_nodup (by simpa using h.roots), repairAll_of_nodup (by simpa using h.aliases),
    List.nil_append]

/-! ## Aliases that reading keeps -/

/-- A row whose alias no other row carries is read under it. -/
def AliasesKept (host : RegistryHost) (rows : List ProjectEntry) : Prop :=
  ∀ e ∈ rows, (∀ o ∈ rows, o.aliasName = e.aliasName → o = e) → e ∈ repairAll host [] rows

/-- No row that repeats an earlier row's alias is given the alias of a later row that alone carries it. -/
def NoTheft (host : RegistryHost) (rows : List ProjectEntry) : Prop :=
  ∀ before twin between e after, rows = before ++ twin :: between ++ e :: after →
    twin.aliasName ∈ (repairAll host [] before).map ProjectEntry.aliasName →
    (∀ o ∈ rows, o.aliasName = e.aliasName → o = e) →
      deriveAlias host twin.root (some twin.aliasName) (repairAll host [] before) ≠ e.aliasName

theorem repairAll_snoc (rows : List ProjectEntry) (e : ProjectEntry) :
    repairAll host [] (rows ++ [e]) = repairAll host [] rows ++ [repairAlias host (repairAll host [] rows) e] :=
  List.foldl_append

/-- What is read is a row repaired against those before it. -/
theorem mem_repairAll {rows : List ProjectEntry} {x : ProjectEntry} (h : x ∈ repairAll host [] rows) :
    ∃ before e after, rows = before ++ e :: after ∧ x = repairAlias host (repairAll host [] before) e := by
  induction rows using List.reverseRecOn with
  | nil => exact absurd h List.not_mem_nil
  | append_singleton rows e ih =>
    rw [repairAll_snoc, List.mem_append, List.mem_singleton] at h
    rcases h with h | rfl
    · obtain ⟨before, e', after, rfl, rfl⟩ := ih h
      exact ⟨before, e', after ++ [e], by simp, rfl⟩
    · exact ⟨rows, e, [], rfl, rfl⟩

theorem repairAll_mem (before : List ProjectEntry) (e : ProjectEntry) (after : List ProjectEntry) :
    repairAlias host (repairAll host [] before) e ∈ repairAll host [] (before ++ e :: after) := by
  induction after using List.reverseRecOn with
  | nil =>
    rw [repairAll_snoc]
    exact List.mem_append_right _ List.mem_cons_self
  | append_singleton after x ih =>
    rw [← List.cons_append, ← List.append_assoc, repairAll_snoc]
    exact List.mem_append_left _ ih

theorem repairAlias_of_mem {out : List ProjectEntry} {e : ProjectEntry}
    (h : e.aliasName ∈ out.map ProjectEntry.aliasName) :
    repairAlias host out e = { e with aliasName := deriveAlias host e.root (some e.aliasName) out } := by
  obtain ⟨o, ho, hname⟩ := List.mem_map.1 h
  exact if_pos (List.any_eq_true.2 ⟨o, ho, decide_eq_true hname⟩)

theorem repairAlias_of_not_mem {out : List ProjectEntry} {e : ProjectEntry}
    (h : e.aliasName ∉ out.map ProjectEntry.aliasName) : repairAlias host out e = e := by
  refine if_neg fun hany => h ?_
  obtain ⟨o, ho, hname⟩ := List.any_eq_true.1 hany
  exact List.mem_map.2 ⟨o, ho, of_decide_eq_true hname⟩

theorem aliasesKept_iff {rows : List ProjectEntry} (hrows : ∀ e ∈ rows, RowOk host e)
    (hkeys : (rows.map (repoKey host)).Nodup) : AliasesKept host rows ↔ NoTheft host rows := by
  have hinj : ∀ a ∈ rows, ∀ b ∈ rows, repoKey host a = repoKey host b → a = b :=
    fun a ha b hb => List.inj_on_of_nodup_map hkeys ha hb
  have hclean : Clean host (repairAll host [] rows) := clean_repairAll clean_nil hrows (by simpa using hkeys)
  constructor
  · rintro hkept before twin between e after hsplit htwin hsole hstolen
    have he : e ∈ rows := hsplit ▸ List.mem_append_right _ List.mem_cons_self
    have ht : twin ∈ rows := by rw [hsplit]; simp
    -- the twin's repaired row and `e` would be read under one alias
    have hread : repairAlias host (repairAll host [] before) twin ∈ repairAll host [] rows := by
      have := @repairAll_mem host before twin (between ++ e :: after)
      rwa [← List.cons_append, ← List.append_assoc, ← hsplit] at this
    have hsame : repairAlias host (repairAll host [] before) twin = e := by
      refine List.inj_on_of_nodup_map hclean.aliases hread (hkept e he hsole) ?_
      rw [repairAlias_of_mem htwin]
      exact hstolen
    have hte : twin = e := hinj twin ht e he (repoKey_congr (by rw [← hsame, repairAlias_root]))
    have hnodup := List.Nodup.of_map _ hkeys
    rw [hsplit, List.nodup_append] at hnodup
    exact hnodup.2.2 twin (by simp) e List.mem_cons_self hte
  · intro htheft e he hsole
    obtain ⟨pre, post, hsplit⟩ := List.append_of_mem he
    have hnodup := List.Nodup.of_map _ hkeys
    have hfree : e.aliasName ∉ (repairAll host [] pre).map ProjectEntry.aliasName := by
      intro hmem
      obtain ⟨x, hx, hname⟩ := List.mem_map.1 hmem
      obtain ⟨before, twin, between, rfl, rfl⟩ := mem_repairAll hx
      have ht : twin ∈ rows := by rw [hsplit]; simp
      by_cases htwin : twin.aliasName ∈ (repairAll host [] before).map ProjectEntry.aliasName
      · rw [repairAlias_of_mem htwin] at hname
        exact htheft before twin between e post (by simpa using hsplit) htwin hsole hname
      · rw [repairAlias_of_not_mem htwin] at hname
        rw [hsplit, List.nodup_append] at hnodup
        exact hnodup.2.2 twin (by simp) e List.mem_cons_self (hsole twin ht hname)
    have hread := @repairAll_mem host pre e post
    rwa [repairAlias_of_not_mem hfree, ← hsplit] at hread

/-! ## Lists that stay clean -/

theorem clean_sublist {entries next : List ProjectEntry} (h : Clean host entries) (hsub : next.Sublist entries) :
    Clean host next :=
  ⟨fun e he => h.rows e (hsub.subset he), h.aliases.sublist (hsub.map _), h.roots.sublist (hsub.map _)⟩

theorem clean_perm {entries next : List ProjectEntry} (h : Clean host entries) (hp : next.Perm entries) :
    Clean host next :=
  ⟨fun e he => h.rows e (hp.subset he), (hp.map _).nodup_iff.2 h.aliases, (hp.map _).nodup_iff.2 h.roots⟩

theorem sortEntries_perm (entries : List ProjectEntry) : (sortEntries host entries).Perm entries :=
  sortWith_perm _ entries

/-- Rewriting rows under their alias and root. -/
theorem clean_map {entries : List ProjectEntry} {f : ProjectEntry → ProjectEntry} (h : Clean host entries)
    (hname : ∀ e, (f e).aliasName = e.aliasName) (hroot : ∀ e, (f e).root = e.root)
    (hstamp : ∀ e, RowOk host e → (f e).missingSince ≠ some []) : Clean host (entries.map f) where
  rows := by
    intro x hx
    obtain ⟨e, he, rfl⟩ := List.mem_map.1 hx
    have hrow := h.rows e he
    exact ⟨hname e ▸ hrow.named, hroot e ▸ hrow.rooted, hroot e ▸ hrow.expanded, hstamp e hrow⟩
  aliases := by
    rw [List.map_map, Function.comp_def]
    simpa only [hname] using h.aliases
  roots := by
    have hkey : (entries.map f).map (repoKey host) = entries.map (repoKey host) := by
      rw [List.map_map]
      exact List.map_congr_left fun e _ => repoKey_congr (hroot e)
    rw [hkey]
    exact h.roots

/-- Putting one row in the place of another is appending it to the others. -/
theorem replaceEntry_perm {entries : List ProjectEntry} (hnodup : entries.Nodup) {previous entry : ProjectEntry}
    (hmem : previous ∈ entries) :
    (replaceEntry host previous entry entries).Perm (entries.filter (fun e => e ≠ previous) ++ [entry]) := by
  obtain ⟨pre, post, rfl⟩ := List.append_of_mem hmem
  rw [List.nodup_append, List.nodup_cons] at hnodup
  have hpre : ∀ e ∈ pre, e ≠ previous := fun e he => hnodup.2.2 e he previous List.mem_cons_self
  have hpost : ∀ e ∈ post, e ≠ previous := fun e he heq => hnodup.2.1.1 (heq ▸ he)
  have hmap {l : List ProjectEntry} (hl : ∀ e ∈ l, e ≠ previous) :
      (l.map fun e => if e = previous then entry else e) = l := by
    conv => rhs; rw [← List.map_id l]
    exact List.map_congr_left fun e he => if_neg (hl e he)
  have hfilter {l : List ProjectEntry} (hl : ∀ e ∈ l, e ≠ previous) :
      l.filter (fun e => e ≠ previous) = l := List.filter_eq_self.2 fun e he => decide_eq_true (hl e he)
  refine (sortEntries_perm _).trans ?_
  rw [List.map_append, List.map_cons, hmap hpre, hmap hpost, if_pos rfl, List.filter_append, hfilter hpre,
    List.filter_cons_of_neg (by simp), hfilter hpost]
  exact List.perm_middle.trans (List.perm_append_singleton entry (pre ++ post)).symm

theorem nodup_of_clean {entries : List ProjectEntry} (h : Clean host entries) : entries.Nodup :=
  List.Nodup.of_map _ h.aliases

theorem eq_of_aliasName {entries : List ProjectEntry} (h : Clean host entries) {a b : ProjectEntry} (ha : a ∈ entries)
    (hb : b ∈ entries) (hname : a.aliasName = b.aliasName) : a = b :=
  List.inj_on_of_nodup_map h.aliases ha hb hname

/-- The rows that are not at a root do not share its key. -/
theorem repoKey_ne (h : host.Documented) {abs : JsString} (habs : host.isAbsolute abs = true) {e : ProjectEntry}
    (he : isAt host abs e = false) : repoKey host e ≠ host.rootKey abs := by
  unfold repoKey
  split
  · rename_i hroot
    simpa [isAt, sameRoot, hroot] using he
  · exact fun heq => h.key_resolvable abs e.root habs heq.symm

theorem repoKey_of_isAt {abs : JsString} {e : ProjectEntry} (he : isAt host abs e = true) :
    repoKey host e = host.rootKey abs := by
  simp only [isAt, sameRoot, Bool.and_eq_true, decide_eq_true_eq] at he
  rw [repoKey, if_pos he.1, he.2]

/-- Appending a row for a root that no other row names. -/
theorem clean_with {entries : List ProjectEntry} (h : host.Documented) (hclean : Clean host entries) {abs : JsString}
    (habs : host.isAbsolute abs = true) {e : ProjectEntry} (hroot : e.root = abs) (hnamed : e.aliasName ≠ [])
    (hstamp : e.missingSince ≠ some []) (hname : e.aliasName ∉ entries.map ProjectEntry.aliasName)
    (hat : ∀ o ∈ entries, isAt host abs o = false) : Clean host (entries ++ [e]) := by
  subst hroot
  refine clean_append hclean ⟨hnamed, (h.absolute_head _ habs).1, expand_absolute h habs, hstamp⟩ hname ?_
  intro hmem
  obtain ⟨o, ho, hkey⟩ := List.mem_map.1 hmem
  rw [show repoKey host e = host.rootKey e.root from if_pos habs] at hkey
  exact repoKey_ne h habs (hat o ho) hkey

end Host

end Hayven.Daemon
