import Hayven.Graph.SharedIndexLaws
/-!
# Rebuilding a marked index

A whole rebuild that runs alone ends with a usable index exactly if every other token in the
marker is a sentinel or its process is gone. A token whose handle is closed stays as long as
its process lives. Both hold from every state that guarded runs reach, where a partial index
never reads as usable: `marker_sound`.
-/
open Hayven.Lib Hayven.Db

namespace Hayven.Graph.SharedIndex

variable {env : Env} {s u u' t : Shared}

/-! ## A rebuild alone -/

/-- The nodes the parser emits, and the times of the writes. -/
structure Rebuild where
  nodes : List GraphNode
  clearedAt : Double
  drainedAt : Double

/-- The steps of a rebuild that flushes batches of these sizes: the daemon clears first, the
command line lets the drain do it. -/
def Rebuild.actions (r : Rebuild) (h : Nat) (clearsFirst : Bool) (counts : List Nat) : List Action :=
  (if clearsFirst then [.clearFirst h r.clearedAt, .drain h .afterClear r.nodes r.drainedAt, .startRecord h r.clearedAt]
    else [.drain h .rebuild r.nodes r.drainedAt, .startRecord h r.clearedAt]) ++
    (counts.map (.flushNodes h) ++ [.succeed h])

section Rebuild
variable (env) in
abbrev Runs (s : Shared) (actions : List Action) (t : Shared) : Prop :=
  runAll (step env) (fun _ _ => true) s actions = some t

/-- Since the clear: the tokens that stayed, and the one of the handle. -/
structure Rebuilding (env : Env) (s : Shared) (h : Nat) (c : Client) (u : Shared)
    (pending : List GraphNode) : Prop where
  client : ∃ d, u.clients h = some ⟨c.pid, some (s.token env c), .draining d⟩ ∧ d.started = true ∧
    d.job.fullRebuild = true ∧ d.pending = pending
  tokens : ∀ e, e ∈ u.db.tokens env.rt ↔ e = s.token env c ∨ (e ∈ s.db.tokens env.rt ∧ s.givesWay e = false)

variable {h : Nat} {c : Client}

theorem runs_cons {a : Action} {actions : List Action} :
    Runs env s (a :: actions) t ↔ ∃ u, step env s a = some u ∧ Runs env u actions t := by
  rw [Runs, runAll, if_pos rfl]
  exact Option.bind_eq_some_iff

theorem step_client {a : Action} (ha : a.handle = some h) (hc : s.clients h = some c) :
    step env s a = clientStep env s c a := by
  rw [step_eq ha, hc, Option.bind_some]

theorem clients_put (s : Shared) (h : Nat) (c : Client) : (s.put h c).clients h = some c := Function.update_self ..

/-- The clear and the mark, in either order. -/
theorem rebuilding_of_opening (hrt : env.rt.Lossless) (hc : s.clients h = some c) (hidle : c.phase = .idle)
    (r : Rebuild) (clearsFirst : Bool) :
    ∃ u, Rebuilding env s h c u r.nodes ∧ ∀ (counts : List Nat) t, Runs env s (r.actions h clearsFirst counts) t ↔
      Runs env u (counts.map (.flushNodes h) ++ [.succeed h]) t := by
  have hgives : ∀ e, s.givesWay e = false ↔ isAdoptableToken e = false ∧ isDeadOwnerToken s.alive e = false :=
    fun e => Bool.or_eq_false_iff
  cases clearsFirst with
  | true =>
    let c₁ : Client := { c with ingestToken := some (s.token env c), phase := .cleared }
    let s₁ := s.clear env h c .cleared r.clearedAt
    let d : Drain := ⟨.afterClear, true, false, false, [], r.nodes⟩
    let c₂ : Client := { c₁ with phase := .draining d }
    let s₂ := s₁.declare env h c₁ (.draining d) r.drainedAt
    let u := s₂.put h { c₂ with phase := .draining { d with started := true } }
    have h₁ : s₁.clients h = some c₁ := Function.update_self ..
    have h₂ : s₂.clients h = some c₂ := Function.update_self ..
    refine ⟨u, ⟨⟨_, clients_put .., rfl, rfl, rfl⟩, ?_⟩, fun counts t => ?_⟩
    · intro e
      have hdb : u.db = (s.db.clearGraph env.rt s.alive (s.token env c) r.clearedAt).beginIngest env.rt (s.token env c)
        r.drainedAt := rfl
      rw [hdb, IndexFile.mem_tokens_beginIngest hrt, IndexFile.mem_tokens_clearGraph hrt, hgives]
      tauto
    · have hclear : step env s (.clearFirst h r.clearedAt) = some s₁ := by
        rw [step_client rfl hc, clientStep, hidle]
      have hdrain : step env s₁ (.drain h .afterClear r.nodes r.drainedAt) = some s₂ := by
        rw [step_client rfl h₁, clientStep]
        rfl
      have hstart : step env s₂ (.startRecord h r.clearedAt) = some u := by
        rw [step_client rfl h₂, clientStep]
        rfl
      rw [Rebuild.actions, if_pos rfl]
      simp only [List.cons_append, List.nil_append, runs_cons, hclear, hdrain, hstart, Option.some.injEq,
        exists_eq_left']
  | false =>
    let d : Drain := ⟨.rebuild, c.ingestToken.isSome, false, false, [], r.nodes⟩
    let c₁ : Client := { c with ingestToken := some (s.token env c), phase := .draining d }
    let s₁ := s.declare env h c (.draining d) r.drainedAt
    let u := s₁.clear env h c₁ (.draining { d with started := true, mutatedIndex := true }) r.clearedAt
    have h₁ : s₁.clients h = some c₁ := Function.update_self ..
    refine ⟨u, ⟨⟨_, clients_put .., rfl, rfl, rfl⟩, ?_⟩, fun counts t => ?_⟩
    · intro e
      have hdb : u.db = (s.db.beginIngest env.rt (s.token env c) r.drainedAt).clearGraph env.rt s.alive (s.token env c)
        r.clearedAt := rfl
      rw [hdb, IndexFile.mem_tokens_clearGraph hrt, IndexFile.mem_tokens_beginIngest hrt, hgives]
      tauto
    · have hdrain : step env s (.drain h .rebuild r.nodes r.drainedAt) = some s₁ := by
        rw [step_client rfl hc, clientStep, hidle]
        rfl
      have hstart : step env s₁ (.startRecord h r.clearedAt) = some u := by
        rw [step_client rfl h₁, clientStep]
        rfl
      rw [Rebuild.actions, if_neg Bool.false_ne_true]
      simp only [List.cons_append, List.nil_append, runs_cons, hdrain, hstart, Option.some.injEq, exists_eq_left']

/-- A flush leaves the marker. -/
theorem Rebuilding.flush {pending : List GraphNode} (hr : Rebuilding env s h c u pending) {count : Nat}
    (hs : step env u (.flushNodes h count) = some u') : Rebuilding env s h c u' (pending.drop count) := by
  obtain ⟨d, hd, hstarted, hfull, rfl⟩ := hr.client
  rw [step_client rfl hd, clientStep] at hs
  dsimp only at hs
  split at hs
  case isFalse => cases hs
  case isTrue =>
    obtain rfl := Option.some.inj hs
    exact ⟨⟨_, clients_put .., hstarted, hfull, rfl⟩, hr.tokens⟩

theorem Rebuilding.succeed {pending : List GraphNode} (hrt : env.rt.Documented) (hr : Rebuilding env s h c u pending)
    (hs : step env u (.succeed h) = some t) :
    t.db.Healthy env.rt ↔ ∀ e ∈ s.db.tokens env.rt, s.givesWay e = false → e = s.token env c := by
  obtain ⟨d, hd, hstarted, hfull, rfl⟩ := hr.client
  rw [step_client rfl hd, clientStep] at hs
  dsimp only at hs
  split at hs
  case isFalse => cases hs
  case isTrue =>
    obtain rfl := Option.some.inj hs
    have hdb : (u.complete env h ⟨c.pid, some (s.token env c), .draining d⟩ d.job).db =
        u.db.succeed env.rt (some (s.token env c)) true := by
      rw [← hfull]
      rfl
    rw [hdb, IndexFile.healthy_succeed_iff hrt]
    constructor
    · intro hall e he hstays
      exact hall e ((hr.tokens e).2 (.inr ⟨he, hstays⟩))
    · intro hall e he
      rcases (hr.tokens e).1 he with rfl | ⟨hmem, hstays⟩
      · rfl
      · exact hall e hmem hstays

theorem Rebuilding.finish {pending : List GraphNode} (hrt : env.rt.Documented) (hr : Rebuilding env s h c u pending)
    {counts : List Nat} (hs : Runs env u (counts.map (.flushNodes h) ++ [.succeed h]) t) :
    t.db.Healthy env.rt ↔ ∀ e ∈ s.db.tokens env.rt, s.givesWay e = false → e = s.token env c := by
  induction counts generalizing u pending with
  | nil =>
    obtain ⟨t', hstep, hend⟩ := runs_cons.1 hs
    obtain rfl := Option.some.inj hend
    exact hr.succeed hrt hstep
  | cons count counts ih =>
    obtain ⟨u', hstep, hrest⟩ := runs_cons.1 hs
    exact ih (hr.flush hstep) hrest

/-- The nodes go out in one batch. -/
theorem Rebuilding.ends {pending : List GraphNode} (hr : Rebuilding env s h c u pending) :
    ∃ (counts : List Nat) (t : Shared), Runs env u (counts.map (.flushNodes h) ++ [.succeed h]) t := by
  have hlast : ∀ {u : Shared}, Rebuilding env s h c u [] → ∃ t, step env u (.succeed h) = some t := by
    intro u hr
    obtain ⟨d, hd, hstarted, -, hnil⟩ := hr.client
    rw [step_client rfl hd, clientStep]
    exact ⟨_, if_pos ⟨hstarted, hnil⟩⟩
  by_cases hnil : pending = []
  · subst hnil
    obtain ⟨t, ht⟩ := hlast hr
    exact ⟨[], t, runs_cons.2 ⟨t, ht, rfl⟩⟩
  · obtain ⟨d, hd, hstarted, -, rfl⟩ := id hr.client
    have hflush : step env u (.flushNodes h d.pending.length) =
        some (u.flush h ⟨c.pid, some (s.token env c), .draining d⟩ d d.pending.length) := by
      rw [step_client rfl hd, clientStep]
      exact if_pos ⟨hstarted, List.length_pos_of_ne_nil hnil, hnil⟩
    have hnext := hr.flush hflush
    rw [List.drop_length] at hnext
    obtain ⟨t, ht⟩ := hlast hnext
    exact ⟨[d.pending.length], t, runs_cons.2 ⟨_, hflush, runs_cons.2 ⟨t, ht, rfl⟩⟩⟩

theorem rebuild_healthy_iff (hrt : env.rt.Documented) (hi : Inv env s) (hc : s.clients h = some c)
    (hidle : c.phase = .idle) (r : Rebuild) (clearsFirst : Bool) {counts : List Nat} (hs : Runs env s (r.actions h clearsFirst counts) t) :
    t.db.Healthy env.rt ↔ ∀ e ∈ s.db.tokens env.rt, c.ingestToken = some e ∨ s.givesWay e = true := by
  obtain ⟨u, hr, hruns⟩ := rebuilding_of_opening hrt.lossless hc hidle r clearsFirst
  rw [hr.finish hrt ((hruns counts t).1 hs)]
  refine forall₂_congr fun e he => ?_
  have hown : e = s.token env c ↔ c.ingestToken = some e := by
    rcases token_cases env s c with hold | ⟨hnone, hnew⟩
    · rw [hold, Option.some.injEq, eq_comm]
    · constructor
      · rintro rfl
        exact absurd hnew (hi.future _ he _ _ le_rfl)
      · intro hsome
        rw [hnone] at hsome
        cases hsome
  rw [hown]
  cases s.givesWay e <;> simp

theorem exists_rebuild (hrt : env.rt.Lossless) (hc : s.clients h = some c) (hidle : c.phase = .idle) (r : Rebuild)
    (clearsFirst : Bool) : ∃ counts t, Runs env s (r.actions h clearsFirst counts) t := by
  obtain ⟨u, hr, hruns⟩ := rebuilding_of_opening hrt hc hidle r clearsFirst
  obtain ⟨counts, t, ht⟩ := hr.ends
  exact ⟨counts, t, (hruns counts t).2 ht⟩

end Rebuild

/-! ## Tokens that nobody retracts -/

/-- A token in the marker whose handle is gone and whose process is not. -/
structure Orphan (env : Env) (s : Shared) (pid : Pid) (token : JsString) : Prop where
  marked : token ∈ s.db.tokens env.rt
  minted : ∃ stamp, token = mintToken pid stamp
  unheld : ∀ h c, s.clients h = some c → ¬ c.Holds token
  alive : s.alive pid.val = true

section Orphan
variable {pid : Pid} {token : JsString}

theorem Orphan.stays (ho : Orphan env s pid token) : s.givesWay token = false := by
  obtain ⟨stamp, rfl⟩ := ho.minted
  rw [Shared.givesWay, isAdoptableToken_mintToken, isDeadOwnerToken_mintToken, ho.alive]
  rfl

theorem Orphan.shrink (ho : Orphan env s pid token) {alive : Nat → Bool} {clients : Nat → Option Client}
    (halive : alive pid.val = true) (hclients : ∀ h c, clients h = some c → ¬ c.Holds token) :
    Orphan env { s with alive := alive, clients := clients } pid token :=
  ⟨ho.marked, ho.minted, hclients, halive⟩

theorem Orphan.step (hrt : env.rt.Lossless) (hi : Inv env s) (ho : Orphan env s pid token) {a : Action}
    (hg : Guarded env s a) (hkill : a ≠ .kill pid) (hs : step env s a = some t) : Orphan env t pid token := by
  cases hhandle : a.handle with
  | some h =>
    rw [step_eq hhandle] at hs
    obtain ⟨c, hc, hs⟩ := Option.bind_eq_some_iff.1 hs
    obtain ⟨c', hm⟩ := hi.moved_step hrt hc hhandle hg hs
    refine ⟨?_, ho.minted, ?_, by rw [hm.alive]; exact ho.alive⟩
    · rcases hm.kept token ho.marked with hkept | hheld | ⟨hgives, -⟩
      · exact hkept
      · exact absurd hheld (ho.unheld h c hc)
      · exact absurd hgives (by rw [ho.stays]; exact Bool.false_ne_true)
    · intro k o hk
      rw [hm.clients] at hk
      by_cases hkh : k = h
      · subst hkh
        rw [Function.update_self] at hk
        obtain rfl := Option.some.inj hk
        intro hholds
        rcases hm.holds token hholds with hheld | ⟨hnew, -⟩
        · exact ho.unheld k c hc hheld
        · exact hi.future token ho.marked _ _ le_rfl hnew
      · rw [Function.update_of_ne hkh] at hk
        exact ho.unheld k o hk
  | none =>
    cases a with
    | spawn p =>
      simp only [SharedIndex.step] at hs
      split at hs
      · cases hs
      obtain rfl := Option.some.inj hs
      refine ho.shrink ?_ ho.unheld
      by_cases hp : pid.val = p.val
      · rw [hp, Function.update_self]
      · rw [Function.update_of_ne hp]
        exact ho.alive
    | kill p =>
      obtain rfl := Option.some.inj hs
      have hp : pid.val ≠ p.val := fun heq => hkill (congrArg Action.kill (Pid.ext heq.symm))
      refine ho.shrink ?_ fun h c hc => ho.unheld h c (Option.filter_eq_some_iff.1 hc).1
      rw [Function.update_of_ne hp]
      exact ho.alive
    | openDb h p =>
      simp only [SharedIndex.step] at hs
      split at hs
      case isFalse => cases hs
      case isTrue =>
        obtain rfl := Option.some.inj hs
        refine ⟨ho.marked, ho.minted, fun k o hk => ?_, ho.alive⟩
        replace hk : Function.update s.clients h (some ⟨p, none, .idle⟩) k = some o := hk
        by_cases hkh : k = h
        · subst hkh
          rw [Function.update_self] at hk
          obtain rfl := Option.some.inj hk
          rintro (hheld | ⟨read, hread⟩)
          · cases hheld
          · cases hread
        · rw [Function.update_of_ne hkh] at hk
          exact ho.unheld k o hk
    | closeDb h =>
      obtain rfl := Option.some.inj hs
      refine ho.shrink ho.alive fun k c hk => ?_
      by_cases hkh : k = h
      · subst hkh
        rw [Function.update_self] at hk
        cases hk
      · rw [Function.update_of_ne hkh] at hk
        exact ho.unheld k c hk
    | _ => cases hhandle

/-- Closing a handle before its run succeeded leaves its token behind. -/
theorem orphan_of_close (hi : Inv env s) {h : Nat} {c : Client} (hc : s.clients h = some c)
    (htoken : c.ingestToken = some token) (hs : step env s (.closeDb h) = some t) : Orphan env t c.pid token := by
  have hclient := hi.client h c hc
  obtain ⟨n, -, hminted⟩ := hclient.minted token (.inl htoken)
  obtain rfl := Option.some.inj hs
  refine ⟨hclient.declared token htoken, ⟨_, hminted⟩, fun k o hk hholds => ?_, hclient.alive⟩
  replace hk : Function.update s.clients h none k = some o := hk
  by_cases hkh : k = h
  · subst hkh
    rw [Function.update_self] at hk
    cases hk
  · rw [Function.update_of_ne hkh] at hk
    exact hkh (hi.sole k h o c token hk hc hholds (.inl htoken))

/-- As long as its process lives, no step takes it out, and no rebuild ends healthy. -/
theorem orphan_wedges (hrt : env.rt.Documented) (hi : Inv env s) (ho : Orphan env s pid token)
    (hrun : Run (step env) (fun s a => Guarded env s a ∧ a ≠ .kill pid) s u) :
    ¬ u.db.Healthy env.rt ∧ ∀ h c, u.clients h = some c → c.phase = .idle →
      ∀ (r : Rebuild) clearsFirst counts t, Runs env u (r.actions h clearsFirst counts) t → ¬ t.db.Healthy env.rt := by
  obtain ⟨hi', ho'⟩ : Inv env u ∧ Orphan env u pid token := by
    refine hrun.invariant (P := fun u => Inv env u ∧ Orphan env u pid token) ⟨hi, ho⟩ ?_
    rintro u a u' ⟨hi, ho⟩ ⟨hg, hkill⟩ hs
    exact ⟨(inv_step hrt.lossless hi hg hs).1, ho.step hrt.lossless hi hg hkill hs⟩
  refine ⟨fun hhealthy => ?_, fun h c hc hidle r clearsFirst counts t ht hhealthy => ?_⟩
  · have hmarked := ho'.marked
    rw [hhealthy.tokens_eq_nil] at hmarked
    exact absurd hmarked List.not_mem_nil
  · rcases (rebuild_healthy_iff hrt hi' hc hidle r clearsFirst ht).1 hhealthy token ho'.marked with hown | hgives
    · exact ho'.unheld h c hc (.inl hown)
    · rw [ho'.stays] at hgives
      cases hgives

end Orphan

/-! ## The marker is sound -/

structure MarkerSound (env : Env) (s : Shared) : Prop where
  unhealthy : s.Partial → ¬ s.db.Healthy env.rt
  retracts : ∀ a t, Guarded env s a → step env s a = some t → RetractsOwn env s a t
  rebuilt : ∀ h c, s.clients h = some c → c.phase = .idle → ∀ (r : Rebuild) (clearsFirst : Bool),
    (∃ counts t, Runs env s (r.actions h clearsFirst counts) t) ∧
      ∀ counts t, Runs env s (r.actions h clearsFirst counts) t →
        (t.db.Healthy env.rt ↔ ∀ token ∈ s.db.tokens env.rt, c.ingestToken = some token ∨ s.givesWay token = true)

theorem marker_sound {s₀ : Shared} (hrt : env.rt.Documented) (h₀ : Start env s₀)
    (h : Run (step env) (Guarded env) s₀ s) : MarkerSound env s := by
  have hi := inv_of_run hrt.lossless h₀ h
  constructor
  · exact hi.not_healthy
  · exact fun a t hg hs => (inv_step hrt.lossless hi hg hs).2
  · intro k c hc hidle r clearsFirst
    exact ⟨exists_rebuild hrt.lossless hc hidle r clearsFirst,
      fun counts t ht => rebuild_healthy_iff hrt hi hc hidle r clearsFirst ht⟩

/-! ## A batch of one file -/

def plainEnv : Env := ⟨decimalNumberText, decDigits, fun _ _ => decDigits_inj⟩

theorem isDouble_zero : IsDouble 0 := by decide +kernel

def now : Double := ⟨0, isDouble_zero⟩

def daemon : Pid := ⟨7, by decide, by decide⟩

def nodeOf (file : String) : GraphNode := ⟨ascii file, ascii file, ascii file, .module, ascii file⟩

/-- An index of two files that an ingest completed; no process runs. -/
def twoFiles : Shared where
  db := ⟨GraphDb.empty.upsertNodes [nodeOf "a.ts", nodeOf "b.ts"], none, some (ascii "2")⟩
  alive _ := false
  clients _ := none
  issued := 0
  owed _ := none
  lost _ _ := false

theorem start_twoFiles : Start plainEnv twoFiles := ⟨fun _ => rfl, fun _ _ => nofun, fun _ h => nomatch h⟩

/-- The batch of the command line marks the index before it purges. -/
theorem marker_sound_purging : ∃ s, Run (step plainEnv) (Guarded plainEnv) twoFiles s ∧ s.Partial ∧
    ¬ s.db.Healthy plainEnv.rt := by
  have hspawn : Run (step plainEnv) (Guarded plainEnv) twoFiles _ :=
    Run.refl.tail (a := Action.spawn daemon) trivial rfl
  have hopen := hspawn.tail (a := Action.openDb 0 daemon) trivial rfl
  have hstart := hopen.tail (a := Action.startBatch 0 true [ascii "a.ts"] [] now) trivial rfl
  have hpurge := hstart.tail (a := Action.purge 0) (by
    intro c marks file todo changed hc hphase hfile hrows
    obtain rfl := Option.some.inj hc
    exact nofun) rfl
  have hsound := marker_sound decimalNumberText_documented start_twoFiles hpurge
  refine ⟨_, hpurge, ⟨ascii "a.ts", ?_⟩, hsound.unhealthy ⟨ascii "a.ts", ?_⟩⟩ <;> decide

/-- The watcher's purges first. -/
theorem watch_batch_unmarked : Start plainEnv twoFiles ∧
    ∃ s, Run (step plainEnv) (fun _ _ => True) twoFiles s ∧ s.Partial ∧ s.db.Healthy plainEnv.rt := by
  have hspawn : Run (step plainEnv) (fun _ _ => True) twoFiles _ := Run.refl.tail (a := Action.spawn daemon) trivial rfl
  have hopen := hspawn.tail (a := Action.openDb 0 daemon) trivial rfl
  have hstart := hopen.tail (a := Action.startBatch 0 false [ascii "a.ts"] [] now) trivial rfl
  have hpurge := hstart.tail (a := Action.purge 0) trivial rfl
  refine ⟨start_twoFiles, _, hpurge, ⟨ascii "a.ts", ?_⟩, healthy_iff.2 ⟨rfl, ?_⟩⟩
  · decide
  · rintro ⟨hempty, -⟩
    exact absurd hempty (by decide)

end Hayven.Graph.SharedIndex
