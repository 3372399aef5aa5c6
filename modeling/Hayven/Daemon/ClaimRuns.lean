import Hayven.Daemon.Claims
/-!
# Runs of the claim board

One daemon with no inbound sync. An event starts a request, answers the oracle
for a waiting one, or releases a claim; what a handler does between two awaits
is one step. The overlap check and the registration of a request that waited
are in different steps: `RaceFree` says what must not have happened in between,
and `no_overlap_without_race` that then no two live claims overlap.
-/
open Hayven.Lib Hayven.Crdt Hayven.Conflict

namespace Hayven.Daemon

structure System where
  board : Board
  pending : List Pending
  /-- The latest time a handler has read. -/
  latest : Int

inductive Event where
  | post (now : Int) (body : Option Json) (r : Surroundings)
  /-- The oracle answers the `i`-th waiting request, or throws. -/
  | resume (i : Nat) (verdict : Option ConflictVerdict) (r : Surroundings)
  | delete (id : JsString) (tick : Int) (appended rowDeleted : Bool)

inductive Reply where
  | post (reply : PostReply)
  | delete (reply : DeleteReply)
deriving DecidableEq

/-- Go on from a stage: answer, wait, or register. -/
def settle (env : Env) (s : System) (r : Surroundings) : Stage → System × Option Reply
  | .replied reply => (s, some (.post reply))
  | .waiting p => ({ s with pending := s.pending ++ [p] }, none)
  | .assessed input verdicts =>
    let done := finishPost env s.board input verdicts r
    ({ s with board := done.1, latest := max s.latest r.created }, some (.post done.2))

def step (env : Env) (s : System) : Event → System × Option Reply
  | .post now body r => settle env { s with latest := max s.latest now } r (beginPost env s.board now body)
  | .resume i verdict r =>
    match s.pending[i]? with
    | none => (s, none)
    | some p =>
      let s := { s with pending := s.pending.eraseIdx i }
      match verdict with
      | none => (s, some (.post .failed))
      | some v => settle env s r (resumePost env s.board p v)
  | .delete id tick appended rowDeleted =>
    let done := deleteClaim env s.board id tick appended rowDeleted
    ({ s with board := done.1 }, some (.delete done.2))

/-- A daemon that has handled nothing yet. -/
def System.fresh : System := ⟨⟨.empty, {}, .empty⟩, [], 0⟩

/-- The systems that events allowed by `ok` lead to. -/
inductive Reach (env : Env) (ok : System → Event → Prop) : System → Prop
  | fresh : Reach env ok .fresh
  | step {s : System} (e : Event) : Reach env ok s → ok s e → Reach env ok (step env s e).1

/-- The clock has not gone back since the last reading. -/
def Timely (s : System) : Event → Prop
  | .post now _ r => s.latest ≤ now ∧ now ≤ r.created
  | .resume _ _ r => s.latest ≤ r.created
  | .delete .. => True

/-- A waiting request that now registers has missed nothing: each claim now live has
another ID, and was on the board when the request checked it or is disjoint from its scope. -/
def MissedNothing (orset : OrSetState) (p : Pending) (created : Int) : Prop :=
  ∀ op ∈ orset.active (some created), op.claimId ≠ p.input.id ∧
    (⟨op.claimId, op.payload.scope⟩ ∈ p.active ∨ DisjointScopes p.input.scope op.payload.scope)

/-- The loop is over and nothing stands in the way. -/
def Stage.willRegister : Stage → Bool
  | .assessed input verdicts => registers input verdicts
  | _ => false

/-- The clock does not go back, and no request registers over a claim it missed while waiting. -/
def RaceFree (env : Env) (s : System) (e : Event) : Prop :=
  Timely s e ∧ match e with
    | .resume i (some v) r => ∀ p ∈ s.pending[i]?, (resumePost env s.board p v).willRegister = true →
        MissedNothing s.board.orset p r.created
    | _ => True

/-- No two claims live at time `t` have intersecting scopes. -/
def NoOverlap (orset : OrSetState) (t : Int) : Prop :=
  ∀ a ∈ orset.active (some t), ∀ b ∈ orset.active (some t), a ≠ b → DisjointScopes a.payload.scope b.payload.scope

/-! ## What the operations make visible -/

theorem visible_addRecord {o : OrSetState} {r : AddRecord} {t : Option JsNumber} {op : OrAddOp}
    (h : (o.addRecord r).Visible t op) : o.Visible t op ∨ op = r.op := by
  unfold OrSetState.addRecord at h
  split at h
  case isTrue hfresh =>
    obtain ⟨r', hr', rfl, hl⟩ := h
    rcases (OrSetState.mem_records_push hfresh).1 hr' with hr' | ⟨rfl, -⟩
    · exact .inl ⟨r', hr', rfl, hl⟩
    · exact .inr rfl
  case isFalse => exact .inl h

theorem visible_apply_add {o o' : OrSetState} {op op' : OrAddOp} {t : Option JsNumber}
    (happly : o.apply (.add op) = .ok o') (h : o'.Visible t op') : o.Visible t op' ∨ op' = op := by
  simp only [OrSetState.apply] at happly
  rcases OrSetState.applyAdd_cases o op with ⟨-, e, he⟩ | ⟨r, rfl, he⟩ <;> rw [he] at happly <;> cases happly
  exact visible_addRecord h

theorem visible_applyRemove {o : OrSetState} {op : OrRemoveOp} {op' : OrAddOp} {t : Option JsNumber}
    (h : (o.applyRemove op).Visible t op') : o.Visible t op' := by
  obtain ⟨r, hr, rfl, hl⟩ := h
  rw [OrSetState.applyRemove, OrSetState.records_foldl_removeTag] at hr
  refine ⟨r, hr, rfl, ?_⟩
  simp only [OrSetState.isLive, Bool.and_eq_true, Bool.not_eq_true', List.contains_eq_mem,
    decide_eq_false_iff_not] at hl ⊢
  exact ⟨fun hm => hl.1 (OrSetState.mem_removed_foldl_removeTag.2 (.inr hm)), hl.2⟩

/-- What is live later is live now. -/
theorem visible_mono {o : OrSetState} {t t' : Int} (hle : t ≤ t') {op : OrAddOp} (h : o.Visible (some t') op) :
    o.Visible (some t) op := by
  obtain ⟨r, hr, rfl, hl⟩ := h
  refine ⟨r, hr, rfl, ?_⟩
  simp only [OrSetState.isLive, Bool.and_eq_true] at hl ⊢
  exact ⟨hl.1, JsNumber.gt_of_le hle hl.2⟩

theorem visible_none {o : OrSetState} {t : Option JsNumber} {op : OrAddOp} (h : o.Visible t op) :
    o.Visible none op := by
  obtain ⟨r, hr, rfl, hl⟩ := h
  refine ⟨r, hr, rfl, ?_⟩
  simp only [OrSetState.isLive, Bool.and_eq_true] at hl ⊢
  exact ⟨hl.1, trivial⟩

/-- Every visible add has a winner of its claim. -/
theorem exists_winner {o : OrSetState} {t : Option JsNumber} {op : OrAddOp} (h : o.Visible t op) :
    ∃ w ∈ o.active t, w.claimId = op.claimId := by
  obtain ⟨r, hr, rfl, hl⟩ := h
  have hmem : r ∈ (o.records r.op.claimId).filter (o.isLive t) := List.mem_filter.2 ⟨hr, hl⟩
  obtain ⟨w, hw⟩ : ∃ w, o.winner t (o.records r.op.claimId) = some w := by
    rw [← Option.isSome_iff_exists, OrSetState.winner, Option.isSome_map, List.getLast?_isSome, ne_eq,
      sortWith_eq_nil]
    exact List.ne_nil_of_mem hmem
  obtain ⟨hc, hwin⟩ := OrSetState.winner_iff.1 hw
  exact ⟨w, OrSetState.mem_active.2 hwin, hc⟩

theorem visible_of_active {o : OrSetState} {t : Option JsNumber} {op : OrAddOp} (h : op ∈ o.active t) :
    o.Visible t op := (OrSetState.mem_active.1 h).1

theorem findActive_eq_none {o : OrSetState} {id : JsString} (h : findActive o id = none) {t : Option JsNumber}
    {op : OrAddOp} (hv : o.Visible t op) : op.claimId ≠ id := by
  obtain ⟨w, hw, hc⟩ := exists_winner (visible_none hv)
  have := List.find?_eq_none.1 h w hw
  simpa [hc] using this

/-! ## What the handlers do to the board -/

theorem finishPost_orset (env : Env) (board : Board) (input : CreatePayload) (verdicts : List ConflictVerdict)
    (r : Surroundings) : (finishPost env board input verdicts r).1.orset = board.orset ∨
      (registers input verdicts = true ∧
        board.orset.apply (.add (claimOp env board input r)) = .ok (finishPost env board input verdicts r).1.orset) := by
  unfold finishPost
  split
  case isTrue => exact .inl rfl
  case isFalse hreg =>
    dsimp only
    split
    case isTrue => exact .inl rfl
    case isFalse =>
      split
      case h_1 => exact .inl rfl
      case h_2 orset happly =>
        refine .inr ⟨by simpa using hreg, ?_⟩
        rw [happly]
        split
        · rfl
        · split <;> rfl

theorem deleteClaim_orset (env : Env) (board : Board) (id : JsString) (tick : Int) (appended rowDeleted : Bool) :
    (deleteClaim env board id tick appended rowDeleted).1.orset = board.orset ∨
      ∃ op, (deleteClaim env board id tick appended rowDeleted).1.orset = board.orset.applyRemove op := by
  unfold deleteClaim
  split
  · exact .inl rfl
  · dsimp only
    split
    · exact .inl rfl
    case h_2 op _ =>
      split
      · exact .inl rfl
      · split <;> exact .inr ⟨op, rfl⟩

theorem nextAssess_cases (env : Env) (board : Board) (input : CreatePayload) (active : List ClaimLike)
    (ctx : ClaimContext) (verdicts : List ConflictVerdict) (rest : List ClaimLike) :
    nextAssess env board input active ctx verdicts rest = .assessed input verdicts ∨
      ∃ p, nextAssess env board input active ctx verdicts rest = .waiting p ∧ p.input = input ∧ p.active = active := by
  cases rest with
  | nil => exact .inl rfl
  | cons adj rest => exact .inr ⟨_, rfl, rfl, rfl⟩

/-- Past the checks the ID is free and no unexpired claim overlaps. -/
theorem beginPost_cases (env : Env) (board : Board) (now : Int) (body : Option Json) :
    (∃ reply, beginPost env board now body = .replied reply) ∨
      ∃ input rest, validateCreate env.numbers body = .ok input ∧ findActive board.orset input.id = none ∧
        findOverlap input.scope (activeClaims board.orset now) = none ∧
        beginPost env board now body = nextAssess env board input (activeClaims board.orset now)
          { scope := input.scope, intent := input.intent, neighbors := scopeNeighbors input.scope env.neighbors } []
          rest := by
  unfold beginPost
  split
  · exact .inl ⟨_, rfl⟩
  · exact .inl ⟨_, rfl⟩
  case h_3 input hvalid =>
    split
    · split <;> exact .inl ⟨_, rfl⟩
    case h_2 hfree =>
      dsimp only
      split
      · exact .inl ⟨_, rfl⟩
      case h_2 hoverlap => exact .inr ⟨input, _, hvalid, hfree, hoverlap, rfl⟩

/-! ## The invariant -/

/-- Live claims have different IDs and disjoint scopes, and a waiting request is
disjoint from every claim it checked. -/
structure Safe (s : System) : Prop where
  apart : ∀ a b, s.board.orset.Visible (some s.latest) a → s.board.orset.Visible (some s.latest) b → a ≠ b →
    a.claimId ≠ b.claimId ∧ DisjointScopes a.payload.scope b.payload.scope
  checked : ∀ p ∈ s.pending, ∀ c ∈ p.active, DisjointScopes p.input.scope c.scope

theorem safe_fresh : Safe .fresh := by
  refine ⟨?_, fun p hp => by simp [System.fresh] at hp⟩
  rintro a b ⟨r, hr, -⟩
  simp [System.fresh, OrSetState.empty, OrSetState.records] at hr

/-- Time passing and claims disappearing keep the invariant. -/
theorem Safe.shrink {s : System} (h : Safe s) {board : Board} {pending : List Pending} {latest : Int}
    (hboard : ∀ t op, board.orset.Visible t op → s.board.orset.Visible t op)
    (hpending : ∀ p ∈ pending, p ∈ s.pending) (hlatest : s.latest ≤ latest) : Safe ⟨board, pending, latest⟩ where
  apart a b ha hb := h.apart a b (visible_mono hlatest (hboard _ a ha)) (visible_mono hlatest (hboard _ b hb))
  checked p hp := h.checked p (hpending p hp)

/-- A live claim is the one `active` shows for its ID. -/
theorem Safe.active_of_visible {s : System} (h : Safe s) {t : Int} (hle : s.latest ≤ t) {op : OrAddOp}
    (hv : s.board.orset.Visible (some t) op) : op ∈ s.board.orset.active (some t) := by
  obtain ⟨w, hw, hc⟩ := exists_winner hv
  by_cases heq : w = op
  · exact heq ▸ hw
  · exact absurd hc (h.apart w op (visible_mono hle (visible_of_active hw)) (visible_mono hle hv) heq).1

/-- Registering a claim that is apart from every live one keeps the invariant. -/
theorem Safe.finishPost {env : Env} {s : System} (h : Safe s) {input : CreatePayload}
    {verdicts : List ConflictVerdict} {r : Surroundings} (hle : s.latest ≤ r.created)
    (hapart : registers input verdicts = true → ∀ op, s.board.orset.Visible (some r.created) op →
      op.claimId ≠ input.id ∧ DisjointScopes input.scope op.payload.scope) :
    Safe { s with board := (finishPost env s.board input verdicts r).1, latest := max s.latest r.created } := by
  rcases finishPost_orset env s.board input verdicts r with hsame | ⟨hreg, happly⟩
  · exact h.shrink (fun t op hv => hsame ▸ hv) (fun p hp => hp) (le_max_left _ _)
  · refine ⟨?_, h.checked⟩
    rw [max_eq_right hle]
    have hold : ∀ op, s.board.orset.Visible (some r.created) op → s.board.orset.Visible (some s.latest) op :=
      fun op => visible_mono hle
    intro a b ha hb hne
    rcases visible_apply_add happly ha with ha | rfl <;> rcases visible_apply_add happly hb with hb | rfl
    · exact h.apart a b (hold a ha) (hold b hb) hne
    · obtain ⟨hid, hdisj⟩ := hapart hreg a ha
      exact ⟨hid, hdisj.symm⟩
    · obtain ⟨hid, hdisj⟩ := hapart hreg b hb
      exact ⟨hid.symm, hdisj⟩
    · exact absurd rfl hne

/-- A request that starts to wait is disjoint from what it checked. -/
theorem Safe.wait {s : System} (h : Safe s) {p : Pending}
    (hp : ∀ c ∈ p.active, DisjointScopes p.input.scope c.scope) : Safe { s with pending := s.pending ++ [p] } where
  apart := h.apart
  checked q hq := by
    rcases List.mem_append.1 hq with hq | hq
    · exact h.checked q hq
    · rw [List.mem_singleton.1 hq]
      exact hp

theorem safe_post {env : Env} {s : System} (h : Safe s) {now : Int} {body : Option Json} {r : Surroundings}
    (hnow : s.latest ≤ now) (hcreated : now ≤ r.created) : Safe (step env s (.post now body r)).1 := by
  have hs : Safe { s with latest := max s.latest now } := h.shrink (fun _ _ hv => hv) (fun _ hp => hp) (le_max_left _ _)
  simp only [step]
  rcases beginPost_cases env s.board now body with ⟨reply, he⟩ | ⟨input, rest, -, hfree, hoverlap, he⟩
  · rw [he]; exact hs
  · have hdisj := findOverlap_eq_none.1 hoverlap
    rw [he]
    rcases nextAssess_cases env s.board input (activeClaims s.board.orset now)
      { scope := input.scope, intent := input.intent, neighbors := scopeNeighbors input.scope env.neighbors } [] rest
      with hn | ⟨p, hn, rfl, hactive⟩ <;> rw [hn]
    · refine hs.finishPost (by simpa [hnow] using hcreated) fun _ op hv => ⟨findActive_eq_none hfree hv, ?_⟩
      have hlive := h.active_of_visible hnow (visible_mono hcreated hv)
      exact hdisj ⟨op.claimId, op.payload.scope⟩ (List.mem_map.2 ⟨op, hlive, rfl⟩)
    · exact hs.wait (hactive ▸ hdisj)

theorem safe_resume {env : Env} {s : System} (h : Safe s) {i : Nat} {verdict : Option ConflictVerdict}
    {r : Surroundings} (hok : RaceFree env s (.resume i verdict r)) : Safe (step env s (.resume i verdict r)).1 := by
  simp only [step]
  split
  case h_1 => exact h
  case h_2 p hp =>
    have hs : Safe { s with pending := s.pending.eraseIdx i } :=
      h.shrink (fun _ _ hv => hv) (fun _ hq => List.mem_of_mem_eraseIdx hq) le_rfl
    cases verdict with
    | none => exact hs
    | some v =>
      have hchecked := h.checked p (List.mem_of_getElem? hp)
      dsimp only
      rcases nextAssess_cases env s.board p.input p.active p.incomingCtx (addVerdict env p v) p.rest
        with hn | ⟨q, hn, hinput, hactive⟩
      · rw [resumePost, hn]
        refine hs.finishPost hok.1 fun hreg op hv => ?_
        have hlive := h.active_of_visible hok.1 hv
        have hwill : (resumePost env s.board p v).willRegister = true := by rw [resumePost, hn]; exact hreg
        obtain ⟨hid, hseen⟩ := hok.2 p (by simp [hp]) hwill op hlive
        exact ⟨hid, hseen.elim (hchecked _) id⟩
      · rw [resumePost, hn]
        exact hs.wait (by rw [hactive, hinput]; exact hchecked)

theorem safe_delete {env : Env} {s : System} (h : Safe s) (id : JsString) (tick : Int) (appended rowDeleted : Bool) :
    Safe (step env s (.delete id tick appended rowDeleted)).1 := by
  refine h.shrink (fun t op hv => ?_) (fun _ hp => hp) le_rfl
  rcases deleteClaim_orset env s.board id tick appended rowDeleted with he | ⟨o, he⟩ <;> rw [he] at hv
  · exact hv
  · exact visible_applyRemove hv

/-- One step keeps the invariant. -/
theorem safe_step {env : Env} {s : System} (h : Safe s) {e : Event} (hok : RaceFree env s e) :
    Safe (step env s e).1 := by
  cases e with
  | post now body r => exact safe_post h hok.1.1 hok.1.2
  | resume i verdict r => exact safe_resume h hok
  | delete id tick appended rowDeleted => exact safe_delete h id tick appended rowDeleted

theorem safe_reach {env : Env} {s : System} (h : Reach env (RaceFree env) s) : Safe s := by
  induction h with
  | fresh => exact safe_fresh
  | step e _ hok ih => exact safe_step ih hok

/-- While no request registers over a claim it missed while it waited, no two claims
that are live now or at any later time have intersecting scopes. -/
theorem no_overlap_without_race {env : Env} {s : System} (h : Reach env (RaceFree env) s) {t : Int}
    (ht : s.latest ≤ t) : NoOverlap s.board.orset t := by
  intro a ha b hb hne
  exact ((safe_reach h).apart a b (visible_mono ht (visible_of_active ha)) (visible_mono ht (visible_of_active hb)) hne).2

/-! ## Runs of listed events -/

def runEvents (env : Env) (s : System) : List Event → System × List (Option Reply)
  | [] => (s, [])
  | e :: rest =>
    let next := step env s e
    let done := runEvents env next.1 rest
    (done.1, next.2 :: done.2)

/-- Each event of the list is allowed where it happens. -/
def Allowed (env : Env) (ok : System → Event → Prop) (s : System) : List Event → Prop
  | [] => True
  | e :: rest => ok s e ∧ Allowed env ok (step env s e).1 rest

theorem Reach.run {env : Env} {ok : System → Event → Prop} {s : System} (h : Reach env ok s) {events : List Event}
    (hok : Allowed env ok s events) : Reach env ok (runEvents env s events).1 := by
  induction events generalizing s with
  | nil => exact h
  | cons e rest ih => exact ih (h.step e hok.1) hok.2

instance (s : System) (e : Event) : Decidable (Timely s e) := by
  cases e <;> unfold Timely <;> infer_instance

instance decidableAllowed (env : Env) (ok : System → Event → Prop) [∀ s e, Decidable (ok s e)] (s : System) :
    (events : List Event) → Decidable (Allowed env ok s events)
  | [] => .isTrue trivial
  | e :: rest =>
    have := decidableAllowed env ok (step env s e).1 rest
    inferInstanceAs (Decidable (_ ∧ _))

instance (orset : OrSetState) (t : Int) : Decidable (NoOverlap orset t) :=
  inferInstanceAs (Decidable (∀ a ∈ _, ∀ b ∈ _, _))

instance (orset : OrSetState) (p : Pending) (created : Int) : Decidable (MissedNothing orset p created) :=
  inferInstanceAs (Decidable (∀ op ∈ _, _))

instance (env : Env) (s : System) (e : Event) : Decidable (RaceFree env s e) := by
  unfold RaceFree
  split <;> infer_instance

def statusOf : Option Reply → Option Nat
  | some (.post reply) => some reply.status
  | _ => none

/-! ## The race -/

/-- A body with every required field. -/
def claimBody (id agent entity : String) : Json :=
  .obj [(ascii "id", .str (ascii id)), (ascii "agent", .str (ascii agent)), (ascii "intent", .str (ascii "edit")),
    (ascii "scope", .arr [.str (ascii entity)]), (ascii "fingerprint", .str (ascii "f")),
    (ascii "ttlSeconds", .num (60 : Nat))]

/-- No edges in the graph; claims are adjacent through their module. -/
def moduleEnv : Env :=
  { neighbors := fun _ => [], gate := .moduleEdge, writer := replicatedWriter 7,
    numbers := ⟨fun _ => [], fun _ => .nan⟩ }

/-- Every reading at time `t`, and nothing fails. -/
def calm (t : Int) : Surroundings := ⟨t, t, t, true, true⟩

def noConflict : ConflictVerdict := ⟨false, [], .fin 1, ascii "heuristic-v1"⟩

/-- Two agents ask for one entity while its module has a claim. Both pass the overlap
check, both wait for the oracle, and both are told there is no conflict. -/
def raceEvents (entity other : String) : List Event :=
  [.post 1000 (some (claimBody "a" "ann" "m/x")) (calm 1000),
   .post 2000 (some (claimBody "b" "bob" entity)) (calm 2000),
   .post 3000 (some (claimBody "c" "cat" other)) (calm 3000),
   .resume 0 (some noConflict) (calm 4000),
   .resume 0 (some noConflict) (calm 5000)]

/-- Two live claims on `m/y`, both granted with 201. -/
theorem race_grants_overlap :
    let run := runEvents moduleEnv .fresh (raceEvents "m/y" "m/y")
    Reach moduleEnv Timely run.1 ∧
      run.2.map statusOf = [some 201, none, none, some 201, some 201] ∧
      run.1.latest ≤ 6000 ∧ ¬ NoOverlap run.1.board.orset 6000 :=
  ⟨Reach.fresh.run (by decide +kernel), by decide +kernel, by decide +kernel, by decide +kernel⟩

/-- The same two requests on different entities miss nothing. -/
theorem no_overlap_without_race_apart :
    NoOverlap (runEvents moduleEnv .fresh (raceEvents "m/y" "m/z")).1.board.orset 6000 :=
  @no_overlap_without_race moduleEnv _ (Reach.fresh.run (by decide +kernel)) _ (by decide +kernel)

end Hayven.Daemon
