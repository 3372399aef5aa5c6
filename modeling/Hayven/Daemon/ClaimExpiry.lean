import Hayven.Daemon.ClaimRuns
/-!
# Expired claims and registration

A registration with nothing running in between, answered by one oracle. Its
checks read the board through two views: `active(now)`, which leaves expired
claims out, and the plain view behind `findActive`, which does not.
`expired_without_influence_iff` says when the second lets an expired claim
through.
-/
open Hayven.Lib Hayven.Crdt Hayven.Conflict

namespace Hayven.Daemon

/-- Answer every assessment of the loop at once. -/
def assessLoop (env : Env) (oracle : ClaimContext → ClaimContext → ConflictVerdict) (board : Board)
    (input : CreatePayload) (active : List ClaimLike) (ctx : ClaimContext) :
    List ConflictVerdict → List ClaimLike → List ConflictVerdict
  | verdicts, [] => verdicts
  | verdicts, adj :: rest =>
    match nextAssess env board input active ctx verdicts (adj :: rest) with
    | .waiting p => assessLoop env oracle board input active ctx (addVerdict env p (oracle p.incomingCtx p.adjacentCtx)) rest
    | _ => verdicts

/-- Answer a waiting request until its loop is over. -/
def answerAll (env : Env) (oracle : ClaimContext → ClaimContext → ConflictVerdict) (board : Board) : Stage → Stage
  | .waiting p => .assessed p.input (assessLoop env oracle board p.input p.active p.incomingCtx
      (addVerdict env p (oracle p.incomingCtx p.adjacentCtx)) p.rest)
  | stage => stage

structure PostOutcome where
  reply : PostReply
  registered : Option OrAddOp
  conflictVerdicts : List ConflictVerdict

/-- `POST /api/claims` from start to end on one board. -/
def runPost (env : Env) (oracle : ClaimContext → ClaimContext → ConflictVerdict) (board : Board) (now : Int)
    (body : Option Json) (r : Surroundings) : PostOutcome :=
  match answerAll env oracle board (beginPost env board now body) with
  | .assessed input verdicts =>
    let reply := (finishPost env board input verdicts r).2
    ⟨reply, if reply.status = 201 then some (claimOp env board input r) else none, verdicts⟩
  | .replied reply => ⟨reply, none, []⟩
  | .waiting _ => ⟨.failed, none, []⟩

/-! ## The board without its expired claims -/

/-- The adds with `ttlMs <= now` removed. -/
def dropExpired (orset : OrSetState) (now : Int) : OrSetState where
  adds := orset.adds.mapValues (fun list => list.filter (fun r => !r.op.payload.ttlMs.le now))
  removed := orset.removed
  filed c list hg := by
    rw [KeyedMap.get_mapValues, Option.map_eq_some_iff] at hg
    obtain ⟨list', hg', rfl⟩ := hg
    exact fun r hr => orset.filed c list' hg' r (List.mem_of_mem_filter hr)
  distinct c list hg := by
    rw [KeyedMap.get_mapValues, Option.map_eq_some_iff] at hg
    obtain ⟨list', hg', rfl⟩ := hg
    exact (orset.distinct c list' hg').sublist (List.filter_sublist.map _)

def Board.dropExpired (board : Board) (now : Int) : Board := { board with orset := Daemon.dropExpired board.orset now }

theorem mem_records_dropExpired {o : OrSetState} {now : Int} {c : JsString} {r : AddRecord} :
    r ∈ (dropExpired o now).records c ↔ r ∈ o.records c ∧ r.op.payload.ttlMs.le now = false := by
  simp only [OrSetState.records, dropExpired, KeyedMap.get_mapValues]
  cases o.adds.get c <;> simp

theorem visible_dropExpired {o : OrSetState} {now : Int} {t : Option JsNumber} {op : OrAddOp} :
    (dropExpired o now).Visible t op ↔ o.Visible t op ∧ op.payload.ttlMs.le now = false := by
  simp only [OrSetState.Visible, mem_records_dropExpired]
  constructor
  · rintro ⟨r, ⟨hr, he⟩, rfl, hl⟩; exact ⟨⟨r, hr, rfl, hl⟩, he⟩
  · rintro ⟨⟨r, hr, rfl, hl⟩, he⟩; exact ⟨r, ⟨hr, he⟩, rfl, hl⟩

theorem not_expired_of_visible {o : OrSetState} {now : Int} {op : OrAddOp} (h : o.Visible (some now) op) :
    op.payload.ttlMs.gt now = true := by
  obtain ⟨r, -, rfl, hl⟩ := h
  simp only [OrSetState.isLive, Bool.and_eq_true] at hl
  exact hl.2

/-- `active(now)` does not see the difference. -/
theorem active_dropExpired (o : OrSetState) (now : Int) :
    (dropExpired o now).active (some now) = o.active (some now) :=
  OrSetState.active_congr fun _ => visible_dropExpired.trans
    ⟨And.left, fun hv => ⟨hv, JsNumber.le_eq_false_of_gt (not_expired_of_visible hv)⟩⟩

theorem activeClaims_dropExpired (o : OrSetState) (now : Int) :
    activeClaims (dropExpired o now) now = activeClaims o now := by
  rw [activeClaims, active_dropExpired, activeClaims]

theorem findActive_eq_some {o : OrSetState} {id : JsString} {op : OrAddOp} :
    findActive o id = some op ↔ o.IsWinner none op ∧ op.claimId = id := by
  unfold findActive
  constructor
  · intro h
    exact ⟨OrSetState.mem_active.1 (List.mem_of_find?_eq_some h), by simpa using List.find?_some h⟩
  · rintro ⟨hwin, hid⟩
    have hmem := OrSetState.mem_active.2 hwin
    obtain ⟨op', hop'⟩ := Option.isSome_iff_exists.1
      (List.find?_isSome (p := fun op : OrAddOp => decide (op.claimId = id)).2 ⟨op, hmem, by simpa using hid⟩)
    have hid' : op'.claimId = id := by simpa using List.find?_some hop'
    rw [hop', OrSetState.active_claimId_inj (List.mem_of_find?_eq_some hop') hmem (hid'.trans hid.symm)]

/-- A claim that has not expired is found on either board. -/
theorem findActive_dropExpired {o : OrSetState} {now : Int} {id : JsString} {op : OrAddOp}
    (h : findActive o id = some op) (hlive : op.payload.ttlMs.le now = false) :
    findActive (dropExpired o now) id = some op := by
  obtain ⟨⟨hv, hmax⟩, hid⟩ := findActive_eq_some.1 h
  exact findActive_eq_some.2 ⟨⟨visible_dropExpired.2 ⟨hv, hlive⟩,
    fun op' hv' => hmax op' (visible_dropExpired.1 hv').1⟩, hid⟩

theorem findActive_dropExpired_none {o : OrSetState} {now : Int} {id : JsString} (h : findActive o id = none) :
    findActive (dropExpired o now) id = none := by
  rw [Option.eq_none_iff_forall_ne_some]
  intro op hop
  obtain ⟨⟨hv, -⟩, hid⟩ := findActive_eq_some.1 hop
  exact findActive_eq_none h (visible_dropExpired.1 hv).1 hid

/-! ## What the loop collects -/

/-- The verdict on one adjacent claim, if it is a conflict. -/
def verdictOn (env : Env) (oracle : ClaimContext → ClaimContext → ConflictVerdict) (o : OrSetState)
    (input : CreatePayload) (ctx : ClaimContext) (adj : ClaimLike) : Option ConflictVerdict :=
  let verdict := oracle ctx
    { scope := adj.scope, intent := intentOf o adj.id, neighbors := scopeNeighbors adj.scope env.neighbors }
  if verdict.conflict then
    some (annotate (edgeAdjacency input.scope adj.scope env.neighbors) adj.id verdict)
  else none

theorem assessLoop_eq (env : Env) (oracle : ClaimContext → ClaimContext → ConflictVerdict) (board : Board)
    (input : CreatePayload) (active : List ClaimLike) (ctx : ClaimContext) (verdicts : List ConflictVerdict)
    (rest : List ClaimLike) : assessLoop env oracle board input active ctx verdicts rest =
      verdicts ++ rest.filterMap (verdictOn env oracle board.orset input ctx) := by
  induction rest generalizing verdicts with
  | nil => simp [assessLoop]
  | cons adj rest ih =>
    simp only [assessLoop, nextAssess, ih, addVerdict, List.filterMap_cons, verdictOn]
    split <;> simp

theorem answerAll_nextAssess (env : Env) (oracle : ClaimContext → ClaimContext → ConflictVerdict) (board : Board)
    (input : CreatePayload) (active : List ClaimLike) (ctx : ClaimContext) (rest : List ClaimLike) :
    answerAll env oracle board (nextAssess env board input active ctx [] rest) =
      .assessed input (rest.filterMap (verdictOn env oracle board.orset input ctx)) := by
  cases rest with
  | nil => rfl
  | cons adj rest =>
    have := assessLoop_eq env oracle board input active ctx [] (adj :: rest)
    simp only [assessLoop, nextAssess, List.nil_append] at this
    simp only [nextAssess, answerAll, this]

/-! ## The same answer on either board -/

/-- Whether an add is taken depends on the add alone. -/
theorem apply_add_ok_iff (o o' : OrSetState) (op : OrAddOp) :
    (∃ e, o.apply (.add op) = .error e) ↔ ∃ e, o'.apply (.add op) = .error e := by
  simp only [OrSetState.apply]
  rcases OrSetState.applyAdd_cases o op with ⟨hn, h⟩ | ⟨r, hr, h⟩ <;>
    rcases OrSetState.applyAdd_cases o' op with ⟨hn', h'⟩ | ⟨r', hr', h'⟩
  · exact ⟨fun _ => h', fun _ => h⟩
  · exact absurd (hr' ▸ (addOpTag_ok r'.tagged).1) hn
  · exact absurd (hr ▸ (addOpTag_ok r.tagged).1) hn'
  · simp [h, h']

theorem finishPost_dropExpired (env : Env) (board : Board) (now : Int) (input : CreatePayload)
    (verdicts : List ConflictVerdict) (r : Surroundings) :
    (finishPost env (board.dropExpired now) input verdicts r).2 = (finishPost env board input verdicts r).2 := by
  have hop : claimOp env (board.dropExpired now) input r = claimOp env board input r := rfl
  have happly := apply_add_ok_iff board.orset (board.dropExpired now).orset (claimOp env board input r)
  unfold finishPost
  simp only [hop]
  split
  · rfl
  split
  · rfl
  cases h : board.orset.apply (.add (claimOp env board input r)) with
  | error e =>
    obtain ⟨e', he'⟩ := happly.1 ⟨e, h⟩
    simp only [he']
  | ok orset =>
    cases h' : (board.dropExpired now).orset.apply (.add (claimOp env board input r)) with
    | error e =>
      obtain ⟨e', he'⟩ := happly.2 ⟨e, h'⟩
      rw [h] at he'; cases he'
    | ok orset' =>
      dsimp only
      split <;> rfl

/-- The answers agree in status, registered op and verdicts. -/
def SameOutcome (a b : PostOutcome) : Prop :=
  a.reply.status = b.reply.status ∧ a.registered = b.registered ∧ a.conflictVerdicts = b.conflictVerdicts

/-- A 409 is not due to an expired claim, and the claim a 200 shows still blocks others. -/
def NotByExpired (orset : OrSetState) (now : Int) : PostReply → Prop
  | .alreadyHeld dto => dto.ttl.gt now = true
  | .idTaken dto => dto.ttl.le now = false
  | .overlaps id _ => ∃ op ∈ orset.active (some now), op.claimId = id
  | _ => True

/-- The claim found under the request's ID has not expired; or there is none, no claim
overlaps, and the intent found for each adjacent claim is that of an add that has not expired. -/
def ExpiryIrrelevant (env : Env) (orset : OrSetState) (now : Int) (input : CreatePayload) : Prop :=
  match findActive orset input.id with
  | some existing =>
    if existing.agent = input.agent then existing.payload.ttlMs.gt now = true
    else existing.payload.ttlMs.le now = false
  | none => findOverlap input.scope (activeClaims orset now) = none →
      ∀ adj ∈ findAdjacent input.scope (activeClaims orset now) env.neighbors env.gate,
        intentOf orset adj.id = intentOf (dropExpired orset now) adj.id

section
variable {env : Env} {board : Board} {now : Int} {body : Option Json} {input : CreatePayload}

/-- The oracle's question about the incoming claim. -/
def incomingContext (env : Env) (input : CreatePayload) : ClaimContext :=
  { scope := input.scope, intent := input.intent, neighbors := scopeNeighbors input.scope env.neighbors }

/-- The verdicts of a request that gets as far as the oracle. -/
def verdictsOn (env : Env) (oracle : ClaimContext → ClaimContext → ConflictVerdict) (orset : OrSetState)
    (active : List ClaimLike) (input : CreatePayload) : List ConflictVerdict :=
  (findAdjacent input.scope active env.neighbors env.gate).filterMap
    (verdictOn env oracle orset input (incomingContext env input))

theorem runPost_existing (hvalid : validateCreate env.numbers body = .ok input) {existing : OrAddOp}
    (hfind : findActive board.orset input.id = some existing)
    (oracle : ClaimContext → ClaimContext → ConflictVerdict) (r : Surroundings) :
    runPost env oracle board now body r =
      ⟨if existing.agent = input.agent then .alreadyHeld (addOpToDto existing now [])
        else .idTaken (addOpToDto existing now []), none, []⟩ := by
  by_cases ha : existing.agent = input.agent <;>
    simp only [runPost, beginPost, hvalid, hfind, ha, if_true, if_false, answerAll]

theorem runPost_overlap (hvalid : validateCreate env.numbers body = .ok input)
    (hfind : findActive board.orset input.id = none) {claim : ClaimLike} {entities : List JsString}
    (hoverlap : findOverlap input.scope (activeClaims board.orset now) = some (claim, entities))
    (oracle : ClaimContext → ClaimContext → ConflictVerdict) (r : Surroundings) :
    runPost env oracle board now body r = ⟨.overlaps claim.id entities, none, []⟩ := by
  simp only [runPost, beginPost, hvalid, hfind, hoverlap, answerAll]

theorem runPost_assessed (hvalid : validateCreate env.numbers body = .ok input)
    (hfind : findActive board.orset input.id = none)
    (hoverlap : findOverlap input.scope (activeClaims board.orset now) = none)
    (oracle : ClaimContext → ClaimContext → ConflictVerdict) (r : Surroundings) :
    runPost env oracle board now body r =
      let verdicts := verdictsOn env oracle board.orset (activeClaims board.orset now) input
      let reply := (finishPost env board input verdicts r).2
      ⟨reply, if reply.status = 201 then some (claimOp env board input r) else none, verdicts⟩ := by
  simp only [runPost, beginPost, hvalid, hfind, hoverlap, answerAll_nextAssess, verdictsOn, incomingContext]
  rfl

/-- Past the oracle nothing expired is named in the answer. -/
theorem finishPost_notByExpired (orset : OrSetState) (verdicts : List ConflictVerdict) (r : Surroundings) :
    NotByExpired orset now (finishPost env board input verdicts r).2 := by
  unfold finishPost
  split
  · trivial
  dsimp only
  split
  · trivial
  split
  · trivial
  split <;> trivial

/-- Verdicts only depend on the intents found. -/
theorem verdictsOn_congr {o o' : OrSetState} {active : List ClaimLike}
    (oracle : ClaimContext → ClaimContext → ConflictVerdict)
    (h : ∀ adj ∈ findAdjacent input.scope active env.neighbors env.gate, intentOf o adj.id = intentOf o' adj.id) :
    verdictsOn env oracle o active input = verdictsOn env oracle o' active input :=
  List.filterMap_congr fun adj hadj => by simp only [verdictOn, h adj hadj]

/-- An oracle whose verdict repeats the adjacent claim's intent. -/
def repeatIntent (_ adjacent : ClaimContext) : ConflictVerdict := ⟨true, adjacent.intent, .fin 1, []⟩

theorem annotate_reason_inj {viaEdge : Bool} {id : JsString} {v w : ConflictVerdict}
    (h : annotate viaEdge id v = annotate viaEdge id w) : v.reason = w.reason := by
  unfold annotate at h
  split at h
  · exact List.append_cancel_left (congrArg ConflictVerdict.reason h)
  · rw [h]

theorem verdictsOn_repeatIntent (o : OrSetState) (active : List ClaimLike) :
    verdictsOn env repeatIntent o active input =
      (findAdjacent input.scope active env.neighbors env.gate).map (fun adj =>
        annotate (edgeAdjacency input.scope adj.scope env.neighbors) adj.id
          ⟨true, intentOf o adj.id, .fin 1, []⟩) := by
  rw [verdictsOn, ← List.filterMap_eq_map']
  exact List.filterMap_congr fun adj _ => by simp [verdictOn, repeatIntent]

/-- Under that oracle equal verdicts mean equal intents. -/
theorem intents_of_verdictsOn {o o' : OrSetState} {active : List ClaimLike}
    (h : verdictsOn env repeatIntent o active input = verdictsOn env repeatIntent o' active input) :
    ∀ adj ∈ findAdjacent input.scope active env.neighbors env.gate, intentOf o adj.id = intentOf o' adj.id := by
  rw [verdictsOn_repeatIntent, verdictsOn_repeatIntent, List.map_inj_left] at h
  exact fun adj hadj => annotate_reason_inj (h adj hadj)

/-- A registration is the same as on the board without its expired claims, and no expired
claim is behind a 200 or a 409, exactly when the ID and intent lookups meet no expired claim. -/
theorem expired_without_influence_iff (hvalid : validateCreate env.numbers body = .ok input) :
    (∀ oracle r, SameOutcome (runPost env oracle board now body r) (runPost env oracle (board.dropExpired now) now body r) ∧
      NotByExpired board.orset now (runPost env oracle board now body r).reply) ↔
    ExpiryIrrelevant env board.orset now input := by
  unfold ExpiryIrrelevant
  cases hfind : findActive board.orset input.id with
  | some existing =>
    -- the ID is taken: the answer shows the claim found
    simp only [runPost_existing hvalid hfind]
    constructor
    · intro h
      have hnot := (h repeatIntent (calm 0)).2
      split at hnot <;> split <;> first | exact hnot | contradiction
    · intro h oracle r
      have hlive : existing.payload.ttlMs.le now = false := by
        split at h
        · exact JsNumber.le_eq_false_of_gt h
        · exact h
      have hfind' : findActive (board.dropExpired now).orset input.id = some existing :=
        findActive_dropExpired hfind hlive
      rw [runPost_existing hvalid hfind']
      refine ⟨⟨rfl, rfl, rfl⟩, ?_⟩
      split at h
      case isTrue ha => rw [if_pos ha]; exact h
      case isFalse ha => rw [if_neg ha]; exact h
  | none =>
    have hfind' : findActive (board.dropExpired now).orset input.id = none := findActive_dropExpired_none hfind
    have hactive : activeClaims (board.dropExpired now).orset now = activeClaims board.orset now :=
      activeClaims_dropExpired board.orset now
    cases hoverlap : findOverlap input.scope (activeClaims board.orset now) with
    | some shared =>
      obtain ⟨claim, entities⟩ := shared
      -- an overlap is with a claim `active(now)` shows, on either board
      simp only [reduceCtorEq, false_implies, iff_true]
      intro oracle r
      rw [runPost_overlap hvalid hfind hoverlap, runPost_overlap hvalid hfind' (hactive ▸ hoverlap)]
      refine ⟨⟨rfl, rfl, rfl⟩, ?_⟩
      obtain ⟨op, hop, he⟩ := List.mem_map.1 (findOverlap_some hoverlap).1
      exact ⟨op, hop, congrArg ClaimLike.id he⟩
    | none =>
      simp only [true_implies]
      constructor
      · intro h
        obtain ⟨⟨-, -, hverdicts⟩, -⟩ := h repeatIntent (calm 0)
        rw [runPost_assessed hvalid hfind hoverlap, runPost_assessed hvalid hfind' (hactive ▸ hoverlap), hactive]
          at hverdicts
        exact intents_of_verdictsOn hverdicts
      · intro h oracle r
        have hverdicts : verdictsOn env oracle board.orset (activeClaims board.orset now) input =
            verdictsOn env oracle (board.dropExpired now).orset (activeClaims board.orset now) input :=
          verdictsOn_congr oracle h
        rw [runPost_assessed hvalid hfind hoverlap, runPost_assessed hvalid hfind' (hactive ▸ hoverlap), hactive,
          ← hverdicts]
        dsimp only
        rw [finishPost_dropExpired]
        exact ⟨⟨rfl, rfl, rfl⟩, finishPost_notByExpired _ _ _⟩

end

/-! ## Claiming again after the claim expired -/

instance (env : Env) (orset : OrSetState) (now : Int) (input : CreatePayload) :
    Decidable (ExpiryIrrelevant env orset now input) := by
  unfold ExpiryIrrelevant
  split
  · split <;> infer_instance
  · infer_instance

/-- A board with the claim `a` of agent `ann`, live until 61000. -/
def heldBoard : Board :=
  (runEvents moduleEnv .fresh [.post 1000 (some (claimBody "a" "ann" "m/x")) (calm 1000)]).1.board

/-- The status of a request for `m/x` under the ID `a`. -/
def statusAt (board : Board) (now : Int) (agent : String) : Nat :=
  (runPost moduleEnv (fun _ _ => noConflict) board now (some (claimBody "a" agent "m/x")) (calm now)).reply.status

/-- At 100000 the claim has expired. Its agent is told it still holds it, another agent is
turned away; on the board without it both are granted the claim. -/
theorem expired_claim_still_answers :
    heldBoard.orset.active (some (100000 : Int)) = [] ∧
      statusAt heldBoard 100000 "ann" = 200 ∧ statusAt heldBoard 100000 "bob" = 409 ∧
      statusAt (heldBoard.dropExpired 100000) 100000 "ann" = 201 ∧
      statusAt (heldBoard.dropExpired 100000) 100000 "bob" = 201 := by
  decide +kernel

/-- While the claim is live, nothing expired has a say. -/
theorem expired_without_influence_live :
    SameOutcome (runPost moduleEnv repeatIntent heldBoard 2000 (some (claimBody "a" "bob" "m/x")) (calm 0))
        (runPost moduleEnv repeatIntent (heldBoard.dropExpired 2000) 2000 (some (claimBody "a" "bob" "m/x")) (calm 0)) ∧
      NotByExpired heldBoard.orset 2000
        (runPost moduleEnv repeatIntent heldBoard 2000 (some (claimBody "a" "bob" "m/x")) (calm 0)).reply := by
  have hvalid : validateCreate moduleEnv.numbers (some (claimBody "a" "bob" "m/x")) =
      .ok ⟨ascii "a", ascii "bob", ascii "edit", [ascii "m/x"], ascii "f", .fin 60, false⟩ := rfl
  exact (expired_without_influence_iff hvalid).2 (by decide +kernel) repeatIntent (calm 0)

end Hayven.Daemon
