import Hayven.Graph.SharedIndex
import Mathlib.Tactic.Tauto
/-!
# A partial index never reads as usable

Whatever is owed, is owed under a token in the marker (`Inv`). A step of the code on one
handle keeps this if it meets `Guarded`: the steps that retract a token find nothing owed
under it. A rebuild that runs alone clears every token that gives way: `rebuild_healthy_iff`.
-/
open Hayven.Lib Hayven.Db

namespace Hayven.Graph.SharedIndex

variable {env : Env} {s s' : Shared}

/-- What holds of a handle. -/
structure ClientInv (env : Env) (s : Shared) (h : Nat) (c : Client) : Prop where
  alive : s.alive c.pid.val = true
  minted : ∀ t, c.Holds t → ∃ n < s.issued, t = mintToken c.pid (env.stamp n)
  declared : ∀ t, c.ingestToken = some t → t ∈ s.db.tokens env.rt
  draining : ∀ d, c.phase = .draining d → ∃ t, c.ingestToken = some t ∧
    ∀ file, s.owed file = some (some t) → d.job.asks file = true ∧ s.lost h file = false
  refusing : ∀ t read, c.phase = .refusing t read → c.ingestToken = none ∧ ∀ file, s.owed file ≠ some (some t)

structure Inv (env : Env) (s : Shared) : Prop where
  owed : ∀ file debt, s.owed file = some debt → ∃ token ∈ s.db.tokens env.rt, debt = some token
  future : ∀ token ∈ s.db.tokens env.rt, ∀ pid n, s.issued ≤ n → token ≠ mintToken pid (env.stamp n)
  client : ∀ h c, s.clients h = some c → ClientInv env s h c
  sole : ∀ h h' c c' t, s.clients h = some c → s.clients h' = some c' → c.Holds t → c'.Holds t → h = h'

theorem Start.inv (h : Start env s) : Inv env s where
  owed := h.owed
  future := h.future
  client k c hc := by rw [h.clients k] at hc; cases hc
  sole k _ c _ _ hc _ := by rw [h.clients k] at hc; cases hc

theorem Inv.not_healthy (hi : Inv env s) (hp : s.Partial) : ¬ s.db.Healthy env.rt := by
  intro hhealthy
  obtain ⟨file, hfile⟩ := hp
  obtain ⟨debt, hdebt⟩ := Option.ne_none_iff_exists'.1 hfile
  obtain ⟨token, hmem, -⟩ := hi.owed file debt hdebt
  rw [hhealthy.tokens_eq_nil] at hmem
  exact absurd hmem List.not_mem_nil

/-- A token of a handle does not give way. -/
theorem ClientInv.stays {h : Nat} {c : Client} (hc : ClientInv env s h c) {t : JsString} (ht : c.Holds t) :
    s.givesWay t = false := by
  obtain ⟨n, -, rfl⟩ := hc.minted t ht
  rw [Shared.givesWay, isAdoptableToken_mintToken, isDeadOwnerToken_mintToken, hc.alive]
  rfl

/-! ## One handle moves -/

/-- What a step of handle `h` must respect. -/
structure Moved (env : Env) (s s' : Shared) (h : Nat) (c c' : Client) : Prop where
  clients : s'.clients = Function.update s.clients h (some c')
  alive : s'.alive = s.alive
  issued : s.issued ≤ s'.issued
  holds : ∀ t, c'.Holds t → c.Holds t ∨ (t = mintToken c.pid (env.stamp s.issued) ∧ s.issued < s'.issued)
  kept : ∀ t ∈ s.db.tokens env.rt, t ∈ s'.db.tokens env.rt ∨ c.Holds t ∨
    (s.givesWay t = true ∧ s.token env c ∈ s'.db.tokens env.rt)
  added : ∀ t ∈ s'.db.tokens env.rt, t ∈ s.db.tokens env.rt ∨ c'.Holds t
  owed : ∀ file t, s'.owed file = some (some t) → c'.Holds t ∨
    (s.owed file = some (some t) ∧ ∀ k, k ≠ h → s.lost k file = false → s'.lost k file = false)
  debts : ∀ file debt, s'.owed file = some debt → ∃ t ∈ s'.db.tokens env.rt, debt = some t
  self : ClientInv env s' h c'

section Moved
variable {h : Nat} {c c' : Client}

/-- Handles other than the one that moves hold none of its tokens. -/
theorem Moved.others (hm : Moved env s s' h c c') (hi : Inv env s) (hc : s.clients h = some c) {k : Nat} {o : Client}
    (hk : k ≠ h) (ho : s.clients k = some o) {t : JsString} (ht : o.Holds t) : ¬ c'.Holds t := by
  intro ht'
  rcases hm.holds t ht' with hold | ⟨rfl, -⟩
  · exact hk (hi.sole k h o c t ho hc ht hold)
  · obtain ⟨n, hn, heq⟩ := (hi.client k o ho).minted _ ht
    exact Nat.ne_of_gt hn (env.stamp_injective (mintToken_inj heq))

theorem Inv.move (hi : Inv env s) (hc : s.clients h = some c) (hm : Moved env s s' h c c') : Inv env s' := by
  have hclient : ∀ k o, s'.clients k = some o → (k = h ∧ o = c') ∨ (k ≠ h ∧ s.clients k = some o) := by
    intro k o ho
    rw [hm.clients] at ho
    by_cases hk : k = h
    · subst hk
      rw [Function.update_self] at ho
      exact .inl ⟨rfl, (Option.some.inj ho).symm⟩
    · rw [Function.update_of_ne hk] at ho
      exact .inr ⟨hk, ho⟩
  constructor
  · exact hm.debts
  · intro t ht pid n hn
    rcases hm.added t ht with hold | hown
    · exact hi.future t hold pid n (hm.issued.trans hn)
    · obtain ⟨m, hm', rfl⟩ := hm.self.minted t hown
      intro heq
      exact Nat.ne_of_lt (Nat.lt_of_lt_of_le hm' hn) (env.stamp_injective (mintToken_inj heq))
  · intro k o ho
    rcases hclient k o ho with ⟨rfl, rfl⟩ | ⟨hk, ho⟩
    · exact hm.self
    have hclient := hi.client k o ho
    have hother {t : JsString} (ht : o.Holds t) := hm.others hi hc hk ho ht
    constructor
    · rw [hm.alive]
      exact hclient.alive
    · intro t ht
      obtain ⟨n, hn, heq⟩ := hclient.minted t ht
      exact ⟨n, Nat.lt_of_lt_of_le hn hm.issued, heq⟩
    · intro t ht
      rcases hm.kept t (hclient.declared t ht) with hkept | hown | ⟨hgives, -⟩
      · exact hkept
      · exact absurd (hi.sole k h o c t ho hc (.inl ht) hown) hk
      · exact absurd hgives (by rw [hclient.stays (.inl ht)]; exact Bool.false_ne_true)
    · intro d hd
      obtain ⟨t, ht, hasks⟩ := hclient.draining d hd
      refine ⟨t, ht, fun file hfile => ?_⟩
      rcases hm.owed file t hfile with hown | ⟨hbefore, hlost⟩
      · exact absurd hown (hother (.inl ht))
      · exact ⟨(hasks file hbefore).1, hlost k hk (hasks file hbefore).2⟩
    · intro t read hphase
      refine ⟨(hclient.refusing t read hphase).1, fun file hfile => ?_⟩
      rcases hm.owed file t hfile with hown | ⟨hbefore, -⟩
      · exact hother (.inr ⟨read, hphase⟩) hown
      · exact (hclient.refusing t read hphase).2 file hbefore
  · intro k k' o o' t ho ho' ht ht'
    rcases hclient k o ho with ⟨rfl, rfl⟩ | ⟨hk, ho⟩ <;> rcases hclient k' o' ho' with ⟨rfl, rfl⟩ | ⟨hk', ho'⟩
    · rfl
    · exact absurd ht (hm.others hi hc hk' ho' ht')
    · exact absurd ht' (hm.others hi hc hk ho ht)
    · exact hi.sole k k' o o' t ho ho' ht ht'

theorem Moved.retractsOwn (hm : Moved env s s' h c c') (hc : s.clients h = some c) {a : Action}
    (ha : a.handle = some h) : RetractsOwn env s a s' := by
  intro t ht
  rcases hm.kept t ht with hkept | hown | hgives
  · exact .inl hkept
  · exact .inr ⟨h, c, ha, hc, .inl hown⟩
  · exact .inr ⟨h, c, ha, hc, .inr hgives⟩

end Moved

/-! ## The token of a handle -/

section Writes
variable {h : Nat} {c : Client}

theorem token_cases (env : Env) (s : Shared) (c : Client) : c.ingestToken = some (s.token env c) ∨
    (c.ingestToken = none ∧ s.token env c = mintToken c.pid (env.stamp s.issued)) := by
  unfold Shared.token
  cases c.ingestToken with
  | none => exact .inr ⟨rfl, rfl⟩
  | some t => exact .inl rfl

theorem token_minted (hi : Inv env s) (hc : s.clients h = some c) :
    ∃ n < s.issued + 1, s.token env c = mintToken c.pid (env.stamp n) := by
  rcases token_cases env s c with hold | ⟨-, hnew⟩
  · obtain ⟨n, hn, heq⟩ := (hi.client h c hc).minted _ (.inl hold)
    exact ⟨n, Nat.lt_succ_of_lt hn, heq⟩
  · exact ⟨s.issued, Nat.lt_succ_self _, hnew⟩

theorem passOn_eq_some {drops : JsString → Bool} {token t : JsString} {owed : JsString → Option (Option JsString)}
    {file : JsString} (h : passOn drops token owed file = some (some t)) :
    ∃ t', owed file = some (some t') ∧ t = if drops t' then token else t' := by
  unfold passOn at h
  split at h
  · next t' heq => exact ⟨t', heq, (Option.some.inj (Option.some.inj h)).symm⟩
  · next debt hne => exact absurd h (hne t)

/-- What is owed under a handle's token after the debts are passed on, it inherits. -/
theorem inherits_of_passOn (hi : Inv env s) {drops : JsString → Bool} {file : JsString}
    (h : passOn drops (s.token env c) s.owed file = some (some (s.token env c))) : Inherits s c drops file := by
  obtain ⟨t', howed, ht⟩ := passOn_eq_some h
  refine ⟨t', howed, ?_⟩
  by_cases hdrops : drops t' = true
  · exact .inr hdrops
  rw [if_neg hdrops] at ht
  rcases token_cases env s c with hold | ⟨-, hnew⟩
  · exact .inl (by rw [← ht]; exact hold)
  · -- a minted token is in no marker, so nothing is owed under it
    obtain ⟨t₀, hmem, heq⟩ := hi.owed file _ howed
    obtain rfl := Option.some.inj heq
    exact absurd (ht.symm.trans hnew) (hi.future _ hmem _ _ le_rfl)

/-- After a write that drops some tokens for the handle's, every debt is under a token. -/
theorem debts_passOn (hi : Inv env s) {drops : JsString → Bool} {token : JsString} {tokens : List JsString}
    (htokens : ∀ e ∈ s.db.tokens env.rt, drops e = false → e ∈ tokens) (htoken : token ∈ tokens) {file : JsString}
    {debt : Option JsString} (h : passOn drops token s.owed file = some debt) : ∃ t ∈ tokens, debt = some t := by
  have howed : s.owed file ≠ none := by
    intro hnone
    rw [passOn, hnone] at h
    cases h
  obtain ⟨debt', hdebt'⟩ := Option.ne_none_iff_exists'.1 howed
  obtain ⟨t', hmem, rfl⟩ := hi.owed file debt' hdebt'
  rw [passOn, hdebt'] at h
  refine ⟨_, ?_, (Option.some.inj h).symm⟩
  cases hdrops : drops t' with
  | false => exact htokens t' hmem hdrops
  | true => exact htoken

/-! ## The writes -/

theorem lost_declare_self (phase : Phase) (now : Double) (file : JsString) :
    (s.declare env h c phase now).lost h file = false := by
  show Function.update s.lost h (fun _ => false) h file = false
  rw [Function.update_self]

theorem lost_declare_ne {k : Nat} (hk : k ≠ h) (phase : Phase) (now : Double) (file : JsString) :
    (s.declare env h c phase now).lost k file = s.lost k file := by
  show Function.update s.lost h (fun _ => false) k file = s.lost k file
  rw [Function.update_of_ne hk]

theorem lost_clear_self (phase : Phase) (now : Double) (file : JsString) :
    (s.clear env h c phase now).lost h file = false := by
  show Function.update (fun k g => s.lost k g || s.db.hasRows g) h (fun _ => false) h file = false
  rw [Function.update_self]

theorem lost_clear_ne {k : Nat} (hk : k ≠ h) (phase : Phase) (now : Double) (file : JsString) :
    (s.clear env h c phase now).lost k file = (s.lost k file || s.db.hasRows file) := by
  show Function.update (fun k g => s.lost k g || s.db.hasRows g) h (fun _ => false) k file = _
  rw [Function.update_of_ne hk]

theorem lost_flush_self (d : Drain) (count : Nat) {file : JsString} (hfile : s.lost h file = false) :
    (s.flush h c d count).lost h file = false := by
  show Function.update s.lost h _ h file = false
  rw [Function.update_self, hfile, Bool.false_and]

theorem lost_flush_ne {k : Nat} (hk : k ≠ h) (d : Drain) (count : Nat) (file : JsString) :
    (s.flush h c d count).lost k file = s.lost k file := by
  show Function.update s.lost h _ k file = _
  rw [Function.update_of_ne hk]

/-- A handle moves on and nothing is written. -/
theorem Inv.moved_put (hi : Inv env s) (hc : s.clients h = some c) (c' : Client) (hpid : c'.pid = c.pid)
    (hholds : ∀ t, c'.Holds t → c.Holds t) (hdeclared : ∀ t, c'.ingestToken = some t → c.ingestToken = some t)
    (hdraining : ∀ d, c'.phase = .draining d → ∃ t, c'.ingestToken = some t ∧
      ∀ file, s.owed file = some (some t) → d.job.asks file = true ∧ s.lost h file = false)
    (hrefusing : ∀ t read, c'.phase = .refusing t read → c'.ingestToken = none ∧ ∀ file, s.owed file ≠ some (some t)) :
    Moved env s (s.put h c') h c c' where
  clients := rfl
  alive := rfl
  issued := le_rfl
  holds t ht := .inl (hholds t ht)
  kept t ht := .inl ht
  added t ht := .inl ht
  owed file t ht := .inr ⟨ht, fun _ _ hlost => hlost⟩
  debts := hi.owed
  self :=
    { alive := by rw [hpid]; exact (hi.client h c hc).alive
      minted := fun t ht => by rw [hpid]; exact (hi.client h c hc).minted t (hholds t ht)
      declared := fun t ht => (hi.client h c hc).declared t (hdeclared t ht)
      draining := hdraining
      refusing := hrefusing }

/-- A handle moves on to a phase without obligations. -/
theorem Inv.moved_plain (hi : Inv env s) (hc : s.clients h = some c) (phase : Phase)
    (hdraining : ∀ d, phase ≠ .draining d) (hrefusing : ∀ t read, phase ≠ .refusing t read) :
    Moved env s (s.put h { c with phase := phase }) h c { c with phase := phase } := by
  refine hi.moved_put hc { c with phase := phase } rfl ?_ ?_ ?_ ?_
  · rintro t (ht | ⟨read, hread⟩)
    · exact .inl ht
    · exact absurd hread (hrefusing t read)
  · exact fun t ht => ht
  · exact fun d hd => absurd hd (hdraining d)
  · exact fun t read hread => absurd hread (hrefusing t read)

/-- A write of the marker that adds the handle's token and drops others for it. -/
theorem Inv.moved_declared (hi : Inv env s) (hc : s.clients h = some c) {phase : Phase} (drops : JsString → Bool)
    (hgives : ∀ t, drops t = true → s.givesWay t = true)
    (hclients : s'.clients =
      Function.update s.clients h (some { c with ingestToken := some (s.token env c), phase := phase }))
    (halive : s'.alive = s.alive) (hissued : s'.issued = s.issued + 1)
    (htokens : ∀ e, e ∈ s'.db.tokens env.rt ↔ e = s.token env c ∨ (e ∈ s.db.tokens env.rt ∧ drops e = false))
    (howed : ∀ file, s'.owed file = some (some (s.token env c)) ∨
      (s'.owed file = passOn drops (s.token env c) s.owed file ∧ ∀ k, k ≠ h → s'.lost k file = s.lost k file))
    (hdraining : ∀ d, phase = .draining d → ∀ file, s'.owed file = some (some (s.token env c)) →
      d.job.asks file = true ∧ s'.lost h file = false)
    (hrefusing : ∀ t read, phase ≠ .refusing t read) :
    Moved env s s' h c { c with ingestToken := some (s.token env c), phase := phase } := by
  have hholds : ∀ t, Client.Holds { c with ingestToken := some (s.token env c), phase := phase } t →
      t = s.token env c := by
    rintro t (ht | ⟨read, hread⟩)
    · exact (Option.some.inj ht).symm
    · exact absurd hread (hrefusing t read)
  have hown : s.token env c ∈ s'.db.tokens env.rt := (htokens _).2 (.inl rfl)
  constructor
  · exact hclients
  · exact halive
  · rw [hissued]
    exact Nat.le_succ _
  · intro t ht
    obtain rfl := hholds t ht
    rcases token_cases env s c with hold | ⟨-, hnew⟩
    · exact .inl (.inl hold)
    · exact .inr ⟨hnew, by rw [hissued]; exact Nat.lt_succ_self _⟩
  · intro t ht
    cases hdrops : drops t with
    | false => exact .inl ((htokens t).2 (.inr ⟨ht, hdrops⟩))
    | true => exact .inr (.inr ⟨hgives t hdrops, hown⟩)
  · intro t ht
    rcases (htokens t).1 ht with rfl | ⟨hmem, -⟩
    · exact .inr (.inl rfl)
    · exact .inl hmem
  · intro file t ht
    rcases howed file with heq | ⟨heq, hlost⟩
    · obtain rfl := Option.some.inj (Option.some.inj (heq.symm.trans ht))
      exact .inl (.inl rfl)
    · obtain ⟨t', hbefore, ht'⟩ := passOn_eq_some (heq.symm.trans ht)
      by_cases hdrops : drops t' = true
      · rw [if_pos hdrops] at ht'
        exact .inl (.inl (congrArg some ht'.symm))
      · rw [if_neg hdrops] at ht'
        subst ht'
        exact .inr ⟨hbefore, fun k hk hfalse => (hlost k hk).trans hfalse⟩
  · intro file debt hdebt
    rcases howed file with heq | ⟨heq, -⟩
    · exact ⟨_, hown, (Option.some.inj (heq.symm.trans hdebt)).symm⟩
    · exact debts_passOn hi (fun e he hdrops => (htokens e).2 (.inr ⟨he, hdrops⟩)) hown (heq.symm.trans hdebt)
  · constructor
    · rw [halive]
      exact (hi.client h c hc).alive
    · intro t ht
      obtain rfl := hholds t ht
      rw [hissued]
      exact token_minted hi hc
    · intro t ht
      rw [← Option.some.inj ht]
      exact hown
    · exact fun d hd => ⟨_, rfl, hdraining d hd⟩
    · exact fun t read hread => absurd hread (hrefusing t read)

theorem Inv.moved_declare (hrt : env.rt.Lossless) (hi : Inv env s) (hc : s.clients h = some c) {phase : Phase}
    (now : Double)
    (hdraining : ∀ d, phase = .draining d → ∀ file, Inherits s c isAdoptableToken file → d.job.asks file = true)
    (hrefusing : ∀ t read, phase ≠ .refusing t read) :
    Moved env s (s.declare env h c phase now) h c { c with ingestToken := some (s.token env c), phase := phase } := by
  apply hi.moved_declared hc isAdoptableToken
  · intro t ht
    rw [Shared.givesWay, ht, Bool.true_or]
  · rfl
  · rfl
  · rfl
  · exact fun e => IndexFile.mem_tokens_beginIngest hrt now
  · exact fun file => .inr ⟨rfl, fun k hk => lost_declare_ne hk phase now file⟩
  · intro d hd file howed
    exact ⟨hdraining d hd file (inherits_of_passOn hi howed), lost_declare_self phase now file⟩
  · exact hrefusing

theorem Inv.moved_clear (hrt : env.rt.Lossless) (hi : Inv env s) (hc : s.clients h = some c) {phase : Phase}
    (now : Double)
    (hdraining : ∀ d, phase = .draining d → ∀ file, s.db.hasRows file = true ∨ Inherits s c s.givesWay file →
      d.job.asks file = true)
    (hrefusing : ∀ t read, phase ≠ .refusing t read) :
    Moved env s (s.clear env h c phase now) h c { c with ingestToken := some (s.token env c), phase := phase } := by
  apply hi.moved_declared hc s.givesWay
  · exact fun t ht => ht
  · rfl
  · rfl
  · rfl
  · intro e
    rw [Shared.givesWay, Bool.or_eq_false_iff]
    exact IndexFile.mem_tokens_clearGraph hrt s.alive now
  · intro file
    by_cases hrows : s.db.hasRows file = true
    · exact .inl (if_pos hrows)
    · refine .inr ⟨if_neg hrows, fun k hk => ?_⟩
      rw [lost_clear_ne hk, Bool.eq_false_of_not_eq_true hrows, Bool.or_false]
  · intro d hd file howed
    refine ⟨hdraining d hd file ?_, lost_clear_self phase now file⟩
    by_cases hrows : s.db.hasRows file = true
    · exact .inl hrows
    · exact .inr (inherits_of_passOn hi ((if_neg hrows).symm.trans howed))
  · exact hrefusing

theorem Inv.moved_purge (hi : Inv env s) (hc : s.clients h = some c) {marks : Bool} {file : JsString}
    {todo changed : List JsString}
    (hguard : file ∈ changed → s.db.hasRows file = true → c.ingestToken ≠ none) :
    Moved env s (s.purge h c (.purging marks todo changed) file changed) h c
      { c with phase := .purging marks todo changed } := by
  have hplain := hi.moved_plain hc (.purging marks todo changed) (fun _ => nofun) (fun _ _ => nofun)
  unfold Shared.purge
  dsimp only
  split
  case isFalse => exact ⟨rfl, rfl, le_rfl, hplain.holds, hplain.kept, hplain.added, hplain.owed, hplain.debts,
    ⟨hplain.self.alive, hplain.self.minted, hplain.self.declared, hplain.self.draining, hplain.self.refusing⟩⟩
  case isTrue hdebt =>
    obtain ⟨t, ht⟩ := Option.ne_none_iff_exists'.1 (hguard hdebt.1 hdebt.2)
    refine ⟨rfl, rfl, le_rfl, hplain.holds, hplain.kept, hplain.added, ?_, ?_, ?_⟩
    · intro g u hu
      replace hu : Function.update s.owed file (some c.ingestToken) g = some (some u) := hu
      by_cases hg : g = file
      · subst hg
        rw [Function.update_self] at hu
        exact .inl (.inl (Option.some.inj hu))
      · rw [Function.update_of_ne hg] at hu
        refine .inr ⟨hu, fun k _ hfalse => ?_⟩
        show Function.update (s.lost k) file true g = false
        rw [Function.update_of_ne hg, hfalse]
    · intro g debt hd
      replace hd : Function.update s.owed file (some c.ingestToken) g = some debt := hd
      by_cases hg : g = file
      · subst hg
        rw [Function.update_self] at hd
        exact ⟨t, (hi.client h c hc).declared t ht, (Option.some.inj hd).symm.trans ht⟩
      · rw [Function.update_of_ne hg] at hd
        exact hi.owed g debt hd
    · exact ⟨hplain.self.alive, hplain.self.minted, hplain.self.declared, fun _ => nofun, fun _ _ => nofun⟩

theorem Inv.moved_flush (hi : Inv env s) (hc : s.clients h = some c) {d : Drain} (hphase : c.phase = .draining d)
    (count : Nat) : ∃ c', Moved env s (s.flush h c d count) h c c' := by
  have hclient := hi.client h c hc
  have hholds : ∀ d' t, Client.Holds { c with phase := .draining d' } t → c.Holds t := by
    rintro d' t (ht | ⟨read, hread⟩)
    · exact .inl ht
    · cases hread
  refine ⟨_, rfl, rfl, le_rfl, fun t ht => .inl (hholds _ t ht), fun t ht => .inl ht, fun t ht => .inl ht, ?_, hi.owed,
    ?_⟩
  · intro file t ht
    refine .inr ⟨ht, fun k hk hlost => ?_⟩
    rw [lost_flush_ne hk, hlost]
  · refine ⟨hclient.alive, fun t ht => hclient.minted t (hholds _ t ht), hclient.declared, ?_, fun _ _ => nofun⟩
    intro d' hd'
    obtain rfl := Phase.draining.inj hd'
    obtain ⟨t, ht, hasks⟩ := hclient.draining d hphase
    exact ⟨t, ht, fun file hfile => ⟨(hasks file hfile).1, lost_flush_self d count (hasks file hfile).2⟩⟩

/-- A run that is complete owes nothing under its token. -/
theorem Inv.moved_complete (hrt : env.rt.Lossless) (hi : Inv env s) (hc : s.clients h = some c) (job : Job)
    (hown : ∀ t file, c.ingestToken = some t → s.owed file = some (some t) →
      job.asks file = true ∧ s.lost h file = false) :
    Moved env s (s.complete env h c job) h c { c with ingestToken := none, phase := .idle } := by
  have hholds : ∀ t, ¬ Client.Holds { c with ingestToken := none, phase := .idle } t := by
    rintro t (ht | ⟨read, hread⟩)
    · cases ht
    · cases hread
  have htokens : ∀ e, e ∈ (s.complete env h c job).db.tokens env.rt ↔
      e ∈ s.db.tokens env.rt ∧ c.ingestToken ≠ some e := by
    intro e
    have hdb : (s.complete env h c job).db = s.db.succeed env.rt c.ingestToken job.fullRebuild := rfl
    rw [hdb]
    cases htoken : c.ingestToken with
    | none => exact ⟨fun h => ⟨h, nofun⟩, fun h => h.1⟩
    | some t =>
      rw [IndexFile.mem_tokens_succeed hrt]
      exact and_congr_right fun _ => not_congr ⟨fun h => congrArg some h.symm, fun h => (Option.some.inj h).symm⟩
  have howed : ∀ file debt, (s.complete env h c job).owed file = some debt →
      s.owed file = some debt ∧ ¬ (job.asks file = true ∧ s.lost h file = false) := by
    intro file debt hdebt
    by_cases hdone : job.asks file = true ∧ s.lost h file = false
    · cases (if_pos hdone).symm.trans hdebt
    · exact ⟨(if_neg hdone).symm.trans hdebt, hdone⟩
  refine ⟨rfl, rfl, le_rfl, fun t ht => absurd ht (hholds t), ?_, ?_, ?_, ?_, ?_⟩
  · intro t ht
    by_cases hmine : c.ingestToken = some t
    · exact .inr (.inl (.inl hmine))
    · exact .inl ((htokens t).2 ⟨ht, hmine⟩)
  · exact fun t ht => .inl ((htokens t).1 ht).1
  · exact fun file t ht => .inr ⟨(howed file _ ht).1, fun _ _ hlost => hlost⟩
  · intro file debt hdebt
    obtain ⟨hbefore, hnot⟩ := howed file debt hdebt
    obtain ⟨t, hmem, rfl⟩ := hi.owed file debt hbefore
    exact ⟨t, (htokens t).2 ⟨hmem, fun hmine => hnot (hown t file hmine hbefore)⟩, rfl⟩
  · exact ⟨(hi.client h c hc).alive, fun t ht => absurd ht (hholds t), fun _ => nofun, fun _ => nofun, fun _ _ => nofun⟩

/-- A refused run that owes nothing reads the marker. -/
theorem Inv.moved_refuse (hi : Inv env s) (hc : s.clients h = some c) {token : JsString}
    (htoken : c.ingestToken = some token) (hguard : ∀ file, s.owed file ≠ some (some token)) (read : List InFlightIngest) :
    Moved env s (s.put h ⟨c.pid, none, .refusing token read⟩) h c ⟨c.pid, none, .refusing token read⟩ := by
  refine hi.moved_put hc ⟨c.pid, none, .refusing token read⟩ rfl ?_ ?_ ?_ ?_
  · rintro t (ht | ⟨read', hread⟩)
    · cases ht
    · obtain ⟨rfl, -⟩ := Phase.refusing.inj hread
      exact .inl htoken
  · exact fun _ => nofun
  · exact fun _ => nofun
  · intro t read' hread
    obtain ⟨rfl, -⟩ := Phase.refusing.inj hread
    exact ⟨rfl, hguard⟩

/-- It writes back what it read, which the marker still is. -/
theorem Inv.moved_writeBack (hrt : env.rt.Lossless) (hi : Inv env s) (hc : s.clients h = some c) {token : JsString}
    {read : List InFlightIngest} (hphase : c.phase = .refusing token read) (hguard : readInFlight env.rt s.db = read) :
    Moved env s { s.put h { c with phase := .idle } with db := s.db.retract env.rt read token } h c
      { c with phase := .idle } := by
  have hplain := hi.moved_plain hc .idle (fun _ => nofun) (fun _ _ => nofun)
  have hclient := hi.client h c hc
  obtain ⟨hnone, hclear⟩ := hclient.refusing token read hphase
  have htokens : ∀ e, e ∈ (s.db.retract env.rt read token).tokens env.rt ↔ e ∈ s.db.tokens env.rt ∧ e ≠ token := by
    intro e
    rw [IndexFile.mem_tokens_retract hrt, ← hguard]
    rfl
  refine ⟨rfl, rfl, le_rfl, hplain.holds, ?_, ?_, hplain.owed, ?_, ?_⟩
  · intro t ht
    by_cases hmine : t = token
    · exact .inr (.inl (.inr ⟨read, hmine ▸ hphase⟩))
    · exact .inl ((htokens t).2 ⟨ht, hmine⟩)
  · exact fun t ht => .inl ((htokens t).1 ht).1
  · intro file debt hdebt
    obtain ⟨t, hmem, rfl⟩ := hi.owed file debt hdebt
    refine ⟨t, (htokens t).2 ⟨hmem, ?_⟩, rfl⟩
    rintro rfl
    exact hclear file hdebt
  · refine ⟨hplain.self.alive, hplain.self.minted, fun t ht => ?_, fun _ => nofun, fun _ _ => nofun⟩
    exact absurd (hnone.symm.trans ht) nofun

/-! ## Every step -/

theorem Inv.moved_step (hrt : env.rt.Lossless) (hi : Inv env s) (hc : s.clients h = some c) {a : Action}
    (ha : a.handle = some h) (hg : Guarded env s a) (hs : clientStep env s c a = some s') :
    ∃ c', Moved env s s' h c c' := by
  cases a with
  | spawn | kill | openDb | closeDb => cases hs
  | startBatch k marks changed deleted now =>
    obtain rfl := Option.some.inj ha
    cases hphase : c.phase <;> simp only [clientStep, hphase, reduceCtorEq] at hs
    case idle =>
      obtain rfl := Option.some.inj hs
      cases marks with
      | false => exact ⟨_, hi.moved_plain hc _ (fun _ => nofun) (fun _ _ => nofun)⟩
      | true => exact ⟨_, hi.moved_declare hrt hc now (fun _ => nofun) (fun _ _ => nofun)⟩
  | purge k =>
    obtain rfl := Option.some.inj ha
    cases hphase : c.phase <;> simp only [clientStep, hphase, reduceCtorEq] at hs
    case purging marks todo changed =>
      cases todo with
      | nil => cases hs
      | cons file todo =>
        obtain rfl := Option.some.inj hs
        exact ⟨_, hi.moved_purge hc (hg c marks file todo changed hc hphase)⟩
  | finishBatch k =>
    obtain rfl := Option.some.inj ha
    cases hphase : c.phase <;> simp only [clientStep, hphase, reduceCtorEq] at hs
    case purging marks todo changed =>
      cases marks <;> cases todo <;> cases changed <;> simp only [reduceCtorEq] at hs <;>
        obtain rfl := Option.some.inj hs
      · exact ⟨_, hi.moved_plain hc _ (fun _ => nofun) (fun _ _ => nofun)⟩
      · refine ⟨_, hi.moved_complete hrt hc _ fun t file ht howed => ?_⟩
        exact absurd ⟨t, howed, .inl ht⟩ (hg c file hc hphase)
  | clearFirst k now =>
    obtain rfl := Option.some.inj ha
    cases hphase : c.phase <;> simp only [clientStep, hphase, reduceCtorEq] at hs
    case idle =>
      obtain rfl := Option.some.inj hs
      exact ⟨_, hi.moved_clear hrt hc now (fun _ => nofun) (fun _ _ => nofun)⟩
  | drain k job nodes now =>
    obtain rfl := Option.some.inj ha
    simp only [clientStep] at hs
    split at hs
    case isFalse => cases hs
    case isTrue =>
      obtain rfl := Option.some.inj hs
      refine ⟨_, hi.moved_declare hrt hc now ?_ (fun _ _ => nofun)⟩
      intro d hd file hinherits
      obtain rfl := Phase.draining.inj hd
      exact hg c file hc hinherits
  | startRecord k now =>
    obtain rfl := Option.some.inj ha
    cases hphase : c.phase <;> simp only [clientStep, hphase, reduceCtorEq] at hs
    case draining d =>
      split at hs
      case isTrue => cases hs
      case isFalse =>
      split at hs
      case isTrue hclear =>
        obtain rfl := Option.some.inj hs
        refine ⟨_, hi.moved_clear hrt hc now ?_ (fun _ _ => nofun)⟩
        intro d' hd' file hfile
        obtain rfl := Phase.draining.inj hd'
        exact hg c d file hc hphase hclear hfile
      case isFalse =>
        obtain rfl := Option.some.inj hs
        refine ⟨_, hi.moved_put hc { c with phase := .draining { d with started := true } } rfl ?_ (fun _ ht => ht) ?_
          (fun _ _ => nofun)⟩
        · rintro t (ht | ⟨read, hread⟩)
          · exact .inl ht
          · cases hread
        · intro d' hd'
          obtain rfl := Phase.draining.inj hd'
          exact (hi.client _ c hc).draining d hphase
  | flushNodes k count =>
    obtain rfl := Option.some.inj ha
    cases hphase : c.phase <;> simp only [clientStep, hphase, reduceCtorEq] at hs
    case draining d =>
      split at hs
      case isFalse => cases hs
      case isTrue =>
        obtain rfl := Option.some.inj hs
        exact hi.moved_flush hc hphase count
  | abort k =>
    obtain rfl := Option.some.inj ha
    cases hphase : c.phase <;> simp only [clientStep, hphase, reduceCtorEq] at hs
    case draining d =>
      split at hs
      case h_1 token hquiet htoken =>
        obtain rfl := Option.some.inj hs
        refine ⟨_, hi.moved_refuse hc htoken (fun file howed => ?_) _⟩
        exact hg c d file hc hphase hquiet ⟨token, howed, .inl htoken⟩
      case h_2 =>
        obtain rfl := Option.some.inj hs
        exact ⟨_, hi.moved_plain hc _ (fun _ => nofun) (fun _ _ => nofun)⟩
  | writeBack k =>
    obtain rfl := Option.some.inj ha
    cases hphase : c.phase <;> simp only [clientStep, hphase, reduceCtorEq] at hs
    case refusing token read =>
      obtain rfl := Option.some.inj hs
      exact ⟨_, hi.moved_writeBack hrt hc hphase (hg c token read hc hphase)⟩
  | fail k =>
    obtain rfl := Option.some.inj ha
    cases hphase : c.phase <;> simp only [clientStep, hphase, reduceCtorEq] at hs
    all_goals
      obtain rfl := Option.some.inj hs
      exact ⟨_, hi.moved_plain hc _ (fun _ => nofun) (fun _ _ => nofun)⟩
  | succeed k =>
    obtain rfl := Option.some.inj ha
    cases hphase : c.phase <;> simp only [clientStep, hphase, reduceCtorEq] at hs
    case draining d =>
      split at hs
      case isFalse => cases hs
      case isTrue =>
        obtain rfl := Option.some.inj hs
        refine ⟨_, hi.moved_complete hrt hc _ fun t file ht howed => ?_⟩
        obtain ⟨t', ht', hasks⟩ := (hi.client _ c hc).draining d hphase
        obtain rfl := Option.some.inj (ht'.symm.trans ht)
        exact hasks file howed

end Writes

/-- Processes come and go, and handles with them. -/
theorem Inv.shrink (hi : Inv env s) {alive : Nat → Bool} {clients : Nat → Option Client}
    (hclients : ∀ h c, clients h = some c → s.clients h = some c ∧ alive c.pid.val = true) :
    Inv env { s with alive := alive, clients := clients } where
  owed := hi.owed
  future := hi.future
  client h c hc :=
    let hclient := hi.client h c (hclients h c hc).1
    ⟨(hclients h c hc).2, hclient.minted, hclient.declared, hclient.draining, hclient.refusing⟩
  sole h h' c c' t hc hc' := hi.sole h h' c c' t (hclients h c hc).1 (hclients h' c' hc').1

theorem Inv.openDb (hi : Inv env s) {h : Nat} {pid : Pid} (hnone : s.clients h = none)
    (halive : s.alive pid.val = true) : Inv env (s.put h ⟨pid, none, .idle⟩) := by
  have hholds : ∀ t, ¬ Client.Holds ⟨pid, none, .idle⟩ t := by
    rintro t (ht | ⟨read, hread⟩)
    · cases ht
    · cases hread
  have hclient : ∀ k o, (s.put h ⟨pid, none, .idle⟩).clients k = some o →
      (k = h ∧ o = ⟨pid, none, .idle⟩) ∨ (k ≠ h ∧ s.clients k = some o) := by
    intro k o ho
    replace ho : Function.update s.clients h (some ⟨pid, none, .idle⟩) k = some o := ho
    by_cases hk : k = h
    · subst hk
      rw [Function.update_self] at ho
      exact .inl ⟨rfl, (Option.some.inj ho).symm⟩
    · rw [Function.update_of_ne hk] at ho
      exact .inr ⟨hk, ho⟩
  refine ⟨hi.owed, hi.future, ?_, ?_⟩
  · intro k o ho
    rcases hclient k o ho with ⟨rfl, rfl⟩ | ⟨-, ho⟩
    · exact ⟨halive, fun t ht => absurd ht (hholds t), fun _ => nofun, fun _ => nofun, fun _ _ => nofun⟩
    · have hold := hi.client k o ho
      exact ⟨hold.alive, hold.minted, hold.declared, hold.draining, hold.refusing⟩
  · intro k k' o o' t ho ho' ht ht'
    rcases hclient k o ho with ⟨rfl, rfl⟩ | ⟨-, ho⟩
    · exact absurd ht (hholds t)
    rcases hclient k' o' ho' with ⟨rfl, rfl⟩ | ⟨-, ho'⟩
    · exact absurd ht' (hholds t)
    · exact hi.sole k k' o o' t ho ho' ht ht'

theorem step_eq {a : Action} {h : Nat} (ha : a.handle = some h) :
    step env s a = (s.clients h).bind fun c => clientStep env s c a := by
  cases a <;> first | (cases ha; done) | (obtain rfl := Option.some.inj ha; rfl)

theorem inv_step (hrt : env.rt.Lossless) (hi : Inv env s) {a : Action} (hg : Guarded env s a)
    (hs : step env s a = some s') : Inv env s' ∧ RetractsOwn env s a s' := by
  have hsame (heq : s'.db = s.db) : RetractsOwn env s a s' := fun t ht => .inl (heq ▸ ht)
  cases hhandle : a.handle with
  | some h =>
    rw [step_eq hhandle] at hs
    obtain ⟨c, hc, hs⟩ := Option.bind_eq_some_iff.1 hs
    obtain ⟨c', hm⟩ := hi.moved_step hrt hc hhandle hg hs
    exact ⟨hi.move hc hm, hm.retractsOwn hc hhandle⟩
  | none =>
    cases a with
    | spawn pid =>
      simp only [step] at hs
      split at hs
      · cases hs
      obtain rfl := Option.some.inj hs
      refine ⟨hi.shrink fun h c hc => ⟨hc, ?_⟩, hsame rfl⟩
      by_cases hpid : c.pid.val = pid.val
      · rw [hpid, Function.update_self]
      · rw [Function.update_of_ne hpid]
        exact (hi.client h c hc).alive
    | kill pid =>
      obtain rfl := Option.some.inj hs
      refine ⟨hi.shrink fun h c hc => ?_, hsame rfl⟩
      obtain ⟨hc, hne⟩ := Option.filter_eq_some_iff.1 hc
      refine ⟨hc, ?_⟩
      have hval : c.pid.val ≠ pid.val := fun heq => of_decide_eq_true hne (Pid.ext heq)
      rw [Function.update_of_ne hval]
      exact (hi.client h c hc).alive
    | openDb h pid =>
      simp only [step] at hs
      split at hs
      case isFalse => cases hs
      case isTrue hfree =>
        obtain rfl := Option.some.inj hs
        exact ⟨hi.openDb hfree.1 hfree.2, hsame rfl⟩
    | closeDb h =>
      obtain rfl := Option.some.inj hs
      refine ⟨hi.shrink fun k c hc => ?_, hsame rfl⟩
      by_cases hk : k = h
      · subst hk
        rw [Function.update_self] at hc
        cases hc
      · rw [Function.update_of_ne hk] at hc
        exact ⟨hc, (hi.client k c hc).alive⟩
    | _ => cases hhandle

theorem inv_of_run (hrt : env.rt.Lossless) {s₀ : Shared} (h₀ : Start env s₀)
    (h : Run (step env) (Guarded env) s₀ s) : Inv env s :=
  h.invariant h₀.inv fun _ _ _ hi hg hs => (inv_step hrt hi hg hs).1

end Hayven.Graph.SharedIndex
