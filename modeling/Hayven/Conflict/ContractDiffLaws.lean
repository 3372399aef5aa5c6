import Hayven.Conflict.ContractDiff
/-!
# What the contract-diff oracle keeps to

The verdict on two claims is the strongest one over the pairs of their entities. It is
the same from both sides and for every order of the ids in a scope, and it stays a
conflict when a scope, the graph or the visible surface grows. The comparison of two
signatures is blind exactly where parameters are regrouped at their bars.
-/
open Hayven.Lib Hayven.Db.Pack

namespace Hayven.Conflict.Contract

/-! ## Signatures -/

/-- What a caller sees of a declaration is the same, or wider, afterwards. -/
structure KeepsContract (before after : Signature) : Prop where
  arity : before.arity = after.arity
  returnType : before.returnType = after.returnType
  params : before.params = after.params
  visible : ¬(before.visibility = .pub ∧ after.visibility = .priv)

/-- The parameters cut at every bar, one after the other. -/
def barPieces (params : List JsString) : List JsString :=
  if params = [] then [[]] else params.flatMap (·.splitOn bar)

/-- Two parameter lists, or two return types, that differ and read the same: lists that
cut into the same pieces at their bars, or a missing return type and an empty one. -/
structure Blurred (before after : Signature) : Prop where
  arity : before.arity = after.arity
  returnText : before.returnType.getD [] = after.returnType.getD []
  pieces : barPieces before.params = barPieces after.params
  visible : ¬(before.visibility = .pub ∧ after.visibility = .priv)
  differ : before.params ≠ after.params ∨ before.returnType ≠ after.returnType

theorem splitOn_joinBars (params : List JsString) : (joinBars params).splitOn bar = barPieces params := by
  induction params with
  | nil => rfl
  | cons p rest ih =>
    cases rest with
    | nil => simp [joinBars, barPieces]
    | cons q rest =>
      have hjoin : joinBars (p :: q :: rest) = p ++ bar :: joinBars (q :: rest) := by
        simp [joinBars, List.intercalate]
      rw [hjoin, List.splitOn_append_cons_self, ih]
      simp [barPieces]

/-- A joined text says of its list just the pieces between the bars. -/
theorem joinBars_eq_iff (p q : List JsString) : joinBars p = joinBars q ↔ barPieces p = barPieces q := by
  constructor
  · intro h
    rw [← splitOn_joinBars, ← splitOn_joinBars, h]
  · intro h
    have hcut (r : List JsString) : joinBars r = [bar].intercalate (barPieces r) := by
      rw [← splitOn_joinBars, List.intercalate_splitOn]
    rw [hcut p, hcut q, h]

theorem signatureChangedContract_eq_false {x y : Signature} :
    signatureChangedContract x y = false ↔ x.arity = y.arity ∧ x.returnType.getD [] = y.returnType.getD [] ∧
      barPieces x.params = barPieces y.params ∧ ¬(x.visibility = .pub ∧ y.visibility = .priv) := by
  rw [← joinBars_eq_iff]
  unfold signatureChangedContract
  split_ifs <;> simp_all

/-- The comparison misses a change exactly on two signatures that are blurred. -/
theorem missesChange_iff (x y : Signature) :
    ¬(signatureChangedContract x y = false → KeepsContract x y) ↔ Blurred x y := by
  rw [signatureChangedContract_eq_false, Classical.not_imp]
  constructor
  · rintro ⟨⟨harity, hreturn, hpieces, hvisible⟩, hkeeps⟩
    refine ⟨harity, hreturn, hpieces, hvisible, ?_⟩
    by_contra hsame
    rw [not_or, not_not, not_not] at hsame
    exact hkeeps ⟨harity, hsame.2, hsame.1, hvisible⟩
  · intro h
    refine ⟨⟨h.arity, h.returnText, h.pieces, h.visible⟩, fun hkeeps => ?_⟩
    rcases h.differ with hparams | hreturn
    · exact hparams hkeeps.params
    · exact hreturn hkeeps.returnType

/-! ## One pair -/

/-- Two verdicts that say the same, apart from their words. -/
def SameCall (v w : ContractVerdict) : Prop := v.conflict = w.conflict ∧ v.confidence = w.confidence

namespace ContractDiffOracle
variable (lower : LowerCase) (o : ContractDiffOracle)

/-- One of the tasks edits a contract the other's entity depends on. -/
def breaks (x y : ContractTask) : Bool :=
  isContractEdit lower x o.signatureExtractor && o.depends y.target x.target ||
    isContractEdit lower y o.signatureExtractor && o.depends x.target y.target

/-- Both tasks edit a contract of one module. -/
def collides (x y : ContractTask) : Bool :=
  isContractEdit lower x o.signatureExtractor && isContractEdit lower y o.signatureExtractor &&
    decide (x.target.module = y.target.module)

/-- The ladder of the oracle: the same entity, a broken dependent, one module, nothing. -/
theorem assess_call (x y : ContractTask) :
    ((o.assess lower x y).conflict, (o.assess lower x y).confidence) =
      if x.target.id = y.target.id then (true, 1)
      else if o.breaks lower x y then (true, 0.85)
      else if o.collides lower x y then (true, 0.6)
      else (false, 0.7) := by
  unfold assess breaks collides
  dsimp only
  split_ifs <;> rfl

theorem breaks_comm (x y : ContractTask) : o.breaks lower x y = o.breaks lower y x := Bool.or_comm _ _

theorem collides_comm (x y : ContractTask) : o.collides lower x y = o.collides lower y x := by
  unfold collides
  rw [Bool.and_comm (isContractEdit lower x _)]
  simp only [eq_comm (a := x.target.module)]

theorem assess_comm (x y : ContractTask) : SameCall (o.assess lower x y) (o.assess lower y x) := by
  have h : ((o.assess lower x y).conflict, (o.assess lower x y).confidence) =
      ((o.assess lower y x).conflict, (o.assess lower y x).confidence) := by
    rw [assess_call, assess_call, breaks_comm, collides_comm]
    simp only [eq_comm]
  exact Prod.mk.inj h

theorem assess_conflict (x y : ContractTask) : (o.assess lower x y).conflict = true ↔
    x.target.id = y.target.id ∨ o.breaks lower x y = true ∨ o.collides lower x y = true := by
  have h := congrArg Prod.fst (o.assess_call lower x y)
  dsimp only at h
  rw [h]
  split_ifs <;> simp_all

end ContractDiffOracle

/-! ## The strongest verdict -/

namespace ContractDiffClaimOracle
variable (lower : LowerCase) (o : ContractDiffClaimOracle)

/-- The verdicts on all pairs of resolved entities, in the order they are reached. -/
def verdicts (a b : ClaimCtx) : List ContractVerdict :=
  (o.entitiesFor a).flatMap fun ie => (o.entitiesFor b).map fun ae =>
    o.inner.assess lower ⟨ie, a.scope, a.intent⟩ ⟨ae, b.scope, b.intent⟩

def abstained : ContractVerdict :=
  ⟨false, ascii ("Contract-diff abstained: a claim scope did not resolve to any indexed entity " ++
    "(no real signature/edge to diff)."), 0, o.id⟩

def benign : ContractVerdict :=
  ⟨false, ascii ("Neither edit changes a public contract that the other entity actually depends on " ++
    "(contract-diff)."), 0.7, o.id⟩

/-- The scan keeps the first of the surest conflicts. -/
theorem foldl_consider (vs : List ContractVerdict) :
    vs.foldl consider none = (vs.filter (·.conflict)).argmax (·.confidence) := by
  unfold List.argmax
  rw [List.foldl_filter]
  congr 1
  funext best v
  unfold consider List.argAux
  cases best <;> cases v.conflict <;> simp

theorem mem_entitiesFor {ctx : ClaimCtx} {e : ContractEntity} :
    e ∈ o.entitiesFor ctx ↔ ∃ id ∈ ctx.scope, (o.resolver id).map entityOf = some e := List.mem_filterMap

theorem mem_verdicts {a b : ClaimCtx} {v : ContractVerdict} : v ∈ o.verdicts lower a b ↔
    ∃ ie ∈ o.entitiesFor a, ∃ ae ∈ o.entitiesFor b,
      o.inner.assess lower ⟨ie, a.scope, a.intent⟩ ⟨ae, b.scope, b.intent⟩ = v := by
  simp only [verdicts, List.mem_flatMap, List.mem_map]

theorem assess_eq (a b : ClaimCtx) : o.assess lower a b =
    if o.verdicts lower a b = [] then o.abstained
    else (((o.verdicts lower a b).filter (·.conflict)).argmax (·.confidence)).getD o.benign := by
  have hempty : o.verdicts lower a b = [] ↔ (o.entitiesFor a).length = 0 ∨ (o.entitiesFor b).length = 0 := by
    simp only [verdicts, List.flatMap_eq_nil_iff, List.map_eq_nil_iff, List.length_eq_zero_iff]
    constructor
    · intro h
      rcases List.eq_nil_or_concat (o.entitiesFor a) with ha | ⟨init, e, ha⟩
      · exact .inl ha
      · exact .inr (h e (by simp [ha]))
    · rintro (ha | hb) e he
      · simp [ha] at he
      · exact hb
  rw [← foldl_consider]
  simp only [assess, ← hempty]
  simp only [verdicts, List.foldl_flatMap, List.foldl_map]
  rfl

/-- A conflict is found exactly when some pair conflicts. -/
theorem assess_conflict (a b : ClaimCtx) :
    (o.assess lower a b).conflict = true ↔ ∃ v ∈ o.verdicts lower a b, v.conflict = true := by
  rw [assess_eq]
  split_ifs with hnil
  · simp [hnil, abstained]
  · cases hbest : ((o.verdicts lower a b).filter (·.conflict)).argmax (·.confidence) with
    | none =>
      rw [List.argmax_eq_none, List.filter_eq_nil_iff] at hbest
      simp only [Option.getD_none, benign, Bool.false_eq_true, false_iff]
      rintro ⟨v, hv, hconflict⟩
      exact hbest v hv hconflict
    | some v =>
      have hv := List.mem_filter.1 (List.argmax_mem hbest)
      exact iff_of_true hv.2 ⟨v, hv⟩

/-- What a conflict says is said of some pair, and no pair is a surer conflict. -/
theorem assess_strongest {a b : ClaimCtx} (h : (o.assess lower a b).conflict = true) :
    o.assess lower a b ∈ o.verdicts lower a b ∧
      ∀ v ∈ o.verdicts lower a b, v.conflict = true → v.confidence ≤ (o.assess lower a b).confidence := by
  obtain ⟨w, hw, hconflict⟩ := (o.assess_conflict lower a b).1 h
  have hmem : w ∈ (o.verdicts lower a b).filter (·.conflict) := List.mem_filter.2 ⟨hw, hconflict⟩
  rw [assess_eq, if_neg (List.ne_nil_of_mem hw)]
  cases hbest : ((o.verdicts lower a b).filter (·.conflict)).argmax (·.confidence) with
  | none =>
    rw [List.argmax_eq_none] at hbest
    exact absurd hmem (hbest ▸ List.not_mem_nil)
  | some v =>
    refine ⟨(List.mem_filter.1 (List.argmax_mem hbest)).1, fun u hu huc => ?_⟩
    exact List.le_of_mem_argmax (List.mem_filter.2 ⟨hu, huc⟩) hbest

/-- The calls on two claims depend on nothing but the calls on their pairs. -/
theorem sameCall_of_verdicts {o' : ContractDiffClaimOracle} {a b a' b' : ClaimCtx}
    (hsub : ∀ v ∈ o.verdicts lower a b, ∃ w ∈ o'.verdicts lower a' b', SameCall v w)
    (hsub' : ∀ w ∈ o'.verdicts lower a' b', ∃ v ∈ o.verdicts lower a b, SameCall v w) :
    SameCall (o.assess lower a b) (o'.assess lower a' b') := by
  have hconflict : (o.assess lower a b).conflict = true ↔ (o'.assess lower a' b').conflict = true := by
    rw [assess_conflict, assess_conflict]
    constructor
    · rintro ⟨v, hv, hc⟩
      obtain ⟨w, hw, hsame⟩ := hsub v hv
      exact ⟨w, hw, hsame.1 ▸ hc⟩
    · rintro ⟨w, hw, hc⟩
      obtain ⟨v, hv, hsame⟩ := hsub' w hw
      exact ⟨v, hv, hsame.1 ▸ hc⟩
  refine ⟨Bool.eq_iff_iff.2 hconflict, ?_⟩
  by_cases hc : (o.assess lower a b).conflict = true
  · obtain ⟨hv, hmax⟩ := o.assess_strongest lower hc
    obtain ⟨hw, hmax'⟩ := o'.assess_strongest lower (hconflict.1 hc)
    apply le_antisymm
    · obtain ⟨w, hwmem, hsame⟩ := hsub _ hv
      exact hsame.2.trans_le (hmax' w hwmem (hsame.1 ▸ hc))
    · obtain ⟨v, hvmem, hsame⟩ := hsub' _ hw
      exact hsame.2.symm.trans_le (hmax v hvmem (hsame.1 ▸ hconflict.1 hc))
  · -- without a conflict the confidence tells whether there was a pair at all
    have hnil : o.verdicts lower a b = [] ↔ o'.verdicts lower a' b' = [] := by
      simp only [List.eq_nil_iff_forall_not_mem]
      constructor
      · intro h w hw
        obtain ⟨v, hv, -⟩ := hsub' w hw
        exact h v hv
      · intro h v hv
        obtain ⟨w, hw, -⟩ := hsub v hv
        exact h w hw
    have hnone {p : ContractDiffClaimOracle} {c d : ClaimCtx} (hp : ¬(p.assess lower c d).conflict = true) :
        (p.assess lower c d).confidence = if p.verdicts lower c d = [] then 0 else 0.7 := by
      rw [assess_conflict, not_exists] at hp
      rw [assess_eq]
      have hfilter : (p.verdicts lower c d).filter (·.conflict) = [] :=
        List.filter_eq_nil_iff.2 fun v hv hcv => hp v ⟨hv, hcv⟩
      rw [hfilter]
      split_ifs <;> rfl
    rw [hnone hc, hnone (fun h => hc (hconflict.2 h))]
    simp only [hnil]

/-- The same on both sides, whatever the order of the ids and however often one is listed. -/
theorem assess_comm (a b : ClaimCtx) : SameCall (o.assess lower a b) (o.assess lower b a) := by
  apply sameCall_of_verdicts
  · intro v hv
    obtain ⟨ie, hie, ae, hae, rfl⟩ := (o.mem_verdicts lower).1 hv
    exact ⟨_, (o.mem_verdicts lower).2 ⟨ae, hae, ie, hie, rfl⟩, o.inner.assess_comm lower _ _⟩
  · intro w hw
    obtain ⟨ae, hae, ie, hie, rfl⟩ := (o.mem_verdicts lower).1 hw
    exact ⟨_, (o.mem_verdicts lower).2 ⟨ie, hie, ae, hae, rfl⟩, o.inner.assess_comm lower _ _⟩

end ContractDiffClaimOracle

/-! ## Growth -/

/-- The same entity, with every import it had. -/
def GrownEntity (e e' : ContractEntity) : Prop := e' = { e with imports := e'.imports } ∧ e.imports ⊆ e'.imports

/-- The same signature, or a private one made public or unknown. -/
def WidenedSignature (s s' : Signature) : Prop :=
  s' = { s with visibility := s'.visibility } ∧ (s.visibility = s'.visibility ∨ s.visibility = .priv)

/-- The same entity is found, with every import it had. -/
def GrownResolved (r r' : ResolvedEntity) : Prop :=
  r' = { r with imports := r'.imports } ∧ r.imports.getD [] ⊆ r'.imports.getD []

/-- Nothing an oracle knows of the graph is lost, and no signature is read as less visible. -/
structure Grown (o o' : ContractDiffClaimOracle) : Prop where
  resolver : ∀ id, Option.Rel GrownResolved (o.resolver id) (o'.resolver id)
  edges : ∀ x y, o.inner.edgeIndex.any (· x y) = true → o'.inner.edgeIndex.any (· x y) = true
  calls : ∀ x y x' y', GrownEntity x x' → GrownEntity y y' →
    o.inner.callGraph.any (· x y) = true → o'.inner.callGraph.any (· x' y') = true
  signatures : Option.Rel (fun f g => ∀ q, Option.Rel WidenedSignature (f q) (g q))
    o.inner.signatureExtractor o'.inner.signatureExtractor

/-- The same intent over at least the same ids. -/
def GrownClaim (a a' : ClaimCtx) : Prop := a'.intent = a.intent ∧ a.scope ⊆ a'.scope

theorem GrownEntity.query {e e' : ContractEntity} (h : GrownEntity e e') : e'.query = e.query := by
  rw [h.1]
  rfl

theorem WidenedSignature.refl (s : Signature) : WidenedSignature s s := ⟨rfl, .inl rfl⟩

theorem WidenedSignature.visible {s s' : Signature} (h : WidenedSignature s s') (hv : s.visibility ≠ .priv) :
    s'.visibility ≠ .priv := by
  rcases h.2 with heq | hpriv
  · exact heq ▸ hv
  · exact absurd hpriv hv

theorem getD_widened {s t : Option Signature} (h : Option.Rel WidenedSignature s t) (d : Signature) :
    WidenedSignature (s.getD d) (t.getD d) := by
  rcases h with h | _
  · exact h
  · exact WidenedSignature.refl d

theorem signatureFor_widened {f g : Option SignatureExtractor}
    (hfg : Option.Rel (fun f g => ∀ q, Option.Rel WidenedSignature (f q) (g q)) f g) {e e' : ContractEntity}
    (he : GrownEntity e e') : WidenedSignature (signatureFor e f) (signatureFor e' g) := by
  have hname : e'.name = e.name := by rw [he.1]
  unfold signatureFor
  rcases hfg with hfg | _
  · simp only [he.query, hname]
    exact getD_widened (hfg e.query) _
  · rw [hname]
    exact WidenedSignature.refl _

section Growth
variable {lower : LowerCase} {o o' : ContractDiffClaimOracle} (hg : Grown o o')
include hg

theorem Grown.signatureFor {e e' : ContractEntity} (he : GrownEntity e e') :
    WidenedSignature (signatureFor e o.inner.signatureExtractor) (signatureFor e' o'.inner.signatureExtractor) :=
  signatureFor_widened hg.signatures he

/-- A contract edit stays one. -/
theorem Grown.isContractEdit {e e' : ContractEntity} (he : GrownEntity e e') {scope scope' : List JsString}
    {intent : JsString} (h : isContractEdit lower ⟨e, scope, intent⟩ o.inner.signatureExtractor = true) :
    isContractEdit lower ⟨e', scope', intent⟩ o'.inner.signatureExtractor = true := by
  have hsig := hg.signatureFor he
  have hcallable : (Contract.signatureFor e' o'.inner.signatureExtractor).hasCallable =
      (Contract.signatureFor e o.inner.signatureExtractor).hasCallable := by rw [hsig.1]
  unfold Contract.isContractEdit at h ⊢
  dsimp only at h ⊢
  rw [hcallable]
  split at h
  · exact absurd h Bool.false_ne_true
  · exact decide_eq_true (hsig.visible (of_decide_eq_true h))
  · rw [Bool.and_eq_true] at h ⊢
    exact ⟨h.1, decide_eq_true (hsig.visible (of_decide_eq_true h.2))⟩

/-- A dependency stays one. -/
theorem Grown.depends {x x' y y' : ContractEntity} (hx : GrownEntity x x') (hy : GrownEntity y y')
    (h : o.inner.depends x y = true) : o'.inner.depends x' y' = true := by
  have hxid : x'.id = x.id := by rw [hx.1]
  have hyid : y'.id = y.id := by rw [hy.1]
  simp only [ContractDiffOracle.depends, importsDepend, Bool.or_eq_true, List.contains_iff_mem, hxid, hyid] at h ⊢
  rcases h with (himport | hedge) | hcall
  · exact .inl (.inl (hx.2 himport))
  · exact .inl (.inr (hg.edges _ _ hedge))
  · exact .inr (hg.calls _ _ _ _ hx hy hcall)

theorem Grown.pair {x x' y y' : ContractEntity} (hx : GrownEntity x x') (hy : GrownEntity y y')
    {s s' t t' : List JsString} {i j : JsString}
    (h : (o.inner.assess lower ⟨x, s, i⟩ ⟨y, t, j⟩).conflict = true) :
    (o'.inner.assess lower ⟨x', s', i⟩ ⟨y', t', j⟩).conflict = true := by
  have hxid : x'.id = x.id ∧ x'.module = x.module := by rw [hx.1]; exact ⟨rfl, rfl⟩
  have hyid : y'.id = y.id ∧ y'.module = y.module := by rw [hy.1]; exact ⟨rfl, rfl⟩
  rw [ContractDiffOracle.assess_conflict] at h ⊢
  simp only [ContractDiffOracle.breaks, ContractDiffOracle.collides, Bool.or_eq_true, Bool.and_eq_true,
    decide_eq_true_eq] at h ⊢
  rcases h with hid | (⟨hedit, hdep⟩ | ⟨hedit, hdep⟩) | ⟨⟨hedit, hedit'⟩, hmodule⟩
  · exact .inl (by rw [hxid.1, hyid.1, hid])
  · exact .inr (.inl (.inl ⟨hg.isContractEdit hx hedit, hg.depends hy hx hdep⟩))
  · exact .inr (.inl (.inr ⟨hg.isContractEdit hy hedit, hg.depends hx hy hdep⟩))
  · exact .inr (.inr ⟨⟨hg.isContractEdit hx hedit, hg.isContractEdit hy hedit'⟩, by rw [hxid.2, hyid.2, hmodule]⟩)

theorem Grown.entitiesFor {a a' : ClaimCtx} (ha : GrownClaim a a') {e : ContractEntity} (he : e ∈ o.entitiesFor a) :
    ∃ e' ∈ o'.entitiesFor a', GrownEntity e e' := by
  obtain ⟨id, hid, hfound⟩ := (o.mem_entitiesFor).1 he
  obtain ⟨r, hr, rfl⟩ := Option.map_eq_some_iff.1 hfound
  have hrel := hg.resolver id
  rw [hr] at hrel
  cases hr' : o'.resolver id with
  | none => rw [hr'] at hrel; cases hrel
  | some r' =>
    rw [hr'] at hrel
    rcases hrel with ⟨hsame, himports⟩
    have hmem : ContractDiffClaimOracle.entityOf r' ∈ o'.entitiesFor a' :=
      (o'.mem_entitiesFor).2 ⟨id, ha.2 hid, by rw [hr']; rfl⟩
    refine ⟨_, hmem, ?_, himports⟩
    rw [hsame]
    rfl

/-- A conflict stays one. -/
theorem Grown.assess {a a' b b' : ClaimCtx} (ha : GrownClaim a a') (hb : GrownClaim b b')
    (h : (o.assess lower a b).conflict = true) : (o'.assess lower a' b').conflict = true := by
  rw [ContractDiffClaimOracle.assess_conflict] at h ⊢
  obtain ⟨v, hv, hc⟩ := h
  obtain ⟨ie, hie, ae, hae, rfl⟩ := (o.mem_verdicts lower).1 hv
  obtain ⟨ie', hie', hge⟩ := hg.entitiesFor ha hie
  obtain ⟨ae', hae', hga⟩ := hg.entitiesFor hb hae
  refine ⟨_, (o'.mem_verdicts lower).2 ⟨ie', hie', ae', hae', rfl⟩, ?_⟩
  rw [ha.1, hb.1]
  exact hg.pair hge hga hc

end Growth

/-! ## The laws -/

/-- What the oracle promises of two claims. -/
structure OracleLaws (lower : LowerCase) (o : ContractDiffClaimOracle) (a b : ClaimCtx) : Prop where
  symmetric : SameCall (o.assess lower a b) (o.assess lower b a)
  scopeOrder : ∀ s t : List JsString, (∀ id, id ∈ s ↔ id ∈ a.scope) → (∀ id, id ∈ t ↔ id ∈ b.scope) →
    SameCall (o.assess lower { a with scope := s } { b with scope := t }) (o.assess lower a b)
  strongest : (o.assess lower a b).conflict = true → o.assess lower a b ∈ o.verdicts lower a b ∧
    ∀ v ∈ o.verdicts lower a b, v.conflict = true → v.confidence ≤ (o.assess lower a b).confidence
  monotone : ∀ (o' : ContractDiffClaimOracle) (a' b' : ClaimCtx), Grown o o' → GrownClaim a a' → GrownClaim b b' →
    (o.assess lower a b).conflict = true → (o'.assess lower a' b').conflict = true

/-- Pairs of the same entities under the same intents, whatever the scopes list besides. -/
theorem verdicts_subset (lower : LowerCase) (o : ContractDiffClaimOracle) (a b a' b' : ClaimCtx)
    (ha : a.intent = a'.intent ∧ ∀ id, id ∈ a.scope → id ∈ a'.scope)
    (hb : b.intent = b'.intent ∧ ∀ id, id ∈ b.scope → id ∈ b'.scope) {v : ContractVerdict} (hv : v ∈ o.verdicts lower a b) : ∃ w ∈ o.verdicts lower a' b', SameCall v w := by
  have hmore {c c' : ClaimCtx} (h : ∀ id, id ∈ c.scope → id ∈ c'.scope) {e : ContractEntity}
      (he : e ∈ o.entitiesFor c) : e ∈ o.entitiesFor c' := by
    obtain ⟨id, hid, hr⟩ := (o.mem_entitiesFor).1 he
    exact (o.mem_entitiesFor).2 ⟨id, h id hid, hr⟩
  obtain ⟨ie, hie, ae, hae, rfl⟩ := (o.mem_verdicts lower).1 hv
  refine ⟨_, (o.mem_verdicts lower).2 ⟨ie, hmore ha.2 hie, ae, hmore hb.2 hae, rfl⟩, ?_⟩
  rw [ha.1, hb.1]
  exact ⟨rfl, rfl⟩

theorem oracleLaws (lower : LowerCase) (o : ContractDiffClaimOracle) (a b : ClaimCtx) : OracleLaws lower o a b where
  symmetric := o.assess_comm lower a b
  scopeOrder s t hs ht := by
    apply o.sameCall_of_verdicts lower
    · intro v hv
      exact verdicts_subset lower o { a with scope := s } { b with scope := t } a b
        ⟨rfl, fun id => (hs id).1⟩ ⟨rfl, fun id => (ht id).1⟩ hv
    · intro w hw
      obtain ⟨v, hv, hsame⟩ := verdicts_subset lower o a b { a with scope := s } { b with scope := t }
        ⟨rfl, fun id => (hs id).2⟩ ⟨rfl, fun id => (ht id).2⟩ hw
      exact ⟨v, hv, hsame.1.symm, hsame.2.symm⟩
  strongest := o.assess_strongest lower
  monotone o' a' b' hg ha hb := hg.assess ha hb

/-- The oracle keeps its laws on all claims; the comparison of two signatures sees every
change of the contract unless the two are blurred. -/
theorem contract_oracle_laws (lower : LowerCase) (o : ContractDiffClaimOracle) (a b : ClaimCtx) (x y : Signature) :
    (OracleLaws lower o a b ∧ (signatureChangedContract x y = false → KeepsContract x y)) ↔ ¬Blurred x y := by
  rw [← missesChange_iff, not_not]
  exact and_iff_right (oracleLaws lower o a b)

/-- `f(a: A|B, c: C)` and `f(a: A, c: B|C)` read as one signature. -/
theorem union_regrouped : ¬∀ x y : Signature, signatureChangedContract x y = false → KeepsContract x y := by
  intro h
  have hkeeps := h ⟨ascii "f", 2, [ascii "A|B", ascii "C"], none, .pub, true⟩
    ⟨ascii "f", 2, [ascii "A", ascii "B|C"], none, .pub, true⟩ (by decide)
  exact absurd hkeeps.params (by decide)

end Hayven.Conflict.Contract
