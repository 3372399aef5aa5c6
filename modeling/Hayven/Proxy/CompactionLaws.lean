import Hayven.Proxy.HistoryCompact
import Mathlib.Tactic.Positivity
import Mathlib.Data.Nat.Cast.Order.Ring
/-!
# Old reads, each replaced by its own file

A wire says where a transcript's turns and their units stand, which unit is a
tool result and which path the call it answers asked for. What compaction may
do is one relation between two transcripts, whatever the wire.
-/

open Hayven.Lib

namespace Hayven.Proxy

/-- A tool result: its text, the unit with another text, and whether it holds nothing but text. -/
structure Slot where
  text : JsString
  put : JsString → Json
  textOnly : Bool

/-- The units that came before one, each with the index of its turn. -/
abbrev Before := List (Nat × Json)

structure Wire where
  /-- The field that holds the turns. -/
  turns : String
  units : Json → Option (List Json)
  withUnits : Json → List Json → Json
  slot : Json → Option Slot
  /-- The path that the call a result answers asked to read. -/
  asked : Before → Json → Option JsString
  /-- The path a walk over these turns pairs with a result. -/
  paired : List Json → Before → Json → Option JsString

/-- What a wire must satisfy for its units to be told apart after a walk. -/
structure Wire.Lawful (W : Wire) : Prop where
  units_withUnits {m : Json} {us us' : List Json} :
    W.units m = some us → us'.length = us.length → W.units (W.withUnits m us') = some us'
  slot_put {u : Json} {s : Slot} (t : JsString) : W.slot u = some s → (W.slot (s.put t)).map (·.text) = some t

namespace Wire

variable (W : Wire)

/-! ## Transcripts side by side -/

def unitsOf (m : Json) : List Json := (W.units m).getD []

/-- A turn's units behind what came before. -/
def after (i : Nat) (before : Before) (m : Json) : Before := before ++ (W.unitsOf m).map (i, ·)

/-- Unit by unit, each under what came before it. -/
def UnitsRel {β : Type} (R : Before → Json → β → Prop) (i : Nat) : Before → List Json → List β → Prop
  | _, [], [] => True
  | before, u :: us, u' :: us' => R before u u' ∧ UnitsRel R i (before ++ [(i, u)]) us us'
  | _, _, _ => False

/-- A recent turn stays; an older one may have its units rewritten. -/
def TurnRel (R : Before → Json → Json → Prop) (cutoff : JsNumber) (i : Nat) (before : Before) (m m' : Json) : Prop :=
  if isRecent i cutoff then m' = m
  else
    match W.units m with
    | none => m' = m
    | some us => ∃ us', (m' = W.withUnits m us' ∨ m' = m ∧ us' = us) ∧ UnitsRel R i before us us'

/-- Turn by turn. -/
def TurnsRel {β : Type} (T : Nat → Before → Json → β → Prop) : Nat → Before → List Json → List β → Prop
  | _, _, [], [] => True
  | i, before, m :: ms, m' :: ms' => T i before m m' ∧ TurnsRel T (i + 1) (W.after i before m) ms ms'
  | _, _, _, _ => False

/-- The same body but for its turns. -/
def Related (R : List Json → Before → Json → Json → Prop) (opts : CompactOptions) (body body' : Json) : Prop :=
  match body.arrField W.turns with
  | none => body' = body
  | some msgs => ∃ msgs', (body' = body.setField W.turns (.arr msgs') ∨ body' = body ∧ msgs' = msgs) ∧
      W.TurnsRel (W.TurnRel (R msgs) (recencyCutoff msgs.length opts)) 0 [] msgs msgs'

/-- The units of the older turns, each with what came before it. -/
def unitsUnder (i : Nat) : Before → List Json → List (Before × Json)
  | _, [] => []
  | before, u :: us => (before, u) :: unitsUnder i (before ++ [(i, u)]) us

def oldUnits (cutoff : JsNumber) : Nat → Before → List Json → List (Before × Json)
  | _, _, [] => []
  | i, before, m :: ms =>
    (if isRecent i cutoff then [] else unitsUnder i before (W.unitsOf m)) ++ oldUnits cutoff (i + 1) (W.after i before m) ms

/-! ## The law and the condition -/

/-- A slice of the file at `path`, cut for symbols of that file. -/
def IsSlice (repo : Repo) (opts : CompactOptions) (path : JsString) (lines : Nat) (text : JsString) : Prop :=
  ∃ rp symbols pack, repo.resolveRepoPath path = some rp ∧ symbols ≠ [] ∧ (∀ id ∈ symbols, id ∈ repo.fileSymbolIds rp.rel) ∧
    repo.contextForSymbols symbols (compactKnobs opts) = some pack ∧ text = sliceText path lines pack

/-- A unit stays, or it answers a read call and shows less of the file that call asked for. -/
def UnitLaw (repo : Repo) (opts : CompactOptions) (before : Before) (u u' : Json) : Prop :=
  u' = u ∨ ∃ s path text, W.slot u = some s ∧ W.asked before u = some path ∧ u' = s.put text ∧
    text.length < s.text.length ∧ s.textOnly = true ∧
    (text = pointerText path (lineCount s.text) ∨ IsSlice repo opts path (lineCount s.text) text)

/-- What compaction may do to a body. -/
def Law (repo : Repo) (opts : CompactOptions) (body body' : Json) : Prop :=
  W.Related (fun _ => W.UnitLaw repo opts) opts body body'

/-- A result that a pointer beats is paired with the path its call asked for, and is text alone. -/
def UnitFit (msgs : List Json) (before : Before) (u : Json) : Prop :=
  ∀ s ∈ W.slot u, ∀ path ∈ W.paired msgs before u, path ≠ [] →
    (pointerText path (lineCount s.text)).length < s.text.length → W.asked before u = some path ∧ s.textOnly = true

def Fit (opts : CompactOptions) (body : Json) : Prop :=
  ∀ msgs, body.arrField W.turns = some msgs →
    ∀ p ∈ W.oldUnits (recencyCutoff msgs.length opts) 0 [] msgs, W.UnitFit msgs p.1 p.2

/-- What a walk does to a unit. -/
def UnitRan (repo : Repo) (intentText : JsString) (opts : CompactOptions) (msgs : List Json) (before : Before) (u u' : Json) :
    Prop :=
  u' = ((W.slot u).bind fun s => (compactText repo (W.paired msgs before u) s.text intentText opts).map fun c => s.put c.1).getD u

variable {W} {R R' : Before → Json → Json → Prop} {cutoff : JsNumber} {i : Nat} {before : Before} {ms ms' : List Json}

/-! ## Moving between relations -/

theorem UnitsRel.length {us us' : List Json} (h : UnitsRel R i before us us') : us'.length = us.length := by
  induction us generalizing before us' with
  | nil =>
    cases us' with
    | nil => rfl
    | cons => exact h.elim
  | cons u us ih =>
    cases us' with
    | nil => exact h.elim
    | cons u' us' => simp [ih h.2]

theorem UnitsRel.mono {us us' : List Json} (hR : ∀ p ∈ unitsUnder i before us, ∀ u', R p.1 p.2 u' → R' p.1 p.2 u')
    (h : UnitsRel R i before us us') : UnitsRel R' i before us us' := by
  induction us generalizing before us' with
  | nil =>
    cases us' with
    | nil => trivial
    | cons => exact h.elim
  | cons u us ih =>
    cases us' with
    | nil => exact h.elim
    | cons u' us' =>
      exact ⟨hR _ (List.mem_cons_self ..) u' h.1, ih (fun p hp => hR p (List.mem_cons_of_mem _ hp)) h.2⟩

theorem UnitsRel.and {us us' : List Json} (h : UnitsRel R i before us us') (h' : UnitsRel R' i before us us') :
    UnitsRel (fun b u u' => R b u u' ∧ R' b u u') i before us us' := by
  induction us generalizing before us' with
  | nil =>
    cases us' with
    | nil => trivial
    | cons => exact h.elim
  | cons u us ih =>
    cases us' with
    | nil => exact h.elim
    | cons u' us' => exact ⟨⟨h.1, h'.1⟩, ih h.2 h'.2⟩

theorem UnitsRel.exists {us us' : List Json} (h : UnitsRel R i before us us') {p : Before × Json}
    (hp : p ∈ unitsUnder i before us) : ∃ u', R p.1 p.2 u' := by
  induction us generalizing before us' with
  | nil => cases hp
  | cons u us ih =>
    cases us' with
    | nil => exact h.elim
    | cons u' us' =>
      rcases List.mem_cons.1 hp with rfl | hp
      · exact ⟨u', h.1⟩
      · exact ih h.2 hp

theorem TurnRel.mono {m m' : Json} (hR : ∀ p ∈ unitsUnder i before (W.unitsOf m), isRecent i cutoff = false → ∀ u', R p.1 p.2 u' → R' p.1 p.2 u')
    (h : W.TurnRel R cutoff i before m m') : W.TurnRel R' cutoff i before m m' := by
  unfold TurnRel at h ⊢
  split
  · rename_i hrec
    rwa [if_pos hrec] at h
  · rename_i hrec
    rw [if_neg hrec] at h
    cases hu : W.units m with
    | none =>
      rw [hu] at h
      exact h
    | some us =>
      rw [hu] at h
      obtain ⟨us', hm, hus⟩ := h
      have hof : W.unitsOf m = us := by simp [unitsOf, hu]
      exact ⟨us', hm, hus.mono fun p hp => hR p (hof ▸ hp) (by simpa using hrec)⟩

theorem TurnsRel.mono (hR : ∀ p ∈ W.oldUnits cutoff i before ms, ∀ u', R p.1 p.2 u' → R' p.1 p.2 u')
    (h : W.TurnsRel (W.TurnRel R cutoff) i before ms ms') : W.TurnsRel (W.TurnRel R' cutoff) i before ms ms' := by
  induction ms generalizing i before ms' with
  | nil =>
    cases ms' with
    | nil => trivial
    | cons => exact h.elim
  | cons m ms ih =>
    cases ms' with
    | nil => exact h.elim
    | cons m' ms' =>
      refine ⟨h.1.mono ?_, ih (fun p hp => hR p (List.mem_append_right _ hp)) h.2⟩
      intro p hp hrec
      apply hR p
      simp [oldUnits, hrec, hp]

theorem TurnRel.and (hW : W.Lawful) {m m' : Json} (h : W.TurnRel R cutoff i before m m')
    (h' : W.TurnRel R' cutoff i before m m') : W.TurnRel (fun b u u' => R b u u' ∧ R' b u u') cutoff i before m m' := by
  unfold TurnRel at h h' ⊢
  split
  · rename_i hrec
    rwa [if_pos hrec] at h
  · rename_i hrec
    rw [if_neg hrec] at h h'
    cases hu : W.units m with
    | none =>
      rw [hu] at h
      exact h
    | some us =>
      rw [hu] at h h'
      obtain ⟨a, ha, hra⟩ := h
      obtain ⟨b, hb, hrb⟩ := h'
      have hread : ∀ c, (m' = W.withUnits m c ∨ m' = m ∧ c = us) → c.length = us.length → W.units m' = some c := by
        rintro c (rfl | ⟨rfl, rfl⟩) hlen
        · exact hW.units_withUnits hu hlen
        · exact hu
      have hab : a = b := Option.some.inj ((hread a ha hra.length).symm.trans (hread b hb hrb.length))
      subst hab
      exact ⟨a, ha, hra.and hrb⟩

theorem TurnsRel.and (hW : W.Lawful) (h : W.TurnsRel (W.TurnRel R cutoff) i before ms ms') (h' : W.TurnsRel (W.TurnRel R' cutoff) i before ms ms') :
    W.TurnsRel (W.TurnRel (fun b u u' => R b u u' ∧ R' b u u') cutoff) i before ms ms' := by
  induction ms generalizing i before ms' with
  | nil =>
    cases ms' with
    | nil => trivial
    | cons => exact h.elim
  | cons m ms ih =>
    cases ms' with
    | nil => exact h.elim
    | cons m' ms' => exact ⟨h.1.and hW h'.1, ih h.2 h'.2⟩

theorem TurnsRel.exists (h : W.TurnsRel (W.TurnRel R cutoff) i before ms ms') {p : Before × Json}
    (hp : p ∈ W.oldUnits cutoff i before ms) : ∃ u', R p.1 p.2 u' := by
  induction ms generalizing i before ms' with
  | nil => cases hp
  | cons m ms ih =>
    cases ms' with
    | nil => exact h.elim
    | cons m' ms' =>
      rcases List.mem_append.1 hp with hp | hp
      · have ht := h.1
        unfold TurnRel at ht
        by_cases hrec : isRecent i cutoff = true
        · rw [if_pos hrec] at hp
          cases hp
        · rw [if_neg hrec] at hp ht
          cases hu : W.units m with
          | none =>
            simp only [unitsOf, hu, Option.getD_none] at hp
            cases hp
          | some us =>
            rw [hu] at ht
            obtain ⟨us', -, hus⟩ := ht
            exact hus.exists (by simpa [unitsOf, hu] using hp)
      · exact ih h.2 hp

/-! ## What a walk leaves -/

/-- An item rewritten, and left alone when nothing was saved on it. -/
def Stepped (R : Before → Json → Json → Prop) (before : Before) (u : Json) (walked : Json × List CompactStat) : Prop :=
  R before u walked.1 ∧ (walked.2 = [] → R before u u)

theorem UnitsRel.of_map {β : Type} {Q : Before → Json → β → Prop} {f : Json → β} (hf : ∀ before u, Q before u (f u))
    (us : List Json) : UnitsRel Q i before us (us.map f) := by
  induction us generalizing before with
  | nil => trivial
  | cons u us ih => exact ⟨hf before u, ih⟩

theorem TurnsRel.of_mapIdx {β : Type} {T : Nat → Before → Json → β → Prop} {f : Nat → Json → β}
    (hf : ∀ i before m, T i before m (f i m)) (ms : List Json) : W.TurnsRel T i before ms (ms.mapIdx fun k => f (i + k)) := by
  induction ms generalizing i before with
  | nil => trivial
  | cons m ms ih =>
    rw [List.mapIdx_cons]
    refine ⟨hf i before m, ?_⟩
    have hrest : W.TurnsRel T (i + 1) (W.after i before m) ms (ms.mapIdx fun k => f (i + 1 + k)) := ih
    simpa only [Nat.add_assoc, Nat.add_comm 1] using hrest

theorem UnitsRel.gather {us : List Json} {l : List (Json × List CompactStat)} (h : UnitsRel (Stepped R) i before us l) :
    UnitsRel R i before us (gather l).1 ∧ ((gather l).2 = [] → UnitsRel R i before us us) := by
  induction us generalizing before l with
  | nil =>
    cases l with
    | nil => exact ⟨trivial, fun _ => trivial⟩
    | cons => exact h.elim
  | cons u us ih =>
    cases l with
    | nil => exact h.elim
    | cons w l =>
      have hrest := ih h.2
      refine ⟨⟨h.1.1, hrest.1⟩, ?_⟩
      intro hnil
      have hw : w.2 = [] ∧ (Proxy.gather l).2 = [] := List.append_eq_nil_iff.1 hnil
      exact ⟨h.1.2 hw.1, hrest.2 hw.2⟩

theorem TurnsRel.gather {l : List (Json × List CompactStat)}
    (h : W.TurnsRel (fun i => Stepped (W.TurnRel R cutoff i)) i before ms l) :
    W.TurnsRel (W.TurnRel R cutoff) i before ms (gather l).1 ∧
      ((gather l).2 = [] → W.TurnsRel (W.TurnRel R cutoff) i before ms ms) := by
  induction ms generalizing i before l with
  | nil =>
    cases l with
    | nil => exact ⟨trivial, fun _ => trivial⟩
    | cons => exact h.elim
  | cons m ms ih =>
    cases l with
    | nil => exact h.elim
    | cons w l =>
      have hrest := ih h.2
      refine ⟨⟨h.1.1, hrest.1⟩, ?_⟩
      intro hnil
      have hw : w.2 = [] ∧ (Proxy.gather l).2 = [] := List.append_eq_nil_iff.1 hnil
      exact ⟨h.1.2 hw.1, hrest.2 hw.2⟩

theorem turnRel_recent (m : Json) (h : isRecent i cutoff = true) : W.TurnRel R cutoff i before m m := by
  unfold TurnRel
  rw [if_pos h]

theorem turnRel_no_units {m : Json} (h : W.units m = none) : W.TurnRel R cutoff i before m m := by
  unfold TurnRel
  split
  · rfl
  · rw [h]

/-- A turn whose units were walked. -/
theorem turnRel_gather {m m' : Json} {us : List Json} {l : List (Json × List CompactStat)} (hrec : isRecent i cutoff = false)
    (hu : W.units m = some us) (h : UnitsRel (Stepped R) i before us l)
    (hm : m' = W.withUnits m (gather l).1 ∨ m' = m ∧ (Proxy.gather l).2 = []) :
    Stepped (W.TurnRel R cutoff i) before m (m', (Proxy.gather l).2) := by
  have hsame : (Proxy.gather l).2 = [] → W.TurnRel R cutoff i before m m := by
    intro hnil
    unfold TurnRel
    rw [if_neg (by simp [hrec]), hu]
    exact ⟨us, .inr ⟨rfl, rfl⟩, h.gather.2 hnil⟩
  refine ⟨?_, hsame⟩
  rcases hm with rfl | ⟨rfl, hnil⟩
  · unfold TurnRel
    rw [if_neg (by simp [hrec]), hu]
    exact ⟨_, .inl rfl, h.gather.1⟩
  · exact hsame hnil

theorem UnitsRel.refl {us : List Json} (h : ∀ p ∈ unitsUnder i before us, R p.1 p.2 p.2) : UnitsRel R i before us us := by
  induction us generalizing before with
  | nil => trivial
  | cons u us ih => exact ⟨h _ (List.mem_cons_self ..), ih fun p hp => h p (List.mem_cons_of_mem _ hp)⟩

theorem TurnsRel.refl (h : ∀ p ∈ W.oldUnits cutoff i before ms, R p.1 p.2 p.2) :
    W.TurnsRel (W.TurnRel R cutoff) i before ms ms := by
  induction ms generalizing i before with
  | nil => trivial
  | cons m ms ih =>
    refine ⟨?_, ih fun p hp => h p (List.mem_append_right _ hp)⟩
    unfold TurnRel
    split
    · rfl
    · rename_i hrec
      cases hu : W.units m with
      | none => rfl
      | some us =>
        refine ⟨us, .inr ⟨rfl, rfl⟩, UnitsRel.refl fun p hp => h p ?_⟩
        simp [oldUnits, hrec, unitsOf, hu, hp]

theorem le_fin (q r : Rat) : (JsNumber.fin q).le (.fin r) = decide (q ≤ r) := by
  simp [JsNumber.le, JsNumber.lt, le_iff_eq_or_lt]

theorem isRecent_of_noneOld (h : noneOld cutoff = true) (i : Nat) : isRecent i cutoff = true := by
  unfold noneOld at h
  unfold isRecent
  cases cutoff with
  | fin q =>
    rw [le_fin, decide_eq_true_eq] at h ⊢
    exact h.trans (by positivity)
  | negInf => rfl
  | posInf => cases h
  | nan => cases h

/-- Where nothing is old no unit is. -/
theorem oldUnits_of_noneOld (h : noneOld cutoff = true) (ms : List Json) : W.oldUnits cutoff i before ms = [] := by
  induction ms generalizing i before with
  | nil => rfl
  | cons m ms ih =>
    simp [oldUnits, isRecent_of_noneOld h i, ih]

theorem related_untouched {R : List Json → Before → Json → Json → Prop} {opts : CompactOptions} {body : Json}
    (h : ∀ msgs, body.arrField W.turns = some msgs →
      ∀ p ∈ W.oldUnits (recencyCutoff msgs.length opts) 0 [] msgs, R msgs p.1 p.2 p.2) :
    W.Related R opts body (untouched body).body := by
  unfold Related
  cases hb : body.arrField W.turns with
  | none => rfl
  | some msgs => exact ⟨msgs, .inr ⟨rfl, rfl⟩, TurnsRel.refl (h msgs hb)⟩

theorem related_walked {R : List Json → Before → Json → Json → Prop} {opts : CompactOptions} {body : Json} {msgs : List Json}
    {l : List (Json × List CompactStat)} (hb : body.arrField W.turns = some msgs)
    (h : W.TurnsRel (fun i => Stepped (W.TurnRel (R msgs) (recencyCutoff msgs.length opts) i)) 0 [] msgs l) :
    W.Related R opts body (compactResult body W.turns (Proxy.gather l)).body := by
  unfold Related
  rw [hb]
  by_cases hnil : (Proxy.gather l).2 = []
  · have hbody : (compactResult body W.turns (Proxy.gather l)).body = body := if_pos (List.isEmpty_iff.2 hnil)
    exact ⟨msgs, .inr ⟨hbody, rfl⟩, h.gather.2 hnil⟩
  · exact ⟨(Proxy.gather l).1, .inl (if_neg (by simpa using hnil)), h.gather.1⟩

/-! ## One read -/

theorem length_pointer_lt_slice (path : JsString) (lines : Nat) (pack : JsString) :
    (pointerText path lines).length < (sliceText path lines pack).length := by
  have ha : (ascii " (~").length = 3 := rfl
  have hb : (ascii " lines) elided from older context to save tokens — re-read the file if you need it]").length = 83 := rfl
  have hc : (ascii " compacted to the slice relevant to your task (was ~").length = 52 := rfl
  have hd : (ascii " lines; re-read the file for the full text)]\n\n").length = 46 := rfl
  simp only [pointerText, sliceText, List.length_append, ha, hb, hc, hd]
  omega

theorem pointerText_inj {a b : JsString} {lines : Nat} (h : pointerText a lines = pointerText b lines) : a = b := by
  simp only [pointerText, List.append_assoc, List.append_cancel_left_eq] at h
  exact List.append_cancel_right h

theorem sliceSymbols_mem {repo : Repo} {rel intentText : JsString} {opts : CompactOptions} {id : JsString}
    (h : id ∈ sliceSymbols repo rel intentText opts) : id ∈ repo.fileSymbolIds rel := by
  have hpush : ∀ (l acc : List JsString), (∀ x ∈ acc, x ∈ repo.fileSymbolIds rel) → (∀ x ∈ l, x ∈ repo.fileSymbolIds rel) →
      ∀ x ∈ l.foldl pushNew acc, x ∈ repo.fileSymbolIds rel := by
    intro l
    induction l with
    | nil => exact fun acc hacc _ => hacc
    | cons y l ih =>
      intro acc hacc hl
      refine ih _ ?_ fun x hx => hl x (List.mem_cons_of_mem _ hx)
      intro x hx
      unfold pushNew at hx
      split at hx
      · exact hacc x hx
      · rcases List.mem_append.1 hx with hx | hx
        · exact hacc x hx
        · rw [List.mem_singleton.1 hx]
          exact hl y (List.mem_cons_self ..)
  have hmem := List.mem_of_mem_take h
  have hintent : ∀ x ∈ (repo.resolveTaskToSymbols intentText (opts.maxSymbols.getD 6 * 3)).filter (· ∈ repo.fileSymbolIds rel),
      x ∈ repo.fileSymbolIds rel := fun x hx => by simpa using (List.mem_filter.1 hx).2
  split at hmem
  · exact hpush _ _ hintent (fun _ hx => hx) id hmem
  · exact hintent id hmem

/-- A replacement is shorter, and a slice of or a pointer to the path it was made for. -/
theorem compactOneRead_spec {repo : Repo} {path text intentText t : JsString} {opts : CompactOptions} {kind : CompactKind}
    (h : compactOneRead repo path text intentText opts = some (t, kind)) :
    t.length < text.length ∧ (pointerText path (lineCount text)).length < text.length ∧
      (t = pointerText path (lineCount text) ∨ IsSlice repo opts path (lineCount text) t) := by
  unfold compactOneRead at h
  cases hs : sliceOf repo path text intentText opts with
  | some slice =>
    rw [hs] at h
    simp only [Option.some.injEq, Prod.mk.injEq] at h
    obtain ⟨rfl, -⟩ := h
    simp only [sliceOf, Option.bind_eq_bind, Option.bind_eq_some_iff, Option.guard_eq_some', Option.pure_def,
      Option.some.injEq, exists_const] at hs
    obtain ⟨rp, hrp, _, hsym, pack, hpack, hlt, rfl⟩ := hs
    exact ⟨hlt, (length_pointer_lt_slice ..).trans hlt,
      .inr ⟨rp, _, pack, hrp, hsym, fun _ => sliceSymbols_mem, hpack, rfl⟩⟩
  | none =>
    rw [hs] at h
    simp only [Option.ite_none_right_eq_some, Option.some.injEq, Prod.mk.injEq] at h
    obtain ⟨hlt, rfl, -⟩ := h
    exact ⟨hlt, hlt, .inl rfl⟩

theorem compactText_spec {repo : Repo} {path : Option JsString} {text intentText : JsString} {opts : CompactOptions}
    {c : JsString × CompactStat} (h : compactText repo path text intentText opts = some c) :
    ∃ p, path = some p ∧ p ≠ [] ∧ ∃ kind, compactOneRead repo p text intentText opts = some (c.1, kind) := by
  simp only [compactText, Option.bind_eq_bind, Option.bind_eq_some_iff, Option.guard_eq_some', Option.pure_def,
    Option.some.injEq] at h
  obtain ⟨p, hp, _, ⟨hne, _⟩, ⟨t, kind⟩, hone, rfl⟩ := h
  exact ⟨p, hp, hne, kind, hone⟩

/-- Where nothing is indexed a beaten text becomes a pointer. -/
theorem compactText_empty {path text intentText : JsString} {opts : CompactOptions} (hp : path ≠ [])
    (hlt : (pointerText path (lineCount text)).length < text.length) :
    (compactText .empty (some path) text intentText opts).map (·.1) = some (pointerText path (lineCount text)) := by
  have hne : text ≠ [] := by
    rintro rfl
    exact absurd hlt (Nat.not_lt_zero _)
  simp [compactText, compactOneRead, sliceOf, Repo.empty, hp, hne, hlt]

/-! ## The law holds where the transcript fits -/

theorem arrField_of_related {body body' : Json} {msgs msgs' : List Json} (hb : body.arrField W.turns = some msgs)
    (h : body' = body.setField W.turns (.arr msgs') ∨ body' = body ∧ msgs' = msgs) : body'.arrField W.turns = some msgs' := by
  rcases h with rfl | ⟨rfl, rfl⟩
  · simp
  · exact hb

theorem unitLaw_of_ran {repo : Repo} {intentText : JsString} {opts opts' : CompactOptions} {msgs : List Json} {u u' : Json}
    (hk : compactKnobs opts' = compactKnobs opts) (hfit : W.UnitFit msgs before u)
    (h : W.UnitRan repo intentText opts' msgs before u u') : W.UnitLaw repo opts before u u' := by
  unfold UnitRan at h
  cases hs : W.slot u with
  | none =>
    rw [hs] at h
    exact .inl h
  | some s =>
    cases hc : compactText repo (W.paired msgs before u) s.text intentText opts' with
    | none =>
      rw [hs, Option.bind_some, hc] at h
      exact .inl h
    | some c =>
      rw [hs, Option.bind_some, hc] at h
      obtain ⟨p, hp, hne, kind, hone⟩ := compactText_spec hc
      obtain ⟨hlt, hbeat, hshow⟩ := compactOneRead_spec hone
      obtain ⟨hasked, htext⟩ := hfit s hs p hp hne hbeat
      refine .inr ⟨s, p, c.1, hs, hasked, h, hlt, htext, hshow.imp_right ?_⟩
      rintro ⟨rp, symbols, pack, h₁, h₂, h₃, h₄, h₅⟩
      exact ⟨rp, symbols, pack, h₁, h₂, h₃, hk ▸ h₄, h₅⟩

/-- What the walk wrote where nothing is indexed tells the path it paired. -/
theorem unitFit_of_law (hW : W.Lawful) {intentText : JsString} {opts opts' : CompactOptions} {msgs : List Json} {u u' : Json}
    (hran : W.UnitRan .empty intentText opts' msgs before u u') (hlaw : W.UnitLaw .empty opts before u u') :
    W.UnitFit msgs before u := by
  intro s hs path hp hne hlt
  have hput : u' = s.put (pointerText path (lineCount s.text)) := by
    have hc : (compactText .empty (some path) s.text intentText opts').map (·.1) = _ := compactText_empty hne hlt
    unfold UnitRan at hran
    rw [Option.mem_def.1 hs, Option.bind_some, Option.mem_def.1 hp] at hran
    obtain ⟨c, hc, hc1⟩ := Option.map_eq_some_iff.1 hc
    rw [hran, hc, ← hc1]
    rfl
  have hread : ∀ t, (W.slot (s.put t)).map (·.text) = some t := fun t => hW.slot_put t hs
  rcases hlaw with rfl | ⟨s', p, t, hs', hasked, hu', hlt', htext, hshow⟩
  · -- the unit was rewritten, so it cannot be what it was
    have ht := hread (pointerText path (lineCount s.text))
    rw [← hput, Option.mem_def.1 hs] at ht
    have ht' : s.text = pointerText path (lineCount s.text) := Option.some.inj ht
    rw [← ht'] at hlt
    exact absurd hlt (Nat.lt_irrefl _)
  · have hss : s' = s := Option.some.inj (hs'.symm.trans hs)
    subst hss
    have ht : t = pointerText path (lineCount s'.text) := by
      have h := hread t
      rw [← hu', hput, hread] at h
      exact (Option.some.inj h).symm
    refine ⟨?_, htext⟩
    rcases hshow with hpt | ⟨rp, symbols, pack, hrp, -⟩
    · rw [hasked, pointerText_inj (ht.symm.trans hpt)]
    · cases hrp

/-- For whatever the repository answers, a walk obeys the law exactly when the transcript fits. -/
theorem law_iff_fit (hW : W.Lawful) {opts : CompactOptions} {body : Json} (out : Repo → JsString → Json)
    (opts' : CompactOptions) (hk : compactKnobs opts' = compactKnobs opts)
    (hran : ∀ repo intentText, W.Related (W.UnitRan repo intentText opts') opts body (out repo intentText)) :
    (∀ repo intentText, W.Law repo opts body (out repo intentText)) ↔ W.Fit opts body := by
  constructor
  · intro hlaw msgs hb p hp
    have hl := hlaw .empty []
    have hr := hran .empty []
    unfold Law Related at hl
    unfold Related at hr
    rw [hb] at hl hr
    obtain ⟨a, ha, hla⟩ := hl
    obtain ⟨b, hbb, hrb⟩ := hr
    have hab : a = b :=
      Option.some.inj ((arrField_of_related hb ha).symm.trans (arrField_of_related hb hbb))
    subst hab
    obtain ⟨u', hlaw', hran'⟩ := (hla.and hW hrb).exists hp
    exact unitFit_of_law hW hran' hlaw'
  · intro hfit repo intentText
    have hr := hran repo intentText
    unfold Law Related
    unfold Related at hr
    cases hb : body.arrField W.turns with
    | none =>
      rw [hb] at hr
      exact hr
    | some msgs =>
      rw [hb] at hr
      obtain ⟨b, hbb, hrb⟩ := hr
      exact ⟨b, hbb, hrb.mono fun p hp u' => unitLaw_of_ran hk (hfit msgs hb p hp)⟩

end Wire

end Hayven.Proxy
