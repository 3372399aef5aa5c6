import Hayven.Db.FleetMemory
/-!
# What fleet memory recalls

A note stays in the table until it is forgotten, recorded again under its id or pruned
after its time. Recall by node reads the live notes about the node, newest first, and
misses a note exactly when the note names the node only in its scope and the scope's
JSON text does not hold the id in quotes as it is: `memoryForNode_recalls_iff`.
-/
open Hayven.Lib

namespace Hayven.Db.Fleet

/-! ## Scopes as text -/

theorem paired_commaJoin {ss : List JsString} (h : ∀ s ∈ ss, Paired s) : Paired (Json.commaJoin ss) := by
  induction ss with
  | nil => exact paired_nil
  | cons s ss ih =>
    have hs := h s List.mem_cons_self
    have hss := ih fun t ht => h t (List.mem_cons_of_mem _ ht)
    cases ss with
    | nil => exact hs
    | cons t ss => exact hs.append ((paired_ascii_unit 0x2C).append hss)

theorem wellFormed_scopeText (scope : List JsString) : wellFormed (scopeText scope) = true := by
  have hitems : Paired (Json.commaJoin (scope.map quote)) := paired_commaJoin fun s hs => by
    obtain ⟨t, -, rfl⟩ := List.mem_map.1 hs
    exact paired_quote t
  exact (((paired_ascii_unit 0x5B).append hitems).append (paired_ascii_unit 0x5D)).wellFormed

theorem itemsText_strings (scope : List JsString) :
    Written.itemsText (scope.map fun s => .str (quoteBody s)) = Json.commaJoin (scope.map quote) := by
  induction scope with
  | nil => rfl
  | cons s scope ih =>
    cases scope with
    | nil => rfl
    | cons t scope =>
      simp only [List.map_cons] at ih ⊢
      rw [Written.itemsText, Json.commaJoin, ih]
      · rfl
      · exact List.cons_ne_nil _ _
      · exact List.cons_ne_nil _ _

/-- The text of a scope is read back as its strings. -/
theorem parseJson_scopeText (scope : List JsString) :
    parseJson (scopeText scope) = some (.arr (scope.map .str)) := by
  have hreads : Written.Reads (.arr (scope.map fun s => .str (quoteBody s))) (.arr (scope.map .str)) :=
    .arr (Written.ReadsItems.of_map fun s _ => .str (Written.readsString_quoteBody s))
  rw [← Written.parseJson_text hreads, Written.text, itemsText_strings, scopeText]

/-- The id stands in JSON text as it is. -/
def PrintsPlainly (id : JsString) : Prop :=
  wellFormed id = true ∧ ∀ u ∈ id, ¬u < 0x20 ∧ u ≠ 0x22 ∧ u ≠ 0x5C

theorem quoteBody_of_plain {id : JsString} (h : PrintsPlainly id) : quoteBody id = id := by
  obtain ⟨hwf, hunits⟩ := h
  fun_induction quoteBody id with
  | case1 => rfl
  | case2 u hu v rest hv ih =>
    have hrest : wellFormed rest = true := by simpa [wellFormed, hu, hv] using hwf
    rw [ih hrest fun w hw => hunits w (by simp [hw])]
  | case3 u hu v rest hv ih => simp [wellFormed, hu, hv] at hwf
  | case4 u hu => simp [wellFormed, hu] at hwf
  | case5 u rest hu hl ih =>
    cases rest <;> simp [wellFormed, hu, hl] at hwf
  | case6 u rest hu hl ih =>
    have hrest : wellFormed rest = true := by
      cases rest with
      | nil => rfl
      | cons v rest => simpa [wellFormed, hu, hl] using hwf
    obtain ⟨h20, h22, h5c⟩ := hunits u List.mem_cons_self
    rw [ih hrest fun w hw => hunits w (List.mem_cons_of_mem _ hw)]
    have hu : quoteUnit u = [u] := by
      unfold quoteUnit
      have hlow (v : UInt16) (hv : v < 0x20) : u ≠ v := fun heq => h20 (heq ▸ hv)
      rw [if_neg (hlow _ (by decide)), if_neg (hlow _ (by decide)), if_neg (hlow _ (by decide)),
        if_neg (hlow _ (by decide)), if_neg (hlow _ (by decide)), if_neg h22, if_neg h5c, if_neg h20]
    rw [hu, List.singleton_append]

theorem quote_infix_scopeText {scope : List JsString} {id : JsString} (h : id ∈ scope) :
    quote id <:+: scopeText scope := by
  have hjoin : ∀ ss : List JsString, ∀ s ∈ ss, s <:+: Json.commaJoin ss := by
    intro ss
    induction ss with
    | nil => simp
    | cons t ss ih =>
      intro s hs
      cases ss with
      | nil => rw [List.mem_singleton.1 hs]; exact List.infix_rfl
      | cons t' ss =>
        rw [Json.commaJoin]
        rcases List.mem_cons.1 hs with rfl | hs
        · exact (List.prefix_append _ _).isInfix
        · exact (ih s hs).trans ((List.suffix_cons _ _).isInfix.trans (List.suffix_append _ _).isInfix)
        · exact List.cons_ne_nil _ _
  have hmem := hjoin _ _ (List.mem_map_of_mem (f := quote) h)
  exact hmem.trans ((List.suffix_cons _ _).isInfix.trans (List.prefix_append _ _).isInfix)

theorem zero_not_mem_scopeText (scope : List JsString) : (0 : UInt16) ∉ scopeText scope := by
  have hquote (s : JsString) : (0 : UInt16) ∉ quote s := fun h => absurd (units_quote s _ h) (by decide)
  have hjoin : ∀ ss : List JsString, (∀ s ∈ ss, (0 : UInt16) ∉ s) → (0 : UInt16) ∉ Json.commaJoin ss := by
    intro ss hss
    fun_induction Json.commaJoin ss with
    | case1 => exact List.not_mem_nil
    | case2 s => exact hss s List.mem_cons_self
    | case3 s rest hne ih =>
      simp only [List.mem_append, List.mem_cons, not_or]
      exact ⟨hss s List.mem_cons_self, by decide, ih fun t ht => hss t (List.mem_cons_of_mem _ ht)⟩
  simp only [scopeText, List.cons_append, List.mem_cons, List.mem_append, List.not_mem_nil, or_false, not_or]
  refine ⟨by decide, hjoin _ fun s hs => ?_, by decide⟩
  obtain ⟨t, -, rfl⟩ := List.mem_map.1 hs
  exact hquote t

/-! ## The prefilter -/

section Store
variable {N : Type} (e : Engine N)

theorem likePattern_eq (id : JsString) :
    likePattern id = 0x25 :: escapeLike backslash (0x22 :: id ++ [0x22]) ++ [0x25] := by
  simp [likePattern, escapeLike, ascii, backslash]

/-- Escaping splits no surrogate pair. -/
theorem paired_escapeLike {s : JsString} (h : wellFormed s = true) : Paired (escapeLike backslash s) := by
  have hunit (u : UInt16) (hh : isHighSurrogate u = false) (hl : isLowSurrogate u = false) :
      Paired (escapeLike backslash [u]) := by
    have hu := paired_unit hh hl
    simp only [escapeLike, List.flatMap_cons, List.flatMap_nil, List.append_nil]
    split_ifs
    · exact (paired_ascii_unit 0x5C).append hu
    · exact hu
  have hplain (u : UInt16) (hu : isHighSurrogate u = true ∨ isLowSurrogate u = true) : escapeLike backslash [u] = [u] := by
    have hspecial : ¬(u = backslash ∨ u = 0x25 ∨ u = 0x5F) := by
      rintro (rfl | rfl | rfl) <;> revert hu <;> decide
    simp [escapeLike, hspecial]
  have happend (a b : JsString) : escapeLike backslash (a ++ b) = escapeLike backslash a ++ escapeLike backslash b :=
    List.flatMap_append
  fun_induction wellFormed s with
  | case1 => exact paired_nil
  | case2 u =>
    simp only [Bool.and_eq_true, Bool.not_eq_true'] at h
    exact hunit u h.1 h.2
  | case3 u v rest hpair ih =>
    simp only [Bool.and_eq_true] at hpair
    rw [← List.singleton_append, happend, ← List.singleton_append (l := rest), happend, hplain u (.inl hpair.1),
      hplain v (.inr hpair.2), ← List.append_assoc]
    exact (paired_pair hpair.1 hpair.2).append (ih h)
  | case4 u v rest hpair ih =>
    simp only [Bool.and_eq_true, Bool.not_eq_true'] at h
    rw [← List.singleton_append, happend]
    exact (hunit u h.1.1 h.1.2).append (ih h.2)

theorem wellFormed_likePattern {id : JsString} (h : wellFormed id = true) : wellFormed (likePattern id) = true := by
  have hquoted : Paired (ascii "%\"") := plain_of_all (s := ascii "%\"") (by decide) |>.paired
  have hclosed : Paired (ascii "\"%") := plain_of_all (s := ascii "\"%") (by decide) |>.paired
  exact ((hquoted.append (paired_escapeLike h)).append hclosed).wellFormed

theorem parseScope_text (scope : List JsString) : parseScope ((serializeScope scope).map e.text) = scope := by
  unfold serializeScope
  split_ifs with hnil
  · rw [hnil]; rfl
  · have htext : e.text (scopeText scope) = scopeText scope := e.text_eq _ (wellFormed_scopeText scope)
    rw [Option.map_some, htext, parseScope]
    · rw [parseJson_scopeText]
      simp only [List.filterMap_map]
      exact List.filterMap_some
    · exact List.cons_ne_nil _ _

/-- An id that JSON prints as it is is found in every scope that lists it. -/
theorem sqlLike_of_plain {id : JsString} (hplain : PrintsPlainly id) {scope : List JsString} (h : id ∈ scope) :
    sqlLike backslash (e.text (likePattern id)) (scopeText scope) = true := by
  have hid : (0 : UInt16) ∉ id := fun h0 => (hplain.2 0 h0).1 (by decide)
  have hquote : quote id = 0x22 :: id ++ [0x22] := by rw [quote, quoteBody_of_plain hplain]
  have hpattern : e.text (likePattern id) = likePattern id := e.text_eq _ (wellFormed_likePattern hplain.1)
  rw [hpattern, likePattern_eq, sqlLike_between (by decide) (by simp [hid]) (by decide) (zero_not_mem_scopeText scope),
    ← hquote]
  obtain ⟨a, b, hab⟩ := quote_infix_scopeText h
  exact ⟨a.map foldAscii, b.map foldAscii, by rw [← hab, List.map_append, List.map_append]⟩

end Store

/-! ## The table -/

section Rows
variable {N : Type}

theorem mem_insertOrReplace {t : FleetMemory N} {row r : FleetMemoryRow N} :
    r ∈ (t.insertOrReplace row).rows ↔ r ∈ t.rows ∧ r.id ≠ row.id ∨ r = row := by
  simp [FleetMemory.insertOrReplace]

theorem mem_delete {t : FleetMemory N} {p : FleetMemoryRow N → Bool} {r : FleetMemoryRow N} :
    r ∈ (t.delete p).rows ↔ r ∈ t.rows ∧ p r = false := by
  simp [FleetMemory.delete]

/-- Every row was bound by some `recordMemory`. -/
def Recorded (e : Engine N) (t : FleetMemory N) : Prop := ∀ r ∈ t.rows, ∃ input, r = rowOf e input

theorem recorded_empty (e : Engine N) : Recorded e (FleetMemory.empty : FleetMemory N) :=
  fun _ h => absurd h List.not_mem_nil

/-- A node id that reads back from the table is bound to itself. -/
theorem node_bound {e : Engine N} {t : FleetMemory N} (hrec : Recorded e t) {r : FleetMemoryRow N} (hr : r ∈ t.rows) {id : JsString}
    (h : (rowToNote r).nodeId = some id) : r.nodeId = some (e.text id) := by
  obtain ⟨input, rfl⟩ := hrec r hr
  obtain ⟨x, -, rfl⟩ := Option.map_eq_some_iff.1 h
  exact h.trans (congrArg some (e.text_eq _ (e.text_wellFormed x)).symm)

/-- Well-formed fields are stored as they are, and the scope always is. -/
theorem rowToNote_rowOf (e : Engine N) (t : FleetMemory N) (input : RecordMemoryInput N)
    (hid : wellFormed (recordMemory e t input).2.id = true) (hnote : wellFormed input.note = true)
    (hagent : ∀ a, input.agent = some a → wellFormed a = true)
    (hnode : ∀ n, input.nodeId = some n → wellFormed n = true) :
    rowToNote (rowOf e input) = (recordMemory e t input).2 := by
  have hmap {o : Option JsString} (h : ∀ a, o = some a → wellFormed a = true) : o.map e.text = o := by
    cases o with
    | none => rfl
    | some a => rw [Option.map_some, e.text_eq a (h a rfl)]
  have hkey : e.text (input.id.getD (deriveId e input)) = input.id.getD (deriveId e input) := e.text_eq _ hid
  simp only [rowToNote, rowOf, recordMemory, parseScope_text, hmap hagent, hmap hnode, e.text_eq _ hnote, hkey]

end Rows

section Runs
variable {N : Type} [LinearOrder N] (e : Engine N)

/-- A write adds at most the row it binds. -/
theorem mem_step {t : FleetMemory N} {op : MemoryOp N} {r : FleetMemoryRow N} (h : r ∈ (step e t op).rows) :
    r ∈ t.rows ∨ ∃ input, op = .record input ∧ r = rowOf e input := by
  cases op with
  | record input =>
    rcases mem_insertOrReplace.1 h with ⟨hr, -⟩ | rfl
    · exact .inl hr
    · exact .inr ⟨input, rfl, rfl⟩
  | forget id => exact .inl (mem_delete.1 h).1
  | prune now => exact .inl (mem_delete.1 h).1

theorem recorded_step {t : FleetMemory N} (h : Recorded e t) (op : MemoryOp N) : Recorded e (step e t op) := by
  intro r hr
  rcases mem_step e hr with hr | ⟨input, -, rfl⟩
  · exact h r hr
  · exact ⟨input, rfl⟩

theorem recorded_run {t : FleetMemory N} (h : Recorded e t) (ops : List (MemoryOp N)) : Recorded e (run e t ops) := by
  induction ops generalizing t with
  | nil => exact h
  | cons op ops ih => exact ih (recorded_step e h op)

/-- A write that leaves the row alone: it writes or forgets another id, or prunes while
the row is live. -/
def Spares (r : FleetMemoryRow N) : MemoryOp N → Prop
  | .record input => (rowOf e input).id ≠ r.id
  | .forget id => e.text id ≠ r.id
  | .prune now => live e now r = true

/-- Pruning removes exactly what is no longer live. -/
theorem expired_eq_not_live (now : N) (r : FleetMemoryRow N) : expired e now r = !live e now r := by
  unfold expired live
  cases r.ttl with
  | none => rfl
  | some ttl => simp [← not_le]

theorem mem_step_of_spares {t : FleetMemory N} {r : FleetMemoryRow N} (h : r ∈ t.rows) {op : MemoryOp N}
    (hop : Spares e r op) : r ∈ (step e t op).rows := by
  cases op with
  | record input => exact mem_insertOrReplace.2 (.inl ⟨h, Ne.symm hop⟩)
  | forget id => exact mem_delete.2 ⟨h, decide_eq_false (Ne.symm hop)⟩
  | prune now =>
    refine mem_delete.2 ⟨h, ?_⟩
    rw [expired_eq_not_live, show live e now r = true from hop]
    rfl

theorem mem_run_of_spares {t : FleetMemory N} {r : FleetMemoryRow N} (h : r ∈ t.rows) {ops : List (MemoryOp N)}
    (hops : ∀ op ∈ ops, Spares e r op) : r ∈ (run e t ops).rows := by
  induction ops generalizing t with
  | nil => exact h
  | cons op ops ih =>
    exact ih (mem_step_of_spares e h (hops op List.mem_cons_self)) fun op' h' => hops op' (List.mem_cons_of_mem _ h')

/-- A recorded note is in the table until a write touches it. -/
theorem mem_run_of_recorded {t : FleetMemory N} {before after : List (MemoryOp N)} {input : RecordMemoryInput N}
    (h : ∀ op ∈ after, Spares e (rowOf e input) op) :
    rowOf e input ∈ (run e t (before ++ .record input :: after)).rows := by
  rw [run, List.foldl_append, List.foldl_cons]
  exact mem_run_of_spares e (mem_insertOrReplace.2 (.inr rfl)) h

/-! ## Recall -/

/-- `a` comes before `b`: it is newer, or as old with the smaller id. -/
def Before (a b : MemoryNote N) : Prop :=
  b.created < a.created ∨ a.created = b.created ∧ byteCompare (textEncode a.id) (textEncode b.id) = .lt

/-- The notes of the table that are live and about the node, newest first. -/
structure Exact (t : FleetMemory N) (id : JsString) (now : N) (notes : List (MemoryNote N)) : Prop where
  mem : ∀ n, n ∈ notes ↔ ∃ r ∈ t.rows, rowToNote r = n ∧ live e now r = true ∧ (n.nodeId = some id ∨ id ∈ n.scope)
  sorted : notes.Pairwise Before

/-- A live note names the node in its scope, and the query does not let it through: its
node is another one, and the text of its scope does not match the id in quotes. -/
structure Missed (id : JsString) (now : N) (r : FleetMemoryRow N) : Prop where
  live : live e now r = true
  inScope : id ∈ parseScope r.scopeJson
  node : r.nodeId ≠ some (e.text id)
  text : ∀ json, r.scopeJson = some json → sqlLike backslash (e.text (likePattern id)) json = false

instance : Std.TransCmp (newest : FleetMemoryRow N → FleetMemoryRow N → Ordering) :=
  let _ : Std.TransCmp (fun a b : FleetMemoryRow N => compare b.created a.created) :=
    @Std.TransCmp.opposite _ (compareOn FleetMemoryRow.created) _
  inferInstanceAs (Std.TransCmp (compareLex (fun a b : FleetMemoryRow N => compare b.created a.created)
    (cmpOn (fun r => textEncode r.id) byteCompare)))

theorem mem_memoryForNode {t : FleetMemory N} {id : JsString} {now : N} {n : MemoryNote N} :
    n ∈ memoryForNode e t id now ↔ ∃ r ∈ t.rows, rowToNote r = n ∧ live e now r = true ∧
      prefiltered e id r = true ∧ (n.nodeId = some id ∨ id ∈ n.scope) := by
  simp only [memoryForNode, List.mem_filter, List.mem_map, mem_sortWith, Bool.and_eq_true, isAbout, Bool.or_eq_true,
    beq_iff_eq, List.contains_iff_mem]
  constructor
  · rintro ⟨⟨r, ⟨hr, hpre, hlive⟩, rfl⟩, habout⟩
    exact ⟨r, hr, rfl, hlive, hpre, habout⟩
  · rintro ⟨r, hr, rfl, hlive, hpre, habout⟩
    exact ⟨⟨r, ⟨hr, hpre, hlive⟩, rfl⟩, habout⟩

theorem missed_iff {id : JsString} {now : N} {r : FleetMemoryRow N} :
    Missed e id now r ↔ live e now r = true ∧ id ∈ parseScope r.scopeJson ∧ prefiltered e id r = false := by
  simp only [prefiltered, Bool.or_eq_false_iff, beq_eq_false_iff_ne, Option.any_eq_false]
  constructor
  · intro h
    exact ⟨h.live, h.inScope, h.node, h.text⟩
  · rintro ⟨hlive, hscope, hnode, htext⟩
    exact ⟨hlive, hscope, hnode, htext⟩

theorem textEncode_inj {a b : JsString} (ha : wellFormed a = true) (hb : wellFormed b = true)
    (h : textEncode a = textEncode b) : a = b := by
  have hchars : ofUtf16 a = ofUtf16 b := by
    have := congrArg utf8DecodeLossy h
    simpa [textEncode] using this
  rw [← (wellFormed_iff a).1 ha, ← (wellFormed_iff b).1 hb, hchars]

/-- Rows under different ids stand in one order, strictly. -/
theorem before_of_newest {t : FleetMemory N} (hrec : Recorded e t) {a b : FleetMemoryRow N} (ha : a ∈ t.rows)
    (hb : b ∈ t.rows) (hne : a.id ≠ b.id) (h : (newest a b).isLE = true) : Before (rowToNote a) (rowToNote b) := by
  have hid {r : FleetMemoryRow N} (hr : r ∈ t.rows) : wellFormed r.id = true := by
    obtain ⟨input, rfl⟩ := hrec r hr
    exact e.text_wellFormed _
  rw [newest, Ordering.isLE_then_iff_or] at h
  rcases h with hlt | ⟨heq, hle⟩
  · exact .inl (compare_lt_iff_lt.1 hlt)
  · refine .inr ⟨(compare_eq_iff_eq.1 heq).symm, ?_⟩
    rcases Ordering.isLE_iff_eq_lt_or_eq_eq.1 hle with hlt | heq
    · exact hlt
    · exact absurd (textEncode_inj (hid ha) (hid hb) (Std.LawfulEqCmp.eq_of_compare heq)) hne

theorem sorted_memoryForNode {t : FleetMemory N} (hrec : Recorded e t) (id : JsString) (now : N) :
    (memoryForNode e t id now).Pairwise Before := by
  apply List.Pairwise.filter
  rw [List.pairwise_map]
  set rows := t.rows.filter fun r => prefiltered e id r && live e now r with hrows
  have hnodup : ((sortWith newest rows).map (·.id)).Nodup := by
    have hperm := (sortWith_perm newest rows).map (·.id)
    exact hperm.nodup_iff.2 ((List.filter_sublist.map _).nodup t.ids_nodup)
  have hmem {r : FleetMemoryRow N} (hr : r ∈ sortWith newest rows) : r ∈ t.rows :=
    (List.mem_filter.1 ((mem_sortWith newest).1 hr)).1
  have hpair := (sortWith_pairwise newest rows).and (List.pairwise_map.1 hnodup)
  exact hpair.imp_of_mem fun ha hb h => before_of_newest e hrec (hmem ha) (hmem hb) h.2 h.1

/-- Recall by node is exact unless a note is missed. -/
theorem exact_iff {t : FleetMemory N} (hrec : Recorded e t) (id : JsString) (now : N) :
    Exact e t id now (memoryForNode e t id now) ↔ ∀ r ∈ t.rows, ¬Missed e id now r := by
  constructor
  · intro h r hr hmissed
    obtain ⟨hlive, hscope, hpre⟩ := (missed_iff e).1 hmissed
    obtain ⟨r', hr', hnote, -, hpre', -⟩ :=
      (mem_memoryForNode e).1 ((h.mem (rowToNote r)).2 ⟨r, hr, rfl, hlive, .inr hscope⟩)
    have hsame : r' = r := List.inj_on_of_nodup_map t.ids_nodup hr' hr (congrArg MemoryNote.id hnote)
    rw [hsame, hpre] at hpre'
    exact absurd hpre' Bool.false_ne_true
  · intro h
    refine ⟨fun n => ?_, sorted_memoryForNode e hrec id now⟩
    rw [mem_memoryForNode]
    constructor
    · rintro ⟨r, hr, hn, hlive, -, habout⟩
      exact ⟨r, hr, hn, hlive, habout⟩
    · rintro ⟨r, hr, rfl, hlive, habout⟩
      refine ⟨r, hr, rfl, hlive, ?_, habout⟩
      by_contra hpre
      rw [Bool.not_eq_true] at hpre
      rcases habout with hnode | hscope
      · rw [prefiltered, node_bound hrec hr hnode, beq_self_eq_true, Bool.true_or] at hpre
        exact absurd hpre.symm Bool.false_ne_true
      · exact h r hr ((missed_iff e).2 ⟨hlive, hscope, hpre⟩)

/-- No note about an id that JSON prints as it is is missed. -/
theorem not_missed_of_plain {t : FleetMemory N} (hrec : Recorded e t) {id : JsString} (hplain : PrintsPlainly id)
    {now : N} {r : FleetMemoryRow N} (hr : r ∈ t.rows) : ¬Missed e id now r := by
  obtain ⟨input, rfl⟩ := hrec r hr
  intro h
  have hscope : id ∈ input.scope.getD [] := by
    have := h.inScope
    rwa [rowOf, parseScope_text] at this
  have hjson : (rowOf e input).scopeJson = some (scopeText (input.scope.getD [])) := by
    rw [rowOf, serializeScope, if_neg (List.ne_nil_of_mem hscope), Option.map_some, e.text_eq _ (wellFormed_scopeText _)]
  have hfalse := h.text _ hjson
  rw [sqlLike_of_plain e hplain hscope] at hfalse
  exact absurd hfalse Bool.true_eq_false_eq_False

/-- What the claims on recall ask of a run: recall by node is exact, and a recorded note
that no later write touches is returned while it is live. -/
structure Recalls (ops : List (MemoryOp N)) (id : JsString) (now : N) : Prop where
  exact : Exact e (run e .empty ops) id now (memoryForNode e (run e .empty ops) id now)
  kept : ∀ before input after, ops = before ++ .record input :: after → (∀ op ∈ after, Spares e (rowOf e input) op) →
    live e now (rowOf e input) = true →
    ((rowToNote (rowOf e input)).nodeId = some id ∨ id ∈ (rowToNote (rowOf e input)).scope) →
    rowToNote (rowOf e input) ∈ memoryForNode e (run e .empty ops) id now

/-- Recall is exact and lasting in every run on which no live note is missed, and none is
missed of an id that JSON prints as it is. -/
theorem memoryForNode_recalls (ops : List (MemoryOp N)) (id : JsString) (now : N) :
    (Recalls e ops id now ↔ ∀ r ∈ (run e .empty ops).rows, ¬Missed e id now r) ∧
      (PrintsPlainly id → Recalls e ops id now) := by
  have hrec := recorded_run e (recorded_empty e) ops
  have hiff : Recalls e ops id now ↔ ∀ r ∈ (run e .empty ops).rows, ¬Missed e id now r := by
    constructor
    · intro h
      exact (exact_iff e hrec id now).1 h.exact
    · intro h
      have hexact := (exact_iff e hrec id now).2 h
      refine ⟨hexact, fun before input after hops hspares hlive habout => ?_⟩
      have hmem : rowOf e input ∈ (run e .empty ops).rows := hops ▸ mem_run_of_recorded e hspares
      exact (hexact.mem _).2 ⟨_, hmem, rfl, hlive, habout⟩
  exact ⟨hiff, fun hplain => hiff.2 fun r hr => not_missed_of_plain e hrec hplain hr⟩

end Runs

/-! ## A quote in an id -/

/-- Integer milliseconds and seconds. -/
def wholeNumbers : Engine Int where
  text s := toUtf16 (ofUtf16 s)
  text_wellFormed s := (wellFormed_iff _).2 (by rw [ofUtf16_toUtf16])
  text_eq s h := (wellFormed_iff s).1 h
  expiry created ttl := created + ttl * 1000
  printNumber := intText

/-- A note whose scope lists `a"b` is not recalled under that id. -/
theorem quoted_id_missed :
    ¬∀ (ops : List (MemoryOp Int)) (id : JsString) (now : Int), Recalls wholeNumbers ops id now := by
  intro h
  have hmem := (h [.record ⟨none, none, .note, ascii "n", some [ascii "a\"b"], none, 0, some (ascii "m")⟩]
    (ascii "a\"b") 0).kept [] _ [] rfl (by simp) (by decide) (by decide +kernel)
  exact absurd hmem (by decide +kernel)

end Hayven.Db.Fleet
