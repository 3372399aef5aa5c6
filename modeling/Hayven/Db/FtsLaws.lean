import Hayven.Db.Fts
/-!
# What expansion adds to a search

Every `MATCH` text is read back as the expression it stands for, so a search is known by the
words of its query: `mem_searchFts`, `mem_searchFtsSemantic`. Only the relaxed search makes the
two entry points differ, and the semantic one never runs it: `additive_iff`.
-/
open Hayven.Lib Hayven.Lib.FtsQuery

namespace Hayven.Db.Search

variable {U : UnicodeTables} {sql : Sqlite} {idx : FtsIndex}

/-! ## The terms of a query -/

theorem mem_sanitizeTerms {raw t : List Char} (h : t ∈ sanitizeTerms U raw) : t ≠ [] ∧ '"' ∉ t := by
  obtain ⟨hmem, hne⟩ := List.mem_filter.1 h
  refine ⟨by simpa using hne, ?_⟩
  obtain ⟨w, -, rfl⟩ := List.mem_map.1 hmem
  intro hq
  have hword := (List.mem_filter.1 hq).2
  rw [quote_not_word] at hword
  cases hword

/-- The loop keeps what it has, and adds none but terms it meets. -/
theorem originalTermsFrom_mem (seen kept ts : List (List Char)) :
    kept ⊆ originalTermsFrom U seen kept ts ∧ originalTermsFrom U seen kept ts ⊆ kept ++ ts := by
  induction ts generalizing seen kept with
  | nil => exact ⟨fun _ h => h, List.subset_append_left _ _⟩
  | cons t ts ih =>
    have happend : kept ++ [t] ⊆ kept ++ t :: ts := by
      intro a ha
      rcases List.mem_append.1 ha with ha | ha
      · exact List.mem_append_left _ ha
      · exact List.mem_append_right _ (List.mem_singleton.1 ha ▸ List.mem_cons_self)
    unfold originalTermsFrom
    split
    · refine ⟨(ih seen kept).1, fun a ha => ?_⟩
      rcases List.mem_append.1 ((ih seen kept).2 ha) with ha | ha
      · exact List.mem_append_left _ ha
      · exact List.mem_append_right _ (List.mem_cons_of_mem _ ha)
    · split
      · exact ⟨List.subset_append_left _ _, happend⟩
      · have hih := ih (U.toLowerCase t :: seen) (kept ++ [t])
        refine ⟨fun a ha => hih.1 (List.mem_append_left _ ha), fun a ha => ?_⟩
        rcases List.mem_append.1 (hih.2 ha) with ha | ha
        · exact happend ha
        · exact List.mem_append_right _ (List.mem_cons_of_mem _ ha)

theorem originalTerms_subset (raw : List Char) : originalTerms U raw ⊆ sanitizeTerms U raw :=
  (originalTermsFrom_mem [] [] _).2

/-- The first term is always kept. -/
theorem originalTerms_eq_nil_iff {raw : List Char} : originalTerms U raw = [] ↔ sanitizeTerms U raw = [] := by
  unfold originalTerms
  refine ⟨fun h => ?_, fun h => by rw [h]; rfl⟩
  rcases hterms : sanitizeTerms U raw with _ | ⟨t, ts⟩
  · rfl
  · rw [hterms, originalTermsFrom, if_neg List.not_mem_nil] at h
    split at h
    · cases h
    · have hkept := (originalTermsFrom_mem (U := U) [U.toLowerCase t] ([] ++ [t]) ts).1
      rw [h] at hkept
      exact absurd (hkept List.mem_cons_self) List.not_mem_nil

theorem dropStopwords_subset (terms : List (List Char)) : dropStopwords U terms ⊆ terms := by
  unfold dropStopwords
  intro t ht
  dsimp only at ht
  split at ht
  · exact (List.mem_filter.1 ht).1
  · exact ht

theorem dropStopwords_eq_nil_iff {terms : List (List Char)} : dropStopwords U terms = [] ↔ terms = [] := by
  unfold dropStopwords
  dsimp only
  split
  · next h => exact ⟨fun h' => absurd h' h, fun h' => by rw [h']; rfl⟩
  · rfl

theorem expandTerm_ne_nil {t : List Char} (h : t ≠ []) : expandTerm U t ≠ [] := by
  rw [expandTerm, if_neg h]
  exact List.cons_ne_nil _ _

/-- The lower case of a term is its first expansion. -/
theorem lower_mem_expandTerm {t : List Char} (h : t ≠ []) : U.toLowerCase t ∈ expandTerm U t := by
  rw [expandTerm, if_neg h]
  exact List.mem_cons_self

/-! ## The selection of a MATCH text -/

theorem groupText_denotes {group : List (List Char)} (hne : group ≠ []) (h : Quoteless group) :
    Denotes 0 (groupText group) fun hit => group.any hit := by
  have hor : Denotes 2 (orText.intercalate (group.map quoted)) fun hit => group.any hit :=
    denotes_or hne fun t ht => (denotes_quoted (h t ht)).mono (by omega)
  unfold groupText
  split
  · next hlength =>
    obtain ⟨t, rfl⟩ := List.length_eq_one_iff.1 hlength
    have hquoted := denotes_quoted (h t List.mem_cons_self)
    simpa [List.intercalate] using hquoted
  · exact hor.paren

section Groups
variable {terms : List (List Char)}

/-- Every non-empty term makes a group. -/
theorem expandQuery_eq (hterms : ∀ t ∈ terms, t ≠ []) : expandQuery U terms = terms.map (expandTerm U) := by
  refine List.filter_eq_self.2 fun group hgroup => ?_
  obtain ⟨t, ht, rfl⟩ := List.mem_map.1 hgroup
  exact decide_eq_true (expandTerm_ne_nil (hterms t ht))

theorem groups_filter (hterms : ∀ t ∈ terms, t ≠ []) :
    (expandQuery U terms).filter (· ≠ []) = terms.map (expandTerm U) := by
  have hfilter : (expandQuery U terms).filter (· ≠ []) = expandQuery U terms := by
    unfold expandQuery
    rw [List.filter_filter]
    simp
  rw [hfilter, expandQuery_eq hterms]

theorem expandTerm_denotes (hterms : ∀ t ∈ terms, t ≠ [] ∧ '"' ∉ t) {t : List Char} (ht : t ∈ terms) :
    Denotes 0 (groupText (expandTerm U t)) fun hit => (expandTerm U t).any hit :=
  groupText_denotes (expandTerm_ne_nil (hterms t ht).1) (expandTerm_quoteless U (hterms t ht).2)

theorem assembleMatch_denotes (hne : terms ≠ []) (hterms : ∀ t ∈ terms, t ≠ [] ∧ '"' ∉ t) :
    Denotes 1 (assembleMatch (expandQuery U terms)) fun hit => terms.all fun t => (expandTerm U t).any hit := by
  rw [assembleMatch, groups_filter fun t ht => (hterms t ht).1, List.map_map]
  exact denotes_and hne fun t ht => expandTerm_denotes hterms ht

theorem assembleMatchOr_denotes (hne : terms ≠ []) (hterms : ∀ t ∈ terms, t ≠ [] ∧ '"' ∉ t) :
    Denotes 2 (assembleMatchOr (expandQuery U terms)) fun hit => terms.any fun t => (expandTerm U t).any hit := by
  rw [assembleMatchOr, groups_filter fun t ht => (hterms t ht).1, List.map_map]
  exact denotes_or hne fun t ht => (expandTerm_denotes hterms ht).mono (by omega)

end Groups

section Texts
variable {raw : List Char}

theorem originalTerms_spec {t : List Char} (h : t ∈ originalTerms U raw) : t ≠ [] ∧ '"' ∉ t :=
  mem_sanitizeTerms (originalTerms_subset raw h)

theorem escapeFtsQuery_denotes (h : sanitizeTerms U raw ≠ []) :
    Denotes 0 (escapeFtsQuery U raw) fun hit => (sanitizeTerms U raw).all hit :=
  denotes_list h fun _ ht => (mem_sanitizeTerms ht).2

theorem escapeFtsQuery_eq_nil (h : sanitizeTerms U raw = []) : escapeFtsQuery U raw = [] := by
  rw [escapeFtsQuery, h]
  rfl

theorem buildFtsMatch_denotes (h : originalTerms U raw ≠ []) :
    Denotes 1 (buildFtsMatch U raw) fun hit => (originalTerms U raw).all fun t => (expandTerm U t).any hit :=
  assembleMatch_denotes h fun _ ht => originalTerms_spec ht

theorem buildFtsMatch_eq_nil (h : originalTerms U raw = []) : buildFtsMatch U raw = [] := by
  rw [buildFtsMatch, h]
  rfl

theorem buildRelaxedFtsMatch_denotes (h : originalTerms U raw ≠ []) :
    Denotes 2 (buildRelaxedFtsMatch U raw)
      fun hit => (dropStopwords U (originalTerms U raw)).any fun t => (expandTerm U t).any hit :=
  assembleMatchOr_denotes (fun hnil => h (dropStopwords_eq_nil_iff.1 hnil))
    fun _ ht => originalTerms_spec (dropStopwords_subset _ ht)

theorem buildRelaxedFtsMatch_eq_nil (h : originalTerms U raw = []) : buildRelaxedFtsMatch U raw = [] := by
  rw [buildRelaxedFtsMatch, h]
  rfl

theorem semantic_denotes {terms : List (List Char)} (hne : terms ≠ []) (h : Quoteless terms) :
    Denotes 0 ('(' :: (orText.intercalate (terms.map quoted) ++ [')'])) fun hit => terms.any hit :=
  (denotes_or hne fun t ht => (denotes_quoted (h t ht)).mono (by omega)).paren

/-- Without a term of the model, the text of the precise search. -/
theorem semanticMatch_of_nil (base : List (List (List Char))) : semanticMatch ⟨base, []⟩ = assembleMatch base := by
  simp only [semanticMatch, ne_eq, not_true_eq_false, if_false, and_false]
  split
  · rfl
  · next h => exact (not_not.1 h).symm

theorem semanticMatch_denotes {semantic : List (List Char)} (hsem : semantic ≠ []) (hquote : Quoteless semantic) :
    Denotes 2 (semanticMatch ⟨expandQuery U (originalTerms U raw), semantic⟩) fun hit =>
      ((originalTerms U raw) ≠ [] && (originalTerms U raw).all fun t => (expandTerm U t).any hit) ||
        semantic.any hit := by
  have hsemantic := semantic_denotes hsem hquote
  rcases hterms : originalTerms U raw with _ | ⟨t, ts⟩
  · simpa [semanticMatch, assembleMatch, expandQuery, hsem, List.intercalate] using hsemantic.mono (by omega)
  · have hbase : Denotes 1 (buildFtsMatch U raw) _ := buildFtsMatch_denotes (by rw [hterms]; exact List.cons_ne_nil t ts)
    rw [buildFtsMatch, hterms] at hbase
    have hor := (hbase.mono (m := 2) (by omega)).paren.mono (m := 2) (by omega) |>.either (hsemantic.mono (by omega))
    have hne := hbase.ne_nil
    rw [semanticMatch]
    simp only [ne_eq, hsem, hne, not_false_eq_true, if_true, and_self, List.cons_ne_nil]
    simpa using hor

end Texts

/-! ## The rows of a search -/

/-- The rows a list of hits stands for. -/
def returned (hits : List SearchHit) : List (List Char) := hits.map SearchHit.id

/-- The filter as the searches apply it: without a table `nodes` it lets everything pass. -/
def passes (idx : FtsIndex) (filter : Option PathFilter) (row : FtsRow) : Bool :=
  idx.nodes.all fun nodes => pathPredicate nodes filter row

theorem take_sortWith {α : Type} (cmp : α → α → Ordering) {l : List α} {n : Nat} (h : l.length ≤ n) :
    (sortWith cmp l).take n = sortWith cmp l :=
  List.take_of_length_le (by rw [length_sortWith]; exact h)

theorem mem_returned_map {rows : List FtsRow} {f : FtsRow → Scored} (hf : ∀ row, (f row).row = row)
    {l : List Scored} (hl : ∀ s, s ∈ l ↔ s ∈ rows.map f) {id : List Char} :
    id ∈ returned (l.map Scored.hit) ↔ ∃ row ∈ rows, row.id = id := by
  rw [returned, List.map_map]
  constructor
  · intro h
    obtain ⟨s, hs, rfl⟩ := List.mem_map.1 h
    obtain ⟨row, hrow, rfl⟩ := List.mem_map.1 ((hl s).1 hs)
    exact ⟨row, hrow, congrArg FtsRow.id (hf row).symm⟩
  · rintro ⟨row, hrow, rfl⟩
    exact List.mem_map.2 ⟨f row, (hl _).2 (List.mem_map_of_mem hrow), congrArg FtsRow.id (hf row)⟩

/-- A row among the candidates is known by its id. -/
theorem exists_candidate_iff {e : Expr} {inScope : FtsRow → Bool} {row : FtsRow} (hrow : row ∈ idx.rows) :
    (∃ r ∈ candidates sql idx e inScope, r.id = row.id) ↔ exprMatches sql e row = true ∧ inScope row = true := by
  constructor
  · rintro ⟨r, hr, hid⟩
    obtain ⟨hmem, hmatch⟩ := List.mem_filter.1 hr
    obtain rfl : r = row := List.inj_on_of_nodup_map idx.rows_nodup hmem hrow hid
    simpa using hmatch
  · rintro ⟨hmatch, hscope⟩
    refine ⟨row, List.mem_filter.2 ⟨hrow, ?_⟩, rfl⟩
    rw [hmatch, hscope]
    rfl

theorem candidates_length_le {e : Expr} {inScope : FtsRow → Bool} {limit : Nat} (hlimit : idx.rows.length ≤ limit) :
    (candidates sql idx e inScope).length ≤ limit :=
  (List.length_filter_le _ _).trans hlimit

section Ranked
variable {limit n : Nat} {s : List Char} {sel : (List Char → Bool) → Bool} {filter : Option PathFilter} {row : FtsRow}

theorem mem_bm25Search (hlimit : idx.rows.length ≤ limit) (hs : Denotes n s sel) (hrow : row ∈ idx.rows) :
    row.id ∈ returned (bm25Search sql idx s limit filter) ↔
      sel (phraseMatches sql row) = true ∧ passes idx filter row = true := by
  obtain ⟨e, he, -, heval⟩ := hs.parse
  rw [bm25Search, if_neg hs.ne_nil]
  simp only [he]
  rw [take_sortWith _ (by rw [List.length_map]; exact candidates_length_le hlimit),
    mem_returned_map (fun _ => rfl) (fun _ => mem_sortWith _), exists_candidate_iff hrow, exprMatches, heval, passes]
  cases idx.nodes <;> rfl

theorem mem_rankedSearch (hlimit : idx.rows.length ≤ limit) (hs : Denotes n s sel) (hrow : row ∈ idx.rows) :
    row.id ∈ returned (rankedSearch sql idx s limit filter) ↔
      sel (phraseMatches sql row) = true ∧ passes idx filter row = true := by
  obtain ⟨e, he, -, heval⟩ := hs.parse
  have hbm25 : row.id ∈ returned (bm25Search sql idx s limit filter) ↔ _ := mem_bm25Search hlimit hs hrow
  rw [rankedSearch, if_neg hs.ne_nil, he]
  rcases hnodes : idx.nodes with _ | nodes
  · exact hbm25
  rcases hedges : idx.edges with _ | edges
  · exact hbm25
  dsimp only
  split
  · exact hbm25
  -- the pool and the limit hold every candidate, so only the order is changed
  have hlength : ((candidates sql idx e (pathPredicate nodes filter)).map (scored sql idx nodes edges e)).length ≤
      limit := by
    rw [List.length_map]
    exact candidates_length_le hlimit
  have hpool : limit ≤ max RERANK_MIN_POOL (limit * RERANK_POOL_FACTOR) := by
    rw [RERANK_POOL_FACTOR]
    omega
  rw [take_sortWith byRank (hlength.trans hpool), take_sortWith byFinalScore (by rw [length_sortWith]; exact hlength),
    mem_returned_map (fun _ => rfl) (fun _ => (mem_sortWith _).trans (mem_sortWith _)), exists_candidate_iff hrow,
    exprMatches, heval, passes, hnodes]
  rfl

theorem rankedSearch_nil : rankedSearch sql idx [] limit filter = [] := rfl

/-- Every hit stands for a row of the index. -/
theorem exists_row_of_mem_returned (hs : Denotes n s sel) {id : List Char}
    (h : id ∈ returned (rankedSearch sql idx s limit filter)) : ∃ row ∈ idx.rows, row.id = id := by
  have hsub : ∀ {l : List Scored} {rows : List FtsRow} {f : FtsRow → Scored}, (∀ row, (f row).row = row) →
      rows ⊆ idx.rows → (∀ s ∈ l, s ∈ rows.map f) → id ∈ returned (l.map Scored.hit) →
      ∃ row ∈ idx.rows, row.id = id := by
    intro l rows f hf hrows hl h
    rw [returned, List.map_map] at h
    obtain ⟨s, hs, rfl⟩ := List.mem_map.1 h
    obtain ⟨row, hrow, rfl⟩ := List.mem_map.1 (hl s hs)
    exact ⟨row, hrows hrow, congrArg FtsRow.id (hf row).symm⟩
  have hcandidates : ∀ (e : Expr) inScope, candidates sql idx e inScope ⊆ idx.rows := fun e inScope =>
    List.filter_subset_self _
  obtain ⟨e, he, -, -⟩ := hs.parse
  have hbm25 : id ∈ returned (bm25Search sql idx s limit filter) → ∃ row ∈ idx.rows, row.id = id := by
    intro h
    rw [bm25Search, if_neg hs.ne_nil] at h
    simp only [he] at h
    exact hsub (fun _ => rfl) (hcandidates e _) (fun s hs => (mem_sortWith _).1 (List.mem_of_mem_take hs)) h
  rw [rankedSearch, if_neg hs.ne_nil, he] at h
  rcases hnodes : idx.nodes with _ | nodes
  · rw [hnodes] at h
    exact hbm25 h
  rcases hedges : idx.edges with _ | edges
  · rw [hnodes, hedges] at h
    exact hbm25 h
  rw [hnodes, hedges] at h
  dsimp only at h
  split at h
  · exact hbm25 h
  · refine hsub (f := scored sql idx nodes edges e) (fun _ => rfl)
      (hcandidates e (pathPredicate nodes filter)) (fun s hs => ?_) h
    exact (mem_sortWith _).1 (List.mem_of_mem_take ((mem_sortWith _).1 (List.mem_of_mem_take hs)))

end Ranked

/-! ## A search by the words of its query -/

/-- The row holds the term or one of its expansions. -/
def covers (U : UnicodeTables) (sql : Sqlite) (row : FtsRow) (t : List Char) : Bool :=
  (expandTerm U t).any (phraseMatches sql row)

/-- The row holds every word of the query. -/
def HoldsAll (U : UnicodeTables) (sql : Sqlite) (raw : List Char) (row : FtsRow) : Prop :=
  sanitizeTerms U raw ≠ [] ∧ ∀ t ∈ sanitizeTerms U raw, phraseMatches sql row t = true

/-- The row holds an expansion of every distinct word, up to the cap. -/
def CoversAll (U : UnicodeTables) (sql : Sqlite) (raw : List Char) (row : FtsRow) : Prop :=
  originalTerms U raw ≠ [] ∧ ∀ t ∈ originalTerms U raw, covers U sql row t = true

/-- The row holds an expansion of a content word. -/
def CoversSome (U : UnicodeTables) (sql : Sqlite) (raw : List Char) (row : FtsRow) : Prop :=
  ∃ t ∈ dropStopwords U (originalTerms U raw), covers U sql row t = true

section Searches
variable {raw : List Char} {limit : Nat} {path : Option (List Char)} {row : FtsRow}

theorem mem_preciseSearch {filter : Option PathFilter} (hlimit : idx.rows.length ≤ limit) (hrow : row ∈ idx.rows) :
    row.id ∈ returned (rankedSearch sql idx (buildFtsMatch U raw) limit filter) ↔
      CoversAll U sql raw row ∧ passes idx filter row = true := by
  by_cases hterms : originalTerms U raw = []
  · rw [buildFtsMatch_eq_nil hterms, rankedSearch_nil]
    exact ⟨fun h => absurd h List.not_mem_nil, fun h => absurd hterms h.1.1⟩
  · rw [mem_rankedSearch hlimit (buildFtsMatch_denotes hterms) hrow, CoversAll]
    simp only [hterms, ne_eq, not_false_eq_true, true_and, List.all_eq_true, covers]

theorem mem_relaxedSearch {filter : Option PathFilter} (hlimit : idx.rows.length ≤ limit) (hrow : row ∈ idx.rows) :
    row.id ∈ returned (rankedSearch sql idx (buildRelaxedFtsMatch U raw) limit filter) ↔
      CoversSome U sql raw row ∧ passes idx filter row = true := by
  by_cases hterms : originalTerms U raw = []
  · rw [buildRelaxedFtsMatch_eq_nil hterms, rankedSearch_nil]
    refine ⟨fun h => absurd h List.not_mem_nil, ?_⟩
    rintro ⟨⟨t, ht, -⟩, -⟩
    rw [dropStopwords_eq_nil_iff.2 hterms] at ht
    exact absurd ht List.not_mem_nil
  · rw [mem_rankedSearch hlimit (buildRelaxedFtsMatch_denotes hterms) hrow, CoversSome]
    simp only [List.any_eq_true, covers]

/-- Some row in the filter covers every word: the precise search has a hit. -/
def Precise (U : UnicodeTables) (sql : Sqlite) (idx : FtsIndex) (raw : List Char) (path : Option (List Char)) : Prop :=
  ∃ row ∈ idx.rows, passes idx (compilePathFilter path) row = true ∧ CoversAll U sql raw row

theorem returned_subset_rows {s : List Char} {filter : Option PathFilter}
    (hs : s = [] ∨ ∃ n sel, Denotes n s sel) {id : List Char} (h : id ∈ returned (rankedSearch sql idx s limit filter)) :
    ∃ row ∈ idx.rows, row.id = id := by
  rcases hs with rfl | ⟨n, sel, hs⟩
  · exact absurd h List.not_mem_nil
  · exact exists_row_of_mem_returned hs h

theorem buildFtsMatch_read (U : UnicodeTables) (raw : List Char) :
    buildFtsMatch U raw = [] ∨ ∃ n sel, Denotes n (buildFtsMatch U raw) sel := by
  by_cases hterms : originalTerms U raw = []
  · exact .inl (buildFtsMatch_eq_nil hterms)
  · exact .inr ⟨_, _, buildFtsMatch_denotes hterms⟩

theorem buildRelaxedFtsMatch_read (U : UnicodeTables) (raw : List Char) :
    buildRelaxedFtsMatch U raw = [] ∨ ∃ n sel, Denotes n (buildRelaxedFtsMatch U raw) sel := by
  by_cases hterms : originalTerms U raw = []
  · exact .inl (buildRelaxedFtsMatch_eq_nil hterms)
  · exact .inr ⟨_, _, buildRelaxedFtsMatch_denotes hterms⟩

/-- A ranked search is empty when it returns none of the rows. -/
theorem rankedSearch_eq_nil {s : List Char} {filter : Option PathFilter} (hs : s = [] ∨ ∃ n sel, Denotes n s sel)
    (h : ∀ row ∈ idx.rows, row.id ∉ returned (rankedSearch sql idx s limit filter)) :
    rankedSearch sql idx s limit filter = [] := by
  have hids : returned (rankedSearch sql idx s limit filter) = [] := by
    refine List.eq_nil_iff_forall_not_mem.2 fun id hid => ?_
    obtain ⟨row, hrow, rfl⟩ := returned_subset_rows hs hid
    exact h row hrow hid
  exact List.map_eq_nil_iff.1 hids

theorem preciseSearch_ne_nil_iff (hlimit : idx.rows.length ≤ limit) :
    rankedSearch sql idx (buildFtsMatch U raw) limit (compilePathFilter path) ≠ [] ↔ Precise U sql idx raw path := by
  constructor
  · intro h
    by_contra hnone
    refine h (rankedSearch_eq_nil (buildFtsMatch_read U raw) fun row hrow hid => hnone ?_)
    obtain ⟨hcovers, hpass⟩ := (mem_preciseSearch hlimit hrow).1 hid
    exact ⟨row, hrow, hpass, hcovers⟩
  · rintro ⟨row, hrow, hpass, hcovers⟩ hnil
    have hid := (mem_preciseSearch hlimit hrow).2 ⟨hcovers, hpass⟩
    rw [hnil] at hid
    exact absurd hid List.not_mem_nil

/-- Where the precise search has a hit, it is the whole search. -/
theorem searchFts_of_precise (hlimit : idx.rows.length ≤ limit) (h : Precise U sql idx raw path) :
    searchFts U sql idx raw limit path =
      rankedSearch sql idx (buildFtsMatch U raw) limit (compilePathFilter path) := by
  rw [searchFts]
  exact if_pos ((preciseSearch_ne_nil_iff hlimit).2 h)

/-- Where it has none, the search is the relaxed one, also where that is skipped. -/
theorem searchFts_of_not_precise (hlimit : idx.rows.length ≤ limit) (h : ¬ Precise U sql idx raw path) :
    searchFts U sql idx raw limit path =
      rankedSearch sql idx (buildRelaxedFtsMatch U raw) limit (compilePathFilter path) := by
  have hnil : rankedSearch sql idx (buildFtsMatch U raw) limit (compilePathFilter path) = [] :=
    not_not.1 fun hne => h ((preciseSearch_ne_nil_iff hlimit).1 hne)
  rw [searchFts]
  simp only [hnil, ne_eq, not_true_eq_false, if_false]
  split
  · next hskip =>
    rcases hskip with hskip | hskip
    · rw [hskip, rankedSearch_nil]
    · rw [hskip, hnil]
  · rfl

theorem mem_searchFts (hlimit : idx.rows.length ≤ limit) (hrow : row ∈ idx.rows) :
    row.id ∈ returned (searchFts U sql idx raw limit path) ↔ passes idx (compilePathFilter path) row = true ∧
      (CoversAll U sql raw row ∨ (¬ Precise U sql idx raw path ∧ CoversSome U sql raw row)) := by
  by_cases h : Precise U sql idx raw path
  · rw [searchFts_of_precise hlimit h, mem_preciseSearch hlimit hrow]
    exact ⟨fun ⟨hc, hp⟩ => ⟨hp, .inl hc⟩, fun ⟨hp, hc⟩ => ⟨hc.resolve_right fun hn => hn.1 h, hp⟩⟩
  · rw [searchFts_of_not_precise hlimit h, mem_relaxedSearch hlimit hrow]
    refine ⟨fun ⟨hc, hp⟩ => ⟨hp, .inr ⟨h, hc⟩⟩, fun ⟨hp, hc⟩ => ⟨?_, hp⟩⟩
    rcases hc with hc | hc
    · exact absurd ⟨row, hrow, hp, hc⟩ h
    · exact hc.2

/-- The search without a term of the model is the precise search alone. -/
theorem searchFtsSemantic_of_nil {infer : Option (List Char → InferResult)} (h : semanticTerms U raw infer = []) :
    searchFtsSemantic U sql idx raw infer limit path =
      rankedSearch sql idx (buildFtsMatch U raw) limit (compilePathFilter path) := by
  rw [searchFtsSemantic, expandQueryWithModel, h, semanticMatch_of_nil]
  rfl

theorem mem_searchFtsSemantic {infer : Option (List Char → InferResult)} (hlimit : idx.rows.length ≤ limit)
    (hrow : row ∈ idx.rows) :
    row.id ∈ returned (searchFtsSemantic U sql idx raw infer limit path) ↔
      passes idx (compilePathFilter path) row = true ∧
        (CoversAll U sql raw row ∨ ∃ x ∈ semanticTerms U raw infer, phraseMatches sql row x = true) := by
  by_cases h : semanticTerms U raw infer = []
  · rw [searchFtsSemantic_of_nil h, mem_preciseSearch hlimit hrow, h]
    simp only [List.not_mem_nil, false_and, exists_false, or_false, and_comm]
  · have hdenotes : Denotes 2 (semanticMatch ⟨expandQuery U (originalTerms U raw), semanticTerms U raw infer⟩) _ :=
      semanticMatch_denotes h (semanticTerms_quoteless U raw infer)
    rw [searchFtsSemantic, expandQueryWithModel, mem_rankedSearch hlimit hdenotes hrow, and_comm, CoversAll]
    simp only [Bool.or_eq_true, Bool.and_eq_true, decide_eq_true_eq, List.all_eq_true, List.any_eq_true, covers]

end Searches

/-! ## What is promised -/

/-- The file of the row begins with the path that is asked for. -/
def InScope (idx : FtsIndex) (path : Option (List Char)) (row : FtsRow) : Prop :=
  ∀ p ∈ path, ∀ nodes ∈ idx.nodes, normalizedPath p = [] ∨ ∃ n ∈ nodes, n.id = row.id ∧ normalizedPath p <+: n.file

/-- A text FTS5 takes, with no quote in a phrase, or none. -/
def Accepted (s : List Char) : Prop := s = [] ∨ ∃ e, parse s = some e ∧ e.Quoteless

/-- Expansion only adds rows, with or without a model. -/
structure OnlyAdds (U : UnicodeTables) (sql : Sqlite) (idx : FtsIndex) (raw : List Char)
    (infer : Option (List Char → InferResult)) (limit : Nat) (path : Option (List Char)) : Prop where
  kept : ∀ row ∈ idx.rows, InScope idx path row →
    (∃ e, parse (escapeFtsQuery U raw) = some e ∧ exprMatches sql e row = true) →
      row.id ∈ returned (searchFts U sql idx raw limit path)
  same : semanticTerms U raw infer = [] →
    searchFtsSemantic U sql idx raw infer limit path = searchFts U sql idx raw limit path
  superset : semanticTerms U raw infer ≠ [] →
    returned (searchFts U sql idx raw limit path) ⊆ returned (searchFtsSemantic U sql idx raw infer limit path)
  accepted : Accepted (escapeFtsQuery U raw) ∧ Accepted (buildFtsMatch U raw) ∧ Accepted (buildRelaxedFtsMatch U raw) ∧
    Accepted (semanticMatch (expandQueryWithModel U (originalTerms U raw) raw infer))

/-- Each row below the path that holds every word passes the filter and is covered, in every
word, or in one where no row in the filter is covered in every word. -/
def Covered (U : UnicodeTables) (sql : Sqlite) (idx : FtsIndex) (raw : List Char) (path : Option (List Char)) : Prop :=
  ∀ row ∈ idx.rows, InScope idx path row → HoldsAll U sql raw row →
    passes idx (compilePathFilter path) row = true ∧
      (CoversAll U sql raw row ∨ (¬ Precise U sql idx raw path ∧ CoversSome U sql raw row))

/-- The precise search has a hit, or each row in the filter that holds an expansion of a content
word holds a term of the model as well. -/
def Bridged (U : UnicodeTables) (sql : Sqlite) (idx : FtsIndex) (raw : List Char)
    (infer : Option (List Char → InferResult)) (path : Option (List Char)) : Prop :=
  Precise U sql idx raw path ∨ ∀ row ∈ idx.rows, passes idx (compilePathFilter path) row = true →
    CoversSome U sql raw row → ∃ x ∈ semanticTerms U raw infer, phraseMatches sql row x = true

section Promise
variable {raw : List Char} {infer : Option (List Char → InferResult)} {limit : Nat} {path : Option (List Char)}

theorem accepted_of_read {s : List Char} (h : s = [] ∨ ∃ n sel, Denotes n s sel) : Accepted s := by
  rcases h with h | ⟨n, sel, h⟩
  · exact .inl h
  · obtain ⟨e, he, hquoteless, -⟩ := h.parse
    exact .inr ⟨e, he, hquoteless⟩

theorem semanticMatch_read (U : UnicodeTables) (raw : List Char) (infer : Option (List Char → InferResult)) :
    semanticMatch (expandQueryWithModel U (originalTerms U raw) raw infer) = [] ∨
      ∃ n sel, Denotes n (semanticMatch (expandQueryWithModel U (originalTerms U raw) raw infer)) sel := by
  by_cases h : semanticTerms U raw infer = []
  · rw [expandQueryWithModel, h, semanticMatch_of_nil]
    exact buildFtsMatch_read U raw
  · exact .inr ⟨_, _, semanticMatch_denotes h (semanticTerms_quoteless U raw infer)⟩

theorem all_accepted (U : UnicodeTables) (raw : List Char) (infer : Option (List Char → InferResult)) :
    Accepted (escapeFtsQuery U raw) ∧ Accepted (buildFtsMatch U raw) ∧ Accepted (buildRelaxedFtsMatch U raw) ∧
      Accepted (semanticMatch (expandQueryWithModel U (originalTerms U raw) raw infer)) := by
  refine ⟨?_, accepted_of_read (buildFtsMatch_read U raw), accepted_of_read (buildRelaxedFtsMatch_read U raw),
    accepted_of_read (semanticMatch_read U raw infer)⟩
  by_cases hterms : sanitizeTerms U raw = []
  · exact .inl (escapeFtsQuery_eq_nil hterms)
  · exact accepted_of_read (.inr ⟨_, _, escapeFtsQuery_denotes hterms⟩)

/-- What matches the escaped query holds every word of it. -/
theorem escaped_iff {row : FtsRow} :
    (∃ e, parse (escapeFtsQuery U raw) = some e ∧ exprMatches sql e row = true) ↔ HoldsAll U sql raw row := by
  by_cases hterms : sanitizeTerms U raw = []
  · rw [escapeFtsQuery_eq_nil hterms, HoldsAll]
    refine ⟨?_, fun h => absurd hterms h.1⟩
    rintro ⟨e, he, -⟩
    cases he
  · obtain ⟨e, he, -, heval⟩ := (escapeFtsQuery_denotes hterms).parse
    have hmatch : exprMatches sql e row = true ↔ HoldsAll U sql raw row := by
      rw [exprMatches, heval, HoldsAll, List.all_eq_true]
      exact ⟨fun h => ⟨hterms, h⟩, fun h => h.2⟩
    refine ⟨?_, fun h => ⟨e, he, hmatch.2 h⟩⟩
    rintro ⟨e', he', h⟩
    obtain rfl : e = e' := Option.some.inj (he.symm.trans he')
    exact hmatch.1 h

/-- The two searches agree, or one adds to the other, exactly where the query is bridged. -/
theorem bridged_of_same (hlimit : idx.rows.length ≤ limit) (hnil : semanticTerms U raw infer = [])
    (h : searchFtsSemantic U sql idx raw infer limit path = searchFts U sql idx raw limit path) :
    Bridged U sql idx raw infer path := by
  by_cases hprecise : Precise U sql idx raw path
  · exact .inl hprecise
  · refine .inr fun row hrow hpass hsome => absurd ?_ hprecise
    have hid : row.id ∈ returned (searchFts U sql idx raw limit path) :=
      (mem_searchFts hlimit hrow).2 ⟨hpass, .inr ⟨hprecise, hsome⟩⟩
    rw [← h, searchFtsSemantic_of_nil hnil, mem_preciseSearch hlimit hrow] at hid
    exact ⟨row, hrow, hpass, hid.1⟩

theorem bridged_of_superset (hlimit : idx.rows.length ≤ limit)
    (h : returned (searchFts U sql idx raw limit path) ⊆
      returned (searchFtsSemantic U sql idx raw infer limit path)) : Bridged U sql idx raw infer path := by
  by_cases hprecise : Precise U sql idx raw path
  · exact .inl hprecise
  · refine .inr fun row hrow hpass hsome => ?_
    have hid := h ((mem_searchFts hlimit hrow).2 ⟨hpass, .inr ⟨hprecise, hsome⟩⟩)
    rw [mem_searchFtsSemantic hlimit hrow] at hid
    exact hid.2.resolve_left fun hall => hprecise ⟨row, hrow, hpass, hall⟩

theorem same_of_bridged (hlimit : idx.rows.length ≤ limit) (h : Bridged U sql idx raw infer path)
    (hnil : semanticTerms U raw infer = []) :
    searchFtsSemantic U sql idx raw infer limit path = searchFts U sql idx raw limit path := by
  rw [searchFtsSemantic_of_nil hnil]
  by_cases hprecise : Precise U sql idx raw path
  · exact (searchFts_of_precise hlimit hprecise).symm
  · have hnone : ∀ row ∈ idx.rows, row.id ∉
        returned (rankedSearch sql idx (buildRelaxedFtsMatch U raw) limit (compilePathFilter path)) := by
      intro row hrow hid
      obtain ⟨hsome, hpass⟩ := (mem_relaxedSearch hlimit hrow).1 hid
      obtain ⟨x, hx, -⟩ := h.resolve_left hprecise row hrow hpass hsome
      rw [hnil] at hx
      exact absurd hx List.not_mem_nil
    rw [searchFts_of_not_precise hlimit hprecise, rankedSearch_eq_nil (buildRelaxedFtsMatch_read U raw) hnone]
    exact not_not.1 fun hne => hprecise ((preciseSearch_ne_nil_iff hlimit).1 hne)

theorem superset_of_bridged (hlimit : idx.rows.length ≤ limit) (h : Bridged U sql idx raw infer path) :
    returned (searchFts U sql idx raw limit path) ⊆ returned (searchFtsSemantic U sql idx raw infer limit path) := by
  intro id hid
  have hread : ∃ row ∈ idx.rows, row.id = id := by
    by_cases hprecise : Precise U sql idx raw path
    · rw [searchFts_of_precise hlimit hprecise] at hid
      exact returned_subset_rows (buildFtsMatch_read U raw) hid
    · rw [searchFts_of_not_precise hlimit hprecise] at hid
      exact returned_subset_rows (buildRelaxedFtsMatch_read U raw) hid
  obtain ⟨row, hrow, rfl⟩ := hread
  obtain ⟨hpass, hcovers⟩ := (mem_searchFts hlimit hrow).1 hid
  refine (mem_searchFtsSemantic hlimit hrow).2 ⟨hpass, ?_⟩
  rcases hcovers with hall | ⟨hprecise, hsome⟩
  · exact .inl hall
  · exact .inr (h.resolve_left hprecise row hrow hpass hsome)

/-- A row that holds a word holds its lower case, where folding makes no difference of the two. -/
theorem covers_of_holds (hfold : ∀ s, sql.fold (U.toLowerCase s) = sql.fold s) {row : FtsRow} {t : List Char}
    (hne : t ≠ []) (h : phraseMatches sql row t = true) : covers U sql row t = true := by
  refine List.any_eq_true.2 ⟨U.toLowerCase t, lower_mem_expandTerm hne, ?_⟩
  rw [phraseMatches, hfold]
  exact h

/-- A path without characters beyond U+FFFF is compared as a whole. -/
theorem passes_of_inScope (hpath : ∀ p ∈ path, utf16Length (normalizedPath p) = (normalizedPath p).length)
    {row : FtsRow} (h : InScope idx path row) : passes idx (compilePathFilter path) row = true := by
  refine (Option.all_eq_true _ _).2 fun nodes hnodes => ?_
  rcases path with _ | p
  · rfl
  · rw [compilePathFilter, Option.bind_some]
    dsimp only
    split
    · rfl
    · next hne =>
      obtain ⟨n, hn, hid, hbegins⟩ := (h p rfl nodes hnodes).resolve_left hne
      refine List.any_eq_true.2 ⟨n, hn, ?_⟩
      rw [hpath p rfl, ← List.prefix_iff_eq_take.1 hbegins]
      simp [hid]

/-- Only folding that tells a word from its lower case, and a path with characters beyond
U+FFFF, leave rows uncovered. -/
theorem covered_of_fold (hfold : ∀ s, sql.fold (U.toLowerCase s) = sql.fold s)
    (hpath : ∀ p ∈ path, utf16Length (normalizedPath p) = (normalizedPath p).length) :
    Covered U sql idx raw path := by
  intro row _ hscope hholds
  refine ⟨passes_of_inScope hpath hscope, .inl ⟨fun h => hholds.1 (originalTerms_eq_nil_iff.1 h), fun t ht => ?_⟩⟩
  exact covers_of_holds hfold (originalTerms_spec ht).1 (hholds.2 t (originalTerms_subset raw ht))

/-- Searches only add rows exactly if the rows that hold every word of the query are covered and
the relaxed rows are bridged. -/
theorem onlyAdds_iff (U : UnicodeTables) (sql : Sqlite) (idx : FtsIndex) (raw : List Char)
    (infer : Option (List Char → InferResult)) (limit : Nat) (path : Option (List Char))
    (hlimit : idx.rows.length ≤ limit) :
    OnlyAdds U sql idx raw infer limit path ↔ Covered U sql idx raw path ∧ Bridged U sql idx raw infer path := by
  constructor
  · intro h
    refine ⟨fun row hrow hscope hholds => ?_, ?_⟩
    · exact (mem_searchFts hlimit hrow).1 (h.kept row hrow hscope (escaped_iff.2 hholds))
    · by_cases hnil : semanticTerms U raw infer = []
      · exact bridged_of_same hlimit hnil (h.same hnil)
      · exact bridged_of_superset hlimit (h.superset hnil)
  · rintro ⟨hcovered, hbridged⟩
    refine ⟨fun row hrow hscope hmatch => ?_, same_of_bridged hlimit hbridged,
      fun _ => superset_of_bridged hlimit hbridged, all_accepted U raw infer⟩
    exact (mem_searchFts hlimit hrow).2 (hcovered row hrow hscope (escaped_iff.1 hmatch))

end Promise

/-! ## A question and an identifier -/

def asciiClass (c : Char) : CharClass :=
  if c.isUpper then .upper else if c.isLower then .lower else if c.isDigit then .number else .other

def asciiLowerChar (c : Char) : Char := if 65 ≤ c.toNat ∧ c.toNat ≤ 90 then Char.ofNat (c.toNat + 32) else c

theorem asciiLowerChar_toNat (c : Char) :
    (asciiLowerChar c).toNat = if 65 ≤ c.toNat ∧ c.toNat ≤ 90 then c.toNat + 32 else c.toNat := by
  unfold asciiLowerChar
  split
  · exact char_toNat_ofNat (.inl (by omega))
  · rfl

theorem asciiLowerChar_ne_quote {c : Char} (h : c ≠ '"') : asciiLowerChar c ≠ '"' := by
  intro hc
  have hval := asciiLowerChar_toNat c
  rw [hc] at hval
  have hquote : ('"' : Char).toNat = 34 := rfl
  split at hval
  · omega
  · exact h (Char.toNat_inj.1 hval.symm)

theorem asciiLowerChar_lower (c : Char) : asciiLowerChar (asciiLowerChar c) = asciiLowerChar c := by
  have hval := asciiLowerChar_toNat c
  rw [asciiLowerChar, if_neg]
  split at hval <;> omega

/-- Tables that know ASCII only. -/
def asciiTables : UnicodeTables where
  charClass := asciiClass
  toLowerCase s := s.map asciiLowerChar
  quote_other := rfl
  lower_quoteless s hs := by
    intro h
    obtain ⟨c, hc, hlower⟩ := List.mem_map.1 h
    exact asciiLowerChar_ne_quote (fun hq => hs (hq ▸ hc)) hlower

def asciiSqlite : Sqlite where
  fold s := s.map asciiLowerChar
  bm25 _ _ _ := -1
  lnOnePlus _ := 0
  isScaffold _ := false
  rejectsRanking := false

/-- One entity, `convergePeers`. -/
def peersIndex : FtsIndex where
  rows := [⟨"sync/convergePeers".toList, "convergePeers".toList, "sync.convergePeers".toList, [], "sync.ts".toList⟩]
  rows_nodup := List.nodup_singleton _
  nodes := some [⟨"sync/convergePeers".toList, "sync.ts".toList⟩]
  edges := some []

theorem identifier_precise : Precise asciiTables asciiSqlite peersIndex "convergePeers".toList none := by
  refine ⟨_, List.mem_cons_self, rfl, ?_⟩
  unfold CoversAll
  decide +kernel

/-- An identifier is found the same way with and without a model. -/
theorem identifier_onlyAdds : OnlyAdds asciiTables asciiSqlite peersIndex "convergePeers".toList none 20 none :=
  (onlyAdds_iff asciiTables asciiSqlite peersIndex _ none 20 none (by decide)).2
    ⟨covered_of_fold (fun s => by simp [asciiTables, asciiSqlite, asciiLowerChar_lower]) (by simp), .inl identifier_precise⟩

/-- A question that the relaxed search answers finds nothing in the semantic one, with no model at hand. -/
theorem question_not_onlyAdds :
    peersIndex.rows.length ≤ 20 ∧
      ¬ OnlyAdds asciiTables asciiSqlite peersIndex "how do peers".toList none 20 none := by
  refine ⟨by decide, fun h => ?_⟩
  have hsame := h.same rfl
  have hsemantic : searchFtsSemantic asciiTables asciiSqlite peersIndex "how do peers".toList none 20 none = [] := by
    decide +kernel
  have hplain : searchFts asciiTables asciiSqlite peersIndex "how do peers".toList 20 none ≠ [] := by
    decide +kernel
  exact hplain (hsame.symm.trans hsemantic)

end Hayven.Db.Search
