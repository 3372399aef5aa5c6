import Hayven.Util.TestFiles
/-!
# The two mechanisms agree

`GlobMatches` says what a glob means. The regular expression and the LIKE pattern that are
made of a glob both take the paths that it matches, so the TypeScript predicates are the
truth of the SQL fragments: `mechanisms_agree`.
-/
open Hayven.Lib

namespace Hayven.Util.Scaffold

variable {g text rest : JsString} {c u : UInt16} (upper : UpperCase)

/-! ## What a glob means -/

def star : UInt16 := 0x2A

/-- A star is any run, everything else is itself up to the case of the ASCII alphabet. -/
inductive GlobMatches : JsString → JsString → Prop where
  | nil : GlobMatches [] []
  | star {g rest : JsString} (run : JsString) (h : GlobMatches g rest) : GlobMatches (star :: g) (run ++ rest)
  | unit {g rest : JsString} {c u : UInt16} (hc : c ≠ star) (hcase : foldAscii c = foldAscii u)
      (h : GlobMatches g rest) : GlobMatches (c :: g) (u :: rest)

theorem globMatches_nil_iff : GlobMatches [] text ↔ text = [] := by
  constructor
  · intro h
    cases h
    rfl
  · rintro rfl
    exact .nil

theorem globMatches_star_iff : GlobMatches (star :: g) text ↔ ∃ tail, tail <:+ text ∧ GlobMatches g tail := by
  constructor
  · intro h
    cases h with
    | star run h => exact ⟨_, List.suffix_append run _, h⟩
    | unit hc _ _ => exact absurd rfl hc
  · rintro ⟨tail, ⟨run, rfl⟩, h⟩
    exact .star run h

theorem globMatches_unit_iff (hc : c ≠ star) :
    GlobMatches (c :: g) (u :: rest) ↔ foldAscii c = foldAscii u ∧ GlobMatches g rest := by
  constructor
  · intro h
    generalize htext : u :: rest = text at h
    cases h with
    | star run h => exact absurd rfl hc
    | unit _ hcase h =>
      obtain ⟨rfl, rfl⟩ := List.cons.inj htext
      exact ⟨hcase, h⟩
  · rintro ⟨hcase, h⟩
    exact .unit hc hcase h

theorem not_globMatches_unit_nil (hc : c ≠ star) : ¬ GlobMatches (c :: g) [] := by
  intro h
  generalize htext : ([] : JsString) = text at h
  cases h with
  | star run h => exact hc rfl
  | unit _ _ _ => cases htext

/-! ## LIKE -/

theorem likePattern_star (g : JsString) : likePattern (star :: g) = 0x25 :: likePattern g := rfl

theorem likePattern_special (hu : u ≠ star) (hspecial : u = LIKE_ESCAPE ∨ u = 0x25 ∨ u = 0x5F) (g : JsString) :
    likePattern (u :: g) = LIKE_ESCAPE :: u :: likePattern g := by
  have hstar : u ≠ 0x2A := hu
  rw [likePattern, List.flatMap_cons, if_neg hstar, if_pos hspecial]
  rfl

theorem likePattern_plain (hu : u ≠ star) (hspecial : ¬(u = LIKE_ESCAPE ∨ u = 0x25 ∨ u = 0x5F)) (g : JsString) :
    likePattern (u :: g) = u :: likePattern g := by
  have hstar : u ≠ 0x2A := hu
  rw [likePattern, List.flatMap_cons, if_neg hstar, if_neg hspecial]
  rfl

def likeToken (u : UInt16) : LikeToken := if u = star then .anyRun else .unit u

theorem likeTokens_likePattern (g : JsString) : likeTokens LIKE_ESCAPE (likePattern g) = some (g.map likeToken) := by
  induction g with
  | nil => rfl
  | cons u g ih =>
    rw [List.map_cons, likeToken]
    by_cases hstar : u = star
    · rw [if_pos hstar, hstar, likePattern_star, likeTokens_anyRun (by decide), ih]
      rfl
    · rw [if_neg hstar]
      by_cases hspecial : u = LIKE_ESCAPE ∨ u = 0x25 ∨ u = 0x5F
      · rw [likePattern_special hstar hspecial, likeTokens_escaped, ih]
        rfl
      · rw [likePattern_plain hstar hspecial, likeTokens_plain hspecial, ih]
        rfl

theorem likeMatch_iff (g text : JsString) : likeMatch (g.map likeToken) text = true ↔ GlobMatches g text := by
  induction g generalizing text with
  | nil => rw [globMatches_nil_iff, List.map_nil, likeMatch, List.isEmpty_iff]
  | cons c g ih =>
    by_cases hstar : c = star
    · subst hstar
      rw [globMatches_star_iff, List.map_cons, likeToken, if_pos rfl, likeMatch, List.any_eq_true]
      simp only [List.mem_tails, ih]
    · rw [List.map_cons, likeToken, if_neg hstar]
      cases text with
      | nil =>
        rw [likeMatch]
        exact iff_of_false Bool.false_ne_true (not_globMatches_unit_nil hstar)
      | cons u rest => rw [globMatches_unit_iff hstar, likeMatch, Bool.and_eq_true, beq_iff_eq, ih]

instance (g text : JsString) : Decidable (GlobMatches g text) := decidable_of_iff _ (likeMatch_iff g text)

theorem like_likePattern (g text : JsString) :
    like LIKE_ESCAPE (likePattern g) text = decide (GlobMatches g text) := by
  rw [like, likeTokens_likePattern, Option.any_some, Bool.eq_iff_iff, likeMatch_iff, decide_eq_true_iff]

/-! ## The regular expression -/

/-- What a character of the glob becomes. -/
def regExpPiece (u : UInt16) : JsString := if u = star then ascii "[\\s\\S]*" else escapeRegExp u

def regExpTerm (u : UInt16) : RegExpTerm := if u = star then ⟨.any, true⟩ else ⟨.unit u, false⟩

theorem regExpBody_likePattern (g : JsString) : regExpBody (likePattern g) = some (g.flatMap regExpPiece) := by
  induction g with
  | nil => rfl
  | cons u g ih =>
    rw [List.flatMap_cons, regExpPiece]
    by_cases hstar : u = star
    · rw [if_pos hstar, hstar, likePattern_star, regExpBody.eq_def]
      dsimp only
      rw [if_neg (by decide), if_pos rfl, ih]
      rfl
    · rw [if_neg hstar]
      by_cases hspecial : u = LIKE_ESCAPE ∨ u = 0x25 ∨ u = 0x5F
      · rw [likePattern_special hstar hspecial, regExpBody, if_pos rfl, ih]
        rfl
      · rw [likePattern_plain hstar hspecial, regExpBody.eq_def]
        rw [not_or, not_or] at hspecial
        dsimp only
        rw [if_neg hspecial.1, if_neg hspecial.2.1, if_neg hspecial.2.2, ih]
        rfl

/-- The class lists the syntax characters in another order. -/
theorem escapeRegExp_eq (u : UInt16) : escapeRegExp u = if isSyntaxUnit u then [0x5C, u] else [u] := by
  have hperm : ([0x2E, 0x2A, 0x2B, 0x3F, 0x5E, 0x24, 0x7B, 0x7D, 0x28, 0x29, 0x7C, 0x5B, 0x5D, 0x5C] : JsString).Perm
      [0x5E, 0x24, 0x5C, 0x2E, 0x2A, 0x2B, 0x3F, 0x28, 0x29, 0x5B, 0x5D, 0x7B, 0x7D, 0x7C] := by decide
  have hset := Bool.eq_iff_iff.2 ((List.contains_iff_mem.trans (hperm.mem_iff (a := u))).trans List.contains_iff_mem.symm)
  rw [escapeRegExp, hset]
  rfl

theorem readAtom_escapeRegExp (u : UInt16) (rest : JsString) :
    readAtom (escapeRegExp u ++ rest) = some (.unit u, rest) := by
  rw [escapeRegExp_eq]
  by_cases hsyntax : isSyntaxUnit u = true
  · rw [if_pos hsyntax, List.cons_append, List.singleton_append, readAtom, if_pos rfl, if_pos hsyntax]
  · have hne : ∀ v, isSyntaxUnit v = true → u ≠ v := fun v hv huv => hsyntax (huv ▸ hv)
    rw [if_neg hsyntax, List.singleton_append, readAtom.eq_def]
    dsimp only
    rw [if_neg (hne _ (by decide)), if_neg (hne _ (by decide)), if_neg hsyntax]

/-- The first unit of a piece ends no expression and stars nothing. -/
theorem head?_regExpPiece (u : UInt16) (s : JsString) :
    (regExpPiece u ++ s).head? ≠ some 0x24 ∧ (regExpPiece u ++ s).head? ≠ some star := by
  by_cases hstar : u = star
  · rw [regExpPiece, if_pos hstar]
    exact ⟨fun h => absurd (Option.some.inj h) (by decide), fun h => absurd (Option.some.inj h) (by decide)⟩
  · rw [regExpPiece, if_neg hstar, escapeRegExp_eq]
    by_cases hsyntax : isSyntaxUnit u = true
    · rw [if_pos hsyntax]
      exact ⟨fun h => absurd (Option.some.inj h) (by decide), fun h => absurd (Option.some.inj h) (by decide)⟩
    · rw [if_neg hsyntax]
      exact ⟨fun h => hsyntax ((Option.some.inj h : u = _) ▸ rfl), fun h => hstar (Option.some.inj h)⟩

theorem head?_pieces (g : JsString) : (g.flatMap regExpPiece ++ [0x24]).head? ≠ some star := by
  cases g with
  | nil => decide
  | cons u g =>
    rw [List.flatMap_cons, List.append_assoc]
    exact (head?_regExpPiece u _).2

theorem readTerms_pieces {n : Nat} (hn : g.length < n) :
    readTerms n (g.flatMap regExpPiece ++ [0x24]) = some (g.map regExpTerm) := by
  induction g generalizing n with
  | nil =>
    obtain ⟨n, rfl⟩ := Nat.exists_eq_add_of_lt hn
    rfl
  | cons u g ih =>
    rcases n with _ | n
    · exact absurd hn (Nat.not_lt_zero _)
    · have hrest := ih (Nat.lt_of_succ_lt_succ hn)
      have hend : regExpPiece u ++ (g.flatMap regExpPiece ++ [0x24]) ≠ [0x24] := fun h =>
        (head?_regExpPiece u _).1 (by rw [h]; rfl)
      rw [List.flatMap_cons, List.append_assoc, List.map_cons, regExpTerm]
      by_cases hstar : u = star
      · have hatom : readAtom (regExpPiece u ++ (g.flatMap regExpPiece ++ [0x24])) =
            some (.any, star :: (g.flatMap regExpPiece ++ [0x24])) := by
          rw [regExpPiece, if_pos hstar]
          rfl
        rw [readTerms_starred hend hatom, hrest, if_pos hstar, Option.map_some]
      · have hatom : readAtom (regExpPiece u ++ (g.flatMap regExpPiece ++ [0x24])) =
            some (.unit u, g.flatMap regExpPiece ++ [0x24]) := by
          rw [regExpPiece, if_neg hstar, readAtom_escapeRegExp]
        rw [readTerms_single hend hatom (head?_pieces g), hrest, if_neg hstar, Option.map_some]

theorem length_le_pieces (g : JsString) : g.length ≤ (g.flatMap regExpPiece).length := by
  induction g with
  | nil => exact Nat.le_refl _
  | cons u g ih =>
    have hpos : 0 < (regExpPiece u).length := by
      apply List.length_pos_of_ne_nil
      unfold regExpPiece escapeRegExp
      split_ifs <;> simp [ascii]
    rw [List.flatMap_cons, List.length_append, List.length_cons]
    omega

theorem readRegExp_likePattern (g : JsString) :
    ∃ source, likeToRegExp (likePattern g) = some source ∧ readRegExp source = some (g.map regExpTerm) := by
  refine ⟨0x5E :: (g.flatMap regExpPiece ++ [0x24]), ?_, ?_⟩
  · rw [likeToRegExp, regExpBody_likePattern, Option.map_some]
  · rw [readRegExp, if_pos rfl]
    apply readTerms_pieces
    have hle := length_le_pieces g
    rw [List.length_append, List.length_singleton]
    omega

theorem regExpAccepts_iff (hg : ∀ u ∈ g, u < 0x80) (text : JsString) :
    regExpAccepts upper (g.map regExpTerm) text = true ↔ GlobMatches g text := by
  induction g generalizing text with
  | nil => rw [globMatches_nil_iff, List.map_nil, regExpAccepts, List.isEmpty_iff]
  | cons c g ih =>
    have ih := ih fun v hv => hg v (List.mem_cons_of_mem _ hv)
    by_cases hstar : c = star
    · subst hstar
      rw [globMatches_star_iff, List.map_cons, regExpTerm, if_pos rfl, regExpAccepts_anyRun, List.any_eq_true]
      simp only [List.mem_tails, ih]
    · rw [List.map_cons, regExpTerm, if_neg hstar]
      cases text with
      | nil => exact iff_of_false Bool.false_ne_true (not_globMatches_unit_nil hstar)
      | cons u rest =>
        rw [globMatches_unit_iff hstar, regExpAccepts_unit, Bool.and_eq_true, beq_iff_eq,
          canonicalize_eq_iff upper (hg c List.mem_cons_self), ih]

/-- The expression made of an ASCII glob takes what the glob matches. -/
theorem regExpTest_likePattern (hg : ∀ u ∈ g, u < 0x80) (text : JsString) :
    (likeToRegExp (likePattern g)).bind (regExpTest upper · text) = some (decide (GlobMatches g text)) := by
  obtain ⟨source, hsource, hterms⟩ := readRegExp_likePattern g
  rw [hsource, Option.bind_some, regExpTest, hterms, Option.map_some, Option.some_inj, Bool.eq_iff_iff,
    regExpAccepts_iff upper hg, decide_eq_true_iff]

/-! ## The predicates -/

section Predicates
variable {globs : List JsString}

theorem mapM_likeToRegExp (globs : List JsString) :
    ∃ res, (globs.map likePattern).mapM likeToRegExp = some res ∧
      ((∀ g ∈ globs, ∀ u ∈ g, u < 0x80) → ∀ path,
        (res.any fun re => regExpTest upper re path == some true) =
          globs.any fun g => decide (GlobMatches g path)) := by
  induction globs with
  | nil => exact ⟨[], rfl, fun _ _ => rfl⟩
  | cons g globs ih =>
    obtain ⟨res, hres, hagree⟩ := ih
    obtain ⟨source, hsource, -⟩ := readRegExp_likePattern g
    refine ⟨source :: res, ?_, ?_⟩
    · rw [List.map_cons, List.mapM_cons, hsource, hres]
      rfl
    · intro hascii path
      have htest := regExpTest_likePattern upper (hascii g List.mem_cons_self) path
      rw [hsource, Option.bind_some] at htest
      rw [List.any_cons, List.any_cons, htest, hagree fun h hh => hascii h (List.mem_cons_of_mem _ hh)]
      cases decide (GlobMatches g path) <;> rfl

/-- Globs that match nothing empty need no check for the empty path. -/
theorem someTest_eq (hascii : ∀ g ∈ globs, ∀ u ∈ g, u < 0x80) (hempty : ∀ g ∈ globs, ¬ GlobMatches g [])
    (file : Option JsString) :
    (((globs.map likePattern).mapM likeToRegExp).map fun res => someTest upper res file) =
      some (file.any fun path => globs.any fun g => decide (GlobMatches g path)) := by
  obtain ⟨res, hres, hagree⟩ := mapM_likeToRegExp upper globs
  rw [hres, Option.map_some, someTest]
  congr 2
  funext path
  rw [hagree hascii path]
  cases path with
  | nil =>
    have hnone : (globs.any fun g => decide (GlobMatches g [])) = false := by
      rw [List.any_eq_false]
      intro g hg
      simpa using hempty g hg
    rw [hnone]
    rfl
  | cons u path => rfl

end Predicates

/-! ## The fragments -/

section Fragments
variable {globs patterns : List JsString} {column indent : JsString}

theorem isWordUnit_of_isSqlName {name : JsString} (h : isSqlName name = true) :
    name ≠ [] ∧ ∀ u ∈ name, Sql.isWordUnit u = true := by
  have hstart : ∀ u, isNameStart u = true → Sql.isWordUnit u = true := by
    intro u hu
    unfold isNameStart at hu
    unfold Sql.isWordUnit
    simp only [Bool.or_eq_true] at hu ⊢
    tauto
  cases name with
  | nil => cases h
  | cons u rest =>
    rw [isSqlName, Bool.and_eq_true, List.all_eq_true] at h
    refine ⟨List.cons_ne_nil _ _, ?_⟩
    intro v hv
    rcases List.mem_cons.1 hv with rfl | hv
    · exact hstart v h.1
    · rcases Bool.or_eq_true_iff.1 (h.2 v hv) with hname | hdigit
      · exact hstart v hname
      · simp only [Sql.isWordUnit, hdigit, Bool.true_or]

theorem isWordUnit_of_isColumn (h : isColumn column = true) :
    column ≠ [] ∧ ∀ u ∈ column, Sql.isWordUnit u = true := by
  rcases Bool.or_eq_true_iff.1 h with hname | hpair
  · exact isWordUnit_of_isSqlName hname
  · obtain ⟨hhead, htail⟩ := Bool.and_eq_true_iff.1 hpair
    have hparts : column.takeWhile (· ≠ 0x2E) ++ column.dropWhile (· ≠ 0x2E) = column :=
      List.takeWhile_append_dropWhile
    obtain ⟨hne, hword⟩ := isWordUnit_of_isSqlName hhead
    refine ⟨fun hnil => hne (by rw [hnil]; rfl), ?_⟩
    intro u hu
    rw [← hparts, List.mem_append] at hu
    rcases hu with hu | hu
    · exact hword u hu
    · rcases hdrop : column.dropWhile (· ≠ 0x2E) with _ | ⟨dot, rest⟩
      · rw [hdrop] at hu
        cases hu
      · have hdot : dot = 0x2E := by
          have hhd := List.head?_dropWhile_not (· ≠ 0x2E) column
          rw [hdrop] at hhd
          simpa using hhd
        rw [hdrop, List.mem_cons] at hu
        rcases hu with rfl | hu
        · rw [hdot]
          rfl
        · rw [hdrop] at htail
          exact (isWordUnit_of_isSqlName htail).2 u hu

theorem intercalate_lead (sep lead first : JsString) (texts : List JsString) :
    sep.intercalate (first :: texts.map (lead ++ ·)) = (sep ++ lead).intercalate (first :: texts) := by
  induction texts generalizing first with
  | nil => rfl
  | cons t texts ih =>
    rw [List.map_cons, List.intercalate_cons_cons, List.intercalate_cons_cons, ← ih]
    cases texts with
    | nil => simp
    | cons t' texts => simp [List.intercalate_cons_cons]

def chainTerm (column p : JsString) : Sql.LikeTerm := ⟨column, p, [LIKE_ESCAPE]⟩

theorem likeLine_eq (column indent : JsString) (i : Nat) (p : JsString) :
    likeLine column indent i p = (if i = 0 then [] else indent ++ ascii "   OR ") ++ (chainTerm column p).text := by
  have hlike : ascii " LIKE '" = ascii " LIKE " ++ [Sql.quote] := by decide
  have hescape : ascii "' ESCAPE '" = Sql.quote :: (ascii " ESCAPE " ++ [Sql.quote]) := by decide
  have hquote : ascii "'" = [Sql.quote] := rfl
  simp only [likeLine, Sql.LikeTerm.text, chainTerm, hlike, hescape, hquote, List.append_assoc, List.cons_append,
    List.nil_append]

/-- A chain that does not throw is a disjunction. -/
theorem likeChain_eq (hcolumn : isColumn column = true) (hquote : ∀ p ∈ patterns, Sql.quote ∉ p) :
    likeChain column patterns indent = some (Sql.disjunctionText indent (patterns.map (chainTerm column))) := by
  have hsafe : (patterns.any fun p => p.contains 0x27) = false := by
    rw [List.any_eq_false]
    intro p hp
    exact fun hmem => hquote p hp (List.contains_iff_mem.1 hmem)
  have hchain : List.intercalate [0x0A] (patterns.mapIdx (likeLine column indent)) =
      (Sql.orText indent).intercalate ((patterns.map (chainTerm column)).map Sql.LikeTerm.text) := by
    cases patterns with
    | nil => rfl
    | cons p patterns =>
      have hrest : patterns.mapIdx (fun i => likeLine column indent (i + 1)) =
          ((patterns.map (chainTerm column)).map Sql.LikeTerm.text).map (indent ++ ascii "   OR " ++ ·) := by
        apply List.ext_getElem
        · rw [List.length_mapIdx, List.length_map, List.length_map, List.length_map]
        · intro i _ _
          simp only [List.getElem_mapIdx, List.getElem_map, likeLine_eq, Nat.succ_ne_zero, if_false]
      rw [List.mapIdx_cons, hrest, intercalate_lead, likeLine_eq, if_pos rfl]
      rfl
  rw [likeChain, hcolumn, Bool.not_true, if_neg Bool.false_ne_true, hsafe, if_neg Bool.false_ne_true, hchain]
  rfl

/-- No quote and no NUL comes in as the patterns are escaped. -/
theorem not_mem_likePattern {v : UInt16} (hv : v ≠ 0x25) (hescape : v ≠ LIKE_ESCAPE) {g : JsString} (hg : v ∉ g) :
    v ∉ likePattern g := by
  rw [likePattern, List.mem_flatMap]
  rintro ⟨u, hu, hmem⟩
  have hne : v ≠ u := fun h => hg (h ▸ hu)
  split_ifs at hmem <;> simp [hv, hescape, hne] at hmem

/-- The chain of some globs is true of a path that one of them matches. -/
theorem isTrue_likeChain (hne : globs ≠ []) (hglobs : ∀ g ∈ globs, Sql.quote ∉ g ∧ 0 ∉ g)
    (hcolumn : isColumn column = true) (hindent : ∀ u ∈ indent, Sql.isBlank u = true)
    {env : JsString → Option JsString} (hpath : ∀ path, env column = some path → 0 ∉ path) :
    (likeChain column (globs.map likePattern) indent).bind (Sql.isTrue env) =
      some ((env column).any fun path => globs.any fun g => decide (GlobMatches g path)) := by
  have hquote : ∀ p ∈ globs.map likePattern, Sql.quote ∉ p := by
    intro p hp
    obtain ⟨g, hg, rfl⟩ := List.mem_map.1 hp
    exact not_mem_likePattern (by decide) (by decide) (hglobs g hg).1
  have hplain : ∀ t ∈ (globs.map likePattern).map (chainTerm column), t.Plain := by
    intro t ht
    obtain ⟨p, hp, rfl⟩ := List.mem_map.1 ht
    obtain ⟨hnamed, hword⟩ := isWordUnit_of_isColumn hcolumn
    have hescape : Sql.quote ∉ ([LIKE_ESCAPE] : JsString) := by decide
    exact ⟨hnamed, hword, hquote p hp, hescape⟩
  have hterms : (globs.map likePattern).map (chainTerm column) ≠ [] := by
    simpa using hne
  rw [likeChain_eq hcolumn hquote, Option.bind_some, Sql.isTrue_text hindent hterms hplain, Option.some_inj,
    List.map_map, List.any_map]
  rcases hfile : env column with _ | path
  · rw [Option.any_none, List.any_eq_false]
    intro g hg
    simp [chainTerm, Sql.LikeTerm.holds, hfile]
  · rw [Option.any_some, Bool.eq_iff_iff, List.any_eq_true, List.any_eq_true]
    apply exists_congr
    intro g
    apply and_congr_right
    intro hg
    have hlike : sqlLike LIKE_ESCAPE (likePattern g) path = like LIKE_ESCAPE (likePattern g) path :=
      sqlLike_eq_like (not_mem_likePattern (by decide) (by decide) (hglobs g hg).2) (hpath path hfile)
    simp only [Function.comp_apply, chainTerm, Sql.LikeTerm.holds, hfile, hlike, like_likePattern]

end Fragments

/-! ## Agreement -/

theorem scaffold_ascii : ∀ g ∈ SCAFFOLD_GLOBS, ∀ u ∈ g, u < 0x80 := by
  decide +kernel

theorem scaffold_plain : ∀ g ∈ SCAFFOLD_GLOBS, Sql.quote ∉ g ∧ 0 ∉ g := by
  decide +kernel

theorem scaffold_nonempty : ∀ g ∈ SCAFFOLD_GLOBS, ¬ GlobMatches g [] := by
  decide +kernel

theorem mem_scaffold_of_test {g : JsString} (hg : g ∈ TEST_GLOBS) : g ∈ SCAFFOLD_GLOBS :=
  List.mem_append_left _ (List.mem_append_left _ hg)

theorem isTestFile_eq (file : Option JsString) :
    isTestFile upper file = some (file.any fun path => TEST_GLOBS.any fun g => decide (GlobMatches g path)) :=
  someTest_eq upper (fun _ hg => scaffold_ascii _ (mem_scaffold_of_test hg))
    (fun _ hg => scaffold_nonempty _ (mem_scaffold_of_test hg)) file

theorem isScaffoldFile_eq (file : Option JsString) :
    isScaffoldFile upper file =
      some (file.any fun path => SCAFFOLD_GLOBS.any fun g => decide (GlobMatches g path)) :=
  someTest_eq upper scaffold_ascii scaffold_nonempty file

/-- The parts that the packer's filter reads take the same paths. -/
theorem matchesParts_iff (g text : JsString) :
    matchesParts (g.map fun u => if u = 0x2A then .anyRun else .unit u) text = true ↔ GlobMatches g text := by
  induction g generalizing text with
  | nil => rw [globMatches_nil_iff, List.map_nil, matchesParts, List.isEmpty_iff]
  | cons c g ih =>
    by_cases hstar : c = star
    · subst hstar
      have hrun : star = 0x2A := rfl
      rw [globMatches_star_iff, List.map_cons, if_pos hrun, matchesParts, List.any_eq_true]
      simp only [List.mem_tails, ih]
    · have hne : c ≠ 0x2A := hstar
      rw [List.map_cons, if_neg hne]
      cases text with
      | nil => exact iff_of_false Bool.false_ne_true (not_globMatches_unit_nil hstar)
      | cons u rest =>
        have hcase : (Cli.asciiLower c = Cli.asciiLower u) = (foldAscii c = foldAscii u) := rfl
        rw [globMatches_unit_iff hstar, matchesParts, List.head?_cons, List.tail_cons, Option.any_some,
          Bool.and_eq_true, decide_eq_true_iff, hcase, ih]

theorem isTestFile_eq_parts (file : Option JsString) : isTestFile upper file = some (Util.isTestFile file) := by
  have hre : Util.TEST_RE = TEST_GLOBS.map (List.map fun u => if u = 0x2A then LikePart.anyRun else .unit u) := by
    simp only [Util.TEST_RE, likeToRegExp_likePattern]
    rw [List.filterMap_eq_map']
  have hpath : ∀ path : JsString,
      (!path.isEmpty && Util.TEST_RE.any fun re => matchesParts re path) =
        TEST_GLOBS.any fun g => decide (GlobMatches g path) := by
    intro path
    have hany : (Util.TEST_RE.any fun re => matchesParts re path) =
        TEST_GLOBS.any fun g => decide (GlobMatches g path) := by
      rw [hre, List.any_map]
      apply List.any_congr rfl
      intro g
      rw [Function.comp_apply, Bool.eq_iff_iff, decide_eq_true_iff]
      exact matchesParts_iff g path
    rw [hany]
    cases path with
    | nil =>
      symm
      rw [List.isEmpty_nil, Bool.not_true, Bool.false_and, List.any_eq_false]
      intro g hg
      simpa using scaffold_nonempty g (mem_scaffold_of_test hg)
    | cons u path => rfl
  rw [isTestFile_eq, Util.isTestFile]
  simp only [hpath]

/-- The expression and the LIKE of every ASCII glob take the paths that the glob matches, and
the predicates are the truth of their fragments. -/
theorem mechanisms_agree :
    (∀ g : JsString, (∀ u ∈ g, u < 0x80) → Sql.quote ∉ g → ∀ path : JsString, 0 ∉ path →
      (likeToRegExp (likePattern g)).bind (regExpTest upper · path) = some (decide (GlobMatches g path)) ∧
        like LIKE_ESCAPE (likePattern g) path = decide (GlobMatches g path)) ∧
    ∀ column indent : JsString, isColumn column = true → (∀ u ∈ indent, Sql.isBlank u = true) →
      ∀ env : JsString → Option JsString, (∀ path, env column = some path → 0 ∉ path) →
        (∃ b, isTestFile upper (env column) = some b ∧
          (testFileSqlPredicate column indent).bind (Sql.isTrue env) = some b) ∧
        ∃ b, isScaffoldFile upper (env column) = some b ∧
          (scaffoldFileSqlPredicate column indent).bind (Sql.isTrue env) = some b := by
  refine ⟨?_, ?_⟩
  · intro g hascii _ path _
    exact ⟨regExpTest_likePattern upper hascii path, like_likePattern g path⟩
  · intro column indent hcolumn hindent env hpath
    refine ⟨⟨_, isTestFile_eq upper _, ?_⟩, ⟨_, isScaffoldFile_eq upper _, ?_⟩⟩
    · apply isTrue_likeChain (List.cons_ne_nil _ _) _ hcolumn hindent hpath
      exact fun g hg => scaffold_plain g (mem_scaffold_of_test hg)
    · exact isTrue_likeChain (List.cons_ne_nil _ _) scaffold_plain hcolumn hindent hpath

def asciiUpper : UpperCase where
  toUpperCase u := [upperAscii u]
  ascii _ _ := rfl

/-- The row of a path, under the name that the search query gives its column. -/
def pathRow (path : JsString) : JsString → Option JsString := fun column =>
  if column = ascii "n.file" then some path else none

theorem mechanisms_agree_kelvin :
    ((likeToRegExp (likePattern (ascii "*_k.t%"))).bind (regExpTest asciiUpper · (ascii "SRC/\nx_K.T%")) = some true ∧
      (likeToRegExp (likePattern (ascii "*_k"))).bind
        (regExpTest asciiUpper · (ascii "x_" ++ [0x212A])) = some false ∧
      like LIKE_ESCAPE (likePattern (ascii "*_k")) (ascii "x_" ++ [0x212A]) = false) ∧
    (scaffoldFileSqlPredicate (ascii "n.file") (ascii "  ")).bind
        (Sql.isTrue (pathRow (ascii "a/__mocks__/\n" ++ [0xD83D, 0xDE00]))) =
      isScaffoldFile asciiUpper (some (ascii "a/__mocks__/\n" ++ [0xD83D, 0xDE00])) := by
  obtain ⟨hglobs, hfragments⟩ := mechanisms_agree asciiUpper
  have hkelvin := hglobs (ascii "*_k") (by decide) (by decide) (ascii "x_" ++ [0x212A]) (by decide)
  have hrow : pathRow (ascii "a/__mocks__/\n" ++ [0xD83D, 0xDE00]) (ascii "n.file") =
      some (ascii "a/__mocks__/\n" ++ [0xD83D, 0xDE00]) := by decide
  obtain ⟨-, b, hb, htrue⟩ := hfragments (ascii "n.file") (ascii "  ") (by decide) (by decide)
    (pathRow (ascii "a/__mocks__/\n" ++ [0xD83D, 0xDE00])) (by rw [hrow]; rintro _ ⟨rfl⟩; decide)
  refine ⟨⟨?_, hkelvin.1, hkelvin.2⟩, ?_⟩
  · exact (hglobs (ascii "*_k.t%") (by decide) (by decide) (ascii "SRC/\nx_K.T%") (by decide)).1
  · rw [htrue, ← hb, hrow]

end Hayven.Util.Scaffold
