import Hayven.Db.QueryExpansion
import Hayven.Lib.FtsQuery
import Hayven.Lib.Ordering
import Mathlib.Data.List.Infix
import Mathlib.Data.Rat.Defs
import Mathlib.Algebra.Order.Ring.Unbundled.Rat
/-!
# Full-text search

`db/fts.ts`: the `MATCH` texts a query is searched by, the ranked search behind both entry
points, and the two entry points, `searchFts` and `searchFtsSemantic`. What SQLite computes
beyond the choice and the order of the rows is a parameter, `Sqlite`.
-/
open Hayven.Lib Hayven.Lib.FtsQuery

namespace Hayven.Db.Search

attribute [local instance] lawful_chars

/-! ## The index -/

structure FtsRow where
  id : List Char
  name : List Char
  qualifiedName : List Char
  summary : List Char
  /-- Empty where the table has no such column. -/
  path : List Char
  deriving DecidableEq, Repr

structure FtsNode where
  id : List Char
  file : List Char
  deriving DecidableEq, Repr

/-- `nodes_fts` mirrors the table `nodes`, whose key is `id`; `none` is a table that is not there. -/
structure FtsIndex where
  rows : List FtsRow
  rows_nodup : (rows.map FtsRow.id).Nodup
  nodes : Option (List FtsNode)
  edges : Option (List (List Char × List Char))

structure Sqlite where
  /-- The case folding of the trigram tokenizer. -/
  fold : List Char → List Char
  bm25 : FtsIndex → Expr → FtsRow → Rat
  /-- `ln(1 + n)` -/
  lnOnePlus : Nat → Rat
  /-- `SCAFFOLD_SQL` -/
  isScaffold : List Char → Bool
  /-- The ranking query is rejected, as by a build without `ln`. -/
  rejectsRanking : Bool

/-- A quoted phrase against a row: a substring of an indexed column, of one trigram at least. -/
def phraseMatches (sql : Sqlite) (row : FtsRow) (p : List Char) : Bool :=
  3 ≤ (sql.fold p).length &&
    [row.name, row.qualifiedName, row.summary, row.path].any fun column => sql.fold p <:+: sql.fold column

/-- A row against an expression. -/
def exprMatches (sql : Sqlite) (e : Expr) (row : FtsRow) : Bool := e.eval (phraseMatches sql row)

/-! ## MATCH texts -/

def MAX_QUERY_TERMS : Nat := 32

def sanitizeTerms (U : UnicodeTables) (raw : List Char) : List (List Char) :=
  ((splitSpaces raw).map fun t => t.filter U.isWord).filter (· ≠ [])

def escapeFtsQuery (U : UnicodeTables) (raw : List Char) : List Char :=
  [' '].intercalate ((sanitizeTerms U raw).map quoted)

/-- One turn of the loop over the terms: the keys seen, the terms kept, and whether it goes on. -/
def originalTermsFrom (U : UnicodeTables) (seen kept : List (List Char)) : List (List Char) → List (List Char)
  | [] => kept
  | t :: ts =>
    if U.toLowerCase t ∈ seen then originalTermsFrom U seen kept ts
    else if MAX_QUERY_TERMS ≤ (kept ++ [t]).length then kept ++ [t]
    else originalTermsFrom U (U.toLowerCase t :: seen) (kept ++ [t]) ts

def originalTerms (U : UnicodeTables) (raw : List Char) : List (List Char) :=
  originalTermsFrom U [] [] (sanitizeTerms U raw)

/-- A group of expansions: bare if it has one member. -/
def groupText (group : List (List Char)) : List Char :=
  if group.length = 1 then orText.intercalate (group.map quoted)
  else '(' :: (orText.intercalate (group.map quoted) ++ [')'])

def assembleMatch (groups : List (List (List Char))) : List Char :=
  andText.intercalate ((groups.filter (· ≠ [])).map groupText)

def assembleMatchOr (groups : List (List (List Char))) : List Char :=
  orText.intercalate ((groups.filter (· ≠ [])).map groupText)

def buildFtsMatch (U : UnicodeTables) (raw : List Char) : List Char :=
  assembleMatch (expandQuery U (originalTerms U raw))

def buildRelaxedFtsMatch (U : UnicodeTables) (raw : List Char) : List Char :=
  assembleMatchOr (expandQuery U (dropStopwords U (originalTerms U raw)))

/-! ## The path filter -/

/-- The bound is counted in UTF-16 units. -/
structure PathFilter where
  literal : List Char
  len : Nat
  deriving DecidableEq, Repr

/-- What is left of a path option: trimmed, without one trailing slash. -/
def normalizedPath (path : List Char) : List Char :=
  let trimmed := trimChars path
  if trimmed.getLast? = some '/' then trimmed.dropLast else trimmed

def compilePathFilter (path : Option (List Char)) : Option PathFilter :=
  path.bind fun path =>
    let literal := normalizedPath path
    if literal = [] then none else some ⟨literal, utf16Length literal⟩

/-- `EXISTS (SELECT 1 FROM nodes n WHERE n.id = f.id AND substr(n.file, 1, ?) = ?)` -/
def pathPredicate (nodes : List FtsNode) (filter : Option PathFilter) (row : FtsRow) : Bool :=
  match filter with
  | none => true
  | some filter => nodes.any fun n => n.id = row.id && n.file.take filter.len = filter.literal

/-! ## Ranking -/

def DEGREE_BOOST_ALPHA : Rat := 3 / 10

def SCAFFOLD_PENALTY_TAU : Rat := 1

def RERANK_POOL_FACTOR : Nat := 4

def RERANK_MIN_POOL : Nat := 50

structure SearchHit where
  id : List Char
  name : List Char
  qualifiedName : List Char
  summary : List Char
  rank : Rat
  deriving DecidableEq, Repr

/-- A candidate with its two keys; `finalScore` is NULL without a node record. -/
structure Scored where
  row : FtsRow
  rank : Rat
  finalScore : Option Rat

def Scored.hit (s : Scored) : SearchHit := ⟨s.row.id, s.row.name, s.row.qualifiedName, s.row.summary, s.rank⟩

def degree (edges : List (List Char × List Char)) (id : List Char) : Nat :=
  edges.countP (fun e => e.1 = id) + edges.countP fun e => e.2 = id

def scored (sql : Sqlite) (idx : FtsIndex) (nodes : List FtsNode) (edges : List (List Char × List Char)) (e : Expr)
    (row : FtsRow) : Scored :=
  let rank := sql.bm25 idx e row
  let penalty := (nodes.find? fun n => n.id = row.id).map fun n => if sql.isScaffold n.file then (1 : Rat) else 0
  ⟨row, rank, penalty.map fun p => rank - DEGREE_BOOST_ALPHA * sql.lnOnePlus (degree edges row.id) +
    SCAFFOLD_PENALTY_TAU * p⟩

/-- NULL comes first. -/
def compareScores : Option Rat → Option Rat → Ordering
  | none, none => .eq
  | none, some _ => .lt
  | some _, none => .gt
  | some a, some b => compare a b

def compareIds (a b : List Char) : Ordering := compareOfLessAndEq a b

def byRank (a b : Scored) : Ordering := compare a.rank b.rank

/-- `ORDER BY finalScore, rank, id` -/
def byFinalScore (a b : Scored) : Ordering :=
  (compareScores a.finalScore b.finalScore).then ((byRank a b).then (compareIds a.row.id b.row.id))

/-- The candidates of a query in the scope of the filter. -/
def candidates (sql : Sqlite) (idx : FtsIndex) (e : Expr) (inScope : FtsRow → Bool) : List FtsRow :=
  idx.rows.filter fun row => exprMatches sql e row && inScope row

def bm25Search (sql : Sqlite) (idx : FtsIndex) (matchExpr : List Char) (limit : Nat) (filter : Option PathFilter) :
    List SearchHit :=
  if matchExpr = [] then []
  else
    match parse matchExpr with
    | none => []
    | some e =>
      let inScope := match idx.nodes with
        | none => fun _ => true
        | some nodes => pathPredicate nodes filter
      let rows := (candidates sql idx e inScope).map fun row => (⟨row, sql.bm25 idx e row, none⟩ : Scored)
      ((sortWith byRank rows).take limit).map Scored.hit

def rankedSearch (sql : Sqlite) (idx : FtsIndex) (matchExpr : List Char) (limit : Nat) (filter : Option PathFilter) :
    List SearchHit :=
  if matchExpr = [] then []
  else
    match idx.nodes, idx.edges, parse matchExpr with
    | some nodes, some edges, some e =>
      if sql.rejectsRanking then bm25Search sql idx matchExpr limit filter
      else
        let rows := (candidates sql idx e (pathPredicate nodes filter)).map (scored sql idx nodes edges e)
        let pool := (sortWith byRank rows).take (max RERANK_MIN_POOL (limit * RERANK_POOL_FACTOR))
        ((sortWith byFinalScore pool).take limit).map Scored.hit
    | _, _, _ => bm25Search sql idx matchExpr limit filter

/-! ## The entry points -/

def searchFts (U : UnicodeTables) (sql : Sqlite) (idx : FtsIndex) (raw : List Char) (limit : Nat)
    (path : Option (List Char)) : List SearchHit :=
  let filter := compilePathFilter path
  let precise := rankedSearch sql idx (buildFtsMatch U raw) limit filter
  if precise ≠ [] then precise
  else
    let relaxedExpr := buildRelaxedFtsMatch U raw
    if relaxedExpr = [] ∨ relaxedExpr = buildFtsMatch U raw then precise
    else rankedSearch sql idx relaxedExpr limit filter

/-- The `MATCH` text of a semantic search. -/
def semanticMatch (expanded : ExpandedQuery) : List Char :=
  let baseExpr := assembleMatch expanded.base
  let semExpr :=
    if expanded.semantic ≠ [] then '(' :: (orText.intercalate (expanded.semantic.map quoted) ++ [')']) else []
  if baseExpr ≠ [] ∧ semExpr ≠ [] then '(' :: (baseExpr ++ ')' :: (orText ++ semExpr))
  else if baseExpr ≠ [] then baseExpr else semExpr

def searchFtsSemantic (U : UnicodeTables) (sql : Sqlite) (idx : FtsIndex) (raw : List Char)
    (infer : Option (List Char → InferResult)) (limit : Nat) (path : Option (List Char)) : List SearchHit :=
  let filter := compilePathFilter path
  let expanded := expandQueryWithModel U (originalTerms U raw) raw infer
  rankedSearch sql idx (semanticMatch expanded) limit filter

end Hayven.Db.Search
