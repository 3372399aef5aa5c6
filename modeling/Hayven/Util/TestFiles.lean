import Hayven.Cli.Ingest
import Hayven.Lib.RegExpText
import Hayven.Lib.SqlCondition
import Mathlib.Data.List.TakeWhile
/-!
# Scaffolding paths

`util/test_files.ts`: the globs of the test conventions as `LIKE` patterns, and what is made of
these: regular expressions, in parts and as the source of one, and the chains of an SQL fragment.
-/
open Hayven.Lib

namespace Hayven.Util

def TEST_GLOBS : List JsString :=
  ["*.test.*", "*.spec.*", "__tests__/*", "*/__tests__/*", "*_test.*", "*_spec.rb", "test_*.py", "*/test_*.py",
    "tests/*", "*/tests/*", "test/*", "*/test/*"].map ascii

def LIKE_ESCAPE : UInt16 := 0x5C

/-- `likePattern`: a star stands for any run, and what `LIKE` takes for special is escaped. -/
def likePattern (glob : JsString) : JsString :=
  glob.flatMap fun u =>
    if u = 0x2A then [0x25]
    else if u = LIKE_ESCAPE ∨ u = 0x25 ∨ u = 0x5F then [LIKE_ESCAPE, u]
    else [u]

/-- A part of the regular expression: `[\s\S]*`, `[\s\S]` or one unit. -/
inductive LikePart where
  | anyRun | anyUnit
  | unit (u : UInt16)

/-- `likeToRegExp`; none if it throws. -/
def likeToRegExp : JsString → Option (List LikePart)
  | [] => some []
  | u :: rest =>
    if u = LIKE_ESCAPE then
      match rest with
      | [] => none
      | v :: rest => (likeToRegExp rest).map (.unit v :: ·)
    else (likeToRegExp rest).map ((if u = 0x25 then .anyRun else if u = 0x5F then .anyUnit else .unit u) :: ·)

/-- `RegExp.test` of the whole path, without regard to case. The patterns are ASCII, and no
unit outside ASCII stands for one in it. -/
def matchesParts : List LikePart → JsString → Bool
  | [], s => s.isEmpty
  | .anyRun :: parts, s => s.tails.any (matchesParts parts)
  | .anyUnit :: parts, s => s.head?.isSome && matchesParts parts s.tail
  | .unit u :: parts, s => (s.head?.any fun v => Cli.asciiLower u = Cli.asciiLower v) && matchesParts parts s.tail

def TEST_RE : List (List LikePart) := TEST_GLOBS.filterMap fun glob => likeToRegExp (likePattern glob)

def isTestFile (file : Option JsString) : Bool :=
  file.any fun path => !path.isEmpty && TEST_RE.any fun re => matchesParts re path

/-- A star of a glob stands for any run, everything else for itself. -/
theorem likeToRegExp_likePattern (glob : JsString) :
    likeToRegExp (likePattern glob) = some (glob.map fun u => if u = 0x2A then .anyRun else .unit u) := by
  induction glob with
  | nil => rfl
  | cons u glob ih =>
    rw [likePattern, List.flatMap_cons, ← likePattern, List.map_cons]
    by_cases hstar : u = 0x2A
    · rw [if_pos hstar, if_pos hstar, List.singleton_append, likeToRegExp.eq_def]
      dsimp only
      rw [if_neg (by decide), ih]
      rfl
    · rw [if_neg hstar, if_neg hstar]
      by_cases hspecial : u = LIKE_ESCAPE ∨ u = 0x25 ∨ u = 0x5F
      · rw [if_pos hspecial, List.cons_append, List.singleton_append, likeToRegExp, if_pos rfl, ih]
        rfl
      · rw [not_or, not_or] at hspecial
        rw [if_neg (by simpa only [not_or] using hspecial), List.singleton_append, likeToRegExp.eq_def]
        dsimp only
        rw [if_neg hspecial.1, if_neg hspecial.2.1, if_neg hspecial.2.2, ih]
        rfl

example : isTestFile (some (ascii "src/parser_test.rs")) && isTestFile (some (ascii "Tests/x.go")) &&
    !isTestFile (some (ascii "src/contest.ts")) && !isTestFile (some (ascii "src/api_spec.ts")) := by
  decide +kernel

end Hayven.Util

namespace Hayven.Util.Scaffold

/-! ## The regular expressions -/

/-- `escapeRegExp`: the class is `[.*+?^${}()|[\]\\]`. -/
def escapeRegExp (ch : UInt16) : JsString :=
  if [0x2E, 0x2A, 0x2B, 0x3F, 0x5E, 0x24, 0x7B, 0x7D, 0x28, 0x29, 0x7C, 0x5B, 0x5D, 0x5C].contains ch then [0x5C, ch]
  else [ch]

/-- The loop of `likeToRegExp`; none if it throws. -/
def regExpBody : JsString → Option JsString
  | [] => some []
  | ch :: rest =>
    if ch = LIKE_ESCAPE then
      match rest with
      | [] => none
      | v :: rest' => (regExpBody rest').map (escapeRegExp v ++ ·)
    else if ch = 0x25 then (regExpBody rest).map (ascii "[\\s\\S]*" ++ ·)
    else if ch = 0x5F then (regExpBody rest).map (ascii "[\\s\\S]" ++ ·)
    else (regExpBody rest).map (escapeRegExp ch ++ ·)

/-- `likeToRegExp`: the source that the constructor is given, with the flag `i`. -/
def likeToRegExp (pattern : JsString) : Option JsString :=
  (regExpBody pattern).map fun out => 0x5E :: (out ++ [0x24])

def BENCH_GLOBS : List JsString := ["bench/*", "*/bench/*"].map ascii

def MOCK_GLOBS : List JsString := ["*/mocks.*", "mocks.*", "*.mock.*", "*/mocks/*", "*/__mocks__/*"].map ascii

def SCAFFOLD_GLOBS : List JsString := TEST_GLOBS ++ BENCH_GLOBS ++ MOCK_GLOBS

def TEST_LIKE : List JsString := TEST_GLOBS.map likePattern

def SCAFFOLD_LIKE : List JsString := SCAFFOLD_GLOBS.map likePattern

/-- The sources; none if the module throws as it loads. -/
def TEST_RE : Option (List JsString) := TEST_LIKE.mapM likeToRegExp

def SCAFFOLD_RE : Option (List JsString) := SCAFFOLD_LIKE.mapM likeToRegExp

/-- `res.some((re) => re.test(file))`; an absent or empty path is nothing to classify. -/
def someTest (upper : UpperCase) (res : List JsString) (file : Option JsString) : Bool :=
  file.any fun path => !path.isEmpty && res.any fun re => regExpTest upper re path == some true

def isTestFile (upper : UpperCase) (file : Option JsString) : Option Bool :=
  TEST_RE.map fun res => someTest upper res file

def isScaffoldFile (upper : UpperCase) (file : Option JsString) : Option Bool :=
  SCAFFOLD_RE.map fun res => someTest upper res file

/-! ## The SQL fragments -/

def isNameStart (u : UInt16) : Bool := (0x41 ≤ u && u ≤ 0x5A) || (0x61 ≤ u && u ≤ 0x7A) || u = 0x5F

def isSqlName : JsString → Bool
  | [] => false
  | u :: rest => isNameStart u && rest.all fun v => isNameStart v || (0x30 ≤ v && v ≤ 0x39)

/-- `SQL_COLUMN_RE`: a name, or two with a dot between. -/
def isColumn (column : JsString) : Bool :=
  isSqlName column ||
    (isSqlName (column.takeWhile (· ≠ 0x2E)) && isSqlName ((column.dropWhile (· ≠ 0x2E)).drop 1))

/-- One pattern of the chain, the lead of a line behind the first in front of it. -/
def likeLine (column indent : JsString) (i : Nat) (p : JsString) : JsString :=
  (if i = 0 then [] else indent ++ ascii "   OR ") ++ column ++ ascii " LIKE '" ++ p ++ ascii "' ESCAPE '" ++
    [LIKE_ESCAPE] ++ ascii "'"

/-- `likeChain`; none if it throws. -/
def likeChain (column : JsString) (patterns : List JsString) (indent : JsString) : Option JsString :=
  if !isColumn column then none
  else if patterns.any fun p => p.contains 0x27 then none
  else some (ascii "(" ++ List.intercalate [0x0A] (patterns.mapIdx (likeLine column indent)) ++ ascii ")")

def testFileSqlPredicate (column indent : JsString) : Option JsString := likeChain column TEST_LIKE indent

def scaffoldFileSqlPredicate (column indent : JsString) : Option JsString := likeChain column SCAFFOLD_LIKE indent

end Hayven.Util.Scaffold
