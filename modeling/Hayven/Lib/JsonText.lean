import Hayven.Lib.Json
import Hayven.Lib.Text
/-!
# JSON text

`JSON.stringify` and `JSON.parse` on UTF-16. A string survives the trip whatever
its code units, since unpaired surrogates are printed as escapes; a number does
when it is finite.
-/

namespace Hayven.Lib

/-! ## Printing -/

/-- `\uXXXX`, lowercase. -/
def escapeUnit (u : UInt16) : JsString :=
  [0x5C, 0x75, hexDigit (u.toNat / 4096), hexDigit (u.toNat / 256 % 16), hexDigit (u.toNat / 16 % 16),
    hexDigit (u.toNat % 16)]

/-- A code unit that is no surrogate. -/
def quoteUnit (u : UInt16) : JsString :=
  if u = 0x08 then [0x5C, 0x62] else if u = 0x09 then [0x5C, 0x74] else if u = 0x0A then [0x5C, 0x6E]
  else if u = 0x0C then [0x5C, 0x66] else if u = 0x0D then [0x5C, 0x72] else if u = 0x22 then [0x5C, 0x22]
  else if u = 0x5C then [0x5C, 0x5C] else if u < 0x20 then escapeUnit u else [u]

def quoteBody : JsString → JsString
  | [] => []
  | u :: rest =>
    if isHighSurrogate u then
      match rest with
      | v :: rest' => if isLowSurrogate v then u :: v :: quoteBody rest' else escapeUnit u ++ quoteBody (v :: rest')
      | [] => escapeUnit u
    else if isLowSurrogate u then escapeUnit u ++ quoteBody rest
    else quoteUnit u ++ quoteBody rest

def quote (s : JsString) : JsString := 0x22 :: quoteBody s ++ [0x22]

mutual

def stringify (rt : NumberText) : Json → JsString
  | .null => ascii "null"
  | .bool b => ascii (if b then "true" else "false")
  | .num (.fin q) => rt.print q
  | .num _ => ascii "null"
  | .str s => quote s
  | .arr items => 0x5B :: stringifyItems rt items ++ [0x5D]
  | .obj fields => 0x7B :: stringifyFields rt fields ++ [0x7D]

def stringifyItems (rt : NumberText) : List Json → JsString
  | [] => []
  | [j] => stringify rt j
  | j :: rest => stringify rt j ++ 0x2C :: stringifyItems rt rest

def stringifyFields (rt : NumberText) : List (JsString × Json) → JsString
  | [] => []
  | [(k, j)] => quote k ++ 0x3A :: stringify rt j
  | (k, j) :: rest => quote k ++ 0x3A :: stringify rt j ++ 0x2C :: stringifyFields rt rest

end

/-! ## Parsing -/

def isSpace (u : UInt16) : Bool := u = 0x20 || u = 0x09 || u = 0x0A || u = 0x0D

def skipSpace (s : JsString) : JsString := s.dropWhile isSpace

/-- A digit run that must not be empty. -/
def digits1 (s : JsString) : Option (JsString × JsString) :=
  let ds := s.takeWhile isDigit
  if ds = [] then none else some (ds, s.dropWhile isDigit)

def intPart : JsString → Option (JsString × JsString)
  | 0x30 :: rest => some ([0x30], rest)
  | s => digits1 s

def fracPart : JsString → Option (JsString × JsString)
  | 0x2E :: rest => digits1 rest
  | s => some ([], s)

def expDigits (sign : Int) (s : JsString) : Option (Int × JsString) :=
  (digits1 s).map fun p => (sign * decValue p.1, p.2)

def expPart : JsString → Option (Int × JsString)
  | e :: rest =>
    if e = 0x65 ∨ e = 0x45 then
      match rest with
      | 0x2B :: rest => expDigits 1 rest
      | 0x2D :: rest => expDigits (-1) rest
      | rest => expDigits 1 rest
    else some (0, e :: rest)
  | [] => some (0, [])

def unsignedNumber (s : JsString) : Option (Rat × JsString) := do
  let (int, s) ← intPart s
  let (frac, s) ← fracPart s
  let (exp, s) ← expPart s
  return ((decValue (int ++ frac) : Rat) * (10 : Rat) ^ (exp - frac.length), s)

/-- A number, rounded to the nearest double. -/
def parseNumber : JsString → Option (JsNumber × JsString)
  | 0x2D :: rest => (unsignedNumber rest).map fun p => (roundRat (-p.1), p.2)
  | s => (unsignedNumber s).map fun p => (roundRat p.1, p.2)

def parseHex4 (a b c d : UInt16) : Option UInt16 := do
  let a ← hexValue a
  let b ← hexValue b
  let c ← hexValue c
  let d ← hexValue d
  return (a * 4096 + b * 256 + c * 16 + d).toUInt16

def unescape : UInt16 → Option UInt16
  | 0x22 => some 0x22
  | 0x5C => some 0x5C
  | 0x2F => some 0x2F
  | 0x62 => some 0x08
  | 0x66 => some 0x0C
  | 0x6E => some 0x0A
  | 0x72 => some 0x0D
  | 0x74 => some 0x09
  | _ => none

/-- The rest of a string after its opening quote. -/
def parseStringBody : JsString → Option (JsString × JsString)
  | [] => none
  | u :: rest =>
    if u = 0x22 then some ([], rest)
    else if u = 0x5C then
      match rest with
      | 0x75 :: a :: b :: c :: d :: rest => do
        let v ← parseHex4 a b c d
        let (s, rest) ← parseStringBody rest
        return (v :: s, rest)
      | e :: rest => do
        let v ← unescape e
        let (s, rest) ← parseStringBody rest
        return (v :: s, rest)
      | [] => none
    else if u < 0x20 then none
    else do
      let (s, rest) ← parseStringBody rest
      return (u :: s, rest)

/-- A fixed word. -/
def parseWord (word : String) (j : Json) (s : JsString) : Option (Json × JsString) :=
  if (ascii word).isPrefixOf s then some (j, s.drop word.length) else none

mutual

/-- One value, white space before it included; nesting and length are bounded by `fuel`. -/
def parseValue (fuel : Nat) (s : JsString) : Option (Json × JsString) :=
  match fuel with
  | 0 => none
  | fuel + 1 =>
    match skipSpace s with
    | [] => none
    | u :: rest =>
      if u = 0x7B then
        match skipSpace rest with
        | 0x7D :: rest => some (.obj [], rest)
        | rest => (parseMembers fuel rest).map fun p => (.obj p.1, p.2)
      else if u = 0x5B then
        match skipSpace rest with
        | 0x5D :: rest => some (.arr [], rest)
        | rest => (parseElements fuel rest).map fun p => (.arr p.1, p.2)
      else if u = 0x22 then (parseStringBody rest).map fun p => (.str p.1, p.2)
      else if u = 0x74 then parseWord "true" (.bool true) (u :: rest)
      else if u = 0x66 then parseWord "false" (.bool false) (u :: rest)
      else if u = 0x6E then parseWord "null" .null (u :: rest)
      else (parseNumber (u :: rest)).map fun p => (.num p.1, p.2)

/-- The elements of a non-empty array, to its closing bracket. -/
def parseElements (fuel : Nat) (s : JsString) : Option (List Json × JsString) :=
  match fuel with
  | 0 => none
  | fuel + 1 =>
    match parseValue fuel s with
    | none => none
    | some (j, s) =>
      match skipSpace s with
      | 0x5D :: rest => some ([j], rest)
      | 0x2C :: rest => (parseElements fuel rest).map fun p => (j :: p.1, p.2)
      | _ => none

/-- The members of a non-empty object, to its closing brace. -/
def parseMembers (fuel : Nat) (s : JsString) : Option (List (JsString × Json) × JsString) :=
  match fuel with
  | 0 => none
  | fuel + 1 =>
    match skipSpace s with
    | 0x22 :: rest =>
      match parseStringBody rest with
      | none => none
      | some (k, s) =>
        match skipSpace s with
        | 0x3A :: rest =>
          match parseValue fuel rest with
          | none => none
          | some (j, s) =>
            match skipSpace s with
            | 0x7D :: rest => some ([(k, j)], rest)
            | 0x2C :: rest => (parseMembers fuel rest).map fun p => ((k, j) :: p.1, p.2)
            | _ => none
        | _ => none
    | _ => none

end

/-- `JSON.parse`; `none` where it throws. -/
def parseJson (s : JsString) : Option Json :=
  match parseValue (s.length + 1) s with
  | some (j, rest) => if skipSpace rest = [] then some j else none
  | none => none

/-! ## Strings come back -/

theorem parseHex4_hexDigits (u : UInt16) :
    parseHex4 (hexDigit (u.toNat / 4096)) (hexDigit (u.toNat / 256 % 16)) (hexDigit (u.toNat / 16 % 16))
      (hexDigit (u.toNat % 16)) = some u := by
  have hu := u.toNat_lt
  have h1 := hexValue_hexDigit (u.toNat / 4096) (by omega)
  have h2 := hexValue_hexDigit (u.toNat / 256 % 16) (by omega)
  have h3 := hexValue_hexDigit (u.toNat / 16 % 16) (by omega)
  have h4 := hexValue_hexDigit (u.toNat % 16) (by omega)
  have hsum : u.toNat / 4096 * 4096 + u.toNat / 256 % 16 * 256 + u.toNat / 16 % 16 * 16 + u.toNat % 16 = u.toNat := by
    omega
  simp only [parseHex4, h1, h2, h3, h4, bind, Option.bind, pure, hsum]
  exact congrArg some UInt16.ofNat_toNat

theorem parseStringBody_escapeUnit (u : UInt16) (s : JsString) :
    parseStringBody (escapeUnit u ++ s) = (parseStringBody s).map fun p => (u :: p.1, p.2) := by
  simp only [escapeUnit, List.cons_append, List.nil_append, parseStringBody, if_true]
  rw [if_neg (by decide), parseHex4_hexDigits]
  cases parseStringBody s <;> rfl

theorem parseStringBody_plain {u : UInt16} (h : ¬ u < 0x20) (hq : u ≠ 0x22) (hb : u ≠ 0x5C) (s : JsString) :
    parseStringBody (u :: s) = (parseStringBody s).map fun p => (u :: p.1, p.2) := by
  rw [parseStringBody.eq_def]
  simp only [hq, hb, h, if_false]
  cases parseStringBody s <;> rfl

theorem parseStringBody_short {e v : UInt16} (he : e ≠ 0x75) (hv : unescape e = some v) (s : JsString) :
    parseStringBody (0x5C :: e :: s) = (parseStringBody s).map fun p => (v :: p.1, p.2) := by
  rw [parseStringBody.eq_def]
  simp only [if_true]
  rw [if_neg (by decide)]
  split
  case h_1 heq => cases heq; exact absurd rfl he
  case h_2 heq =>
    cases heq
    rw [hv]
    cases parseStringBody s <;> rfl
  case h_3 heq => cases heq

theorem parseStringBody_quoteUnit (u : UInt16) (s : JsString) :
    parseStringBody (quoteUnit u ++ s) = (parseStringBody s).map fun p => (u :: p.1, p.2) := by
  unfold quoteUnit
  repeat' split
  all_goals first
    | exact parseStringBody_escapeUnit u s
    | (subst_vars; exact parseStringBody_short (by decide) rfl s)
    | exact parseStringBody_plain (by assumption) (by assumption) (by assumption) s

/-- A surrogate is no control character, quote or backslash. -/
theorem surrogate_plain {u : UInt16} (h : 0xD800 ≤ u.toNat) : ¬ u < 0x20 ∧ u ≠ 0x22 ∧ u ≠ 0x5C := by
  refine ⟨fun hlt => ?_, ?_, ?_⟩
  · have : u.toNat < 0x20 := hlt
    omega
  · rintro rfl; revert h; decide
  · rintro rfl; revert h; decide

theorem units_quoteBody (s : JsString) : ∀ u ∈ quoteBody s, 0x20 ≤ u.toNat := by
  have hhex : ∀ n < 16, 0x20 ≤ (hexDigit n).toNat := by decide
  have hescape (u : UInt16) : ∀ v ∈ escapeUnit u, 0x20 ≤ v.toNat := by
    intro v hv
    have hu := u.toNat_lt
    simp only [escapeUnit, List.mem_cons, List.not_mem_nil, or_false] at hv
    rcases hv with rfl | rfl | rfl | rfl | rfl | rfl
    · decide
    · decide
    all_goals exact hhex _ (by omega)
  have hunit (u : UInt16) : ∀ v ∈ quoteUnit u, 0x20 ≤ v.toNat := by
    intro v hv
    unfold quoteUnit at hv
    split_ifs at hv
    all_goals first
      | exact hescape u v hv
      | (revert v; decide)
      | (rw [List.mem_singleton.1 hv]
         exact Nat.le_of_not_lt fun hlt => ‹¬ u < 0x20› hlt)
  fun_induction quoteBody s with
  | case1 => intro u hu; cases hu
  | case2 u hu v rest hv ih =>
    intro w hw
    have hu' := (isHighSurrogate_iff.1 hu).1
    have hv' := (isLowSurrogate_iff.1 hv).1
    rcases List.mem_cons.1 hw with rfl | hw
    · omega
    · rcases List.mem_cons.1 hw with rfl | hw
      · omega
      · exact ih w hw
  | case3 u hu v rest hv ih => exact fun w hw => (List.mem_append.1 hw).elim (hescape u w) (ih w)
  | case4 u hu => exact hescape u
  | case5 u rest hu hl ih => exact fun w hw => (List.mem_append.1 hw).elim (hescape u w) (ih w)
  | case6 u rest hu hl ih => exact fun w hw => (List.mem_append.1 hw).elim (hunit u w) (ih w)

/-- JSON text of a string has no control characters. -/
theorem units_quote (s : JsString) : ∀ u ∈ quote s, 0x20 ≤ u.toNat := by
  intro u hu
  rcases List.mem_cons.1 hu with rfl | hu
  · decide
  · rcases List.mem_append.1 hu with hu | hu
    · exact units_quoteBody s u hu
    · rw [List.mem_singleton.1 hu]
      decide

theorem parseStringBody_quoteBody (s rest : JsString) :
    parseStringBody (quoteBody s ++ 0x22 :: rest) = some (s, rest) := by
  have hend : parseStringBody (0x22 :: rest) = some ([], rest) := by rw [parseStringBody.eq_def]; simp
  fun_induction quoteBody s with
  | case1 => exact hend
  | case2 u hu v rest' hv ih =>
    obtain ⟨h1, h2, h3⟩ := surrogate_plain (isHighSurrogate_iff.1 hu).1
    have hv' := (isLowSurrogate_iff.1 hv).1
    obtain ⟨h1', h2', h3'⟩ := surrogate_plain (u := v) (by omega)
    simp only [List.cons_append]
    rw [parseStringBody_plain h1 h2 h3, parseStringBody_plain h1' h2' h3', ih]
    rfl
  | case3 u hu v rest' hv ih => rw [List.append_assoc, parseStringBody_escapeUnit, ih]; rfl
  | case4 u hu => rw [parseStringBody_escapeUnit, hend]; rfl
  | case5 u rest' hu hl ih => rw [List.append_assoc, parseStringBody_escapeUnit, ih]; rfl
  | case6 u rest' hu hl ih => rw [List.append_assoc, parseStringBody_quoteUnit, ih]; rfl

/-! ## Values come back -/

/-- A number is over: what follows is no digit, point, sign or exponent mark. -/
def Ends (rest : JsString) : Prop :=
  ∀ u ∈ rest.head?, ¬ (isDigit u = true ∨ u = 0x2E ∨ u = 0x2B ∨ u = 0x2D ∨ u = 0x65 ∨ u = 0x45)

/-- The rational is a double. -/
def IsDouble (q : Rat) : Prop := roundRat q = .fin q

/-- The printed text of a double reads as that double. -/
def NumberText.Lossless (rt : NumberText) : Prop :=
  ∀ q, IsDouble q → ∀ rest, Ends rest → parseNumber (rt.print q ++ rest) = some (.fin q, rest)

namespace Json

mutual

/-- Every number of the value is a finite double. -/
def Finite : Json → Prop
  | .num n => ∃ q, n = .fin q ∧ IsDouble q
  | .arr items => FiniteItems items
  | .obj fields => FiniteFields fields
  | _ => True

def FiniteItems : List Json → Prop
  | [] => True
  | j :: rest => Finite j ∧ FiniteItems rest

def FiniteFields : List (JsString × Json) → Prop
  | [] => True
  | (_, j) :: rest => Finite j ∧ FiniteFields rest

end

mutual

/-- The fuel a value takes. -/
def cost : Json → Nat
  | .arr items => 1 + costItems items
  | .obj fields => 1 + costFields fields
  | _ => 1

def costItems : List Json → Nat
  | [] => 0
  | j :: rest => 1 + cost j + costItems rest

def costFields : List (JsString × Json) → Nat
  | [] => 0
  | (_, j) :: rest => 1 + cost j + costFields rest

end

end Json

theorem parseNumber_head {s rest : JsString} {n : JsNumber} (h : parseNumber s = some (n, rest)) :
    ∃ u s', s = u :: s' ∧ (u = 0x2D ∨ isDigit u = true) := by
  have hdigits {s : JsString} {p : JsString × JsString} (h : digits1 s = some p) :
      ∃ u s', s = u :: s' ∧ isDigit u = true := by
    cases s with
    | nil => simp [digits1] at h
    | cons u s =>
      refine ⟨u, s, rfl, ?_⟩
      by_contra hu
      simp [digits1, hu] at h
  have hunsigned {s : JsString} {p : Rat × JsString} (h : unsignedNumber s = some p) :
      ∃ u s', s = u :: s' ∧ isDigit u = true := by
    unfold unsignedNumber at h
    obtain ⟨int, hint, -⟩ := Option.bind_eq_some_iff.1 h
    unfold intPart at hint
    split at hint
    · exact ⟨_, _, rfl, by decide⟩
    · exact hdigits hint
  unfold parseNumber at h
  split at h
  · exact ⟨_, _, rfl, .inl rfl⟩
  · obtain ⟨p, hp, -⟩ := Option.map_eq_some_iff.1 h
    obtain ⟨u, s', rfl, hu⟩ := hunsigned hp
    exact ⟨u, s', rfl, .inr hu⟩

/-- What a printed value can start with. -/
def startsValue (u : UInt16) : Bool :=
  u = 0x6E || u = 0x74 || u = 0x66 || u = 0x22 || u = 0x5B || u = 0x7B || u = 0x2D || isDigit u

theorem stringify_head {rt : NumberText} (hrt : rt.Lossless) {j : Json} (hj : j.Finite) :
    ∃ u s, stringify rt j = u :: s ∧ startsValue u = true := by
  cases j with
  | null => exact ⟨_, _, rfl, by decide⟩
  | bool b => cases b <;> exact ⟨_, _, rfl, by decide⟩
  | str s => exact ⟨_, _, by rw [stringify, quote, List.cons_append], by decide⟩
  | arr items => exact ⟨_, _, by rw [stringify, List.cons_append], by decide⟩
  | obj fields => exact ⟨_, _, by rw [stringify, List.cons_append], by decide⟩
  | num n =>
    obtain ⟨q, rfl, hq⟩ := hj
    have hparse := hrt q hq [] (by simp [Ends])
    rw [List.append_nil] at hparse
    obtain ⟨u, s, hs, hu⟩ := parseNumber_head hparse
    refine ⟨u, s, by rw [stringify, hs], ?_⟩
    rcases hu with rfl | hu
    · decide
    · simp [startsValue, hu]

theorem skipSpace_cons {u : UInt16} {s : JsString} (h : isSpace u = false) : skipSpace (u :: s) = u :: s := by
  simp [skipSpace, h]

theorem isSpace_of_startsValue {u : UInt16} (h : startsValue u = true) : isSpace u = false := by
  by_contra hs
  simp only [isSpace, Bool.not_eq_false, Bool.or_eq_true, decide_eq_true_eq] at hs
  rcases hs with ((rfl | rfl) | rfl) | rfl <;> revert h <;> decide

theorem skipSpace_stringify {rt : NumberText} (hrt : rt.Lossless) {j : Json} (hj : j.Finite) (rest : JsString) :
    skipSpace (stringify rt j ++ rest) = stringify rt j ++ rest := by
  obtain ⟨u, s, hs, hu⟩ := stringify_head hrt hj
  rw [hs, List.cons_append, skipSpace_cons (isSpace_of_startsValue hu)]

theorem startsValue_ne {u : UInt16} (h : startsValue u = true) : u ≠ 0x5D ∧ u ≠ 0x7D := by
  constructor <;> (rintro rfl; revert h; decide)

theorem ends_of_head {u : UInt16} (s : JsString) (h : u = 0x2C ∨ u = 0x5D ∨ u = 0x7D) : Ends (u :: s) := by
  intro v hv
  simp only [List.head?_cons, Option.mem_some_iff] at hv
  subst hv
  rcases h with rfl | rfl | rfl <;> decide

theorem skipSpace_comma (s : JsString) : skipSpace (0x2C :: s) = 0x2C :: s := skipSpace_cons (by decide)

theorem stringifyItems_cons (rt : NumberText) (j : Json) (items : List Json) (hne : items ≠ []) :
    stringifyItems rt (j :: items) = stringify rt j ++ 0x2C :: stringifyItems rt items := by
  cases items with
  | nil => exact absurd rfl hne
  | cons j' items => rw [stringifyItems]; exact nofun

theorem stringifyFields_cons (rt : NumberText) (k : JsString) (j : Json) (fields : List (JsString × Json))
    (hne : fields ≠ []) : stringifyFields rt ((k, j) :: fields) =
      quote k ++ 0x3A :: stringify rt j ++ 0x2C :: stringifyFields rt fields := by
  cases fields with
  | nil => exact absurd rfl hne
  | cons p fields => rw [stringifyFields]; exact nofun

theorem stringifyItems_head {rt : NumberText} (hrt : rt.Lossless) {j : Json} (hj : j.Finite) (items : List Json)
    (rest : JsString) : ∃ u s, stringifyItems rt (j :: items) ++ rest = u :: s ∧ startsValue u = true := by
  obtain ⟨u, s, hs, hu⟩ := stringify_head hrt hj
  cases items with
  | nil => exact ⟨u, s ++ rest, by rw [stringifyItems, hs]; rfl, hu⟩
  | cons j' items =>
    refine ⟨u, s ++ 0x2C :: stringifyItems rt (j' :: items) ++ rest, ?_, hu⟩
    rw [stringifyItems_cons rt j (j' :: items) nofun, hs]
    rfl

theorem stringifyFields_head (rt : NumberText) (k : JsString) (j : Json) (fields : List (JsString × Json))
    (rest : JsString) : ∃ s, stringifyFields rt ((k, j) :: fields) ++ rest = 0x22 :: s := by
  cases fields with
  | nil => exact ⟨_, by rw [stringifyFields, quote, List.cons_append, List.cons_append, List.cons_append]⟩
  | cons p fields =>
    rw [stringifyFields_cons rt k j (p :: fields) nofun, quote]
    exact ⟨_, by rw [List.cons_append, List.cons_append, List.cons_append, List.cons_append]⟩

section RoundTrip
variable {rt : NumberText}

theorem parseValue_num (hrt : rt.Lossless) {n : JsNumber} (hn : (Json.num n).Finite) (fuel : Nat) {rest : JsString}
    (hr : Ends rest) : parseValue (fuel + 1) (stringify rt (.num n) ++ rest) = some (.num n, rest) := by
  rw [parseValue, skipSpace_stringify hrt hn]
  obtain ⟨q, rfl, hq⟩ := hn
  have hparse := hrt q hq rest hr
  obtain ⟨u, s, hs, hu⟩ := parseNumber_head hparse
  have hstart : stringify rt (.num (.fin q)) ++ rest = u :: s := by rw [stringify, hs]
  have hother : u ≠ 0x7B ∧ u ≠ 0x5B ∧ u ≠ 0x22 ∧ u ≠ 0x74 ∧ u ≠ 0x66 ∧ u ≠ 0x6E := by
    refine ⟨?_, ?_, ?_, ?_, ?_, ?_⟩ <;> (rintro rfl; revert hu; decide)
  obtain ⟨h1, h2, h3, h4, h5, h6⟩ := hother
  rw [hstart]
  simp only [h1, h2, h3, h4, h5, h6, if_false, ← hs, hparse, Option.map_some]

mutual

/-- A printed value is read back. -/
theorem parseValue_stringify (hrt : rt.Lossless) : ∀ (j : Json), j.Finite → ∀ fuel, j.cost ≤ fuel → ∀ rest, Ends rest →
    parseValue fuel (stringify rt j ++ rest) = some (j, rest)
  | .null, _, fuel + 1, _, rest, _ => rfl
  | .bool true, _, fuel + 1, _, rest, _ => rfl
  | .bool false, _, fuel + 1, _, rest, _ => rfl
  | .num n, hn, fuel + 1, _, rest, hr => parseValue_num hrt hn fuel hr
  | .str s, hj, fuel + 1, _, rest, _ => by
    rw [parseValue, skipSpace_stringify hrt hj, stringify, quote, List.cons_append, List.cons_append,
      List.append_assoc]
    simp only [List.singleton_append, parseStringBody_quoteBody]
    rfl
  | .arr [], _, fuel + 1, _, rest, _ => rfl
  | .arr (j :: items), _, 0, hf, _, _ => by simp [Json.cost] at hf
  | .arr (j :: items), hj, fuel + 1, hf, rest, _ => by
    have hitems := parseElements_stringifyItems hrt (j :: items) (by simp) hj fuel (by simp [Json.cost] at hf; omega) rest
    rw [parseValue, skipSpace_stringify hrt hj, stringify, List.cons_append, List.cons_append,
      List.append_assoc, List.singleton_append]
    obtain ⟨u, s, hs, hu⟩ := stringifyItems_head hrt hj.1 items (0x5D :: rest)
    rw [hs] at hitems
    simp only [hs, skipSpace_cons (isSpace_of_startsValue hu)]
    rw [if_neg (by decide)]
    simp only [if_true]
    split
    case h_1 heq => cases heq; exact absurd rfl (startsValue_ne hu).1
    case h_2 => rw [hitems]; rfl
  | .obj [], _, fuel + 1, _, rest, _ => rfl
  | .obj ((k, j) :: fields), _, 0, hf, _, _ => by simp [Json.cost] at hf
  | .obj ((k, j) :: fields), hj, fuel + 1, hf, rest, _ => by
    have hfields := parseMembers_stringifyFields hrt ((k, j) :: fields) (by simp) hj fuel
      (by simp [Json.cost] at hf; omega) rest
    rw [parseValue, skipSpace_stringify hrt hj, stringify, List.cons_append, List.cons_append,
      List.append_assoc, List.singleton_append]
    obtain ⟨s, hs⟩ := stringifyFields_head rt k j fields (0x7D :: rest)
    rw [hs] at hfields
    simp only [hs, skipSpace_cons (show isSpace 0x22 = false by decide), if_true]
    split
    case h_1 heq => cases heq
    case h_2 => rw [hfields]; rfl

theorem parseElements_stringifyItems (hrt : rt.Lossless) : ∀ (items : List Json), items ≠ [] → Json.FiniteItems items →
    ∀ fuel, Json.costItems items ≤ fuel → ∀ rest,
    parseElements fuel (stringifyItems rt items ++ 0x5D :: rest) = some (items, rest)
  | [j], _, _, 0, hf, _ => by simp [Json.costItems] at hf
  | [j], _, hj, fuel + 1, hf, rest => by
    have hv := parseValue_stringify hrt j hj.1 fuel (by simp [Json.costItems] at hf; omega) (0x5D :: rest)
      (ends_of_head rest (.inr (.inl rfl)))
    rw [stringifyItems, parseElements]
    simp only [hv, skipSpace_cons (show isSpace 0x5D = false by decide)]
  | j :: j' :: items, _, _, 0, hf, _ => by simp [Json.costItems] at hf
  | j :: j' :: items, _, hj, fuel + 1, hf, rest => by
    have hv := parseValue_stringify hrt j hj.1 fuel (by simp [Json.costItems] at hf; omega)
      (0x2C :: (stringifyItems rt (j' :: items) ++ 0x5D :: rest)) (ends_of_head _ (.inl rfl))
    have hrest := parseElements_stringifyItems hrt (j' :: items) (by simp) hj.2 fuel
      (by simp [Json.costItems] at hf ⊢; omega) rest
    rw [stringifyItems_cons rt j (j' :: items) (by simp), parseElements, List.append_assoc, List.cons_append]
    simp only [hv, skipSpace_comma, hrest]
    rfl

theorem parseMembers_stringifyFields (hrt : rt.Lossless) : ∀ (fields : List (JsString × Json)), fields ≠ [] →
    Json.FiniteFields fields → ∀ fuel, Json.costFields fields ≤ fuel → ∀ rest,
    parseMembers fuel (stringifyFields rt fields ++ 0x7D :: rest) = some (fields, rest)
  | [(k, j)], _, _, 0, hf, _ => by simp [Json.costFields] at hf
  | [(k, j)], _, hj, fuel + 1, hf, rest => by
    have hv := parseValue_stringify hrt j hj.1 fuel (by simp [Json.costFields] at hf; omega) (0x7D :: rest)
      (ends_of_head rest (.inr (.inr rfl)))
    rw [stringifyFields, parseMembers, quote]
    simp only [List.cons_append, List.append_assoc, List.nil_append,
      skipSpace_cons (show isSpace 0x22 = false by decide), parseStringBody_quoteBody,
      skipSpace_cons (show isSpace 0x3A = false by decide), hv, skipSpace_cons (show isSpace 0x7D = false by decide)]
  | (k, j) :: p :: fields, _, _, 0, hf, _ => by simp [Json.costFields] at hf
  | (k, j) :: p :: fields, _, hj, fuel + 1, hf, rest => by
    have hv := parseValue_stringify hrt j hj.1 fuel (by simp [Json.costFields] at hf; omega)
      (0x2C :: (stringifyFields rt (p :: fields) ++ 0x7D :: rest)) (ends_of_head _ (.inl rfl))
    have hrest := parseMembers_stringifyFields hrt (p :: fields) (by simp) hj.2 fuel
      (by simp [Json.costFields] at hf ⊢; omega) rest
    rw [stringifyFields_cons rt k j (p :: fields) (by simp), parseMembers, quote]
    simp only [List.cons_append, List.append_assoc, List.nil_append,
      skipSpace_cons (show isSpace 0x22 = false by decide), parseStringBody_quoteBody,
      skipSpace_cons (show isSpace 0x3A = false by decide), hv, skipSpace_comma, hrest]
    rfl

end

mutual

theorem cost_le_length (hrt : rt.Lossless) : ∀ (j : Json), j.Finite → j.cost ≤ (stringify rt j).length
  | .null, _ => Nat.le_add_left 1 3
  | .bool true, _ => Nat.le_add_left 1 3
  | .bool false, _ => Nat.le_add_left 1 4
  | .str s, _ => by simp [Json.cost, stringify, quote]
  | .num n, hn => by
    obtain ⟨u, s, hs, -⟩ := stringify_head hrt hn
    simp [Json.cost, hs]
  | .arr items, hj => by
    have := costItems_le_length hrt items hj
    simp only [Json.cost, stringify, List.cons_append, List.length_cons, List.length_append, List.length_nil]
    omega
  | .obj fields, hj => by
    have := costFields_le_length hrt fields hj
    simp only [Json.cost, stringify, List.cons_append, List.length_cons, List.length_append, List.length_nil]
    omega

theorem costItems_le_length (hrt : rt.Lossless) : ∀ (items : List Json), Json.FiniteItems items →
    Json.costItems items ≤ (stringifyItems rt items).length + 1
  | [], _ => by simp [Json.costItems]
  | [j], hj => by
    have := cost_le_length hrt j hj.1
    simp only [Json.costItems, stringifyItems]
    omega
  | j :: j' :: items, hj => by
    have h1 := cost_le_length hrt j hj.1
    have h2 := costItems_le_length hrt (j' :: items) hj.2
    rw [stringifyItems_cons rt j (j' :: items) nofun]
    simp only [Json.costItems, List.length_append, List.length_cons] at h2 ⊢
    omega

theorem costFields_le_length (hrt : rt.Lossless) : ∀ (fields : List (JsString × Json)), Json.FiniteFields fields →
    Json.costFields fields ≤ (stringifyFields rt fields).length + 1
  | [], _ => by simp [Json.costFields]
  | [(k, j)], hj => by
    have := cost_le_length hrt j hj.1
    simp only [Json.costFields, stringifyFields, List.length_append, List.length_cons]
    omega
  | (k, j) :: p :: fields, hj => by
    have h1 := cost_le_length hrt j hj.1
    have h2 := costFields_le_length hrt (p :: fields) hj.2
    rw [stringifyFields_cons rt k j (p :: fields) nofun]
    simp only [Json.costFields, List.length_append, List.length_cons] at h2 ⊢
    omega

end

/-- `JSON.parse(JSON.stringify(j))` is `j`, if every number in `j` is finite. -/
theorem parseJson_stringify (hrt : rt.Lossless) {j : Json} (hj : j.Finite) : parseJson (stringify rt j) = some j := by
  have h := parseValue_stringify hrt j hj ((stringify rt j).length + 1)
    (Nat.le_succ_of_le (cost_le_length hrt j hj)) [] (by simp [Ends])
  rw [List.append_nil] at h
  simp [parseJson, h, skipSpace]

end RoundTrip

end Hayven.Lib
