import Hayven.Trace.WireText
/-!
# The Go collector

`trace/go/aggregator.go` and the flush of `flusher.go`. A string is its bytes, UTF-8 or
not; an `int` has 64 bits and wraps. A map is ranged over in an order of its own, and
`json.Marshal` is the one of the Go release in `go.mod`.
-/
open Hayven.Lib Hayven.Daemon

namespace Hayven.Trace.Go

/-! ## Aggregating -/

structure CallKey where
  src : Bytes
  dst : Bytes
  kind : Bytes
deriving DecidableEq

def callKind : Bytes := utf8Encode "call".toList

structure Observation where
  src : Bytes
  dst : Bytes
  ts : Int64
  observed : Int64
  kind : Bytes

structure Aggregator where
  counts : KeyedMap CallKey Int64

/-- The arguments of a call of `Add`. -/
structure Add where
  src : Bytes
  dst : Bytes
  n : Int64

/-- The call records something. -/
def Add.Admitted (c : Add) : Prop := c.src ≠ [] ∧ c.dst ≠ [] ∧ 0 < c.n

instance (c : Add) : Decidable c.Admitted := inferInstanceAs (Decidable (_ ∧ _ ∧ _))

namespace Aggregator

def new : Aggregator := ⟨.empty⟩

def add (a : Aggregator) (c : Add) : Aggregator :=
  if c.src = [] ∨ c.dst = [] ∨ c.n ≤ 0 then a
  else
    let k : CallKey := ⟨c.src, c.dst, callKind⟩
    ⟨a.counts.set k ((a.counts.get k).getD 0 + c.n)⟩

def addAll (adds : List Add) : Aggregator := adds.foldl add new

/-- The observations `Drain` returns, up to their order. -/
def observations (a : Aggregator) (ts : Int64) : List Observation :=
  a.counts.entries.map fun e => ⟨e.1.src, e.1.dst, ts, e.2, e.1.kind⟩

end Aggregator

structure CoverageRow where
  test : Bytes
  entity : Bytes
  weight : Int64

/-! ## Marshalling -/

/-- The first `k` bytes, if they are one character. -/
def decodeWindow (bs : Bytes) (k : Nat) : Option (Char × Bytes) :=
  match utf8DecodeStrict (bs.take k) with
  | some [c] => some (c, bs.drop k)
  | _ => none

/-- `utf8.DecodeRune`: the first character and the rest; a byte that starts none is skipped. -/
def decodeRune (bs : Bytes) : Option Char × Bytes :=
  match [4, 3, 2, 1].findSome? (decodeWindow bs) with
  | some (c, rest) => (some c, rest)
  | none => (none, bs.drop 1)

def runesFrom : Nat → Bytes → List (Option Char)
  | 0, _ => []
  | _ + 1, [] => []
  | n + 1, b :: bs => (decodeRune (b :: bs)).1 :: runesFrom n (decodeRune (b :: bs)).2

/-- The characters of a string, `none` for a byte that is in none. -/
def runes (bs : Bytes) : List (Option Char) := runesFrom bs.length bs

/-- One character of a marshalled string. -/
def escapeRune : Option Char → List Char
  | none => ofUtf16 (escapeUnit 0xFFFD)
  | some c =>
    if c = quoteMark then [backslash, quoteMark]
    else if c = backslash then [backslash, backslash]
    else if c.toNat = 0x0A then [backslash, 'n']
    else if c.toNat = 0x0D then [backslash, 'r']
    else if c.toNat = 0x09 then [backslash, 't']
    else if c.toNat < 0x20 ∨ c = '<' ∨ c = '>' ∨ c = '&' ∨ c.toNat = 0x2028 ∨ c.toNat = 0x2029 then
      ofUtf16 (escapeUnit c.toNat.toUInt16)
    else [c]

def marshalString (s : Bytes) : List Char := quoteMark :: (runes s).flatMap escapeRune ++ [quoteMark]

def maxCount : Int64 := 0xffff

structure WireObservation where
  src : Bytes
  dst : Bytes
  ts : Int64
  observed : Int64
  weight : Int64
  kind : Bytes

/-- The loop body of `encode` over the observations. -/
def encodeObservation (rate : Int64) (o : Observation) : WireObservation :=
  let observed := if o.observed > maxCount then maxCount else o.observed
  let weight := observed * rate
  let kind := if o.kind = [] then callKind else o.kind
  if weight > maxCount then ⟨o.src, o.dst, o.ts, maxCount / rate, maxCount / rate * rate, kind⟩
  else ⟨o.src, o.dst, o.ts, observed, weight, kind⟩

/-- The loop body of `encode` over the coverage rows. -/
def encodeCoverage (c : CoverageRow) : Option CoverageRow :=
  if c.test = [] ∨ c.entity = [] ∨ c.weight ≤ 0 then none
  else some { c with weight := if c.weight > maxCount then maxCount else c.weight }

def observationText (o : WireObservation) : RowText where
  src := marshalString o.src
  dst := marshalString o.dst
  ts := decimalChars o.ts.toInt
  observed := decimalChars o.observed.toInt
  weight := decimalChars o.weight.toInt
  kind := marshalString o.kind

def coverageText (c : CoverageRow) : CoverageText where
  test := marshalString c.test
  entity := marshalString c.entity
  weight := decimalChars c.weight.toInt

structure Flusher where
  sampleRate : Int64
  source : Bytes
  positive : 1 ≤ sampleRate
  named : source ≠ []

/-- `NewFlusher`, with `WithSampleRate` and `WithSource`. -/
def newFlusher (sampleRate : Int64) (source : Bytes) : Flusher where
  sampleRate := if sampleRate < 1 then 1 else sampleRate
  source := if source = [] then utf8Encode "go".toList else source
  positive := by
    split
    · decide
    · next h => exact Int64.not_lt.1 h
  named := by
    split
    · decide +kernel
    · assumption

def Flusher.encode (f : Flusher) (obs : List Observation) (cov : List CoverageRow) : Bytes :=
  let rate := if f.sampleRate < 1 then 1 else f.sampleRate
  let out := obs.map (encodeObservation rate)
  let covOut := cov.filterMap encodeCoverage
  utf8Encode (bodyText (marshalString f.source) (decimalChars rate.toInt) (out.map observationText)
    (covOut.map coverageText))

/-- The bodies `FlushOnce` sends for what it drained: one, or none. -/
def Flusher.flushOnce (f : Flusher) (obs : List Observation) (cov : List CoverageRow) : List Bytes :=
  if obs = [] ∧ cov = [] then [] else [f.encode obs cov]

/-! ## Strings -/

/-- The bytes are the UTF-8 of some text. -/
def Utf8 (bs : Bytes) : Prop := ∃ cs, bs = utf8Encode cs

theorem utf8StrictFrom_pending_ne (p : Lib.Pending) (bs : Bytes) : utf8StrictFrom (some p) bs ≠ some [] := by
  induction bs generalizing p with
  | nil => simp [utf8StrictFrom]
  | cons b bs ih =>
    rw [utf8StrictFrom]
    split
    · split
      · simp
      · exact ih _
    · simp

theorem eq_nil_of_strict_nil {bs : Bytes} (h : utf8DecodeStrict bs = some []) : bs = [] := by
  cases bs with
  | nil => rfl
  | cons b bs =>
    rw [utf8DecodeStrict, utf8StrictFrom] at h
    split at h
    · simp at h
    · exact absurd h (utf8StrictFrom_pending_ne _ _)
    · cases h

/-- A window that holds more than the first character is taken only if nothing follows it. -/
theorem decodeWindow_char (c : Char) (rest : Bytes) {k : Nat} (hk : (utf8Char c).length ≤ k) :
    decodeWindow (utf8Char c ++ rest) k = none ∨ decodeWindow (utf8Char c ++ rest) k = some (c, rest) := by
  have hstrict : utf8DecodeStrict ((utf8Char c ++ rest).take k) =
      (utf8DecodeStrict (rest.take (k - (utf8Char c).length))).map (c :: ·) := by
    rw [List.take_append, List.take_of_length_le hk]
    exact (utf8From_char c _).2
  unfold decodeWindow
  rw [hstrict]
  cases hrest : utf8DecodeStrict (rest.take (k - (utf8Char c).length)) with
  | none => exact .inl rfl
  | some cs =>
    cases cs with
    | nil =>
      have hnil := eq_nil_of_strict_nil hrest
      have hdrop : (utf8Char c ++ rest).drop k = rest := by
        rw [List.drop_append, List.drop_of_length_le hk, List.nil_append]
        conv_rhs => rw [← List.take_append_drop (k - (utf8Char c).length) rest, hnil, List.nil_append]
      exact .inr (by simp [hdrop])
    | cons c' cs => exact .inl rfl

theorem decodeWindow_self (c : Char) (rest : Bytes) :
    decodeWindow (utf8Char c ++ rest) (utf8Char c).length = some (c, rest) := by
  have hone := utf8DecodeStrict_encode [c]
  simp only [utf8Encode, List.flatMap_singleton] at hone
  simp [decodeWindow, hone]

theorem findSome?_eq_some {α β : Type} {f : α → Option β} {x : β} (pre post : List α) {a : α}
    (hpre : ∀ b ∈ pre, f b = none ∨ f b = some x) (ha : f a = some x) : (pre ++ a :: post).findSome? f = some x := by
  induction pre with
  | nil => simp [ha]
  | cons b pre ih =>
    rw [List.cons_append, List.findSome?_cons]
    rcases hpre b List.mem_cons_self with hb | hb
    · rw [hb]
      exact ih fun b' hb' => hpre b' (List.mem_cons_of_mem _ hb')
    · rw [hb]

theorem length_utf8Char_pos (c : Char) : 1 ≤ (utf8Char c).length := by
  unfold utf8Char
  dsimp only
  repeat' split
  all_goals simp

/-- An encoded character is decoded, whatever follows it. -/
theorem decodeRune_char (c : Char) (rest : Bytes) : decodeRune (utf8Char c ++ rest) = (some c, rest) := by
  have hlen := length_utf8Char_le c
  have hpos := length_utf8Char_pos c
  have hwindow := fun k (hk : (utf8Char c).length ≤ k) => decodeWindow_char c rest hk
  have hself := decodeWindow_self c rest
  have hfound : [4, 3, 2, 1].findSome? (decodeWindow (utf8Char c ++ rest)) = some (c, rest) := by
    rcases (by omega : (utf8Char c).length = 1 ∨ (utf8Char c).length = 2 ∨ (utf8Char c).length = 3 ∨
      (utf8Char c).length = 4) with hw | hw | hw | hw <;> rw [hw] at hself
    · exact findSome?_eq_some [4, 3, 2] []
        (fun b hb => hwindow b (by simp at hb; omega)) hself
    · exact findSome?_eq_some [4, 3] [1]
        (fun b hb => hwindow b (by simp at hb; omega)) hself
    · exact findSome?_eq_some [4] [2, 1]
        (fun b hb => hwindow b (by simp at hb; omega)) hself
    · exact findSome?_eq_some [] [3, 2, 1] (fun b hb => absurd hb List.not_mem_nil) hself
  rw [decodeRune, hfound]

theorem runesFrom_encode (cs : List Char) (n : Nat) (hn : (utf8Encode cs).length ≤ n) :
    runesFrom n (utf8Encode cs) = cs.map some := by
  induction cs generalizing n with
  | nil => cases n <;> rfl
  | cons c cs ih =>
    have hcons : utf8Encode (c :: cs) = utf8Char c ++ utf8Encode cs := rfl
    have hrune := decodeRune_char c (utf8Encode cs)
    rw [hcons, List.length_append] at hn
    rw [hcons, List.map_cons]
    cases hchar : utf8Char c with
    | nil =>
      have hpos := length_utf8Char_pos c
      rw [hchar] at hpos
      exact absurd hpos (by decide)
    | cons b more =>
      rw [hchar] at hrune hn
      cases n with
      | zero => simp at hn
      | succ n =>
        rw [List.cons_append] at hrune ⊢
        rw [runesFrom, hrune]
        rw [List.length_cons] at hn
        rw [ih n (by omega)]

theorem runes_encode (cs : List Char) : runes (utf8Encode cs) = cs.map some := runesFrom_encode cs _ le_rfl

/-- What a decoded character is in JSON. -/
def runeChar : Option Char → Char := fun r => r.getD replacementChar

/-- The string the daemon reads. -/
def jsonName (s : Bytes) : JsString := toUtf16 ((runes s).map runeChar)

theorem textEncode_jsonName (s : Bytes) : textEncode (jsonName s) = s ↔ Utf8 s := by
  rw [textEncode, jsonName, ofUtf16_toUtf16]
  constructor
  · intro h
    exact ⟨_, h.symm⟩
  · rintro ⟨cs, rfl⟩
    rw [runes_encode, List.map_map]
    have hid : (runeChar ∘ some) = (id : Char → Char) := rfl
    rw [hid, List.map_id]

theorem jsonName_eq_nil {s : Bytes} : jsonName s = [] ↔ s = [] := by
  constructor
  · intro h
    have hback := ofUtf16_toUtf16 ((runes s).map runeChar)
    rw [← jsonName, h] at hback
    cases s with
    | nil => rfl
    | cons b bs => simp [runes, runesFrom, ofUtf16] at hback
  · rintro rfl
    rfl

theorem parseStringBody_escapeRune (r : Option Char) (s : JsString) : parseStringBody (toUtf16 (escapeRune r) ++ s) =
    (parseStringBody s).map fun p => (charUnits (runeChar r) ++ p.1, p.2) := by
  cases r with
  | none => exact parseStringBody_unitEscape (c := replacementChar) (by decide) s
  | some c =>
    show parseStringBody (toUtf16 (escapeRune (some c)) ++ s) = (parseStringBody s).map fun p => (charUnits c ++ p.1, p.2)
    unfold escapeRune
    dsimp only
    split
    case isTrue h => exact parseStringBody_shortEscape 0x22 rfl (by decide) rfl (by decide) (by rw [h]; decide) s
    case isFalse hquote =>
      split
      case isTrue h => exact parseStringBody_shortEscape 0x5C rfl (by decide) rfl (by decide) (by rw [h]; decide) s
      case isFalse hslash =>
        split
        case isTrue h => exact parseStringBody_shortEscape 0x0A rfl (by decide) rfl (by decide) h s
        split
        case isTrue h => exact parseStringBody_shortEscape 0x0D rfl (by decide) rfl (by decide) h s
        split
        case isTrue h => exact parseStringBody_shortEscape 0x09 rfl (by decide) rfl (by decide) h s
        split
        case isTrue hescaped =>
          refine parseStringBody_unitEscape ?_ s
          rcases hescaped with h | rfl | rfl | rfl | h | h
          · omega
          · decide
          · decide
          · decide
          · omega
          · omega
        case isFalse hraw =>
          rw [not_or] at hraw
          have hsingle : toUtf16 [c] = charUnits c := by simp [toUtf16]
          rw [hsingle]
          exact parseStringBody_char (Nat.le_of_not_lt hraw.1) hquote hslash s

theorem readsQuoted_marshalString (s : Bytes) : ReadsQuoted (marshalString s) (jsonName s) := by
  have hread := readsQuoted_flatMap parseStringBody_escapeRune (runes s)
  have hvalue : (runes s).flatMap (fun r => charUnits (runeChar r)) = jsonName s := by
    rw [jsonName, toUtf16, List.flatMap_map]
  exact hvalue ▸ hread

/-! ## What the daemon reads -/

def wireRow (o : WireObservation) : WireRow where
  src := jsonName o.src
  dst := jsonName o.dst
  ts := .num (roundRat o.ts.toInt)
  observed := .num (roundRat o.observed.toInt)
  weight := .num (roundRat o.weight.toInt)
  kind := jsonName o.kind

def wireCoverage (c : CoverageRow) : WireCoverage := ⟨jsonName c.test, jsonName c.entity, .num (roundRat c.weight.toInt)⟩

theorem encode_rate (f : Flusher) : (if f.sampleRate < 1 then 1 else f.sampleRate) = f.sampleRate :=
  if_neg (Int64.not_lt.2 f.positive)

theorem parseJson_encode (f : Flusher) (obs : List Observation) (cov : List CoverageRow) :
    parseJson (textDecode (f.encode obs cov)) = some (wireBody (jsonName f.source) (.num (roundRat f.sampleRate.toInt))
      ((obs.map (encodeObservation f.sampleRate)).map wireRow) ((cov.filterMap encodeCoverage).map wireCoverage)) := by
  unfold Flusher.encode
  rw [encode_rate]
  apply parseJson_bodyText (readsQuoted_marshalString f.source) (readsNumeric_decimalChars _)
  · rw [List.forall₂_map_left_iff, List.forall₂_map_right_iff, List.forall₂_same]
    intro o _
    exact ⟨readsQuoted_marshalString o.src, readsQuoted_marshalString o.dst, readsNumeric_decimalChars _,
      readsNumeric_decimalChars _, readsNumeric_decimalChars _, readsQuoted_marshalString o.kind⟩
  · rw [List.forall₂_map_left_iff, List.forall₂_map_right_iff, List.forall₂_same]
    intro c _
    exact ⟨readsQuoted_marshalString c.test, readsQuoted_marshalString c.entity, readsNumeric_decimalChars _⟩

/-- The product of a count, cut to 16 bits, and the rate is in range, or wraps to a number that is cut. -/
def InRange (observed rate : Int) : Prop :=
  (0 ≤ observed ∧ min observed 65535 * rate ≤ 65535) ∨ 65535 < (min observed 65535 * rate).bmod (2 ^ 64)

instance (observed rate : Int) : Decidable (InRange observed rate) := inferInstanceAs (Decidable (_ ∨ _))

theorem maxCount_toInt : maxCount.toInt = 65535 := by decide

theorem encodeObservation_kept (rate : Int64) (o : Observation) : (encodeObservation rate o).src = o.src ∧
    (encodeObservation rate o).dst = o.dst ∧ (encodeObservation rate o).ts = o.ts := by
  unfold encodeObservation
  dsimp only
  generalize (if o.observed > maxCount then maxCount else o.observed) * rate = weight
  split <;> exact ⟨rfl, rfl, rfl⟩

/-- A row passes if its names are there and its count is in range. -/
theorem wireRow_fits_iff {rate : Int64} (hrate : 1 ≤ rate) {o : Observation} (hsrc : o.src ≠ []) (hdst : o.dst ≠ []) :
    (wireRow (encodeObservation rate o)).Fits (roundNat rate.toInt.toNat) ↔ InRange o.observed.toInt rate.toInt := by
  have hpos : 1 ≤ rate.toInt := Int64.le_iff_toInt_le.1 hrate
  obtain ⟨r, hr⟩ := Int.eq_ofNat_of_zero_le (by omega : 0 ≤ rate.toInt)
  have hr1 : 1 ≤ r := by omega
  have hcut : (if o.observed > maxCount then maxCount else o.observed).toInt = min o.observed.toInt 65535 := by
    split
    case isTrue h =>
      have hlt := Int64.lt_iff_toInt_lt.1 h
      rw [maxCount_toInt] at hlt ⊢
      omega
    case isFalse h =>
      have hle := Int64.le_iff_toInt_le.1 (Int64.not_lt.1 h)
      rw [maxCount_toInt] at hle
      omega
  have hproduct : ((if o.observed > maxCount then maxCount else o.observed) * rate).toInt =
      (min o.observed.toInt 65535 * rate.toInt).bmod (2 ^ 64) := by
    rw [Int64.toInt_mul, hcut]
  have hts := Int64.toInt_lt o.ts
  have hts' := Int64.le_toInt o.ts
  have hfields : (wireRow (encodeObservation rate o)).Fits (roundNat rate.toInt.toNat) ↔
      ∃ obs w : Nat, roundRat (encodeObservation rate o).observed.toInt = .fin obs ∧
        roundRat (encodeObservation rate o).weight.toInt = .fin w ∧ obs ≤ uint16Max ∧ w ≤ uint16Max ∧
        w ≤ obs * roundNat rate.toInt.toNat + 1 ∧ obs * roundNat rate.toInt.toNat ≤ w + 1 := by
    obtain ⟨hs, hd, ht⟩ := encodeObservation_kept rate o
    constructor
    · rintro ⟨-, -, -, hcounts⟩
      exact hcounts
    · intro hcounts
      refine ⟨?_, ?_, ⟨_, roundRat_natAbs ?_⟩, hcounts⟩
      · exact fun h => hsrc (jsonName_eq_nil.1 (hs ▸ h))
      · exact fun h => hdst (jsonName_eq_nil.1 (hd ▸ h))
      · rw [ht]
        omega
  rw [hfields]
  unfold InRange
  have hmax : ((uint16Max : Nat) : Int) = 65535 := rfl
  by_cases hover : 65535 < (min o.observed.toInt 65535 * rate.toInt).bmod (2 ^ 64)
  · -- the count is replaced by what the rate leaves room for
    have hcase : (if o.observed > maxCount then maxCount else o.observed) * rate > maxCount := by
      apply Int64.lt_iff_toInt_lt.2
      rw [hproduct, maxCount_toInt]
      exact hover
    have hencode : (encodeObservation rate o).observed = maxCount / rate ∧
        (encodeObservation rate o).weight = maxCount / rate * rate := by
      unfold encodeObservation
      dsimp only
      rw [if_pos hcase]
      exact ⟨rfl, rfl⟩
    have hquot : (maxCount / rate).toInt = 65535 / (r : Int) := by
      rw [Int64.toInt_div_of_ne_left _ _ (by decide), maxCount_toInt, hr, Int.tdiv_eq_ediv_of_nonneg (by decide)]
    have hle : 65535 / (r : Int) * r ≤ 65535 := Int.ediv_mul_le _ (by omega)
    have hnonneg : 0 ≤ 65535 / (r : Int) := Int.ediv_nonneg (by decide) (by omega)
    have hprodPos : 0 ≤ 65535 / (r : Int) * r := Int.mul_nonneg hnonneg (by omega)
    have hweight : (maxCount / rate * rate).toInt = 65535 / (r : Int) * r := by
      rw [Int64.toInt_mul, hquot, hr]
      exact Int.bmod_eq_of_le (by omega) (by omega)
    rw [hencode.1, hencode.2, hquot, hweight, hr, Int.toNat_natCast]
    refine iff_of_true ((counts_fit_iff hr1 fun _ _ => rfl).2 ⟨hnonneg, ?_⟩) (.inr ?_)
    · rw [hmax]
      exact hle
    · rw [← hr]
      exact hover
  · have hcase : ¬ (if o.observed > maxCount then maxCount else o.observed) * rate > maxCount := by
      intro h
      have hlt := Int64.lt_iff_toInt_lt.1 h
      rw [hproduct, maxCount_toInt] at hlt
      exact hover hlt
    have hencode : (encodeObservation rate o).observed = (if o.observed > maxCount then maxCount else o.observed) ∧
        (encodeObservation rate o).weight = (if o.observed > maxCount then maxCount else o.observed) * rate := by
      unfold encodeObservation
      dsimp only
      rw [if_neg hcase]
      exact ⟨rfl, rfl⟩
    have hwrap : 0 ≤ min o.observed.toInt 65535 → min o.observed.toInt 65535 * (r : Int) < 2 ^ 63 →
        (min o.observed.toInt 65535 * rate.toInt).bmod (2 ^ 64) = min o.observed.toInt 65535 * r := by
      intro h0 hlt
      have hprodPos : 0 ≤ min o.observed.toInt 65535 * (r : Int) := Int.mul_nonneg h0 (by omega)
      rw [hr]
      exact Int.bmod_eq_of_le (by omega) (by omega)
    rw [hencode.1, hencode.2, hcut, hproduct, or_iff_left hover]
    have hcounts := counts_fit_iff hr1 hwrap
    rw [hr, Int.toNat_natCast]
    rw [hr] at hcounts
    have hsign : 0 ≤ min o.observed.toInt 65535 ↔ 0 ≤ o.observed.toInt := by
      rw [le_min_iff, and_iff_left (by decide)]
    rw [hcounts, hmax, hsign]

/-! ## The edges that were recorded -/

def recorded (adds : List Add) : List (Bytes × Bytes) := (adds.filter (·.Admitted)).map fun c => (c.src, c.dst)

theorem get_addAll_isSome (adds : List Add) (k : CallKey) :
    (∃ v, (Aggregator.addAll adds).counts.get k = some v) ↔
      ∃ c ∈ adds, c.Admitted ∧ (⟨c.src, c.dst, callKind⟩ : CallKey) = k := by
  have hdropped : ∀ c : Add, (c.src = [] ∨ c.dst = [] ∨ c.n ≤ 0) ↔ ¬ c.Admitted := by
    intro c
    rw [Add.Admitted, not_and_or, not_and_or, not_not, not_not, Int64.not_lt]
  have hkeys := mem_keys_foldl Aggregator.add Aggregator.counts (fun c => (⟨c.src, c.dst, callKind⟩ : CallKey)) Add.Admitted
    (fun a c h => ⟨_, by rw [Aggregator.add, if_neg fun hd => (hdropped c).1 hd h]⟩)
    (fun a c h => by rw [Aggregator.add, if_pos ((hdropped c).2 h)]) adds Aggregator.new k
  rw [Aggregator.addAll, hkeys]
  simp [Aggregator.new]

section Drained
variable {adds : List Add} {ts : Int64} {obs : List Observation}
  (hobs : obs.Perm ((Aggregator.addAll adds).observations ts))
include hobs

theorem mem_recorded_iff (edge : Bytes × Bytes) : edge ∈ recorded adds ↔ ∃ o ∈ obs, edge = (o.src, o.dst) := by
  simp only [recorded, List.mem_map, List.mem_filter, decide_eq_true_eq]
  constructor
  · rintro ⟨c, ⟨hc, hadmitted⟩, rfl⟩
    obtain ⟨v, hv⟩ := (get_addAll_isSome adds ⟨c.src, c.dst, callKind⟩).2 ⟨c, hc, hadmitted, rfl⟩
    refine ⟨⟨c.src, c.dst, ts, v, callKind⟩, hobs.mem_iff.2 ?_, rfl⟩
    exact List.mem_map.2 ⟨_, KeyedMap.get_eq_some.1 hv, rfl⟩
  · rintro ⟨o, ho, rfl⟩
    obtain ⟨e, he, rfl⟩ := List.mem_map.1 (hobs.mem_iff.1 ho)
    obtain ⟨c, hc, hadmitted, heq⟩ := (get_addAll_isSome adds e.1).1 ⟨e.2, KeyedMap.get_eq_some.2 he⟩
    exact ⟨c, ⟨hc, hadmitted⟩, by rw [← heq]⟩

theorem names_ne_nil {o : Observation} (ho : o ∈ obs) : o.src ≠ [] ∧ o.dst ≠ [] := by
  have hmem := (mem_recorded_iff hobs (o.src, o.dst)).2 ⟨o, ho, rfl⟩
  simp only [recorded, List.mem_map, List.mem_filter, decide_eq_true_eq] at hmem
  obtain ⟨c, ⟨-, hsrc, hdst, -⟩, heq⟩ := hmem
  rw [Prod.mk.injEq] at heq
  exact ⟨heq.1 ▸ hsrc, heq.2 ▸ hdst⟩

theorem recorded_iff (rate : Int64) : (∀ edge, edge ∈ recorded adds ↔
    ∃ row ∈ (obs.map (encodeObservation rate)).map wireRow, edge = (textEncode row.src, textEncode row.dst)) ↔
    ∀ o ∈ obs, Utf8 o.src ∧ Utf8 o.dst := by
  have hrows : ∀ edge : Bytes × Bytes,
      (∃ row ∈ (obs.map (encodeObservation rate)).map wireRow, edge = (textEncode row.src, textEncode row.dst)) ↔
        ∃ o ∈ obs, edge = (textEncode (jsonName o.src), textEncode (jsonName o.dst)) := by
    intro edge
    simp only [List.mem_map, exists_exists_and_eq_and, wireRow, encodeObservation_kept]
  constructor
  · intro h o ho
    obtain ⟨o', -, heq⟩ := (hrows _).1 ((h (o.src, o.dst)).1 ((mem_recorded_iff hobs _).2 ⟨o, ho, rfl⟩))
    obtain ⟨hsrc, hdst⟩ := Prod.mk.inj heq
    exact ⟨⟨_, hsrc⟩, ⟨_, hdst⟩⟩
  · intro h edge
    rw [mem_recorded_iff hobs, hrows]
    constructor
    · rintro ⟨o, ho, rfl⟩
      obtain ⟨hsrc, hdst⟩ := h o ho
      exact ⟨o, ho, by rw [(textEncode_jsonName _).2 hsrc, (textEncode_jsonName _).2 hdst]⟩
    · rintro ⟨o, ho, rfl⟩
      obtain ⟨hsrc, hdst⟩ := h o ho
      exact ⟨o, ho, by rw [(textEncode_jsonName _).2 hsrc, (textEncode_jsonName _).2 hdst]⟩

/-- What a flush drained reaches the daemon exactly if its names are UTF-8 and its counts in range. -/
theorem flush_delivers_iff (rt : NumberText) (f : Flusher) (cov : List CoverageRow) :
    Delivers rt textEncode (f.flushOnce obs cov) (recorded adds) ↔
      ∀ o ∈ obs, Utf8 o.src ∧ Utf8 o.dst ∧ InRange o.observed.toInt f.sampleRate.toInt := by
  by_cases hne : obs = [] ∧ cov = []
  · have hnone : recorded adds = [] := by
      apply List.eq_nil_iff_forall_not_mem.2
      intro edge hedge
      obtain ⟨o, ho, -⟩ := (mem_recorded_iff hobs edge).1 hedge
      rw [hne.1] at ho
      exact absurd ho List.not_mem_nil
    rw [Flusher.flushOnce, if_pos hne, hnone, hne.1]
    simp [delivers_nil]
  · have hpos : 1 ≤ f.sampleRate.toInt := Int64.le_iff_toInt_le.1 f.positive
    have hlt := Int64.toInt_lt f.sampleRate
    have hcast : ((f.sampleRate.toInt.toNat : Int)) = f.sampleRate.toInt := Int.toNat_of_nonneg (by omega)
    obtain ⟨hrate, hround⟩ := numberValue_rate (by omega : 1 ≤ f.sampleRate.toInt.toNat) (by omega)
    rw [hcast] at hrate
    rw [Flusher.flushOnce, if_neg hne, delivers_one (parseJson_encode f obs cov) (.inr ⟨_, rfl⟩), recorded_iff hobs,
      bodyFits_iff hrate hround]
    · have hsource : jsonName f.source ≠ [] := fun h => f.named (jsonName_eq_nil.1 h)
      have hrows : (∀ row ∈ (obs.map (encodeObservation f.sampleRate)).map wireRow,
          row.Fits (roundNat f.sampleRate.toInt.toNat)) ↔ ∀ o ∈ obs, InRange o.observed.toInt f.sampleRate.toInt := by
        rw [List.forall_mem_map, List.forall_mem_map]
        refine forall₂_congr fun o ho => ?_
        obtain ⟨hsrc, hdst⟩ := names_ne_nil hobs ho
        exact wireRow_fits_iff f.positive hsrc hdst
      rw [hrows]
      constructor
      · rintro ⟨⟨-, hrange⟩, hutf8⟩ o ho
        exact ⟨(hutf8 o ho).1, (hutf8 o ho).2, hrange o ho⟩
      · intro h
        exact ⟨⟨hsource, fun o ho => (h o ho).2.2⟩, fun o ho => ⟨(h o ho).1, (h o ho).2.1⟩⟩
    · intro row hrow
      obtain ⟨o, -, rfl⟩ := List.mem_map.1 hrow
      exact ⟨.inr ⟨_, rfl⟩, .inr ⟨_, rfl⟩, .inr ⟨_, rfl⟩⟩
    · intro c hc
      obtain ⟨c', -, rfl⟩ := List.mem_map.1 hc
      exact .inr ⟨_, rfl⟩

end Drained

end Hayven.Trace.Go
