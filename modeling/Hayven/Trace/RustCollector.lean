import Hayven.Trace.WireText
/-!
# The Rust collector

`trace/rust/src/aggregator.rs` and the flush of `flusher.rs`. A `String` is its scalar
values; 64-bit arithmetic wraps, as it does in a release build. The hash map yields its
entries in an order of its own.
-/
open Hayven.Lib Hayven.Daemon

namespace Hayven.Trace.Rust

/-! ## Aggregating -/

structure CallKey where
  src : List Char
  dst : List Char
  kind : List Char
deriving DecidableEq

def CallKey.new (src dst : List Char) : CallKey := ⟨src, dst, "call".toList⟩

structure Observation where
  src : List Char
  dst : List Char
  ts : UInt64
  observed : UInt64
  kind : List Char

structure Aggregator where
  counts : KeyedMap CallKey UInt64

/-- The arguments of a call of `add`. -/
structure Add where
  src : List Char
  dst : List Char
  weight : UInt64

namespace Aggregator

def new : Aggregator := ⟨.empty⟩

def add (a : Aggregator) (c : Add) : Aggregator :=
  let key := CallKey.new c.src c.dst
  ⟨a.counts.set key ((a.counts.get key).getD 0 + c.weight)⟩

def addAll (adds : List Add) : Aggregator := adds.foldl add new

/-- The observations `drain` returns, up to their order. -/
def observations (a : Aggregator) (ts : UInt64) : List Observation :=
  a.counts.entries.map fun e => ⟨e.1.src, e.1.dst, ts, e.2, e.1.kind⟩

end Aggregator

/-! ## Encoding -/

/-- The loop body of `push_json_string`. -/
def escapeChar (c : Char) : List Char :=
  if c = quoteMark then [backslash, quoteMark]
  else if c = backslash then [backslash, backslash]
  else if c.toNat = 0x08 then [backslash, 'b']
  else if c.toNat = 0x09 then [backslash, 't']
  else if c.toNat = 0x0A then [backslash, 'n']
  else if c.toNat = 0x0C then [backslash, 'f']
  else if c.toNat = 0x0D then [backslash, 'r']
  else if c.toNat < 0x20 then ofUtf16 (escapeUnit c.toNat.toUInt16)
  else [c]

def pushJsonString (s : List Char) : List Char := quoteMark :: s.flatMap escapeChar ++ [quoteMark]

def observationText (sampleRate : UInt64) (o : Observation) : RowText where
  src := pushJsonString o.src
  dst := pushJsonString o.dst
  ts := decimalChars o.ts.toNat
  observed := decimalChars o.observed.toNat
  weight := decimalChars (o.observed * sampleRate).toNat
  kind := pushJsonString o.kind

def encodePayload (observations : List Observation) (sampleRate : UInt64) (source : List Char) : List Char :=
  bodyText (pushJsonString source) (decimalChars sampleRate.toNat) (observations.map (observationText sampleRate)) []

structure Flusher where
  sampleRate : UInt64
  source : List Char

/-- `Flusher::new`: `sample_rate.max(1)`. -/
def Flusher.new (sampleRate : UInt64) (source : List Char) : Flusher := ⟨max sampleRate 1, source⟩

/-- The bodies `flush_inner` sends for the observations it drained: one, or none. -/
def Flusher.flushInner (f : Flusher) (obs : List Observation) : List Bytes :=
  if obs = [] then [] else [utf8Encode (encodePayload obs f.sampleRate f.source)]

/-! ## What the daemon reads -/

theorem parseStringBody_escapeChar (c : Char) (s : JsString) :
    parseStringBody (toUtf16 (escapeChar c) ++ s) = (parseStringBody s).map fun p => (charUnits c ++ p.1, p.2) := by
  unfold escapeChar
  split
  case isTrue h => exact parseStringBody_shortEscape 0x22 rfl (by decide) rfl (by decide) (by rw [h]; decide) s
  case isFalse hquote =>
    split
    case isTrue h => exact parseStringBody_shortEscape 0x5C rfl (by decide) rfl (by decide) (by rw [h]; decide) s
    case isFalse hslash =>
      split
      case isTrue h => exact parseStringBody_shortEscape 0x08 rfl (by decide) rfl (by decide) h s
      split
      case isTrue h => exact parseStringBody_shortEscape 0x09 rfl (by decide) rfl (by decide) h s
      split
      case isTrue h => exact parseStringBody_shortEscape 0x0A rfl (by decide) rfl (by decide) h s
      split
      case isTrue h => exact parseStringBody_shortEscape 0x0C rfl (by decide) rfl (by decide) h s
      split
      case isTrue h => exact parseStringBody_shortEscape 0x0D rfl (by decide) rfl (by decide) h s
      split
      case isTrue hlow =>
        exact parseStringBody_unitEscape (by omega) s
      case isFalse hhigh =>
        have hsingle : toUtf16 [c] = charUnits c := by simp [toUtf16]
        rw [hsingle]
        exact parseStringBody_char (Nat.le_of_not_lt hhigh) hquote hslash s

theorem readsQuoted_pushJsonString (s : List Char) : ReadsQuoted (pushJsonString s) (toUtf16 s) :=
  readsQuoted_flatMap parseStringBody_escapeChar s

def wireRow (sampleRate : UInt64) (o : Observation) : WireRow where
  src := toUtf16 o.src
  dst := toUtf16 o.dst
  ts := .num (roundRat ((o.ts.toNat : Int) : Rat))
  observed := .num (roundRat ((o.observed.toNat : Int) : Rat))
  weight := .num (roundRat (((o.observed * sampleRate).toNat : Int) : Rat))
  kind := toUtf16 o.kind

theorem parseJson_encodePayload (observations : List Observation) (sampleRate : UInt64) (source : List Char) :
    parseJson (textDecode (utf8Encode (encodePayload observations sampleRate source))) =
      some (wireBody (toUtf16 source) (.num (roundRat ((sampleRate.toNat : Int) : Rat)))
        (observations.map (wireRow sampleRate)) []) := by
  apply parseJson_bodyText (readsQuoted_pushJsonString source) (readsNumeric_decimalChars _) _ .nil
  rw [List.forall₂_map_left_iff, List.forall₂_map_right_iff, List.forall₂_same]
  intro o _
  exact ⟨readsQuoted_pushJsonString o.src, readsQuoted_pushJsonString o.dst, readsNumeric_decimalChars _,
    readsNumeric_decimalChars _, readsNumeric_decimalChars _, readsQuoted_pushJsonString o.kind⟩

theorem toUtf16_eq_nil {cs : List Char} : toUtf16 cs = [] ↔ cs = [] := by
  constructor
  · intro h
    have hback := ofUtf16_toUtf16 cs
    rw [h] at hback
    exact hback.symm
  · rintro rfl
    rfl

/-- A row passes if it has names and its estimate fits 16 bits. -/
theorem wireRow_fits_iff {sampleRate : UInt64} (hrate : 1 ≤ sampleRate.toNat) (o : Observation) :
    (wireRow sampleRate o).Fits (roundNat sampleRate.toNat) ↔
      o.src ≠ [] ∧ o.dst ≠ [] ∧ o.observed.toNat * sampleRate.toNat ≤ uint16Max := by
  have hts := o.ts.toNat_lt
  have hwrap : (0 : Int) ≤ o.observed.toNat → (o.observed.toNat : Int) * sampleRate.toNat < 2 ^ 63 →
      ((o.observed * sampleRate).toNat : Int) = o.observed.toNat * sampleRate.toNat := by
    intro _ hlt
    have hnat : o.observed.toNat * sampleRate.toNat < 2 ^ 63 := by exact_mod_cast hlt
    rw [UInt64.toNat_mul, Nat.mod_eq_of_lt (by omega)]
    push_cast
    rfl
  have hcounts := counts_fit_iff hrate hwrap
  have hcast : ((o.observed.toNat : Int) * sampleRate.toNat ≤ uint16Max) ↔
      o.observed.toNat * sampleRate.toNat ≤ uint16Max := by exact_mod_cast Iff.rfl
  rw [hcast] at hcounts
  constructor
  · rintro ⟨hsrc, hdst, -, hfit⟩
    exact ⟨fun h => hsrc (toUtf16_eq_nil.2 h), fun h => hdst (toUtf16_eq_nil.2 h), (hcounts.1 hfit).2⟩
  · rintro ⟨hsrc, hdst, hfit⟩
    exact ⟨fun h => hsrc (toUtf16_eq_nil.1 h), fun h => hdst (toUtf16_eq_nil.1 h),
      ⟨_, roundRat_natAbs (by simpa using hts)⟩, hcounts.2 ⟨by omega, hfit⟩⟩

/-! ## The edges that were recorded -/

/-- The edges of the calls, as the daemon would name them. -/
def recorded (adds : List Add) : List (JsString × JsString) := adds.map fun c => (toUtf16 c.src, toUtf16 c.dst)

theorem get_addAll_isSome (adds : List Add) (k : CallKey) :
    (∃ v, (Aggregator.addAll adds).counts.get k = some v) ↔ ∃ c ∈ adds, CallKey.new c.src c.dst = k := by
  have hkeys := mem_keys_foldl Aggregator.add Aggregator.counts (fun c => CallKey.new c.src c.dst) (fun _ => True)
    (fun a c _ => ⟨_, rfl⟩) (fun a c h => absurd trivial h) adds Aggregator.new k
  rw [Aggregator.addAll, hkeys]
  simp [Aggregator.new]

theorem recorded_iff (adds : List Add) (ts sampleRate : UInt64) (obs : List Observation)
    (hobs : obs.Perm ((Aggregator.addAll adds).observations ts)) (edge : JsString × JsString) :
    edge ∈ recorded adds ↔ ∃ row ∈ obs.map (wireRow sampleRate), edge = (row.src, row.dst) := by
  simp only [recorded, List.mem_map, exists_exists_and_eq_and, wireRow]
  constructor
  · rintro ⟨c, hc, rfl⟩
    obtain ⟨v, hv⟩ := (get_addAll_isSome adds (CallKey.new c.src c.dst)).2 ⟨c, hc, rfl⟩
    refine ⟨⟨c.src, c.dst, ts, v, "call".toList⟩, hobs.mem_iff.2 ?_, rfl⟩
    exact List.mem_map.2 ⟨_, KeyedMap.get_eq_some.1 hv, rfl⟩
  · rintro ⟨o, ho, rfl⟩
    obtain ⟨e, he, rfl⟩ := List.mem_map.1 (hobs.mem_iff.1 ho)
    obtain ⟨c, hc, heq⟩ := (get_addAll_isSome adds e.1).1 ⟨e.2, KeyedMap.get_eq_some.2 he⟩
    exact ⟨c, hc, by rw [← heq]; rfl⟩

/-- What a flush drained reaches the daemon exactly if it has a source, names, and counts whose
estimates fit 16 bits. -/
theorem flush_delivers_iff (rt : NumberText) (adds : List Add) (rate ts : UInt64) (source : List Char)
    {obs : List Observation} (hobs : obs.Perm ((Aggregator.addAll adds).observations ts)) :
    Delivers rt id ((Flusher.new rate source).flushInner obs) (recorded adds) ↔
      (obs ≠ [] → source ≠ []) ∧ ∀ o ∈ obs, o.src ≠ [] ∧ o.dst ≠ [] ∧ o.observed.toNat * max rate.toNat 1 ≤ uint16Max := by
  by_cases hne : obs = []
  · subst hne
    have hnone : recorded adds = [] := by
      apply List.eq_nil_iff_forall_not_mem.2
      intro edge hedge
      obtain ⟨row, hrow, -⟩ := (recorded_iff adds ts rate [] hobs edge).1 hedge
      exact absurd hrow List.not_mem_nil
    rw [Flusher.flushInner, if_pos rfl, hnone]
    simp [delivers_nil]
  · have hmax : (Flusher.new rate source).sampleRate.toNat = max rate.toNat 1 := by
      show (if rate ≤ 1 then 1 else rate).toNat = max rate.toNat 1
      split
      case isTrue h =>
        rw [UInt64.le_iff_toNat_le] at h
        exact (max_eq_right h).symm
      case isFalse h =>
        rw [UInt64.le_iff_toNat_le, not_le] at h
        exact (max_eq_left (le_of_lt h)).symm
    have hpos : 1 ≤ (Flusher.new rate source).sampleRate.toNat := hmax ▸ le_max_right _ _
    obtain ⟨hrate, hround⟩ := numberValue_rate hpos (UInt64.toNat_lt _)
    rw [Flusher.flushInner, if_neg hne, delivers_one (parseJson_encodePayload obs _ _) (.inr ⟨_, rfl⟩)]
    · have hsource : toUtf16 (Flusher.new rate source).source ≠ [] ↔ (obs ≠ [] → source ≠ []) := by
        rw [Ne, toUtf16_eq_nil]
        exact ⟨fun h _ => h, fun h => h hne⟩
      simp only [id_eq]
      rw [and_iff_left (recorded_iff adds ts _ obs hobs), bodyFits_iff hrate hround, hsource, ← hmax]
      simp only [List.forall_mem_map, wireRow_fits_iff hpos]
    · intro row hrow
      obtain ⟨o, -, rfl⟩ := List.mem_map.1 hrow
      exact ⟨.inr ⟨_, rfl⟩, .inr ⟨_, rfl⟩, .inr ⟨_, rfl⟩⟩
    · exact fun _ h => absurd h List.not_mem_nil

end Hayven.Trace.Rust
