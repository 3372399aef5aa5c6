import Hayven.Lib.DecimalText
import Hayven.Trace.BunCollector
import Hayven.Trace.GoCollector
import Hayven.Trace.RustCollector
/-!
# Drained batches at the daemon

What one of the collectors recorded, what a drain took from it, and the bodies its flush
posts. The Rust encoder multiplies the counts as they come and its aggregator admits empty
names; the other two cut the counts to 16 bits and drop such calls.
-/
open Hayven.Lib Hayven.Daemon

namespace Hayven.Trace

/-- The calls a collector took since its last drain, the drained rows in the order the map gave
them, and the settings of its flusher. -/
inductive Drained where
  | rust (adds : List Rust.Add) (rate ts : UInt64) (source : List Char) (obs : List Rust.Observation)
      (drained : obs.Perm ((Rust.Aggregator.addAll adds).observations ts))
  | go (adds : List Go.Add) (rate ts : Int64) (source : Bytes) (obs : List Go.Observation)
      (cov : List Go.CoverageRow) (drained : obs.Perm ((Go.Aggregator.addAll adds).observations ts))
  | bun (adds : List Bun.Add) (rate : JsNumber) (ts : Bun.Seconds) (source : JsString) (cov : List Bun.CoverageRow)
      (number : Bun.IsNumber rate)

namespace Drained

/-- Every body the flush posts is accepted, and the names the daemon reads are those recorded. -/
def Accepted (rt : NumberText) : Drained → Prop
  | .rust adds rate _ source obs _ =>
    Delivers rt id ((Rust.Flusher.new rate source).flushInner obs) (Rust.recorded adds)
  | .go adds rate _ source obs cov _ =>
    Delivers rt textEncode ((Go.newFlusher rate source).flushOnce obs cov) (Go.recorded adds)
  | .bun adds rate ts source cov _ =>
    Delivers rt id ((Bun.Flusher.new rate source).doFlush rt ((Bun.Aggregator.addAll adds).drain ts) cov)
      (Bun.recorded adds)

/-- The rows and settings that each collector's encoder handles. -/
def Encodable : Drained → Prop
  | .rust _ rate _ source obs _ =>
    (obs ≠ [] → source ≠ []) ∧
      ∀ o ∈ obs, o.src ≠ [] ∧ o.dst ≠ [] ∧ o.observed.toNat * max rate.toNat 1 ≤ uint16Max
  | .go _ rate _ _ obs _ _ =>
    ∀ o ∈ obs, Go.Utf8 o.src ∧ Go.Utf8 o.dst ∧ Go.InRange o.observed.toInt (max rate.toInt 1)
  | .bun adds rate ts source cov _ =>
    ((Bun.Aggregator.addAll adds).drain ts ≠ [] ∨ cov ≠ [] → source ≠ [] ∧ rate ≠ .nan ∧ rate ≠ .posInf) ∧
      ∀ edge ∈ Bun.recorded adds, Bun.sep ∉ edge.1 ∧ Bun.sep ∉ edge.2

end Drained

theorem Go.sampleRate_newFlusher (rate : Int64) (source : Bytes) :
    (Go.newFlusher rate source).sampleRate.toInt = max rate.toInt 1 := by
  show (if rate < 1 then 1 else rate).toInt = max rate.toInt 1
  have hone : (1 : Int64).toInt = 1 := rfl
  split
  case isTrue h =>
    rw [Int64.lt_iff_toInt_lt, hone] at h
    rw [hone, max_eq_right (le_of_lt h)]
  case isFalse h =>
    rw [Int64.lt_iff_toInt_lt, hone, not_lt] at h
    rw [max_eq_left h]

/-- A drained batch is accepted, with its names, exactly if the encoder handles its rows. -/
theorem drained_accepted_iff {rt : NumberText} (hrt : rt.Lossless) (d : Drained) : d.Accepted rt ↔ d.Encodable := by
  cases d with
  | rust adds rate ts source obs drained => exact Rust.flush_delivers_iff rt adds rate ts source drained
  | go adds rate ts source obs cov drained =>
    have h := Go.flush_delivers_iff drained rt (Go.newFlusher rate source) cov
    rw [Go.sampleRate_newFlusher] at h
    exact h
  | bun adds rate ts source cov number => exact Bun.flush_delivers_iff hrt adds ts number source cov

/-- One edge recorded with the weight `n`, at a rate of 100. -/
def oneEdge (n : UInt64) : Drained :=
  .rust [⟨['a'], ['b'], n⟩] 100 0 ['r'] ((Rust.Aggregator.addAll [⟨['a'], ['b'], n⟩]).observations 0) (List.Perm.refl _)

theorem drained_accepted_iff_light : decimalNumberText.Lossless ∧ (oneEdge 655).Accepted decimalNumberText := by
  have hlossless := decimalNumberText_documented.lossless
  refine ⟨hlossless, (drained_accepted_iff hlossless (oneEdge 655)).2 ⟨fun _ => List.cons_ne_nil _ _, ?_⟩⟩
  intro o ho
  rw [List.mem_singleton.1 ho]
  exact ⟨List.cons_ne_nil _ _, List.cons_ne_nil _ _, by decide⟩

/-- 656 calls at a rate of 100 are estimated at 65600, over the daemon's bound. -/
theorem heavyEdge_refused : ¬ (oneEdge 656).Accepted decimalNumberText := by
  intro haccepted
  obtain ⟨-, hrows⟩ := (Rust.flush_delivers_iff decimalNumberText [⟨['a'], ['b'], 656⟩] 100 0 ['r'] (List.Perm.refl _)).1
    haccepted
  have hmem : (⟨['a'], ['b'], 0, 656, "call".toList⟩ : Rust.Observation) ∈
      (Rust.Aggregator.addAll [⟨['a'], ['b'], 656⟩]).observations 0 := List.Mem.head _
  obtain ⟨-, -, hfit⟩ := hrows _ hmem
  exact absurd hfit (by decide)

end Hayven.Trace
