import Mathlib.Order.BoundedOrder.Lattice
import Mathlib.Data.List.Induction
import Mathlib.Data.List.Nodup
/-!
# The unique best of a list

A scan keeps the best element seen and whether another one ties with it. Elements of
the lowest score are never chosen. What the scan ends with does not depend on the
order of the elements: `uniqueBest_eq_some`.
-/

namespace Hayven.Lib

section UniqueBest
variable {α β : Type} [LinearOrder β] [OrderBot β]

/-- The state of the scan. -/
structure Leader (α β : Type) where
  best : Option α
  score : β
  tie : Bool

namespace Leader

def start : Leader α β := ⟨none, ⊥, false⟩

def consider (score : α → β) (s : Leader α β) (a : α) : Leader α β :=
  if score a = ⊥ then s
  else if s.score < score a then ⟨some a, score a, false⟩
  else if score a = s.score then { s with tie := true }
  else s

def winner (s : Leader α β) : Option α := if s.tie then none else s.best

end Leader

def uniqueBest (score : α → β) (l : List α) : Option α := (l.foldl (Leader.consider score) .start).winner

/-- What the scan knows of the elements it has seen. -/
structure Leads (score : α → β) (l : List α) (s : Leader α β) : Prop where
  none : s.best = none → s.score = ⊥ ∧ s.tie = false
  some : ∀ a, s.best = some a → a ∈ l ∧ s.score = score a ∧ ⊥ < score a ∧
    (s.tie = true ↔ ∃ b ∈ l, b ≠ a ∧ score b = score a)
  upper : ∀ b ∈ l, score b ≤ s.score

variable {score : α → β}

theorem leads_start : Leads score [] (.start : Leader α β) := by
  constructor
  · intro _
    exact ⟨rfl, rfl⟩
  · rintro a ⟨⟩
  · rintro b ⟨⟩

theorem Leads.consider {l : List α} {s : Leader α β} (h : Leads score l s) {a : α} (ha : a ∉ l) :
    Leads score (l ++ [a]) (s.consider score a) := by
  have hmem : ∀ b, b ∈ l ++ [a] ↔ b ∈ l ∨ b = a := by simp
  have hbound : s.score < score a ∨ score a = s.score ∨ score a < s.score := by
    rcases lt_trichotomy s.score (score a) with hlt | heq | hgt
    · exact .inl hlt
    · exact .inr (.inl heq.symm)
    · exact .inr (.inr hgt)
  unfold Leader.consider
  by_cases hbot : score a = ⊥
  · rw [if_pos hbot]
    refine ⟨h.none, fun b hb => ?_, fun b hb => ?_⟩
    · obtain ⟨hbl, hscore, hpos, htie⟩ := h.some b hb
      refine ⟨(hmem b).2 (.inl hbl), hscore, hpos, htie.trans ⟨?_, ?_⟩⟩
      · rintro ⟨c, hc, hne, heq⟩
        exact ⟨c, (hmem c).2 (.inl hc), hne, heq⟩
      · rintro ⟨c, hc, hne, heq⟩
        rcases (hmem c).1 hc with hc | rfl
        · exact ⟨c, hc, hne, heq⟩
        · exact absurd (hbot.symm.trans heq) hpos.ne
    · rcases (hmem b).1 hb with hb | rfl
      · exact h.upper b hb
      · rw [hbot]
        exact bot_le
  rw [if_neg hbot]
  rcases hbound with hlt | heq | hgt
  · rw [if_pos hlt]
    refine ⟨(by rintro ⟨⟩), fun b hb => ?_, fun b hb => ?_⟩
    · obtain rfl : a = b := Option.some.inj hb
      refine ⟨(hmem a).2 (.inr rfl), rfl, bot_lt_iff_ne_bot.2 hbot, ?_⟩
      constructor
      · rintro ⟨⟩
      · rintro ⟨c, hc, hne, heq⟩
        rcases (hmem c).1 hc with hc | rfl
        · exact absurd (h.upper c hc) (not_le.2 (heq ▸ hlt))
        · exact absurd rfl hne
    · rcases (hmem b).1 hb with hb | rfl
      · exact (h.upper b hb).trans hlt.le
      · exact le_rfl
  · rw [if_neg (not_lt.2 heq.le), if_pos heq]
    refine ⟨fun hnone => ?_, fun b hb => ?_, fun b hb => ?_⟩
    · exact absurd (heq.trans (h.none hnone).1) hbot
    · obtain ⟨hbl, hscore, hpos, -⟩ := h.some b hb
      refine ⟨(hmem b).2 (.inl hbl), hscore, hpos, fun _ => ?_, fun _ => rfl⟩
      refine ⟨a, (hmem a).2 (.inr rfl), ?_, heq.trans hscore⟩
      rintro rfl
      exact ha hbl
    · rcases (hmem b).1 hb with hb | rfl
      · exact h.upper b hb
      · exact heq.le
  · rw [if_neg (not_lt.2 hgt.le), if_neg hgt.ne]
    refine ⟨h.none, fun b hb => ?_, fun b hb => ?_⟩
    · obtain ⟨hbl, hscore, hpos, htie⟩ := h.some b hb
      refine ⟨(hmem b).2 (.inl hbl), hscore, hpos, htie.trans ⟨?_, ?_⟩⟩
      · rintro ⟨c, hc, hne, heq⟩
        exact ⟨c, (hmem c).2 (.inl hc), hne, heq⟩
      · rintro ⟨c, hc, hne, heq⟩
        rcases (hmem c).1 hc with hc | rfl
        · exact ⟨c, hc, hne, heq⟩
        · exact absurd (heq.trans hscore.symm) hgt.ne
    · rcases (hmem b).1 hb with hb | rfl
      · exact h.upper b hb
      · exact hgt.le

theorem leads_foldl : ∀ {l : List α}, l.Nodup → Leads score l (l.foldl (Leader.consider score) .start) := by
  intro l
  induction l using List.reverseRecOn with
  | nil => exact fun _ => leads_start
  | append_singleton l a ih =>
    intro hnodup
    rw [List.nodup_append] at hnodup
    rw [List.foldl_append]
    apply (ih hnodup.1).consider
    intro ha
    exact hnodup.2.2 a ha a (List.mem_singleton_self a) rfl

/-- The scan ends with an element exactly if all others score strictly less. -/
theorem uniqueBest_eq_some {l : List α} (hnodup : l.Nodup) {a : α} :
    uniqueBest score l = some a ↔ a ∈ l ∧ ⊥ < score a ∧ ∀ b ∈ l, b ≠ a → score b < score a := by
  have hleads : Leads score l (l.foldl (Leader.consider score) .start) := leads_foldl hnodup
  unfold uniqueBest Leader.winner
  generalize l.foldl (Leader.consider score) .start = s at hleads
  constructor
  · intro h
    by_cases htie : s.tie = true
    · rw [if_pos htie] at h
      cases h
    rw [if_neg htie] at h
    obtain ⟨ha, hscore, hpos, htied⟩ := hleads.some a h
    refine ⟨ha, hpos, fun b hb hne => lt_of_le_of_ne (hscore ▸ hleads.upper b hb) fun heq => ?_⟩
    exact htie (htied.2 ⟨b, hb, hne, heq⟩)
  · rintro ⟨ha, hpos, hbest⟩
    have hupper := hleads.upper a ha
    cases hs : s.best with
    | none =>
      rw [(hleads.none hs).1] at hupper
      exact absurd (lt_of_lt_of_le hpos hupper) (lt_irrefl _)
    | some b =>
      obtain ⟨hb, hscore, -, htied⟩ := hleads.some b hs
      obtain rfl : b = a := by
        by_contra hne
        exact absurd (hscore ▸ hupper) (not_le.2 (hbest b hb hne))
      rw [if_neg]
      intro htie
      obtain ⟨c, hc, hne, heq⟩ := htied.1 htie
      exact absurd heq (hbest c hc hne).ne

/-- Lists with the same members have the same unique best. -/
theorem uniqueBest_congr {l l' : List α} (h : l.Nodup) (h' : l'.Nodup) (hmem : ∀ a, a ∈ l ↔ a ∈ l') :
    uniqueBest score l = uniqueBest score l' := by
  refine Option.ext fun a => ?_
  rw [uniqueBest_eq_some h, uniqueBest_eq_some h', hmem a]
  simp only [hmem]

end UniqueBest

end Hayven.Lib
