import Mathlib.Algebra.Order.BigOperators.Group.List
import Mathlib.Algebra.Order.Group.Nat
import Mathlib.Algebra.Ring.Nat
import Hayven.Lib.KeyedMap
/-!
# Tallies

Amounts that add up under a key. What a tally holds is the sum of the amounts noted
under the key, in whatever order they came: `get_foldl_tally`. Moving rows to other
keys adds them up there: `get_moveAll`.
-/

namespace Hayven.Lib
variable {κ β : Type} [DecidableEq κ]

/-! ## Totals -/

/-- What the members of a list under a key add up to, nothing without members. -/
def total (key : β → κ) (amount : β → Nat) (l : List β) (k : κ) : Option Nat :=
  if ∃ b ∈ l, key b = k then some ((l.filter (key · = k)).map amount).sum else none

section Total
variable (key : β → κ) (amount : β → Nat) (k : κ)

theorem total_nil : total key amount [] k = none := by simp [total]

theorem total_cons (b : β) (l : List β) :
    total key amount (b :: l) k =
      if key b = k then some (amount b + (total key amount l k).getD 0) else total key amount l k := by
  by_cases hb : key b = k
  · by_cases hrest : ∃ b ∈ l, key b = k
    · simp [total, hb, hrest]
    · have hnone : l.filter (key · = k) = [] := by
        rw [List.filter_eq_nil_iff]
        intro c hc
        simpa using fun h => hrest ⟨c, hc, h⟩
      simp [total, hb, hrest, hnone]
  · simp [total, hb]

variable {key amount k}

theorem total_eq_none {l : List β} : total key amount l k = none ↔ ∀ b ∈ l, key b ≠ k := by
  simp [total]

theorem total_perm {l l' : List β} (h : l.Perm l') : total key amount l k = total key amount l' k := by
  have hmem : (∃ b ∈ l, key b = k) ↔ ∃ b ∈ l', key b = k := by simp [h.mem_iff]
  simp only [total, hmem]
  rw [((h.filter _).map amount).sum_eq]

/-- Members under other keys do not count. -/
theorem total_filter {p : β → Bool} {l : List β} (h : ∀ b ∈ l, key b = k → p b = true) :
    total key amount (l.filter p) k = total key amount l k := by
  induction l with
  | nil => rfl
  | cons b l ih =>
    have ih := ih fun c hc => h c (List.mem_cons_of_mem b hc)
    by_cases hp : p b = true
    · rw [List.filter_cons_of_pos hp, total_cons, total_cons, ih]
    · have hkey : key b ≠ k := fun hk => hp (h b List.mem_cons_self hk)
      rw [List.filter_cons_of_neg hp, total_cons, if_neg hkey, ih]

theorem total_map {γ : Type} (f : γ → β) (l : List γ) :
    total key amount (l.map f) k = total (fun c => key (f c)) (fun c => amount (f c)) l k := by
  induction l with
  | nil => rfl
  | cons c l ih => rw [List.map_cons, total_cons, total_cons, ih]

/-- Members that do not come from `p` do not count if they have other keys. -/
theorem total_filterMap_filter {γ : Type} {f : γ → Option β} {p : γ → Bool} {l : List γ}
    (h : ∀ c ∈ l, ∀ b, f c = some b → key b = k → p c = true) :
    total key amount ((l.filter p).filterMap f) k = total key amount (l.filterMap f) k := by
  induction l with
  | nil => rfl
  | cons c l ih =>
    have ih := ih fun c' hc' => h c' (List.mem_cons_of_mem c hc')
    cases hf : f c with
    | none =>
      rw [List.filterMap_cons_none hf, ← ih]
      by_cases hp : p c = true
      · rw [List.filter_cons_of_pos hp, List.filterMap_cons_none hf]
      · rw [List.filter_cons_of_neg hp]
    | some b =>
      rw [List.filterMap_cons_some hf, total_cons, ← ih]
      by_cases hp : p c = true
      · rw [List.filter_cons_of_pos hp, List.filterMap_cons_some hf, total_cons]
      · have hkey : key b ≠ k := fun hk => hp (h c List.mem_cons_self b hf hk)
        rw [List.filter_cons_of_neg hp, if_neg hkey]

/-- Two ways to key the same members, where they agree. -/
theorem total_filterMap_congr {γ δ : Type} {key' : δ → κ} {amount' : δ → Nat} {f : γ → Option β} {g : γ → Option δ}
    {l : List γ} (h : ∀ c ∈ l, (f c).map (fun b => (key b, amount b)) = (g c).map fun d => (key' d, amount' d)) :
    total key amount (l.filterMap f) k = total key' amount' (l.filterMap g) k := by
  induction l with
  | nil => rw [List.filterMap_nil, List.filterMap_nil, total_nil, total_nil]
  | cons c l ih =>
    have ih := ih fun c' hc' => h c' (List.mem_cons_of_mem c hc')
    have hc := h c List.mem_cons_self
    cases hf : f c with
    | none =>
      cases hg : g c with
      | none => rw [List.filterMap_cons_none hf, List.filterMap_cons_none hg, ih]
      | some d => simp [hf, hg] at hc
    | some b =>
      cases hg : g c with
      | none => simp [hf, hg] at hc
      | some d =>
        simp only [hf, hg, Option.map_some, Option.some.injEq, Prod.mk.injEq] at hc
        rw [List.filterMap_cons_some hf, List.filterMap_cons_some hg, total_cons, total_cons, ih, hc.1, hc.2]

end Total

/-! ## Sums by key -/

/-- What the members of a list under a key add up to. -/
def sumAt (key : β → κ) (amount : β → Nat) (l : List β) (k : κ) : Nat := ((l.filter (key · = k)).map amount).sum

section Sums
variable {key : β → κ} {amount : β → Nat} {k : κ}

@[simp] theorem sumAt_nil : sumAt key amount [] k = 0 := rfl

theorem sumAt_cons (b : β) (l : List β) :
    sumAt key amount (b :: l) k = (if key b = k then amount b else 0) + sumAt key amount l k := by
  by_cases hb : key b = k <;> simp [sumAt, hb]

theorem sumAt_append (l l' : List β) :
    sumAt key amount (l ++ l') k = sumAt key amount l k + sumAt key amount l' k := by
  simp [sumAt]

theorem sumAt_map {γ : Type} (f : γ → β) (l : List γ) :
    sumAt key amount (l.map f) k = sumAt (key ∘ f) (amount ∘ f) l k := by
  induction l with
  | nil => rfl
  | cons c l ih => rw [List.map_cons, sumAt_cons, sumAt_cons, ih]; rfl

theorem sumAt_congr {key' : β → κ} {amount' : β → Nat} {l : List β}
    (h : ∀ b ∈ l, key b = key' b ∧ amount b = amount' b) : sumAt key amount l k = sumAt key' amount' l k := by
  induction l with
  | nil => rfl
  | cons b l ih =>
    obtain ⟨hkey, hamount⟩ := h b List.mem_cons_self
    rw [sumAt_cons, sumAt_cons, ih fun c hc => h c (List.mem_cons_of_mem _ hc), hkey, hamount]

theorem le_sumAt (key : β → κ) (amount : β → Nat) {l : List β} {b : β} (h : b ∈ l) :
    amount b ≤ sumAt key amount l (key b) := by
  apply List.single_le_sum (fun _ _ => Nat.zero_le _)
  exact List.mem_map_of_mem (f := amount) (List.mem_filter.2 ⟨h, decide_eq_true rfl⟩)

end Sums

/-- Without the members of amount 0, a key is there exactly when it adds up to something. -/
theorem total_filter_pos (key : β → κ) (amount : β → Nat) (l : List β) (k : κ) :
    total key amount (l.filter fun b => 0 < amount b) k =
      if 0 < sumAt key amount l k then some (sumAt key amount l k) else none := by
  induction l with
  | nil => simp [total_nil]
  | cons b l ih =>
    rw [List.filter_cons, sumAt_cons]
    by_cases hkey : key b = k
    · rw [if_pos hkey]
      by_cases hpos : 0 < amount b
      · have hsum : 0 < amount b + sumAt key amount l k := Nat.add_pos_left hpos _
        rw [if_pos (by simpa using hpos), total_cons, if_pos hkey, ih, if_pos hsum]
        rcases Nat.eq_zero_or_pos (sumAt key amount l k) with hzero | hrest
        · simp [hzero]
        · simp [hrest]
      · rw [if_neg (by simpa using hpos), ih, Nat.eq_zero_of_not_pos hpos, Nat.zero_add]
    · rw [if_neg hkey, Nat.zero_add, ← ih]
      split
      · rw [total_cons, if_neg hkey]
      · rfl

theorem sumAt_add (key : β → κ) (f g : β → Nat) (l : List β) (i : κ) :
    sumAt key f l i + sumAt key g l i = sumAt key (fun b => f b + g b) l i := by
  induction l with
  | nil => rfl
  | cons b l ih =>
    rw [sumAt_cons, sumAt_cons, sumAt_cons, ← ih]
    split_ifs <;> omega

theorem sumAt_le_sum (key : β → κ) (amount : β → Nat) (l : List β) (i : κ) :
    sumAt key amount l i ≤ (l.map amount).sum :=
  (List.filter_sublist.map amount).sum_le_sum fun _ _ => Nat.zero_le _

/-- Setting a key takes out what was under it and puts the new amount in. -/
theorem sumAt_setKey {α ι : Type} [DecidableEq ι] (group : κ → ι) (amount : α → Nat) (k : κ) (v : α)
    (l : List (κ × α)) (i : ι) :
    sumAt (fun e => group e.1) (fun e => amount e.2) (setKey k v l) i +
        (if group k = i then ((lookupKey k l).map amount).getD 0 else 0) =
      sumAt (fun e => group e.1) (fun e => amount e.2) l i + if group k = i then amount v else 0 := by
  induction l with
  | nil => simp [setKey, lookupKey, sumAt_cons]
  | cons e l ih =>
    obtain ⟨k', v'⟩ := e
    by_cases hk : k' = k
    · subst hk
      simp only [setKey, lookupKey, if_true, sumAt_cons, Option.map_some, Option.getD_some]
      split_ifs <;> omega
    · simp only [setKey, lookupKey, hk, if_false, sumAt_cons]
      omega

/-- Replacing one member of a list exchanges its share of a sum. -/
theorem sum_map_modify (W : β → Nat) (g : β → β) {l : List β} {i : Nat} {a : β} (h : l[i]? = some a) :
    ((l.modify i g).map W).sum + W a = (l.map W).sum + W (g a) := by
  induction l generalizing i with
  | nil => simp at h
  | cons b l ih =>
    cases i with
    | zero =>
      simp only [List.getElem?_cons_zero, Option.some.injEq] at h
      subst h
      simp only [List.modify_zero_cons, List.map_cons, List.sum_cons]
      omega
    | succ i =>
      rw [List.getElem?_cons_succ] at h
      have := ih h
      simp only [List.modify_succ_cons, List.map_cons, List.sum_cons]
      omega

/-! ## Tallies -/

/-- One more amount under a key. -/
def tally (m : KeyedMap κ Nat) (k : κ) (amount : Nat) : KeyedMap κ Nat := m.set k ((m.get k).getD 0 + amount)

theorem get_foldl_tally (key : β → κ) (amount : β → Nat) (l : List β) (m : KeyedMap κ Nat) (k : κ) :
    (l.foldl (fun m b => tally m (key b) (amount b)) m).get k =
      match total key amount l k with
      | none => m.get k
      | some n => some ((m.get k).getD 0 + n) := by
  induction l generalizing m with
  | nil => simp [total]
  | cons b l ih =>
    rw [List.foldl_cons, ih, tally, KeyedMap.get_set, total_cons]
    by_cases hb : key b = k
    · rw [if_pos hb, if_pos hb, hb]
      cases total key amount l k <;> simp [Nat.add_assoc]
    · rw [if_neg hb, if_neg hb]

theorem get_tally_empty (key : β → κ) (amount : β → Nat) (l : List β) (k : κ) :
    (l.foldl (fun m b => tally m (key b) (amount b)) KeyedMap.empty).get k = total key amount l k := by
  rw [get_foldl_tally]
  cases total key amount l k <;> simp

/-! ## Rows under other keys -/

section Regroup
variable {ι : Type} [DecidableEq ι] (group : κ → ι)

/-- What the rows of a map add up to, group by group. -/
def regroup (m : KeyedMap κ Nat) (i : ι) : Option Nat := total (fun row => group row.1) (·.2) m.entries i

theorem total_setKey (k : κ) (amount : Nat) (l : List (κ × Nat)) (i : ι) :
    total (fun row => group row.1) (·.2) (setKey k ((lookupKey k l).getD 0 + amount) l) i =
      if group k = i then some (amount + (total (fun row => group row.1) (·.2) l i).getD 0)
      else total (fun row => group row.1) (·.2) l i := by
  induction l with
  | nil => simp [setKey, lookupKey, total_cons, total_nil]
  | cons row l ih =>
    obtain ⟨k', v⟩ := row
    by_cases hk : k' = k
    · subst hk
      simp only [setKey, lookupKey, if_true, total_cons, Option.getD_some]
      by_cases hi : group k' = i
      · simp only [hi, if_true, Option.getD_some]
        rw [Nat.add_comm v, Nat.add_assoc]
      · simp only [hi, if_false]
    · simp only [setKey, lookupKey, hk, if_false, total_cons, ih]
      by_cases hi : group k = i <;> by_cases hi' : group k' = i <;> simp [hi, hi', Nat.add_left_comm]

theorem regroup_tally (m : KeyedMap κ Nat) (k : κ) (amount : Nat) (i : ι) :
    regroup group (tally m k amount) i =
      if group k = i then some (amount + (regroup group m i).getD 0) else regroup group m i :=
  total_setKey group k amount m.entries i

/-- Regrouping the rows of a tally is tallying by group. -/
theorem regroup_foldl_tally (key : β → κ) (amount : β → Nat) (l : List β) (i : ι) :
    regroup group (l.foldl (fun m b => tally m (key b) (amount b)) KeyedMap.empty) i =
      total (fun b => group (key b)) amount l i := by
  have hfrom : ∀ m : KeyedMap κ Nat, regroup group (l.foldl (fun m b => tally m (key b) (amount b)) m) i =
      match total (fun b => group (key b)) amount l i with
      | none => regroup group m i
      | some n => some ((regroup group m i).getD 0 + n) := by
    induction l with
    | nil => intro m; rfl
    | cons b l ih =>
      intro m
      rw [List.foldl_cons, ih, regroup_tally, total_cons]
      by_cases hi : group (key b) = i
      · rw [if_pos hi, if_pos hi]
        cases total (fun b => group (key b)) amount l i with
        | none => simp [Nat.add_comm]
        | some n =>
          simp only [Option.getD_some, Option.some.injEq]
          omega
      · rw [if_neg hi, if_neg hi]
  rw [hfrom]
  cases total (fun b => group (key b)) amount l i with
  | none => rfl
  | some n => simp [regroup, KeyedMap.empty, total_nil]

/-- Only the rows of a group decide on it. -/
theorem regroup_congr {m m' : KeyedMap κ Nat} {i : ι} (h : ∀ k, group k = i → m.get k = m'.get k) :
    regroup group m i = regroup group m' i := by
  have hfilter : ∀ m : KeyedMap κ Nat,
      regroup group m i = regroup group (m.filter fun k _ => decide (group k = i)) i := by
    intro m
    exact (total_filter fun row _ hi => by simpa using hi).symm
  rw [hfilter m, hfilter m']
  refine total_perm (KeyedMap.entries_perm fun k => ?_)
  rw [KeyedMap.get_filter, KeyedMap.get_filter]
  by_cases hi : group k = i
  · rw [h k hi]
  · cases m.get k <;> cases m'.get k <;> simp [Option.filter, hi]

theorem regroup_erase {m : KeyedMap κ Nat} {k : κ} {amount : Nat} (h : m.get k = some amount) (i : ι) :
    regroup group m i =
      if group k = i then some (amount + (regroup group (m.erase k) i).getD 0) else regroup group (m.erase k) i := by
  rw [regroup, total_perm (KeyedMap.entries_perm_erase h), total_cons]
  rfl

end Regroup

/-- Rows that are regrouped twice are regrouped by both groups in turn. -/
theorem regroup_regroup {ι : Type} [DecidableEq ι] (group : κ → ι) {move : κ → κ} {m m' : KeyedMap κ Nat}
    (h : ∀ k, m'.get k = regroup move m k) (i : ι) : regroup group m' i = regroup (fun k => group (move k)) m i := by
  have hrows : ∀ k, m'.get k =
      (m.entries.foldl (fun m row => tally m (move row.1) row.2) KeyedMap.empty).get k := by
    intro k
    rw [h, regroup, get_tally_empty]
  rw [regroup_congr group fun k _ => hrows k, regroup_foldl_tally, regroup]

theorem regroup_self (m : KeyedMap κ Nat) (k : κ) : regroup (fun k => k) m k = m.get k := by
  obtain ⟨l, hl⟩ := m
  show total (fun row => row.1) (·.2) l k = lookupKey k l
  induction l with
  | nil => rfl
  | cons row l ih =>
    obtain ⟨k', v⟩ := row
    obtain ⟨hnew, hrest⟩ := List.nodup_cons.1 hl
    rw [total_cons, lookupKey, ih hrest]
    by_cases hk : k' = k
    · subst hk
      have hnone : lookupKey k' l = none := by
        rw [← ih hrest, total_eq_none]
        intro row hrow heq
        exact hnew (List.mem_map.2 ⟨row, hrow, heq⟩)
      simp [hnone]
    · simp [hk]

/-! ## Moving rows -/

/-- Drop each row and add its amount under the key that `move` gives it. -/
def moveAll (move : κ → κ) (rows : List (κ × Nat)) (m : KeyedMap κ Nat) : KeyedMap κ Nat :=
  rows.foldl (fun m row => tally (m.erase row.1) (move row.1) row.2) m

/-- A row that moved keeps its amount in its new group. -/
theorem regroup_move (move : κ → κ) {m : KeyedMap κ Nat} {k : κ} {amount : Nat} (h : m.get k = some amount)
    (hfix : move (move k) = move k) (i : κ) :
    regroup move (tally (m.erase k) (move k) amount) i = regroup move m i := by
  rw [regroup_tally, hfix, ← regroup_erase move h]

/-- Once the rows that `move` moves are all moved, each key has what the old rows that
now go to it add up to. -/
theorem get_moveAll (move : κ → κ) (rows : List (κ × Nat)) (m : KeyedMap κ Nat) (hnodup : (rows.map Prod.fst).Nodup)
    (hrows : ∀ row ∈ rows, m.get row.1 = some row.2 ∧ move row.1 ≠ row.1 ∧ move (move row.1) = move row.1)
    (hall : ∀ k, (m.get k).isSome = true → move k ≠ k → k ∈ rows.map Prod.fst) (k : κ) :
    (moveAll move rows m).get k = regroup move m k := by
  induction rows generalizing m with
  | nil =>
    -- Every row is where it belongs.
    have hsame : ∀ row ∈ m.entries, move row.1 = row.1 := by
      intro row hrow
      by_contra hne
      exact List.not_mem_nil (hall row.1 (by rw [KeyedMap.get_eq_some.2 hrow]; rfl) hne)
    have hgroup : regroup move m k = regroup (fun k => k) m k := by
      have hfilter : m.entries.filter (fun row => decide (move row.1 = k)) =
          m.entries.filter (fun row => decide (row.1 = k)) :=
        List.filter_congr fun row hrow => by rw [hsame row hrow]
      have hex : (∃ row ∈ m.entries, move row.1 = k) ↔ ∃ row ∈ m.entries, row.1 = k :=
        exists_congr fun row => and_congr_right fun hrow => by rw [hsame row hrow]
      simp only [regroup, total, hfilter, hex]
    rw [hgroup, regroup_self]
    rfl
  | cons row rows ih =>
    obtain ⟨hnew, hrest⟩ := List.nodup_cons.1 hnodup
    obtain ⟨hget, hmoves, hfix⟩ := hrows row List.mem_cons_self
    have hstep : moveAll move (row :: rows) m = moveAll move rows (tally (m.erase row.1) (move row.1) row.2) := rfl
    -- The new key is no row still to move, so those rows keep their amounts.
    have hkept : ∀ k, move k ≠ k → k ≠ row.1 →
        (tally (m.erase row.1) (move row.1) row.2).get k = m.get k := by
      intro k hk hne
      have hother : move row.1 ≠ k := by
        rintro rfl
        exact hk hfix
      rw [tally, KeyedMap.get_set_ne _ _ hother, KeyedMap.get_erase, if_neg hne]
    rw [hstep, ih _ hrest, regroup_move move hget hfix]
    · intro other hother
      obtain ⟨hget', hmoves', hfix'⟩ := hrows other (List.mem_cons_of_mem row hother)
      have hne : other.1 ≠ row.1 := by
        intro heq
        exact hnew (heq ▸ List.mem_map_of_mem hother)
      exact ⟨by rw [hkept _ hmoves' hne, hget'], hmoves', hfix'⟩
    · intro k hsome hk
      have hne : k ≠ row.1 := by
        rintro rfl
        have hother : move row.1 ≠ row.1 := hk
        rw [tally, KeyedMap.get_set_ne _ _ hother, KeyedMap.get_erase, if_pos rfl] at hsome
        exact absurd hsome (by simp)
      rw [hkept k hk hne] at hsome
      rcases List.mem_cons.1 (hall k hsome hk) with heq | hmem
      · exact absurd heq hne
      · exact hmem

end Hayven.Lib
