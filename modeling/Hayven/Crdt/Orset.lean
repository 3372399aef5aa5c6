import Hayven.Crdt.Hlc
import Hayven.Lib.JsNumber
import Hayven.Lib.KeyedMap
import Mathlib.Data.Set.Basic
import Mathlib.Tactic.Tauto
/-!
# OR-Set of claims

`crdt/orset.ts`. An add is tagged with the hex of its composite key; a remove
shadows the tags it lists. `active` shows, for each claim ID, the latest add
that is neither removed nor, when a time is given, expired.
-/
open Hayven.Lib

namespace Hayven.Crdt

/-- 56 hex characters. -/
abbrev Tag := JsString

structure ClaimPayload where
  intent : JsString
  scope : List JsString
  fingerprint : JsString
  createdMs : JsNumber
  ttlMs : JsNumber
deriving DecidableEq

structure OrAddOp where
  claimId : JsString
  agent : JsString
  payload : ClaimPayload
  hlc : Hlc
  writer : WriterId
deriving DecidableEq

structure OrRemoveOp where
  claimId : JsString
  observedTags : List Tag
  hlc : Hlc
  writer : WriterId
deriving DecidableEq

inductive OrOp where
  | add (op : OrAddOp)
  | remove (op : OrRemoveOp)
deriving DecidableEq

def tagOf (hlc : Hlc) (writer : WriterId) : Except HlcError Tag := do
  let bytes ← encodeComposite hlc writer
  return bytesToHex bytes

def addOpTag (op : OrAddOp) : Except HlcError Tag := tagOf op.hlc op.writer

def OrAddOp.key (op : OrAddOp) : Hlc × WriterId := (op.hlc, op.writer)

def OrOp.key : OrOp → Hlc × WriterId
  | .add op => op.key
  | .remove op => (op.hlc, op.writer)

theorem addOpTag_of_encodable {op : OrAddOp} (h : op.hlc.Encodable) : addOpTag op = .ok (keyHex op.key) := by
  simp only [addOpTag, tagOf, encodeComposite_of_encodable h]; rfl

theorem addOpTag_ok {op : OrAddOp} {t : Tag} (h : addOpTag op = .ok t) : op.hlc.Encodable ∧ t = keyHex op.key := by
  by_cases he : op.hlc.Encodable
  · rw [addOpTag_of_encodable he] at h
    cases h
    exact ⟨he, rfl⟩
  · obtain ⟨e, he'⟩ := encodeComposite_of_not_encodable he op.writer
    simp only [addOpTag, tagOf, he'] at h
    cases h

/-- An add with its tag. -/
structure AddRecord where
  op : OrAddOp
  tag : Tag
  tagged : addOpTag op = .ok tag

theorem AddRecord.eq_of_op {a b : AddRecord} (h : a.op = b.op) : a = b := by
  have ht : a.tag = b.tag := Except.ok.inj (a.tagged.symm.trans (h ▸ b.tagged))
  cases a; cases b
  cases h; cases ht
  rfl

theorem AddRecord.tag_eq_iff {a b : AddRecord} : a.tag = b.tag ↔ a.op.key = b.op.key := by
  obtain ⟨hea, hta⟩ := addOpTag_ok a.tagged
  obtain ⟨heb, htb⟩ := addOpTag_ok b.tagged
  rw [hta, htb]
  exact ⟨keyHex_inj hea heb, fun h => by rw [h]⟩

/-- Adds by claim ID, each list without a repeated tag, and the removed tags. -/
structure OrSetState where
  adds : KeyedMap JsString (List AddRecord)
  removed : List Tag
  filed : ∀ c list, adds.get c = some list → ∀ r ∈ list, r.op.claimId = c
  distinct : ∀ c list, adds.get c = some list → (list.map AddRecord.tag).Nodup

namespace OrSetState

def empty : OrSetState := ⟨.empty, [], by simp, by simp⟩

/-- `this.adds.get(claimId) ?? []`. -/
def records (s : OrSetState) (c : JsString) : List AddRecord := (s.adds.get c).getD []

theorem filed_records {s : OrSetState} {c : JsString} {r : AddRecord} (h : r ∈ s.records c) : r.op.claimId = c := by
  unfold records at h
  cases hg : s.adds.get c with
  | none => simp [hg] at h
  | some list => exact s.filed c list hg r (by simpa [hg] using h)

theorem distinct_records (s : OrSetState) (c : JsString) : ((s.records c).map AddRecord.tag).Nodup := by
  unfold records
  cases hg : s.adds.get c with
  | none => simp
  | some list => exact s.distinct c list hg

/-- Append a record whose tag its claim does not have yet. -/
def push (s : OrSetState) (r : AddRecord) (h : ∀ r' ∈ s.records r.op.claimId, r'.tag ≠ r.tag) : OrSetState where
  adds := s.adds.set r.op.claimId (s.records r.op.claimId ++ [r])
  removed := s.removed
  filed c list hg := by
    rw [KeyedMap.get_set] at hg
    split at hg
    case isTrue hc =>
      subst hc; cases hg
      intro r' hr'
      rcases List.mem_append.1 hr' with hr' | hr'
      · exact filed_records hr'
      · rw [List.mem_singleton.1 hr']
    case isFalse => exact s.filed c list hg
  distinct c list hg := by
    rw [KeyedMap.get_set] at hg
    split at hg
    case isTrue hc =>
      subst hc; cases hg
      rw [List.map_append, List.nodup_append]
      refine ⟨s.distinct_records _, by simp, ?_⟩
      intro a ha b hb
      obtain ⟨r', hr', rfl⟩ := List.mem_map.1 ha
      rw [List.mem_singleton.1 hb]
      exact h r' hr'
    case isFalse => exact s.distinct c list hg

/-- `push` unless the claim has the tag already. -/
def addRecord (s : OrSetState) (r : AddRecord) : OrSetState :=
  if h : ∀ r' ∈ s.records r.op.claimId, r'.tag ≠ r.tag then s.push r h else s

/-- `this.removed.add(t)`. -/
def removeTag (s : OrSetState) (t : Tag) : OrSetState :=
  { s with removed := if t ∈ s.removed then s.removed else s.removed ++ [t] }

def applyAdd (s : OrSetState) (op : OrAddOp) : Except HlcError OrSetState :=
  match h : addOpTag op with
  | .error e => .error e
  | .ok tag => .ok (s.addRecord ⟨op, tag, h⟩)

def applyRemove (s : OrSetState) (op : OrRemoveOp) : OrSetState := op.observedTags.foldl removeTag s

def apply (s : OrSetState) : OrOp → Except HlcError OrSetState
  | .add op => s.applyAdd op
  | .remove op => .ok (s.applyRemove op)

/-- Take in another state. Its records carry their tags, so `applyAdd` cannot throw on them. -/
def merge (s other : OrSetState) : OrSetState :=
  other.removed.foldl removeTag ((other.adds.values.flatten).foldl addRecord s)

/-- Neither removed nor, when `nowMs` is given, expired. -/
def isLive (s : OrSetState) (nowMs : Option JsNumber) (r : AddRecord) : Bool :=
  !s.removed.contains r.tag && match nowMs with
    | none => true
    | some now => r.op.payload.ttlMs.gt now

/-- The last live record of one claim by composite key. -/
def winner (s : OrSetState) (nowMs : Option JsNumber) (list : List AddRecord) : Option OrAddOp :=
  (sortWith (fun a b => compareComposite a.op.hlc a.op.writer b.op.hlc b.op.writer)
    (list.filter (s.isLive nowMs))).getLast?.map AddRecord.op

def active (s : OrSetState) (nowMs : Option JsNumber) : List OrAddOp :=
  sortWith (cmpOn OrAddOp.claimId compare) (s.adds.values.filterMap (s.winner nowMs))

def sortedAdds (s : OrSetState) : List OrAddOp :=
  sortWith (fun a b => compareComposite a.hlc a.writer b.hlc b.writer) ((s.adds.values.flatten).map AddRecord.op)

def removedTags (s : OrSetState) : List Tag := sortWith compare s.removed

end OrSetState

/-- The remove that targets every add tag of `claimId`. -/
def makeRemoveOpFor (state : OrSetState) (claimId : JsString) (hlc : Hlc) (writer : WriterId) :
    Except HlcError OrRemoveOp := do
  let observed ← (state.sortedAdds.filter (fun add => add.claimId = claimId)).mapM addOpTag
  return { claimId, observedTags := observed, hlc, writer }

namespace OrSetState

/-! ## What each operation stores -/

/-- The add is recorded, removed or not. -/
def Stored (s : OrSetState) (op : OrAddOp) : Prop := ∃ r ∈ s.records op.claimId, r.op = op

/-- The add is recorded and live. -/
def Visible (s : OrSetState) (nowMs : Option JsNumber) (op : OrAddOp) : Prop :=
  ∃ r ∈ s.records op.claimId, r.op = op ∧ s.isLive nowMs r = true

theorem mem_records_push {s : OrSetState} {r : AddRecord} (h : ∀ r' ∈ s.records r.op.claimId, r'.tag ≠ r.tag)
    {c : JsString} {r' : AddRecord} : r' ∈ (s.push r h).records c ↔ r' ∈ s.records c ∨ (r' = r ∧ r.op.claimId = c) := by
  rw [records, push, KeyedMap.get_set]
  split
  case isTrue hc => subst hc; simp
  case isFalse hc => simp [hc, records]

theorem mem_removed_removeTag {s : OrSetState} {t t' : Tag} :
    t' ∈ (s.removeTag t).removed ↔ t' = t ∨ t' ∈ s.removed := by
  unfold removeTag
  dsimp only
  split
  case isTrue h =>
    exact ⟨.inr, fun h' => h'.elim (fun e => e ▸ h) id⟩
  case isFalse h => simp [or_comm]

@[simp] theorem removed_addRecord (s : OrSetState) (r : AddRecord) : (s.addRecord r).removed = s.removed := by
  unfold addRecord; split <;> rfl

theorem records_foldl_removeTag (l : List Tag) (s : OrSetState) (c : JsString) :
    (l.foldl removeTag s).records c = s.records c := by
  induction l generalizing s with
  | nil => rfl
  | cons t l ih => rw [List.foldl_cons, ih]; rfl

theorem mem_removed_foldl_removeTag {l : List Tag} {s : OrSetState} {t : Tag} :
    t ∈ (l.foldl removeTag s).removed ↔ t ∈ l ∨ t ∈ s.removed := by
  induction l generalizing s with
  | nil => simp
  | cons t' l ih => rw [List.foldl_cons, ih, mem_removed_removeTag, List.mem_cons]; tauto

theorem stored_addRecord {s : OrSetState} {r : AddRecord} {op : OrAddOp}
    (hkey : ∀ op, s.Stored op → op.claimId = r.op.claimId → op.key = r.op.key → op = r.op) :
    (s.addRecord r).Stored op ↔ s.Stored op ∨ op = r.op := by
  unfold addRecord
  split
  case isTrue h =>
    simp only [Stored, mem_records_push]
    constructor
    · rintro ⟨r', hr' | ⟨rfl, -⟩, rfl⟩
      · exact .inl ⟨r', hr', rfl⟩
      · exact .inr rfl
    · rintro (⟨r', hr', rfl⟩ | rfl)
      · exact ⟨r', .inl hr', rfl⟩
      · exact ⟨r, .inr ⟨rfl, rfl⟩, rfl⟩
  case isFalse h =>
    simp only [not_forall, not_not] at h
    obtain ⟨r', hr', htag⟩ := h
    have hclaim := filed_records hr'
    have hstored : s.Stored r'.op := ⟨r', by rwa [hclaim], rfl⟩
    have hop := hkey r'.op hstored hclaim (AddRecord.tag_eq_iff.1 htag)
    refine ⟨.inl, ?_⟩
    rintro (h | rfl)
    · exact h
    · exact hop ▸ hstored

theorem mem_values_flatten {s : OrSetState} {r : AddRecord} :
    r ∈ s.adds.values.flatten ↔ r ∈ s.records r.op.claimId := by
  simp only [List.mem_flatten, KeyedMap.mem_values]
  constructor
  · rintro ⟨list, ⟨c, hc⟩, hr⟩
    rw [s.filed c list hc r hr, records, hc]
    exact hr
  · intro hr
    unfold records at hr
    cases hg : s.adds.get r.op.claimId with
    | none => simp [hg] at hr
    | some list => exact ⟨list, ⟨_, hg⟩, by simpa [hg] using hr⟩

/-! ## The active claims -/

/-- No visible add of the same claim is above `op`. -/
def IsWinner (s : OrSetState) (nowMs : Option JsNumber) (op : OrAddOp) : Prop :=
  s.Visible nowMs op ∧
    ∀ op', s.Visible nowMs op' → op'.claimId = op.claimId → (compareKey op'.key op.key).isLE

theorem winner_iff {s : OrSetState} {nowMs : Option JsNumber} {c : JsString} {op : OrAddOp} :
    s.winner nowMs (s.records c) = some op ↔ op.claimId = c ∧ s.IsWinner nowMs op := by
  have hvis (r : AddRecord) : r ∈ (s.records c).filter (s.isLive nowMs) ↔
      r.op.claimId = c ∧ r ∈ s.records r.op.claimId ∧ s.isLive nowMs r = true := by
    rw [List.mem_filter]
    constructor
    · rintro ⟨hr, hl⟩
      have hc := filed_records hr
      exact ⟨hc, hc ▸ hr, hl⟩
    · rintro ⟨rfl, hr, hl⟩; exact ⟨hr, hl⟩
  simp only [winner, Option.map_eq_some_iff]
  constructor
  · rintro ⟨r, hlast, rfl⟩
    obtain ⟨hr, hmax⟩ := getLast_sortWith (cmpOn (fun r : AddRecord => r.op.key) compareKey) hlast
    obtain ⟨hc, hrec, hl⟩ := (hvis r).1 hr
    refine ⟨hc, ⟨r, hrec, rfl, hl⟩, ?_⟩
    rintro op' ⟨r', hr', rfl, hl'⟩ hclaim
    exact hmax r' ((hvis r').2 ⟨hclaim.trans hc, hr', hl'⟩)
  · rintro ⟨rfl, ⟨r, hr, rfl, hl⟩, hmax⟩
    have hmem := (hvis r).2 ⟨rfl, hr, hl⟩
    obtain ⟨m, hm⟩ : ∃ m, (sortWith (cmpOn (fun r : AddRecord => r.op.key) compareKey)
        ((s.records r.op.claimId).filter (s.isLive nowMs))).getLast? = some m := by
      rw [← Option.isSome_iff_exists, List.getLast?_isSome, ne_eq, sortWith_eq_nil]
      exact List.ne_nil_of_mem hmem
    refine ⟨m, hm, ?_⟩
    obtain ⟨hmem', hmax'⟩ := getLast_sortWith _ hm
    obtain ⟨hc', hrec', hl'⟩ := (hvis m).1 hmem'
    have hkey : m.op.key = r.op.key := Std.LawfulEqCmp.eq_of_compare
      (Std.OrientedCmp.isLE_antisymm (hmax m.op ⟨m, hrec', rfl, hl'⟩ hc') (hmax' r hmem))
    have htag := AddRecord.tag_eq_iff.2 hkey
    exact congrArg AddRecord.op
      (List.inj_on_of_nodup_map (s.distinct_records _) (hc' ▸ hrec') hr htag)

theorem winner_nil (s : OrSetState) (nowMs : Option JsNumber) : s.winner nowMs [] = none := rfl

theorem mem_winners {s : OrSetState} {nowMs : Option JsNumber} {op : OrAddOp} :
    op ∈ s.adds.values.filterMap (s.winner nowMs) ↔ s.IsWinner nowMs op := by
  simp only [List.mem_filterMap, KeyedMap.mem_values]
  constructor
  · rintro ⟨list, ⟨c, hc⟩, hw⟩
    have : s.records c = list := by simp [records, hc]
    exact (winner_iff.1 (this ▸ hw)).2
  · intro h
    have hw := winner_iff.2 ⟨rfl, h⟩
    unfold records at hw
    cases hg : s.adds.get op.claimId with
    | none => simp [hg, winner_nil] at hw
    | some list => exact ⟨list, ⟨_, hg⟩, by simpa [hg] using hw⟩

theorem mem_active {s : OrSetState} {nowMs : Option JsNumber} {op : OrAddOp} :
    op ∈ s.active nowMs ↔ s.IsWinner nowMs op :=
  (mem_sortWith _).trans mem_winners

theorem nodup_winners (s : OrSetState) (nowMs : Option JsNumber) :
    ((s.adds.values.filterMap (s.winner nowMs)).map OrAddOp.claimId).Nodup := by
  have hsub : ∀ l : List (JsString × List AddRecord), (∀ p ∈ l, p ∈ s.adds.entries) →
      List.Sublist (((l.map Prod.snd).filterMap (s.winner nowMs)).map OrAddOp.claimId) (l.map Prod.fst) := by
    intro l hl
    induction l with
    | nil => simp
    | cons p l ih =>
      have ih := ih fun q hq => hl q (List.mem_cons_of_mem _ hq)
      cases hw : s.winner nowMs p.2 with
      | none => simpa [hw] using ih.cons p.1
      | some op =>
        have hg : s.records p.1 = p.2 := by
          simp [records, KeyedMap.get_eq_some.2 (hl p List.mem_cons_self)]
        have hc := (winner_iff.1 (hg ▸ hw)).1
        simpa [hw, hc] using ih.cons_cons p.1
  exact (hsub _ fun _ h => h).nodup s.adds.nodup

/-- A claim ID has at most one active claim. -/
theorem active_claimId_inj {s : OrSetState} {nowMs : Option JsNumber} {a b : OrAddOp} (ha : a ∈ s.active nowMs)
    (hb : b ∈ s.active nowMs) (h : a.claimId = b.claimId) : a = b :=
  List.inj_on_of_nodup_map (s.nodup_winners nowMs) ((mem_sortWith _).1 ha) ((mem_sortWith _).1 hb) h

/-- `active` lists the same claims in the same order in any two states that see the same adds. -/
theorem active_congr {s t : OrSetState} {nowMs : Option JsNumber}
    (h : ∀ op, s.Visible nowMs op ↔ t.Visible nowMs op) : s.active nowMs = t.active nowMs := by
  have hmem (op : OrAddOp) : s.IsWinner nowMs op ↔ t.IsWinner nowMs op := by simp only [IsWinner, h]
  refine sortWith_congr (cmpOn OrAddOp.claimId compare) ?_ ?_
  · refine (List.perm_ext_iff_of_nodup (List.Nodup.of_map _ (s.nodup_winners nowMs))
      (List.Nodup.of_map _ (t.nodup_winners nowMs))).2 fun op => ?_
    rw [mem_winners, mem_winners, hmem op]
  · intro a ha b hb hab
    exact List.inj_on_of_nodup_map (s.nodup_winners nowMs) ha hb
      (Std.LawfulEqCmp.eq_of_compare (show compare a.claimId b.claimId = .eq from hab))

/-! ## What a state holds -/

/-- Adds with one composite key are one op. -/
def KeyUnique (S : Set OrOp) : Prop := ∀ a b, .add a ∈ S → .add b ∈ S → a.key = b.key → a = b

/-- The state has taken in the ops of `S`: the encodable adds and every removed tag. -/
structure Holds (S : Set OrOp) (s : OrSetState) : Prop where
  stored : ∀ op, s.Stored op ↔ .add op ∈ S ∧ op.hlc.Encodable
  removed : ∀ t, t ∈ s.removed ↔ ∃ op, .remove op ∈ S ∧ t ∈ op.observedTags

theorem holds_empty : empty.Holds ∅ :=
  ⟨fun op => by simp [Stored, empty, records], fun t => by simp [empty]⟩

theorem holds_addRecord {S : Set OrOp} {s : OrSetState} {r : AddRecord} (hc : KeyUnique (insert (.add r.op) S))
    (h : s.Holds S) : (s.addRecord r).Holds (insert (.add r.op) S) := by
  have henc := (addOpTag_ok r.tagged).1
  refine ⟨fun op => ?_, fun t => ?_⟩
  · rw [stored_addRecord, h.stored op, Set.mem_insert_iff, OrOp.add.injEq]
    · constructor
      · rintro (⟨hm, he⟩ | rfl)
        · exact ⟨.inr hm, he⟩
        · exact ⟨.inl rfl, henc⟩
      · rintro ⟨rfl | hm, he⟩
        · exact .inr rfl
        · exact .inl ⟨hm, he⟩
    · intro op' hop' _ hkey
      exact hc op' r.op (Set.mem_insert_of_mem _ ((h.stored op').1 hop').1) (Set.mem_insert _ _) hkey
  · simp only [removed_addRecord, h.removed t, Set.mem_insert_iff, reduceCtorEq, false_or]

theorem holds_applyRemove {S : Set OrOp} {s : OrSetState} {op : OrRemoveOp} (h : s.Holds S) :
    (s.applyRemove op).Holds (insert (.remove op) S) := by
  refine ⟨fun op' => ?_, fun t => ?_⟩
  · simp only [Stored, applyRemove, records_foldl_removeTag, Set.mem_insert_iff, reduceCtorEq, false_or]
    exact h.stored op'
  · simp only [applyRemove, mem_removed_foldl_removeTag, h.removed t, Set.mem_insert_iff, OrOp.remove.injEq,
      or_and_right, exists_or, exists_eq_left]

/-- What `applyAdd` does: it refuses an op it cannot encode, and records any other. -/
theorem applyAdd_cases (s : OrSetState) (op : OrAddOp) :
    (¬ op.hlc.Encodable ∧ ∃ e, s.applyAdd op = .error e) ∨
      ∃ r : AddRecord, r.op = op ∧ s.applyAdd op = .ok (s.addRecord r) := by
  unfold applyAdd
  split
  case h_1 e he =>
    refine .inl ⟨fun henc => ?_, e, rfl⟩
    rw [addOpTag_of_encodable henc] at he
    cases he
  case h_2 tag ht => exact .inr ⟨⟨op, tag, ht⟩, rfl, rfl⟩

theorem holds_apply {S : Set OrOp} {s s' : OrSetState} {op : OrOp} (hc : KeyUnique (insert op S))
    (h : s.Holds S) (happly : s.apply op = .ok s') : s'.Holds (insert op S) := by
  cases op with
  | add op =>
    simp only [apply] at happly
    rcases applyAdd_cases s op with ⟨-, e, he⟩ | ⟨r, rfl, he⟩ <;> rw [he] at happly <;> cases happly
    exact holds_addRecord hc h
  | remove op => cases happly; exact holds_applyRemove h

/-- An op that is refused adds nothing. -/
theorem holds_refused {S : Set OrOp} {s : OrSetState} {op : OrOp} {e : HlcError} (h : s.Holds S)
    (happly : s.apply op = .error e) : s.Holds (insert op S) := by
  cases op with
  | add op =>
    simp only [apply] at happly
    rcases applyAdd_cases s op with ⟨hn, -⟩ | ⟨r, rfl, he⟩
    · refine ⟨fun op' => ?_, fun t => ?_⟩
      · rw [h.stored op', Set.mem_insert_iff, OrOp.add.injEq]
        refine and_congr_left fun he => ⟨.inr, ?_⟩
        rintro (rfl | hm)
        · exact absurd he hn
        · exact hm
      · simp only [h.removed t, Set.mem_insert_iff, reduceCtorEq, false_or]
    · rw [he] at happly; cases happly
  | remove op => cases happly

theorem holds_foldl_addRecord {l : List AddRecord} {S : Set OrOp} {s : OrSetState}
    (hc : KeyUnique (S ∪ {o | ∃ r ∈ l, .add r.op = o})) (h : s.Holds S) :
    (l.foldl addRecord s).Holds (S ∪ {o | ∃ r ∈ l, .add r.op = o}) := by
  induction l generalizing S s with
  | nil => simpa using h
  | cons r l ih =>
    have hset : S ∪ {o | ∃ q ∈ r :: l, .add q.op = o} = insert (.add r.op) S ∪ {o | ∃ q ∈ l, .add q.op = o} := by
      ext o
      simp only [List.mem_cons, exists_eq_or_imp, Set.mem_union, Set.mem_insert_iff, Set.mem_ofPred_eq]
      rw [eq_comm (a := o)]
      tauto
    rw [hset] at hc ⊢
    exact ih hc (holds_addRecord (fun a b ha hb => hc a b (.inl ha) (.inl hb)) h)

theorem stored_iff_mem_values {s : OrSetState} {op : OrAddOp} :
    s.Stored op ↔ ∃ r ∈ s.adds.values.flatten, r.op = op := by
  simp only [mem_values_flatten, Stored]
  constructor
  · rintro ⟨r, hr, rfl⟩; exact ⟨r, hr, rfl⟩
  · rintro ⟨r, hr, rfl⟩; exact ⟨r, hr, rfl⟩

theorem holds_merge {S S' : Set OrOp} {s other : OrSetState} (hc : KeyUnique (S ∪ S')) (h : s.Holds S)
    (h' : other.Holds S') : (s.merge other).Holds (S ∪ S') := by
  have hsub : S ∪ {o | ∃ r ∈ other.adds.values.flatten, OrOp.add r.op = o} ⊆ S ∪ S' := by
    refine Set.union_subset_union_right _ ?_
    rintro o ⟨r, hr, rfl⟩
    exact ((h'.stored r.op).1 (stored_iff_mem_values.2 ⟨r, hr, rfl⟩)).1
  have hfold := holds_foldl_addRecord (fun a b ha hb => hc a b (hsub ha) (hsub hb)) h
  refine ⟨fun op => ?_, fun t => ?_⟩
  · have := hfold.stored op
    simp only [Stored, merge, records_foldl_removeTag] at this ⊢
    rw [this]
    refine and_congr_left fun he => ⟨fun hm => hsub hm, ?_⟩
    rintro (hm | hm)
    · exact .inl hm
    · obtain ⟨r, hr, hro⟩ := stored_iff_mem_values.1 ((h'.stored op).2 ⟨hm, he⟩)
      exact .inr ⟨r, hr, congrArg OrOp.add hro⟩
  · rw [merge, mem_removed_foldl_removeTag, hfold.removed t, h'.removed t]
    simp only [Set.mem_union, Set.mem_ofPred_eq, reduceCtorEq, and_false, exists_false, or_false, or_and_right,
      exists_or]
    exact or_comm

/-- States that took in the same ops show the same active claims. -/
theorem active_eq_of_holds {S : Set OrOp} {s t : OrSetState} (h : s.Holds S) (h' : t.Holds S)
    (nowMs : Option JsNumber) : s.active nowMs = t.active nowMs := by
  have hremoved (tag : Tag) : s.removed.contains tag = t.removed.contains tag := by
    rw [Bool.eq_iff_iff, List.contains_iff_mem, List.contains_iff_mem, h.removed, h'.removed]
  have hlive (r : AddRecord) : s.isLive nowMs r = t.isLive nowMs r := by simp only [isLive, hremoved]
  refine active_congr fun op => ?_
  constructor
  · rintro ⟨r, hr, rfl, hl⟩
    obtain ⟨r', hr', hop⟩ := (h'.stored r.op).2 ((h.stored r.op).1 ⟨r, hr, rfl⟩)
    obtain rfl := AddRecord.eq_of_op hop
    exact ⟨r', hr', rfl, hlive r' ▸ hl⟩
  · rintro ⟨r, hr, rfl, hl⟩
    obtain ⟨r', hr', hop⟩ := (h.stored r.op).2 ((h'.stored r.op).1 ⟨r, hr, rfl⟩)
    obtain rfl := AddRecord.eq_of_op hop
    exact ⟨r', hr', rfl, (hlive r').symm ▸ hl⟩

end OrSetState

end Hayven.Crdt
