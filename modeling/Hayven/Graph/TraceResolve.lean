import Hayven.Graph.IdScheme
import Hayven.Lib.Sole
import Hayven.Lib.KeyedMap
import Hayven.Lib.UniqueBest
import Mathlib.Data.Prod.Lex
import Mathlib.Order.BoundedOrder.Basic
/-!
# Runtime names

`graph/traceResolve.ts`: the entity that a collector's name stands for. An answer is
the only candidate, or the one that the module hint ranks above every other:
`resolve_justified`.
-/
open Hayven.Lib Hayven.Native

namespace Hayven.Graph

/-! ## Names into segments -/

section Bracketed
variable (opening closing : UInt16) (f : JsString → JsString)

/-- Every innermost pair of brackets, with what it holds, replaced by `f` of what it
holds. The option is the text since a bracket that is still open. -/
def replaceBracketed : Option JsString → JsString → JsString
  | none, [] => []
  | some inner, [] => opening :: inner
  | none, u :: rest =>
    if u = opening then replaceBracketed (some []) rest else u :: replaceBracketed none rest
  | some inner, u :: rest =>
    if u = opening then opening :: inner ++ replaceBracketed (some []) rest
    else if u = closing then f inner ++ replaceBracketed none rest
    else replaceBracketed (some (inner ++ [u])) rest

end Bracketed

/-- `(*Type)` and `(Type)` read as `Type`. -/
def unwrapReceivers (raw : JsString) : JsString :=
  replaceBracketed 0x28 0x29 (fun inner => if inner.head? = some 0x2A then inner.drop 1 else inner) none raw

/-- One pass over the innermost `<...>`. -/
def stripGenerics (s : JsString) : JsString := replaceBracketed 0x3C 0x3E (fun _ => []) none s

/-- A pass that changes the text shortens it, so as many as it is long reach the end. -/
def stripAllGenerics (s : JsString) : JsString :=
  (stripGenerics^[s.length] s).filter fun u => u ≠ 0x3C && u ≠ 0x3E

/-- `.`, `:` and `/`; of `::` both units, the part between them being empty. -/
def isNameSeparator (u : UInt16) : Bool := u = dot || u = 0x3A || u = slash

def normalizeRuntimeName (raw : JsString) : List JsString :=
  (((stripAllGenerics (unwrapReceivers raw)).splitOnP isNameSeparator).map trim).filter (!·.isEmpty)

/-! ## The module hint -/

/-- The extensions that a hint may carry as a segment. -/
def hintExtensionSegments : List JsString :=
  ["ts", "tsx", "js", "jsx", "mjs", "cjs", "mts", "cts", "py", "rs", "go"].map ascii

/-- The run appears somewhere in the segments. -/
def occursIn (run segs : List JsString) : Bool := segs.tails.any run.isPrefixOf

def longestHintSuffixRun (hint segs : List JsString) : Nat :=
  ((hint.tails.find? fun run => occursIn run segs).map List.length).getD 0

/-- How well an id agrees with a hint: by the longest run first, then by the segments
that they share. -/
def hintScore (cleaned : List JsString) (id : JsString) : ℕ ×ₗ ℕ :=
  let segs := normalizeRuntimeName id
  toLex (longestHintSuffixRun cleaned segs, segs.countP (· ∈ cleaned))

def cleanHint (hint : List JsString) : List JsString := hint.filter (· ∉ hintExtensionSegments)

def resolveByHint (candidates hint : List JsString) : Option JsString :=
  let cleaned := cleanHint hint
  if cleaned = [] then none else uniqueBest (hintScore cleaned) candidates

/-! ## The resolver -/

structure IndexedNode where
  id : JsString
  name : JsString
  qualifiedName : JsString
deriving DecidableEq

/-- The sentinel of the two collapsed indexes. -/
def ambiguousMark : JsString := 0 :: ascii "ambiguous"

/-- `Sole.many` is the sentinel. -/
structure TraceNameResolver where
  byQualified : KeyedMap JsString (Sole JsString)
  byName : KeyedMap JsString (Sole JsString)
  candidatesByName : KeyedMap JsString (List JsString)
  candidatesByQualified : KeyedMap JsString (List JsString)

namespace TraceNameResolver

def index (m : KeyedMap JsString (Sole JsString)) (key id : JsString) : KeyedMap JsString (Sole JsString) :=
  if key = [] then m else noteAt m key id

def addCandidate (m : KeyedMap JsString (List JsString)) (key id : JsString) : KeyedMap JsString (List JsString) :=
  if key = [] then m else m.set key (addNew ((m.get key).getD []) id)

def add (r : TraceNameResolver) (n : IndexedNode) : TraceNameResolver where
  byQualified := index r.byQualified n.qualifiedName n.id
  byName := index r.byName n.name n.id
  candidatesByName := addCandidate r.candidatesByName n.name n.id
  candidatesByQualified := addCandidate r.candidatesByQualified n.qualifiedName n.id

def ofNodes (nodes : List IndexedNode) : TraceNameResolver := nodes.foldl add ⟨.empty, .empty, .empty, .empty⟩

/-- A node whose id spells the sentinel is never a hit. -/
def hit (m : KeyedMap JsString (Sole JsString)) (key : JsString) : Option JsString :=
  ((m.get key).bind Sole.value).filter (· ≠ ambiguousMark)

/-- The non-empty text. -/
def nonEmpty (s : Option JsString) : Option JsString := s.filter (!·.isEmpty)

/-- The trailing `n` segments, joined. -/
def trailingJoin (segs : List JsString) (n : Nat) : JsString := [dot].intercalate (segs.drop (segs.length - n))

/-- Several candidates are told apart by the hint only. -/
def byHint (candidates : Option (List JsString)) (hint : List JsString) : Option JsString :=
  match candidates with
  | some ids => if ids.length ≥ 2 then resolveByHint ids hint else none
  | none => none

def resolveQualifiedJoin (r : TraceNameResolver) (segs : List JsString) (n : Nat) : Option JsString :=
  if segs.length < n then none
  else
    let key := trailingJoin segs n
    (nonEmpty (hit r.byQualified key)).or
      (byHint (r.candidatesByQualified.get key) (segs.take (segs.length - n)))

/-- The last segment, where the two joins gave nothing. -/
def resolveBare (r : TraceNameResolver) (one : JsString) (hint : List JsString) : Option JsString :=
  match r.candidatesByName.get one with
  | some ids =>
    if ids.length ≥ 2 then resolveByHint ids hint else (hit r.byQualified one).or (hit r.byName one)
  | none => (hit r.byQualified one).or (hit r.byName one)

def resolve (r : TraceNameResolver) (raw : JsString) : Option JsString :=
  let segs := normalizeRuntimeName raw
  match segs.getLast? with
  | none => none
  | some one =>
    (nonEmpty (r.resolveQualifiedJoin segs 2)).or
      ((nonEmpty (r.resolveQualifiedJoin segs 3)).or (r.resolveBare one segs.dropLast))


/-! ## What the indexes hold -/

/-- The ids of the nodes that go by a key. -/
def idsBy (keyOf : IndexedNode → JsString) (nodes : List IndexedNode) (key : JsString) : List JsString :=
  (nodes.filter (keyOf · = key)).map (·.id)

section Indexes
variable {keyOf : IndexedNode → JsString} {nodes : List IndexedNode} {key id : JsString}

theorem mem_idsBy : id ∈ idsBy keyOf nodes key ↔ ∃ n ∈ nodes, keyOf n = key ∧ n.id = id := by
  simp [idsBy, and_assoc]

/-- Each index is filled on its own. -/
theorem foldl_add (nodes : List IndexedNode) (r : TraceNameResolver) :
    nodes.foldl add r =
      ⟨nodes.foldl (fun m n => index m n.qualifiedName n.id) r.byQualified,
        nodes.foldl (fun m n => index m n.name n.id) r.byName,
        nodes.foldl (fun m n => addCandidate m n.name n.id) r.candidatesByName,
        nodes.foldl (fun m n => addCandidate m n.qualifiedName n.id) r.candidatesByQualified⟩ := by
  induction nodes generalizing r with
  | nil => rfl
  | cons n nodes ih => exact ih (r.add n)

theorem get_index_step (hkey : key ≠ []) (m : KeyedMap JsString (Sole JsString)) (k : JsString) :
    (index m k id).get key = if k = key then some (Sole.note (m.get key) id) else m.get key := by
  unfold index
  by_cases hk : k = key
  · subst hk
    rw [if_neg hkey, if_pos rfl, noteAt, KeyedMap.get_set_self]
  · rw [if_neg hk]
    split
    · rfl
    · exact KeyedMap.get_set_ne m _ hk

theorem get_addCandidate (hkey : key ≠ []) (m : KeyedMap JsString (List JsString)) (k : JsString) :
    (addCandidate m k id).get key = if k = key then some (addNew ((m.get key).getD []) id) else m.get key := by
  unfold addCandidate
  by_cases hk : k = key
  · subst hk
    rw [if_neg hkey, if_pos rfl, KeyedMap.get_set_self]
  · rw [if_neg hk]
    split
    · rfl
    · exact KeyedMap.get_set_ne m _ hk

theorem idsBy_cons (n : IndexedNode) :
    idsBy keyOf (n :: nodes) key = if keyOf n = key then n.id :: idsBy keyOf nodes key else idsBy keyOf nodes key := by
  by_cases hn : keyOf n = key <;> simp [idsBy, hn]

theorem get_foldl_index (hkey : key ≠ []) (m : KeyedMap JsString (Sole JsString)) :
    (nodes.foldl (fun m n => index m (keyOf n) n.id) m).get key =
      (idsBy keyOf nodes key).foldl (fun seen a => some (Sole.note seen a)) (m.get key) := by
  induction nodes generalizing m with
  | nil => rfl
  | cons n nodes ih =>
    rw [List.foldl_cons, ih, get_index_step hkey, idsBy_cons]
    by_cases hn : keyOf n = key
    · rw [if_pos hn, if_pos hn, List.foldl_cons]
    · rw [if_neg hn, if_neg hn]

theorem get_foldl_addCandidate (hkey : key ≠ []) (m : KeyedMap JsString (List JsString)) :
    (nodes.foldl (fun m n => addCandidate m (keyOf n) n.id) m).get key =
      if idsBy keyOf nodes key = [] then m.get key
      else some (addAll ((m.get key).getD []) (idsBy keyOf nodes key)) := by
  induction nodes generalizing m with
  | nil => rfl
  | cons n nodes ih =>
    rw [List.foldl_cons, ih, get_addCandidate hkey, idsBy_cons]
    by_cases hn : keyOf n = key
    · rw [if_pos hn, if_pos hn, if_neg (List.cons_ne_nil _ _)]
      by_cases hnil : idsBy keyOf nodes key = []
      · rw [if_pos hnil, hnil]
        rfl
      · rw [if_neg hnil]
        rfl
    · rw [if_neg hn, if_neg hn]

/-- The candidates of a key, each id once. -/
def candidateIds (keyOf : IndexedNode → JsString) (nodes : List IndexedNode) (key : JsString) : List JsString :=
  addAll [] (idsBy keyOf nodes key)

theorem nodup_candidateIds : (candidateIds keyOf nodes key).Nodup := nodup_addAll List.nodup_nil _

theorem mem_candidateIds : id ∈ candidateIds keyOf nodes key ↔ ∃ n ∈ nodes, keyOf n = key ∧ n.id = id := by
  rw [candidateIds, mem_addAll, mem_idsBy]
  simp

theorem hit_byQualified (hkey : key ≠ []) :
    hit (ofNodes nodes).byQualified key =
      (soleValue (idsBy (·.qualifiedName) nodes key)).filter (· ≠ ambiguousMark) := by
  rw [hit, ofNodes, foldl_add]
  simp only [get_foldl_index hkey, KeyedMap.get_empty]
  rfl

theorem hit_byName (hkey : key ≠ []) :
    hit (ofNodes nodes).byName key = (soleValue (idsBy (·.name) nodes key)).filter (· ≠ ambiguousMark) := by
  rw [hit, ofNodes, foldl_add]
  simp only [get_foldl_index hkey, KeyedMap.get_empty]
  rfl

theorem get_candidatesByName (hkey : key ≠ []) :
    (ofNodes nodes).candidatesByName.get key =
      if idsBy (·.name) nodes key = [] then none else some (candidateIds (·.name) nodes key) := by
  rw [ofNodes, foldl_add]
  exact get_foldl_addCandidate hkey .empty

theorem get_candidatesByQualified (hkey : key ≠ []) :
    (ofNodes nodes).candidatesByQualified.get key =
      if idsBy (·.qualifiedName) nodes key = [] then none else some (candidateIds (·.qualifiedName) nodes key) := by
  rw [ofNodes, foldl_add]
  exact get_foldl_addCandidate hkey .empty

end Indexes

/-! ## What an answer depends on -/

/-- The same ids go by a key. -/
def SameAt (keyOf : IndexedNode → JsString) (nodes nodes' : List IndexedNode) (key : JsString) : Prop :=
  ∀ id, id ∈ idsBy keyOf nodes key ↔ id ∈ idsBy keyOf nodes' key

section Congr
variable {keyOf : IndexedNode → JsString} {nodes nodes' : List IndexedNode} {key : JsString}

theorem SameAt.eq_nil (h : SameAt keyOf nodes nodes' key) :
    idsBy keyOf nodes key = [] ↔ idsBy keyOf nodes' key = [] := by
  rw [List.eq_nil_iff_forall_not_mem, List.eq_nil_iff_forall_not_mem]
  exact forall_congr' fun id => not_congr (h id)

theorem SameAt.candidates (h : SameAt keyOf nodes nodes' key) :
    ∀ id, id ∈ candidateIds keyOf nodes key ↔ id ∈ candidateIds keyOf nodes' key := by
  intro id
  rw [candidateIds, candidateIds, mem_addAll, mem_addAll, h id]

theorem SameAt.length (h : SameAt keyOf nodes nodes' key) :
    (candidateIds keyOf nodes key).length = (candidateIds keyOf nodes' key).length :=
  ((List.perm_ext_iff_of_nodup nodup_candidateIds nodup_candidateIds).2 h.candidates).length_eq

theorem SameAt.resolveByHint (h : SameAt keyOf nodes nodes' key) (hint : List JsString) :
    resolveByHint (candidateIds keyOf nodes key) hint = resolveByHint (candidateIds keyOf nodes' key) hint := by
  simp only [Graph.resolveByHint, uniqueBest_congr nodup_candidateIds nodup_candidateIds h.candidates]

theorem resolveQualifiedJoin_congr {segs : List JsString} {n : Nat} (hkey : trailingJoin segs n ≠ [])
    (h : SameAt (·.qualifiedName) nodes nodes' (trailingJoin segs n)) :
    (ofNodes nodes).resolveQualifiedJoin segs n = (ofNodes nodes').resolveQualifiedJoin segs n := by
  unfold resolveQualifiedJoin
  simp only [hit_byQualified hkey, get_candidatesByQualified hkey, soleValue_congr h, h.eq_nil]
  by_cases hnil : idsBy (·.qualifiedName) nodes' (trailingJoin segs n) = []
  · simp only [hnil, if_true]
  · simp only [hnil, if_false, byHint, h.length, h.resolveByHint]

theorem resolveBare_congr {one : JsString} (hint : List JsString) (hone : one ≠ [])
    (hqn : SameAt (·.qualifiedName) nodes nodes' one) (hname : SameAt (·.name) nodes nodes' one) :
    (ofNodes nodes).resolveBare one hint = (ofNodes nodes').resolveBare one hint := by
  unfold resolveBare
  simp only [hit_byQualified hone, hit_byName hone, get_candidatesByName hone, soleValue_congr hqn, soleValue_congr hname,
    hname.eq_nil]
  by_cases hnil : idsBy (·.name) nodes' one = []
  · simp only [hnil, if_true]
  · simp only [hnil, if_false, hname.length, hname.resolveByHint]

end Congr

/-! ### The keys of a name -/

theorem ne_nil_of_mem_normalize {raw seg : JsString} (h : seg ∈ normalizeRuntimeName raw) : seg ≠ [] := by
  rintro rfl
  have hkeep := (List.mem_filter.1 h).2
  cases hkeep

/-- A join of segments that are not empty is not empty. -/
theorem trailingJoin_ne_nil {segs : List JsString} (hsegs : ∀ seg ∈ segs, seg ≠ []) {n : Nat} (hn : 0 < n)
    (hle : n ≤ segs.length) : trailingJoin segs n ≠ [] := by
  have hdrop : segs.drop (segs.length - n) ≠ [] := by
    intro hnil
    have hlen := congrArg List.length hnil
    rw [List.length_drop] at hlen
    simp only [List.length_nil] at hlen
    omega
  obtain ⟨seg, rest, hcons⟩ := List.exists_cons_of_ne_nil hdrop
  have hseg : seg ≠ [] := hsegs seg (List.mem_of_mem_drop (hcons ▸ List.mem_cons_self))
  intro hjoin
  rw [trailingJoin, hcons] at hjoin
  cases rest with
  | nil => exact hseg (by simpa [List.intercalate] using hjoin)
  | cons r rest => simp [List.intercalate, hseg] at hjoin

theorem trailingJoin_one {segs : List JsString} {one : JsString} (h : segs.getLast? = some one) :
    trailingJoin segs 1 = one := by
  obtain ⟨init, rfl⟩ := List.getLast?_eq_some_iff.1 h
  simp [trailingJoin, List.intercalate]

theorem length_pos_of_getLast {segs : List JsString} {one : JsString} (h : segs.getLast? = some one) :
    1 ≤ segs.length := by
  obtain ⟨init, rfl⟩ := List.getLast?_eq_some_iff.1 h
  simp

/-- Only the ids that go by the trailing joins decide. -/
theorem resolve_congr {nodes nodes' : List IndexedNode} {raw : JsString}
    (hqn : ∀ n ∈ [1, 2, 3], n ≤ (normalizeRuntimeName raw).length →
      SameAt (·.qualifiedName) nodes nodes' (trailingJoin (normalizeRuntimeName raw) n))
    (hname : 1 ≤ (normalizeRuntimeName raw).length →
      SameAt (·.name) nodes nodes' (trailingJoin (normalizeRuntimeName raw) 1)) :
    (ofNodes nodes).resolve raw = (ofNodes nodes').resolve raw := by
  have hjoin : ∀ n ∈ [1, 2, 3], n ≠ 1 → (ofNodes nodes).resolveQualifiedJoin (normalizeRuntimeName raw) n =
      (ofNodes nodes').resolveQualifiedJoin (normalizeRuntimeName raw) n := by
    intro n hn hne
    have hpos : 0 < n := by
      simp only [List.mem_cons, List.not_mem_nil, or_false] at hn
      omega
    by_cases hle : n ≤ (normalizeRuntimeName raw).length
    · apply resolveQualifiedJoin_congr
      · exact trailingJoin_ne_nil (fun seg hseg => ne_nil_of_mem_normalize hseg) hpos hle
      · exact hqn n hn hle
    · rw [resolveQualifiedJoin, resolveQualifiedJoin, if_pos (Nat.lt_of_not_le hle), if_pos (Nat.lt_of_not_le hle)]
  cases hone : (normalizeRuntimeName raw).getLast? with
  | none => simp only [resolve, hone]
  | some one =>
    have hlen := length_pos_of_getLast hone
    have hne : one ≠ [] := ne_nil_of_mem_normalize (List.mem_of_getLast? hone)
    have hqn1 := hqn 1 (by simp) hlen
    have hname1 := hname hlen
    rw [trailingJoin_one hone] at hqn1 hname1
    simp only [resolve, hone, hjoin 2 (by simp) (by decide), hjoin 3 (by simp) (by decide),
      resolveBare_congr _ hne hqn1 hname1]

/-! ## What an answer is -/

/-- The only node of its kind, or the one that the hint ranks above the others of it. -/
def Chosen (nodes : List IndexedNode) (hint : List JsString) (shares : IndexedNode → Prop) (n : IndexedNode) : Prop :=
  n ∈ nodes ∧ shares n ∧
    ((∀ m ∈ nodes, shares m → m = n) ∨
      (⊥ < hintScore (cleanHint hint) n.id ∧
        ∀ m ∈ nodes, shares m → m ≠ n → hintScore (cleanHint hint) m.id < hintScore (cleanHint hint) n.id))

/-- Chosen among the nodes whose qualified name is the trailing join. -/
def ByJoin (nodes : List IndexedNode) (segs : List JsString) (k : Nat) (id : JsString) : Prop :=
  k ≤ segs.length ∧ ∃ n, n.id = id ∧
    Chosen nodes (segs.take (segs.length - k)) (fun m => m.qualifiedName = trailingJoin segs k) n

/-- Chosen among the nodes whose name is the last segment. -/
def ByName (nodes : List IndexedNode) (segs : List JsString) (id : JsString) : Prop :=
  ∃ n, n.id = id ∧ Chosen nodes segs.dropLast (fun m => segs.getLast? = some m.name) n

/-- The only node whose qualified name is the last segment. -/
def ByBareQualified (nodes : List IndexedNode) (segs : List JsString) (id : JsString) : Prop :=
  ∃ n ∈ nodes, n.id = id ∧ segs.getLast? = some n.qualifiedName ∧
    ∀ m ∈ nodes, segs.getLast? = some m.qualifiedName → m = n

section Answers
variable {nodes : List IndexedNode} (hids : ∀ a ∈ nodes, ∀ b ∈ nodes, a.id = b.id → a = b)
include hids

theorem chosen_of_sole {keyOf : IndexedNode → JsString} {key id : JsString}
    (h : soleValue (idsBy keyOf nodes key) = some id) :
    ∃ n, n.id = id ∧ n ∈ nodes ∧ keyOf n = key ∧ ∀ m ∈ nodes, keyOf m = key → m = n := by
  obtain ⟨hmem, hsole⟩ := soleValue_eq_some.1 h
  obtain ⟨n, hn, hkey, hid⟩ := mem_idsBy.1 hmem
  refine ⟨n, hid, hn, hkey, fun m hm hmkey => hids m hm n hn ?_⟩
  rw [hid]
  exact hsole m.id (mem_idsBy.2 ⟨m, hm, hmkey, rfl⟩)

theorem chosen_of_hint {keyOf : IndexedNode → JsString} {key id : JsString} {hint : List JsString}
    (h : resolveByHint (candidateIds keyOf nodes key) hint = some id) :
    ∃ n, n.id = id ∧ Chosen nodes hint (fun m => keyOf m = key) n := by
  unfold resolveByHint at h
  simp only at h
  split at h
  · cases h
  obtain ⟨hmem, hpos, hbest⟩ := (uniqueBest_eq_some nodup_candidateIds).1 h
  obtain ⟨n, hn, hkey, rfl⟩ := mem_candidateIds.1 hmem
  refine ⟨n, rfl, hn, hkey, .inr ⟨hpos, fun m hm hmkey hne => ?_⟩⟩
  exact hbest m.id (mem_candidateIds.2 ⟨m, hm, hmkey, rfl⟩) fun hid => hne (hids m hm n hn hid)

theorem byJoin_of_resolve {segs : List JsString} {k : Nat} {id : JsString} (hkey : trailingJoin segs k ≠ [])
    (h : (ofNodes nodes).resolveQualifiedJoin segs k = some id) : ByJoin nodes segs k id := by
  unfold resolveQualifiedJoin at h
  split at h
  · cases h
  rename_i hlen
  refine ⟨Nat.not_lt.1 hlen, ?_⟩
  simp only [hit_byQualified hkey, get_candidatesByQualified hkey] at h
  rcases Option.or_eq_some_iff.1 h with hhit | ⟨-, hbyHint⟩
  · have hsole := (Option.filter_eq_some_iff.1 (Option.filter_eq_some_iff.1 hhit).1).1
    obtain ⟨n, hid, hn, hnkey, honly⟩ := chosen_of_sole hids hsole
    exact ⟨n, hid, hn, hnkey, .inl honly⟩
  · unfold byHint at hbyHint
    split at hbyHint
    · rename_i ids hsome
      split at hsome
      · cases hsome
      obtain rfl := Option.some.inj hsome
      split at hbyHint
      · exact chosen_of_hint hids hbyHint
      · cases hbyHint
    · cases hbyHint

theorem byName_of_resolveBare {segs : List JsString} {one id : JsString} (hone : segs.getLast? = some one) (hne : one ≠ [])
    (h : (ofNodes nodes).resolveBare one segs.dropLast = some id) :
    ByName nodes segs id ∨ ByBareQualified nodes segs id := by
  have hsingle : (hit (ofNodes nodes).byQualified one).or (hit (ofNodes nodes).byName one) = some id →
      ByName nodes segs id ∨ ByBareQualified nodes segs id := by
    rw [hit_byQualified hne, hit_byName hne]
    intro hor
    rcases Option.or_eq_some_iff.1 hor with hqn | ⟨-, hname⟩
    · obtain ⟨n, hid, hn, hkey, honly⟩ := chosen_of_sole hids (Option.filter_eq_some_iff.1 hqn).1
      refine .inr ⟨n, hn, hid, hkey ▸ hone, fun m hm hmkey => honly m hm ?_⟩
      exact Option.some.inj (hmkey.symm.trans hone)
    · obtain ⟨n, hid, hn, hkey, honly⟩ := chosen_of_sole hids (Option.filter_eq_some_iff.1 hname).1
      refine .inl ⟨n, hid, hn, (show segs.getLast? = some n.name by rw [hone, hkey]), .inl fun m hm hmkey => honly m hm ?_⟩
      exact Option.some.inj (hmkey.symm.trans hone)
  unfold resolveBare at h
  rw [get_candidatesByName hne] at h
  split at h
  · rename_i ids hsome
    split at hsome
    · cases hsome
    obtain rfl := Option.some.inj hsome
    split at h
    · left
      obtain ⟨n, hid, hn, hkey, hchosen⟩ := chosen_of_hint hids h
      refine ⟨n, hid, hn, (show segs.getLast? = some n.name by rw [hone, hkey]), ?_⟩
      have hshare : ∀ m : IndexedNode, segs.getLast? = some m.name → m.name = one :=
        fun m hm => Option.some.inj (hm.symm.trans hone)
      rcases hchosen with honly | ⟨hpos, hbest⟩
      · exact .inl fun m hm hmkey => honly m hm (hshare m hmkey)
      · exact .inr ⟨hpos, fun m hm hmkey => hbest m hm (hshare m hmkey)⟩
    · exact hsingle h
  · exact hsingle h

theorem resolve_chosen {raw id : JsString} (h : (ofNodes nodes).resolve raw = some id) :
    ByJoin nodes (normalizeRuntimeName raw) 2 id ∨ ByJoin nodes (normalizeRuntimeName raw) 3 id ∨
      ByName nodes (normalizeRuntimeName raw) id ∨ ByBareQualified nodes (normalizeRuntimeName raw) id := by
  have hjoin : ∀ k, 0 < k → nonEmpty ((ofNodes nodes).resolveQualifiedJoin (normalizeRuntimeName raw) k) = some id →
      ByJoin nodes (normalizeRuntimeName raw) k id := by
    intro k hk hhit
    have hres := (Option.filter_eq_some_iff.1 hhit).1
    refine byJoin_of_resolve hids ?_ hres
    by_cases hle : k ≤ (normalizeRuntimeName raw).length
    · exact trailingJoin_ne_nil (fun seg hseg => ne_nil_of_mem_normalize hseg) hk hle
    · rw [resolveQualifiedJoin, if_pos (Nat.lt_of_not_le hle)] at hres
      cases hres
  cases hone : (normalizeRuntimeName raw).getLast? with
  | none =>
    simp only [resolve, hone] at h
    cases h
  | some one =>
    simp only [resolve, hone] at h
    rcases Option.or_eq_some_iff.1 h with h2 | ⟨-, h⟩
    · exact .inl (hjoin 2 (by decide) h2)
    rcases Option.or_eq_some_iff.1 h with h3 | ⟨-, hbare⟩
    · exact .inr (.inl (hjoin 3 (by decide) h3))
    · exact .inr (.inr (byName_of_resolveBare hids hone (ne_nil_of_mem_normalize (List.mem_of_getLast? hone)) hbare))

end Answers

/-- What the resolver promises for a name: its answer depends neither on the order of the
nodes nor on their repetition, is the only candidate or outranks every other one, and
stays when a node comes that shares none of the trailing joins. -/
structure ResolvesAlone (nodes : List IndexedNode) (raw : JsString) : Prop where
  order : ∀ nodes', (∀ n, n ∈ nodes' ↔ n ∈ nodes) → (ofNodes nodes').resolve raw = (ofNodes nodes).resolve raw
  chosen : ∀ id, (ofNodes nodes).resolve raw = some id →
    ByJoin nodes (normalizeRuntimeName raw) 2 id ∨ ByJoin nodes (normalizeRuntimeName raw) 3 id ∨
      ByName nodes (normalizeRuntimeName raw) id ∨ ByBareQualified nodes (normalizeRuntimeName raw) id
  frame : ∀ n : IndexedNode, (∀ k ∈ [1, 2, 3], k ≤ (normalizeRuntimeName raw).length →
      n.name ≠ trailingJoin (normalizeRuntimeName raw) k ∧ n.qualifiedName ≠ trailingJoin (normalizeRuntimeName raw) k) →
    (ofNodes (n :: nodes)).resolve raw = (ofNodes nodes).resolve raw

theorem resolve_alone (nodes : List IndexedNode) (hids : (nodes.map (·.id)).Nodup) (raw : JsString) :
    ResolvesAlone nodes raw := by
  refine ⟨fun nodes' hmem => ?_, fun id h => ?_, fun n hn => ?_⟩
  · have hsame : ∀ (keyOf : IndexedNode → JsString) key, SameAt keyOf nodes' nodes key := by
      intro keyOf key id
      simp only [mem_idsBy, hmem]
    exact resolve_congr (fun k _ _ => hsame _ _) fun _ => hsame _ _
  · exact resolve_chosen (fun a ha b hb hab => List.inj_on_of_nodup_map hids ha hb hab) h
  · apply resolve_congr
    · intro k hk hle id
      rw [idsBy_cons, if_neg (hn k hk hle).2]
    · intro hle id
      rw [idsBy_cons, if_neg (hn 1 (by simp) hle).1]

end TraceNameResolver

open TraceNameResolver

/-- A name that no node has, and the qualified name of one. -/
theorem bare_qualified_answer :
    (ofNodes [⟨ascii "m/x", ascii "x", ascii "close"⟩]).resolve (ascii "close") = some (ascii "m/x") ∧
      ¬ (ByJoin [⟨ascii "m/x", ascii "x", ascii "close"⟩] (normalizeRuntimeName (ascii "close")) 2 (ascii "m/x") ∨
        ByJoin [⟨ascii "m/x", ascii "x", ascii "close"⟩] (normalizeRuntimeName (ascii "close")) 3 (ascii "m/x") ∨
        ByName [⟨ascii "m/x", ascii "x", ascii "close"⟩] (normalizeRuntimeName (ascii "close")) (ascii "m/x")) := by
  have hsegs : normalizeRuntimeName (ascii "close") = [ascii "close"] := by decide +kernel
  refine ⟨by decide +kernel, ?_⟩
  rw [hsegs]
  rintro (⟨hlen, -⟩ | ⟨hlen, -⟩ | ⟨n, -, hn, hname, -⟩)
  · exact absurd hlen (by decide)
  · exact absurd hlen (by decide)
  · rw [List.mem_singleton] at hn
    subst hn
    exact absurd hname (by decide +kernel)

theorem resolve_alone_queries :
    (ofNodes [⟨ascii "m/close", ascii "close", ascii "close"⟩, ⟨ascii "db/queries/Db.close", ascii "close", ascii "Db.close"⟩]).resolve
        (ascii "queries:close") = some (ascii "db/queries/Db.close") ∧
      ResolvesAlone [⟨ascii "m/close", ascii "close", ascii "close"⟩,
        ⟨ascii "db/queries/Db.close", ascii "close", ascii "Db.close"⟩] (ascii "queries:close") :=
  ⟨by decide +kernel, resolve_alone _ (by decide +kernel) _⟩

end Hayven.Graph
