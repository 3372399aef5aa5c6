import Hayven.Db.LanePlanner
import Mathlib.Data.List.Pairwise
/-!
# Lanes are the components of overlap

Two seeds overlap when their radii share a symbol or a file. The planned lanes are the
classes of seeds linked by overlaps, whatever the radii are: `planLanes_separates`, for
the radii the planner computes. These leave out a hub even where it is another seed, so
what the plan says of the blast radii themselves has a condition:
`planLanes_separates_iff`.
-/
open Hayven.Lib Hayven.Lib.DisjointSets

namespace Hayven.Db

/-! ## What a safe and minimal plan is -/

section Separation
variable (db : GraphRows) (radius : JsString → JsString → Prop) (seeds : List JsString)

/-- A symbol of the seed's radius is defined in the file. -/
def ReachesFile (s f : JsString) : Prop := ∃ x, radius s x ∧ db.fileOf x = some f

def Touches (s t : JsString) : Prop :=
  (∃ x, radius s x ∧ radius t x) ∨ ∃ f, ReachesFile db radius s f ∧ ReachesFile db radius t f

/-- A chain of seeds, each touching the next. -/
def Linked : JsString → JsString → Prop := Relation.ReflTransGen fun s t => t ∈ seeds ∧ Touches db radius s t

structure Separates (lanes : List PlannedLane) : Prop where
  partition : (lanes.flatMap (·.seeds)).Perm seeds
  linked : ∀ s ∈ seeds, ∀ t ∈ seeds,
    (∃ lane ∈ lanes, s ∈ lane.seeds ∧ t ∈ lane.seeds) ↔ Linked db radius seeds s t
  symbols : ∀ lane ∈ lanes, ∀ x, x ∈ lane.symbols ↔ ∃ s ∈ lane.seeds, radius s x
  files : ∀ lane ∈ lanes, ∀ f, f ∈ lane.files ↔ ∃ s ∈ lane.seeds, ReachesFile db radius s f
  apart : lanes.Pairwise fun a b => (∀ x ∈ a.symbols, x ∉ b.symbols) ∧ ∀ f ∈ a.files, f ∉ b.files
  seedsApart : ∀ a ∈ lanes, ∀ b ∈ lanes, ∀ s ∈ a.seeds, ∀ t ∈ b.seeds, radius s t → a = b

variable {db radius seeds}

theorem Touches.symm {s t : JsString} (h : Touches db radius s t) : Touches db radius t s := by
  rcases h with ⟨x, hs, ht⟩ | ⟨f, hs, ht⟩
  · exact .inl ⟨x, ht, hs⟩
  · exact .inr ⟨f, ht, hs⟩

theorem Linked.single {s t : JsString} (ht : t ∈ seeds) (h : Touches db radius s t) : Linked db radius seeds s t :=
  Relation.ReflTransGen.single ⟨ht, h⟩

theorem Linked.symm {s t : JsString} (hs : s ∈ seeds) (h : Linked db radius seeds s t) : Linked db radius seeds t s := by
  induction h with
  | refl => exact .refl
  | @tail b c hsb hbc ih =>
    have hb : b ∈ seeds := by
      rcases Relation.ReflTransGen.cases_tail hsb with rfl | ⟨_, -, hb, -⟩
      · exact hs
      · exact hb
    exact Relation.ReflTransGen.head ⟨hb, hbc.2.symm⟩ ih

end Separation

namespace Separates
variable {db : GraphRows} {radius : JsString → JsString → Prop} {seeds : List JsString} {lanes : List PlannedLane}

theorem mem_seeds (h : Separates db radius seeds lanes) {lane : PlannedLane} (hlane : lane ∈ lanes) {s : JsString}
    (hs : s ∈ lane.seeds) : s ∈ seeds :=
  h.partition.subset (List.mem_flatMap.2 ⟨lane, hlane, hs⟩)

/-- A seed's lane has every seed linked to it. -/
theorem same_lane (h : Separates db radius seeds lanes) (hself : ∀ s, radius s s) {lane : PlannedLane}
    (hlane : lane ∈ lanes) {s t : JsString} (hs : s ∈ lane.seeds) (ht : t ∈ seeds) (hst : Linked db radius seeds s t) :
    t ∈ lane.seeds := by
  obtain ⟨lane', hlane', hs', ht'⟩ := (h.linked s (h.mem_seeds hlane hs) t ht).2 hst
  rw [h.seedsApart lane hlane lane' hlane' s hs s hs' (hself s)]
  exact ht'

end Separates

/-! ## The radii -/

section Radii
variable (localeCompare : JsString → JsString → Ordering) (db : GraphRows) (opts : LaneOptions)

/-- The seed and its hits, without the hubs that are not seeds themselves. -/
def BlastRadius (seeds : List JsString) (s x : JsString) : Prop :=
  x = s ∨ (x ∈ impactHits localeCompare db opts s ∧ (isHub db opts x = true → x ∈ seeds))

/-- The seed and its hits, without the hubs. -/
def PrunedRadius (s x : JsString) : Prop :=
  x = s ∨ (x ∈ impactHits localeCompare db opts s ∧ isHub db opts x = false)

variable {localeCompare db opts}

theorem mem_radiusSymbols {s x : JsString} :
    x ∈ radiusSymbols localeCompare db opts s ↔ PrunedRadius localeCompare db opts s x := by
  simp only [radiusSymbols, PrunedRadius, mem_addAll, List.mem_singleton, List.mem_filter, Bool.or_eq_true,
    decide_eq_true_eq, Bool.not_eq_true']
  tauto

theorem mem_radiusFiles {s f : JsString} :
    f ∈ (seedRadius localeCompare db opts s).files ↔ ReachesFile db (PrunedRadius localeCompare db opts) s f := by
  simp only [seedRadius, mem_addAll, List.not_mem_nil, false_or, List.mem_filterMap, mem_radiusSymbols, ReachesFile]

theorem overlaps_iff {s t : JsString} :
    overlaps (seedRadius localeCompare db opts s) (seedRadius localeCompare db opts t) = true ↔
      Touches db (PrunedRadius localeCompare db opts) s t := by
  unfold overlaps Touches
  rw [Bool.or_eq_true, intersects_iff, intersects_iff]
  simp only [mem_radiusFiles]
  simp only [seedRadius, mem_radiusSymbols]

theorem nodup_addSymbol {s : SeedList} (h : s.seeds.Nodup) (sym : JsString) : (addSymbol db s sym).seeds.Nodup := by
  unfold addSymbol
  split
  · exact h
  · exact nodup_addNew h _

theorem nodup_addFile {s : SeedList} (h : s.seeds.Nodup) (file : JsString) : (addFile db s file).seeds.Nodup := by
  unfold addFile
  split
  · exact h
  · exact nodup_addAll h _

theorem nodup_seedList (input : LaneInput) : (seedList db input).seeds.Nodup := by
  have hsymbols : ∀ (syms : List JsString) (s : SeedList), s.seeds.Nodup → (syms.foldl (addSymbol db) s).seeds.Nodup := by
    intro syms
    induction syms with
    | nil => intro s h; exact h
    | cons sym syms ih => intro s h; exact ih _ (nodup_addSymbol h sym)
  have hfiles : ∀ (fs : List JsString) (s : SeedList), s.seeds.Nodup → (fs.foldl (addFile db) s).seeds.Nodup := by
    intro fs
    induction fs with
    | nil => intro s h; exact h
    | cons f fs ih => intro s h; exact ih _ (nodup_addFile h f)
  exact hfiles _ _ (hsymbols _ _ List.nodup_nil)

end Radii

/-! ## Components -/

theorem mem_indexPairs {n i j : Nat} : (i, j) ∈ indexPairs n ↔ i < j ∧ j < n := by
  simp only [indexPairs, List.mem_flatMap, List.mem_range, List.mem_map, List.mem_filter, decide_eq_true_eq,
    Prod.mk.injEq]
  constructor
  · rintro ⟨_, _, _, ⟨hj, hij⟩, rfl, rfl⟩
    exact ⟨hij, hj⟩
  · rintro ⟨hij, hj⟩
    exact ⟨i, by omega, j, ⟨hj, hij⟩, rfl, rfl⟩

section Components
variable {localeCompare : JsString → JsString → Ordering} {db : GraphRows} {opts : LaneOptions} {seeds : List JsString}

/-- The radii of the seeds, by index. -/
def radiiOf (localeCompare : JsString → JsString → Ordering) (db : GraphRows) (opts : LaneOptions)
    (seeds : List JsString) : List SeedRadius := seeds.map (seedRadius localeCompare db opts)

theorem radiusAt_radiiOf {i : Nat} (hi : i < seeds.length) :
    radiusAt (radiiOf localeCompare db opts seeds) i = seedRadius localeCompare db opts seeds[i] := by
  simp [radiusAt, radiiOf, List.getD_eq_getElem?_getD, hi]

theorem mem_coupledPairs {i j : Nat} : (i, j) ∈ coupledPairs (radiiOf localeCompare db opts seeds) ↔
    i < j ∧ ∃ (hi : i < seeds.length) (hj : j < seeds.length),
      Touches db (PrunedRadius localeCompare db opts) seeds[i] seeds[j] := by
  unfold coupledPairs
  rw [List.mem_filter, mem_indexPairs]
  constructor
  · rintro ⟨⟨hij, hj⟩, ho⟩
    have hj' : j < seeds.length := by simpa [radiiOf] using hj
    have hi' : i < seeds.length := by omega
    rw [radiusAt_radiiOf hi', radiusAt_radiiOf hj', overlaps_iff] at ho
    exact ⟨hij, hi', hj', ho⟩
  · rintro ⟨hij, hi, hj, ho⟩
    refine ⟨⟨hij, by simpa [radiiOf] using hj⟩, ?_⟩
    rw [radiusAt_radiiOf hi, radiusAt_radiiOf hj, overlaps_iff]
    exact ho

/-- The pairs the planner unites generate the links between seeds. -/
theorem eqvGen_iff_linked {i j : Nat} (hi : i < seeds.length) (hj : j < seeds.length) (hnd : seeds.Nodup) :
    Relation.EqvGen (fun a b => id a = id b ∨ (a, b) ∈ coupledPairs (radiiOf localeCompare db opts seeds)) i j ↔
      Linked db (PrunedRadius localeCompare db opts) seeds seeds[i] seeds[j] := by
  constructor
  · intro h
    have key : i = j ∨ ∃ (hi : i < seeds.length) (hj : j < seeds.length),
        Linked db (PrunedRadius localeCompare db opts) seeds seeds[i] seeds[j] := by
      clear hi hj
      induction h with
      | rel a b hab =>
        rcases hab with hab | hab
        · exact .inl hab
        · obtain ⟨-, ha, hb, ht⟩ := mem_coupledPairs.1 hab
          exact .inr ⟨ha, hb, .single (List.getElem_mem hb) ht⟩
      | refl a => exact .inl rfl
      | symm a b _ ih =>
        rcases ih with rfl | ⟨ha, hb, hl⟩
        · exact .inl rfl
        · exact .inr ⟨hb, ha, hl.symm (List.getElem_mem ha)⟩
      | trans a b c _ _ ih₁ ih₂ =>
        rcases ih₁ with rfl | ⟨ha, hb, hl₁⟩
        · exact ih₂
        · rcases ih₂ with rfl | ⟨_, hc, hl₂⟩
          · exact .inr ⟨ha, hb, hl₁⟩
          · exact .inr ⟨ha, hc, hl₁.trans hl₂⟩
    rcases key with rfl | ⟨_, _, hl⟩
    · exact .refl
    · exact hl
  · intro h
    generalize hs : seeds[i] = s at h
    generalize ht : seeds[j] = t at h
    induction h generalizing j with
    | refl =>
      have : i = j := (List.Nodup.getElem_inj_iff hnd).1 (hs.trans ht.symm)
      exact .rel _ _ (.inl this)
    | @tail b c hsb hbc ih =>
      have hb : b ∈ seeds := by
        rcases Relation.ReflTransGen.cases_tail hsb with rfl | ⟨_, -, hb, -⟩
        · exact hs ▸ List.getElem_mem hi
        · exact hb
      obtain ⟨k, hk, rfl⟩ := List.getElem_of_mem hb
      refine (ih hk rfl).trans _ _ _ ?_
      have htouch := hbc.2
      rw [← ht] at htouch
      rcases Nat.lt_trichotomy k j with hkj | rfl | hjk
      · exact .rel _ _ (.inr (mem_coupledPairs.2 ⟨hkj, hk, hj, htouch⟩))
      · exact .refl _
      · exact .symm _ _ (.rel _ _ (.inr (mem_coupledPairs.2 ⟨hjk, hj, hk, htouch.symm⟩)))

variable (localeCompare db opts) in
/-- The components exist, and are the classes of linked seeds. -/
theorem components_spec (hnd : seeds.Nodup) :
    ∃ (comps : KeyedMap Nat (List Nat)) (rep : Nat → Nat),
      components (radiiOf localeCompare db opts seeds) = some comps ∧
      (∀ k, comps.get k =
        if (List.range seeds.length).filter (rep · = k) = [] then none
        else some ((List.range seeds.length).filter (rep · = k))) ∧
      ∀ i j, (hi : i < seeds.length) → (hj : j < seeds.length) →
        (rep i = rep j ↔ Linked db (PrunedRadius localeCompare db opts) seeds seeds[i] seeds[j]) := by
  have hlen : (radiiOf localeCompare db opts seeds).length = seeds.length := by simp [radiiOf]
  have hlen' : (singletons seeds.length).length = seeds.length := by simp [singletons]
  obtain ⟨parent, rep, hlink, hrepr, hplen, hrep⟩ := linkAll_spec (coupledPairs (radiiOf localeCompare db opts seeds))
    (represents_singletons seeds.length) (fun ij hij => by
      obtain ⟨_, hi, hj, _⟩ := mem_coupledPairs.1 hij
      rw [hlen']
      exact ⟨hi, hj⟩)
  obtain ⟨parent', hbuckets⟩ := bucketsFrom_spec (List.range seeds.length) (m := .empty) hrepr
    (fun i hi => by rw [hplen, hlen']; exact List.mem_range.1 hi)
  refine ⟨(List.range seeds.length).foldl (fun m i => addTo m (rep i) i) .empty, rep, ?_, ?_, ?_⟩
  · unfold components
    simp only [hlen, hlink, hbuckets, Option.bind_eq_bind, Option.bind_some]
    rfl
  · intro k
    rw [get_foldl_addTo]
    simp
  · intro i j hi hj
    rw [hrep]
    exact eqvGen_iff_linked hi hj hnd

end Components

/-! ## Lanes -/

section Lanes
variable {localeCompare : JsString → JsString → Ordering} {db : GraphRows} {opts : LaneOptions} {seeds : List JsString}
  {rep : Nat → Nat}

/-- The lane of the seeds whose class is `k`. -/
def classLane (localeCompare : JsString → JsString → Ordering) (db : GraphRows) (opts : LaneOptions)
    (seeds : List JsString) (rep : Nat → Nat) (k : Nat) : PlannedLane :=
  laneOf (radiiOf localeCompare db opts seeds) ((List.range seeds.length).filter (rep · = k))

theorem mem_classLane_seeds {k : Nat} {s : JsString} : s ∈ (classLane localeCompare db opts seeds rep k).seeds ↔
    ∃ (i : Nat) (hi : i < seeds.length), rep i = k ∧ seeds[i] = s := by
  simp only [classLane, laneOf, mem_sortWith, List.mem_map, List.mem_filter, List.mem_range, decide_eq_true_eq]
  constructor
  · rintro ⟨i, ⟨hi, hk⟩, rfl⟩
    exact ⟨i, hi, hk, by rw [radiusAt_radiiOf hi]; rfl⟩
  · rintro ⟨i, hi, hk, rfl⟩
    exact ⟨i, ⟨hi, hk⟩, by rw [radiusAt_radiiOf hi]; rfl⟩

theorem mem_classLane_symbols {k : Nat} {x : JsString} : x ∈ (classLane localeCompare db opts seeds rep k).symbols ↔
    ∃ s ∈ (classLane localeCompare db opts seeds rep k).seeds, PrunedRadius localeCompare db opts s x := by
  simp only [mem_classLane_seeds]
  simp only [classLane, laneOf, mem_sortWith, mem_addAll, List.not_mem_nil, false_or, List.mem_flatMap, List.mem_filter,
    List.mem_range, decide_eq_true_eq]
  constructor
  · rintro ⟨i, ⟨hi, hk⟩, hx⟩
    rw [radiusAt_radiiOf hi] at hx
    exact ⟨_, ⟨i, hi, hk, rfl⟩, mem_radiusSymbols.1 hx⟩
  · rintro ⟨_, ⟨i, hi, hk, rfl⟩, hx⟩
    refine ⟨i, ⟨hi, hk⟩, ?_⟩
    rw [radiusAt_radiiOf hi]
    exact mem_radiusSymbols.2 hx

theorem mem_classLane_files {k : Nat} {f : JsString} : f ∈ (classLane localeCompare db opts seeds rep k).files ↔
    ∃ s ∈ (classLane localeCompare db opts seeds rep k).seeds,
      ReachesFile db (PrunedRadius localeCompare db opts) s f := by
  simp only [mem_classLane_seeds]
  simp only [classLane, laneOf, mem_sortWith, mem_addAll, List.not_mem_nil, false_or, List.mem_flatMap, List.mem_filter,
    List.mem_range, decide_eq_true_eq]
  constructor
  · rintro ⟨i, ⟨hi, hk⟩, hf⟩
    rw [radiusAt_radiiOf hi] at hf
    exact ⟨_, ⟨i, hi, hk, rfl⟩, mem_radiusFiles.1 hf⟩
  · rintro ⟨_, ⟨i, hi, hk, rfl⟩, hf⟩
    refine ⟨i, ⟨hi, hk⟩, ?_⟩
    rw [radiusAt_radiiOf hi]
    exact mem_radiusFiles.2 hf

/-- Nothing is in both lanes. -/
structure Apart (a b : PlannedLane) : Prop where
  seeds : ∀ s ∈ a.seeds, s ∉ b.seeds
  symbols : ∀ x ∈ a.symbols, x ∉ b.symbols
  files : ∀ f ∈ a.files, f ∉ b.files

theorem Apart.symm {a b : PlannedLane} (h : Apart a b) : Apart b a :=
  ⟨fun s hb ha => h.seeds s ha hb, fun x hb ha => h.symbols x ha hb, fun f hb ha => h.files f ha hb⟩

instance : Std.Symm Apart := ⟨fun _ _ h => h.symm⟩

/-- The classes are those of linked seeds. -/
def ClassesLink (localeCompare : JsString → JsString → Ordering) (db : GraphRows) (opts : LaneOptions)
    (seeds : List JsString) (rep : Nat → Nat) : Prop :=
  ∀ i j, (hi : i < seeds.length) → (hj : j < seeds.length) →
    (rep i = rep j ↔ Linked db (PrunedRadius localeCompare db opts) seeds seeds[i] seeds[j])

theorem apart_classLane (hrep : ClassesLink localeCompare db opts seeds rep) {k k' : Nat} (hne : k ≠ k') :
    Apart (classLane localeCompare db opts seeds rep k) (classLane localeCompare db opts seeds rep k') := by
  have htouch : ∀ s ∈ (classLane localeCompare db opts seeds rep k).seeds,
      ∀ t ∈ (classLane localeCompare db opts seeds rep k').seeds,
        ¬ Touches db (PrunedRadius localeCompare db opts) s t := by
    intro s hs t ht h
    obtain ⟨i, hi, rfl, rfl⟩ := mem_classLane_seeds.1 hs
    obtain ⟨j, hj, rfl, rfl⟩ := mem_classLane_seeds.1 ht
    exact hne ((hrep i j hi hj).2 (.single (List.getElem_mem hj) h))
  constructor
  · intro s hs ht
    exact htouch s hs s ht (.inl ⟨s, .inl rfl, .inl rfl⟩)
  · intro x ha hb
    obtain ⟨s, hs, hsx⟩ := mem_classLane_symbols.1 ha
    obtain ⟨t, ht, htx⟩ := mem_classLane_symbols.1 hb
    exact htouch s hs t ht (.inl ⟨x, hsx, htx⟩)
  · intro f ha hb
    obtain ⟨s, hs, hsf⟩ := mem_classLane_files.1 ha
    obtain ⟨t, ht, htf⟩ := mem_classLane_files.1 hb
    exact htouch s hs t ht (.inr ⟨f, hsf, htf⟩)

theorem nodup_classLane_seeds (hnd : seeds.Nodup) (k : Nat) : (classLane localeCompare db opts seeds rep k).seeds.Nodup := by
  unfold classLane laneOf
  rw [(sortWith_perm _ _).nodup_iff]
  refine List.Nodup.map_on ?_ (List.nodup_range.filter _)
  intro i hi j hj hij
  have hi' := List.mem_range.1 (List.mem_filter.1 hi).1
  have hj' := List.mem_range.1 (List.mem_filter.1 hj).1
  rw [radiusAt_radiiOf hi', radiusAt_radiiOf hj'] at hij
  exact (List.Nodup.getElem_inj_iff hnd).1 hij

/-- Lanes that are apart pass the tripwire. -/
theorem assertDisjoint_ok {lanes : List PlannedLane} (h : lanes.Pairwise Apart) : assertDisjoint lanes = .ok () := by
  have hnone : (indexPairs lanes.length).findSome?
      (fun ij => clash ij.1 ij.2 (laneAt lanes ij.1) (laneAt lanes ij.2)) = none := by
    rw [List.findSome?_eq_none_iff]
    rintro ⟨i, j⟩ hij
    obtain ⟨hij, hj⟩ := mem_indexPairs.1 hij
    have hi : i < lanes.length := by omega
    have hapart := List.pairwise_iff_getElem.1 h i j hi hj hij
    have hai : laneAt lanes i = lanes[i] := by simp [laneAt, List.getD_eq_getElem?_getD, hi]
    have haj : laneAt lanes j = lanes[j] := by simp [laneAt, List.getD_eq_getElem?_getD, hj]
    simp only [hai, haj, clash, Option.or_eq_none_iff, Option.map_eq_none_iff, List.find?_eq_none, decide_eq_true_eq]
    exact ⟨fun x hx hx' => hapart.symbols x hx' hx, fun f hf hf' => hapart.files f hf' hf⟩
  unfold assertDisjoint
  rw [hnone]

/-- The lanes are those of the classes. -/
def LanesOfClasses (localeCompare : JsString → JsString → Ordering) (db : GraphRows) (opts : LaneOptions)
    (seeds : List JsString) (rep : Nat → Nat) (lanes : List PlannedLane) : Prop :=
  ∀ lane, lane ∈ lanes ↔ ∃ i < seeds.length, lane = classLane localeCompare db opts seeds rep (rep i)

theorem mem_own_lane {i : Nat} (hi : i < seeds.length) :
    seeds[i] ∈ (classLane localeCompare db opts seeds rep (rep i)).seeds := mem_classLane_seeds.2 ⟨i, hi, rfl, rfl⟩

theorem separates_of_classes {lanes : List PlannedLane} (hnd : seeds.Nodup)
    (hrep : ClassesLink localeCompare db opts seeds rep) (hpair : lanes.Pairwise Apart)
    (hmem : LanesOfClasses localeCompare db opts seeds rep lanes) :
    Separates db (PrunedRadius localeCompare db opts) seeds lanes := by
  have hsymbols : ∀ lane ∈ lanes, ∀ x,
      x ∈ lane.symbols ↔ ∃ s ∈ lane.seeds, PrunedRadius localeCompare db opts s x := by
    intro lane hlane x
    obtain ⟨i, -, rfl⟩ := (hmem lane).1 hlane
    exact mem_classLane_symbols
  refine ⟨?partition, ?linked, hsymbols, ?files, ?apart, ?seedsApart⟩
  case partition =>
    refine (List.perm_ext_iff_of_nodup ?_ hnd).2 ?_
    · rw [List.nodup_flatMap]
      refine ⟨fun lane hlane => ?_, hpair.imp fun h s ha hb => h.seeds s ha hb⟩
      obtain ⟨i, -, rfl⟩ := (hmem lane).1 hlane
      exact nodup_classLane_seeds hnd _
    · intro s
      rw [List.mem_flatMap]
      constructor
      · rintro ⟨lane, hlane, hs⟩
        obtain ⟨i, -, rfl⟩ := (hmem lane).1 hlane
        obtain ⟨j, hj, -, rfl⟩ := mem_classLane_seeds.1 hs
        exact List.getElem_mem hj
      · intro hs
        obtain ⟨i, hi, rfl⟩ := List.getElem_of_mem hs
        exact ⟨_, (hmem _).2 ⟨i, hi, rfl⟩, mem_own_lane hi⟩
  case linked =>
    intro s hs t ht
    obtain ⟨i, hi, rfl⟩ := List.getElem_of_mem hs
    obtain ⟨j, hj, rfl⟩ := List.getElem_of_mem ht
    rw [← hrep i j hi hj]
    constructor
    · rintro ⟨lane, hlane, hi', hj'⟩
      obtain ⟨k, -, rfl⟩ := (hmem lane).1 hlane
      obtain ⟨i₁, hi₁, hk, heq⟩ := mem_classLane_seeds.1 hi'
      obtain rfl : i₁ = i := (List.Nodup.getElem_inj_iff hnd).1 heq
      obtain ⟨j₁, hj₁, hk', heq'⟩ := mem_classLane_seeds.1 hj'
      obtain rfl : j₁ = j := (List.Nodup.getElem_inj_iff hnd).1 heq'
      exact hk.trans hk'.symm
    · intro hij
      exact ⟨_, (hmem _).2 ⟨i, hi, rfl⟩, mem_own_lane hi, mem_classLane_seeds.2 ⟨j, hj, hij.symm, rfl⟩⟩
  case files =>
    intro lane hlane f
    obtain ⟨i, -, rfl⟩ := (hmem lane).1 hlane
    exact mem_classLane_files
  case apart => exact hpair.imp fun h => ⟨h.symbols, h.files⟩
  case seedsApart =>
    intro a ha b hb s hs t ht hst
    -- the radius puts `t` among the symbols of both lanes
    have hta : t ∈ a.symbols := (hsymbols a ha t).2 ⟨s, hs, hst⟩
    have htb : t ∈ b.symbols := (hsymbols b hb t).2 ⟨t, ht, .inl rfl⟩
    by_contra hab
    exact (hpair.forall ha hb hab).symbols t hta htb

end Lanes

section Plan
variable (localeCompare : JsString → JsString → Ordering) (db : GraphRows) (input : LaneInput) (opts : LaneOptions)

/-- A plan comes back, and its lanes are so. -/
def Planned (P : List PlannedLane → Prop) : Prop :=
  ∃ plan, planLanes localeCompare db input opts = some (.ok plan) ∧ P plan.lanes

variable {localeCompare db input opts}

/-- The plan is of the lanes of the classes. -/
theorem planLanes_eq (hne : (seedList db input).seeds ≠ []) {comps : KeyedMap Nat (List Nat)}
    (hcomps : components (radiiOf localeCompare db opts (seedList db input).seeds) = some comps)
    (hok : assertDisjoint (sortWith laneOrder
      (comps.values.map (laneOf (radiiOf localeCompare db opts (seedList db input).seeds)))) = .ok ()) :
    Planned localeCompare db input opts fun lanes => lanes = sortWith laneOrder
      (comps.values.map (laneOf (radiiOf localeCompare db opts (seedList db input).seeds))) := by
  unfold Planned planLanes
  rw [if_neg hne]
  unfold radiiOf at *
  simp only [hcomps, Option.map_some, hok, Option.some.injEq]
  cases opts.maxHubDegree with
  | none => exact ⟨_, rfl, rfl⟩
  | some max => exact ⟨_, rfl, rfl⟩

end Plan

/-- The planned lanes separate the seeds by the radii without hubs. -/
theorem planLanes_separates (localeCompare : JsString → JsString → Ordering) (db : GraphRows) (input : LaneInput)
    (opts : LaneOptions) :
    Planned localeCompare db input opts
      (Separates db (PrunedRadius localeCompare db opts) (seedList db input).seeds) := by
  have hnd : (seedList db input).seeds.Nodup := nodup_seedList input
  by_cases hne : (seedList db input).seeds = []
  · refine ⟨emptyPlan (seedList db input), by unfold planLanes; rw [if_pos hne], ?_⟩
    rw [hne]
    constructor <;> simp [emptyPlan]
  obtain ⟨comps, rep, hcomps, hget, hrep⟩ :=
    components_spec localeCompare db opts hnd
  generalize hseeds : (seedList db input).seeds = seeds at *
  have hlane : ∀ k bucket, comps.get k = some bucket →
      laneOf (radiiOf localeCompare db opts seeds) bucket = classLane localeCompare db opts seeds rep k := by
    intro k bucket hk
    rw [hget] at hk
    split at hk
    · cases hk
    · obtain rfl := Option.some.inj hk
      rfl
  have hpair : (sortWith laneOrder (comps.values.map (laneOf (radiiOf localeCompare db opts seeds)))).Pairwise Apart := by
    refine ((sortWith_perm laneOrder _).pairwise_iff (fun h => h.symm)).2 ?_
    unfold KeyedMap.values
    rw [List.map_map, List.pairwise_map]
    refine (List.pairwise_map.1 comps.nodup).imp_of_mem ?_
    rintro ⟨k, b⟩ ⟨k', b'⟩ hb hb' hkk
    simp only [Function.comp_apply]
    rw [hlane k b (KeyedMap.get_eq_some.2 hb), hlane k' b' (KeyedMap.get_eq_some.2 hb')]
    exact apart_classLane hrep hkk
  have hmem : LanesOfClasses localeCompare db opts seeds rep
      (sortWith laneOrder (comps.values.map (laneOf (radiiOf localeCompare db opts seeds)))) := by
    intro lane
    rw [mem_sortWith, List.mem_map]
    constructor
    · rintro ⟨bucket, hbucket, rfl⟩
      obtain ⟨k, hk⟩ := KeyedMap.mem_values.1 hbucket
      rw [hlane k bucket hk]
      rw [hget] at hk
      split at hk
      · cases hk
      · rename_i hsome
        obtain ⟨i, hi⟩ := List.exists_mem_of_ne_nil _ hsome
        rw [List.mem_filter, List.mem_range, decide_eq_true_eq] at hi
        obtain ⟨hi, rfl⟩ := hi
        exact ⟨i, hi, rfl⟩
    · rintro ⟨i, hi, rfl⟩
      have hsome : comps.get (rep i) = some ((List.range seeds.length).filter (rep · = rep i)) := by
        rw [hget, if_neg]
        exact List.ne_nil_of_mem (List.mem_filter.2 ⟨List.mem_range.2 hi, by simp⟩)
      exact ⟨_, KeyedMap.mem_values.2 ⟨_, hsome⟩, rfl⟩
  obtain ⟨plan, hplan, hlanes⟩ := planLanes_eq (hseeds ▸ hne) (hseeds ▸ hcomps) (hseeds ▸ assertDisjoint_ok hpair)
  refine ⟨plan, hplan, ?_⟩
  rw [hlanes, hseeds]
  exact separates_of_classes hnd hrep hpair hmem

/-! ## Seeds that are hubs -/

section HubSeeds
variable (localeCompare : JsString → JsString → Ordering) (db : GraphRows) (opts : LaneOptions) (seeds : List JsString)

/-- A hub seed in the blast radius of another seed is linked to it without the hubs too. -/
def HubSeedsLinked : Prop :=
  ∀ s ∈ seeds, ∀ t ∈ seeds, isHub db opts t = true → t ∈ impactHits localeCompare db opts s →
    Linked db (PrunedRadius localeCompare db opts) seeds s t

variable {localeCompare db opts seeds}

theorem BlastRadius.of_pruned {s x : JsString} (h : PrunedRadius localeCompare db opts s x) :
    BlastRadius localeCompare db opts seeds s x := by
  rcases h with rfl | ⟨hx, hhub⟩
  · exact .inl rfl
  · exact .inr ⟨hx, fun h => by rw [hhub] at h; cases h⟩

/-- What is in a blast radius is in the radius without hubs of a linked seed. -/
theorem BlastRadius.pruned (hlinked : HubSeedsLinked localeCompare db opts seeds) {s x : JsString} (hs : s ∈ seeds)
    (h : BlastRadius localeCompare db opts seeds s x) :
    ∃ t ∈ seeds, Linked db (PrunedRadius localeCompare db opts) seeds s t ∧ PrunedRadius localeCompare db opts t x := by
  rcases h with rfl | ⟨hx, hhub⟩
  · exact ⟨x, hs, .refl, .inl rfl⟩
  · cases hh : isHub db opts x with
    | false => exact ⟨s, hs, .refl, .inr ⟨hx, hh⟩⟩
    | true => exact ⟨x, hhub hh, hlinked s hs x (hhub hh) hh hx, .inl rfl⟩

theorem Touches.linked (hlinked : HubSeedsLinked localeCompare db opts seeds) {s t : JsString} (hs : s ∈ seeds)
    (ht : t ∈ seeds) (h : Touches db (BlastRadius localeCompare db opts seeds) s t) :
    Linked db (PrunedRadius localeCompare db opts) seeds s t := by
  -- two seeds near `x` and `y`, linked to `s` and to `t`, touch
  have join : ∀ x y, BlastRadius localeCompare db opts seeds s x → BlastRadius localeCompare db opts seeds t y →
      (x = y ∨ ∃ f, db.fileOf x = some f ∧ db.fileOf y = some f) →
        Linked db (PrunedRadius localeCompare db opts) seeds s t := by
    intro x y hx hy hxy
    obtain ⟨u, hu, hsu, hux⟩ := hx.pruned hlinked hs
    obtain ⟨v, hv, htv, hvy⟩ := hy.pruned hlinked ht
    have huv : Touches db (PrunedRadius localeCompare db opts) u v := by
      rcases hxy with rfl | ⟨f, hf, hf'⟩
      · exact .inl ⟨x, hux, hvy⟩
      · exact .inr ⟨f, ⟨x, hux, hf⟩, ⟨y, hvy, hf'⟩⟩
    exact (hsu.trans (Linked.single hv huv)).trans (htv.symm ht)
  rcases h with ⟨x, hx, hy⟩ | ⟨f, ⟨x, hx, hf⟩, ⟨y, hy, hf'⟩⟩
  · exact join x x hx hy (.inl rfl)
  · exact join x y hx hy (.inr ⟨f, hf, hf'⟩)

theorem linked_iff (hlinked : HubSeedsLinked localeCompare db opts seeds) {s t : JsString} (hs : s ∈ seeds) :
    Linked db (PrunedRadius localeCompare db opts) seeds s t ↔
      Linked db (BlastRadius localeCompare db opts seeds) seeds s t := by
  constructor
  · refine Relation.ReflTransGen.mono ?_ s t
    rintro a b ⟨hb, ⟨x, hx, hy⟩ | ⟨f, ⟨x, hx, hf⟩, ⟨y, hy, hf'⟩⟩⟩
    · exact ⟨hb, .inl ⟨x, .of_pruned hx, .of_pruned hy⟩⟩
    · exact ⟨hb, .inr ⟨f, ⟨x, .of_pruned hx, hf⟩, ⟨y, .of_pruned hy, hf'⟩⟩⟩
  · intro h
    induction h with
    | refl => exact .refl
    | @tail b c hsb hbc ih =>
      have hb : b ∈ seeds := by
        rcases Relation.ReflTransGen.cases_tail hsb with rfl | ⟨_, -, hb, -⟩
        · exact hs
        · exact hb
      exact ih.trans (hbc.2.linked hlinked hb hbc.1)

end HubSeeds

/-- The planned lanes separate the seeds by their blast radii exactly when every hub
seed in another seed's radius is linked to it anyway. -/
theorem planLanes_separates_iff (localeCompare : JsString → JsString → Ordering) (db : GraphRows) (input : LaneInput)
    (opts : LaneOptions) :
    Planned localeCompare db input opts
        (Separates db (BlastRadius localeCompare db opts (seedList db input).seeds) (seedList db input).seeds) ↔
      HubSeedsLinked localeCompare db opts (seedList db input).seeds := by
  obtain ⟨plan, hplan, hsep⟩ := planLanes_separates localeCompare db input opts
  constructor
  · rintro ⟨plan', hplan', hsep'⟩
    obtain rfl : plan = plan' := by
      rw [hplan] at hplan'
      exact Except.ok.inj (Option.some.inj hplan')
    intro s hs t ht hhub hhit
    rw [← hsep.linked s hs t ht, hsep'.linked s hs t ht]
    exact .single ht (.inl ⟨t, .inr ⟨hhit, fun _ => ht⟩, .inl rfl⟩)
  · intro hlinked
    have hself : ∀ s, PrunedRadius localeCompare db opts s s := fun s => .inl rfl
    -- whatever a blast radius holds, a seed of the same lane holds it without the hubs
    have hheld : ∀ lane ∈ plan.lanes, ∀ s ∈ lane.seeds, ∀ x,
        BlastRadius localeCompare db opts (seedList db input).seeds s x →
          ∃ t ∈ lane.seeds, PrunedRadius localeCompare db opts t x := by
      intro lane hlane s hs x hx
      obtain ⟨t, ht, hst, htx⟩ := hx.pruned hlinked (hsep.mem_seeds hlane hs)
      exact ⟨t, hsep.same_lane hself hlane hs ht hst, htx⟩
    refine ⟨plan, hplan, hsep.partition, ?linked, ?symbols, ?files, hsep.apart, ?seedsApart⟩
    case linked =>
      intro s hs t ht
      rw [hsep.linked s hs t ht, linked_iff hlinked hs]
    case symbols =>
      intro lane hlane x
      rw [hsep.symbols lane hlane x]
      constructor
      · rintro ⟨s, hs, hx⟩
        exact ⟨s, hs, .of_pruned hx⟩
      · rintro ⟨s, hs, hx⟩
        exact hheld lane hlane s hs x hx
    case files =>
      intro lane hlane f
      rw [hsep.files lane hlane f]
      constructor
      · rintro ⟨s, hs, x, hx, hf⟩
        exact ⟨s, hs, x, .of_pruned hx, hf⟩
      · rintro ⟨s, hs, x, hx, hf⟩
        obtain ⟨t, ht, htx⟩ := hheld lane hlane s hs x hx
        exact ⟨t, ht, x, htx, hf⟩
    case seedsApart =>
      intro a ha b hb s hs t ht hst
      obtain ⟨u, hu, hut⟩ := hheld a ha s hs t hst
      exact hsep.seedsApart a ha b hb u hu t ht hut

/-! ## Two seeds, one a hub -/

/-- `b` calls `a`, and `c` and `d` inherit from `b`. -/
def baseRows : GraphRows where
  nodes := ((KeyedMap.empty.set (ascii "a") (some (ascii "a.ts"))).set (ascii "b") (some (ascii "b.ts")))
  edges := [⟨ascii "b", ascii "a", ascii "static_call"⟩, ⟨ascii "c", ascii "b", ascii "inherits"⟩,
    ⟨ascii "d", ascii "b", ascii "inherits"⟩]
  searchFts := fun _ => none

def baseInput : LaneInput := ⟨[], [ascii "a", ascii "b"]⟩

def oneDependent : LaneOptions := ⟨none, some (.fin 1)⟩

/-- The seed `b` is in the radius of the seed `a`, and in another lane. -/
theorem planLanes_splits_hub_seed :
    ¬ Planned compare baseRows baseInput oneDependent
      (Separates baseRows (BlastRadius compare baseRows oneDependent (seedList baseRows baseInput).seeds)
        (seedList baseRows baseInput).seeds) := by
  rintro ⟨plan, hplan, hsep⟩
  have hlanes : (planLanes compare baseRows baseInput oneDependent).map (fun r => r.toOption.map (·.lanes)) =
      some (some [⟨[ascii "a"], [ascii "a.ts"], [ascii "a"]⟩, ⟨[ascii "b"], [ascii "b.ts"], [ascii "b"]⟩]) := by
    decide +kernel
  rw [hplan] at hlanes
  have hlanes : plan.lanes = _ := Option.some.inj (Option.some.inj hlanes)
  have hradius : BlastRadius compare baseRows oneDependent (seedList baseRows baseInput).seeds (ascii "a") (ascii "b") :=
    .inr ⟨by decide +kernel, fun _ => by decide +kernel⟩
  have hsame := hsep.seedsApart ⟨[ascii "a"], [ascii "a.ts"], [ascii "a"]⟩ (by rw [hlanes]; simp)
    ⟨[ascii "b"], [ascii "b.ts"], [ascii "b"]⟩ (by rw [hlanes]; simp) (ascii "a") (by simp) (ascii "b") (by simp) hradius
  revert hsame
  decide +kernel

end Hayven.Db
