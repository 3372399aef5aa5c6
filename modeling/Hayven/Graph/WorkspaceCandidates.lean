import Hayven.Graph.ResolvedPaths
import Hayven.Graph.SpecifierLaws
/-!
# What a package specifier may stand for

`WorkspaceMap.candidatePaths` over any list of packages and any `exports` maps: which package a
specifier belongs to, where the candidates lead, and which targets of the selecting key are among
them. Two slips decide when it does what it is for: the guard against leaving the package looks at
the start of a target only, and `replace` takes the first star and reads `$` patterns (`lawful_iff`).
-/
open Hayven.Lib Hayven.Native

namespace Hayven.Graph

/-! ## The package of a specifier -/

/-- The specifier is the name or a path below it. -/
def Names (name spec : JsString) : Prop := name = spec ∨ (name ++ [slash]) <+: spec

def Bare (spec : JsString) : Prop := ¬ (spec = [] ∨ spec.head? = some dot)

/-- The package of the longest name that the specifier has; the first of its name stands. -/
structure Owner (packages : List WorkspacePackage) (spec : JsString) (p : WorkspacePackage) : Prop where
  first : packages.find? (fun q => q.name = p.name) = some p
  named : Names p.name spec
  longest : ∀ q ∈ packages, Names q.name spec → q.name.length ≤ p.name.length

namespace WorkspaceMap
variable {packages : List WorkspacePackage} {spec subpath : JsString} {p : WorkspacePackage}

theorem get_byName_eq (packages : List WorkspacePackage) (name : JsString) :
    (ofPackages packages).byName.get name = packages.find? fun q => q.name = name := by
  have hfold : ∀ (l : List WorkspacePackage) (m : KeyedMap JsString WorkspacePackage),
      (l.foldl (fun m p => if m.has p.name then m else m.set p.name p) m).get name =
        (m.get name).or (l.find? fun q => q.name = name) := by
    intro l
    induction l with
    | nil => exact fun m => (Option.or_none).symm
    | cons q l ih =>
      intro m
      rw [List.foldl_cons, ih, List.find?_cons]
      by_cases hname : q.name = name
      · rw [show (decide (q.name = name)) = true from decide_eq_true hname]
        subst hname
        by_cases hhas : m.has q.name = true
        · obtain ⟨old, hold⟩ := Option.isSome_iff_exists.1 hhas
          rw [if_pos hhas, hold]
          rfl
        · have hnone : m.get q.name = none := by simpa [KeyedMap.has] using hhas
          rw [if_neg hhas, KeyedMap.get_set_self, hnone]
          rfl
      · rw [show (decide (q.name = name)) = false from decide_eq_false hname]
        split
        · rfl
        · rw [KeyedMap.get_set_ne _ _ hname]
  exact hfold packages .empty

theorem mem_values_byName : p ∈ (ofPackages packages).byName.values ↔
    packages.find? (fun q => q.name = p.name) = some p := by
  rw [KeyedMap.mem_values]
  constructor
  · rintro ⟨name, hget⟩
    rw [get_byName_eq] at hget
    have hname := List.find?_some hget
    rwa [of_decide_eq_true hname]
  · intro hfind
    exact ⟨p.name, (get_byName_eq packages p.name).trans hfind⟩

/-- The scan over the names ends with a longest one, if there is one. -/
theorem foldl_longerMatch (l : List WorkspacePackage) : ∀ best : Option WorkspacePackage,
    match l.foldl (longerMatch spec) best with
    | none => best = none ∧ ∀ q ∈ l, ¬ (q.name ++ [slash]) <+: spec
    | some r => (best = some r ∨ r ∈ l ∧ (r.name ++ [slash]) <+: spec) ∧
        (∀ b, best = some b → b.name.length ≤ r.name.length) ∧
        ∀ q ∈ l, (q.name ++ [slash]) <+: spec → q.name.length ≤ r.name.length := by
  induction l with
  | nil =>
    rintro (_ | b)
    · exact ⟨rfl, fun q hq => absurd hq List.not_mem_nil⟩
    · exact ⟨.inl rfl, fun _ hb => by cases hb; exact le_refl _, fun q hq => absurd hq List.not_mem_nil⟩
  | cons q l ih =>
    intro best
    rw [List.foldl_cons]
    have hnext := ih (longerMatch spec best q)
    by_cases hq : (q.name ++ [slash]) <+: spec
    · by_cases hlonger : best.all (·.name.length < q.name.length) = true
      · have hstep : longerMatch spec best q = some q := if_pos ⟨List.isPrefixOf_iff_prefix.2 hq, hlonger⟩
        rw [hstep] at hnext ⊢
        revert hnext
        cases l.foldl (longerMatch spec) (some q) with
        | none => exact fun hnext => by cases hnext.1
        | some r =>
          rintro ⟨hfrom, hbest, hall⟩
          have hqr := hbest q rfl
          refine ⟨?_, fun b hb => ?_, fun o ho hbegins => ?_⟩
          · rcases hfrom with heq | ⟨hmem, hr⟩
            · obtain rfl := Option.some.inj heq
              exact .inr ⟨List.mem_cons_self, hq⟩
            · exact .inr ⟨List.mem_cons_of_mem _ hmem, hr⟩
          · subst hb
            have hlt : b.name.length < q.name.length := by simpa using hlonger
            omega
          · rcases List.mem_cons.1 ho with rfl | ho
            · exact hqr
            · exact hall o ho hbegins
      · have hstep : longerMatch spec best q = best := if_neg fun hboth => hlonger hboth.2
        rw [hstep] at hnext ⊢
        revert hnext
        cases l.foldl (longerMatch spec) best with
        | none =>
          rintro ⟨rfl, -⟩
          exact absurd rfl hlonger
        | some r =>
          rintro ⟨hfrom, hbest, hall⟩
          refine ⟨hfrom.imp_right fun hmem => ⟨List.mem_cons_of_mem _ hmem.1, hmem.2⟩, hbest, fun o ho hbegins => ?_⟩
          rcases List.mem_cons.1 ho with rfl | ho
          · cases best with
            | none => exact absurd rfl hlonger
            | some b =>
              have hle : o.name.length ≤ b.name.length := by simpa using hlonger
              exact hle.trans (hbest b rfl)
          · exact hall o ho hbegins
    · have hstep : longerMatch spec best q = best := if_neg fun hboth => hq (List.isPrefixOf_iff_prefix.1 hboth.1)
      rw [hstep] at hnext ⊢
      revert hnext
      cases l.foldl (longerMatch spec) best with
      | none =>
        rintro ⟨hbest, hall⟩
        refine ⟨hbest, fun o ho => ?_⟩
        rcases List.mem_cons.1 ho with rfl | ho
        · exact hq
        · exact hall o ho
      | some r =>
        rintro ⟨hfrom, hbest, hall⟩
        refine ⟨hfrom.imp_right fun hmem => ⟨List.mem_cons_of_mem _ hmem.1, hmem.2⟩, hbest, fun o ho hbegins => ?_⟩
        rcases List.mem_cons.1 ho with rfl | ho
        · exact absurd hbegins hq
        · exact hall o ho hbegins

theorem names_of_ne {name : JsString} (h : Names name spec) (hne : name ≠ spec) : (name ++ [slash]) <+: spec :=
  h.resolve_left hne

theorem names_length {name : JsString} (h : Names name spec) : name.length ≤ spec.length ∧
    (name.length = spec.length → name = spec) := by
  rcases h with rfl | h
  · exact ⟨le_refl _, fun _ => rfl⟩
  · have hle := h.length_le
    rw [List.length_append, List.length_singleton] at hle
    exact ⟨by omega, fun heq => by omega⟩

theorem find_first {q : WorkspacePackage} (hq : q ∈ packages) :
    ∃ first, packages.find? (fun o => o.name = q.name) = some first ∧ first.name = q.name := by
  cases hfind : packages.find? fun o => o.name = q.name with
  | none => exact absurd (decide_eq_true rfl) (List.find?_eq_none.1 hfind q hq)
  | some first =>
    have hname := List.find?_some hfind
    exact ⟨first, rfl, of_decide_eq_true hname⟩

/-- The specifier is matched with its package, and with the path below its name. -/
theorem matchSpecifier_eq_some : (ofPackages packages).matchSpecifier spec = some (p, subpath) ↔
    Bare spec ∧ Owner packages spec p ∧ subpath = spec.drop (p.name.length + 1) := by
  unfold matchSpecifier
  by_cases hbare : spec = [] ∨ spec.head? = some dot
  · rw [if_pos hbare]
    constructor
    · intro h
      cases h
    · exact fun h => absurd hbare h.1
  rw [if_neg hbare, get_byName_eq]
  cases hexact : packages.find? fun q => q.name = spec with
  | some pkg =>
    have hname : pkg.name = spec := by
      have h := List.find?_some hexact
      exact of_decide_eq_true h
    dsimp only
    rw [Option.some.injEq, Prod.mk.injEq]
    constructor
    · rintro ⟨rfl, rfl⟩
      refine ⟨hbare, ⟨hname ▸ hexact, .inl hname, fun q _ hq => hname ▸ (names_length hq).1⟩, ?_⟩
      rw [hname, List.drop_eq_nil_of_le (by omega)]
    · rintro ⟨-, howner, rfl⟩
      have hlen : pkg.name.length ≤ p.name.length := howner.longest pkg (List.mem_of_find?_eq_some hexact) (.inl hname)
      have hp : p.name = spec :=
        (names_length howner.named).2 (le_antisymm (names_length howner.named).1 (hname ▸ hlen))
      have hfirst := howner.first
      rw [hp, hexact] at hfirst
      obtain rfl := Option.some.inj hfirst
      exact ⟨rfl, by rw [hp, List.drop_eq_nil_of_le (by omega)]⟩
  | none =>
    have hother : ∀ q ∈ packages, q.name ≠ spec := fun q hq heq =>
      List.find?_eq_none.1 hexact q hq (decide_eq_true heq)
    have hscan := @foldl_longerMatch spec (ofPackages packages).byName.values none
    -- a package that a later one of its name hides is no longer than the first one
    have hall {n : Nat}
        (h : ∀ q ∈ (ofPackages packages).byName.values, (q.name ++ [slash]) <+: spec → q.name.length ≤ n) :
        ∀ q ∈ packages, Names q.name spec → q.name.length ≤ n := by
      intro q hq hnames
      obtain ⟨first, hfind, hname⟩ := find_first hq
      rw [← hname]
      refine h first (mem_values_byName.2 (hname ▸ hfind)) ?_
      rw [hname]
      exact names_of_ne hnames (hother q hq)
    dsimp only
    rw [Option.map_eq_some_iff]
    revert hscan
    cases (ofPackages packages).byName.values.foldl (longerMatch spec) none with
    | none =>
      rintro ⟨-, hnone⟩
      constructor
      · rintro ⟨a, h, -⟩
        cases h
      · rintro ⟨-, howner, -⟩
        have hmem := List.mem_of_find?_eq_some howner.first
        exact absurd (names_of_ne howner.named (hother p hmem)) (hnone p (mem_values_byName.2 howner.first))
    | some r =>
      rintro ⟨hfrom, -, hlongest⟩
      obtain ⟨hr, hbegins⟩ := hfrom.resolve_left fun h => by cases h
      have hmem := mem_values_byName.1 hr
      have howner : Owner packages spec r := ⟨hmem, .inr hbegins, hall hlongest⟩
      constructor
      · rintro ⟨a, ha, heq⟩
        obtain rfl := Option.some.inj ha
        obtain ⟨rfl, rfl⟩ := Prod.mk.inj heq
        exact ⟨hbare, howner, rfl⟩
      · rintro ⟨-, hp, rfl⟩
        have hpmem := List.mem_of_find?_eq_some hp.first
        have hpbegins := names_of_ne hp.named (hother p hpmem)
        have hlen : p.name.length = r.name.length :=
          le_antisymm (howner.longest p hpmem hp.named) (hp.longest r (List.mem_of_find?_eq_some hmem) howner.named)
        have hname : p.name = r.name := by
          have hp' := (List.prefix_append p.name [slash]).trans hpbegins
          have hr' := (List.prefix_append r.name [slash]).trans hbegins
          exact (List.prefix_of_prefix_length_le hp' hr' hlen.le).eq_of_length hlen
        have hfirst := hp.first
        rw [hname, hmem] at hfirst
        obtain rfl := Option.some.inj hfirst
        exact ⟨r, rfl, rfl⟩

/-! ## The targets of a package -/

/-- Every target for a subpath, of the manifest and of the conventional layout. -/
def listedTargets (pkg : WorkspacePackage) (subpath : JsString) : List JsString :=
  exportTargets pkg.exports subpath ++
    (if subpath = [] then (truthy pkg.module).toList ++ (truthy pkg.main).toList else []) ++
    (if subpath = [] then [ascii "src/index", ascii "index"] else [ascii "src/" ++ subpath, subpath])

/-- The guard against leaving the package. -/
def Refused (target : JsString) : Prop := posixNorm target = [] ∨ [dot, dot].isPrefixOf (posixNorm target) = true

theorem candidatePaths_none (h : ∀ p, ¬ (Bare spec ∧ Owner packages spec p)) :
    (ofPackages packages).candidatePaths spec = [] := by
  unfold candidatePaths
  cases hmatch : (ofPackages packages).matchSpecifier spec with
  | none => rfl
  | some found =>
    obtain ⟨hbare, howner, -⟩ := matchSpecifier_eq_some.1 hmatch
    exact absurd ⟨hbare, howner⟩ (h found.1)

theorem mem_candidatePaths (hbare : Bare spec) (howner : Owner packages spec p) {c : JsString} :
    c ∈ (ofPackages packages).candidatePaths spec ↔
      c ≠ [] ∧ ∃ t ∈ listedTargets p (spec.drop (p.name.length + 1)), c ∈ targetPaths p.dir t := by
  unfold candidatePaths
  rw [matchSpecifier_eq_some.2 ⟨hbare, howner, rfl⟩]
  dsimp only
  rw [List.mem_eraseDups, List.mem_filter, List.mem_flatMap]
  unfold listedTargets
  constructor
  · rintro ⟨hex, hne⟩
    exact ⟨by simpa using hne, hex⟩
  · rintro ⟨hne, hex⟩
    exact ⟨hex, by simpa using hne⟩

/-- What a target stands for, unless it is refused; a built artifact also for its source. -/
theorem mem_targetPaths {dir t c : JsString} : c ∈ targetPaths dir t ↔ ¬ Refused t ∧
    (c = posixNorm (dir ++ slash :: posixNorm t) ∨
      ∃ rest, posixNorm t = ascii "dist/" ++ rest ∧ c = posixNorm (dir ++ slash :: (ascii "src/" ++ rest))) := by
  unfold targetPaths Refused
  dsimp only
  by_cases hrefused : posixNorm t = [] ∨ [dot, dot].isPrefixOf (posixNorm t) = true
  · rw [if_pos hrefused]
    exact ⟨fun h => absurd h List.not_mem_nil, fun h => absurd hrefused h.1⟩
  rw [if_neg hrefused]
  split
  · rename_i hdist
    obtain ⟨rest, hrest⟩ := List.isPrefixOf_iff_prefix.1 hdist
    rw [← hrest, show (ascii "dist/" ++ rest).drop 5 = rest from rfl]
    constructor
    · intro h
      refine ⟨hrest ▸ hrefused, ?_⟩
      rcases List.mem_cons.1 h with rfl | h
      · exact .inl rfl
      · rw [List.mem_singleton] at h
        exact .inr ⟨rest, rfl, h.trans (congrArg posixNorm (by simp))⟩
    · rintro ⟨-, rfl | ⟨rest', heq, rfl⟩⟩
      · exact List.mem_cons_self
      · obtain rfl := List.append_cancel_left heq
        exact List.mem_cons_of_mem _ (List.mem_singleton.2 (congrArg posixNorm (by simp)))
  · rename_i hdist
    rw [List.mem_singleton]
    constructor
    · exact fun h => ⟨hrefused, .inl h⟩
    · rintro ⟨-, rfl | ⟨rest, heq, -⟩⟩
      · rfl
      · exact absurd (List.isPrefixOf_iff_prefix.2 ⟨rest, heq.symm⟩) hdist

theorem resolvedParts_target (dir t : JsString) :
    resolvedParts (posixNorm (dir ++ slash :: posixNorm t)) = resolvedParts (dir ++ slash :: t) := by
  rw [resolvedParts_posixNorm, resolvedParts_below, resolvedParts_below, forwardSlashes_posixNorm, walkParts_posixNorm]

theorem leadsBelow_congr {dir a b : JsString} (h : resolvedParts a = resolvedParts b) :
    LeadsBelow dir a ↔ LeadsBelow dir b := by
  unfold LeadsBelow
  rw [h]

theorem leadsBelow_of_mem_targetPaths {dir t c : JsString} (hin : LeadsBelow dir (dir ++ slash :: t))
    (hc : c ∈ targetPaths dir t) : LeadsBelow dir c := by
  have htarget : LeadsBelow dir (dir ++ slash :: posixNorm t) :=
    (leadsBelow_congr ((resolvedParts_posixNorm _).symm.trans (resolvedParts_target dir t))).2 hin
  rcases (mem_targetPaths.1 hc).2 with rfl | ⟨rest, hdist, rfl⟩
  · exact (leadsBelow_congr (resolvedParts_posixNorm _)).2 htarget
  · rw [hdist] at htarget
    exact (leadsBelow_congr (resolvedParts_posixNorm _)).2 ((leadsBelow_twin dir rest).1 htarget)

end WorkspaceMap

/-! ## The keys of an exports map -/

def wantKey (subpath : JsString) : JsString := if subpath = [] then [dot] else dot :: slash :: subpath

/-- A key with one star matches a subpath; `before` is what it has of it before the star. -/
def PatternMatches (key subpath before matched : JsString) : Prop :=
  ∃ after, key = dot :: slash :: before ++ star :: after ∧ star ∉ before ∧ star ∉ after ∧
    subpath = before ++ matched ++ after

/-- The entry for a subpath, and what its key's star stands for: the exact key, or else the matching
pattern of the longest text before the star. -/
inductive Selects (entries : List (JsString × Json)) (subpath : JsString) : JsString × Json → Option JsString → Prop
  | exact {entry : JsString × Json} : entry ∈ entries → entry.1 = wantKey subpath → Selects entries subpath entry none
  | pattern {entry : JsString × Json} {before matched : JsString} : entry ∈ entries → subpath ≠ [] →
      (∀ e ∈ entries, e.1 ≠ wantKey subpath) → PatternMatches entry.1 subpath before matched →
      (∀ e ∈ entries, ∀ before' matched', PatternMatches e.1 subpath before' matched' →
        before'.length ≤ before.length) →
        Selects entries subpath entry (some matched)

/-- A string target of the selecting key, and what the star stands for. -/
def SelectedTarget (p : WorkspacePackage) (subpath target : JsString) (matched : Option JsString) : Prop :=
  ∃ entries entry, p.exports = some (.obj entries) ∧ Selects entries subpath entry matched ∧
    target ∈ collectTargetStrings exportsDepth entry.2

/-- Each star of a target replaced by the text. -/
def literalTarget (target : JsString) : Option JsString → JsString
  | none => target
  | some matched => target.flatMap fun u => if u = star then matched else [u]

/-- What one `replace` makes of a target. -/
def replacedTarget (target : JsString) : Option JsString → JsString
  | none => target
  | some matched => replaceStar target matched

theorem takeWhile_star {before after : JsString} (h : star ∉ before) :
    (before ++ star :: after).takeWhile (· ≠ star) = before := by
  have hall : ∀ u ∈ before, decide (u ≠ star) = true := by
    intro u hu
    exact decide_eq_true fun heq => h (heq ▸ hu)
  rw [List.takeWhile_append_of_pos hall, List.takeWhile_cons]
  simp

theorem starMatch_of_eq {before matched after : JsString} :
    starMatch before after (before ++ matched ++ after) = some matched := by
  have hlen : (before ++ matched ++ after).length - after.length = (before ++ matched).length := by
    rw [List.length_append]
    omega
  unfold starMatch
  rw [if_pos, hlen, List.take_left' rfl, List.drop_left' rfl]
  refine ⟨?_, ?_, ?_⟩
  · rw [List.isPrefixOf_iff_prefix, List.append_assoc]
    exact List.prefix_append _ _
  · rw [List.isSuffixOf_iff_suffix]
    exact List.suffix_append _ _
  · simp only [List.length_append]
    omega

/-- The targets of the selecting key are listed, as one `replace` leaves them. -/
theorem selected_listed {p : WorkspacePackage} {subpath target : JsString} {matched : Option JsString}
    (h : SelectedTarget p subpath target matched) :
    replacedTarget target matched ∈ WorkspaceMap.listedTargets p subpath := by
  obtain ⟨entries, entry, hexports, hselects, htarget⟩ := h
  refine List.mem_append_left _ (List.mem_append_left _ ?_)
  unfold exportTargets
  rw [hexports]
  dsimp only
  cases hselects with
  | exact hmem hkey =>
    have hsub : (entries.any fun entry => entry.1 = [dot] || [dot, slash].isPrefixOf entry.1) = true := by
      refine List.any_eq_true.2 ⟨entry, hmem, ?_⟩
      rw [hkey]
      unfold wantKey
      split
      · rfl
      · exact Bool.or_eq_true_iff.2 (.inr (List.isPrefixOf_iff_prefix.2 ⟨subpath, rfl⟩))
    rw [if_pos hsub]
    refine List.mem_append_left _ (List.mem_flatMap.2 ⟨entry, List.mem_filter.2 ⟨hmem, ?_⟩, htarget⟩)
    exact decide_eq_true hkey
  | @pattern before m hmem hne _ hmatch _ =>
    obtain ⟨after, hkey, hbefore, hafter, rfl⟩ := hmatch
    have hsub : (entries.any fun entry => entry.1 = [dot] || [dot, slash].isPrefixOf entry.1) = true := by
      refine List.any_eq_true.2 ⟨entry, hmem, Bool.or_eq_true_iff.2 (.inr ?_)⟩
      rw [hkey]
      exact List.isPrefixOf_iff_prefix.2 ⟨before ++ star :: after, rfl⟩
    rw [if_pos hsub]
    refine List.mem_append_right _ ?_
    rw [if_neg hne]
    refine List.mem_flatMap.2 ⟨entry, hmem, ?_⟩
    have hhead : entry.1.takeWhile (· ≠ star) = dot :: slash :: before := by
      rw [hkey]
      exact @takeWhile_star (dot :: slash :: before) after (by simpa using ⟨by decide, by decide, hbefore⟩)
    have htail : entry.1.drop ((dot :: slash :: before).length + 1) = after := by
      rw [hkey, show dot :: slash :: before ++ star :: after = (dot :: slash :: before ++ [star]) ++ after by simp]
      exact List.drop_left' (by simp)
    unfold wildcardTargets
    dsimp only
    rw [hhead, htail, if_pos ⟨by simp [hkey], by rw [hkey]; rfl⟩]
    rw [show List.drop 2 (dot :: slash :: before) = before from rfl, starMatch_of_eq]
    exact List.mem_map.2 ⟨target, htarget, rfl⟩

/-! ## What the candidates are for -/

section Candidates
open WorkspaceMap
variable (packages : List WorkspacePackage) (spec : JsString)

/-- Sound and complete candidates, whatever the order of the packages. -/
structure Lawful : Prop where
  named : (ofPackages packages).candidatePaths spec ≠ [] → ∃ p ∈ packages, Names p.name spec
  inside : ∀ c ∈ (ofPackages packages).candidatePaths spec, ∃ p, Owner packages spec p ∧ LeadsBelow p.dir c
  complete : ∀ p, Owner packages spec p → ∀ target matched,
    SelectedTarget p (spec.drop (p.name.length + 1)) target matched →
      LeadsBelow p.dir (p.dir ++ slash :: literalTarget target matched) →
        ∃ c ∈ (ofPackages packages).candidatePaths spec,
          resolvedParts c = resolvedParts (p.dir ++ slash :: literalTarget target matched)
  order : (packages.map WorkspacePackage.name).Nodup → ∀ packages', packages'.Perm packages →
    (ofPackages packages').candidatePaths spec = (ofPackages packages).candidatePaths spec

/-- No target that passes the guard leads out of the package, and what `replace` leaves of a selected
target passes it and leads where the target does, unless another listed target leads there. -/
structure Contained : Prop where
  stays : Bare spec → ∀ p, Owner packages spec p → ∀ t ∈ listedTargets p (spec.drop (p.name.length + 1)),
    ¬ Refused t → LeadsBelow p.dir (p.dir ++ slash :: t)
  spelled : ∀ p, Owner packages spec p → ∀ target matched,
    SelectedTarget p (spec.drop (p.name.length + 1)) target matched →
      LeadsBelow p.dir (p.dir ++ slash :: literalTarget target matched) →
        Bare spec ∧ (replacedTarget target matched = literalTarget target matched ∧
            ¬ Refused (literalTarget target matched) ∨
          ∃ t ∈ listedTargets p (spec.drop (p.name.length + 1)), ∃ c ∈ targetPaths p.dir t,
            c ≠ [] ∧ resolvedParts c = resolvedParts (p.dir ++ slash :: literalTarget target matched))

variable {packages spec}

theorem owner_perm {packages' : List WorkspacePackage} (hperm : packages'.Perm packages)
    (hnodup : (packages.map WorkspacePackage.name).Nodup) {p : WorkspacePackage} (h : Owner packages spec p) :
    Owner packages' spec p where
  first := by
    obtain ⟨q, hfind, hname⟩ := find_first (hperm.symm.subset (List.mem_of_find?_eq_some h.first))
    rw [hfind]
    exact congrArg some (List.inj_on_of_nodup_map hnodup (hperm.subset (List.mem_of_find?_eq_some hfind))
      (List.mem_of_find?_eq_some h.first) hname)
  named := h.named
  longest q hq := h.longest q (hperm.subset hq)

theorem matchSpecifier_perm {packages' : List WorkspacePackage} (hperm : packages'.Perm packages)
    (hnodup : (packages.map WorkspacePackage.name).Nodup) :
    (ofPackages packages').matchSpecifier spec = (ofPackages packages).matchSpecifier spec := by
  apply Option.ext
  rintro ⟨p, subpath⟩
  rw [matchSpecifier_eq_some, matchSpecifier_eq_some]
  have hnodup' : (packages'.map WorkspacePackage.name).Nodup := (hperm.map _).nodup_iff.2 hnodup
  constructor
  · rintro ⟨hbare, howner, hsub⟩
    exact ⟨hbare, owner_perm hperm.symm hnodup' howner, hsub⟩
  · rintro ⟨hbare, howner, hsub⟩
    exact ⟨hbare, owner_perm hperm hnodup howner, hsub⟩

theorem exists_owner_of_mem {c : JsString} (h : c ∈ (ofPackages packages).candidatePaths spec) :
    Bare spec ∧ ∃ p, Owner packages spec p := by
  by_contra hnone
  have hnil := @candidatePaths_none packages spec fun p hp => hnone ⟨hp.1, p, hp.2⟩
  rw [hnil] at h
  exact absurd h List.not_mem_nil

theorem lawful_iff (packages : List WorkspacePackage) (spec : JsString) :
    Lawful packages spec ↔ Contained packages spec := by
  constructor
  · intro h
    refine ⟨fun hbare p howner t ht hpasses => ?_, fun p howner target matched hselected hbelow => ?_⟩
    · have hne : posixNorm t ≠ [] := fun hnil => hpasses (.inl hnil)
      have hc : posixNorm (p.dir ++ slash :: posixNorm t) ∈ (ofPackages packages).candidatePaths spec :=
        (mem_candidatePaths hbare howner).2
          ⟨posixNorm_below_ne_nil p.dir hne, t, ht, mem_targetPaths.2 ⟨hpasses, .inl rfl⟩⟩
      obtain ⟨q, hq, hin⟩ := h.inside _ hc
      have hsame := matchSpecifier_eq_some.2 ⟨hbare, hq, rfl⟩
      rw [matchSpecifier_eq_some.2 ⟨hbare, howner, rfl⟩] at hsame
      obtain ⟨rfl, -⟩ := Prod.mk.inj (Option.some.inj hsame)
      exact (leadsBelow_congr (resolvedParts_target p.dir t)).1 hin
    · obtain ⟨c, hc, hsame⟩ := h.complete p howner target matched hselected hbelow
      obtain ⟨hbare, -⟩ := exists_owner_of_mem hc
      obtain ⟨hne, t, ht, hpath⟩ := (mem_candidatePaths hbare howner).1 hc
      exact ⟨hbare, .inr ⟨t, ht, c, hpath, hne, hsame⟩⟩
  · intro h
    refine ⟨fun hne => ?_, fun c hc => ?_, fun p howner target matched hselected hbelow => ?_,
      fun hnodup packages' hperm => ?_⟩
    · obtain ⟨c, hc⟩ := List.exists_mem_of_ne_nil _ hne
      obtain ⟨-, p, howner⟩ := exists_owner_of_mem hc
      exact ⟨p, List.mem_of_find?_eq_some howner.first, howner.named⟩
    · obtain ⟨hbare, p, howner⟩ := exists_owner_of_mem hc
      obtain ⟨-, t, ht, hpath⟩ := (mem_candidatePaths hbare howner).1 hc
      exact ⟨p, howner, leadsBelow_of_mem_targetPaths (h.stays hbare p howner t ht (mem_targetPaths.1 hpath).1) hpath⟩
    · obtain ⟨hbare, ⟨hspelled, hpasses⟩ | ⟨t, ht, c, hpath, hne, hsame⟩⟩ :=
        h.spelled p howner target matched hselected hbelow
      · have hne : posixNorm (literalTarget target matched) ≠ [] := fun hnil => hpasses (.inl hnil)
        refine ⟨posixNorm (p.dir ++ slash :: posixNorm (literalTarget target matched)), ?_, resolvedParts_target _ _⟩
        refine (mem_candidatePaths hbare howner).2 ⟨posixNorm_below_ne_nil p.dir hne, _, selected_listed hselected, ?_⟩
        rw [hspelled]
        exact mem_targetPaths.2 ⟨hpasses, .inl rfl⟩
      · exact ⟨c, (mem_candidatePaths hbare howner).2 ⟨hne, t, ht, hpath⟩, hsame⟩
    · unfold candidatePaths
      rw [matchSpecifier_perm hperm hnodup]

end Candidates

/-! ## Where it goes wrong -/

/-- A package without `exports`, and one with a pattern whose target has two stars. -/
def plainPackage : WorkspacePackage := { name := ascii "pkg", dir := ascii "packages/pkg" }

def buttonPackage : WorkspacePackage :=
  { name := ascii "ui", dir := ascii "packages/ui",
    exports := some (.obj [(ascii "./*", .str (ascii "./lib/*/*.js"))]) }

theorem owner_single {p q : WorkspacePackage} {spec : JsString} (h : Owner [p] spec q) : q = p :=
  List.mem_singleton.1 (List.mem_of_find?_eq_some h.first)

theorem candidates_stray :
    (¬ Lawful [plainPackage] (ascii "pkg/a/../../../other/index") ∧
        ascii "packages/pkg/a/../../../other/index" ∈
          (WorkspaceMap.ofPackages [plainPackage]).candidatePaths (ascii "pkg/a/../../../other/index")) ∧
      ¬ Lawful [buttonPackage] (ascii "ui/button") := by
  have hstray : ascii "packages/pkg/a/../../../other/index" ∈
      (WorkspaceMap.ofPackages [plainPackage]).candidatePaths (ascii "pkg/a/../../../other/index") := by decide +kernel
  refine ⟨⟨fun h => ?_, hstray⟩, fun h => ?_⟩
  · obtain ⟨p, howner, hin⟩ := h.inside _ hstray
    rw [owner_single howner] at hin
    revert hin
    decide +kernel
  · have howner : Owner [buttonPackage] (ascii "ui/button") buttonPackage := by
      refine ⟨List.find?_cons_of_pos (decide_eq_true rfl), .inr (List.isPrefixOf_iff_prefix.1 (by decide +kernel)), ?_⟩
      intro q hq _
      rw [List.mem_singleton.1 hq]
    have hselected : SelectedTarget buttonPackage (ascii "button") (ascii "./lib/*/*.js") (some (ascii "button")) := by
      have hmatch : PatternMatches (ascii "./*") (ascii "button") [] (ascii "button") :=
        ⟨[], by decide, by decide, by decide, by decide⟩
      refine ⟨_, (ascii "./*", .str (ascii "./lib/*/*.js")), rfl,
        .pattern List.mem_cons_self (by decide) (by decide) hmatch ?_, by decide⟩
      rintro e he before' matched' ⟨after, hkey, -⟩
      rw [List.mem_singleton.1 he] at hkey
      have hlen : 3 = (dot :: slash :: before' ++ star :: after).length := congrArg List.length hkey
      rw [List.length_append, List.length_cons, List.length_cons, List.length_cons] at hlen
      rw [List.length_nil]
      omega
    have hgiven := h.complete buttonPackage howner _ _ hselected (by decide +kernel)
    revert hgiven
    decide +kernel

end Hayven.Graph
