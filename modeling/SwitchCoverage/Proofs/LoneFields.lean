import SwitchCoverage.Proofs.Arms
import SwitchCoverage.Proofs.Naming
import SwitchCoverage.Proofs.Verdict

/-!
# Fields with a single leaf

A field whose type has a single leaf is not split: there is nothing to tell apart, so
no case mentions it.  An arm may mention it all the same, and an arm that tests such
a field for its only leaf matches as much as one that does not.  Whether a check
sees it that way depends on the leaf.  If it is no variant of a closed declaration,
the test leaves no trace in the name of the arm; if it is one, the arm gets a longer
name than the case, and the case counts as missing.

## Main definitions

* `Catalog.loneLeaf?` — the only leaf of a field.
* `Case.IsLooseArm` — an arm for a case that may also test single-leaf fields.
* `Catalog.HasLoneVariant` — a type with a field whose only leaf is a variant.

## Main statements

* `Case.IsLooseArm.caseName?_eq` — without such fields the test leaves no trace.
* `Switch.check_of_looseArms_iff` — **exactly when such tests raise no false alarm.**
-/
namespace SwitchCoverage

/-- The only leaf of the type of a field, if it has just one. -/
def Catalog.loneLeaf? (g : Catalog) (limit : Nat) (t : Ty) (i : Nat) : Option Ty :=
  match g.fieldTypes t with
  | .error _ => none
  | .ok types =>
    match types[i]?.map (g.leaves limit) with
    | some (.ok [v]) => some v
    | _ => none

/-- The number of fields of a type. -/
def Catalog.fieldCount (g : Catalog) (t : Ty) : Nat :=
  match g.fieldTypes t with
  | .error _ => 0
  | .ok types => types.length

/-- Whether some field of a type has a single leaf, and that leaf is a variant. -/
def Catalog.HasLoneVariant (g : Catalog) (limit : Nat) (t : Ty) : Prop :=
  ∃ i v, g.loneLeaf? limit t i = some v ∧ g.isVariant v = true

/-- An arm that takes a case apart.  At a position that is not split, it tests for nothing
or for the only leaf that the field there has. -/
def Case.IsLooseArm (g : Catalog) (limit : Nat) (c : Case) (p : Pattern) : Prop :=
  ∃ parts, p = .deconstructed c.leaf parts ∧
    c.TakenApart (fun i q => q.isCatchAll = true ∨ q.target? = g.loneLeaf? limit c.leaf i) parts

namespace Catalog

variable {g : Catalog} {limit : Nat} {t : Ty}

theorem loneLeaf?_eq_some_iff {i : Nat} {v : Ty} :
    g.loneLeaf? limit t i = some v ↔ ∃ types ty, g.fieldTypes t = .ok types ∧
      types[i]? = some ty ∧ g.leaves limit ty = .ok [v] := by
  rw [loneLeaf?]
  cases g.fieldTypes t with
  | error fault => simp
  | ok types =>
    cases hi : types[i]? with
    | none => simp [hi]
    | some ty =>
      simp only [Option.map_some, Except.ok.injEq, exists_and_left, exists_eq_left', hi,
        Option.some.injEq]
      split <;> simp_all

theorem lt_fieldCount {types : List Ty} (h : g.fieldTypes t = .ok types) {i : Nat} {ty : Ty}
    (hi : types[i]? = some ty) : i < g.fieldCount t := by
  obtain ⟨hlt, -⟩ := List.getElem?_eq_some_iff.1 hi
  simpa [fieldCount, h] using hlt

/-- A field with a single leaf is not split. -/
theorem not_mem_index_of_loneLeaf? {fs : List SplitField} (h : g.splitFields limit t = .ok fs)
    {i : Nat} {v : Ty} (hv : g.loneLeaf? limit t i = some v) : i ∉ fs.map (·.index) := by
  intro hi
  obtain ⟨f, hf, rfl⟩ := List.mem_map.1 hi
  obtain ⟨types, ty, htypes, hty, hleaves, hsplit⟩ := (mem_splitFields h).1 hf
  obtain ⟨types', ty', htypes', hty', hleaves'⟩ := loneLeaf?_eq_some_iff.1 hv
  obtain rfl : types = types' := Except.ok.inj (htypes.symm.trans htypes')
  obtain rfl : ty = ty' := Option.some.inj (hty.symm.trans hty')
  have hvariants : f.variants = [v] := Except.ok.inj (hleaves.symm.trans hleaves')
  simp [splits, hvariants] at hsplit

end Catalog

namespace Case

variable {g : Catalog} {limit : Nat} {t : Ty} {c : Case}

/-- **Tests of single-leaf fields leave no trace**, if no such leaf is a variant. -/
theorem IsLooseArm.caseName?_eq {p : Pattern} (hp : c.IsLooseArm g limit p)
    (h : g.HasCase limit t c) (hlone : ¬ g.HasLoneVariant limit c.leaf) :
    p.caseName? g = some (c.name g) := by
  obtain ⟨parts, rfl, hparts⟩ := hp
  have hvariants := hparts.partVariants_eq h fun i q _ hq => by
    cases htarget : q.target? with
    | none => simp [Pattern.variantTarget?, htarget]
    | some v =>
      have hv : g.loneLeaf? limit c.leaf i = some v := by
        simpa [Pattern.isCatchAll, htarget, eq_comm] using hq
      have hopen : g.isVariant v = false := by
        by_contra hvar
        exact hlone ⟨i, v, hv, by simpa using hvar⟩
      simp [Pattern.variantTarget?, htarget, hopen]
  rw [Pattern.caseName?_deconstructed, name, hvariants]

/-! ## Arms to order

Given what to put at the positions that are not split, an arm for a case can be
written down. -/

/-- The sub-patterns for all fields of the leaf of a case: a test for the chosen variant
where a field is split, and `fill` elsewhere. -/
def partsWith (g : Catalog) (c : Case) (fill : Nat → Pattern) : List Pattern :=
  (List.range (g.fieldCount c.leaf)).map fun i =>
    ((c.places.lookup i).map Pattern.typed).getD (fill i)

theorem getElem?_partsWith (fill : Nat → Pattern) {i : Nat} (hi : i < g.fieldCount c.leaf) :
    (c.partsWith g fill)[i]? = some (((c.places.lookup i).map Pattern.typed).getD (fill i)) := by
  simp [partsWith, hi]

/-- At its position a chosen variant is found. -/
theorem lookup_places (h : g.HasCase limit t c) {i : Nat} {v : Ty} (hv : (i, v) ∈ c.places) :
    c.places.lookup i = some v := by
  obtain ⟨before, after, hsplit⟩ := List.append_of_mem hv
  have hascending := places_ascending h
  rw [hsplit] at hascending
  refine List.lookup_eq_some_iff.2 ⟨before, after, hsplit, fun p hp => ?_⟩
  have hlt : p.1 < i := (List.pairwise_append.1 hascending).2.2 p hp (i, v) (.head _)
  simpa using Nat.ne_of_gt hlt

theorem lookup_places_eq_none (h : g.HasCase limit t c) {i : Nat}
    (hi : i ∉ c.fields.map (·.index)) : c.places.lookup i = none := by
  rw [← map_fst_places h] at hi
  refine List.lookup_eq_none_iff.2 fun p hp => ?_
  have hne : i ≠ p.1 := fun heq => hi (heq ▸ List.mem_map_of_mem (f := (·.1)) hp)
  simpa using hne

theorem takenApart_partsWith (h : g.HasCase limit t c) {other : Nat → Pattern → Prop}
    {fill : Nat → Pattern} (hfill : ∀ i, other i (fill i)) :
    c.TakenApart other (c.partsWith g fill) := by
  constructor
  · intro i v hv
    have hi : i < g.fieldCount c.leaf := by
      obtain ⟨f, hf, rfl⟩ := List.mem_map.1 (List.of_mem_zip hv).1
      obtain ⟨types, ty, htypes, hty, -⟩ := (Catalog.mem_splitFields h.fields).1 hf
      exact Catalog.lt_fieldCount htypes hty
    refine ⟨.typed v, ?_, rfl⟩
    simp [getElem?_partsWith _ hi, lookup_places h hv]
  · intro i q hq hi
    have hlt : i < g.fieldCount c.leaf := by
      obtain ⟨hlt, -⟩ := List.getElem?_eq_some_iff.1 hq
      simpa [partsWith] using hlt
    rw [getElem?_partsWith _ hlt, lookup_places_eq_none h hi] at hq
    obtain rfl : fill i = q := by simpa using hq
    exact hfill i

/-- The arm for a case that tests nothing but the split fields. -/
def plainArm (g : Catalog) (c : Case) : Pattern :=
  .deconstructed c.leaf (c.partsWith g fun _ => .wildcard)

/-- The arm for a case that tests each single-leaf field for its only leaf, too. -/
def fullArm (g : Catalog) (limit : Nat) (c : Case) : Pattern :=
  .deconstructed c.leaf
    (c.partsWith g fun i => ((g.loneLeaf? limit c.leaf i).map Pattern.typed).getD .wildcard)

theorem isLooseArm_plainArm (h : g.HasCase limit t c) : c.IsLooseArm g limit (c.plainArm g) :=
  ⟨_, rfl, takenApart_partsWith h fun _ => .inl rfl⟩

theorem isLooseArm_fullArm (h : g.HasCase limit t c) :
    c.IsLooseArm g limit (c.fullArm g limit) := by
  refine ⟨_, rfl, takenApart_partsWith h fun i => .inr ?_⟩
  cases g.loneLeaf? limit c.leaf i <;> rfl

theorem caseName?_plainArm (h : g.HasCase limit t c) :
    (c.plainArm g).caseName? g = some (c.name g) := by
  have hparts : c.TakenApart (fun _ q => q = .wildcard) (c.partsWith g fun _ => .wildcard) :=
    takenApart_partsWith h fun _ => rfl
  have hvariants := hparts.partVariants_eq h fun i q _ hq => by rw [hq]; rfl
  rw [plainArm, Pattern.caseName?_deconstructed, name, hvariants]

/-- **A test for a lone variant hides the case.**  The arm is named after one variant more
than the case. -/
theorem caseName?_fullArm_ne (h : g.HasCase limit t c) (hlone : g.HasLoneVariant limit c.leaf) :
    (c.fullArm g limit).caseName? g ≠ some (c.name g) := by
  obtain ⟨i, v, hv, hvar⟩ := hlone
  obtain ⟨parts, hp, hparts⟩ := isLooseArm_fullArm h
  have hi := Catalog.not_mem_index_of_loneLeaf? h.fields hv
  have hplaced : (i, v) ∈ Pattern.placed g parts := by
    obtain ⟨types, ty, htypes, hty, -⟩ := Catalog.loneLeaf?_eq_some_iff.1 hv
    have hget := getElem?_partsWith (c := c)
      (fun i => ((g.loneLeaf? limit c.leaf i).map Pattern.typed).getD .wildcard)
      (Catalog.lt_fieldCount htypes hty)
    rw [lookup_places_eq_none h hi, hv] at hget
    cases hp
    exact Pattern.mem_placed.2
      ⟨.typed v, hget, Pattern.variantTarget?_eq_some_iff.2 ⟨rfl, hvar⟩⟩
  have hlonger := g.length_caseName_lt c.leaf (hparts.choice_sublist h)
    (hparts.length_choice_lt h hplaced hi)
  intro heq
  rw [hp, Pattern.caseName?_deconstructed] at heq
  rw [Option.some.inj heq] at hlonger
  exact Nat.lt_irrefl _ hlonger

end Case

/-- **Exactly when tests of single-leaf fields raise no false alarm.**  Consider all arms
that take every case apart and may test single-leaf fields as well.  A check reports
missing cases for none of them just when each required name belongs to a case whose leaf
has no field that has a variant for its only leaf. -/
theorem Switch.check_of_looseArms_iff {g : Catalog} {cfg : Config} {t : Ty} {required : NameSet}
    (h : g.requiredNames cfg.maxDepth t = .ok required) (hne : required.isEmpty = false) :
    (∀ arms catchAll,
      (∀ c, g.HasCase cfg.maxDepth t c → ∃ p ∈ arms, c.IsLooseArm g cfg.maxDepth p) →
      ∃ answer, (Switch.mk t arms catchAll).check g cfg = .ok answer ∧
        ∀ d ∈ answer, d.isNotExhaustive = false) ↔
    ∀ n ∈ required, ∃ c, g.HasCase cfg.maxDepth t c ∧ c.name g = n ∧
      ¬ g.HasLoneVariant cfg.maxDepth c.leaf := by
  obtain ⟨-, -, cs, hcs, hrequired⟩ := Catalog.requiredNames_cases h hne
  constructor
  · intro hquiet n hn
    by_contra hhidden
    -- Against a name all of whose cases have lone variants: test these in the arms for
    -- the cases of that name, and in no other arm.
    let arm (c : Case) : Pattern :=
      if c.name g = n then c.fullArm g cfg.maxDepth else c.plainArm g
    have hloose : ∀ c, g.HasCase cfg.maxDepth t c →
        ∃ p ∈ cs.map arm, c.IsLooseArm g cfg.maxDepth p := by
      intro c hc
      refine ⟨arm c, List.mem_map_of_mem ((Catalog.mem_cases hcs).2 hc), ?_⟩
      by_cases hname : c.name g = n
      · simpa only [arm, hname, if_true] using Case.isLooseArm_fullArm hc
      · simpa only [arm, hname, if_false] using Case.isLooseArm_plainArm hc
    have hanswer := hquiet (cs.map arm) false hloose
    obtain ⟨p, hp, hpn⟩ := (check_not_isNotExhaustive_iff h hne).1 hanswer n hn
    obtain ⟨c, hc, rfl⟩ := List.mem_map.1 hp
    have hcase := (Catalog.mem_cases hcs).1 hc
    by_cases hname : c.name g = n
    · have hlone : g.HasLoneVariant cfg.maxDepth c.leaf := by
        by_contra hlone
        exact hhidden ⟨c, hcase, hname, hlone⟩
      simp only [arm, hname, if_true] at hpn
      exact Case.caseName?_fullArm_ne hcase hlone (hname ▸ hpn)
    · simp only [arm, hname, if_false, Case.caseName?_plainArm hcase] at hpn
      exact hname (Option.some.inj hpn)
  · intro hclear arms catchAll hloose
    refine (check_not_isNotExhaustive_iff h hne).2 fun n hn => ?_
    obtain ⟨c, hc, rfl, hlone⟩ := hclear n hn
    obtain ⟨p, hp, harm⟩ := hloose c hc
    exact ⟨p, hp, harm.caseName?_eq hc hlone⟩

namespace Sample

/-- A letter that is sent has a seal, and the only seal there is is of wax. -/
def letters : Catalog where
  decls := #[
    { name := "Seal", constructors := [{ visibility := .priv, params := [] }] },
    { name := "Wax", container := some (.ofNat 0), supertype := some (.plain (.ofNat 0)),
      constructors := [{ params := [] }] },
    { name := "Letter", constructors := [{ visibility := .priv, params := [] }] },
    { name := "Sent", container := some (.ofNat 2), supertype := some (.plain (.ofNat 2)),
      constructors := [{ params := [.plain (.ofNat 0)] }] }]
  faultless := by decide

end Sample

/-- An arm for a sent letter that tests for the wax raises a false alarm. -/
theorem Switch.check_of_looseArms_letters :
    (∃ required, Sample.letters.requiredNames 64 (.plain (.ofNat 2)) = .ok required ∧
      required.isEmpty = false) ∧
    ¬ ∀ arms catchAll,
      (∀ c, Sample.letters.HasCase 64 (.plain (.ofNat 2)) c →
        ∃ p ∈ arms, c.IsLooseArm Sample.letters 64 p) →
      ∃ answer,
        (Switch.mk (.plain (.ofNat 2)) arms catchAll).check Sample.letters {} = .ok answer ∧
        ∀ d ∈ answer, d.isNotExhaustive = false := by
  have hreq : ∃ required,
      Sample.letters.requiredNames ({} : Config).maxDepth (.plain (.ofNat 2)) = .ok required ∧
        required.isEmpty = false := ⟨_, rfl, rfl⟩
  refine ⟨hreq, fun hquiet => ?_⟩
  obtain ⟨required, hreq, hne⟩ := hreq
  have hclear := (Switch.check_of_looseArms_iff hreq hne).1 hquiet
  obtain ⟨n, hn⟩ : ∃ n, n ∈ required := by
    by_contra hnone
    rw [NameSet.isEmpty_iff.2 (not_exists.1 hnone)] at hne
    cases hne
  obtain ⟨c, hc, -, hlone⟩ := hclear n hn
  obtain ⟨ls, hls, hleaf⟩ := hc.leaf
  obtain rfl : [(Ty.plain (.ofNat 3)).within (.plain (.ofNat 2))] = ls :=
    Except.ok.inj (Eq.trans (by rfl) hls)
  rw [List.mem_singleton.1 hleaf] at hlone
  exact hlone ⟨0, (Ty.plain (.ofNat 1)).within (.plain (.ofNat 0)), rfl, rfl⟩

end SwitchCoverage
