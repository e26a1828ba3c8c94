import Mathlib.Data.List.Sort
import SwitchCoverage.Pattern.Basic
import SwitchCoverage.Proofs.Cases

/-!
# Arms that take a case apart

A pattern names the variants of its sub-patterns in order and forgets where they
stood.  Here they keep their places: `Pattern.placed` lists the variants together
with their positions, `Case.places` does the same for a case, and both lists ascend.
Two ascending lists are compared by their members alone, and that turns every
question about the name of an arm into one about single positions.

## Main definitions

* `Pattern.placed` — the variants that sub-patterns test for, with their positions.
* `Case.places` — the variants that a case chooses, with the positions of their fields.
* `Case.TakenApart` — sub-patterns that name each chosen variant at its position.
* `Case.IsArm` — an arm written for one case and nothing else.

## Main statements

* `Case.TakenApart.choice_sublist` — such sub-patterns name the chosen variants in order,
  among others.
* `Case.TakenApart.partVariants_eq` — they name no others if nothing else is a variant.
* `Case.IsArm.caseName?_eq` — the name of an arm for a case is the name of the case.
-/
namespace SwitchCoverage

/-! ## Ascending positions -/

/-- A placed variant stands before another. -/
def Before (a b : Nat × Ty) : Prop := a.1 < b.1

instance : Std.Irrefl Before := ⟨fun a => Nat.lt_irrefl a.1⟩

instance : Std.Antisymm Before := ⟨fun _ _ h h' => absurd h' (Nat.lt_asymm h)⟩

/-- Ascending placed variants that all occur among others occur there in order. -/
theorem sublist_of_before {xs ys : List (Nat × Ty)} (hx : xs.Pairwise Before)
    (hy : ys.Pairwise Before) (h : xs ⊆ ys) : xs.Sublist ys :=
  List.sublist_of_subperm_of_pairwise (List.subperm_of_subset hx.nodup h) hx hy

namespace Pattern

variable {g : Catalog}

/-- The variants that the sub-patterns of a list test for, each with the position of its
sub-pattern. -/
def placed (g : Catalog) (parts : List Pattern) : List (Nat × Ty) :=
  parts.zipIdx.filterMap fun e => (e.1.variantTarget? g).map fun v => (e.2, v)

theorem mem_placed {parts : List Pattern} {i : Nat} {v : Ty} :
    (i, v) ∈ placed g parts ↔ ∃ q, parts[i]? = some q ∧ q.variantTarget? g = some v := by
  simp only [placed, List.mem_filterMap, Prod.exists, List.mk_mem_zipIdx_iff_getElem?,
    Option.map_eq_some_iff, Prod.mk.injEq]
  constructor
  · rintro ⟨q, _, hq, w, hw, rfl, rfl⟩
    exact ⟨q, hq, hw⟩
  · rintro ⟨q, hq, hv⟩
    exact ⟨q, i, hq, v, hv, rfl, rfl⟩

theorem placed_ascending (g : Catalog) (parts : List Pattern) :
    (placed g parts).Pairwise Before := by
  have hidx : parts.zipIdx.Pairwise fun a b => a.2 < b.2 := by
    have hrange : (parts.zipIdx.map (·.2)).Pairwise (· < ·) := by
      rw [List.zipIdx_map_snd]
      exact List.pairwise_lt_range' 1
    exact List.pairwise_map.1 hrange
  refine List.pairwise_filterMap.2 (hidx.imp ?_)
  intro a b hab x hx y hy
  obtain ⟨_, -, rfl⟩ := Option.map_eq_some_iff.1 hx
  obtain ⟨_, -, rfl⟩ := Option.map_eq_some_iff.1 hy
  exact hab

/-- Without their positions, the placed variants are those that patterns are named after. -/
theorem map_snd_placed (g : Catalog) (parts : List Pattern) :
    (placed g parts).map (·.2) = parts.filterMap (·.variantTarget? g) := by
  have hparts : parts.filterMap (·.variantTarget? g) =
      parts.zipIdx.filterMap fun e => e.1.variantTarget? g := by
    conv_lhs => rw [← List.zipIdx_map_fst 0 parts, List.filterMap_map]
    rfl
  rw [hparts, placed, List.map_filterMap]
  simp [Function.comp_def]

theorem partVariants_deconstructed (g : Catalog) (t : Ty) (parts : List Pattern) :
    (deconstructed t parts).partVariants g = (placed g parts).map (·.2) :=
  (map_snd_placed g parts).symm

theorem variantTarget?_eq_some_iff {q : Pattern} {v : Ty} :
    q.variantTarget? g = some v ↔ q.target? = some v ∧ g.isVariant v = true := by
  rw [variantTarget?, Option.filter_eq_some_iff]

@[simp] theorem caseName?_deconstructed (g : Catalog) (t : Ty) (parts : List Pattern) :
    (deconstructed t parts).caseName? g =
      some (g.caseName t ((deconstructed t parts).partVariants g)) := rfl

@[simp] theorem caseName?_typed (g : Catalog) (t : Ty) :
    (typed t).caseName? g = some (g.caseName t []) := rfl

end Pattern

/-! ## Places of a case -/

namespace Case

variable {g : Catalog} {limit : Nat} {t : Ty} {c : Case}

/-- The variants that a case chooses, each with the position of its field. -/
def places (c : Case) : List (Nat × Ty) := (c.fields.map (·.index)).zip c.choice

theorem length_choice (h : g.HasCase limit t c) :
    c.choice.length = (c.fields.map (·.index)).length := by
  rw [List.length_map]
  exact h.choice.length_eq

theorem map_fst_places (h : g.HasCase limit t c) :
    c.places.map (·.1) = c.fields.map (·.index) :=
  List.map_fst_zip (length_choice h).ge

theorem map_snd_places (h : g.HasCase limit t c) : c.places.map (·.2) = c.choice :=
  List.map_snd_zip (length_choice h).le

theorem places_ascending (h : g.HasCase limit t c) : c.places.Pairwise Before := by
  have hidx := Catalog.splitFields_ascending h.fields
  rw [← map_fst_places h, List.pairwise_map] at hidx
  exact hidx

theorem mem_choice_of_mem_places {i : Nat} {v : Ty} (hv : (i, v) ∈ c.places) : v ∈ c.choice :=
  (List.of_mem_zip hv).2

/-- Sub-patterns that name each chosen variant at the position of its field.  At the other
positions they may be whatever `other` allows. -/
structure TakenApart (c : Case) (other : Nat → Pattern → Prop) (parts : List Pattern) : Prop where
  /-- The sub-pattern at a split field tests for the chosen variant. -/
  chosen : ∀ i v, (i, v) ∈ c.places → ∃ q, parts[i]? = some q ∧ q.target? = some v
  /-- The sub-patterns elsewhere are allowed. -/
  rest : ∀ i q, parts[i]? = some q → i ∉ c.fields.map (·.index) → other i q

namespace TakenApart

variable {other : Nat → Pattern → Prop} {parts : List Pattern}

/-- The places of a case are among the placed variants, since a case chooses variants. -/
theorem places_subset (hparts : c.TakenApart other parts) (h : g.HasCase limit t c) :
    c.places ⊆ Pattern.placed g parts := by
  rintro ⟨i, v⟩ hv
  obtain ⟨q, hq, htarget⟩ := hparts.chosen i v hv
  have hvar := Catalog.isVariant_of_mem_choice h (mem_choice_of_mem_places hv)
  exact Pattern.mem_placed.2 ⟨q, hq, Pattern.variantTarget?_eq_some_iff.2 ⟨htarget, hvar⟩⟩

theorem places_sublist (hparts : c.TakenApart other parts) (h : g.HasCase limit t c) :
    c.places.Sublist (Pattern.placed g parts) :=
  sublist_of_before (places_ascending h) (Pattern.placed_ascending g parts)
    (hparts.places_subset h)

/-- Sub-patterns for a case name the chosen variants in order, perhaps among others. -/
theorem choice_sublist (hparts : c.TakenApart other parts) (h : g.HasCase limit t c) :
    c.choice.Sublist ((Pattern.deconstructed c.leaf parts).partVariants g) := by
  rw [← map_snd_places h, Pattern.partVariants_deconstructed]
  exact (hparts.places_sublist h).map _

/-- A placed variant that is no place of the case stands at another position. -/
theorem not_mem_index (hparts : c.TakenApart other parts) (h : g.HasCase limit t c)
    {i : Nat} {v : Ty} (hv : (i, v) ∈ Pattern.placed g parts) (hplace : (i, v) ∉ c.places) :
    i ∉ c.fields.map (·.index) := by
  intro hi
  rw [← map_fst_places h] at hi
  obtain ⟨⟨_, w⟩, hw, rfl⟩ := List.mem_map.1 hi
  obtain ⟨q, hq, htarget⟩ := Pattern.mem_placed.1 hv
  obtain ⟨q', hq', htarget'⟩ := hparts.chosen _ w hw
  obtain rfl : q = q' := Option.some.inj (hq.symm.trans hq')
  have hvw : v = w := Option.some.inj
    ((Pattern.variantTarget?_eq_some_iff.1 htarget).1.symm.trans htarget')
  exact hplace (hvw ▸ hw)

/-- **Sub-patterns for a case name just its variants**, if no sub-pattern elsewhere tests
for a variant. -/
theorem partVariants_eq (hparts : c.TakenApart other parts) (h : g.HasCase limit t c)
    (hother : ∀ i q, i ∉ c.fields.map (·.index) → other i q → q.variantTarget? g = none) :
    (Pattern.deconstructed c.leaf parts).partVariants g = c.choice := by
  have hsub : Pattern.placed g parts ⊆ c.places := by
    rintro ⟨i, v⟩ hv
    by_contra hplace
    have hi := hparts.not_mem_index h hv hplace
    obtain ⟨q, hq, htarget⟩ := Pattern.mem_placed.1 hv
    rw [hother i q hi (hparts.rest i q hq hi)] at htarget
    cases htarget
  have heq : Pattern.placed g parts = c.places :=
    List.Subset.antisymm_of_pairwise (Pattern.placed_ascending g parts) (places_ascending h)
      hsub (hparts.places_subset h)
  rw [Pattern.partVariants_deconstructed, heq, map_snd_places h]

/-- A variant at another position is named on top of the chosen ones. -/
theorem length_choice_lt (hparts : c.TakenApart other parts) (h : g.HasCase limit t c)
    {i : Nat} {v : Ty} (hv : (i, v) ∈ Pattern.placed g parts)
    (hi : i ∉ c.fields.map (·.index)) :
    c.choice.length < ((Pattern.deconstructed c.leaf parts).partVariants g).length := by
  have hsub := hparts.places_sublist h
  have hplace : (i, v) ∉ c.places := by
    intro hmem
    rw [← map_fst_places h] at hi
    exact hi (List.mem_map_of_mem (f := (·.1)) hmem)
  rw [← map_snd_places h, Pattern.partVariants_deconstructed, List.length_map, List.length_map]
  refine Nat.lt_of_le_of_ne hsub.length_le fun hlen => hplace ?_
  rw [hsub.eq_of_length hlen]
  exact hv

end TakenApart

/-! ## Arms for one case -/

/-- An arm for one case and nothing else: a test for the leaf if no field is split, and
otherwise a pattern that names the chosen variants and tests for nothing elsewhere. -/
def IsArm (c : Case) (p : Pattern) : Prop :=
  if c.fields = [] then p = .typed c.leaf
  else ∃ parts, p = .deconstructed c.leaf parts ∧
    c.TakenApart (fun _ q => q.isCatchAll = true) parts

/-- **An arm for a case has the name of the case.** -/
theorem IsArm.caseName?_eq {p : Pattern} (hp : c.IsArm p) (h : g.HasCase limit t c) :
    p.caseName? g = some (c.name g) := by
  rw [IsArm] at hp
  split at hp
  next hfields =>
    subst hp
    have hchoice : c.choice = [] := by simpa [hfields] using h.choice
    rw [Pattern.caseName?_typed, name, hchoice]
  next =>
    obtain ⟨parts, rfl, hparts⟩ := hp
    have hvariants := hparts.partVariants_eq h fun i q _ hq => by
      simp_all [Pattern.isCatchAll, Pattern.variantTarget?]
    rw [Pattern.caseName?_deconstructed, name, hvariants]

end Case

end SwitchCoverage
