import SwitchCoverage.Proofs.Combinations
import SwitchCoverage.Proofs.Flattening
import SwitchCoverage.Proofs.Verdict

/-!
# Required names of sub-hierarchies

A closed type is made up of its variants, and what a switch on it has to cover is made up
accordingly.  A variant that is closed in turn is a type that one can switch on, and all that is
required of such a switch is required of a switch on the whole.  Any other variant is a leaf.

The expansion of a variant on its own starts anew, with all the levels that the limit allows, while
the expansion of the whole had one level less to go when it came to the variant.  It comes to the
same leaves; and what a leaf contributes depends on the leaf alone.

## Main definitions

* `Catalog.Listed` — a type whose cases can be listed, and its leaves.

## Main statements

* `Catalog.Listed.exists_required`, `Catalog.listed_of_required` — a name is required of a type
  just when its cases can be listed.
* `Catalog.Listed.of_child` — with the cases of a type, those of its variants can be listed.
* `Catalog.requiredNames_compose` — **required names compose over sub-hierarchies.**
-/
namespace SwitchCoverage

namespace Catalog

variable {g : Catalog} {limit : Nat} {t leaf : Ty} {ls : List Ty} {n : String}

theorem exists_leafName {fs : List SplitField} (h : g.splitFields limit leaf = .ok fs) :
    ∃ n, g.LeafName limit leaf n := by
  by_cases hempty : fs = []
  · exact ⟨_, fs, h, .inl ⟨hempty, rfl⟩⟩
  · obtain ⟨vs, hvs⟩ := exists_choice h
    exact ⟨_, fs, h, .inr ⟨hempty, vs, hvs, rfl⟩⟩

/-! ## Types whose cases can be listed -/

/-- The cases of `t` can be listed, and `ls` are its leaves. -/
structure Listed (g : Catalog) (limit : Nat) (t : Ty) (ls : List Ty) : Prop where
  /-- The type can be expanded. -/
  isExpandable : g.isExpandable t = true
  /-- The expansion is not cut off. -/
  leaves : g.leaves limit t = .ok ls
  /-- No leaf lacks arguments. -/
  bound : ∀ v ∈ ls, g.isUnbound v = false
  /-- The fields of each leaf can be looked up, and their expansion is not cut off. -/
  fields : ∀ leaf ∈ ls, ∃ fs, g.splitFields limit leaf = .ok fs

/-- Where the names of the cases of each leaf are listed, the cases are. -/
theorem Listed.of_leafCases {nss : List (List String)} (hx : g.isExpandable t = true)
    (hls : g.leaves limit t = .ok ls) (hbound : g.anyUnbound ls = false)
    (hnss : List.Forall₂ (fun l ns => g.leafCases limit l = .ok ns) ls nss) :
    g.Listed limit t ls := by
  refine ⟨hx, hls, anyUnbound_eq_false_iff.1 hbound, fun leaf hleaf => ?_⟩
  obtain ⟨ns, -, hns⟩ := exists_right_of_mem hnss hleaf
  obtain ⟨fs, hfs, -⟩ := leafCases_eq_ok_iff.1 hns
  exact ⟨fs, hfs⟩

/-- What is required of a type whose cases can be listed: the names that its leaves contribute,
and there are some. -/
theorem Listed.exists_required (h : g.Listed limit t ls) :
    ∃ required, g.requiredNames limit t = .ok required ∧ required.isEmpty = false ∧
      ∀ n, n ∈ required ↔ ∃ leaf ∈ ls, g.LeafName limit leaf n := by
  have hcases : ∀ leaf ∈ ls, ∃ ns, g.leafCases limit leaf = .ok ns := by
    intro leaf hleaf
    obtain ⟨fs, hfs⟩ := h.fields leaf hleaf
    exact ⟨_, leafCases_eq_ok_iff.2 ⟨fs, hfs, rfl⟩⟩
  obtain ⟨nss, hnss⟩ := exists_forall₂ hcases
  have hmem : ∀ n, n ∈ NameSet.ofList nss.flatten ↔ ∃ leaf ∈ ls, g.LeafName limit leaf n := by
    intro n
    rw [NameSet.mem_ofList, mem_flatten_leafCases hnss]
  refine ⟨.ofList nss.flatten, ?_, ?_, hmem⟩
  · apply requiredNames_eq_ok_iff.2
    exact .inr ⟨h.isExpandable, ls, h.leaves,
      .inr ⟨anyUnbound_eq_false_iff.2 h.bound, nss, hnss, rfl⟩⟩
  · obtain ⟨leaf, hleaf⟩ := List.exists_mem_of_ne_nil ls (leavesWithin_ne_nil h.leaves)
    obtain ⟨fs, hfs⟩ := h.fields leaf hleaf
    obtain ⟨n, hn⟩ := exists_leafName hfs
    rw [← Bool.not_eq_true, NameSet.isEmpty_iff]
    intro hnone
    exact hnone n ((hmem n).2 ⟨leaf, hleaf, hn⟩)

/-- Where a name is required, the cases can be listed. -/
theorem listed_of_required {required : NameSet} (h : g.requiredNames limit t = .ok required)
    (hne : required.isEmpty = false) :
    ∃ ls, g.Listed limit t ls ∧ ∀ n, n ∈ required ↔ ∃ leaf ∈ ls, g.LeafName limit leaf n := by
  have hempty : required ≠ ∅ := by
    rintro rfl
    cases hne
  rcases requiredNames_eq_ok_iff.1 h with ⟨-, hnone⟩ | ⟨hx, ls, hls, hcases⟩
  · exact absurd hnone hempty
  · rcases hcases with ⟨-, hnone⟩ | ⟨hbound, nss, hnss, -⟩
    · exact absurd hnone hempty
    · have hlisted : g.Listed limit t ls := .of_leafCases hx hls hbound hnss
      obtain ⟨required', h', -, hmem⟩ := hlisted.exists_required
      obtain rfl : required = required' := Except.ok.inj (h.symm.trans h')
      exact ⟨ls, hlisted, hmem⟩

/-! ## Variants -/

/-- The leaves of a type are those of its variants, each expanded on its own.  There is one level
more to go for each of them than there was in the expansion of the whole. -/
theorem Listed.exists_parts (h : g.Listed limit t ls) :
    ∃ parts, ls = parts.flatten ∧
      List.Forall₂ (fun c l => g.leaves limit c = .ok l) (g.children t) parts := by
  obtain ⟨m, parts, hm, hls, hparts⟩ := (leavesWithin_of_isExpandable h.isExpandable).1 h.leaves
  have hle : m ≤ limit := by omega
  exact ⟨parts, hls, hparts.imp fun _ _ hc => leavesWithin_of_le hle hc⟩

/-- With the cases of a type, those of its closed variants can be listed. -/
theorem Listed.of_child (h : g.Listed limit t ls) {c : Ty} (hc : c ∈ g.children t)
    (hx : g.isExpandable c = true) : ∃ l, g.Listed limit c l ∧ ∀ v ∈ l, v ∈ ls := by
  obtain ⟨parts, rfl, hparts⟩ := h.exists_parts
  obtain ⟨l, hl, hleaves⟩ := exists_right_of_mem hparts hc
  have hsub : ∀ v ∈ l, v ∈ parts.flatten := fun v hv => List.mem_flatten.2 ⟨l, hl, hv⟩
  refine ⟨l, ⟨hx, hleaves, fun v hv => ?_, fun v hv => ?_⟩, hsub⟩
  · exact h.bound v (hsub v hv)
  · exact h.fields v (hsub v hv)

/-- `n` is a name that a variant contributes to what is required of its parent: a name that is
required of a switch on the variant, if that can be expanded, and a name of a leaf otherwise. -/
def VariantName (g : Catalog) (limit : Nat) (c : Ty) (n : String) : Prop :=
  if g.isExpandable c then ∃ required, g.requiredNames limit c = .ok required ∧ n ∈ required
  else g.LeafName limit c n

/-- A variant contributes what its leaves contribute. -/
theorem Listed.variantName_iff (h : g.Listed limit t ls) {c : Ty} (hc : c ∈ g.children t)
    {l : List Ty} (hl : g.leaves limit c = .ok l) :
    g.VariantName limit c n ↔ ∃ leaf ∈ l, g.LeafName limit leaf n := by
  by_cases hx : g.isExpandable c = true
  · rw [VariantName, if_pos hx]
    obtain ⟨l', hlisted, -⟩ := h.of_child hc hx
    obtain rfl : l = l' := Except.ok.inj (hl.symm.trans hlisted.leaves)
    obtain ⟨required, hrequired, -, hmem⟩ := hlisted.exists_required
    simp [hrequired, hmem]
  · rw [VariantName, if_neg hx]
    rw [Catalog.leaves, leavesWithin_of_not_isExpandable (by simpa using hx)] at hl
    cases hl
    simp

/-- What the leaves of a type contribute is what its variants contribute. -/
theorem Listed.leafName_iff_variantName (h : g.Listed limit t ls) :
    (∃ leaf ∈ ls, g.LeafName limit leaf n) ↔ ∃ c ∈ g.children t, g.VariantName limit c n := by
  obtain ⟨parts, hls, hparts⟩ := h.exists_parts
  constructor
  · rintro ⟨leaf, hleaf, hn⟩
    obtain ⟨l, hl, hleaf⟩ := List.mem_flatten.1 (hls ▸ hleaf)
    obtain ⟨c, hc, hleaves⟩ := exists_left_of_mem hparts hl
    exact ⟨c, hc, (h.variantName_iff hc hleaves).2 ⟨leaf, hleaf, hn⟩⟩
  · rintro ⟨c, hc, hn⟩
    obtain ⟨l, hl, hleaves⟩ := exists_right_of_mem hparts hc
    obtain ⟨leaf, hleaf, hn⟩ := (h.variantName_iff hc hleaves).1 hn
    exact ⟨leaf, hls ▸ List.mem_flatten.2 ⟨l, hl, hleaf⟩, hn⟩

/-- **Required names compose over sub-hierarchies.**  Suppose that something is required of a
switch on a type.  Then every variant of its declaration can be instantiated in it.  Of an instance
that can be expanded something is required too, and nothing that is not required of the whole; of
any other instance, the names that it contributes as a leaf can be listed.  What is required of the
whole are the names that some instance contributes. -/
theorem requiredNames_compose {required : NameSet} (h : g.requiredNames limit t = .ok required)
    (hne : required.isEmpty = false) :
    ∃ p, t.id? = some p ∧
      (∀ id ∈ g.variants p, ∃ c, g.instantiate t id = .ok c ∧
        (g.isExpandable c = true → ∃ sub, g.requiredNames limit c = .ok sub ∧
          sub.isEmpty = false ∧ ∀ n ∈ sub, n ∈ required) ∧
        (g.isExpandable c = false → ∃ fs, g.splitFields limit c = .ok fs)) ∧
      ∀ n, n ∈ required ↔
        ∃ id ∈ g.variants p, ∃ c, g.instantiate t id = .ok c ∧ g.VariantName limit c n := by
  obtain ⟨ls, hlisted, hmem⟩ := listed_of_required h hne
  obtain ⟨p, -, hp, -⟩ := decl_of_isExpandable hlisted.isExpandable
  have hchildren := mapM_eq_ok_iff.1 (instantiate_variants (g := g) hp)
  refine ⟨p, hp, fun id hid => ?_, fun n => ?_⟩
  · obtain ⟨c, hc, hinstance⟩ := exists_right_of_mem hchildren hid
    refine ⟨c, hinstance, fun hx => ?_, fun hx => ?_⟩
    · obtain ⟨l, hlisted', hsub⟩ := hlisted.of_child hc hx
      obtain ⟨sub, hsubreq, hsubne, hsubmem⟩ := hlisted'.exists_required
      refine ⟨sub, hsubreq, hsubne, fun n hn => (hmem n).2 ?_⟩
      obtain ⟨leaf, hleaf, hname⟩ := (hsubmem n).1 hn
      exact ⟨leaf, hsub leaf hleaf, hname⟩
    · obtain ⟨parts, rfl, hparts⟩ := hlisted.exists_parts
      obtain ⟨l, hl, hleaves⟩ := exists_right_of_mem hparts hc
      rw [Catalog.leaves, leavesWithin_of_not_isExpandable hx] at hleaves
      cases hleaves
      exact hlisted.fields c (List.mem_flatten.2 ⟨[c], hl, .head _⟩)
  · rw [hmem, hlisted.leafName_iff_variantName]
    constructor
    · rintro ⟨c, hc, hn⟩
      obtain ⟨id, hid, hinstance⟩ := exists_left_of_mem hchildren hc
      exact ⟨id, hid, c, hinstance, hn⟩
    · rintro ⟨id, hid, c, hinstance, hn⟩
      exact ⟨c, mem_children_of_instantiate hp hid hinstance, hn⟩

end Catalog

namespace Sample

/-- A figure is a dot or a solid, and a solid is a cube or a ball.  Dots and balls are red or
blue. -/
def figures : Catalog where
  decls := #[
    { name := "Color" },
    { name := "Red", container := some ⟨0⟩, supertype := some (.plain ⟨0⟩) },
    { name := "Blue", container := some ⟨0⟩, supertype := some (.plain ⟨0⟩) },
    { name := "Figure" },
    { name := "Dot", container := some ⟨3⟩, supertype := some (.plain ⟨3⟩)
      constructors := [{ params := [.plain ⟨0⟩] }] },
    { name := "Solid", container := some ⟨3⟩, supertype := some (.plain ⟨3⟩) },
    { name := "Cube", container := some ⟨5⟩, supertype := some (.plain ⟨5⟩) },
    { name := "Ball", container := some ⟨5⟩, supertype := some (.plain ⟨5⟩)
      constructors := [{ params := [.plain ⟨0⟩] }] }]
  faultless := by decide

/-- A figure. -/
def figure : Ty := .plain ⟨3⟩

/-- A solid, as a figure. -/
def solid : Ty := (Ty.plain ⟨5⟩).within figure

theorem instantiate_solid : figures.instantiate figure ⟨5⟩ = .ok solid := rfl

theorem variants_figure : figures.variants ⟨3⟩ = [⟨4⟩, ⟨5⟩] := rfl

end Sample

theorem Catalog.requiredNames_compose_figures :
    ∃ required, Sample.figures.requiredNames 64 Sample.figure = .ok required ∧
      required.isEmpty = false ∧ required.size = 5 ∧
      (∃ sub, Sample.figures.requiredNames 64 Sample.solid = .ok sub ∧ sub.isEmpty = false ∧
        ∀ n ∈ sub, n ∈ required) ∧
      ∀ n, n ∈ required ↔ ∃ id ∈ Sample.figures.variants ⟨3⟩, ∃ c,
        Sample.figures.instantiate Sample.figure id = .ok c ∧
        Sample.figures.VariantName 64 c n := by
  have hrequired : ∃ required, Sample.figures.requiredNames 64 Sample.figure = .ok required ∧
      required.isEmpty = false ∧ required.size = 5 := ⟨_, rfl, rfl, rfl⟩
  obtain ⟨required, hrequired, hne, hsize⟩ := hrequired
  obtain ⟨p, hp, hvariants, hnames⟩ := requiredNames_compose hrequired hne
  obtain rfl : (⟨3⟩ : DeclId) = p := Option.some.inj hp
  refine ⟨required, hrequired, hne, hsize, ?_, hnames⟩
  have hmem : (⟨5⟩ : DeclId) ∈ Sample.figures.variants ⟨3⟩ := by simp [Sample.variants_figure]
  obtain ⟨c, hc, hsub, -⟩ := hvariants ⟨5⟩ hmem
  obtain rfl : Sample.solid = c := Except.ok.inj (Sample.instantiate_solid.symm.trans hc)
  exact hsub rfl

end SwitchCoverage
