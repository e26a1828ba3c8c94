import SwitchCoverage.Proofs.Cases
import SwitchCoverage.Proofs.Failure

/-!
# Required names as combinations

The names that a switch has to cover are listed leaf by leaf, and for each leaf choice by
choice.  Here they are described as a set, with the words in which a name is written: the leaf,
and after `with` one variant for each of its split fields, in the order of the fields.  Which
fields are split is said without the listing as well: those of a declared type that has several
leaves, all of them with their arguments.

## Main definitions

* `Catalog.Unlistable` — a type whose cases cannot be listed.
* `Catalog.IsSplit` — a field that is split, and the variants that it can take.
* `Catalog.LeafName` — a name that a leaf contributes.

## Main statements

* `Catalog.mem_splitFields_iff_isSplit` — the listing of the split fields is complete.
* `Catalog.mem_flatten_leafCases` — the cases are named by what the leaves contribute.
* `Catalog.requiredNames_combinations` — **required names are the leaves with all choices.**
-/
namespace SwitchCoverage

namespace Catalog

variable {g : Catalog} {limit : Nat} {t leaf : Ty} {ls : List Ty} {n : String}

/-- The cases of a type cannot be listed: it cannot be expanded, or a leaf lacks arguments. -/
def Unlistable (g : Catalog) (limit : Nat) (t : Ty) : Prop :=
  g.isExpandable t = false ∨ ∃ ls, g.leaves limit t = .ok ls ∧ ∃ v ∈ ls, g.isUnbound v = true

/-- The field at `f.index` of a type is split into `f.variants`. -/
structure IsSplit (g : Catalog) (limit : Nat) (t : Ty) (f : SplitField) : Prop where
  /-- The type of the field, with the arguments put in, is a declared type, and the variants are
  its leaves. -/
  leaves : ∃ types field, g.fieldTypes t = .ok types ∧ types[f.index]? = some field ∧
    (∃ id, field.id? = some id) ∧ g.leaves limit field = .ok f.variants
  /-- There are several. -/
  several : 1 < f.variants.length
  /-- None of them lacks arguments. -/
  bound : ∀ v ∈ f.variants, g.isUnbound v = false

/-- The split fields that are listed are all there are.  Only a declared type can have several
leaves, so that this need not be checked. -/
theorem mem_splitFields_iff_isSplit {fs : List SplitField} (h : g.splitFields limit t = .ok fs)
    {f : SplitField} : f ∈ fs ↔ g.IsSplit limit t f := by
  rw [mem_splitFields h]
  constructor
  · rintro ⟨types, field, htypes, hfield, hleaves, hsplits⟩
    obtain ⟨hseveral, hbound⟩ := splits_eq_true_iff.1 hsplits
    obtain ⟨id, -, hid, -⟩ := decl_of_isExpandable (isExpandable_of_one_lt_length hleaves hseveral)
    exact ⟨⟨types, field, htypes, hfield, ⟨id, hid⟩, hleaves⟩, hseveral, hbound⟩
  · rintro ⟨⟨types, field, htypes, hfield, -, hleaves⟩, hseveral, hbound⟩
    exact ⟨types, field, htypes, hfield, hleaves, splits_eq_true_iff.2 ⟨hseveral, hbound⟩⟩

/-- `n` is a name that a leaf contributes: its own, if it has no split fields, and otherwise its
own together with those of one variant for each split field. -/
def LeafName (g : Catalog) (limit : Nat) (leaf : Ty) (n : String) : Prop :=
  ∃ fs, g.splitFields limit leaf = .ok fs ∧
    (fs = [] ∧ n = g.display leaf ∨
      fs ≠ [] ∧ ∃ vs, List.Forall₂ (fun v f => v ∈ f.variants) vs fs ∧
        n = g.display leaf ++ " with " ++ ", ".intercalate (vs.map g.display))

theorem leafCases_eq_ok_iff {ns : List String} : g.leafCases limit leaf = .ok ns ↔
    ∃ fs, g.splitFields limit leaf = .ok fs ∧
      ns = (choices (fs.map (·.variants))).map (g.caseName leaf) := by
  rw [leafCases, map_eq_ok_iff]
  exact exists_congr fun fs => and_congr_right fun _ => eq_comm

/-- A leaf without split fields contributes its own name, and any other leaf contributes a name
for every choice of variants. -/
theorem mem_leafCases {ns : List String} (h : g.leafCases limit leaf = .ok ns) :
    n ∈ ns ↔ g.LeafName limit leaf n := by
  obtain ⟨fs, hfs, rfl⟩ := leafCases_eq_ok_iff.1 h
  simp only [LeafName, List.mem_map, mem_choices, List.forall₂_map_right_iff, hfs,
    Except.ok.injEq, exists_eq_left']
  by_cases hempty : fs = []
  · subst hempty
    simp only [List.forall₂_nil_right_iff, exists_eq_left, caseName_nil, ne_eq, not_true_eq_false,
      false_and, true_and, or_false]
    exact eq_comm
  · simp only [hempty, false_and, false_or, ne_eq, not_false_eq_true, true_and]
    refine exists_congr fun vs => and_congr_right fun hvs => ?_
    have hne : vs ≠ [] := by
      rintro rfl
      exact hempty (List.forall₂_nil_left_iff.1 hvs)
    rw [caseName_of_ne_nil hne]
    exact eq_comm

/-- The names of the cases of several leaves are those that some leaf contributes. -/
theorem mem_flatten_leafCases {nss : List (List String)}
    (h : List.Forall₂ (fun l ns => g.leafCases limit l = .ok ns) ls nss) :
    n ∈ nss.flatten ↔ ∃ leaf ∈ ls, g.LeafName limit leaf n := by
  rw [List.mem_flatten]
  constructor
  · rintro ⟨ns, hns, hn⟩
    obtain ⟨leaf, hleaf, hcases⟩ := exists_left_of_mem h hns
    exact ⟨leaf, hleaf, (mem_leafCases hcases).1 hn⟩
  · rintro ⟨leaf, hleaf, hn⟩
    obtain ⟨ns, hns, hcases⟩ := exists_right_of_mem h hleaf
    exact ⟨ns, hns, (mem_leafCases hcases).2 hn⟩

/-- **Required names are the leaves with all choices.**  Nothing is required where the cases of
a type cannot be listed.  Otherwise the leaves of the type and their split fields are listed,
the fields in order, and a name is required just when it is the name of a leaf without split
fields, or the name of another leaf together with those of one variant for each split field. -/
theorem requiredNames_combinations {required : NameSet}
    (h : g.requiredNames limit t = .ok required) :
    (g.Unlistable limit t → required = ∅) ∧
    (¬ g.Unlistable limit t → ∃ ls, g.leaves limit t = .ok ls ∧
      (∀ leaf ∈ ls, ∃ fs, g.splitFields limit leaf = .ok fs ∧
        (fs.map (·.index)).Pairwise (· < ·) ∧ ∀ f, f ∈ fs ↔ g.IsSplit limit leaf f) ∧
      ∀ n, n ∈ required ↔ ∃ leaf ∈ ls, g.LeafName limit leaf n) := by
  rcases requiredNames_eq_ok_iff.1 h with ⟨hx, rfl⟩ | ⟨hx, ls, hls, h⟩
  · exact ⟨fun _ => rfl, fun hlistable => absurd (.inl hx) hlistable⟩
  · rcases h with ⟨hunbound, rfl⟩ | ⟨hbound, nss, hnss, rfl⟩
    · have hleaf : ∃ v ∈ ls, g.isUnbound v = true := by simpa [anyUnbound] using hunbound
      exact ⟨fun _ => rfl, fun hlistable => absurd (.inr ⟨ls, hls, hleaf⟩) hlistable⟩
    · rw [anyUnbound_eq_false_iff] at hbound
      refine ⟨fun hunlistable => ?_, fun _ => ⟨ls, hls, fun leaf hleaf => ?_, fun n => ?_⟩⟩
      · rcases hunlistable with hx' | ⟨ls', hls', v, hv, hunbound⟩
        · simp [hx] at hx'
        · obtain rfl : ls = ls' := Except.ok.inj (hls.symm.trans hls')
          simp [hbound v hv] at hunbound
      · obtain ⟨ns, -, hns⟩ := exists_right_of_mem hnss hleaf
        obtain ⟨fs, hfs, -⟩ := leafCases_eq_ok_iff.1 hns
        exact ⟨fs, hfs, splitFields_ascending hfs, fun f => mem_splitFields_iff_isSplit hfs⟩
      · rw [NameSet.mem_ofList, mem_flatten_leafCases hnss]

end Catalog

namespace Sample

/-- A panel is blank or filled, with a color, a number and a size.  Colors and sizes are of two
kinds each, and a color has two parameters. -/
def panels : Catalog where
  decls := #[
    { name := "Int" },
    { name := "Text" },
    { name := "Color", typeParams := ["A", "B"] },
    { name := "Red", container := some ⟨2⟩
      supertype := some (.applied ⟨2⟩ [.param "A", .param "B"]) },
    { name := "Blue", container := some ⟨2⟩
      supertype := some (.applied ⟨2⟩ [.param "A", .param "B"]) },
    { name := "Size" },
    { name := "Small", container := some ⟨5⟩, supertype := some (.plain ⟨5⟩) },
    { name := "Large", container := some ⟨5⟩, supertype := some (.plain ⟨5⟩) },
    { name := "Panel", typeParams := ["T"] },
    { name := "Blank", container := some ⟨8⟩, supertype := some (.applied ⟨8⟩ [.param "T"]) },
    { name := "Filled", container := some ⟨8⟩, supertype := some (.applied ⟨8⟩ [.param "T"])
      constructors := [{ params := [.applied ⟨2⟩ [.param "T", .plain ⟨1⟩], .plain ⟨0⟩,
        .plain ⟨5⟩] }] }]
  faultless := by decide

/-- A panel of numbers. -/
def intPanel : Ty := .applied ⟨8⟩ [.plain ⟨0⟩]

/-- A panel of numbers that is filled. -/
def filled : Ty := (Ty.plain ⟨10⟩).within intPanel

/-- The colors of such a panel. -/
def panelColor (id : DeclId) : Ty := (Ty.plain id).within (.applied ⟨2⟩ [.plain ⟨0⟩, .plain ⟨1⟩])

/-- The sizes of a panel. -/
def panelSize (id : DeclId) : Ty := (Ty.plain id).within (.plain ⟨5⟩)

/-- The split fields of a filled panel.  The number between them is not split. -/
def panelFields : List SplitField :=
  [⟨0, [panelColor ⟨3⟩, panelColor ⟨4⟩]⟩, ⟨2, [panelSize ⟨6⟩, panelSize ⟨7⟩]⟩]

theorem leaves_intPanel :
    panels.leaves 64 intPanel = .ok [(Ty.plain ⟨9⟩).within intPanel, filled] := rfl

theorem splitFields_filled : panels.splitFields 64 filled = .ok panelFields := rfl

theorem required_intPanel : ∃ required, panels.requiredNames 64 intPanel = .ok required ∧
    required.isEmpty = false := ⟨_, rfl, rfl⟩

end Sample

theorem Catalog.requiredNames_combinations_intPanel :
    ¬ Sample.panels.Unlistable 64 Sample.intPanel ∧
    ∃ required, Sample.panels.requiredNames 64 Sample.intPanel = .ok required ∧
      "Filled<Int> with Blue<Int, Text>, Small" ∈ required := by
  have hlistable : ¬ Sample.panels.Unlistable 64 Sample.intPanel := by
    rintro (hx | ⟨ls, hls, v, hv, hunbound⟩)
    · cases hx
    · obtain rfl := Except.ok.inj (Sample.leaves_intPanel.symm.trans hls)
      have hbound : ∀ v ∈ [(Ty.plain ⟨9⟩).within Sample.intPanel, Sample.filled],
          Sample.panels.isUnbound v = false := by decide
      simp [hbound v hv] at hunbound
  obtain ⟨required, hrequired, -⟩ := Sample.required_intPanel
  obtain ⟨ls, hls, -, hnames⟩ := (requiredNames_combinations hrequired).2 hlistable
  obtain rfl := Except.ok.inj (Sample.leaves_intPanel.symm.trans hls)
  refine ⟨hlistable, required, hrequired, (hnames _).2 ⟨Sample.filled, .tail _ (.head _),
    Sample.panelFields, Sample.splitFields_filled, .inr ⟨nofun, ?_⟩⟩⟩
  exact ⟨[Sample.panelColor ⟨4⟩, Sample.panelSize ⟨6⟩],
    .cons (.tail _ (.head _)) (.cons (.head _) .nil), rfl⟩

end SwitchCoverage
