import SwitchCoverage.Proofs.Hierarchy

/-!
# Cases of a type

A case is a leaf of a type together with one variant for each split field of the
leaf.  The names that a switch has to cover are the names of the cases, whenever
there are any; to reason about a switch is then to reason about its cases, with the
texts out of the way.

## Main definitions

* `Case` — a leaf, its split fields, and a variant for each.
* `Catalog.cases` — the cases of a type, in the order of the leaves.

## Main statements

* `Catalog.mem_splitFields` — which fields are split.
* `Catalog.isVariant_of_mem_choice` — a case chooses nothing but variants.
* `Catalog.requiredNames_eq_ok_iff` — what the required names are, and when there are none.
* `Catalog.requiredNames_cases` — the required names are the names of the cases.
-/
namespace SwitchCoverage

/-! ## Choices -/

/-- A choice takes one entry from each list. -/
theorem mem_choices {α : Type} {ys : List α} {xss : List (List α)} :
    ys ∈ choices xss ↔ List.Forall₂ (· ∈ ·) ys xss := by
  induction xss generalizing ys with
  | nil => simp [choices]
  | cons xs xss ih =>
    simp only [choices, List.mem_flatMap, List.mem_map, ih, List.forall₂_cons_right_iff]
    constructor
    · rintro ⟨x, hx, rest, hrest, rfl⟩
      exact ⟨x, rest, hx, hrest, rfl⟩
    · rintro ⟨x, rest, hx, hrest, rfl⟩
      exact ⟨x, hx, rest, hrest, rfl⟩

namespace Catalog

variable {g : Catalog} {limit : Nat}

/-! ## Split fields -/

theorem anyUnbound_eq_false_iff {ts : List Ty} :
    g.anyUnbound ts = false ↔ ∀ t ∈ ts, g.isUnbound t = false := by
  simp [anyUnbound]

theorem splits_eq_true_iff {vs : List Ty} :
    g.splits vs = true ↔ 1 < vs.length ∧ ∀ v ∈ vs, g.isUnbound v = false := by
  rw [splits, Bool.and_eq_true, decide_eq_true_eq, Bool.not_eq_true', anyUnbound_eq_false_iff]

/-- The split fields of a type come from the leaves of the types of all its fields. -/
theorem splitFields_eq_ok_iff {t : Ty} {fs : List SplitField} :
    g.splitFields limit t = .ok fs ↔ ∃ types vss, g.fieldTypes t = .ok types ∧
      List.Forall₂ (fun f vs => g.leaves limit f = .ok vs) types vss ∧
      fs = (vss.zipIdx.filter fun e => g.splits e.1).map fun e => ⟨e.2, e.1⟩ := by
  simp only [splitFields, bind_eq_ok_iff, mapError_eq_ok_iff, mapM_eq_ok_iff]
  constructor
  · rintro ⟨types, htypes, vss, hvss, h⟩
    exact ⟨types, vss, htypes, hvss, (Except.ok.inj h).symm⟩
  · rintro ⟨types, vss, htypes, hvss, rfl⟩
    exact ⟨types, htypes, vss, hvss, rfl⟩

/-- A split field is a field whose type has several leaves, all with their arguments. -/
theorem mem_splitFields {t : Ty} {fs : List SplitField} (h : g.splitFields limit t = .ok fs)
    {f : SplitField} : f ∈ fs ↔ ∃ types ty, g.fieldTypes t = .ok types ∧
      types[f.index]? = some ty ∧ g.leaves limit ty = .ok f.variants ∧
      g.splits f.variants = true := by
  obtain ⟨types, vss, htypes, hvss, rfl⟩ := splitFields_eq_ok_iff.1 h
  simp only [List.mem_map, List.mem_filter, Prod.exists, List.mk_mem_zipIdx_iff_getElem?]
  constructor
  · rintro ⟨vs, i, ⟨hi, hsplit⟩, rfl⟩
    obtain ⟨hlt, rfl⟩ := List.getElem?_eq_some_iff.1 hi
    have hlt' : i < types.length := by rw [hvss.length_eq]; exact hlt
    exact ⟨types, types[i], htypes, List.getElem?_eq_getElem hlt', hvss.get hlt' hlt, hsplit⟩
  · rintro ⟨types', ty, htypes', hty, hleaves, hsplit⟩
    obtain rfl : types = types' := Except.ok.inj (htypes.symm.trans htypes')
    obtain ⟨hlt, rfl⟩ := List.getElem?_eq_some_iff.1 hty
    have hlt' : f.index < vss.length := by rw [← hvss.length_eq]; exact hlt
    have hget : vss[f.index] = f.variants :=
      Except.ok.inj ((hvss.get hlt hlt').symm.trans hleaves)
    exact ⟨f.variants, f.index, ⟨List.getElem?_eq_some_iff.2 ⟨hlt', hget⟩, hsplit⟩, rfl⟩

/-- The split fields stand in the order of their positions. -/
theorem splitFields_ascending {t : Ty} {fs : List SplitField}
    (h : g.splitFields limit t = .ok fs) : (fs.map (·.index)).Pairwise (· < ·) := by
  obtain ⟨types, vss, -, -, rfl⟩ := splitFields_eq_ok_iff.1 h
  have hidx : (vss.zipIdx.map (·.2)).Pairwise (· < ·) := by
    rw [List.zipIdx_map_snd]
    exact List.pairwise_lt_range' 1
  rw [List.map_map]
  exact hidx.sublist (List.filter_sublist.map _)

/-- There is a choice of variants for the split fields of a type, since each has several. -/
theorem exists_choice {t : Ty} {fields : List SplitField}
    (h : g.splitFields limit t = .ok fields) :
    ∃ vs, List.Forall₂ (fun v f => v ∈ f.variants) vs fields := by
  have hsome : ∀ f ∈ fields, ∃ v, v ∈ f.variants := by
    intro f hf
    obtain ⟨_, _, -, -, -, hsplit⟩ := (mem_splitFields h).1 hf
    obtain ⟨hseveral, -⟩ := splits_eq_true_iff.1 hsplit
    exact List.exists_mem_of_length_pos (Nat.lt_of_succ_lt hseveral)
  obtain ⟨vs, hvs⟩ := exists_forall₂ hsome
  exact ⟨vs, hvs.flip⟩

/-- Every leaf that a split field can take is a variant of a closed declaration. -/
theorem isVariant_of_mem_splitFields {t : Ty} {fs : List SplitField}
    (h : g.splitFields limit t = .ok fs) {f : SplitField} (hf : f ∈ fs) {v : Ty}
    (hv : v ∈ f.variants) : g.isVariant v = true := by
  obtain ⟨types, ty, -, -, hleaves, hsplit⟩ := (mem_splitFields h).1 hf
  obtain ⟨hseveral, hbound⟩ := splits_eq_true_iff.1 hsplit
  exact isVariant_of_mem_leaves hleaves (isExpandable_of_one_lt_length hleaves hseveral) hv
    (hbound v hv)

end Catalog

/-! ## Cases -/

/-- A case of a type. -/
structure Case where
  /-- The leaf that a value belongs to. -/
  leaf : Ty
  /-- The split fields of the leaf, in order. -/
  fields : List SplitField
  /-- The variant that each of these fields is taken to be, in the same order. -/
  choice : List Ty
deriving Repr, Inhabited

/-- The name of a case. -/
def Case.name (g : Catalog) (c : Case) : String := g.caseName c.leaf c.choice

namespace Catalog

variable {g : Catalog} {limit : Nat}

/-- The cases of one leaf: one for each choice of variants for its split fields. -/
def casesOfLeaf (g : Catalog) (limit : Nat) (leaf : Ty) : Except CheckError (List Case) :=
  (g.splitFields limit leaf).map fun fields =>
    (choices (fields.map (·.variants))).map fun choice => ⟨leaf, fields, choice⟩

/-- The cases of a type, leaf by leaf. -/
def cases (g : Catalog) (limit : Nat) (t : Ty) : Except CheckError (List Case) := do
  let leaves ← g.leaves limit t
  return (← leaves.mapM (g.casesOfLeaf limit)).flatten

/-- `c` is a case of `t`: its leaf is one of the leaves of `t`, its fields are all split
fields of that leaf, and it takes one variant of each. -/
structure HasCase (g : Catalog) (limit : Nat) (t : Ty) (c : Case) : Prop where
  /-- The leaf is one of the leaves. -/
  leaf : ∃ ls, g.leaves limit t = .ok ls ∧ c.leaf ∈ ls
  /-- The fields are the split fields of the leaf. -/
  fields : g.splitFields limit c.leaf = .ok c.fields
  /-- The choice takes a variant of each field. -/
  choice : List.Forall₂ (fun v f => v ∈ f.variants) c.choice c.fields

theorem mem_casesOfLeaf {leaf : Ty} {cs : List Case} (h : g.casesOfLeaf limit leaf = .ok cs)
    {c : Case} : c ∈ cs ↔ c.leaf = leaf ∧ g.splitFields limit leaf = .ok c.fields ∧
      List.Forall₂ (fun v f => v ∈ f.variants) c.choice c.fields := by
  obtain ⟨fields, hfields, rfl⟩ := map_eq_ok_iff.1 h
  simp only [List.mem_map, mem_choices, List.forall₂_map_right_iff, hfields, Except.ok.injEq]
  constructor
  · rintro ⟨choice, hchoice, rfl⟩
    exact ⟨rfl, rfl, hchoice⟩
  · rintro ⟨rfl, rfl, hchoice⟩
    exact ⟨c.choice, hchoice, rfl⟩

theorem mem_cases {t : Ty} {cs : List Case} (h : g.cases limit t = .ok cs) {c : Case} :
    c ∈ cs ↔ g.HasCase limit t c := by
  simp only [cases, bind_eq_ok_iff, mapM_eq_ok_iff] at h
  obtain ⟨ls, hls, css, hcss, h⟩ := h
  obtain rfl : css.flatten = cs := Except.ok.inj h
  rw [List.mem_flatten]
  constructor
  · rintro ⟨cs, hcs, hc⟩
    obtain ⟨leaf, hmem, hleafcases⟩ := exists_left_of_mem hcss hcs
    obtain ⟨rfl, hfields, hchoice⟩ := (mem_casesOfLeaf hleafcases).1 hc
    exact ⟨⟨ls, hls, hmem⟩, hfields, hchoice⟩
  · rintro ⟨⟨ls', hls', hleaf⟩, hfields, hchoice⟩
    obtain rfl : ls = ls' := Except.ok.inj (hls.symm.trans hls')
    obtain ⟨cs, hcs, hleafcases⟩ := exists_right_of_mem hcss hleaf
    exact ⟨cs, hcs, (mem_casesOfLeaf hleafcases).2 ⟨rfl, hfields, hchoice⟩⟩

/-- A case chooses nothing but variants of closed declarations. -/
theorem isVariant_of_mem_choice {t : Ty} {c : Case} (h : g.HasCase limit t c) {v : Ty}
    (hv : v ∈ c.choice) : g.isVariant v = true := by
  obtain ⟨f, hf, hvf⟩ := exists_right_of_mem h.choice hv
  exact isVariant_of_mem_splitFields h.fields hf hvf

/-- Every leaf of a type has a case, since a split field has a variant to choose. -/
theorem exists_case_of_mem_leaves {t : Ty} {cs : List Case} (h : g.cases limit t = .ok cs)
    {ls : List Ty} (hls : g.leaves limit t = .ok ls) {leaf : Ty} (hleaf : leaf ∈ ls) :
    ∃ c ∈ cs, c.leaf = leaf := by
  have hfields : ∃ fields, g.splitFields limit leaf = .ok fields := by
    simp only [cases, bind_eq_ok_iff, mapM_eq_ok_iff] at h
    obtain ⟨ls', hls', css, hcss, -⟩ := h
    obtain rfl : ls = ls' := Except.ok.inj (hls.symm.trans hls')
    obtain ⟨_, -, hleafcases⟩ := exists_right_of_mem hcss hleaf
    obtain ⟨fields, hfields, -⟩ := map_eq_ok_iff.1 hleafcases
    exact ⟨fields, hfields⟩
  obtain ⟨fields, hfields⟩ := hfields
  obtain ⟨choice, hchoice⟩ := exists_choice hfields
  exact ⟨⟨leaf, fields, choice⟩, (mem_cases h).2 ⟨⟨ls, hls, hleaf⟩, hfields, hchoice⟩, rfl⟩

/-! ## Required names -/

theorem leafCases_eq (g : Catalog) (limit : Nat) (leaf : Ty) :
    g.leafCases limit leaf = (g.casesOfLeaf limit leaf).map fun cs => cs.map (·.name g) := by
  rw [leafCases, casesOfLeaf]
  cases g.splitFields limit leaf with
  | error e => rfl
  | ok fields => simp [Except.map, Case.name, Function.comp_def]

/-- Where the names of the cases are listed leaf by leaf, so are the cases. -/
theorem casesOfLeaf_of_leafCases {ls : List Ty} {nss : List (List String)}
    (h : List.Forall₂ (fun l ns => g.leafCases limit l = .ok ns) ls nss) :
    ∃ css, List.Forall₂ (fun l cs => g.casesOfLeaf limit l = .ok cs) ls css ∧
      nss = css.map fun cs => cs.map (·.name g) := by
  induction h with
  | nil => exact ⟨[], .nil, rfl⟩
  | cons hleaf _ ih =>
    obtain ⟨css, hcss, rfl⟩ := ih
    rw [leafCases_eq, map_eq_ok_iff] at hleaf
    obtain ⟨cs, hcs, rfl⟩ := hleaf
    exact ⟨cs :: css, .cons hcs hcss, rfl⟩

/-- What the required names are: none where the type cannot be expanded or a leaf lacks
arguments, and otherwise the names of the cases of all leaves. -/
theorem requiredNames_eq_ok_iff {t : Ty} {required : NameSet} :
    g.requiredNames limit t = .ok required ↔
      g.isExpandable t = false ∧ required = ∅ ∨
      g.isExpandable t = true ∧ ∃ ls, g.leaves limit t = .ok ls ∧
        (g.anyUnbound ls = true ∧ required = ∅ ∨
          g.anyUnbound ls = false ∧ ∃ nss,
            List.Forall₂ (fun l ns => g.leafCases limit l = .ok ns) ls nss ∧
            required = .ofList nss.flatten) := by
  have hok : ∀ s : NameSet, (.ok s : Except CheckError NameSet) = .ok required ↔ required = s :=
    fun s => by rw [Except.ok.injEq, eq_comm]
  have hpure : ∀ s : NameSet, (pure s : Except CheckError NameSet) = .ok required ↔
      required = s := hok
  rw [requiredNames]
  cases hx : g.isExpandable t with
  | false => simp [hok]
  | true =>
    simp only [if_true, Bool.true_eq_false, false_and, true_and, false_or, bind_eq_ok_iff]
    refine exists_congr fun ls => and_congr_right fun _ => ?_
    cases g.anyUnbound ls with
    | true => simp [hpure]
    | false =>
      simp only [Bool.false_eq_true, if_false, false_and, true_and, false_or, bind_eq_ok_iff,
        mapM_eq_ok_iff, hpure]

/-- **The required names are the names of the cases.**  If a switch on `t` has to cover
anything at all, then `t` is expandable, its leaves are listed and have their arguments,
its cases are listed, and a name is required just when it is the name of a case. -/
theorem requiredNames_cases {t : Ty} {required : NameSet}
    (h : g.requiredNames limit t = .ok required) (hne : required.isEmpty = false) :
    g.isExpandable t = true ∧
      (∃ ls, g.leaves limit t = .ok ls ∧ ∀ v ∈ ls, g.isUnbound v = false) ∧
      ∃ cs, g.cases limit t = .ok cs ∧ ∀ n, n ∈ required ↔ ∃ c ∈ cs, c.name g = n := by
  have hempty : required ≠ ∅ := by
    rintro rfl
    cases hne
  rcases requiredNames_eq_ok_iff.1 h with ⟨-, rfl⟩ | ⟨hx, ls, hls, h⟩
  · exact absurd rfl hempty
  · rcases h with ⟨-, rfl⟩ | ⟨hbound, nss, hnss, rfl⟩
    · exact absurd rfl hempty
    · obtain ⟨css, hcss, rfl⟩ := casesOfLeaf_of_leafCases hnss
      refine ⟨hx, ⟨ls, hls, anyUnbound_eq_false_iff.1 hbound⟩, css.flatten, ?_, ?_⟩
      · simp only [cases, bind_eq_ok_iff, mapM_eq_ok_iff]
        exact ⟨ls, hls, css, hcss, rfl⟩
      · intro n
        rw [NameSet.mem_ofList, ← List.map_flatten, List.mem_map]

end Catalog

end SwitchCoverage
