import SwitchCoverage.Proofs.Closure
import SwitchCoverage.Proofs.Legible

/-!
# What silence says

A silent check is meant to say that every case has an arm.  What it does say is that
every case has an arm of the same name, and a name is less than a case.

Of the leaf, the name tells the declaration, up to declarations that are confusable
with it.  Of the variants in split fields, it tells the declarations and their order,
if the names are legible; it does not tell their positions.  An arm that names
variants at split positions only has them in the right place all the same, since it
names as many as there are split fields.  Where an arm for a leaf names others as well,
all that is said is that the leaf has an arm.

## Main definitions

* `Catalog.declares` — types whose declaration is in the catalog.
* `Case.TestsLeaf` — an arm that has the declaration of the leaf.
* `Case.MetInPlace` — an arm that has those of the variants as well, in the split fields.
* `Case.OnlySplit` — an arm that names no variant in any other field.
* `Switch.FalselySilent` — a switch whose check overlooks a case.

## Main statements

* `Switch.leaf_met_of_silent` — after silence, each leaf has an arm, or a confusable one.
* `Switch.case_met_of_silent` — after silence, each case is met in place, where the arms for
  its leaf name variants in split fields only.
* `Switch.leaf_unmet_shapeArms`, `Switch.falselySilent_samples` — without such conditions,
  silence can be false.
-/
namespace SwitchCoverage

/-- Whether a type is declared, and its declaration is in the catalog. -/
def Catalog.declares (g : Catalog) (t : Ty) : Bool := (t.id?.bind g.decl?).isSome

theorem Catalog.declares_iff {g : Catalog} {t : Ty} :
    g.declares t = true ↔ ∃ id d, t.id? = some id ∧ g.decl? id = some d := by
  simp only [declares, Option.isSome_iff_exists, Option.bind_eq_some_iff]
  constructor
  · rintro ⟨d, id, hid, hd⟩
    exact ⟨id, d, hid, hd⟩
  · rintro ⟨id, d, hid, hd⟩
    exact ⟨d, id, hid, hd⟩

namespace Case

/-- The arm tests for the declaration of the leaf. -/
def TestsLeaf (c : Case) (p : Pattern) : Prop := p.target?.bind Ty.id? = c.leaf.id?

instance (c : Case) (p : Pattern) : Decidable (c.TestsLeaf p) :=
  inferInstanceAs (Decidable (_ = _))

/-- The arm tests for the declaration of the leaf, and at the position of each split field
it has a sub-pattern that tests for the declaration of the chosen variant. -/
def MetInPlace (c : Case) (p : Pattern) : Prop :=
  c.TestsLeaf p ∧ ∀ e ∈ c.places,
    ∃ q ∈ (p.parts?.getD [])[e.1]?, q.target?.bind Ty.id? = e.2.id?

instance (c : Case) (p : Pattern) : Decidable (c.MetInPlace p) :=
  inferInstanceAs (Decidable (_ ∧ _))

/-- No sub-pattern of the arm tests for a variant at a position that is not split. -/
def OnlySplit (g : Catalog) (c : Case) (p : Pattern) : Prop :=
  ∀ e ∈ Pattern.placed g (p.parts?.getD []), e.1 ∈ c.fields.map (·.index)

instance (g : Catalog) (c : Case) (p : Pattern) : Decidable (c.OnlySplit g p) :=
  inferInstanceAs (Decidable (∀ e ∈ _, _))

variable {g : Catalog} {limit : Nat} {t : Ty} {c : Case} {p : Pattern}

/-- An arm that names variants in split fields only, and as many as there are, names one in
each of them: both rows of positions ascend. -/
theorem OnlySplit.map_fst_placed (honly : c.OnlySplit g p) (h : g.HasCase limit t c)
    (hlength : (Pattern.placed g (p.parts?.getD [])).length = c.fields.length) :
    (Pattern.placed g (p.parts?.getD [])).map (·.1) = c.fields.map (·.index) := by
  have hascending : ((Pattern.placed g (p.parts?.getD [])).map (·.1)).Pairwise (· < ·) :=
    List.pairwise_map.2 (Pattern.placed_ascending g _)
  have hsub : (Pattern.placed g (p.parts?.getD [])).map (·.1) ⊆ c.fields.map (·.index) := by
    intro j hj
    obtain ⟨e, he, rfl⟩ := List.mem_map.1 hj
    exact honly e he
  have hsublist := List.sublist_of_subperm_of_pairwise
    (List.subperm_of_subset hascending.nodup hsub) hascending
    (Catalog.splitFields_ascending h.fields)
  refine hsublist.eq_of_length ?_
  rw [List.length_map, List.length_map, hlength]

/-- The variants that an arm names are in place if they have the declarations of the chosen
ones, in the same order, and are in split fields only. -/
theorem MetInPlace.of_order (h : g.HasCase limit t c) (hleaf : c.TestsLeaf p)
    (hids : (p.partVariants g).map Ty.id? = c.choice.map Ty.id?) (honly : c.OnlySplit g p) :
    c.MetInPlace p := by
  refine ⟨hleaf, fun ⟨i, v⟩ hv => ?_⟩
  rw [Pattern.partVariants, ← Pattern.map_snd_placed] at hids
  have hlength : (Pattern.placed g (p.parts?.getD [])).length = c.fields.length := by
    simpa [length_choice h] using congrArg List.length hids
  -- Position by position, the placed variants have the declarations of the case.
  have hplaces : c.places.map (Prod.map id Ty.id?) =
      (Pattern.placed g (p.parts?.getD [])).map fun e => (e.1, e.2.id?) := by
    rw [places, ← List.zip_map_right, ← honly.map_fst_placed h hlength, ← hids, List.map_map,
      List.zip_map']
    rfl
  have hmem := List.mem_map_of_mem (f := Prod.map id Ty.id?) hv
  rw [hplaces] at hmem
  obtain ⟨⟨j, w⟩, hw, hjw⟩ := List.mem_map.1 hmem
  obtain ⟨rfl, hid⟩ := Prod.mk.inj hjw
  obtain ⟨q, hq, hqw⟩ := Pattern.mem_placed.1 hw
  refine ⟨q, hq, ?_⟩
  rw [(Pattern.variantTarget?_eq_some_iff.1 hqw).1]
  exact hid

end Case

namespace Switch

variable {g : Catalog} {cfg : Config} {t : Ty} {required : NameSet} {arms : List Pattern}

/-- After silence, each case has an arm of its name. -/
theorem exists_arm_of_silent (h : g.requiredNames cfg.maxDepth t = .ok required)
    (hne : required.isEmpty = false)
    (hnone : (Switch.mk t arms false).check g cfg = .ok none) {c : Case}
    (hc : g.HasCase cfg.maxDepth t c) :
    ∃ p ∈ arms, ∃ u, p.target? = some u ∧
      g.caseName c.leaf c.choice = g.caseName u (p.partVariants g) := by
  obtain ⟨-, -, cs, hcs, hrequired⟩ := Catalog.requiredNames_cases h hne
  have hname : c.name g ∈ required := (hrequired _).2 ⟨c, (Catalog.mem_cases hcs).2 hc, rfl⟩
  obtain ⟨p, hp, hpn⟩ := covered_of_check_eq_none h hne hnone _ hname
  obtain ⟨u, hu, huname⟩ := Option.map_eq_some_iff.1 hpn
  exact ⟨p, hp, u, hu, huname.symm⟩

/-- **After silence, each leaf is met, or a confusable declaration is.** -/
theorem leaf_met_of_silent (h : g.requiredNames cfg.maxDepth t = .ok required)
    (hne : required.isEmpty = false)
    (hdeclared : ∀ p ∈ arms, ∀ u ∈ p.target?, g.declares u = true)
    (hnone : (Switch.mk t arms false).check g cfg = .ok none) :
    ∃ ls, g.leaves cfg.maxDepth t = .ok ls ∧ ∀ leaf ∈ ls, ∃ p ∈ arms, ∃ i j,
      leaf.id? = some i ∧ p.target?.bind Ty.id? = some j ∧ (i = j ∨ g.Confusable i j) := by
  obtain ⟨hx, ⟨ls, hls, -⟩, cs, hcs, -⟩ := Catalog.requiredNames_cases h hne
  refine ⟨ls, hls, fun leaf hleaf => ?_⟩
  obtain ⟨c, hc, rfl⟩ := Catalog.exists_case_of_mem_leaves hcs hls hleaf
  obtain ⟨p, hp, u, hu, hname⟩ :=
    exists_arm_of_silent h hne hnone ((Catalog.mem_cases hcs).1 hc)
  obtain ⟨i, -, hi, -⟩ := Catalog.decl_of_mem_leaves hls hx hleaf
  obtain ⟨j, -, hj, -⟩ := Catalog.declares_iff.1 (hdeclared p hp u hu)
  exact ⟨p, hp, i, j, hi, by simp [hu, hj], Catalog.confusable_of_caseName_eq hi hj hname⟩

end Switch

/-! ## Shared names -/

namespace Sample

/-- A closed type with type parameters. -/
def closed (name : String) (typeParams : List String) : Decl :=
  { name, typeParams, constructors := [{ visibility := .priv, params := [] }] }

/-- A variant of a type, with fields. -/
def variant (name : String) (parent : Ty) (fields : List Ty) : Decl :=
  { name, container := parent.id?, supertype := some parent
    constructors := [{ params := fields }] }

/-- A shape is round or solid, and a solid can be round as well. -/
def shapes : Catalog where
  decls := #[
    closed "Shape" [],
    variant "Round" (.plain (.ofNat 0)) [],
    (closed "Solid" []).derivedFrom (.ofNat 0) (.plain (.ofNat 0)),
    variant "Round" (.plain (.ofNat 2)) []]
  faultless := by decide

def shape : Ty := .plain (.ofNat 0)

/-- One arm, for the round shapes that are not solid. -/
def shapeArms : List Pattern := [.typed ((Ty.plain (.ofNat 1)).within shape)]

theorem required_shape : ∃ required, shapes.requiredNames 64 shape = .ok required ∧
    required.isEmpty = false := ⟨_, rfl, rfl⟩

theorem declares_shapeArms :
    ∀ p ∈ shapeArms, ∀ u ∈ p.target?, shapes.declares u = true := by decide

theorem silent_shapeArms : (Switch.mk shape shapeArms false).check shapes {} = .ok none := by
  rfl

end Sample

namespace Switch

/-- The round solids have no arm, and the check is silent. -/
theorem leaf_unmet_shapeArms :
    (∃ required, Sample.shapes.requiredNames 64 Sample.shape = .ok required ∧
      required.isEmpty = false) ∧
    (∀ p ∈ Sample.shapeArms, ∀ u ∈ p.target?, Sample.shapes.declares u = true) ∧
    (Switch.mk Sample.shape Sample.shapeArms false).check Sample.shapes {} = .ok none ∧
    ∃ ls, Sample.shapes.leaves 64 Sample.shape = .ok ls ∧
      ∃ leaf ∈ ls, ∀ p ∈ Sample.shapeArms, p.target?.bind Ty.id? ≠ leaf.id? := by
  refine ⟨Sample.required_shape, Sample.declares_shapeArms, Sample.silent_shapeArms,
    _, rfl, (Ty.plain (.ofNat 3)).within (Ty.within (.plain (.ofNat 2)) Sample.shape),
    .tail _ (.head _), ?_⟩
  rw [Sample.shapeArms, List.forall_mem_singleton]
  decide

theorem leaf_met_of_silent_shapeArms :
    (∃ required, Sample.shapes.requiredNames 64 Sample.shape = .ok required ∧
      required.isEmpty = false) ∧
    (∀ p ∈ Sample.shapeArms, ∀ u ∈ p.target?, Sample.shapes.declares u = true) ∧
    (Switch.mk Sample.shape Sample.shapeArms false).check Sample.shapes {} = .ok none ∧
    ∃ ls, Sample.shapes.leaves 64 Sample.shape = .ok ls ∧
      ∀ leaf ∈ ls, ∃ p ∈ Sample.shapeArms, ∃ i j, leaf.id? = some i ∧
        p.target?.bind Ty.id? = some j ∧ (i = j ∨ Sample.shapes.Confusable i j) := by
  refine ⟨Sample.required_shape, Sample.declares_shapeArms, Sample.silent_shapeArms, ?_⟩
  obtain ⟨required, hreq, hne⟩ := Sample.required_shape
  exact @leaf_met_of_silent _ {} _ _ _ hreq hne Sample.declares_shapeArms Sample.silent_shapeArms

variable {g : Catalog} {cfg : Config} {t : Ty} {required : NameSet} {arms : List Pattern}

/-- **After silence, each case is met in place**, where names are legible and the arms for
its leaf test for variants in split fields only.  Its leaf has an arm in any case. -/
theorem case_met_of_silent (hg : g.Legible) (ht : t.isPlain = true)
    (h : g.requiredNames cfg.maxDepth t = .ok required) (hne : required.isEmpty = false)
    (harms : ∀ p ∈ arms, ∀ u ∈ p.target?, g.declares u = true ∧ u.isPlain = true)
    (hparts : ∀ p ∈ arms, ∀ q ∈ p.parts?.getD [], ∀ u ∈ q.target?, u.isPlain = true)
    (hnone : (Switch.mk t arms false).check g cfg = .ok none) :
    ∃ cs, g.cases cfg.maxDepth t = .ok cs ∧ ∀ c ∈ cs, (∃ p ∈ arms, c.TestsLeaf p) ∧
      ((∀ p ∈ arms, c.TestsLeaf p → c.OnlySplit g p) → ∃ p ∈ arms, c.MetInPlace p) := by
  obtain ⟨hx, -, cs, hcs, -⟩ := Catalog.requiredNames_cases h hne
  refine ⟨cs, hcs, fun c hmem => ?_⟩
  have hc := (Catalog.mem_cases hcs).1 hmem
  obtain ⟨p, hp, u, hu, hname⟩ := exists_arm_of_silent h hne hnone hc
  obtain ⟨ls, hls, hleaf⟩ := hc.leaf
  obtain ⟨i, d, hi, hd⟩ := Catalog.decl_of_mem_leaves hls hx hleaf
  obtain ⟨hudecl, huplain⟩ := harms p hp u hu
  obtain ⟨j, e, hj, he⟩ := Catalog.declares_iff.1 hudecl
  obtain ⟨hleafplain, hchoiceplain⟩ := Catalog.isPlain_of_hasCase hg ht hc
  have hvariants : ∀ w ∈ p.partVariants g, w.isPlain = true ∧ g.isVariant w = true := by
    intro w hw
    obtain ⟨q, hq, hqw⟩ := List.mem_filterMap.1 hw
    obtain ⟨htarget, hvar⟩ := Pattern.variantTarget?_eq_some_iff.1 hqw
    exact ⟨hparts p hp q hq w htarget, hvar⟩
  obtain ⟨rfl, hids⟩ := Catalog.ids_eq_of_caseName_eq hg hleafplain huplain hi hj hd he
    (fun v hv => ⟨hchoiceplain v hv, Catalog.isVariant_of_mem_choice hc hv⟩) hvariants hname
  have htests : c.TestsLeaf p := by simp [Case.TestsLeaf, hu, hi, hj]
  exact ⟨⟨p, hp, htests⟩, fun honly => ⟨p, hp, .of_order hc htests hids.symm (honly p hp htests)⟩⟩

/-- A check that is silent although no arm meets some case in place.  Declarations have
names of their own without `<`, commas and blanks, and patterns test for declared types. -/
structure FalselySilent (g : Catalog) (t : Ty) (arms : List Pattern) : Prop where
  /-- No two declarations show the same name. -/
  distinct : (g.decls.toList.map fun d => dropArityMark d.name).Nodup
  /-- The shown names have none of the three characters. -/
  clear : ∀ d ∈ g.decls.toList,
    (dropArityMark d.name).toList.all (fun c => c != '<' && c != ',' && c != ' ') = true
  /-- There is something to cover. -/
  required : ∃ required, g.requiredNames 64 t = .ok required ∧ required.isEmpty = false
  /-- The arms test for declared types. -/
  declared : ∀ p ∈ arms, ∀ u ∈ p.target?, g.declares u = true
  /-- So do their sub-patterns. -/
  declaredParts : ∀ p ∈ arms, ∀ q ∈ p.parts?.getD [], ∀ u ∈ q.target?,
    g.declares u = true
  /-- Nothing is reported. -/
  silent : (Switch.mk t arms false).check g {} = .ok none
  /-- A case has no arm. -/
  unmet : ∃ cs, g.cases 64 t = .ok cs ∧ ∃ c ∈ cs, ∀ p ∈ arms, ¬ c.MetInPlace p

end Switch

namespace Sample

/-- A box holds a color, which is red or green, and any object. -/
def boxes : Catalog where
  decls := #[
    { name := "Object" },
    closed "Color" [],
    variant "Red" (.plain (.ofNat 1)) [],
    variant "Green" (.plain (.ofNat 1)) [],
    closed "Box" [],
    variant "Pack" (.plain (.ofNat 4)) [.plain (.ofNat 1), .plain (.ofNat 0)]]
  faultless := by decide

def box : Ty := .plain (.ofNat 4)

def pack : Ty := (Ty.plain (.ofNat 5)).within box

def color : Ty := .plain (.ofNat 1)

def red : Ty := (Ty.plain (.ofNat 2)).within color

def green : Ty := (Ty.plain (.ofNat 3)).within color

/-- The arms ask for a color where any object may be. -/
def boxArms : List Pattern :=
  [.deconstructed pack [.wildcard, .typed red], .deconstructed pack [.wildcard, .typed green]]

theorem falselySilent_boxArms : Switch.FalselySilent boxes box boxArms where
  distinct := by decide
  clear := by decide
  required := ⟨_, rfl, rfl⟩
  declared := by decide
  declaredParts := by decide
  silent := by rfl
  unmet := ⟨_, rfl, _, .head _, by decide⟩

/-- A set has a pen and a cap.  Some names end with the bracket that closes arguments. -/
def pens : Catalog where
  decls := #[
    { name := "Ink" },
    { name := "Ink>" },
    { name := "Lid" },
    closed "Pen" ["T"],
    variant "Ball" (.applied (.ofNat 3) [.param "T"]) [],
    variant "Felt" (.applied (.ofNat 3) [.param "T"]) [],
    closed "Cap" [],
    variant "Lid>" (.plain (.ofNat 6)) [],
    variant "Clip" (.plain (.ofNat 6)) [],
    closed "Kit" [],
    variant "Set" (.plain (.ofNat 9))
      [.applied (.ofNat 3) [.plain (.ofNat 0)], .plain (.ofNat 6)]]
  faultless := by decide

def kit : Ty := .plain (.ofNat 9)

def penSet : Ty := (Ty.plain (.ofNat 10)).within kit

/-- The pens with ink. -/
def pen (id : DeclId) : Ty := (Ty.plain id).within (.applied (.ofNat 3) [.plain (.ofNat 0)])

def cap (id : DeclId) : Ty := (Ty.plain id).within (.plain (.ofNat 6))

/-- The first arm has no cap.  It is for a pen with two arguments, `Ball<Ink>, Lid>`. -/
def penArms : List Pattern :=
  [.deconstructed penSet [.typed (.applied (.ofNat 4) [.plain (.ofNat 1), .plain (.ofNat 2)])],
    .deconstructed penSet [.typed (pen (.ofNat 4)), .typed (cap (.ofNat 8))],
    .deconstructed penSet [.typed (pen (.ofNat 5)), .typed (cap (.ofNat 7))],
    .deconstructed penSet [.typed (pen (.ofNat 5)), .typed (cap (.ofNat 8))]]

theorem falselySilent_penArms : Switch.FalselySilent pens kit penArms where
  distinct := by decide
  clear := by decide
  required := ⟨_, rfl, rfl⟩
  declared := by decide
  declaredParts := by decide
  silent := by rfl
  unmet := ⟨_, rfl, _, .head _, by decide⟩

/-- A crate of some content holds a dye of numbers, which is red or green. -/
def crates : Catalog where
  decls := #[
    { name := "Int" },
    closed "Dye" ["T"],
    variant "Red" (.applied (.ofNat 1) [.param "T"]) [],
    variant "Green" (.applied (.ofNat 1) [.param "T"]) [],
    closed "Crate" ["S"],
    variant "Full" (.applied (.ofNat 4) [.param "S"]) [.applied (.ofNat 1) [.plain (.ofNat 0)]]]
  faultless := by decide

def crate : Ty := .applied (.ofNat 4) [.plain (.ofNat 0)]

/-- The arms have no sub-patterns, and a type parameter spells out the rest of a case name. -/
def crateArms : List Pattern :=
  [.typed (.applied (.ofNat 5) [.param "Int> with Red<Int"]),
    .typed (.applied (.ofNat 5) [.param "Int> with Green<Int"])]

theorem falselySilent_crateArms : Switch.FalselySilent crates crate crateArms where
  distinct := by decide
  clear := by decide
  required := ⟨_, rfl, rfl⟩
  declared := by decide
  declaredParts := by decide
  silent := by rfl
  unmet := ⟨_, rfl, _, .head _, by decide⟩

theorem legible_catalog : catalog.Legible where
  distinct := by decide
  plain := by decide
  params := by decide

end Sample

namespace Switch

/-- **Silence can be false**: names that are not legible can pass for others, and so can a
variant in a field that is not split. -/
theorem falselySilent_samples :
    FalselySilent Sample.boxes Sample.box Sample.boxArms ∧
    FalselySilent Sample.pens Sample.kit Sample.penArms ∧
    FalselySilent Sample.crates Sample.crate Sample.crateArms :=
  ⟨Sample.falselySilent_boxArms, Sample.falselySilent_penArms, Sample.falselySilent_crateArms⟩

theorem case_met_of_silent_resultArms :
    Sample.catalog.Legible ∧ Sample.ids.resultHttpError.isPlain = true ∧
    (∃ required, Sample.catalog.requiredNames 64 Sample.ids.resultHttpError = .ok required ∧
      required.isEmpty = false) ∧
    (Switch.mk Sample.ids.resultHttpError Sample.resultArms false).check Sample.catalog {} =
      .ok none ∧
    (∀ c ∈ Sample.resultCases, ∀ p ∈ Sample.resultArms,
      c.TestsLeaf p → c.OnlySplit Sample.catalog p) ∧
    ∀ c ∈ Sample.resultCases, ∃ p ∈ Sample.resultArms, c.MetInPlace p := by
  have honly : ∀ c ∈ Sample.resultCases, ∀ p ∈ Sample.resultArms,
      c.TestsLeaf p → c.OnlySplit Sample.catalog p := by decide
  refine ⟨Sample.legible_catalog, by decide, Sample.required_resultHttpError,
    Sample.silent_resultArms, honly, fun c hc => ?_⟩
  obtain ⟨required, hreq, hne⟩ := Sample.required_resultHttpError
  obtain ⟨cs, hcs, hmet⟩ := @case_met_of_silent _ {} _ _ _ Sample.legible_catalog (by decide)
    hreq hne (by decide) (by decide) Sample.silent_resultArms
  obtain rfl : Sample.resultCases = cs :=
    Except.ok.inj (Sample.cases_resultHttpError.symm.trans hcs)
  exact (hmet c hc).2 (honly c hc)

end Switch

end SwitchCoverage
