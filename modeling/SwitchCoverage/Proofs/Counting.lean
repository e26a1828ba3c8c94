import Mathlib.Data.List.Nodup
import SwitchCoverage.Proofs.Combinations
import SwitchCoverage.Proofs.Suffix

/-!
# The number of required names

A set has no repetitions, so a switch has to cover as many names as there are cases only if no
two cases share a name.  The arguments in a name may hold anything, also the commas and blanks
that separate names from each other.  They do no harm, since they are the same in all cases that
have to be told apart: all leaves of a type show the arguments of the type, and all variants of a
field those of the type of the field.  What is left to read are the names of declarations, and
each of them ends where the first character stands that no clear name has.

## Main definitions

* `clearText`, `Breaks` — names without the characters that can follow a name, and texts that
  start with one of these.
* `Catalog.ToldApart` — types that are known by the names of their declarations.
* `Catalog.ShowAlike` — types that show the same arguments.

## Main statements

* `append_inj_of_breaks` — a clear name can be read off a text.
* `length_choices` — there are as many choices as the product of the numbers of entries.
* `Catalog.choice_eq_of_caseName_eq` — for one leaf, different choices have different names.
* `Catalog.disjoint_leafCases` — different leaves have no name in common.
* `Catalog.size_requiredNames` — **the number of required names**, leaf by leaf and field by
  field.
-/
namespace SwitchCoverage

/-! ## Reading a name -/

/-- A character that neither opens arguments nor separates names. -/
def isClear (c : Char) : Bool := c != '<' && c != ',' && c != ' '

/-- Whether all characters of a text are clear. -/
def clearText (s : String) : Bool := s.toList.all isClear

/-- A text that a clear one does not go on with: its first character, if it has one, is not
clear. -/
def Breaks (s : String) : Prop := ∀ c ∈ s.toList.head?, isClear c = false

/-- **A clear name can be read off a text**, if what follows it breaks it off. -/
theorem append_inj_of_breaks {a b r s : String} (ha : clearText a = true)
    (hb : clearText b = true) (hr : Breaks r) (hs : Breaks s) (h : a ++ r = b ++ s) :
    a = b ∧ r = s :=
  append_inj_of_stop (List.all_eq_true.1 ha) (List.all_eq_true.1 hb) hr hs h

theorem breaks_empty : Breaks "" := by simp [Breaks]

theorem breaks_append {s r : String} (hs : Breaks s) (hr : Breaks r) : Breaks (s ++ r) :=
  forall_head?_append hs hr

/-- What can follow the name of a declaration breaks it off. -/
theorem Follows.breaks {s : String} (hs : Follows s) : Breaks s := by
  intro c hc
  rcases hs c hc with rfl | rfl <;> rfl

/-! ## Counting choices -/

theorem length_choices {α : Type} (xss : List (List α)) :
    (choices xss).length = (xss.map List.length).prod := by
  induction xss with
  | nil => rfl
  | cons xs xss ih => simp [choices, List.length_flatMap, ih]

theorem nodup_choices {α : Type} {xss : List (List α)} (h : ∀ xs ∈ xss, xs.Nodup) :
    (choices xss).Nodup := by
  induction xss with
  | nil => simp [choices]
  | cons xs xss ih =>
    obtain ⟨hxs, hxss⟩ := List.forall_mem_cons.1 h
    rw [choices, List.nodup_flatMap]
    refine ⟨fun x _ => (ih hxss).map fun ys zs heq => (List.cons.inj heq).2, hxs.imp ?_⟩
    intro x y hne ys hx hy
    obtain ⟨_, -, rfl⟩ := List.mem_map.1 hx
    obtain ⟨_, -, heq⟩ := List.mem_map.1 hy
    exact hne (List.cons.inj heq).1.symm

/-- The set of names without repetition has as many members as there are names. -/
theorem NameSet.size_ofList {names : List String} (h : names.Nodup) :
    (ofList names).size = names.length := by
  have hnodup : (ofList names).toList.Nodup := by
    refine (ofList names).ascending.imp fun {m n} hlt heq => ?_
    subst heq
    exact String.lt_irrefl m hlt
  exact ((List.perm_ext_iff_of_nodup hnodup h).2 fun n => mem_ofList).length_eq

theorem eq_nil_iff_of_forall₂ {α β γ : Type} {R : α → γ → Prop} {S : β → γ → Prop} {xs : List α}
    {ys : List β} {zs : List γ} (h : List.Forall₂ R xs zs) (h' : List.Forall₂ S ys zs) :
    xs = [] ↔ ys = [] := by
  rw [← List.length_eq_zero_iff, ← List.length_eq_zero_iff, h.length_eq, h'.length_eq]

namespace Catalog

variable {g : Catalog} {limit : Nat} {t leaf leaf' : Ty}

/-! ## Types with names of their own -/

/-- The types of a list are known by the names of their declarations. -/
structure ToldApart (g : Catalog) (ts : List Ty) : Prop where
  /-- No two of them have the same name. -/
  distinct : (ts.map g.bareName).Nodup
  /-- The names are clear. -/
  clear : ∀ t ∈ ts, clearText (g.bareName t) = true

/-- All these types show the same arguments, if any. -/
def ShowAlike (g : Catalog) (ts : List Ty) : Prop :=
  ∃ s, Follows s ∧ ∀ t ∈ ts, g.display t = g.bareName t ++ s

theorem showAlike_leaves {id : DeclId} (hid : t.id? = some id) {ls : List Ty}
    (h : g.leaves limit t = .ok ls) : g.ShowAlike ls := by
  refine ⟨(g.label t).suffix, follows_suffix g t, fun v hv => ?_⟩
  obtain ⟨i, hi⟩ := id?_of_mem_leaves hid h v hv
  rw [display_of_id? hi, bareName_of_id? hi, suffix_of_mem_leaves h v hv]

theorem showAlike_of_mem_splitFields {fs : List SplitField}
    (h : g.splitFields limit t = .ok fs) {f : SplitField} (hf : f ∈ fs) :
    g.ShowAlike f.variants := by
  obtain ⟨⟨types, field, -, -, ⟨id, hid⟩, hleaves⟩, -, -⟩ :=
    (mem_splitFields_iff_isSplit h).1 hf
  exact showAlike_leaves hid hleaves

/-! ## Names of one leaf -/

/-- A listing of variants gives the variants away, field by field: the name of a declaration is
read first, and the arguments after it are known. -/
theorem choice_eq_of_listing_eq {fs : List SplitField}
    (hfs : ∀ f ∈ fs, g.ToldApart f.variants ∧ g.ShowAlike f.variants) {vs ws : List Ty}
    (hvs : List.Forall₂ (fun v f => v ∈ f.variants) vs fs)
    (hws : List.Forall₂ (fun w f => w ∈ f.variants) ws fs)
    (h : ", ".intercalate (vs.map g.display) = ", ".intercalate (ws.map g.display)) :
    vs = ws := by
  induction hvs generalizing ws with
  | nil => exact (List.forall₂_nil_right_iff.1 hws).symm
  | @cons v f vs fs hv hvs ih =>
    obtain ⟨w, ws, hw, hws', rfl⟩ := List.forall₂_cons_right_iff.1 hws
    obtain ⟨⟨hapart, s, hs, hdisplay⟩, hrest⟩ := List.forall_mem_cons.1 hfs
    -- Both variants show `s`, so nothing in it has to be read.
    have hread : ∀ {r r' : String}, Breaks r → Breaks r' →
        g.display v ++ r = g.display w ++ r' → v = w ∧ r = r' := by
      intro r r' hr hr' heq
      rw [hdisplay v hv, hdisplay w hw, String.append_assoc, String.append_assoc] at heq
      obtain ⟨hname, htail⟩ := append_inj_of_breaks (hapart.clear v hv) (hapart.clear w hw)
        (breaks_append hs.breaks hr) (breaks_append hs.breaks hr') heq
      exact ⟨List.inj_on_of_nodup_map hapart.distinct hv hw hname,
        (String.append_right_inj s).1 htail⟩
    have hempty : vs = [] ↔ ws = [] := eq_nil_iff_of_forall₂ hvs hws'
    by_cases hne : vs = []
    · have hlast : g.display v ++ "" = g.display w ++ "" := by
        simpa [hne, hempty.1 hne] using h
      rw [(hread breaks_empty breaks_empty hlast).1, hne, hempty.1 hne]
    · have hsep : ∀ r, Breaks (", " ++ r) := by
        intro r c hc
        obtain rfl : ',' = c := by simpa using hc
        rfl
      rw [List.map_cons, List.map_cons, String.intercalate_cons_of_ne_nil (by simpa using hne),
        String.intercalate_cons_of_ne_nil (by simpa using mt hempty.2 hne), String.append_assoc,
        String.append_assoc] at h
      obtain ⟨rfl, htail⟩ := hread (hsep _) (hsep _) h
      rw [ih hrest hws' ((String.append_right_inj _).1 htail)]

/-- **For one leaf, different choices have different names.** -/
theorem choice_eq_of_caseName_eq {fs : List SplitField}
    (hfs : ∀ f ∈ fs, g.ToldApart f.variants ∧ g.ShowAlike f.variants) {vs ws : List Ty}
    (hvs : List.Forall₂ (fun v f => v ∈ f.variants) vs fs)
    (hws : List.Forall₂ (fun w f => w ∈ f.variants) ws fs)
    (h : g.caseName leaf vs = g.caseName leaf ws) : vs = ws := by
  have hempty : vs = [] ↔ ws = [] := eq_nil_iff_of_forall₂ hvs hws
  by_cases hne : vs = []
  · rw [hne, hempty.1 hne]
  · rw [caseName_of_ne_nil hne, caseName_of_ne_nil (mt hempty.2 hne)] at h
    exact choice_eq_of_listing_eq hfs hvs hws ((String.append_right_inj _).1 h)

/-- No two choices of variants give one leaf the same name. -/
theorem nodup_leafCases {fs : List SplitField} (hfs : g.splitFields limit leaf = .ok fs)
    (hapart : ∀ f ∈ fs, g.ToldApart f.variants) :
    ((choices (fs.map (·.variants))).map (g.caseName leaf)).Nodup := by
  have hvariants : ∀ vs ∈ fs.map (·.variants), vs.Nodup := by
    intro vs hvs
    obtain ⟨f, hf, rfl⟩ := List.mem_map.1 hvs
    exact List.Nodup.of_map _ (hapart f hf).distinct
  refine List.Nodup.map_on (fun vs hvs ws hws heq => ?_) (nodup_choices hvariants)
  rw [mem_choices, List.forall₂_map_right_iff] at hvs hws
  exact choice_eq_of_caseName_eq
    (fun f hf => ⟨hapart f hf, showAlike_of_mem_splitFields hfs hf⟩) hvs hws heq

/-! ## Names of different leaves -/

/-- **Different leaves have no name in common**, since a case name starts with the name of the
leaf's declaration. -/
theorem disjoint_leafCases {i j : DeclId} (hi : leaf.id? = some i) (hj : leaf'.id? = some j)
    (hclear : clearText (g.bareName leaf) = true) (hclear' : clearText (g.bareName leaf') = true)
    (hne : g.bareName leaf ≠ g.bareName leaf') (vss wss : List (List Ty)) :
    (vss.map (g.caseName leaf)).Disjoint (wss.map (g.caseName leaf')) := by
  intro n hn hn'
  obtain ⟨vs, -, rfl⟩ := List.mem_map.1 hn
  obtain ⟨ws, -, hname⟩ := List.mem_map.1 hn'
  obtain ⟨r, hr, hvs⟩ := caseName_of_id? (g := g) hi vs
  obtain ⟨s, hs, hws⟩ := caseName_of_id? (g := g) hj ws
  rw [hvs, hws, ← bareName_of_id? hi, ← bareName_of_id? hj] at hname
  exact hne (append_inj_of_breaks hclear' hclear hs.breaks hr.breaks hname).1.symm

/-- Where the names are listed leaf by leaf, so are the split fields, and with them the number
of names. -/
theorem exists_splitFields_of_leafCases {ls : List Ty} {nss : List (List String)}
    (h : List.Forall₂ (fun leaf ns => g.leafCases limit leaf = .ok ns) ls nss) :
    ∃ fss, List.Forall₂ (fun leaf fs => g.splitFields limit leaf = .ok fs) ls fss ∧
      nss.map List.length = fss.map fun fs => (fs.map fun f => f.variants.length).prod := by
  induction h with
  | nil => exact ⟨[], .nil, rfl⟩
  | cons hleaf _ ih =>
    obtain ⟨fss, hfss, hlengths⟩ := ih
    obtain ⟨fs, hfs, rfl⟩ := leafCases_eq_ok_iff.1 hleaf
    refine ⟨fs :: fss, .cons hfs hfss, ?_⟩
    rw [List.map_cons, List.map_cons, hlengths, List.length_map, length_choices, List.map_map]
    rfl

/-- No name is listed twice. -/
theorem nodup_flatten_leafCases {ls : List Ty} {nss : List (List String)}
    (h : List.Forall₂ (fun leaf ns => g.leafCases limit leaf = .ok ns) ls nss)
    (hdeclared : ∀ leaf ∈ ls, ∃ id, leaf.id? = some id) (hleaves : g.ToldApart ls)
    (hfields : ∀ leaf ∈ ls, ∀ fs, g.splitFields limit leaf = .ok fs →
      ∀ f ∈ fs, g.ToldApart f.variants) : nss.flatten.Nodup := by
  rw [List.nodup_flatten]
  constructor
  -- Within one leaf the variants make the difference, between two leaves their own names.
  · intro ns hns
    obtain ⟨leaf, hleaf, hcases⟩ := exists_left_of_mem h hns
    obtain ⟨fs, hfs, rfl⟩ := leafCases_eq_ok_iff.1 hcases
    exact nodup_leafCases hfs (hfields leaf hleaf fs hfs)
  · refine pairwise_of_forall₂ h (List.pairwise_map.1 hleaves.distinct) ?_
    intro leaf hleaf leaf' hleaf' ns ns' hne hcases hcases'
    obtain ⟨i, hi⟩ := hdeclared leaf hleaf
    obtain ⟨j, hj⟩ := hdeclared leaf' hleaf'
    obtain ⟨fs, -, rfl⟩ := leafCases_eq_ok_iff.1 hcases
    obtain ⟨fs', -, rfl⟩ := leafCases_eq_ok_iff.1 hcases'
    exact disjoint_leafCases hi hj (hleaves.clear leaf hleaf) (hleaves.clear leaf' hleaf') hne _ _

/-- **The number of required names.**  Let a switch have to cover something, and let the leaves
be known by the names of their declarations, and so the variants of each split field of a leaf.
Then it has to cover, for each leaf, as many names as the product of the numbers of variants of
the split fields of the leaf. -/
theorem size_requiredNames {required : NameSet} (h : g.requiredNames limit t = .ok required)
    (hne : required.isEmpty = false)
    (hleaves : ∀ ls, g.leaves limit t = .ok ls → g.ToldApart ls)
    (hfields : ∀ ls, g.leaves limit t = .ok ls → ∀ leaf ∈ ls, ∀ fs,
      g.splitFields limit leaf = .ok fs → ∀ f ∈ fs, g.ToldApart f.variants) :
    ∃ ls fss, g.leaves limit t = .ok ls ∧
      List.Forall₂ (fun leaf fs => g.splitFields limit leaf = .ok fs) ls fss ∧
      required.size = (fss.map fun fs => (fs.map fun f => f.variants.length).prod).sum := by
  rcases requiredNames_eq_ok_iff.1 h with ⟨-, rfl⟩ | ⟨hx, ls, hls, ⟨-, rfl⟩ | ⟨-, nss, hnss, rfl⟩⟩
  · cases hne
  · cases hne
  · obtain ⟨id, -, hid, -⟩ := decl_of_isExpandable hx
    obtain ⟨fss, hfss, hlengths⟩ := exists_splitFields_of_leafCases hnss
    have hnodup : nss.flatten.Nodup := nodup_flatten_leafCases hnss (id?_of_mem_leaves hid hls)
      (hleaves ls hls) (hfields ls hls)
    refine ⟨ls, fss, hls, hfss, ?_⟩
    rw [NameSet.size_ofList hnodup, List.length_flatten, hlengths]

end Catalog

/-- One name for the blank panel, and two times two for the filled one. -/
theorem Catalog.size_requiredNames_intPanel :
    ∃ required, Sample.panels.requiredNames 64 Sample.intPanel = .ok required ∧
      required.isEmpty = false ∧ required.size = 5 := by
  obtain ⟨required, hrequired, hne⟩ := Sample.required_intPanel
  have hleaves : ∀ ls, Sample.panels.leaves 64 Sample.intPanel = .ok ls →
      Sample.panels.ToldApart ls := by
    intro ls hls
    obtain rfl := Except.ok.inj (Sample.leaves_intPanel.symm.trans hls)
    exact ⟨by decide, by decide⟩
  have hfields : ∀ ls, Sample.panels.leaves 64 Sample.intPanel = .ok ls → ∀ leaf ∈ ls, ∀ fs,
      Sample.panels.splitFields 64 leaf = .ok fs →
        ∀ f ∈ fs, Sample.panels.ToldApart f.variants := by
    intro ls hls leaf hleaf fs hfs f hf
    obtain rfl := Except.ok.inj (Sample.leaves_intPanel.symm.trans hls)
    rcases List.mem_pair.1 hleaf with rfl | rfl
    · cases hfs
      cases hf
    · obtain rfl := Except.ok.inj (Sample.splitFields_filled.symm.trans hfs)
      rcases List.mem_pair.1 hf with rfl | rfl
      · exact ⟨by decide, by decide⟩
      · exact ⟨by decide, by decide⟩
  obtain ⟨ls, fss, hls, hfss, hsize⟩ := size_requiredNames hrequired hne hleaves hfields
  refine ⟨required, hrequired, hne, hsize.trans ?_⟩
  obtain rfl := Except.ok.inj (Sample.leaves_intPanel.symm.trans hls)
  cases hfss with
  | cons hblank hrest =>
    cases hrest with
    | cons hfilled hnil =>
      cases hnil
      cases hblank
      cases hfilled
      rfl

end SwitchCoverage
