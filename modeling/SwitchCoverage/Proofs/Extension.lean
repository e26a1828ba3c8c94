import SwitchCoverage.Proofs.Closure
import SwitchCoverage.Proofs.Renaming
import SwitchCoverage.Sample

/-!
# Further declarations

Declarations can be added to a catalog after those that it has.  The old ones do not refer
to them, since they made a catalog before.  So the analysis gets from an old declaration to
a new one in one way only: the new one is a variant of the old.  If there is no such
variant, whatever was said before about types and switches is said again, failures included.

## Main definitions

* `Draft.addAll` — the addition of several declarations.
* `Catalog.Extends` — a catalog with further declarations, none a variant of an old one.
* `Catalog.AgreeWithin` — two catalogs that say the same about some of their declarations.

## Main statements

* `Catalog.Extends.leaves_eq`, `Catalog.Extends.splitFields_eq`,
  `Catalog.Extends.requiredNames_eq` — the expansion of a type stays, in its order.
* `Catalog.agreeWithin_addAll` — **unrelated declarations change nothing.**
-/
namespace SwitchCoverage

/-! ## The addition of declarations -/

namespace Draft

variable {g : Draft} {extra : List Decl}

/-- The draft with further declarations, in order. -/
def addAll (extra : List Decl) (g : Draft) : Draft := extra.foldl (fun g d => g.add d) g

/-- A position that holds a declaration. -/
def Fills (g : Draft) (id : DeclId) : Prop := id.toNat < g.size

instance (g : Draft) : DecidablePred g.Fills :=
  fun id => inferInstanceAs (Decidable (id.toNat < g.size))

theorem decls_addAll : (g.addAll extra).decls = g.decls ++ extra.toArray := by
  induction extra generalizing g with
  | nil => simp [addAll]
  | cons d extra ih =>
    have hstep : (g.addAll (d :: extra)).decls = ((g.add d).addAll extra).decls := rfl
    rw [hstep, ih, add]
    simp

theorem decl?_addAll {id : DeclId} (h : g.Fills id) : (g.addAll extra).decl? id = g.decl? id := by
  rw [decl?, decl?, decls_addAll, Array.getElem?_append_left h]

/-- The new declarations come after the old ones. -/
theorem entries_addAll : (g.addAll extra).entries =
    g.entries ++ (extra.zipIdx g.size).map fun e => (.ofNat e.2, e.1) := by
  rw [entries, decls_addAll, Array.toList_append, List.zipIdx_append, List.map_append]
  simp [entries, size]

end Draft

/-! ## Catalogs with further declarations -/

namespace Catalog

/-- `h` has the declarations of `g` at their positions, and gives them no further variant. -/
structure Extends (g h : Catalog) : Prop where
  /-- A filled position holds the same declaration. -/
  decl? : ∀ id, g.Fills id → h.decl? id = g.decl? id
  /-- A declaration has the same variants, in the same order. -/
  variantEntries : ∀ p, g.Fills p → h.variantEntries p = g.variantEntries p

/-- Two catalogs say the same about declarations within a scope, failures included. -/
structure AgreeWithin (g h : Catalog) (scope : DeclId → Prop) : Prop where
  /-- Types have the same names. -/
  display : ∀ t : Ty, t.MentionsOnly scope → h.display t = g.display t
  /-- Types have the same fields. -/
  fieldTypes : ∀ t : Ty, t.MentionsOnly scope → h.fieldTypes t = g.fieldTypes t
  /-- Types have the same leaves, in the same order. -/
  leaves : ∀ limit, ∀ t : Ty, t.MentionsOnly scope → h.leaves limit t = g.leaves limit t
  /-- Types have the same split fields, with the same variants in the same order. -/
  splitFields : ∀ limit, ∀ t : Ty, t.MentionsOnly scope →
    h.splitFields limit t = g.splitFields limit t
  /-- The same names have to be covered. -/
  requiredNames : ∀ limit, ∀ t : Ty, t.MentionsOnly scope →
    h.requiredNames limit t = g.requiredNames limit t
  /-- Patterns cover the same names. -/
  caseName? : ∀ p : Pattern, p.MentionsOnly scope → p.caseName? h = p.caseName? g
  /-- Switches get the same answers. -/
  check : ∀ cfg, ∀ s : Switch, s.MentionsOnly scope → s.check h cfg = s.check g cfg

namespace Extends

variable {g h : Catalog} {limit : Nat} {t : Ty}

/-- Declarations stay where they are, which is a way to be carried over. -/
theorem embeds (H : g.Extends h) : g.Embeds h id g.Fills where
  injective := Function.injective_id
  filled _ _ := Draft.lt_of_decl?
  fixed _ _ := rfl
  decl? i hi := by
    rw [id, H.decl? i hi]
    cases g.decl? i <;> simp
  variant p i d hp hd hvar := by
    have hmem : (i, d) ∈ g.variantEntries p := by
      rw [← H.variantEntries p hp]
      exact mem_variantEntries.2 ⟨hd, hvar⟩
    exact ⟨i, d, (mem_variantEntries.1 hmem).1, rfl⟩

theorem display_eq (H : g.Extends h) (ht : t.MentionsOnly g.Fills) :
    h.display t = g.display t := by
  simpa using H.embeds.display_eq ht

theorem isUnbound_eq (H : g.Extends h) (ht : t.MentionsOnly g.Fills) :
    h.isUnbound t = g.isUnbound t := by
  simpa using H.embeds.isUnbound_eq ht

theorem isExpandable_eq (H : g.Extends h) (ht : t.MentionsOnly g.Fills) :
    h.isExpandable t = g.isExpandable t := by
  simpa using H.embeds.isExpandable_eq ht

theorem fieldTypes_eq (H : g.Extends h) (ht : t.MentionsOnly g.Fills) :
    h.fieldTypes t = g.fieldTypes t := by
  have hfields := H.embeds.fieldTypes_eq ht
  rw [Ty.rename_id] at hfields
  rw [hfields]
  cases g.fieldTypes t with
  | error fault => rfl
  | ok types => simp [Except.map, List.map_congr_left fun t _ => Ty.rename_id t]

theorem caseName_eq (H : g.Extends h) (ht : t.MentionsOnly g.Fills) {vs : List Ty}
    (hvs : ∀ v ∈ vs, v.MentionsOnly g.Fills) : h.caseName t vs = g.caseName t vs := by
  have hname := H.embeds.caseName_eq ht hvs
  rwa [Ty.rename_id, List.map_congr_left fun t _ => Ty.rename_id t, List.map_id'] at hname

theorem anyUnbound_eq (H : g.Extends h) {ts : List Ty} (hts : ∀ t ∈ ts, t.MentionsOnly g.Fills) :
    h.anyUnbound ts = g.anyUnbound ts := by
  rw [anyUnbound, anyUnbound, Bool.eq_iff_iff, List.any_eq_true, List.any_eq_true]
  exact exists_congr fun t => and_congr_right fun hmem => by rw [H.isUnbound_eq (hts t hmem)]

/-! ### The expansion -/

theorem children_eq (H : g.Extends h) (ht : t.MentionsOnly g.Fills) :
    h.children t = g.children t := by
  cases t with
  | named id args container =>
    obtain ⟨hid, -, -⟩ := (Ty.hereditary_mentionsOnly g.Fills).named.1 ht
    simp only [children, Ty.id?_named, H.variantEntries id hid]
  | param name => rfl
  | array element => rfl
  | unresolved => rfl

/-- The expansion of a type stays.  It goes from old declarations to old declarations, so it
is the same walk, and where it is cut off it is cut off at the same type. -/
theorem leaves_eq (H : g.Extends h) (ht : t.MentionsOnly g.Fills) :
    h.leaves limit t = g.leaves limit t := by
  have walk : ∀ n t, t.MentionsOnly g.Fills →
      h.leavesWithin limit n t = g.leavesWithin limit n t := by
    intro n
    induction n with
    | zero =>
      intro t ht
      rw [leavesWithin, leavesWithin, H.isExpandable_eq ht, H.display_eq ht]
    | succ n ih =>
      intro t ht
      have hsteps : (g.children t).mapM (h.leavesWithin limit n) =
          (g.children t).mapM (g.leavesWithin limit n) := by
        refine mapM_congr fun c hc => ih c ?_
        exact (Ty.hereditary_mentionsOnly g.Fills).of_mem_children
          (fun _ _ => Draft.lt_of_decl?) ht hc
      rw [leavesWithin, leavesWithin, H.isExpandable_eq ht, H.children_eq ht, hsteps]
  exact walk limit t ht

theorem mentionsOnly_leaves (ht : t.MentionsOnly g.Fills) {ls : List Ty}
    (h : g.leaves limit t = .ok ls) : ∀ v ∈ ls, v.MentionsOnly g.Fills :=
  (Ty.hereditary_mentionsOnly g.Fills).of_mem_leaves (fun _ _ => Draft.lt_of_decl?) ht h

/-- The split fields of a type stay. -/
theorem splitFields_eq (H : g.Extends h) (ht : t.MentionsOnly g.Fills) :
    h.splitFields limit t = g.splitFields limit t := by
  rw [splitFields, splitFields, H.fieldTypes_eq ht]
  refine bind_congr_ok fun types htypes => ?_
  have hscope : ∀ f ∈ types, f.MentionsOnly g.Fills :=
    (Ty.hereditary_mentionsOnly g.Fills).of_mem_fieldTypes H.embeds.mentionsOnly_params ht
      (mapError_eq_ok_iff.1 htypes)
  rw [mapM_congr fun f hf => H.leaves_eq (hscope f hf)]
  refine bind_congr_ok fun vss hvss => ?_
  have hsplits : ∀ vs ∈ vss, h.splits vs = g.splits vs := by
    intro vs hvs
    obtain ⟨f, hf, hls⟩ := exists_left_of_mem (mapM_eq_ok_iff.1 hvss) hvs
    rw [splits, splits, H.anyUnbound_eq (mentionsOnly_leaves (hscope f hf) hls)]
  rw [List.filter_congr fun e he => hsplits e.1 (List.fst_mem_of_mem_zipIdx he)]

theorem leafCases_eq (H : g.Extends h) (ht : t.MentionsOnly g.Fills) :
    h.leafCases limit t = g.leafCases limit t := by
  rw [leafCases, leafCases, H.splitFields_eq ht]
  refine map_congr_ok fun fields hfields => ?_
  have hscope : ∀ f ∈ fields, ∀ v ∈ f.variants, v.MentionsOnly g.Fills :=
    (Ty.hereditary_mentionsOnly g.Fills).of_mem_splitFields (fun _ _ => Draft.lt_of_decl?)
      H.embeds.mentionsOnly_params ht hfields
  refine List.map_congr_left fun vs hvs => H.caseName_eq ht fun v hv => ?_
  obtain ⟨ws, hws, hvw⟩ := exists_right_of_mem (mem_choices.1 hvs) hv
  obtain ⟨f, hf, rfl⟩ := List.mem_map.1 hws
  exact hscope f hf v hvw

/-- The names that a switch has to cover stay. -/
theorem requiredNames_eq (H : g.Extends h) (ht : t.MentionsOnly g.Fills) :
    h.requiredNames limit t = g.requiredNames limit t := by
  rw [requiredNames, requiredNames, H.isExpandable_eq ht, H.leaves_eq ht]
  split
  · refine bind_congr_ok fun ls hls => ?_
    have hscope := mentionsOnly_leaves ht hls
    rw [H.anyUnbound_eq hscope, mapM_congr fun leaf hleaf => H.leafCases_eq (hscope leaf hleaf)]
  · rfl

theorem agreeWithin (H : g.Extends h) : g.AgreeWithin h g.Fills where
  display _ := H.display_eq
  fieldTypes _ := H.fieldTypes_eq
  leaves _ _ := H.leaves_eq
  splitFields _ _ := H.splitFields_eq
  requiredNames _ _ := H.requiredNames_eq
  caseName? p hp := by simpa using H.embeds.caseName?_eq hp
  check cfg s hs := by
    have hjudge : s.judge h cfg = s.judge g cfg :=
      funext fun required => by simpa using H.embeds.judge_eq hs cfg required
    rw [Switch.check, Switch.check, H.requiredNames_eq hs.scrutinee, hjudge]

end Extends

/-! ## Unrelated declarations -/

variable {g h : Catalog} {extra : List Decl}

/-- Further declarations of which none is a variant of an old one extend a catalog. -/
theorem extends_addAll (hh : h.toDraft = g.addAll extra)
    (hextra : ∀ d ∈ extra, ∀ c, g.Fills c → d.container = some c → d.base? ≠ some c) :
    g.Extends h where
  decl? id hid := by
    rw [hh]
    exact Draft.decl?_addAll hid
  variantEntries p hp := by
    have hnone : ∀ d ∈ extra, d.isVariantOf p = false := by
      intro d hd
      simpa [Decl.isVariantOf] using hextra d hd p hp
    have hfilter : (((extra.zipIdx g.size).map fun e => (DeclId.ofNat e.2, e.1)).filter
        fun e => e.2.isVariantOf p) = [] := by
      rw [List.filter_eq_nil_iff]
      intro e he
      obtain ⟨⟨d, i⟩, hmem, rfl⟩ := List.mem_map.1 he
      simp [hnone d (List.fst_mem_of_mem_zipIdx hmem)]
    rw [Catalog.variantEntries, Catalog.variantEntries, hh, Draft.entries_addAll,
      List.filter_append, hfilter, List.append_nil]

/-- The first declaration of a name stays the first. -/
theorem find?_addAll (hh : h.toDraft = g.addAll extra) {d : Decl} (hd : d ∈ g.decls.toList) :
    h.find? d.name = g.find? d.name := by
  obtain ⟨id, hid⟩ := exists_decl?_of_mem hd
  have hfound : ∃ e, g.entries.find? (fun e => e.2.name == d.name) = some e := by
    rw [← Option.isSome_iff_exists, List.find?_isSome]
    exact ⟨(id, d), mem_entries.2 hid, by simp⟩
  obtain ⟨e, he⟩ := hfound
  rw [find?, find?, hh, Draft.entries_addAll, List.find?_append, he]
  rfl

/-- **Unrelated declarations change nothing.**  Let declarations make a catalog, also with
further ones after them, none of which is a variant of an old one: nested in it and derived
from it.  Then the two catalogs say the same about all types, patterns and switches that
refer to old declarations only, and find the names of these at the same positions. -/
theorem agreeWithin_addAll {defs : Draft} (hg : defs.finish = .ok g)
    (hh : (defs.addAll extra).finish = .ok h)
    (hextra : ∀ d ∈ extra, ∀ c, defs.Fills c → d.container = some c → d.base? ≠ some c) :
    g.AgreeWithin h defs.Fills ∧ ∀ d ∈ defs.decls, h.find? d.name = g.find? d.name := by
  obtain rfl := Draft.finish_eq_ok_iff.1 hg
  have hext := Draft.finish_eq_ok_iff.1 hh
  refine ⟨(extends_addAll hext hextra).agreeWithin, fun d hd => ?_⟩
  exact find?_addAll hext (Array.mem_toList_iff.2 hd)

end Catalog

namespace Sample

/-- Declarations that come close to a variant of a result: one is nested in it and takes
the name of a variant, one derives from it, and one is nested in it and derives from another
type. -/
def strays : List Decl :=
  [{ name := "Ok", container := some ids.result },
    { name := "Pending", supertype := some ids.resultIntString },
    { name := "Refused", container := some ids.result, supertype := some ids.httpErrorString }]

/-- The sample and the strays after it. -/
def catalogWithStrays : Catalog := ⟨catalog.addAll strays, by decide⟩

end Sample

theorem Catalog.agreeWithin_addAll_strays :
    Sample.catalog.toDraft.finish = .ok Sample.catalog ∧
    (Sample.catalog.addAll Sample.strays).finish = .ok Sample.catalogWithStrays ∧
    (∀ d ∈ Sample.strays, ∀ c, Sample.catalog.Fills c → d.container = some c →
      d.base? ≠ some c) ∧
    (Switch.mk Sample.ids.resultHttpError Sample.resultArms false).check
      Sample.catalogWithStrays {} = .ok none ∧
    Sample.catalogWithStrays.find? "Ok" = some Sample.ids.ok := by
  have hg : Sample.catalog.toDraft.finish = .ok Sample.catalog := Draft.finish_eq_ok_iff.2 rfl
  have hh : (Sample.catalog.addAll Sample.strays).finish = .ok Sample.catalogWithStrays :=
    Draft.finish_eq_ok_iff.2 rfl
  have hstrays : ∀ d ∈ Sample.strays, ∀ c, Sample.catalog.Fills c → d.container = some c →
      d.base? ≠ some c := by
    have hbase : ∀ d ∈ Sample.strays, d.container ≠ none → d.base? ≠ d.container := by decide
    intro d hd c _ hc
    rw [← hc]
    exact hbase d hd (by simp [hc])
  obtain ⟨hagree, hfind⟩ := agreeWithin_addAll hg hh hstrays
  refine ⟨hg, hh, hstrays, ?_, ?_⟩
  · rw [hagree.check {} _ (by decide)]
    exact Sample.silent_resultArms
  · obtain ⟨d, hd, hname⟩ : ∃ d ∈ Sample.catalog.decls, d.name = "Ok" := by decide
    rw [← hname, hfind d hd, hname]
    decide

end SwitchCoverage
