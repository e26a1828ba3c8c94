import Mathlib.Data.List.Nodup
import SwitchCoverage.Proofs.Decision
import SwitchCoverage.Proofs.Heredity

/-!
# Renaming of declarations

A position in a catalog means nothing by itself.  If declarations are carried over to
other positions of another catalog, and whatever refers to them is renamed accordingly,
then the two catalogs say the same: types have the same names, the same types are closed,
fields and variants correspond.  The one condition is that no carried declaration gets a
variant that it did not have.

Two changes of a catalog are of this kind.  Its declarations can be put in another order,
and others can be added to it.  What is shown here serves both.

## Main definitions

* `Ty.rename`, `Decl.rename`, `Pattern.rename`, `Switch.rename` — data with other positions.
* `Ty.MentionsOnly` — a type that refers to certain declarations only.
* `Catalog.Embeds` — the declarations of a catalog, carried over to another.

## Main statements

* `Catalog.Embeds.display_eq`, `Catalog.Embeds.bareName_eq` — names stay.
* `Catalog.Embeds.isExpandable_eq`, `Catalog.Embeds.isVariant_eq` — the place of a type in
  its hierarchy stays.
* `Catalog.Embeds.fieldTypes_eq` — the fields are renamed.
* `Catalog.Embeds.caseName?_eq` — the case that a pattern covers keeps its name.
-/
namespace SwitchCoverage

/-! ## Types -/

namespace Ty

mutual

/-- A type with every position in it renamed. -/
def rename (f : DeclId → DeclId) : Ty → Ty
  | .named id args none => .named (f id) (renameAll f args) none
  | .named id args (some outer) => .named (f id) (renameAll f args) (some (outer.rename f))
  | .param name => .param name
  | .array element => .array (element.rename f)
  | .unresolved => .unresolved
termination_by structural t => t

/-- The types of a list with every position renamed. -/
def renameAll (f : DeclId → DeclId) : List Ty → List Ty
  | [] => []
  | t :: ts => t.rename f :: renameAll f ts
termination_by structural ts => ts

end

theorem renameAll_eq_map (f : DeclId → DeclId) (ts : List Ty) :
    renameAll f ts = ts.map (rename f) := by
  induction ts with
  | nil => rfl
  | cons t ts ih => simp [renameAll, ih]

@[simp] theorem rename_named (f : DeclId → DeclId) (id : DeclId) (args : List Ty)
    (container : Option Ty) : (named id args container).rename f =
      .named (f id) (args.map (rename f)) (container.map (rename f)) := by
  cases container <;> simp [rename, renameAll_eq_map]

@[simp] theorem id?_rename (f : DeclId → DeclId) (t : Ty) : (t.rename f).id? = t.id?.map f := by
  cases t <;> simp [id?, rename]

@[simp] theorem args_rename (f : DeclId → DeclId) (t : Ty) :
    (t.rename f).args = t.args.map (rename f) := by
  cases t <;> simp [args, rename]

@[simp] theorem rename_id (t : Ty) : t.rename id = t := by
  induction t using inductionOn with
  | named i args container hargs hcontainer =>
    have ha : args.map (rename id) = args := by
      rw [List.map_congr_left hargs, List.map_id']
    have hc : container.map (rename id) = container := by
      rw [Option.map_congr hcontainer, Option.map_id']
    rw [rename_named, ha, hc]
    rfl
  | param name => rfl
  | array element ih => rw [rename, ih]
  | unresolved => rfl

theorem mentions_rename (f : DeclId → DeclId) (t : Ty) :
    (t.rename f).mentions = t.mentions.map f := by
  induction t using inductionOn with
  | named id args container hargs hcontainer =>
    have ha : (args.map (rename f)).flatMap mentions = (args.flatMap mentions).map f := by
      rw [List.flatMap_map, List.map_flatMap]
      exact List.flatMap_congr hargs
    have hc : (container.map (rename f)).toList.flatMap mentions =
        (container.toList.flatMap mentions).map f := by
      cases container with
      | none => rfl
      | some outer => simpa using hcontainer outer rfl
    rw [rename_named, mentions_named, mentions_named, ha, hc, List.map_cons, List.map_append]
  | param name => rfl
  | array element ih => exact ih
  | unresolved => rfl

theorem mentionsAll_rename (f : DeclId → DeclId) (ts : List Ty) :
    mentionsAll (ts.map (rename f)) = (mentionsAll ts).map f := by
  simp only [mentionsAll_eq_flatMap, List.flatMap_map, mentions_rename, List.map_flatMap]

end Ty

/-- What type parameters stand for, with every position renamed. -/
def Bindings.rename (f : DeclId → DeclId) (bound : Bindings) : Bindings :=
  bound.map fun e => (e.1, e.2.rename f)

/-- Changing what parameters stand for does not change which binding of a name counts. -/
theorem Bindings.lookup_map (f : Ty → Ty) (bound : Bindings) (name : String) :
    (bound.map fun e => (e.1, f e.2)).lookup name = (bound.lookup name).map f := by
  induction bound with
  | nil => rfl
  | cons e bound ih =>
    obtain ⟨boundName, t⟩ := e
    simp only [List.map_cons, List.lookup_cons] at ih ⊢
    cases name == boundName <;> simp [ih]

theorem Bindings.lookup_rename (f : DeclId → DeclId) (bound : Bindings) (name : String) :
    (bound.rename f).lookup name = (bound.lookup name).map (Ty.rename f) :=
  lookup_map (Ty.rename f) bound name

namespace Ty

/-- Renaming and substitution do not get in each other's way. -/
theorem rename_subst (f : DeclId → DeclId) (bound : Bindings) (t : Ty) :
    (t.subst bound).rename f = (t.rename f).subst (bound.rename f) := by
  induction t using inductionOn with
  | named id args container hargs hcontainer =>
    simp only [subst_named, rename_named, List.map_map, Option.map_map]
    congr 1
    · exact List.map_congr_left hargs
    · exact Option.map_congr hcontainer
  | param name =>
    rw [rename, subst, subst, Bindings.lookup_rename]
    cases bound.lookup name <;> rfl
  | array element ih => simp [subst, rename, ih]
  | unresolved => rfl

/-- A type refers to declarations within a scope only, at every depth. -/
def MentionsOnly (scope : DeclId → Prop) (t : Ty) : Prop := ∀ id ∈ t.mentions, scope id

instance (scope : DeclId → Prop) [DecidablePred scope] : DecidablePred (MentionsOnly scope) :=
  fun t => inferInstanceAs (Decidable (∀ id ∈ t.mentions, scope id))

theorem hereditary_mentionsOnly (scope : DeclId → Prop) :
    Hereditary scope (MentionsOnly scope) where
  named {id args container} := by
    simp only [MentionsOnly, mentions_named, List.forall_mem_cons, List.forall_mem_append,
      List.forall_mem_flatMap, Option.mem_toList, Option.mem_def]
  array := .rfl

end Ty

/-! ## Declarations -/

/-- A constructor with every position in it renamed. -/
def Constructor.rename (f : DeclId → DeclId) (c : Constructor) : Constructor :=
  { c with params := c.params.map (Ty.rename f) }

namespace Decl

/-- A declaration with every position in it renamed. -/
def rename (f : DeclId → DeclId) (d : Decl) : Decl :=
  { d with
    constructors := d.constructors.map (Constructor.rename f)
    supertype := d.supertype.map (Ty.rename f)
    container := d.container.map f }

variable {f : DeclId → DeclId}

@[simp] theorem rename_id (d : Decl) : d.rename id = d := by
  have hty : Ty.rename id = id := funext Ty.rename_id
  have hconstructor : Constructor.rename id = id := by
    funext c
    simp [Constructor.rename, hty]
  simp [rename, hty, hconstructor]

@[simp] theorem arity_rename (f : DeclId → DeclId) (d : Decl) : (d.rename f).arity = d.arity :=
  rfl

@[simp] theorem isConstructible_rename (f : DeclId → DeclId) (d : Decl) :
    (d.rename f).isConstructible = d.isConstructible := by
  simp only [isConstructible, rename, List.any_map]
  rfl

@[simp] theorem base?_rename (f : DeclId → DeclId) (d : Decl) :
    (d.rename f).base? = d.base?.map f := by
  cases hsuper : d.supertype <;> simp [base?, rename, hsuper]

theorem mentions_rename (f : DeclId → DeclId) (d : Decl) :
    (d.rename f).mentions = d.mentions.map f := by
  have hcontainer : (d.container.map f).toList = d.container.toList.map f := by
    cases d.container <;> rfl
  have hsuper : (d.supertype.map (Ty.rename f)).toList = d.supertype.toList.map (Ty.rename f) := by
    cases d.supertype <;> rfl
  simp only [mentions, rename, Constructor.rename, hcontainer, hsuper, List.flatMap_map,
    Ty.mentionsAll_rename, List.map_append, List.map_flatMap]

/-- A renaming that keeps positions apart keeps variants. -/
theorem isVariantOf_rename (hf : Function.Injective f) (d : Decl) (p : DeclId) :
    (d.rename f).isVariantOf (f p) = d.isVariantOf p := by
  have hsome : ∀ x : Option DeclId, (x.map f == some (f p)) = (x == some p) := by
    intro x
    rw [Bool.eq_iff_iff]
    cases x <;> simp [hf.eq_iff]
  rw [isVariantOf, isVariantOf, base?_rename, hsome]
  exact congrArg (· && _) (hsome d.container)

theorem longest?_rename (f : DeclId → DeclId) (d : Decl) :
    (d.rename f).longest? = d.longest?.map (Constructor.rename f) := by
  have hlongest : ∀ cs : List Constructor, longestOf? (cs.map (Constructor.rename f)) =
      (longestOf? cs).map (Constructor.rename f) := by
    intro cs
    induction cs with
    | nil => rfl
    | cons c cs ih =>
      rw [List.map_cons, longestOf?, longestOf?, ih]
      cases longestOf? cs with
      | none => rfl
      | some rival =>
        simp only [Option.map_some, Constructor.rename, List.length_map]
        split <;> rfl
  exact hlongest d.constructors

theorem instantiate_rename (f : DeclId → DeclId) (d : Decl) (id : DeclId) (t : Ty) :
    (d.rename f).instantiate (f id) (t.rename f) = (d.instantiate id t).rename f := by
  simp only [instantiate, arity_rename, Ty.args_rename, List.length_map, Ty.rename_named,
    Option.map_some]
  split <;> rfl

end Decl

/-! ## Patterns and switches -/

namespace Pattern

mutual

/-- A pattern with every position in it renamed. -/
def rename (f : DeclId → DeclId) : Pattern → Pattern
  | .wildcard => .wildcard
  | .positional parts => .positional (renameAll f parts)
  | .typed t => .typed (t.rename f)
  | .deconstructed t parts => .deconstructed (t.rename f) (renameAll f parts)
termination_by structural p => p

/-- The patterns of a list with every position renamed. -/
def renameAll (f : DeclId → DeclId) : List Pattern → List Pattern
  | [] => []
  | p :: ps => p.rename f :: renameAll f ps
termination_by structural ps => ps

end

theorem renameAll_eq_map (f : DeclId → DeclId) (ps : List Pattern) :
    renameAll f ps = ps.map (rename f) := by
  induction ps with
  | nil => rfl
  | cons p ps ih => simp [renameAll, ih]

mutual

@[simp] theorem rename_id (p : Pattern) : p.rename id = p := by
  cases p with
  | wildcard => rfl
  | positional parts => rw [rename, renameAll_id parts]
  | typed t => rw [rename, Ty.rename_id]
  | deconstructed t parts => rw [rename, Ty.rename_id, renameAll_id parts]
termination_by structural p

theorem renameAll_id (ps : List Pattern) : renameAll id ps = ps := by
  cases ps with
  | nil => rfl
  | cons p ps => rw [renameAll, rename_id p, renameAll_id ps]
termination_by structural ps

end

@[simp] theorem target?_rename (f : DeclId → DeclId) (p : Pattern) :
    (p.rename f).target? = p.target?.map (Ty.rename f) := by
  cases p <;> rfl

@[simp] theorem parts?_rename (f : DeclId → DeclId) (p : Pattern) :
    (p.rename f).parts? = p.parts?.map (List.map (rename f)) := by
  cases p <;> simp [rename, parts?, renameAll_eq_map]

mutual

/-- The declarations that a pattern refers to, at every depth. -/
def mentions : Pattern → List DeclId
  | .wildcard => []
  | .positional parts => mentionsAll parts
  | .typed t => t.mentions
  | .deconstructed t parts => t.mentions ++ mentionsAll parts
termination_by structural p => p

/-- The declarations that the patterns of a list refer to. -/
def mentionsAll : List Pattern → List DeclId
  | [] => []
  | p :: ps => p.mentions ++ mentionsAll ps
termination_by structural ps => ps

end

theorem mentionsAll_eq_flatMap (ps : List Pattern) : mentionsAll ps = ps.flatMap mentions := by
  induction ps with
  | nil => rfl
  | cons p ps ih => simp [mentionsAll, ih]

/-- A pattern refers to declarations within a scope only, at every depth. -/
def MentionsOnly (scope : DeclId → Prop) (p : Pattern) : Prop := ∀ id ∈ p.mentions, scope id

instance (scope : DeclId → Prop) [DecidablePred scope] : DecidablePred (MentionsOnly scope) :=
  fun p => inferInstanceAs (Decidable (∀ id ∈ p.mentions, scope id))

theorem MentionsOnly.target {scope : DeclId → Prop} {p : Pattern} (hp : p.MentionsOnly scope) :
    ∀ t ∈ p.target?, t.MentionsOnly scope := by
  intro t ht id hid
  refine hp id ?_
  cases p <;> simp_all [target?, mentions]

theorem MentionsOnly.parts {scope : DeclId → Prop} {p : Pattern} (hp : p.MentionsOnly scope) :
    ∀ q ∈ p.parts?.getD [], q.MentionsOnly scope := by
  intro q hq id hid
  refine hp id ?_
  cases p with
  | wildcard => simp [parts?] at hq
  | typed t => simp [parts?] at hq
  | positional parts =>
    rw [mentions, mentionsAll_eq_flatMap]
    exact List.mem_flatMap_of_mem hq hid
  | deconstructed t parts =>
    rw [mentions, mentionsAll_eq_flatMap]
    exact List.mem_append_right _ (List.mem_flatMap_of_mem hq hid)

end Pattern

/-- A switch with every position in it renamed. -/
def Switch.rename (f : DeclId → DeclId) (s : Switch) : Switch where
  scrutinee := s.scrutinee.rename f
  arms := s.arms.map (Pattern.rename f)
  catchAll := s.catchAll

@[simp] theorem Switch.rename_id (s : Switch) : s.rename id = s := by
  simp [rename, List.map_congr_left fun p _ => Pattern.rename_id p]

/-- A switch refers to declarations within a scope only. -/
structure Switch.MentionsOnly (scope : DeclId → Prop) (s : Switch) : Prop where
  /-- So does the type that it switches on. -/
  scrutinee : s.scrutinee.MentionsOnly scope
  /-- So do its arms. -/
  arms : ∀ p ∈ s.arms, p.MentionsOnly scope

instance (scope : DeclId → Prop) [DecidablePred scope] :
    DecidablePred (Switch.MentionsOnly scope) :=
  fun s => decidable_of_iff
    (s.scrutinee.MentionsOnly scope ∧ ∀ p ∈ s.arms, p.MentionsOnly scope)
    ⟨fun h => ⟨h.1, h.2⟩, fun h => ⟨h.scrutinee, h.arms⟩⟩

/-! ## Catalogs -/

namespace Catalog

theorem exists_decl?_of_mem {g : Catalog} {d : Decl} (hd : d ∈ g.decls.toList) :
    ∃ id, g.decl? id = some d := by
  obtain ⟨i, hi⟩ := List.mem_iff_getElem?.1 hd
  have hget : g.decls[i]? = some d := by simpa using hi
  have hlt : i < g.size := (Array.getElem?_eq_some_iff.1 hget).1
  refine ⟨.ofNat i, ?_⟩
  rwa [Draft.decl?, DeclId.toNat_ofNat_of_lt (Nat.lt_trans hlt g.size_lt)]

/-- The positions of the variants of a declaration are different. -/
theorem nodup_variants (g : Catalog) (p : DeclId) : (g.variants p).Nodup := by
  refine (g.variants_ascending p).imp fun {i j} hlt heq => ?_
  rw [heq] at hlt
  exact Nat.lt_irrefl _ hlt

/-- `f` carries the declarations of `g` over to `h`, and `h` adds no variant to any of
them.  Positions within `scope` are looked at; all that are filled in `g` are among them. -/
structure Embeds (g h : Catalog) (f : DeclId → DeclId) (scope : DeclId → Prop) : Prop where
  /-- Different positions stay different. -/
  injective : Function.Injective f
  /-- A filled position is looked at. -/
  filled : ∀ id d, g.decl? id = some d → scope id
  /-- A position that is not filled stays. -/
  fixed : ∀ id, g.decl? id = none → f id = id
  /-- A declaration is found at its new position. -/
  decl? : ∀ id, scope id → h.decl? (f id) = (g.decl? id).map (Decl.rename f)
  /-- A variant of a carried declaration is a carried one. -/
  variant : ∀ p id d, scope p → h.decl? id = some d → d.isVariantOf (f p) = true →
    ∃ i e, g.decl? i = some e ∧ f i = id

namespace Embeds

variable {g h : Catalog} {f : DeclId → DeclId} {scope : DeclId → Prop} {t : Ty} {id : DeclId}

theorem decl_eq (H : Embeds g h f scope) (hid : scope id) :
    h.decl (f id) = (g.decl id).map (Decl.rename f) := by
  rw [decl, decl, H.decl? id hid]
  cases hd : g.decl? id with
  | none => simp [Except.map, H.fixed id hd]
  | some d => rfl

/-! ### Names -/

theorem simpleName_eq (H : Embeds g h f scope) (hid : scope id) :
    h.simpleName (f id) = g.simpleName id := by
  rw [simpleName, simpleName, H.decl? id hid]
  cases g.decl? id <;> rfl

theorem label_eq (H : Embeds g h f scope) (ht : t.MentionsOnly scope) :
    h.label (t.rename f) = g.label t := by
  induction t using Ty.inductionOn with
  | named id args container hargs hcontainer =>
    obtain ⟨hid, ha, hc⟩ := (Ty.hereditary_mentionsOnly scope).named.1 ht
    have hshown : h.displayAll (args.map (Ty.rename f)) = g.displayAll args := by
      rw [displayAll_eq_map, displayAll_eq_map, List.map_map]
      refine List.map_congr_left fun a hmem => ?_
      exact congrArg Label.text (hargs a hmem (ha a hmem))
    cases container with
    | none => simp only [Ty.rename_named, Option.map_none, label, hshown, H.simpleName_eq hid]
    | some outer =>
      simp only [Ty.rename_named, Option.map_some, label, hshown, H.simpleName_eq hid,
        hcontainer outer rfl (hc outer rfl)]
  | param name => rfl
  | array element ih =>
    simp only [Ty.rename, label, ih ((Ty.hereditary_mentionsOnly scope).array.1 ht)]
  | unresolved => rfl

/-- **Names stay.** -/
theorem display_eq (H : Embeds g h f scope) (ht : t.MentionsOnly scope) :
    h.display (t.rename f) = g.display t := by
  rw [display, display, H.label_eq ht]

theorem bareName_eq (H : Embeds g h f scope) (ht : t.MentionsOnly scope) :
    h.bareName (t.rename f) = g.bareName t := by
  induction t using Ty.inductionOn with
  | named id args container _ _ =>
    obtain ⟨hid, -, -⟩ := (Ty.hereditary_mentionsOnly scope).named.1 ht
    simp only [Ty.rename_named, bareName, H.simpleName_eq hid]
  | param name => rfl
  | array element ih =>
    simp only [Ty.rename, bareName, ih ((Ty.hereditary_mentionsOnly scope).array.1 ht)]
  | unresolved => rfl

theorem caseName_eq (H : Embeds g h f scope) (ht : t.MentionsOnly scope) {vs : List Ty}
    (hvs : ∀ v ∈ vs, v.MentionsOnly scope) :
    h.caseName (t.rename f) (vs.map (Ty.rename f)) = g.caseName t vs := by
  have hnames : (vs.map (Ty.rename f)).map h.display = vs.map g.display := by
    rw [List.map_map]
    exact List.map_congr_left fun v hv => H.display_eq (hvs v hv)
  rw [caseName, caseName, H.display_eq ht, hnames, List.isEmpty_map]

/-! ### Hierarchies -/

/-- **Variants are carried over**, and no others are added.  Their order may change. -/
theorem variantEntries_perm (H : Embeds g h f scope) {p : DeclId} (hp : scope p) :
    (h.variantEntries (f p)).Perm
      ((g.variantEntries p).map fun e => (f e.1, e.2.rename f)) := by
  have hnodup : ((g.variantEntries p).map fun e => (f e.1, e.2.rename f)).Nodup := by
    have hf := (g.nodup_variants p).map H.injective
    rw [variants, List.map_map] at hf
    refine List.Nodup.of_map Prod.fst ?_
    rw [List.map_map]
    exact hf
  refine (List.perm_ext_iff_of_nodup (List.Nodup.of_map _ (h.nodup_variants (f p))) hnodup).2 ?_
  rintro ⟨id', d'⟩
  simp only [mem_variantEntries, List.mem_map, Prod.exists, Prod.mk.injEq]
  constructor
  · rintro ⟨hd', hvar⟩
    obtain ⟨id, d, hd, rfl⟩ := H.variant p id' d' hp hd' hvar
    obtain rfl : d.rename f = d' := by
      simpa [H.decl? id (H.filled id d hd), hd] using hd'
    rw [Decl.isVariantOf_rename H.injective] at hvar
    exact ⟨id, d, ⟨hd, hvar⟩, rfl, rfl⟩
  · rintro ⟨id, d, ⟨hd, hvar⟩, rfl, rfl⟩
    rw [H.decl? id (H.filled id d hd), hd, Decl.isVariantOf_rename H.injective]
    exact ⟨rfl, hvar⟩

theorem variants_perm (H : Embeds g h f scope) {p : DeclId} (hp : scope p) :
    (h.variants (f p)).Perm ((g.variants p).map f) := by
  have hperm := (H.variantEntries_perm hp).map (·.1)
  rw [List.map_map] at hperm
  rw [variants, variants, List.map_map]
  exact hperm

theorem isClosedDecl_eq (H : Embeds g h f scope) (hid : scope id) :
    h.isClosedDecl (f id) = g.isClosedDecl id := by
  have hempty : (h.variants (f id)).isEmpty = (g.variants id).isEmpty := by
    rw [(H.variants_perm hid).isEmpty_eq, List.isEmpty_map]
  rw [isClosedDecl, isClosedDecl, H.decl? id hid, hempty]
  cases g.decl? id with
  | none => rfl
  | some d => simp

theorem isClosed_eq (H : Embeds g h f scope) (ht : t.MentionsOnly scope) :
    h.isClosed (t.rename f) = g.isClosed t := by
  cases t with
  | named id args container =>
    obtain ⟨hid, -, -⟩ := (Ty.hereditary_mentionsOnly scope).named.1 ht
    simpa [isClosed] using H.isClosedDecl_eq hid
  | param name => rfl
  | array element => rfl
  | unresolved => rfl

theorem isUnbound_eq (H : Embeds g h f scope) (ht : t.MentionsOnly scope) :
    h.isUnbound (t.rename f) = g.isUnbound t := by
  cases t with
  | named id args container =>
    obtain ⟨hid, -, -⟩ := (Ty.hereditary_mentionsOnly scope).named.1 ht
    rw [Ty.rename_named, isUnbound, isUnbound, H.decl? id hid, List.length_map]
    cases g.decl? id <;> rfl
  | param name => rfl
  | array element => rfl
  | unresolved => rfl

theorem isExpandable_eq (H : Embeds g h f scope) (ht : t.MentionsOnly scope) :
    h.isExpandable (t.rename f) = g.isExpandable t := by
  rw [isExpandable, isExpandable, H.isClosed_eq ht, H.isUnbound_eq ht]

/-- A declaration refers to filled positions only, so it has its container in scope. -/
theorem isVariant_eq (H : Embeds g h f scope) (ht : t.MentionsOnly scope) :
    h.isVariant (t.rename f) = g.isVariant t := by
  cases t with
  | named id args container =>
    obtain ⟨hid, -, -⟩ := (Ty.hereditary_mentionsOnly scope).named.1 ht
    simp only [isVariant, Ty.rename_named, Ty.id?_named, Option.any_some, H.decl? id hid]
    cases hd : g.decl? id with
    | none => rfl
    | some d =>
      simp only [Option.map_some, Option.any_some, H.isClosedDecl_eq hid]
      cases hc : d.container with
      | none => simp [Decl.rename, hc]
      | some p =>
        have hp : scope p := by
          have hmem : p ∈ d.mentions := by simp [Decl.mentions, hc]
          obtain ⟨e, he⟩ := decl?_of_mem_mentions hd hmem
          exact H.filled p e he
        have hmem : (h.variants (f p)).contains (f id) = (g.variants p).contains id := by
          rw [Bool.eq_iff_iff, List.contains_iff_mem, List.contains_iff_mem,
            (H.variants_perm hp).mem_iff, List.mem_map_of_injective H.injective]
        simp only [Decl.rename, hc, Option.map_some, Option.any_some, H.isClosedDecl_eq hp, hmem]
  | param name => rfl
  | array element => rfl
  | unresolved => rfl

/-! ### Fields -/

theorem bindings_eq (H : Embeds g h f scope) (ht : t.MentionsOnly scope) :
    h.bindings (t.rename f) = (g.bindings t).map (Bindings.rename f) := by
  induction t using Ty.inductionOn with
  | named id args container _ hcontainer =>
    obtain ⟨hid, -, hc⟩ := (Ty.hereditary_mentionsOnly scope).named.1 ht
    have hzip : ∀ d : Decl, d.typeParams.zip (args.map (Ty.rename f)) =
        Bindings.rename f (d.typeParams.zip args) := by
      intro d
      rw [List.zip_map_right]
      rfl
    cases container with
    | none =>
      rw [Ty.rename_named, Option.map_none, bindings, bindings, H.decl_eq hid]
      cases g.decl id with
      | error fault => rfl
      | ok d => exact congrArg Except.ok (hzip d)
    | some outer =>
      rw [Ty.rename_named, Option.map_some, bindings, bindings, H.decl_eq hid,
        hcontainer outer rfl (hc outer rfl)]
      cases g.decl id with
      | error fault => rfl
      | ok d =>
        cases g.bindings outer with
        | error fault => rfl
        | ok rest => exact congrArg Except.ok (by simp [hzip d, Bindings.rename, Decl.rename])
  | param name => rfl
  | array element _ => rfl
  | unresolved => rfl

/-- **The fields of a type are renamed**; a look-up that fails fails in the same way. -/
theorem fieldTypes_eq (H : Embeds g h f scope) (ht : t.MentionsOnly scope) :
    h.fieldTypes (t.rename f) = (g.fieldTypes t).map (List.map (Ty.rename f)) := by
  cases t with
  | named id args container =>
    obtain ⟨hid, -, -⟩ := (Ty.hereditary_mentionsOnly scope).named.1 ht
    have hbindings := H.bindings_eq ht
    rw [Ty.rename_named] at hbindings ⊢
    simp only [fieldTypes, Ty.id?_named, H.decl_eq hid, hbindings]
    cases g.decl id with
    | error fault => rfl
    | ok d =>
      simp only [Except.map, bind, Except.bind, Decl.longest?_rename]
      cases d.longest? with
      | none => rfl
      | some c =>
        cases g.bindings (.named id args container) with
        | error fault => rfl
        | ok bound =>
          simp [Ty.substAll_eq_map, Constructor.rename, Ty.rename_subst, pure, Except.pure]
  | param name => rfl
  | array element => rfl
  | unresolved => rfl

/-- What the declarations of a catalog say refers to filled positions. -/
theorem mentionsOnly_params (H : Embeds g h f scope) :
    ∀ d ∈ g.decls.toList, ∀ c ∈ d.constructors, ∀ p ∈ c.params, p.MentionsOnly scope := by
  intro d hd c hc p hp i hi
  obtain ⟨id, hid⟩ := exists_decl?_of_mem hd
  have hmem : i ∈ d.mentions := by
    rw [Decl.mentions, List.append_assoc]
    refine List.mem_append_right _ (List.mem_append_left _ ?_)
    refine List.mem_flatMap_of_mem hc ?_
    rw [Ty.mentionsAll_eq_flatMap]
    exact List.mem_flatMap_of_mem hp hi
  obtain ⟨e, he⟩ := decl?_of_mem_mentions hid hmem
  exact H.filled i e he

/-! ### Patterns -/

theorem variantTarget?_eq (H : Embeds g h f scope) {p : Pattern} (hp : p.MentionsOnly scope) :
    (p.rename f).variantTarget? h = (p.variantTarget? g).map (Ty.rename f) := by
  rw [Pattern.variantTarget?, Pattern.variantTarget?, Pattern.target?_rename]
  cases ht : p.target? with
  | none => rfl
  | some t =>
    have hvariant := H.isVariant_eq (hp.target t ht)
    simp only [Option.map_some, Option.filter_some, hvariant]
    split <;> rfl

/-- **The case that a pattern covers keeps its name.** -/
theorem caseName?_eq (H : Embeds g h f scope) {p : Pattern} (hp : p.MentionsOnly scope) :
    (p.rename f).caseName? h = p.caseName? g := by
  have hvariants : (p.rename f).partVariants h = (p.partVariants g).map (Ty.rename f) := by
    have hparts : ((p.rename f).parts?.getD []) = (p.parts?.getD []).map (Pattern.rename f) := by
      rw [Pattern.parts?_rename]
      cases p.parts? <;> rfl
    rw [Pattern.partVariants, Pattern.partVariants, hparts, List.filterMap_map,
      List.map_filterMap]
    exact List.filterMap_congr fun q hq => H.variantTarget?_eq (hp.parts q hq)
  rw [Pattern.caseName?, Pattern.caseName?, Pattern.target?_rename, hvariants]
  cases ht : p.target? with
  | none => rfl
  | some t =>
    refine congrArg some (H.caseName_eq (hp.target t ht) fun v hv => ?_)
    obtain ⟨q, hq, hqv⟩ := List.mem_filterMap.1 hv
    exact (hp.parts q hq).target v (Option.filter_eq_some_iff.1 hqv).1

theorem coveredNames_eq (H : Embeds g h f scope) {ps : List Pattern}
    (hps : ∀ p ∈ ps, p.MentionsOnly scope) :
    coveredNames h (ps.map (Pattern.rename f)) = coveredNames g ps := by
  rw [coveredNames, coveredNames, List.filterMap_map]
  exact congrArg _ (List.filterMap_congr fun p hp => H.caseName?_eq (hps p hp))

/-- Once the required names are known, the answer stays. -/
theorem judge_eq (H : Embeds g h f scope) {s : Switch} (hs : s.MentionsOnly scope)
    (cfg : Config) (required : NameSet) :
    (s.rename f).judge h cfg required = s.judge g cfg required := by
  apply Switch.judge_congr
  · exact H.coveredNames_eq hs.arms
  · exact H.display_eq hs.scrutinee
  · exact H.bareName_eq hs.scrutinee
  · rfl

end Embeds

end Catalog

end SwitchCoverage
