import Mathlib.Data.Option.Basic
import SwitchCoverage.Proofs.Failure

/-!
# Type parameters in scope

The fields of a type are written against the type parameters of its declaration and of the
declarations it is nested in.  What such a parameter stands for is decided level by level.  The
type itself is the innermost level, and the types around it are the next ones; a level gives
something to a parameter if its declaration lists the parameter at a position at which the level
has an argument.  The innermost level that gives anything decides, and of several positions the
first one does.

The code collects all pairs of parameters and arguments in one list and takes the first that fits.
Here that list is compared with the levels, and the replacement of parameters with a relation that
says what becomes of each part of a type.  What is put in for a parameter stands in the result as
it is, so the replacement is simultaneous.

## Main definitions

* `FirstLongest` — the first of the longest constructors.
* `Level`, `Ty.levels` — the levels of a type, from the inside out.
* `Level.Gives`, `Catalog.StandsFor` — what a level gives to a parameter, and what it stands for.
* `Ty.Replaced` — a type, and the same type with its parameters replaced.

## Main statements

* `Catalog.lookup_bindings` — the first pair that fits is what the innermost level gives.
* `Ty.replaced_iff` — the replacement is the substitution, and no other.
* `Catalog.fieldTypes_inScope` — **fields are typed by the innermost level that gives anything.**
-/
namespace SwitchCoverage

/-! ## The longest constructor -/

/-- Among the constructors of a list, `c` is longer than those before it, and not shorter than
those after it. -/
def FirstLongest (cs : List Constructor) (c : Constructor) : Prop :=
  ∃ before after, cs = before ++ c :: after ∧
    (∀ b ∈ before, b.params.length < c.params.length) ∧
    ∀ a ∈ after, a.params.length ≤ c.params.length

theorem FirstLongest.le {cs : List Constructor} {c : Constructor} (h : FirstLongest cs c) :
    ∀ b ∈ cs, b.params.length ≤ c.params.length := by
  obtain ⟨before, after, rfl, hbefore, hafter⟩ := h
  intro b hb
  rcases List.mem_append.1 hb with hb | hb
  · exact Nat.le_of_lt (hbefore b hb)
  · rcases List.mem_cons.1 hb with rfl | hb
    · exact Nat.le_refl _
    · exact hafter b hb

namespace Decl

theorem longestOf?_eq_none_iff {cs : List Constructor} : longestOf? cs = none ↔ cs = [] := by
  cases cs with
  | nil => simp [longestOf?]
  | cons c cs =>
    simp only [longestOf?, reduceCtorEq, iff_false]
    split
    · simp
    · split <;> simp

/-- The recursion keeps the first constructor unless a later one is longer. -/
theorem firstLongest_of_longestOf? {cs : List Constructor} {c : Constructor}
    (h : longestOf? cs = some c) : FirstLongest cs c := by
  induction cs generalizing c with
  | nil => simp [longestOf?] at h
  | cons first cs ih =>
    rw [longestOf?] at h
    split at h
    · next hnone =>
      cases h
      exact ⟨[], cs, rfl, by simp, by simp [longestOf?_eq_none_iff.1 hnone]⟩
    · next rival hrival =>
      have hlongest : FirstLongest cs rival := ih hrival
      by_cases hlt : first.params.length < rival.params.length
      · rw [if_pos hlt] at h
        cases h
        obtain ⟨before, after, hcs, hbefore, hafter⟩ := hlongest
        refine ⟨first :: before, after, by simp [hcs], ?_, hafter⟩
        exact List.forall_mem_cons.2 ⟨hlt, hbefore⟩
      · rw [if_neg hlt] at h
        cases h
        refine ⟨[], cs, rfl, by simp, fun a ha => ?_⟩
        exact Nat.le_trans (hlongest.le a ha) (Nat.not_lt.1 hlt)

end Decl

/-! ## Levels -/

/-- A level of a type: a declaration, and the arguments it has there. -/
structure Level where
  /-- The declaration. -/
  id : DeclId
  /-- The arguments, in order. -/
  args : List Ty

/-- The levels of a type: its own, then those of the types around it from the inside out, as far
as these are declared types. -/
def Ty.levels : Ty → List Level
  | .named id args none => [⟨id, args⟩]
  | .named id args (some outer) => ⟨id, args⟩ :: outer.levels
  | .param _ => []
  | .array _ => []
  | .unresolved => []
termination_by structural t => t

theorem Ty.chain_eq_map_levels (t : Ty) : t.chain = t.levels.map (·.id) := by
  induction t using Ty.inductionOn with
  | named id args container _ hcontainer =>
    cases container with
    | none => rfl
    | some outer => simp [chain, levels, hcontainer outer rfl]
  | param name => rfl
  | array element _ => rfl
  | unresolved => rfl

/-- A level gives `a` to the type parameter `name`: its declaration lists `name` at the position
at which the level has the argument `a`, and no earlier position lists `name` and has an
argument. -/
def Level.Gives (g : Catalog) (l : Level) (name : String) (a : Ty) : Prop :=
  ∃ d, ∃ i : Nat, g.decl? l.id = some d ∧ d.typeParams[i]? = some name ∧ l.args[i]? = some a ∧
    ∀ j < i, ∀ b, d.typeParams[j]? = some name → l.args[j]? ≠ some b

namespace Catalog

variable {g : Catalog} {name : String} {a : Ty}

/-- On the given levels, from the inside out, the type parameter `name` stands for `a`: some level
gives `a` to it, and those inside of that level give nothing. -/
def StandsFor (g : Catalog) (levels : List Level) (name : String) (a : Ty) : Prop :=
  ∃ inner l outer, levels = inner ++ l :: outer ∧ l.Gives g name a ∧
    ∀ k ∈ inner, ∀ b, ¬ k.Gives g name b

theorem not_standsFor_nil : ¬ g.StandsFor [] name a := by
  rintro ⟨inner, l, outer, h, -, -⟩
  simp at h

/-- The innermost level decides if it gives anything, and otherwise it can be left out. -/
theorem standsFor_cons {l : Level} {ls : List Level} : g.StandsFor (l :: ls) name a ↔
    l.Gives g name a ∨ (∀ b, ¬ l.Gives g name b) ∧ g.StandsFor ls name a := by
  constructor
  · rintro ⟨inner, k, outer, hlevels, hgives, hinner⟩
    cases inner with
    | nil =>
      cases hlevels
      exact .inl hgives
    | cons first inner =>
      cases hlevels
      obtain ⟨hfirst, hinner⟩ := List.forall_mem_cons.1 hinner
      exact .inr ⟨hfirst, inner, k, outer, rfl, hgives, hinner⟩
  · rintro (hgives | ⟨hnone, inner, k, outer, rfl, hgives, hinner⟩)
    · exact ⟨[], l, ls, rfl, hgives, by simp⟩
    · exact ⟨l :: inner, k, outer, rfl, hgives, List.forall_mem_cons.2 ⟨hnone, hinner⟩⟩

end Catalog

/-! ## Look-up -/

/-- The first pair with a given name stands at the first position at which one list has the name
and the other list goes on. -/
theorem lookup_zip_eq_some_iff {names : List String} {args : List Ty} {name : String} {a : Ty} :
    (names.zip args).lookup name = some a ↔ ∃ i : Nat, names[i]? = some name ∧
      args[i]? = some a ∧ ∀ j < i, ∀ b, names[j]? = some name → args[j]? ≠ some b := by
  induction names generalizing args with
  | nil => simp
  | cons n names ih =>
    cases args with
    | nil => simp
    | cons x args =>
      rw [List.zip_cons_cons, List.lookup_cons]
      by_cases hn : name = n
      · subst hn
        simp only [beq_self_eq_true, Option.some.injEq]
        constructor
        · rintro rfl
          exact ⟨0, rfl, rfl, by simp⟩
        · rintro ⟨i, -, ha, hfirst⟩
          cases i with
          | zero => simpa using ha
          | succ i => exact absurd rfl (hfirst 0 (Nat.succ_pos i) x rfl)
      · have hbeq : (name == n) = false := by simpa using hn
        rw [hbeq]
        simp only [ih]
        constructor
        · rintro ⟨i, hname, ha, hfirst⟩
          refine ⟨i + 1, hname, ha, fun j hj b hjn => ?_⟩
          cases j with
          | zero => exact absurd (Option.some.inj hjn).symm hn
          | succ j => exact hfirst j (by omega) b hjn
        · rintro ⟨i, hname, ha, hfirst⟩
          cases i with
          | zero => exact absurd (Option.some.inj hname).symm hn
          | succ i => exact ⟨i, hname, ha, fun j hj => hfirst (j + 1) (by omega)⟩

namespace Catalog

variable {g : Catalog} {t : Ty} {name : String} {a : Ty}

theorem gives_iff_lookup {l : Level} {d : Decl} (hd : g.decl? l.id = some d) :
    l.Gives g name a ↔ (d.typeParams.zip l.args).lookup name = some a := by
  rw [lookup_zip_eq_some_iff, Level.Gives]
  simp [hd]

/-- Looking in one list and then in another is asking one level after the other. -/
theorem lookup_append_iff {l : Level} {ls : List Level} {d : Decl} {rest : Bindings}
    (hd : g.decl? l.id = some d) (hrest : rest.lookup name = some a ↔ g.StandsFor ls name a) :
    (d.typeParams.zip l.args ++ rest).lookup name = some a ↔ g.StandsFor (l :: ls) name a := by
  rw [standsFor_cons, gives_iff_lookup hd, List.lookup_append, ← hrest]
  simp only [gives_iff_lookup hd]
  cases (d.typeParams.zip l.args).lookup name <;> simp

/-- **The first pair that fits is what the innermost level gives.** -/
theorem lookup_bindings {bound : Bindings} (h : g.bindings t = .ok bound) :
    bound.lookup name = some a ↔ g.StandsFor t.levels name a := by
  induction t using Ty.inductionOn generalizing bound with
  | named id args container _ hcontainer =>
    cases container with
    | none =>
      obtain ⟨d, hd, h⟩ := bind_eq_ok_iff.1 h
      cases h
      have hlookup : (d.typeParams.zip args ++ []).lookup name = some a ↔
          g.StandsFor [⟨id, args⟩] name a :=
        lookup_append_iff (l := ⟨id, args⟩) (decl_eq_ok_iff.1 hd) (by simp [not_standsFor_nil])
      rw [List.append_nil] at hlookup
      exact hlookup
    | some outer =>
      obtain ⟨d, hd, h⟩ := bind_eq_ok_iff.1 h
      obtain ⟨rest, hrest, h⟩ := bind_eq_ok_iff.1 h
      cases h
      exact lookup_append_iff (l := ⟨id, args⟩) (decl_eq_ok_iff.1 hd) (hcontainer outer rfl hrest)
  | param param => cases h; simp [Ty.levels, not_standsFor_nil]
  | array element _ => cases h; simp [Ty.levels, not_standsFor_nil]
  | unresolved => cases h; simp [Ty.levels, not_standsFor_nil]

theorem exists_bindings (h : ∀ l ∈ t.levels, ∃ d, g.decl? l.id = some d) :
    ∃ bound, g.bindings t = .ok bound := by
  cases hbound : g.bindings t with
  | ok bound => exact ⟨bound, rfl⟩
  | error fault =>
    obtain ⟨id, hid, hnone, -⟩ := bindings_eq_error hbound
    rw [Ty.chain_eq_map_levels] at hid
    obtain ⟨l, hl, rfl⟩ := List.mem_map.1 hid
    obtain ⟨d, hd⟩ := h l hl
    rw [hnone] at hd
    cases hd

end Catalog

/-! ## Replacement -/

namespace Ty

/-- The second type is the first one with its type parameters replaced: a parameter by what it
stands for, if it stands for anything, at every depth.  All else is as it was. -/
inductive Replaced (standsFor : String → Ty → Prop) : Ty → Ty → Prop
  /-- A parameter that stands for something. -/
  | bound {name : String} {a : Ty} (h : standsFor name a) : Replaced standsFor (.param name) a
  /-- A parameter that stands for nothing. -/
  | free {name : String} (h : ∀ a, ¬ standsFor name a) :
      Replaced standsFor (.param name) (.param name)
  /-- A declared type. -/
  | named {id : DeclId} {args args' : List Ty} {container container' : Option Ty}
      (hargs : List.Forall₂ (Replaced standsFor) args args')
      (hcontainer : Option.Rel (Replaced standsFor) container container') :
      Replaced standsFor (.named id args container) (.named id args' container')
  /-- An array. -/
  | array {element element' : Ty} (h : Replaced standsFor element element') :
      Replaced standsFor (.array element) (.array element')
  /-- A type that could not be resolved. -/
  | unresolved : Replaced standsFor .unresolved .unresolved

theorem forall₂_iff_eq_map {R : Ty → Ty → Prop} {f : Ty → Ty} {ts us : List Ty}
    (h : ∀ t ∈ ts, ∀ u, R t u ↔ u = f t) : List.Forall₂ R ts us ↔ us = ts.map f := by
  induction ts generalizing us with
  | nil => simp
  | cons t ts ih =>
    obtain ⟨ht, hts⟩ := List.forall_mem_cons.1 h
    simp [List.forall₂_cons_left_iff, ht, ih hts]

theorem optionRel_iff_eq_map {R : Ty → Ty → Prop} {f : Ty → Ty} {o o' : Option Ty}
    (h : ∀ t ∈ o, ∀ u, R t u ↔ u = f t) : Option.Rel R o o' ↔ o' = o.map f := by
  cases o <;> cases o' <;> simp_all

/-- **The replacement is the substitution**, where the bindings say what a parameter stands for,
and there is no other one. -/
theorem replaced_iff {standsFor : String → Ty → Prop} {bound : Bindings}
    (hbound : ∀ name a, bound.lookup name = some a ↔ standsFor name a) {t u : Ty} :
    t.Replaced standsFor u ↔ u = t.subst bound := by
  induction t using inductionOn generalizing u with
  | named id args container hargs hcontainer =>
    have ha : ∀ args', List.Forall₂ (Replaced standsFor) args args' ↔
        args' = args.map (subst bound) :=
      fun _ => forall₂_iff_eq_map fun a ha u => hargs a ha
    have hc : ∀ container', Option.Rel (Replaced standsFor) container container' ↔
        container' = container.map (subst bound) :=
      fun _ => optionRel_iff_eq_map fun o ho u => hcontainer o ho
    rw [subst_named]
    constructor
    · intro h
      cases h with
      | named hargs hcontainer => rw [(ha _).1 hargs, (hc _).1 hcontainer]
    · rintro rfl
      exact .named ((ha _).2 rfl) ((hc _).2 rfl)
  | param name =>
    rw [subst]
    cases hlookup : bound.lookup name with
    | none =>
      have hfree : ∀ a, ¬ standsFor name a := by
        intro a
        simp [← hbound, hlookup]
      constructor
      · intro h
        cases h with
        | bound h => exact absurd h (hfree _)
        | free => rfl
      · rintro rfl
        exact .free hfree
    | some a =>
      have hstands : ∀ b, standsFor name b ↔ b = a := by
        intro b
        simp [← hbound, hlookup, eq_comm]
      constructor
      · intro h
        cases h with
        | bound h => exact (hstands u).1 h
        | free h => exact absurd ((hstands a).2 rfl) (h a)
      · rintro rfl
        exact .bound ((hstands _).2 rfl)
  | array element ih =>
    rw [subst]
    constructor
    · intro h
      cases h with
      | array h => rw [ih.1 h]
    · rintro rfl
      exact .array (ih.2 rfl)
  | unresolved =>
    constructor
    · intro h
      cases h
      rfl
    · rintro rfl
      exact .unresolved

end Ty

/-! ## Fields -/

namespace Catalog

variable {g : Catalog} {t : Ty} {id : DeclId} {d : Decl}

theorem fieldTypes_of_longest?_eq_none (hid : t.id? = some id) (hd : g.decl? id = some d)
    (hc : d.longest? = none) : g.fieldTypes t = .ok [] := by
  simp [fieldTypes, hid, decl_eq_ok_iff.2 hd, bind, Except.bind, hc, pure, Except.pure]

theorem fieldTypes_of_longest?_eq_some (hid : t.id? = some id) (hd : g.decl? id = some d)
    {c : Constructor} (hc : d.longest? = some c) :
    g.fieldTypes t = (g.bindings t).map fun bound => c.params.map (Ty.subst bound) := by
  simp only [fieldTypes, hid, decl_eq_ok_iff.2 hd, bind, Except.bind, hc, Ty.substAll_eq_map]
  rfl

/-- **Fields are typed by the innermost level that gives anything.**  The fields of a declared type
whose levels are all in the catalog can be listed.  There are none if the declaration has no
constructor.  Otherwise they are the parameters of the first of the longest constructors, in
order, with each type parameter replaced by what it stands for on the levels of the type, and no
other list is. -/
theorem fieldTypes_inScope (hid : t.id? = some id)
    (hlevels : ∀ l ∈ t.levels, ∃ d, g.decl? l.id = some d) :
    ∃ d types, g.decl? id = some d ∧ g.fieldTypes t = .ok types ∧
      (d.constructors = [] ∧ types = [] ∨
        ∃ c, FirstLongest d.constructors c ∧ ∀ types',
          List.Forall₂ (Ty.Replaced (g.StandsFor t.levels)) c.params types' ↔ types' = types) := by
  obtain ⟨d, hd⟩ : ∃ d, g.decl? id = some d := by
    have hmem : id ∈ t.levels.map (·.id) := by
      rw [← Ty.chain_eq_map_levels, Ty.chain_of_id? hid]
      exact .head _
    obtain ⟨l, hl, rfl⟩ := List.mem_map.1 hmem
    exact hlevels l hl
  cases hc : d.longest? with
  | none =>
    have hfields : g.fieldTypes t = .ok [] := fieldTypes_of_longest?_eq_none hid hd hc
    exact ⟨d, [], hd, hfields, .inl ⟨Decl.longestOf?_eq_none_iff.1 hc, rfl⟩⟩
  | some c =>
    obtain ⟨bound, hbound⟩ := exists_bindings hlevels
    have hfields := fieldTypes_of_longest?_eq_some hid hd hc
    rw [hbound] at hfields
    refine ⟨d, c.params.map (Ty.subst bound), hd, hfields,
      .inr ⟨c, Decl.firstLongest_of_longestOf? hc, fun types' => ?_⟩⟩
    exact Ty.forall₂_iff_eq_map fun p _ u => Ty.replaced_iff fun _ _ => lookup_bindings hbound

end Catalog

namespace Sample

/-- A bin stands on a shelf.  Both have a parameter `T`, the bin even twice, and a bin can do with
fewer arguments than it has parameters. -/
def shelves : Catalog where
  decls := #[
    { name := "Int" },
    { name := "Text" },
    { name := "Shelf", typeParams := ["T", "U"] },
    { name := "Bin", typeParams := ["T", "T", "V"], container := some ⟨2⟩
      constructors := [{ params := [.param "V"] },
        { params := [.param "T", .array (.applied ⟨2⟩ [.param "U", .param "V"])] },
        { params := [.plain ⟨0⟩, .plain ⟨1⟩] }] }]
  faultless := by decide

/-- A bin with two arguments, on a shelf with two.  Some of them are parameters in turn, called
like those of the declarations. -/
def bin : Ty := (Ty.applied ⟨3⟩ [.param "U", .plain ⟨0⟩]).within
  (.applied ⟨2⟩ [.plain ⟨1⟩, .param "T"])

/-- What the bin holds: its own first argument, and shelves of what its shelf holds second. -/
def binFields : List Ty := [.param "U", .array (.applied ⟨2⟩ [.param "T", .param "V"])]

end Sample

theorem Catalog.fieldTypes_inScope_bin :
    Sample.bin.id? = some ⟨3⟩ ∧
    (∀ l ∈ Sample.bin.levels, ∃ d, Sample.shelves.decl? l.id = some d) ∧
    Sample.shelves.fieldTypes Sample.bin = .ok Sample.binFields ∧
    ∃ d c, Sample.shelves.decl? ⟨3⟩ = some d ∧ FirstLongest d.constructors c ∧
      List.Forall₂ (Ty.Replaced (Sample.shelves.StandsFor Sample.bin.levels)) c.params
        Sample.binFields := by
  have hlevels : ∀ l ∈ Sample.bin.levels, ∃ d, Sample.shelves.decl? l.id = some d := by
    intro l hl
    rcases List.mem_cons.1 hl with rfl | hl
    · exact ⟨_, rfl⟩
    · obtain rfl := List.mem_singleton.1 hl
      exact ⟨_, rfl⟩
  have hfields : Sample.shelves.fieldTypes Sample.bin = .ok Sample.binFields := rfl
  have hid : Sample.bin.id? = some ⟨3⟩ := rfl
  refine ⟨hid, hlevels, hfields, ?_⟩
  obtain ⟨d, types, hd, htypes, hcases⟩ := fieldTypes_inScope hid hlevels
  obtain rfl : Sample.binFields = types := Except.ok.inj (hfields.symm.trans htypes)
  rcases hcases with ⟨-, hnone⟩ | ⟨c, hc, hreplaced⟩
  · cases hnone
  · exact ⟨d, c, hd, hc, (hreplaced _).2 rfl⟩

end SwitchCoverage
