import SwitchCoverage.Proofs.Cases

/-!
# Properties that the analysis hands on

The analysis of a type goes over to other types: to its arguments and the type it is
declared in, to the types of its fields, to its variants.  All of these are put together
from parts of the type and from what declarations say.  A property that a type has just
when its parts have it is therefore handed on at every step, provided that the
declarations play along.

## Main definitions

* `Ty.Hereditary` — a property that a type has just when its parts have it.

## Main statements

* `Ty.Hereditary.subst` — substitution keeps such a property.
* `Ty.Hereditary.of_mem_fieldTypes`, `Ty.Hereditary.of_mem_children`,
  `Ty.Hereditary.of_mem_leaves`, `Ty.Hereditary.of_mem_splitFields` — fields, variants and
  leaves have it, and so have the variants that a field can take.
-/
namespace SwitchCoverage

theorem Decl.mem_of_longest? {d : Decl} {c : Constructor} (h : d.longest? = some c) :
    c ∈ d.constructors := by
  have hmem : ∀ (cs : List Constructor) (c : Constructor), longestOf? cs = some c → c ∈ cs := by
    intro cs
    induction cs with
    | nil => simp [longestOf?]
    | cons first cs ih =>
      intro c hc
      rw [longestOf?] at hc
      split at hc
      · cases hc
        exact .head _
      · next hrival =>
        split at hc <;> cases hc
        · exact .tail _ (ih _ hrival)
        · exact .head _
  exact hmem d.constructors c h

theorem Catalog.mem_decls_of_decl? {g : Catalog} {id : DeclId} {d : Decl}
    (h : g.decl? id = some d) : d ∈ g.decls.toList :=
  Array.mem_toList_iff.2 (Array.mem_of_getElem? h)

namespace Ty

/-- A declared type has the property just when its declaration is allowed and its arguments
and its container have the property, and an array has it just when its element has. -/
structure Hereditary (allowed : DeclId → Prop) (P : Ty → Prop) : Prop where
  /-- The property of a declared type. -/
  named : ∀ {id args container},
    P (.named id args container) ↔ allowed id ∧ (∀ a ∈ args, P a) ∧ ∀ o ∈ container, P o
  /-- The property of an array. -/
  array : ∀ {element}, P (.array element) ↔ P element

namespace Hereditary

variable {allowed : DeclId → Prop} {P : Ty → Prop} {g : Catalog} {limit : Nat} {t : Ty}

/-- What is put in has the property, and so has what it is put into. -/
theorem subst (hP : Hereditary allowed P) {bound : Bindings} (hbound : ∀ e ∈ bound, P e.2)
    (ht : P t) : P (t.subst bound) := by
  induction t using inductionOn with
  | named id args container hargs hcontainer =>
    obtain ⟨hid, ha, hc⟩ := hP.named.1 ht
    rw [subst_named, hP.named]
    refine ⟨hid, fun a hmem => ?_, fun o hmem => ?_⟩
    · obtain ⟨b, hb, rfl⟩ := List.mem_map.1 hmem
      exact hargs b hb (ha b hb)
    · obtain ⟨b, hb, rfl⟩ := Option.map_eq_some_iff.1 hmem
      exact hcontainer b hb (hc b hb)
  | param name =>
    rw [Ty.subst]
    cases hlookup : bound.lookup name with
    | none => exact ht
    | some a =>
      obtain ⟨_, _, hmem, -⟩ := List.lookup_eq_some_iff.1 hlookup
      exact hbound (name, a) (by simp [hmem])
  | array element ih => exact hP.array.2 (ih (hP.array.1 ht))
  | unresolved => exact ht

/-- Bindings come from the arguments of a type and of those around it. -/
theorem of_mem_bindings (hP : Hereditary allowed P) (ht : P t) {bound : Bindings}
    (h : g.bindings t = .ok bound) : ∀ e ∈ bound, P e.2 := by
  induction t using inductionOn generalizing bound with
  | named id args container _ hcontainer =>
    obtain ⟨-, hargs, houter⟩ := hP.named.1 ht
    cases container with
    | none =>
      obtain ⟨d, -, h⟩ := bind_eq_ok_iff.1 h
      cases h
      exact fun e he => hargs e.2 (List.of_mem_zip he).2
    | some outer =>
      obtain ⟨d, -, h⟩ := bind_eq_ok_iff.1 h
      obtain ⟨rest, hrest, h⟩ := bind_eq_ok_iff.1 h
      cases h
      intro e he
      rcases List.mem_append.1 he with he | he
      · exact hargs e.2 (List.of_mem_zip he).2
      · exact hcontainer outer rfl (houter outer rfl) hrest e he
  | param name => cases h; simp
  | array element _ => cases h; simp
  | unresolved => cases h; simp

/-- The fields of a type have the property, if the parameters of constructors have it. -/
theorem of_mem_fieldTypes (hP : Hereditary allowed P)
    (hparams : ∀ d ∈ g.decls.toList, ∀ c ∈ d.constructors, ∀ p ∈ c.params, P p) (ht : P t)
    {types : List Ty} (h : g.fieldTypes t = .ok types) : ∀ f ∈ types, P f := by
  rw [Catalog.fieldTypes] at h
  split at h
  · cases h; simp
  · obtain ⟨d, hd, h⟩ := bind_eq_ok_iff.1 h
    split at h
    · cases h; simp
    · next c hc =>
      obtain ⟨bound, hbound, h⟩ := bind_eq_ok_iff.1 h
      cases h
      rw [substAll_eq_map]
      intro f hf
      obtain ⟨p, hp, rfl⟩ := List.mem_map.1 hf
      have hd := Catalog.mem_decls_of_decl? (Catalog.decl_eq_ok_iff.1 hd)
      exact hP.subst (hP.of_mem_bindings ht hbound) (hparams d hd c (Decl.mem_of_longest? hc) p hp)

/-- A child takes over arguments of its parent or has none. -/
theorem of_mem_children (hP : Hereditary allowed P)
    (hallowed : ∀ id d, g.decl? id = some d → allowed id) (ht : P t) {c : Ty}
    (hc : c ∈ g.children t) : P c := by
  obtain ⟨_, id, d, hid, hd, -, rfl⟩ := Catalog.mem_children.1 hc
  refine hP.named.2 ⟨hallowed id d hd, fun a ha => ?_, by simpa using ht⟩
  split at ha
  · match t, hid with
    | .named _ args container, _ => exact (hP.named.1 ht).2.1 a ha
  · simp at ha

theorem of_mem_leaves (hP : Hereditary allowed P)
    (hallowed : ∀ id d, g.decl? id = some d → allowed id) (ht : P t) {ls : List Ty}
    (h : g.leaves limit t = .ok ls) : ∀ v ∈ ls, P v := by
  intro v hv
  exact (Catalog.leaves_induction (fun _ hp _ _ hc => hP.of_mem_children hallowed hp hc)
    h ht v hv).1

/-- So have the variants that the fields of a type can take. -/
theorem of_mem_splitFields (hP : Hereditary allowed P)
    (hallowed : ∀ id d, g.decl? id = some d → allowed id)
    (hparams : ∀ d ∈ g.decls.toList, ∀ c ∈ d.constructors, ∀ p ∈ c.params, P p) (ht : P t)
    {fs : List SplitField} (h : g.splitFields limit t = .ok fs) :
    ∀ f ∈ fs, ∀ v ∈ f.variants, P v := by
  intro f hf
  obtain ⟨types, ty, htypes, hty, hvs, -⟩ := (Catalog.mem_splitFields h).1 hf
  have hfield := hP.of_mem_fieldTypes hparams ht htypes ty (List.mem_of_getElem? hty)
  exact hP.of_mem_leaves hallowed hfield hvs

end Hereditary

end Ty

end SwitchCoverage
