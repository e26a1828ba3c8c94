import SwitchCoverage.Proofs.Legible
import SwitchCoverage.Proofs.Reordering
import SwitchCoverage.Proofs.Scope

/-!
# Instances of types

A type can mention type parameters, and be made concrete later by putting something in for them.
Whether a type can be expanded depends on its declaration and on the number of its arguments, and
neither changes when something is put into the arguments.  So the leaves of the concrete type are
the leaves of the type it was made from, made concrete in the same way; to expand first or to put
in first is the same.

With fields there is more to it, since these are found by a substitution themselves: first the
type parameters of the declarations are replaced by the arguments, and then something is put in
for the parameters in these arguments.  If the first step leaves no parameter of a declaration
over, the second one finds arguments only, and it can as well be done there before.

## Main definitions

* `Bindings.instantiated` — bindings with something put into what they bind.
* `Ty.around` — the types around a type.

## Main statements

* `Catalog.children_subst`, `Catalog.leaves_subst` — variants and leaves of an instance.
* `Ty.subst_subst` — two substitutions as one.
* `Catalog.bindings_subst`, `Catalog.fieldTypes_subst` — bindings and fields of an instance.
* `Catalog.commutes_with_subst` — **expansion and typing commute with instantiation.**
-/
namespace SwitchCoverage

/-- Of two computations that succeed together, one gives what the other gives, after a change. -/
theorem Alike.eq_ok_iff {ε α β : Type} {f : α → β} {x : Except ε α} {y : Except ε β}
    (h : Alike (fun a b => b = f a) x y) {b : β} : y = .ok b ↔ ∃ a, x = .ok a ∧ b = f a := by
  cases x with
  | error e => cases y <;> simp_all [Alike]
  | ok a => cases y <;> simp_all [Alike, eq_comm]

namespace Ty

variable {bound : Bindings} {t : Ty} {id : DeclId}

theorem id?_subst (h : t.id? = some id) : (t.subst bound).id? = some id := by
  match t, h with
  | .named _ args container, h =>
    rw [subst_named]
    exact h

theorem args_subst (h : t.id? = some id) :
    (t.subst bound).args = t.args.map (subst bound) := by
  match t, h with
  | .named _ args container, _ =>
    rw [subst_named]
    rfl

end Ty

/-! ## Expansion -/

theorem Decl.instantiate_subst {t : Ty} {p : DeclId} (hp : t.id? = some p) (d : Decl)
    (id : DeclId) (bound : Bindings) :
    d.instantiate id (t.subst bound) = (d.instantiate id t).subst bound := by
  simp only [instantiate, Ty.subst_named, Ty.args_subst hp, List.length_map, Option.map_some]
  split <;> simp

namespace Catalog

variable {g : Catalog} {bound : Bindings} {limit : Nat} {t : Ty} {id : DeclId}

theorem isExpandable_subst (h : t.id? = some id) :
    g.isExpandable (t.subst bound) = g.isExpandable t := by
  match t, h with
  | .named _ args container, _ =>
    rw [Ty.subst_named]
    simp [isExpandable, isClosed, isUnbound]

/-- The variants of an instance are the instances of the variants. -/
theorem children_subst (h : t.id? = some id) :
    g.children (t.subst bound) = (g.children t).map (Ty.subst bound) := by
  rw [children, children, h, Ty.id?_subst h]
  simp [Decl.instantiate_subst h]

theorem id?_of_mem_children {c : Ty} (hc : c ∈ g.children t) : ∃ i, c.id? = some i := by
  obtain ⟨_, i, d, -, -, -, rfl⟩ := mem_children.1 hc
  exact ⟨i, rfl⟩

/-- Both walks go the same ways, and what is put in stays where it is. -/
theorem leavesWithin_subst {n : Nat} (h : t.id? = some id) :
    Alike (fun ls ls' => ls' = ls.map (Ty.subst bound)) (g.leavesWithin limit n t)
      (g.leavesWithin limit n (t.subst bound)) := by
  induction n generalizing t id with
  | zero =>
    rw [leavesWithin, leavesWithin, isExpandable_subst h]
    by_cases hx : g.isExpandable t = true
    · simp [hx, Alike]
    · simp [hx, Alike]
  | succ n ih =>
    rw [leavesWithin, leavesWithin, isExpandable_subst h]
    by_cases hx : g.isExpandable t = true
    · rw [if_pos hx, if_pos hx, children_subst h]
      have hparts : Alike (List.Forall₂ fun ls ls' => ls' = ls.map (Ty.subst bound))
          ((g.children t).mapM (g.leavesWithin limit n))
          (((g.children t).map (Ty.subst bound)).mapM (g.leavesWithin limit n)) := by
        refine Alike.mapM (List.forall₂_map_right_iff.2 (List.forall₂_same.2 fun c hc => ?_))
        obtain ⟨i, hi⟩ := id?_of_mem_children hc
        exact ih hi
      refine hparts.map fun parts parts' hflat => ?_
      obtain rfl : parts' = parts.map (List.map (Ty.subst bound)) := by
        induction hflat with
        | nil => rfl
        | cons hhead _ htail => rw [hhead, htail, List.map_cons]
      exact List.map_flatten.symm
    · simp [hx, Alike]

/-- **The leaves of an instance are the instances of the leaves.** -/
theorem leaves_subst (h : t.id? = some id) {ls' : List Ty} :
    g.leaves limit (t.subst bound) = .ok ls' ↔
      ∃ ls, g.leaves limit t = .ok ls ∧ ls' = ls.map (Ty.subst bound) := by
  have halike : Alike (fun ls ls' => ls' = ls.map (Ty.subst bound)) (g.leaves limit t)
      (g.leaves limit (t.subst bound)) := leavesWithin_subst h
  exact halike.eq_ok_iff

end Catalog

/-! ## Fields -/

/-- The bindings with something put into what they bind. -/
def Bindings.instantiated (inner bound : Bindings) : Bindings :=
  inner.map fun e => (e.1, e.2.subst bound)

theorem Bindings.lookup_instantiated (inner bound : Bindings) (name : String) :
    (inner.instantiated bound).lookup name = (inner.lookup name).map (Ty.subst bound) :=
  lookup_map (Ty.subst bound) inner name

theorem Bindings.zip_map_instantiated (names : List String) (args : List Ty) (bound : Bindings) :
    names.zip (args.map (Ty.subst bound)) = instantiated (names.zip args) bound := by
  rw [List.zip_map_right, instantiated]
  rfl

namespace Ty

/-- The types around a type, from the inside out, whatever they are. -/
def around : Ty → List Ty
  | .named _ _ none => []
  | .named _ _ (some outer) => outer :: outer.around
  | .param _ => []
  | .array _ => []
  | .unresolved => []
termination_by structural t => t

/-- **Two substitutions as one.**  If the first one replaces every parameter of a type, the second
one meets nothing but what was put in. -/
theorem subst_subst {inner bound : Bindings} {t : Ty}
    (h : ∀ name ∈ t.paramNames, ∃ a, inner.lookup name = some a) :
    (t.subst inner).subst bound = t.subst (inner.instantiated bound) := by
  induction t using inductionOn with
  | named id args container hargs hcontainer =>
    simp only [mem_paramNames_named] at h
    simp only [subst_named, List.map_map, Option.map_map]
    congr 1
    · exact List.map_congr_left fun a ha =>
        hargs a ha fun name hname => h name (.inl ⟨a, ha, hname⟩)
    · exact Option.map_congr fun o ho =>
        hcontainer o ho fun name hname => h name (.inr ⟨o, ho, hname⟩)
  | param name =>
    obtain ⟨a, ha⟩ := h name (.head _)
    simp [subst, Bindings.lookup_instantiated, ha]
  | array element ih => simp [subst, ih h]
  | unresolved => rfl

end Ty

namespace Catalog

variable {g : Catalog} {bound : Bindings} {t : Ty} {id : DeclId}

/-- The levels of an instance are those of the type it was made from, if these are all there are:
a parameter around a type could become a level. -/
theorem bindings_subst (hid : t.id? = some id) (haround : ∀ o ∈ t.around, ∃ i, o.id? = some i) :
    g.bindings (t.subst bound) = (g.bindings t).map fun inner => inner.instantiated bound := by
  induction t using Ty.inductionOn generalizing id with
  | named _ args container _ hcontainer =>
    rw [Ty.subst_named]
    cases container with
    | none =>
      simp only [bindings, Option.map_none, Bindings.zip_map_instantiated]
      cases g.decl _ <;> rfl
    | some outer =>
      obtain ⟨⟨i, hi⟩, houter⟩ := List.forall_mem_cons.1 haround
      simp only [bindings, Option.map_some, Bindings.zip_map_instantiated,
        hcontainer outer rfl hi houter]
      cases g.decl _ with
      | error fault => rfl
      | ok d =>
        cases g.bindings outer with
        | error fault => rfl
        | ok rest => simp [bind, Except.bind, Except.map, pure, Except.pure, Bindings.instantiated]
  | param name => cases hid
  | array element _ => cases hid
  | unresolved => cases hid

/-- **The fields of an instance are the instances of the fields**, if all parameters of the fields
stand for something, and so nothing is left over that the instantiation could replace. -/
theorem fieldTypes_subst (hid : t.id? = some id) (haround : ∀ o ∈ t.around, ∃ i, o.id? = some i)
    (hparams : ∀ d c, g.decl? id = some d → d.longest? = some c → ∀ p ∈ c.params,
      ∀ name ∈ p.paramNames, ∃ a, g.StandsFor t.levels name a) :
    g.fieldTypes (t.subst bound) = (g.fieldTypes t).map (List.map (Ty.subst bound)) := by
  have hid' : (t.subst bound).id? = some id := Ty.id?_subst hid
  cases hd : g.decl? id with
  | none =>
    have hnone : g.decl id = .error (.unknownDecl id) := decl_eq_error_iff.2 ⟨hd, rfl⟩
    simp [fieldTypes, hid, hid', hnone, bind, Except.bind, Except.map]
  | some d =>
    cases hc : d.longest? with
    | none =>
      rw [fieldTypes_of_longest?_eq_none hid hd hc, fieldTypes_of_longest?_eq_none hid' hd hc]
      rfl
    | some c =>
      rw [fieldTypes_of_longest?_eq_some hid hd hc, fieldTypes_of_longest?_eq_some hid' hd hc,
        bindings_subst hid haround]
      cases hinner : g.bindings t with
      | error fault => rfl
      | ok inner =>
        simp only [Except.map, List.map_map, Except.ok.injEq]
        refine List.map_congr_left fun p hp => (Ty.subst_subst fun name hname => ?_).symm
        obtain ⟨a, ha⟩ := hparams d c hd hc p hp name hname
        exact ⟨a, (lookup_bindings hinner).2 ha⟩

/-- **Expansion and typing commute with instantiation.**  The leaves of an instance of a declared
type can be listed just when those of the type can, under the same limit, and they are the
instances of these.  If all types around the type are declared types, and all parameters in its
longest constructor stand for something on its levels, then the fields of the instance are the
instances of the fields. -/
theorem commutes_with_subst (g : Catalog) (bound : Bindings) (hid : t.id? = some id) :
    (∀ limit, ((∃ ls', g.leaves limit (t.subst bound) = .ok ls') ↔
        ∃ ls, g.leaves limit t = .ok ls) ∧
      ∀ ls, g.leaves limit t = .ok ls →
        g.leaves limit (t.subst bound) = .ok (ls.map (Ty.subst bound))) ∧
    ((∀ o ∈ t.around, ∃ i, o.id? = some i) →
      (∀ d c, g.decl? id = some d → d.longest? = some c → ∀ p ∈ c.params,
        ∀ name ∈ p.paramNames, ∃ a, g.StandsFor t.levels name a) →
      g.fieldTypes (t.subst bound) = (g.fieldTypes t).map (List.map (Ty.subst bound))) := by
  refine ⟨fun limit => ⟨?_, fun ls hls => ?_⟩, fieldTypes_subst hid⟩
  · simp only [leaves_subst hid]
    constructor
    · rintro ⟨-, ls, hls, -⟩
      exact ⟨ls, hls⟩
    · rintro ⟨ls, hls⟩
      exact ⟨_, ls, hls, rfl⟩
  · exact (leaves_subst hid).2 ⟨ls, hls, rfl⟩

end Catalog

namespace Sample

/-- A result whose success and failure are still open. -/
def openResult : Ty := ids.resultOf (.param "A") (.param "B")

/-- A failure of such a result. -/
def openFailure : Ty := (Ty.plain ids.error).within openResult

/-- What is put in later.  The last binding has the name of a type parameter of results. -/
def filling : Bindings :=
  [("B", ids.httpErrorString), ("A", .plain ids.int32), ("TFailure", .unresolved)]

theorem bindings_openFailure : catalog.bindings openFailure =
    .ok [("TSuccess", .param "A"), ("TFailure", .param "B")] := rfl

end Sample

theorem Catalog.commutes_with_subst_openResult :
    Sample.openResult.id? = some Sample.ids.result ∧
    (∃ ls, Sample.catalog.leaves 64 Sample.openResult = .ok ls ∧ ls.length = 2 ∧
      Sample.catalog.leaves 64 (Sample.openResult.subst Sample.filling) =
        .ok (ls.map (Ty.subst Sample.filling))) ∧
    Sample.openFailure.id? = some Sample.ids.error ∧
    (∀ o ∈ Sample.openFailure.around, ∃ i, o.id? = some i) ∧
    (∀ d c, Sample.catalog.decl? Sample.ids.error = some d → d.longest? = some c →
      ∀ p ∈ c.params, ∀ name ∈ p.paramNames,
        ∃ a, Sample.catalog.StandsFor Sample.openFailure.levels name a) ∧
    Sample.catalog.fieldTypes (Sample.openFailure.subst Sample.filling) =
      .ok [Sample.ids.httpErrorString] := by
  have hresult : Sample.openResult.id? = some Sample.ids.result := rfl
  have hfailure : Sample.openFailure.id? = some Sample.ids.error := rfl
  have hleaves : ∃ ls, Sample.catalog.leaves 64 Sample.openResult = .ok ls ∧ ls.length = 2 :=
    ⟨_, rfl, rfl⟩
  have haround : ∀ o ∈ Sample.openFailure.around, ∃ i, o.id? = some i := by
    intro o ho
    obtain rfl := List.mem_singleton.1 ho
    exact ⟨_, rfl⟩
  have hparams : ∀ d c, Sample.catalog.decl? Sample.ids.error = some d → d.longest? = some c →
      ∀ p ∈ c.params, ∀ name ∈ p.paramNames,
        ∃ a, Sample.catalog.StandsFor Sample.openFailure.levels name a := by
    intro d c hd hc p hp name hname
    cases hd
    cases hc
    obtain rfl := List.mem_singleton.1 hp
    obtain rfl := List.mem_singleton.1 hname
    exact ⟨.param "B", (lookup_bindings Sample.bindings_openFailure).1 rfl⟩
  obtain ⟨ls, hls, hlength⟩ := hleaves
  refine ⟨hresult, ⟨ls, hls, hlength, ?_⟩, hfailure, haround, hparams, ?_⟩
  · exact ((commutes_with_subst _ Sample.filling hresult).1 64).2 ls hls
  · rw [(commutes_with_subst _ Sample.filling hfailure).2 haround hparams]
    rfl

end SwitchCoverage
