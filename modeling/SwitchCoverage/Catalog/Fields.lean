import SwitchCoverage.Catalog.Basic

/-!
# Fields of a type

The fields of a declared type are the parameters of its longest constructor, with
the type parameters in scope replaced by what they stand for.  In scope are the
type parameters of the declaration itself and of the types it is declared in, the
inner ones first; a parameter that has no argument stays as it is.

Arguments take the place of the parameters they are bound to, everywhere in a
type: inside arguments, array elements and container links.  All parameters are
replaced at once, so an argument that is put in is not looked at again, and of
two bindings for one name the first counts.

## Main definitions

* `Bindings` — what each type parameter stands for.
* `Ty.subst` — a type with its bound parameters replaced.
* `Catalog.bindings` — what the type parameters in scope of a type stand for.
* `Catalog.fieldTypes` — the types of the fields, in order.
-/
namespace SwitchCoverage

/-! ## Substitution of type parameters -/

/-- What each type parameter stands for.  The first binding of a name counts. -/
abbrev Bindings := List (String × Ty)

namespace Ty

mutual

/-- A type with each bound parameter replaced by what it stands for. -/
def subst (bound : Bindings) : Ty → Ty
  | .param name => (bound.lookup name).getD (.param name)
  | .named id args none => .named id (substAll bound args) none
  | .named id args (some outer) => .named id (substAll bound args) (some (outer.subst bound))
  | .array element => .array (element.subst bound)
  | .unresolved => .unresolved
termination_by structural t => t

/-- The types of a list with their bound parameters replaced. -/
def substAll (bound : Bindings) : List Ty → List Ty
  | [] => []
  | t :: ts => t.subst bound :: substAll bound ts
termination_by structural ts => ts

end

theorem substAll_eq_map (bound : Bindings) (ts : List Ty) :
    substAll bound ts = ts.map (subst bound) := by
  induction ts with
  | nil => rfl
  | cons t ts ih => simp [substAll, ih]

theorem subst_named (bound : Bindings) (id : DeclId) (args : List Ty) (container : Option Ty) :
    (named id args container).subst bound =
      .named id (args.map (subst bound)) (container.map (subst bound)) := by
  cases container <;> simp [subst, substAll_eq_map]

end Ty

/-! ## Fields -/

namespace Catalog

/-- What the type parameters in scope of a type stand for: its own, then those of the
types it is declared in, from the inside out.  Only declared types bind any. -/
def bindings (g : Catalog) : Ty → Except Fault Bindings
  | .named id args none => do
    let d ← g.decl id
    return d.typeParams.zip args
  | .named id args (some outer) => do
    let d ← g.decl id
    let rest ← g.bindings outer
    return d.typeParams.zip args ++ rest
  | .param _ => return []
  | .array _ => return []
  | .unresolved => return []
termination_by structural t => t

/-- The types of the fields of a type, in order.  A type without constructor has no
fields, and neither has a type that is not declared. -/
def fieldTypes (g : Catalog) (t : Ty) : Except Fault (List Ty) :=
  match t.id? with
  | none => return []
  | some id => do
    let d ← g.decl id
    match d.longest? with
    | none => return []
    | some c => return Ty.substAll (← g.bindings t) c.params

end Catalog

end SwitchCoverage
