import SwitchCoverage.Catalog.Draft

/-!
# Catalogs

A catalog is a draft without fault: every position that a declaration refers to is
filled, and no declaration derives from itself.  A catalog does not change.
Derivation may still run in a circle through several declarations.

A declaration is closed when outside code cannot make a value of it directly, and
at least one declaration nested in it derives from it.  Every value of a closed
type then belongs to one of these variants, which may be closed in turn.

## Main definitions

* `Catalog` — the declarations of one unit of analysis.
* `Draft.finish` — a draft as a catalog, or its first fault.
* `Catalog.decl` — a look-up that names a missing declaration.
* `Catalog.find?` — a look-up by name.
* `Catalog.variants` — the immediate variants of a declaration.
* `Catalog.isClosedDecl`, `Catalog.isClosed` — closed declarations and types.
* `Catalog.isUnbound` — a generic type without its full set of arguments.
* `Catalog.isExpandable` — a closed type whose variants can be named.
* `Catalog.children` — the immediate variants of a type, as types.
* `Catalog.isVariant` — a type that is a variant of a closed declaration, and not closed.
-/
namespace SwitchCoverage

/-- The declarations of one unit of analysis. -/
structure Catalog extends Draft where
  /-- The declarations have no fault. -/
  faultless : toDraft.fault? = none

/-- A draft as a catalog, or the first fault that prevents it. -/
def Draft.finish (g : Draft) : Except Fault Catalog :=
  match h : g.fault? with
  | none => .ok ⟨g, h⟩
  | some fault => .error fault

namespace Catalog

/-- The catalog without declarations. -/
def empty : Catalog := ⟨{}, rfl⟩

instance : Inhabited Catalog := ⟨empty⟩

/-- The declaration at a position, or the fault that there is none. -/
def decl (g : Catalog) (id : DeclId) : Except Fault Decl :=
  match g.decl? id with
  | some d => .ok d
  | none => .error (.unknownDecl id)

/-- The first position whose declaration has the given name, arity mark included. -/
def find? (g : Catalog) (name : String) : Option DeclId :=
  (g.entries.find? fun e => e.2.name == name).map (·.1)

/-! ## Closed hierarchies -/

/-- The immediate variants of a declaration, with their positions, in order. -/
def variantEntries (g : Catalog) (parent : DeclId) : List (DeclId × Decl) :=
  g.entries.filter fun e => e.2.isVariantOf parent

/-- The positions of the immediate variants of a declaration, in order. -/
def variants (g : Catalog) (parent : DeclId) : List DeclId :=
  (g.variantEntries parent).map (·.1)

/-- Whether a declaration can be made by none but its variants, and has some. -/
def isClosedDecl (g : Catalog) (id : DeclId) : Bool :=
  match g.decl? id with
  | some d => !d.isConstructible && !(g.variants id).isEmpty
  | none => false

/-- Whether a type is declared, and its declaration is closed. -/
def isClosed (g : Catalog) (t : Ty) : Bool := t.id?.any g.isClosedDecl

/-- Whether a type is generic and not given exactly its number of arguments.  The
variants of such a type have no names. -/
def isUnbound (g : Catalog) : Ty → Bool
  | .named id args _ => (g.decl? id).any fun d => 0 < d.arity && args.length != d.arity
  | _ => false

/-- Whether a type is closed and its variants can be named. -/
def isExpandable (g : Catalog) (t : Ty) : Bool := g.isClosed t && !g.isUnbound t

/-- A declaration as a type in the context of a parent type. -/
def instantiate (g : Catalog) (parent : Ty) (id : DeclId) : Except Fault Ty :=
  (g.decl id).map fun d => d.instantiate id parent

/-- The immediate variants of a type, instantiated in it, in order. -/
def children (g : Catalog) (t : Ty) : List Ty :=
  match t.id? with
  | some parent => (g.variantEntries parent).map fun e => e.2.instantiate e.1 t
  | none => []

/-- Whether a type is a variant of some closed declaration, and not itself closed. -/
def isVariant (g : Catalog) (t : Ty) : Bool :=
  t.id?.any fun id =>
    (g.decl? id).any fun d =>
      !g.isClosedDecl id && d.container.any fun p => g.isClosedDecl p && (g.variants p).contains id

end Catalog

end SwitchCoverage
