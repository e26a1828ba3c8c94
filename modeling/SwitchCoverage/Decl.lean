import SwitchCoverage.Ty.Basic

/-!
# Declarations of types

What a host says about one declared type: its name and type parameters, its
constructors, the type it derives from, and the declaration it is nested in.
Everything else is worked out from these.

## Main definitions

* `Visibility`, `Constructor`, `Decl` — the declared data.
* `Decl.longest?` — the constructor whose parameters are the fields of the type.
* `Decl.isVariantOf` — whether a declaration is an immediate variant of another.
* `Decl.instantiate` — a variant as a type, in the context of its parent type.
-/
namespace SwitchCoverage

/-- Who may call a constructor. -/
inductive Visibility where
  /-- All code. -/
  | pub
  /-- Code of the same unit. -/
  | internal
  /-- The type and the types that derive from it. -/
  | prot
  /-- The type alone. -/
  | priv
deriving DecidableEq, Repr, Inhabited

/-- A constructor: who may call it, and the types of what it takes. -/
structure Constructor where
  /-- Who may call it. -/
  visibility : Visibility := .pub
  /-- Whether it initialises the type itself and makes no value. -/
  static : Bool := false
  /-- The types of its parameters, in order. -/
  params : List Ty
deriving Repr, Inhabited

/-- Whether a constructor lets all code make a value. -/
def Constructor.isOpen (c : Constructor) : Bool := !c.static && c.visibility == .pub

/-- The declaration of a type. -/
structure Decl where
  /-- The name, which may carry an arity mark after a backtick. -/
  name : String
  /-- The names of the type parameters, in order. -/
  typeParams : List String := []
  /-- The constructors, in order. -/
  constructors : List Constructor := []
  /-- The type that this one derives from. -/
  supertype : Option Ty := none
  /-- The declaration that this one is nested in. -/
  container : Option DeclId := none
deriving Repr, Inhabited

namespace Decl

/-- The number of type parameters. -/
def arity (d : Decl) : Nat := d.typeParams.length

/-- Whether some constructor lets all code make a value. -/
def isConstructible (d : Decl) : Bool := d.constructors.any (·.isOpen)

/-- The declaration with one more constructor, after the others. -/
def withConstructor (c : Constructor) (d : Decl) : Decl :=
  { d with constructors := d.constructors ++ [c] }

/-- The declaration nested in another. -/
def nestedIn (container : DeclId) (d : Decl) : Decl :=
  { d with container := some container }

/-- The declaration nested in another and deriving from a type. -/
def derivedFrom (container : DeclId) (supertype : Ty) (d : Decl) : Decl :=
  { d with container := some container, supertype := some supertype }

/-- The declaration that this one derives from. -/
def base? (d : Decl) : Option DeclId := d.supertype.bind (·.id?)

/-- A variant of `parent` is nested in it and derives from it. -/
def isVariantOf (parent : DeclId) (d : Decl) : Bool :=
  d.container == some parent && d.base? == some parent

theorem isVariantOf_iff {parent : DeclId} {d : Decl} :
    d.isVariantOf parent = true ↔ d.container = some parent ∧ d.base? = some parent := by
  simp [isVariantOf]

/-- The declarations that this one refers to: its container, then those of its
constructors' parameters, then those of its supertype. -/
def mentions (d : Decl) : List DeclId :=
  d.container.toList ++ d.constructors.flatMap (fun c => Ty.mentionsAll c.params)
    ++ Ty.mentionsAll d.supertype.toList

/-! ## Fields -/

/-- Of the constructors with the most parameters, the first. -/
def longestOf? : List Constructor → Option Constructor
  | [] => none
  | c :: cs =>
    match longestOf? cs with
    | none => some c
    | some rival => if c.params.length < rival.params.length then some rival else some c

/-- The constructor whose parameters are the fields of the type: the longest, and
the first of those that are equally long. -/
def longest? (d : Decl) : Option Constructor := longestOf? d.constructors

/-! ## Instances -/

/-- The declaration `d`, which stands at `id`, as a type declared in `parent`.  It takes
over the arguments of `parent` if it has as many parameters; otherwise it gets none. -/
def instantiate (d : Decl) (id : DeclId) (parent : Ty) : Ty :=
  let args := if 0 < d.arity ∧ d.arity = parent.args.length then parent.args else []
  .named id args (some parent)

end Decl

end SwitchCoverage
