import SwitchCoverage.Catalog.Basic

/-!
# Names of types

How a type is written in names and messages: `Result<Int32, String>`, `T[]`, `?`.
The arity mark that follows a backtick in a declared name is not shown.

A type that is declared in another shows the arguments of that other, since those
are what its declaration refers to: inside `Result<Int32, String>` the variant `Ok`
is written `Ok<Int32, String>`.  Of several enclosing types the outermost one that
has arguments counts; if none has, a type shows its own.

## Main definitions

* `Label` — a name in two parts, the name proper and the bracketed arguments.
* `Catalog.display` — the name of a type.
* `Catalog.bareName` — the name of a type without arguments.
* `Catalog.caseName` — the name of a case: a type, and the variants its fields are taken to be.
-/
namespace SwitchCoverage

/-- A name up to its first backtick, which starts the arity mark. -/
def dropArityMark (name : String) : String :=
  .ofList (name.toList.takeWhile (· != '\x60'))

/-- The names of arguments between angle brackets; nothing if there are none. -/
def bracketed (args : List String) : String :=
  if args.isEmpty then "" else "<" ++ ", ".intercalate args ++ ">"

/-- The name of a type in two parts. -/
structure Label where
  /-- The name proper. -/
  head : String
  /-- The bracketed arguments, or nothing. -/
  suffix : String
deriving DecidableEq, Repr, Inhabited

/-- The two parts together. -/
def Label.text (l : Label) : String := l.head ++ l.suffix

namespace Catalog

/-- The name of a declaration without arity mark, `?` if there is no such declaration. -/
def simpleName (g : Catalog) (id : DeclId) : String :=
  match g.decl? id with
  | some d => dropArityMark d.name
  | none => "?"

mutual

/-- The name of a type in two parts.  The arguments shown are those of the type it is
declared in, if that type shows any, and its own otherwise. -/
def label (g : Catalog) : Ty → Label
  | .named id args none => ⟨g.simpleName id, bracketed (g.displayAll args)⟩
  | .named id args (some outer) =>
    let inherited := (g.label outer).suffix
    ⟨g.simpleName id, if inherited = "" then bracketed (g.displayAll args) else inherited⟩
  | .param name => ⟨name, ""⟩
  | .array element => ⟨(g.label element).text ++ "[]", ""⟩
  | .unresolved => ⟨"?", ""⟩
termination_by structural t => t

/-- The names of the types of a list. -/
def displayAll (g : Catalog) : List Ty → List String
  | [] => []
  | t :: ts => (g.label t).text :: g.displayAll ts
termination_by structural ts => ts

end

/-- The name of a type. -/
def display (g : Catalog) (t : Ty) : String := (g.label t).text

theorem displayAll_eq_map (g : Catalog) (ts : List Ty) : g.displayAll ts = ts.map g.display := by
  induction ts with
  | nil => rfl
  | cons t ts ih => simp [displayAll, display, ih]

/-- The name of a type without arguments.  Here a parameter loses its arity mark too. -/
def bareName (g : Catalog) : Ty → String
  | .named id _ _ => g.simpleName id
  | .param name => dropArityMark name
  | .array element => g.bareName element ++ "[]"
  | .unresolved => "?"

/-- The name of the case in which a value has type `t` and some of its fields are the
given variants: `Error<Int32, E> with Timeout, Refused`. -/
def caseName (g : Catalog) (t : Ty) (fields : List Ty) : String :=
  if fields.isEmpty then g.display t
  else g.display t ++ " with " ++ ", ".intercalate (fields.map g.display)

theorem caseName_nil (g : Catalog) (t : Ty) : g.caseName t [] = g.display t := rfl

theorem caseName_of_ne_nil {fields : List Ty} (h : fields ≠ []) (g : Catalog) (t : Ty) :
    g.caseName t fields =
      g.display t ++ " with " ++ ", ".intercalate (fields.map g.display) := by
  rw [caseName, if_neg (by simpa using h)]

end Catalog

end SwitchCoverage
