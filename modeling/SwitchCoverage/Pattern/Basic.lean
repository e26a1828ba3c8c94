import SwitchCoverage.Catalog.Naming
import SwitchCoverage.NameSet

/-!
# Patterns

A pattern as an arm of a switch writes it, reduced to what coverage depends on: the
type it tests for, if any, and the patterns for the fields, if it takes the value
apart.  A pattern that tests for no type counts as one that matches every value of
its position.

Each pattern that tests for a type covers one case: that type, together with the
variants that its sub-patterns test for.  A sub-pattern counts only if its target is a
variant of a closed hierarchy, and nothing below it counts.

## Main definitions

* `Pattern` — the four shapes of a pattern.
* `Pattern.target?`, `Pattern.parts?` — what a pattern tests for, and its sub-patterns.
* `Pattern.isCatchAll` — a pattern that tests for no type.
* `Pattern.inductionOn` — induction through sub-patterns.
* `Pattern.caseName?` — the name of the case that a pattern covers.
* `coveredNames` — the names of the cases that the patterns of a list cover.
* `hasCatchAll` — whether some pattern of a list tests for no type.
-/
namespace SwitchCoverage

/-- A pattern of an arm. -/
inductive Pattern where
  /-- Matches everything. -/
  | wildcard
  /-- Takes the value apart without a test of its type. -/
  | positional (parts : List Pattern)
  /-- Tests for a type. -/
  | typed (target : Ty)
  /-- Tests for a type and takes the value apart. -/
  | deconstructed (target : Ty) (parts : List Pattern)
deriving Repr, Inhabited

namespace Pattern

/-- The pattern with an optional target and optional sub-patterns. -/
def ofParts : Option Ty → Option (List Pattern) → Pattern
  | none, none => .wildcard
  | none, some parts => .positional parts
  | some t, none => .typed t
  | some t, some parts => .deconstructed t parts

/-- The type that a pattern tests for. -/
def target? : Pattern → Option Ty
  | .wildcard => none
  | .positional _ => none
  | .typed t => some t
  | .deconstructed t _ => some t

/-- The sub-patterns of a pattern that takes the value apart. -/
def parts? : Pattern → Option (List Pattern)
  | .wildcard => none
  | .positional parts => some parts
  | .typed _ => none
  | .deconstructed _ parts => some parts

@[simp] theorem target?_ofParts (t : Option Ty) (ps : Option (List Pattern)) :
    (ofParts t ps).target? = t := by
  cases t <;> cases ps <;> rfl

@[simp] theorem parts?_ofParts (t : Option Ty) (ps : Option (List Pattern)) :
    (ofParts t ps).parts? = ps := by
  cases t <;> cases ps <;> rfl

@[simp] theorem ofParts_target?_parts? (p : Pattern) : ofParts p.target? p.parts? = p := by
  cases p <;> rfl

/-- Whether a pattern tests for no type. -/
def isCatchAll (p : Pattern) : Bool := p.target?.isNone

/-- To prove a property of all patterns, prove it of a pattern whose sub-patterns have
it. -/
@[elab_as_elim]
theorem inductionOn {motive : Pattern → Prop} (p : Pattern)
    (wildcard : motive .wildcard)
    (positional : ∀ parts, (∀ q ∈ parts, motive q) → motive (.positional parts))
    (typed : ∀ target, motive (.typed target))
    (deconstructed : ∀ target parts, (∀ q ∈ parts, motive q) →
      motive (.deconstructed target parts)) : motive p :=
  @Pattern.rec motive (fun parts => ∀ q ∈ parts, motive q)
    wildcard positional typed deconstructed
    (by simp)
    (fun _ _ hp hps q hq => by
      rcases List.mem_cons.1 hq with rfl | hq
      · exact hp
      · exact hps q hq)
    p

/-! ## Covered names -/

/-- The target of a pattern, if it is a variant of a closed hierarchy. -/
def variantTarget? (g : Catalog) (p : Pattern) : Option Ty := p.target?.filter g.isVariant

/-- The variants that the sub-patterns of a pattern test for, in order. -/
def partVariants (g : Catalog) (p : Pattern) : List Ty :=
  (p.parts?.getD []).filterMap (·.variantTarget? g)

/-- The name of the case that a pattern covers; a catch-all has none. -/
def caseName? (g : Catalog) (p : Pattern) : Option String :=
  p.target?.map fun t => g.caseName t (p.partVariants g)

end Pattern

/-- The names of the cases that some pattern of a list covers. -/
def coveredNames (g : Catalog) (ps : List Pattern) : NameSet :=
  .ofList (ps.filterMap (·.caseName? g))

/-- Whether some pattern of a list tests for no type. -/
def hasCatchAll (ps : List Pattern) : Bool := ps.any (·.isCatchAll)

end SwitchCoverage
