import SwitchCoverage.Catalog.Fields
import SwitchCoverage.Catalog.Naming
import SwitchCoverage.NameSet
import SwitchCoverage.Switch.Config

/-!
# Expansion of a type into its cases

The leaves of a type are what remains when every closed type is replaced by its
variants, again and again, in the order of declaration.  Derivation can run in a
circle, so the replacement is cut off at a number of closed levels.

A field of a leaf is split when its own type has several leaves, all of them with a
name: a switch then has to tell these apart as well.

A switch on a closed type has to cover each leaf of the type.  A leaf with split fields
counts once for every way to choose one variant per split field.  The fields of these
variants are not looked at.

Where the cases cannot be listed, nothing is required: the type is not closed, or it or
one of its leaves lacks arguments.

## Main definitions

* `Catalog.leaves` — the leaves of a type under a depth limit.
* `SplitField`, `Catalog.splitFields` — the fields of a type that have to be told apart.
* `choices` — all ways to choose one entry from each list.
* `Catalog.leafCases` — the names of the cases of one leaf.
* `Catalog.requiredNames` — the names of all cases of a type.
-/
namespace SwitchCoverage

/-! ## Leaves -/

namespace Catalog

/-- The leaves of a type, where `remaining` more closed levels may be entered.  `limit` is
the number of levels that the failure names. -/
def leavesWithin (g : Catalog) (limit : Nat) : Nat → Ty → Except CheckError (List Ty)
  | 0, t => if g.isExpandable t then .error (.tooDeep (g.display t) limit) else .ok [t]
  | remaining + 1, t =>
    if g.isExpandable t then
      ((g.children t).mapM (g.leavesWithin limit remaining)).map List.flatten
    else .ok [t]

/-- The leaves of a type, in the order of declaration.  A type that cannot be expanded is
its own only leaf. -/
def leaves (g : Catalog) (limit : Nat) (t : Ty) : Except CheckError (List Ty) :=
  g.leavesWithin limit limit t

/-- Whether some type of a list lacks arguments. -/
def anyUnbound (g : Catalog) (ts : List Ty) : Bool := ts.any g.isUnbound

end Catalog

/-- A field whose type has several leaves. -/
structure SplitField where
  /-- The position among the fields. -/
  index : Nat
  /-- The leaves of its type, in order. -/
  variants : List Ty
deriving Repr, Inhabited

namespace Catalog

/-- Whether a field whose type has the given leaves is split. -/
def splits (g : Catalog) (variants : List Ty) : Bool :=
  1 < variants.length && !g.anyUnbound variants

/-- The split fields of a type, in order. -/
def splitFields (g : Catalog) (limit : Nat) (t : Ty) : Except CheckError (List SplitField) := do
  let fields ← (g.fieldTypes t).mapError .faulty
  let variants ← fields.mapM (g.leaves limit)
  return (variants.zipIdx.filter fun e => g.splits e.1).map fun e => ⟨e.2, e.1⟩

end Catalog

/-! ## Required names -/

/-- All ways to choose one entry from each list, in lexicographic order. -/
def choices {α : Type} : List (List α) → List (List α)
  | [] => [[]]
  | xs :: rest => xs.flatMap fun x => (choices rest).map (x :: ·)

namespace Catalog

/-- The names of the cases of one leaf: one for each choice of variants for its split
fields, and thus one if it has none. -/
def leafCases (g : Catalog) (limit : Nat) (leaf : Ty) : Except CheckError (List String) :=
  (g.splitFields limit leaf).map fun fields =>
    (choices (fields.map (·.variants))).map (g.caseName leaf)

/-- The names of the cases that a switch on a type has to cover; none if the cases of the
type cannot be listed. -/
def requiredNames (g : Catalog) (limit : Nat) (t : Ty) : Except CheckError NameSet :=
  if g.isExpandable t then do
    let leaves ← g.leaves limit t
    if g.anyUnbound leaves then return ∅
    else return .ofList (← leaves.mapM (g.leafCases limit)).flatten
  else .ok ∅

end Catalog

end SwitchCoverage
