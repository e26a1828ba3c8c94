import SwitchCoverage.Json.Ty
import SwitchCoverage.Pattern.Basic

/-!
# Patterns as JSON

A pattern is a record with the keys `target` and `sub_patterns`, both of which may be
missing.  A list without entries under `sub_patterns` is not the same as no list.

## Main definitions

* `Pattern.toJson`, `Pattern.ofJson?`.
-/
namespace SwitchCoverage.Pattern

/-- The record of the parts of a pattern. -/
def record (target parts : Json) : Json := .obj [("target", target), ("sub_patterns", parts)]

mutual

/-- A pattern as a JSON value. -/
def toJson : Pattern → Json
  | .wildcard => record .null .null
  | .positional parts => record .null (.arr (toJsonAll parts))
  | .typed t => record t.toJson .null
  | .deconstructed t parts => record t.toJson (.arr (toJsonAll parts))
termination_by structural p => p

/-- The patterns of a list as JSON values. -/
def toJsonAll : List Pattern → List Json
  | [] => []
  | p :: ps => p.toJson :: toJsonAll ps
termination_by structural ps => ps

end

mutual

/-- The pattern that a value describes. -/
def ofJson? (j : Json) : Option Pattern :=
  match _h : j.record? ["target", "sub_patterns"] with
  | some [target, parts] => do
    let target ← Ty.optionOfJson? target
    let parts ← partsOfJson? parts
    return .ofParts target parts
  | _ => none
termination_by sizeOf j
decreasing_by exact Json.sizeOf_lt_of_mem_record? _h (by simp)

/-- The sub-patterns that a value lists, unless the value is `null`. -/
def partsOfJson? : Json → Option (Option (List Pattern))
  | .null => some none
  | .arr items => (allOfJson? items).map some
  | _ => none
termination_by j => sizeOf j

/-- The patterns that some values describe. -/
def allOfJson? : List Json → Option (List Pattern)
  | [] => some []
  | j :: js => do
    let p ← ofJson? j
    let ps ← allOfJson? js
    return p :: ps
termination_by js => sizeOf js

end

end SwitchCoverage.Pattern
