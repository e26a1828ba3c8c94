import SwitchCoverage.Json.Basic
import SwitchCoverage.Ty.Basic

/-!
# Types as JSON

A type is a tagged value: `"Unresolved"`, or an object with the key `Param`, `Array` or
`Named`.  Under `Named` stands a record with the keys `def`, `args` and `container`, the
last of which may be missing.

## Main definitions

* `DeclId.toJson`, `DeclId.ofJson?` — positions.
* `Ty.toJson`, `Ty.ofJson?` — types.
* `Nominal.toJson`, `Nominal.ofJson?` — the parts of declared types.
-/
namespace SwitchCoverage

/-- A position as a JSON value. -/
def DeclId.toJson (id : DeclId) : Json := .ofNat id.toNat

/-- The position that a value is: an integer below `2 ^ 32`. -/
def DeclId.ofJson? (j : Json) : Option DeclId :=
  (j.nat?.filter (· < UInt32.size)).map .ofNat

/-- The record of the parts of a declared type. -/
def Nominal.record (id args container : Json) : Json :=
  .obj [("def", id), ("args", args), ("container", container)]

/-! ## Writing -/

mutual

/-- A type as a JSON value. -/
def Ty.toJson : Ty → Json
  | .named id args none =>
    .obj [("Named", Nominal.record id.toJson (.arr (Ty.toJsonAll args)) .null)]
  | .named id args (some outer) =>
    .obj [("Named", Nominal.record id.toJson (.arr (Ty.toJsonAll args)) outer.toJson)]
  | .param name => .obj [("Param", .str name)]
  | .array element => .obj [("Array", element.toJson)]
  | .unresolved => .str "Unresolved"
termination_by structural t => t

/-- The types of a list as JSON values. -/
def Ty.toJsonAll : List Ty → List Json
  | [] => []
  | t :: ts => t.toJson :: Ty.toJsonAll ts
termination_by structural ts => ts

end

/-- The parts of a declared type as a JSON value. -/
def Nominal.toJson (n : Nominal) : Json :=
  Nominal.record n.id.toJson (.arr (Ty.toJsonAll n.args)) (.ofOption Ty.toJson n.container)

/-! ## Reading -/

mutual

/-- The type that a value is. -/
def Ty.ofJson? (j : Json) : Option Ty :=
  match _h : j.tagged? with
  | some ("Unresolved", .null) => some .unresolved
  | some ("Param", .str name) => some (.param name)
  | some ("Array", value) => (Ty.ofJson? value).map .array
  | some ("Named", value) => (Nominal.ofJson? value).map Nominal.toTy
  | _ => none
termination_by (sizeOf j, 0)
decreasing_by all_goals exact .left _ _ (Json.sizeOf_lt_of_tagged? _h)

/-- The parts of a declared type that a value holds. -/
def Nominal.ofJson? (j : Json) : Option Nominal :=
  match _h : j.record? ["def", "args", "container"] with
  | some [id, args, container] => do
    let id ← DeclId.ofJson? id
    let args ← Ty.listOfJson? args
    let container ← Ty.optionOfJson? container
    return ⟨id, args, container⟩
  | _ => none
termination_by (sizeOf j, 0)
decreasing_by all_goals exact .left _ _ (Json.sizeOf_lt_of_mem_record? _h (by simp))

/-- The types that a list holds. -/
def Ty.listOfJson? : Json → Option (List Ty)
  | .arr items => Ty.allOfJson? items
  | _ => none
termination_by j => (sizeOf j, 0)
decreasing_by exact .left _ _ (by simp only [Json.arr.sizeOf_spec]; omega)

/-- The types that some values are. -/
def Ty.allOfJson? : List Json → Option (List Ty)
  | [] => some []
  | j :: js => do
    let t ← Ty.ofJson? j
    let ts ← Ty.allOfJson? js
    return t :: ts
termination_by js => (sizeOf js, 0)
decreasing_by all_goals exact .left _ _ (by simp only [List.cons.sizeOf_spec]; omega)

/-- The type that a value is, unless the value is `null`. -/
def Ty.optionOfJson? : Json → Option (Option Ty)
  | .null => some none
  | j => (Ty.ofJson? j).map some
termination_by j => (sizeOf j, 1)
decreasing_by exact .right _ Nat.zero_lt_one

end

end SwitchCoverage
