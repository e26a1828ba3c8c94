import SwitchCoverage.Decl
import SwitchCoverage.Json.Ty

/-!
# Declarations as JSON

A constructor is a record with the keys `visibility`, `is_static` and `params`.  A
declaration is a record with the keys `name`, `type_params`, `constructors`, `supertype`
and `container`, the last two of which may be missing.

## Main definitions

* `Visibility.toJson`, `Visibility.ofJson?`.
* `Constructor.toJson`, `Constructor.ofJson?`.
* `Decl.toJson`, `Decl.ofJson?`.
-/
namespace SwitchCoverage

namespace Visibility

/-- All visibilities. -/
def all : List Visibility := [.pub, .internal, .prot, .priv]

/-- The name of a visibility. -/
def text : Visibility → String
  | .pub => "Public"
  | .internal => "Internal"
  | .prot => "Protected"
  | .priv => "Private"

/-- A visibility as a JSON value. -/
def toJson (v : Visibility) : Json := .str v.text

/-- The visibility that a value names. -/
def ofJson? (j : Json) : Option Visibility := j.alternative? text all

end Visibility

/-- A constructor as a JSON value. -/
def Constructor.toJson (c : Constructor) : Json :=
  .obj [("visibility", c.visibility.toJson), ("is_static", .bool c.static),
    ("params", .arr (Ty.toJsonAll c.params))]

/-- The constructor that a value describes. -/
def Constructor.ofJson? (j : Json) : Option Constructor :=
  match j.record? ["visibility", "is_static", "params"] with
  | some [visibility, static, params] => do
    let visibility ← Visibility.ofJson? visibility
    let static ← static.bool?
    let params ← Ty.listOfJson? params
    return { visibility, static, params }
  | _ => none

/-- A declaration as a JSON value. -/
def Decl.toJson (d : Decl) : Json :=
  .obj [("name", .str d.name), ("type_params", .ofStrings d.typeParams),
    ("constructors", .arr (d.constructors.map Constructor.toJson)),
    ("supertype", .ofOption Ty.toJson d.supertype),
    ("container", .ofOption DeclId.toJson d.container)]

/-- The declaration that a value describes. -/
def Decl.ofJson? (j : Json) : Option Decl :=
  match j.record? ["name", "type_params", "constructors", "supertype", "container"] with
  | some [name, typeParams, constructors, supertype, container] => do
    let name ← name.str?
    let typeParams ← typeParams.list? Json.str?
    let constructors ← constructors.list? Constructor.ofJson?
    let supertype ← Ty.optionOfJson? supertype
    let container ← container.option? DeclId.ofJson?
    return { name, typeParams, constructors, supertype, container }
  | _ => none

end SwitchCoverage
