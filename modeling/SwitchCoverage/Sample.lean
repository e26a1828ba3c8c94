import SwitchCoverage.Catalog.Basic

/-!
# A sample catalog

Two closed hierarchies of the kind that programs use to report errors: a result with a
success and a failure, and an HTTP error that is either an exception or a response.  Both
are generic, and their variants refer to the type parameters of the type they are
declared in.

## Main definitions

* `Sample.Ids` — the positions of the declarations.
* `Sample.declareAll` — their addition to a draft.
* `Sample.catalog` — the catalog that holds nothing else.
-/
namespace SwitchCoverage.Sample

/-- The positions of the declarations that are referred to by name. -/
structure Ids where
  /-- A plain type. -/
  int32 : DeclId
  /-- A plain type. -/
  string : DeclId
  /-- The closed type of results. -/
  result : DeclId
  /-- The success of a result. -/
  ok : DeclId
  /-- The failure of a result. -/
  error : DeclId
  /-- The closed type of HTTP errors. -/
  httpError : DeclId
  /-- An HTTP error that is an exception. -/
  exceptionError : DeclId
  /-- An HTTP error that is a response. -/
  errorResponseError : DeclId
deriving DecidableEq, Repr, Inhabited

/-- Adds the declarations of the sample to a draft. -/
def declareAll : StateM Draft Ids := do
  let int32 ← Draft.declare { name := "Int32" }
  let string ← Draft.declare { name := "String" }
  let exception ← Draft.declare { name := "Exception" }
  let httpError ← Draft.declare
    { name := "HttpError", typeParams := ["TError"]
      constructors := [{ visibility := .priv, params := [] }] }
  let httpSuper := Ty.applied httpError [.param "TError"]
  let exceptionError ← Draft.declare
    { name := "ExceptionError", container := some httpError, supertype := some httpSuper
      constructors := [{ params := [.plain exception] }] }
  let errorResponseError ← Draft.declare
    { name := "ErrorResponseError", container := some httpError, supertype := some httpSuper
      constructors := [{ params := [.param "TError"] }] }
  let result ← Draft.declare
    { name := "Result", typeParams := ["TSuccess", "TFailure"]
      constructors := [{ visibility := .priv, params := [] }] }
  let resultSuper := Ty.applied result [.param "TSuccess", .param "TFailure"]
  let ok ← Draft.declare
    { name := "Ok", container := some result, supertype := some resultSuper
      constructors := [{ params := [.param "TSuccess"] }, { static := true, params := [] }] }
  let error ← Draft.declare
    { name := "Error", container := some result, supertype := some resultSuper
      constructors := [{ params := [.param "TFailure"] }] }
  return { int32, string, result, ok, error, httpError, exceptionError, errorResponseError }

/-- The positions in a catalog that holds the sample alone. -/
def ids : Ids := (declareAll.run {}).1

/-- The catalog that holds the sample alone. -/
def catalog : Catalog := ⟨(declareAll.run {}).2, by decide⟩

namespace Ids

/-- The type of results with the given success and failure. -/
def resultOf (ids : Ids) (success failure : Ty) : Ty := .applied ids.result [success, failure]

/-- The type of HTTP errors with the given response. -/
def httpErrorOf (ids : Ids) (response : Ty) : Ty := .applied ids.httpError [response]

/-- A result with a number or a text. -/
def resultIntString (ids : Ids) : Ty := ids.resultOf (.plain ids.int32) (.plain ids.string)

/-- An HTTP error with a text. -/
def httpErrorString (ids : Ids) : Ty := ids.httpErrorOf (.plain ids.string)

/-- A result with a text or an HTTP error. -/
def resultHttpError (ids : Ids) : Ty := ids.resultOf (.plain ids.string) ids.httpErrorString

end Ids

end SwitchCoverage.Sample
