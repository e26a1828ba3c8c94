import SwitchCoverage.Catalog.Draft
import SwitchCoverage.Diagnostic.Code
import SwitchCoverage.Text

/-!
# Configuration and failures of the check

How deep a hierarchy may nest before its expansion is given up, and whether reports
carry suggestions.  The depth can be overridden by an environment variable; a value
that is no positive number is as good as none.

A check fails, and makes no statement about the switch, when a hierarchy nests deeper
than the limit or when a type refers to a declaration that is not there.

## Main definitions

* `Config` — the configuration.
* `Config.depth?` — the depth that the text of an override gives.
* `Config.ofOverride` — the default configuration under an optional override.
* `CheckError` — why a check failed, with its wording and its code.
-/
namespace SwitchCoverage

/-- The depth limit where nothing else is said. -/
def Config.defaultDepth : Nat := 64

/-- The configuration of the check. -/
structure Config where
  /-- How many closed levels a hierarchy may have. -/
  maxDepth : Nat := Config.defaultDepth
  /-- Whether reports say what to do. -/
  suggest : Bool := true
deriving DecidableEq, Repr, Inhabited

namespace Config

/-- The environment variable that overrides the depth limit. -/
def depthVariable : String := "SEAL_MAX_DEPTH"

/-- The largest depth limit that can be asked for. -/
def largestDepth : Nat := UInt64.size - 1

/-- The depth limit that the text of an override gives: a numeral between optional
blanks, at least one and at most `largestDepth`. -/
def depth? (value : String) : Option Nat :=
  (Text.unsigned? (Text.trimBlank value.toList)).filter fun n => 0 < n && n ≤ largestDepth

/-- The default configuration with the depth limit of an override, if it gives one. -/
def ofOverride (value : Option String) : Config :=
  { maxDepth := (value.bind depth?).getD defaultDepth }

end Config

/-! ## Failures -/

/-- Why a check failed. -/
inductive CheckError where
  /-- The named type lies deeper than `limit` closed levels. -/
  | tooDeep (type : String) (limit : Nat)
  /-- A look-up failed. -/
  | faulty (fault : Fault)
deriving DecidableEq, Repr, Inhabited

namespace CheckError

/-- The wording of a failure. -/
def message : CheckError → String
  | .tooDeep type limit =>
    "hierarchy of \x60" ++ type ++ "\x60 nests deeper than " ++ limit.repr
      ++ " levels (the depth limit); raise it with " ++ Config.depthVariable
      ++ " if the nesting is intended, otherwise the type metadata may be cyclic"
  | .faulty fault => fault.message

/-- The code of a failure.  Both kinds mean that the metadata is malformed. -/
def code (_ : CheckError) : Code := .malformedMetadata

end CheckError

end SwitchCoverage
