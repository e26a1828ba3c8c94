import SwitchCoverage.Diagnostic.Basic
import SwitchCoverage.Pattern.Basic
import SwitchCoverage.Switch.Expansion

/-!
# The check of a switch

A switch is compared with the cases of the type it switches on.  If some required case
is covered by no arm, the switch is not exhaustive.  If all are covered and there is a
default arm nevertheless, that arm is never taken.  At most one of the two is reported.

Where no case is required, one thing can still be said: an arm that tests for the very
type of the switch leaves nothing to a default arm.

## Main definitions

* `Switch` — a switch, with the type it switches on and its arms.
* `Switch.judge` — the report on a switch, given the required cases.
* `Switch.check`, `checkAll` — the check of one switch, and of several.
-/
namespace SwitchCoverage

/-- A switch. -/
structure Switch where
  /-- The type that it switches on. -/
  scrutinee : Ty
  /-- The patterns of its arms, in order. -/
  arms : List Pattern
  /-- Whether some arm is taken for every value. -/
  catchAll : Bool
deriving Repr, Inhabited

namespace Switch

/-- The switch whose default arm is any arm that tests for no type. -/
def ofArms (scrutinee : Ty) (arms : List Pattern) : Switch :=
  ⟨scrutinee, arms, hasCatchAll arms⟩

/-- What to do about missing cases, or about a default arm if none is missing. -/
def advice (missing : List String) : String :=
  if missing.isEmpty then "remove the default arm"
  else "add arms for: " ++ ", ".intercalate missing

/-- The report on a switch that matches and misses the given cases. -/
def report (g : Catalog) (cfg : Config) (s : Switch) (matched missing : List String) :
    Diagnostic :=
  let d := Diagnostic.ofCases (g.bareName s.scrutinee) matched missing
  if cfg.suggest then d.suggest (advice d.missing) else d

/-- Whether some arm covers the case that has the name of the type of the switch. -/
def coversItself (g : Catalog) (s : Switch) : Bool :=
  s.arms.any fun p => p.caseName? g == some (g.display s.scrutinee)

/-- The report on a switch for which no case is required. -/
def judgeOpen (g : Catalog) (cfg : Config) (s : Switch) : Option Diagnostic :=
  if s.catchAll && s.coversItself g then some (s.report g cfg [g.display s.scrutinee] [])
  else none

/-- The report on a switch for which some case is required. -/
def judgeClosed (g : Catalog) (cfg : Config) (s : Switch) (required : NameSet) :
    Option Diagnostic :=
  let covered := coveredNames g s.arms
  let missing := required \ covered
  if missing.isEmpty && !s.catchAll then none
  else some (s.report g cfg covered.toList missing.toList)

/-- The report on a switch, given the required cases. -/
def judge (g : Catalog) (cfg : Config) (s : Switch) (required : NameSet) : Option Diagnostic :=
  if required.isEmpty then s.judgeOpen g cfg else s.judgeClosed g cfg required

/-- The check of a switch: a report, or nothing to report, or a failure. -/
def check (g : Catalog) (cfg : Config) (s : Switch) : Except CheckError (Option Diagnostic) :=
  (g.requiredNames cfg.maxDepth s.scrutinee).map (s.judge g cfg)

end Switch

/-- The checks of several switches, each on its own. -/
def checkAll (g : Catalog) (cfg : Config) (switches : List Switch) :
    List (Except CheckError (Option Diagnostic)) :=
  switches.map (·.check g cfg)

end SwitchCoverage
