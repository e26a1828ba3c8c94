import SwitchCoverage.Diagnostic.Code
import SwitchCoverage.Text

/-!
# Diagnostics

The report on one switch: which code and how severe, what is wrong, which cases are
matched and missing, and what to do about it.  The headline says what is wrong with the
switch, and the note lists the cases, in ascending order, whatever the order they come in.

## Main definitions

* `Message.headline`, `Message.note` — the wording of a report.
* `Diagnostic` — a report.
* `Diagnostic.ofCases` — the report on a switch with the given matched and missing cases.
* `Diagnostic.suggest`, `Diagnostic.escalate` — a report with one more suggestion, or as an error.
* `Diagnostic.render` — the text of a report.
-/
namespace SwitchCoverage

/-- How severe a finding is. -/
inductive Severity where
  /-- It must be mended. -/
  | error
  /-- It should be looked at. -/
  | warning
deriving DecidableEq, Repr, Inhabited

/-- The word for a severity. -/
def Severity.text : Severity → String
  | .error => "error"
  | .warning => "warning"

/-- All severities, the gravest first. -/
def Severity.all : List Severity := [.error, .warning]

/-- What a report is about. -/
inductive Finding where
  /-- Some case is not matched. -/
  | notExhaustive
  /-- Every case is matched, and there is a default arm all the same. -/
  | redundantDefault
deriving DecidableEq, Repr, Inhabited

/-- The code of a finding. -/
def Finding.code : Finding → Code
  | .notExhaustive => .notExhaustive
  | .redundantDefault => .redundantDefault

/-! ## Wording -/

namespace Message

/-- What is wrong with a switch on `base`: it misses cases, or, if it misses none, its
default arm is never taken. -/
def headline (base : String) (missing : List String) : String :=
  if missing.isEmpty then "Switch on " ++ base ++ " has redundant default arm"
  else "Switch on " ++ base ++ " is not exhaustive"

/-- A listing of names under a title; nothing if there are no names. -/
def listing (title : String) (names : List String) : List String :=
  if names.isEmpty then [] else [title ++ ": " ++ ", ".intercalate (Text.sortNames names)]

/-- The matched and the missing cases; a kind of which there are none is left out. -/
def note (matched missing : List String) : String :=
  "; ".intercalate (listing "Matched" matched ++ listing "Missing" missing)

end Message

/-! ## Reports -/

/-- A report on one switch. -/
structure Diagnostic where
  /-- The code. -/
  code : Code
  /-- How severe it is. -/
  severity : Severity
  /-- What it is about. -/
  finding : Finding
  /-- What is wrong, in one line. -/
  headline : String
  /-- The matched and missing cases, in one line. -/
  note : String
  /-- The matched cases. -/
  matched : List String
  /-- The missing cases. -/
  missing : List String
  /-- What to do about it. -/
  suggestions : List String
deriving DecidableEq, Repr, Inhabited

namespace Diagnostic

/-- The report on a switch on `base` that matches and misses the given cases.  If none is
missing, its default arm is redundant. -/
def ofCases (base : String) (matched missing : List String) : Diagnostic :=
  let finding : Finding := if missing.isEmpty then .redundantDefault else .notExhaustive
  { code := finding.code
    severity := .warning
    finding
    headline := Message.headline base missing
    note := Message.note matched missing
    matched := Text.sortNames matched
    missing := Text.sortNames missing
    suggestions := [] }

/-- The report with one more suggestion, after the others. -/
def suggest (suggestion : String) (d : Diagnostic) : Diagnostic :=
  { d with suggestions := d.suggestions ++ [suggestion] }

/-- The report as an error. -/
def escalate (d : Diagnostic) : Diagnostic := { d with severity := .error }

/-- Whether the report says that cases are missing. -/
def isNotExhaustive (d : Diagnostic) : Bool := d.finding == .notExhaustive

/-- Whether the report says that the default arm is redundant. -/
def isRedundantDefault (d : Diagnostic) : Bool := d.finding == .redundantDefault

/-- The lines of a report: the headline, then the note if there is one, then the
suggestions. -/
def lines (d : Diagnostic) : List String :=
  [d.severity.text ++ " [" ++ d.code.text ++ "]: " ++ d.headline]
    ++ (if d.note = "" then [] else ["  = note: " ++ d.note])
    ++ d.suggestions.map ("  = help: " ++ ·)

/-- The text of a report. -/
def render (d : Diagnostic) : String := "\n".intercalate d.lines

end Diagnostic

end SwitchCoverage
