import SwitchCoverage.Diagnostic.Basic
import SwitchCoverage.Json.Basic

/-!
# Diagnostics as JSON

Codes, severities and findings go by their names.  A report is a record with eight keys,
none of which may be missing.  Reading checks the shape of a report only: its lists need
not be sorted, and its texts need not fit its finding.

## Main definitions

* `Code.toJson`, `Code.ofJson?`.
* `Severity.toJson`, `Severity.ofJson?`.
* `Finding.toJson`, `Finding.ofJson?`.
* `Diagnostic.toJson`, `Diagnostic.ofJson?`.
-/
namespace SwitchCoverage

/-- A code as a JSON value. -/
def Code.toJson (c : Code) : Json := .str c.text

/-- The code that a value names, in capitals. -/
def Code.ofJson? (j : Json) : Option Code := j.alternative? Code.text Code.all

/-- The name of a severity. -/
def Severity.name : Severity → String
  | .error => "Error"
  | .warning => "Warning"

/-- A severity as a JSON value. -/
def Severity.toJson (s : Severity) : Json := .str s.name

/-- The severity that a value names. -/
def Severity.ofJson? (j : Json) : Option Severity := j.alternative? Severity.name Severity.all

/-- All findings. -/
def Finding.all : List Finding := [.notExhaustive, .redundantDefault]

/-- The name of a finding. -/
def Finding.name : Finding → String
  | .notExhaustive => "NotExhaustive"
  | .redundantDefault => "RedundantDefault"

/-- A finding as a JSON value. -/
def Finding.toJson (f : Finding) : Json := .str f.name

/-- The finding that a value names. -/
def Finding.ofJson? (j : Json) : Option Finding := j.alternative? Finding.name Finding.all

/-- The keys of a report with their values. -/
def Diagnostic.members (d : Diagnostic) : List (String × Json) :=
  [("code", d.code.toJson), ("severity", d.severity.toJson), ("kind", d.finding.toJson),
    ("main_message", .str d.headline), ("detail_message", .str d.note),
    ("matched", .ofStrings d.matched), ("missing", .ofStrings d.missing),
    ("suggestions", .ofStrings d.suggestions)]

/-- A report as a JSON value. -/
def Diagnostic.toJson (d : Diagnostic) : Json := .obj d.members

/-- The report that a value describes. -/
def Diagnostic.ofJson? (j : Json) : Option Diagnostic :=
  match j.record? ["code", "severity", "kind", "main_message", "detail_message", "matched",
      "missing", "suggestions"] with
  | some [code, severity, finding, headline, note, matched, missing, suggestions] => do
    let code ← Code.ofJson? code
    let severity ← Severity.ofJson? severity
    let finding ← Finding.ofJson? finding
    let headline ← headline.str?
    let note ← note.str?
    let matched ← matched.list? Json.str?
    let missing ← missing.list? Json.str?
    let suggestions ← suggestions.list? Json.str?
    return { code, severity, finding, headline, note, matched, missing, suggestions }
  | _ => none

end SwitchCoverage
