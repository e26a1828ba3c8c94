import SwitchCoverage.Diagnostic.Code

/-!
# Explanations of codes

The pages that explain the codes at length, each as its lines.

## Main definitions

* `Explanation.pages` — the pages, by code.
* `Explanation.page?` — the text of the page for a code.
-/
namespace SwitchCoverage.Explanation

/-- The page on switches that leave some case out. -/
def notExhaustive : List String :=
  [ "# E3001: Switch is not exhaustive",
    "",
    "A switch over a closed hierarchy does not handle every variant.",
    "",
    "A closed hierarchy is an abstract type with no public constructor whose",
    "concrete variants are all declared inside it. Because the set of variants is",
    "fixed, the checker can list every one of them and compare that list with the",
    "arms of the switch.",
    "",
    "## Example",
    "",
    "\x60\x60\x60text",
    "abstract record Result<TSuccess, TFailure> \x7b",
    "    private Result() \x7b\x7d",
    "    record Ok(TSuccess Value) : Result<TSuccess, TFailure>;",
    "    record Error(TFailure Failure) : Result<TSuccess, TFailure>;",
    "\x7d",
    "",
    "var text = result switch \x7b",
    "    Result<int, string>.Ok ok => ok.Value.ToString(),",
    "    _ => \"unknown\",",
    "\x7d;",
    "\x60\x60\x60",
    "",
    "\x60\x60\x60text",
    "warning [E3001]: Switch on Result is not exhaustive",
    "  = note: Matched: Ok<Int32, String>; Missing: Error<Int32, String>",
    "\x60\x60\x60",
    "",
    "The catch-all arm hides the fact that \x60Error\x60 is never handled explicitly.",
    "",
    "## Nested variants",
    "",
    "When a variant has a field whose type is itself a closed hierarchy with more",
    "than one variant, each combination must be matched:",
    "",
    "\x60\x60\x60text",
    "Missing: Error<String, HttpError<String>> with ErrorResponseError<String>",
    "\x60\x60\x60",
    "",
    "Decompose the variant positionally to cover each combination:",
    "",
    "\x60\x60\x60text",
    "Result<string, HttpError<string>>.Error(HttpError<string>.ErrorResponseError) => ...",
    "\x60\x60\x60",
    "",
    "## Solution",
    "",
    "Add an arm for every name listed under \x60Missing\x60." ]

/-- The page on default arms that no value reaches. -/
def redundantDefault : List String :=
  [ "# E3002: Switch has redundant default arm",
    "",
    "Every variant of the closed hierarchy is already matched explicitly, so the",
    "catch-all arm (\x60_\x60, \x60default\x60, or an unconstrained binding) can never run.",
    "",
    "## Example",
    "",
    "\x60\x60\x60text",
    "var text = result switch \x7b",
    "    Result<int, string>.Ok ok => \"ok\",",
    "    Result<int, string>.Error err => \"error\",",
    "    _ => \"unreachable\",",
    "\x7d;",
    "\x60\x60\x60",
    "",
    "\x60\x60\x60text",
    "warning [E3002]: Switch on Result has redundant default arm",
    "  = note: Matched: Error<Int32, String>, Ok<Int32, String>",
    "\x60\x60\x60",
    "",
    "The same warning is reported for a switch over an ordinary type when one arm",
    "matches that type itself and a catch-all follows it.",
    "",
    "## Solution",
    "",
    "Remove the catch-all arm. If a new variant is added later, the switch will be",
    "reported as not exhaustive instead of silently falling into the default." ]

/-- The page on metadata that cannot be analysed. -/
def malformedMetadata : List String :=
  [ "# E9001: Malformed type metadata",
    "",
    "The host handed the checker a type graph it cannot analyze. This is a bug in",
    "the host's translation of its own symbols, not in the code being checked.",
    "",
    "Possible causes:",
    "",
    "- a derivation cycle (hierarchy nesting deeper than the configured limit)",
    "- a type reference pointing at a definition that is not in the graph",
    "",
    "## Solution",
    "",
    "Fix the host's metadata export. If the hierarchy is legitimately very deep,",
    "raise the limit with \x60SEAL_MAX_DEPTH\x60." ]

/-- The pages, by code. -/
def pages : List (Code × List String) :=
  [(.notExhaustive, notExhaustive), (.redundantDefault, redundantDefault),
    (.malformedMetadata, malformedMetadata)]

/-- The codes that have a page. -/
def codes : List Code := pages.map (·.1)

/-- The text of the page for a code; every line of it is ended. -/
def page? (code : Code) : Option String :=
  (pages.lookup code).map fun lines => .join (lines.map (· ++ "\n"))

end SwitchCoverage.Explanation
