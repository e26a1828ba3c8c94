/-!
# Codes of findings

Each kind of finding has a fixed code, under which it is reported and explained.
Codes that start with `E3` are about patterns, those with `E9` about the metadata
that the analysis works on.

## Main definitions

* `Code` — the codes.
* `Code.text`, `Code.parse?` — a code as text, and back, in either letter case.
-/
namespace SwitchCoverage

/-- The code of a finding. -/
inductive Code where
  /-- A switch leaves some case out. -/
  | notExhaustive
  /-- A switch has a default arm that no value reaches. -/
  | redundantDefault
  /-- The type metadata cannot be analysed. -/
  | malformedMetadata
deriving DecidableEq, Repr, Inhabited

namespace Code

/-- All codes, in the order of their texts. -/
def all : List Code := [.notExhaustive, .redundantDefault, .malformedMetadata]

/-- The text of a code. -/
def text : Code → String
  | .notExhaustive => "E3001"
  | .redundantDefault => "E3002"
  | .malformedMetadata => "E9001"

/-- The code with the given text, capital or small.  ASCII letters are enough to look
at, since no other character has a capital that occurs in a code. -/
def parse? (s : String) : Option Code :=
  all.find? fun code => code.text.toList == s.toList.map Char.toUpper

/-- Whether a code is about patterns. -/
def isPatternError : Code → Bool
  | .notExhaustive => true
  | .redundantDefault => true
  | .malformedMetadata => false

/-- Whether a code is about the metadata and not about the switch. -/
def isInternalError (c : Code) : Bool := !c.isPatternError

theorem mem_all (c : Code) : c ∈ all := by cases c <;> decide

theorem parse?_text (c : Code) : parse? c.text = some c := by cases c <;> decide

end Code

end SwitchCoverage
