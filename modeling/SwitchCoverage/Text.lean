/-!
# Texts

What the configuration and the reports need to know of texts: which characters are blank,
which number a row of digits denotes, and how names are put in order.

The blank characters are those with the Unicode `White_Space` property.  Core's
`Char.isWhitespace` knows only four of the ASCII blanks, so the table is written out.

A number is written with ASCII digits.  Leading zeros are fine, one plus sign may stand in
front, and nothing else may: no minus sign, no separator, no blank.

Names are compared by code point, which is also the byte order of their UTF-8 encodings.
`sortNames` keeps repeated names; `NameSet` is the place where each name occurs once.

## Main definitions

* `trimBlank` — a text without the blanks at its two ends.
* `unsigned?` — the number that a numeral denotes.
* `sortNames` — the names of a list in ascending order.
-/
namespace SwitchCoverage.Text

/-! ## Blank characters -/

/-- The code points of blank characters, as ascending inclusive ranges. -/
def blankRanges : List (Nat × Nat) :=
  [(0x09, 0x0d), (0x20, 0x20), (0x85, 0x85), (0xa0, 0xa0), (0x1680, 0x1680),
    (0x2000, 0x200a), (0x2028, 0x2029), (0x202f, 0x202f), (0x205f, 0x205f), (0x3000, 0x3000)]

/-- Whether a character has the `White_Space` property. -/
def isBlank (c : Char) : Bool :=
  blankRanges.any fun r => r.1 ≤ c.toNat && c.toNat ≤ r.2

/-- A text without its leading and trailing blanks; blanks inside it stay. -/
def trimBlank (cs : List Char) : List Char :=
  ((cs.dropWhile isBlank).reverse.dropWhile isBlank).reverse

/-! ## Numerals -/

/-- The value of an ASCII digit. -/
def digit? (c : Char) : Option Nat :=
  if '0' ≤ c ∧ c ≤ '9' then some (c.toNat - '0'.toNat) else none

/-- The number that a row of digit values denotes, the most significant first. -/
def ofDigitValues (ds : List Nat) : Nat :=
  ds.foldl (fun n d => 10 * n + d) 0

/-- The number that one or more digits denote. -/
def natural? : List Char → Option Nat
  | [] => none
  | c :: cs => ((c :: cs).mapM digit?).map ofDigitValues

/-- The number that digits after an optional plus sign denote. -/
def unsigned? : List Char → Option Nat
  | '+' :: cs => natural? cs
  | cs => natural? cs

/-! ## Names in ascending order -/

/-- Puts a name before the first name that is not below it. -/
def insertName (n : String) : List String → List String
  | [] => [n]
  | m :: ms => if m < n then m :: insertName n ms else n :: m :: ms

/-- The names of a list in ascending order, repetitions included. -/
def sortNames (names : List String) : List String :=
  names.foldr insertName []

end SwitchCoverage.Text
