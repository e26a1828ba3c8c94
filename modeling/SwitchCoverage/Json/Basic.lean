/-!
# JSON values

The values that data is exchanged in, and the two shapes that readers look for.

A *record* has a fixed list of keys.  It is written as an object; read may also be an
array of its values in the order of the keys.  Keys that are missing from an object
count as `null`, and keys that are not asked for are passed over.

A *tagged* value is one of several alternatives.  It is an object with the name of the
alternative as its only key, or, if nothing but `null` would stand there, that name
alone.

## Main definitions

* `Json` — a value.
* `Json.record?`, `Json.tagged?` — the parts of a record and of a tagged value.
* `Json.alternative?` — a tagged value without content.

## Main statements

* `Json.sizeOf_lt_of_mem_record?`, `Json.sizeOf_lt_of_tagged?` — the parts are smaller than the
  whole, so that readers end.
-/
namespace SwitchCoverage

/-- A JSON value.  How a number is written belongs to the value: `10` is an integer, while
`10.0` and `1e1` are not. -/
inductive Json where
  /-- The null value. -/
  | null
  /-- A truth value. -/
  | bool (b : Bool)
  /-- A number written as an integer. -/
  | integer (n : Int)
  /-- A number written with a fraction or an exponent, or with a sign before zero.  Its
  value is `mantissa` divided by `10 ^ scale`. -/
  | decimal (mantissa : Int) (scale : Nat)
  /-- A text. -/
  | str (s : String)
  /-- A list of values. -/
  | arr (items : List Json)
  /-- Values under keys. -/
  | obj (members : List (String × Json))
deriving Repr, Inhabited

namespace Json

/-- A natural number as a JSON value. -/
def ofNat (n : Nat) : Json := .integer (.ofNat n)

/-- A list of texts as a JSON value. -/
def ofStrings (texts : List String) : Json := .arr (texts.map .str)

/-- The JSON value of something that may be missing. -/
def ofOption {α : Type} (write : α → Json) : Option α → Json
  | some a => write a
  | none => .null

/-! ## Plain readers -/

/-- The truth value that a value is. -/
def bool? : Json → Option Bool
  | .bool b => some b
  | _ => none

/-- The text that a value is. -/
def str? : Json → Option String
  | .str s => some s
  | _ => none

/-- The natural number that a value is, written as an integer. -/
def nat? : Json → Option Nat
  | .integer (.ofNat n) => some n
  | _ => none

/-- The items of a list. -/
def items? : Json → Option (List Json)
  | .arr items => some items
  | _ => none

/-- The entries of a list whose items can all be read. -/
def list? {α : Type} (read : Json → Option α) (j : Json) : Option (List α) :=
  j.items?.bind (·.mapM read)

/-- What is read from a value that may be missing. -/
def option? {α : Type} (read : Json → Option α) : Json → Option (Option α)
  | .null => some none
  | j => (read j).map some

/-! ## Records and tagged values -/

/-- The value under a key, `null` if the key is missing. -/
def member (members : List (String × Json)) (key : String) : Json :=
  (members.lookup key).getD .null

/-- The values of a record with the given keys, in the order of the keys. -/
def record? (keys : List String) : Json → Option (List Json)
  | .obj members => some (keys.map (member members))
  | .arr items => if items.length = keys.length then some items else none
  | _ => none

/-- The alternative of a tagged value, and what stands under it. -/
def tagged? : Json → Option (String × Json)
  | .str name => some (name, .null)
  | .obj [entry] => some entry
  | _ => none

/-- Which of several alternatives without content a tagged value names. -/
def alternative? {α : Type} (name : α → String) (all : List α) (j : Json) : Option α :=
  match j.tagged? with
  | some (tag, .null) => all.find? (name · == tag)
  | _ => none

/-! ## Parts are smaller -/

theorem sizeOf_member_lt (members : List (String × Json)) (key : String) :
    sizeOf (member members key) < sizeOf (obj members) := by
  induction members with
  | nil => simp [member]
  | cons entry rest ih =>
    obtain ⟨name, value⟩ := entry
    simp only [member, List.lookup_cons] at ih ⊢
    split
    · simp only [Option.getD_some, obj.sizeOf_spec, List.cons.sizeOf_spec, Prod.mk.sizeOf_spec]
      omega
    · simp only [obj.sizeOf_spec, List.cons.sizeOf_spec] at ih ⊢
      omega

theorem sizeOf_lt_of_mem_record? {keys : List String} {j x : Json} {values : List Json}
    (h : j.record? keys = some values) (hx : x ∈ values) : sizeOf x < sizeOf j := by
  cases j with
  | obj members =>
    obtain rfl : keys.map (member members) = values := by simpa [record?] using h
    obtain ⟨key, -, rfl⟩ := List.mem_map.1 hx
    exact sizeOf_member_lt members key
  | arr items =>
    rw [record?] at h
    split at h
    · obtain rfl : items = values := by simpa using h
      have := List.sizeOf_lt_of_mem hx
      simp only [arr.sizeOf_spec]
      omega
    · simp at h
  | _ => simp [record?] at h

theorem sizeOf_lt_of_tagged? {j value : Json} {name : String}
    (h : j.tagged? = some (name, value)) : sizeOf value < sizeOf j := by
  unfold tagged? at h
  split at h
  · next text =>
    obtain rfl : Json.null = value := by simp_all
    have : 0 < sizeOf text := by
      cases text
      simp only [String.ofByteArray.sizeOf_spec]
      omega
    simp only [null.sizeOf_spec, str.sizeOf_spec]
    omega
  · next entry =>
    obtain rfl : entry = (name, value) := by simpa using h
    simp only [obj.sizeOf_spec, List.cons.sizeOf_spec, Prod.mk.sizeOf_spec]
    omega
  · simp at h

end Json

end SwitchCoverage
