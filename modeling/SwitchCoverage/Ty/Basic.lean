/-!
# Types

A type as a switch mentions it: a declared type with its arguments, a type
parameter, an array, or a type that could not be resolved.  A declared type may
remember the type it is declared in; that link supplies arguments and names, and
is no part of the type's identity.

A declaration is named by its position in a catalog.  Positions are 32-bit words,
and nothing here asks that a position exists: a type may mention declarations that
no catalog holds.

## Main definitions

* `DeclId` — the position of a declaration.
* `Ty` — a type.
* `Nominal` — the parts of a declared type.
* `Ty.mentions` — the declarations a type refers to, in reading order.
* `Ty.inductionOn` — induction through arguments and container links.
-/
namespace SwitchCoverage

/-- The position of a declaration in a catalog. -/
structure DeclId where
  /-- The position, counted from zero. -/
  index : UInt32
deriving DecidableEq, Hashable, Repr, Inhabited

namespace DeclId

/-- The position as a natural number. -/
def toNat (id : DeclId) : Nat := id.index.toNat

/-- The identifier at a position; positions from `2 ^ 32` on wrap around. -/
def ofNat (n : Nat) : DeclId := ⟨.ofNat n⟩

@[simp] theorem ofNat_toNat (id : DeclId) : ofNat id.toNat = id := by
  simp [ofNat, toNat]

theorem toNat_ofNat_of_lt {n : Nat} (h : n < UInt32.size) : (ofNat n).toNat = n := by
  simpa [ofNat, toNat] using h

/-- The text that stands for a declaration in messages. -/
def text (id : DeclId) : String := "def#" ++ id.toNat.repr

end DeclId

/-- A type as a switch, a pattern or a declaration mentions it. -/
inductive Ty where
  /-- A declared type with its arguments and, if known, the type it is declared in. -/
  | named (id : DeclId) (args : List Ty) (container : Option Ty)
  /-- A type parameter. -/
  | param (name : String)
  /-- An array of elements of one type. -/
  | array (element : Ty)
  /-- A type that could not be resolved. -/
  | unresolved
deriving Repr, Inhabited

/-- The parts of a declared type. -/
structure Nominal where
  /-- The declaration. -/
  id : DeclId
  /-- The type arguments, in order. -/
  args : List Ty
  /-- The type this one is declared in. -/
  container : Option Ty
deriving Repr, Inhabited

/-- The declared type with the given parts. -/
def Nominal.toTy (n : Nominal) : Ty := .named n.id n.args n.container

namespace Ty

/-- A declared type without arguments and container. -/
def plain (id : DeclId) : Ty := .named id [] none

/-- A declared type applied to arguments. -/
def applied (id : DeclId) (args : List Ty) : Ty := .named id args none

/-- The type `t`, declared in `outer`.  Only a declared type has such a link. -/
def within (t outer : Ty) : Ty :=
  match t with
  | .named id args _ => .named id args (some outer)
  | t => t

/-- The declaration of a declared type. -/
def id? : Ty → Option DeclId
  | .named id _ _ => some id
  | _ => none

/-- The arguments of a declared type; other types have none. -/
def args : Ty → List Ty
  | .named _ args _ => args
  | _ => []

/-- The type that a declared type says it is declared in. -/
def container? : Ty → Option Ty
  | .named _ _ container => container
  | _ => none

@[simp] theorem id?_named (id : DeclId) (as : List Ty) (c : Option Ty) :
    (named id as c).id? = some id := rfl

/-! ## Induction -/

/-- To prove a property of all types, prove it of a declared type whose arguments
and container have it, of an array whose element has it, and of the rest. -/
@[elab_as_elim]
theorem inductionOn {motive : Ty → Prop} (t : Ty)
    (named : ∀ id args container, (∀ a ∈ args, motive a) → (∀ c ∈ container, motive c) →
      motive (.named id args container))
    (param : ∀ name, motive (.param name))
    (array : ∀ element, motive element → motive (.array element))
    (unresolved : motive .unresolved) : motive t :=
  @Ty.rec motive (fun args => ∀ a ∈ args, motive a) (fun container => ∀ c ∈ container, motive c)
    (fun id args container ha hc => named id args container ha hc)
    param array unresolved
    (by simp)
    (fun _ _ ha hs x hx => by
      rcases List.mem_cons.1 hx with rfl | hx
      · exact ha
      · exact hs x hx)
    (by simp)
    (fun _ hc x hx => by
      obtain rfl : _ = x := by simpa using hx
      exact hc)
    t

/-! ## Mentioned declarations -/

mutual

/-- The declarations that a type refers to: its own, then those of its arguments
from left to right, then those of the type it is declared in. -/
def mentions : Ty → List DeclId
  | .named id args none => id :: mentionsAll args
  | .named id args (some outer) => id :: mentionsAll args ++ outer.mentions
  | .array element => element.mentions
  | .param _ => []
  | .unresolved => []
termination_by structural t => t

/-- The declarations that the types of a list refer to, from left to right. -/
def mentionsAll : List Ty → List DeclId
  | [] => []
  | t :: ts => t.mentions ++ mentionsAll ts
termination_by structural ts => ts

end

theorem mentionsAll_eq_flatMap (ts : List Ty) : mentionsAll ts = ts.flatMap mentions := by
  induction ts with
  | nil => rfl
  | cons t ts ih => simp [mentionsAll, ih]

theorem mentions_named (id : DeclId) (args : List Ty) (container : Option Ty) :
    (named id args container).mentions =
      id :: (args.flatMap mentions ++ container.toList.flatMap mentions) := by
  cases container <;> simp [mentions, mentionsAll_eq_flatMap]

end Ty

end SwitchCoverage
