import SwitchCoverage.Classes

/-!
# Equality of types

Two types are the same when they agree up to the links to the types they are
declared in, at every depth.  `Ty.same` decides that by walking both types, and
the hash of a type is made of the same parts, so that a hash table holds each type
once.  `Ty.erase` removes the links; it is the other way to say the same thing.

## Main definitions

* `Ty.same` — sameness, which is also the `==` of types.
* `Ty.feed` — the data that the hash of a type is made of.
* `Ty.erase` — a type without its container links.

## Main statements

* `Ty.same_iff_erase_eq` — types are the same just when they are equal without links.
-/
namespace SwitchCoverage

namespace Ty

mutual

/-- Whether two types agree up to container links. -/
def same : Ty → Ty → Bool
  | .named i as _, .named j bs _ => i == j && sameAll as bs
  | .param m, .param n => m == n
  | .array a, .array b => a.same b
  | .unresolved, .unresolved => true
  | _, _ => false
termination_by structural t => t

/-- Whether two lists of types agree, entry by entry, up to container links. -/
def sameAll : List Ty → List Ty → Bool
  | [], [] => true
  | a :: as, b :: bs => a.same b && sameAll as bs
  | _, _ => false
termination_by structural ts => ts

end

instance : BEq Ty := ⟨same⟩

/-! ## Hashing -/

mutual

/-- The data that the hash of a type is made of: its form, and the parts that sameness
compares. -/
def feed : Ty → List Datum
  | .named id args _ => .form 0 :: .decl id :: .count args.length :: feedAll args
  | .param name => [.form 1, .name name]
  | .array element => .form 2 :: element.feed
  | .unresolved => [.form 3]
termination_by structural t => t

/-- The data of the types of a list, one after the other. -/
def feedAll : List Ty → List Datum
  | [] => []
  | t :: ts => t.feed ++ feedAll ts
termination_by structural ts => ts

end

instance : Hashable Ty := ⟨fun t => Datum.digest t.feed⟩

theorem feedAll_eq_flatMap (ts : List Ty) : feedAll ts = ts.flatMap feed := by
  induction ts with
  | nil => rfl
  | cons t ts ih => simp [feedAll, ih]

/-! ## Types without links -/

mutual

/-- A type without the container links, at every depth. -/
def erase : Ty → Ty
  | .named id args _ => .named id (eraseAll args) none
  | .param name => .param name
  | .array element => .array element.erase
  | .unresolved => .unresolved
termination_by structural t => t

/-- The types of a list without their container links. -/
def eraseAll : List Ty → List Ty
  | [] => []
  | t :: ts => t.erase :: eraseAll ts
termination_by structural ts => ts

end

theorem eraseAll_eq_map (ts : List Ty) : eraseAll ts = ts.map erase := by
  induction ts with
  | nil => rfl
  | cons t ts ih => simp [eraseAll, ih]

theorem sameAll_iff_eraseAll_eq {as bs : List Ty}
    (h : ∀ a ∈ as, ∀ b, a.same b = true ↔ a.erase = b.erase) :
    sameAll as bs = true ↔ eraseAll as = eraseAll bs := by
  induction as generalizing bs with
  | nil => cases bs <;> simp [sameAll, eraseAll]
  | cons a as ih =>
    cases bs with
    | nil => simp [sameAll, eraseAll]
    | cons b bs => simp_all [sameAll, eraseAll]

/-- **Types are the same just when they are equal without links.** -/
theorem same_iff_erase_eq {t u : Ty} : t.same u = true ↔ t.erase = u.erase := by
  induction t using inductionOn generalizing u with
  | named id args container hargs _ =>
    have hall : ∀ bs, sameAll args bs = true ↔ eraseAll args = eraseAll bs :=
      fun _ => sameAll_iff_eraseAll_eq fun a ha _ => hargs a ha
    cases u <;> simp [same, erase, hall]
  | param name => cases u <;> simp [same, erase]
  | array element ih => cases u <;> simp [same, erase, ih]
  | unresolved => cases u <;> simp [same, erase]

end Ty

end SwitchCoverage
