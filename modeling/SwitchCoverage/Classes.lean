import Std.Data.HashSet
import SwitchCoverage.Ty.Basic

/-!
# Hashing and classes of equal entries

A hash function sees no values.  It is fed with data, piece by piece, and a value is hashed
by the data that it feeds to the function.  The data of a list are those of its entries, one
after the other.

How the entries of a list fall into classes is settled by the `==` of their type, and a hash
table finds the classes through the hashes.

## Main definitions

* `Datum` — a piece of the data that hashes are made of.
* `distinctCount` — the number of classes that a hash table finds.
* `firstEqual` — for each entry, the position of the first entry of its class.

## Main statements

* `map_eq_of_flatMap_append` — the data of a list tell its entries apart.
-/
namespace SwitchCoverage

/-! ## Data -/

/-- A piece of the data that hashes are made of. -/
inductive Datum where
  /-- Which of its forms a value has. -/
  | form (index : Nat)
  /-- How many entries follow. -/
  | count (entries : Nat)
  /-- A declaration. -/
  | decl (id : DeclId)
  /-- A name. -/
  | name (name : String)
deriving DecidableEq, Hashable, Repr, Inhabited

/-- The hash that is made of some data. -/
def Datum.digest (data : List Datum) : UInt64 := data.foldl (fun h d => mixHash h (hash d)) 7

/-- Suppose that rows of data that begin with those of an entry tell its key and where its data end.
Then rows that begin with the data of a list of known length tell all keys and where the list
ends. -/
theorem map_eq_of_flatMap_append {α β δ : Type} {feed : α → List δ} {key : α → β}
    {xs ys : List α} {rest rest' : List δ} (hlength : xs.length = ys.length)
    (hmem : ∀ x ∈ xs, ∀ y r r', feed x ++ r = feed y ++ r' → key x = key y ∧ r = r')
    (h : xs.flatMap feed ++ rest = ys.flatMap feed ++ rest') :
    xs.map key = ys.map key ∧ rest = rest' := by
  induction xs generalizing ys with
  | nil =>
    obtain rfl : ys = [] := List.length_eq_zero_iff.1 hlength.symm
    exact ⟨rfl, h⟩
  | cons x xs ih =>
    cases ys with
    | nil => cases hlength
    | cons y ys =>
      simp only [List.flatMap_cons, List.append_assoc] at h
      obtain ⟨hkey, hrest⟩ := hmem x (.head _) y _ _ h
      obtain ⟨hkeys, hend⟩ :=
        ih (Nat.succ.inj hlength) (fun x' hx' => hmem x' (.tail _ hx')) hrest
      exact ⟨by rw [List.map_cons, List.map_cons, hkey, hkeys], hend⟩

/-! ## Classes -/

/-- The number of entries that a hash set keeps of a list. -/
def distinctCount {α : Type} [BEq α] [Hashable α] (xs : List α) : Nat :=
  (Std.HashSet.ofList xs).size

/-- For each entry of a list, the position of the first entry equal to it. -/
def firstEqual {α : Type} [BEq α] (xs : List α) : List Nat :=
  xs.map fun x => xs.findIdx (· == x)

end SwitchCoverage
