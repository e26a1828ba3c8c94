/-!
# Finite sets of names

A set of names is kept as its strictly ascending list, so that two sets with the
same members are equal and the list of members is the listing that reports show.

## Main definitions

* `NameSet` — a strictly ascending list of names.
* `NameSet.insert`, `NameSet.ofList` — building a set, one name at a time or at once.
* `NameSet.filter`, `NameSet.sdiff` — the members with a property, or outside another set.

## Main statements

* `NameSet.mem_insert`, `NameSet.mem_ofList`, `NameSet.mem_filter`, `NameSet.mem_sdiff` — the
  members of each set that the operations build.
-/
namespace SwitchCoverage

/-- A finite set of names, listed in strictly ascending order. -/
structure NameSet where
  /-- The members in ascending order, each once. -/
  toList : List String
  /-- The listing ascends, so no member occurs twice. -/
  ascending : toList.Pairwise (· < ·)

namespace NameSet

instance : Membership String NameSet where
  mem s n := n ∈ s.toList

instance (n : String) (s : NameSet) : Decidable (n ∈ s) :=
  inferInstanceAs (Decidable (n ∈ s.toList))

theorem mem_def {n : String} {s : NameSet} : n ∈ s ↔ n ∈ s.toList := .rfl

/-- The set without members. -/
def empty : NameSet := ⟨[], .nil⟩

instance : EmptyCollection NameSet := ⟨empty⟩

instance : Inhabited NameSet := ⟨∅⟩

/-- Whether a set has no members. -/
def isEmpty (s : NameSet) : Bool := s.toList.isEmpty

/-- The number of members. -/
def size (s : NameSet) : Nat := s.toList.length

/-! ## Insertion -/

/-- Puts a name in its place in an ascending list, unless it is there already. -/
def insertAscending (n : String) : List String → List String
  | [] => [n]
  | m :: ms =>
    if n < m then n :: m :: ms
    else if n = m then m :: ms
    else m :: insertAscending n ms

theorem mem_insertAscending {n x : String} {ms : List String} :
    x ∈ insertAscending n ms ↔ x = n ∨ x ∈ ms := by
  induction ms with
  | nil => simp [insertAscending]
  | cons m ms ih =>
    rw [insertAscending]
    split
    · simp
    · split
      · next h => simp [h]
      · simp [ih, or_left_comm]

theorem insertAscending_ascending (n : String) {ms : List String} (h : ms.Pairwise (· < ·)) :
    (insertAscending n ms).Pairwise (· < ·) := by
  induction ms with
  | nil => simp [insertAscending]
  | cons m ms ih =>
    obtain ⟨hm, hms⟩ := List.pairwise_cons.1 h
    rw [insertAscending]
    split
    · next hlt =>
      refine List.pairwise_cons.2 ⟨fun x hx => ?_, h⟩
      rcases List.mem_cons.1 hx with rfl | hx
      · exact hlt
      · exact String.lt_trans hlt (hm x hx)
    · next hle =>
      split
      · exact h
      · next hne =>
        refine List.pairwise_cons.2 ⟨fun x hx => ?_, ih hms⟩
        rcases mem_insertAscending.1 hx with rfl | hx
        · exact Std.lt_of_le_of_ne hle (Ne.symm hne)
        · exact hm x hx

/-- The set with one more member. -/
def insert (n : String) (s : NameSet) : NameSet :=
  ⟨insertAscending n s.toList, insertAscending_ascending n s.ascending⟩

@[simp] theorem mem_insert {n x : String} {s : NameSet} : x ∈ s.insert n ↔ x = n ∨ x ∈ s :=
  mem_insertAscending

/-- The set of the names in a list. -/
def ofList (names : List String) : NameSet := names.foldr insert ∅

@[simp] theorem not_mem_empty (x : String) : ¬ x ∈ (∅ : NameSet) := by
  simp [mem_def, EmptyCollection.emptyCollection, empty]

@[simp] theorem mem_ofList {x : String} {names : List String} : x ∈ ofList names ↔ x ∈ names := by
  induction names with
  | nil => simp [ofList]
  | cons n ns ih =>
    have step : ofList (n :: ns) = (ofList ns).insert n := rfl
    simp [step, ih]

/-! ## Restriction -/

/-- The members with a property. -/
def filter (keep : String → Bool) (s : NameSet) : NameSet :=
  ⟨s.toList.filter keep, s.ascending.filter keep⟩

@[simp] theorem mem_filter {x : String} {keep : String → Bool} {s : NameSet} :
    x ∈ s.filter keep ↔ x ∈ s ∧ keep x = true :=
  List.mem_filter

/-- The members of one set that another lacks. -/
def sdiff (s t : NameSet) : NameSet := s.filter fun n => n ∉ t

instance : SDiff NameSet := ⟨sdiff⟩

@[simp] theorem mem_sdiff {x : String} {s t : NameSet} : x ∈ s \ t ↔ x ∈ s ∧ ¬ x ∈ t := by
  change x ∈ s.filter _ ↔ _
  simp

end NameSet

end SwitchCoverage
