import Mathlib.Data.Set.Card
import SwitchCoverage.Pattern.Equality

/-!
# Sameness, hashing and container links

The `==` of types walks two types side by side, and a hash is made of the data of one type alone.
A hash table needs the two to agree: values that are the same must have the same hash.  Here both
are compared with a third view, the tree that is left when every container link is taken away.

The data of a type are not only the same for types that are the same.  They also tell types apart
that are not, since a form and a count come before whatever they announce: of two rows of data
that begin with the data of a type, one can tell where these end and what they stand for.

A pattern that takes a value apart into no parts has a form of its own, so it is never the same as
one that does not take the value apart.

## Main definitions

* `ComparesBy` — `==`, data for hashing and hash tables all go by the same view of a value.

## Main statements

* `Ty.feed_eq_iff`, `Pattern.feed_eq_iff` — the data of two values agree just when the values do
  without links.
* `Pattern.same_iff_erase_eq` — patterns are the same just when they are equal without links.
* `distinctCount_eq_ncard` — a hash table keeps one value for each tree.
* `same_upToLinks` — **sameness is equality up to container links, and hashing agrees.**
-/
namespace SwitchCoverage

/-- Where a change to the entries of a list leaves their data alone, it leaves all data alone. -/
theorem flatMap_map_eq {α δ : Type} {feed : α → List δ} {change : α → α} {xs : List α}
    (h : ∀ x ∈ xs, feed (change x) = feed x) :
    (xs.map change).flatMap feed = xs.flatMap feed := by
  rw [List.flatMap_map]
  exact List.flatMap_congr h

/-! ## Types -/

namespace Ty

/-- The data of a type are those of the type without links. -/
theorem feed_erase (t : Ty) : t.erase.feed = t.feed := by
  induction t using inductionOn with
  | named id args container hargs _ =>
    simp [erase, feed, feedAll_eq_flatMap, eraseAll_eq_map, flatMap_map_eq hargs]
  | param name => rfl
  | array element ih => rw [erase, feed, feed, ih]
  | unresolved => rfl

/-- Whatever follows the data of a type, one can tell where they end and, up to links, what type
they stand for. -/
theorem erase_eq_of_feed_append {t u : Ty} {rest rest' : List Datum}
    (h : t.feed ++ rest = u.feed ++ rest') : t.erase = u.erase ∧ rest = rest' := by
  induction t using inductionOn generalizing u rest rest' with
  | named id args container hargs _ =>
    cases u with
    | named id' args' container' =>
      simp only [feed, List.cons_append, List.cons.injEq, Datum.decl.injEq, Datum.count.injEq,
        true_and, feedAll_eq_flatMap] at h
      obtain ⟨rfl, hlength, h⟩ := h
      obtain ⟨hall, hrest⟩ :=
        map_eq_of_flatMap_append hlength (fun a ha b r r' => hargs a ha) h
      exact ⟨by simp [erase, eraseAll_eq_map, hall], hrest⟩
    | param name => simp [feed] at h
    | array element => simp [feed] at h
    | unresolved => simp [feed] at h
  | param name => cases u <;> simp_all [feed, erase]
  | array element ih =>
    cases u with
    | array element' =>
      simp only [feed, List.cons_append, List.cons.injEq, true_and] at h
      obtain ⟨helement, hrest⟩ := ih h
      exact ⟨by rw [erase, erase, helement], hrest⟩
    | named id args container => simp [feed] at h
    | param name => simp [feed] at h
    | unresolved => simp [feed] at h
  | unresolved => cases u <;> simp_all [feed, erase]

theorem feed_eq_iff {t u : Ty} : t.feed = u.feed ↔ t.erase = u.erase := by
  constructor
  · intro h
    exact (erase_eq_of_feed_append (congrArg (· ++ []) h)).1
  · intro h
    rw [← feed_erase t, h, feed_erase u]

end Ty

/-! ## Patterns -/

namespace Pattern

theorem sameAll_iff_eraseAll_eq {ps qs : List Pattern}
    (h : ∀ p ∈ ps, ∀ q, p.same q = true ↔ p.erase = q.erase) :
    sameAll ps qs = true ↔ eraseAll ps = eraseAll qs := by
  induction ps generalizing qs with
  | nil => cases qs <;> simp [sameAll, eraseAll]
  | cons p ps ih =>
    cases qs with
    | nil => simp [sameAll, eraseAll]
    | cons q qs => simp_all [sameAll, eraseAll]

/-- **Patterns are the same just when they are equal without links.** -/
theorem same_iff_erase_eq {p q : Pattern} : p.same q = true ↔ p.erase = q.erase := by
  induction p using inductionOn generalizing q with
  | wildcard => cases q <;> simp [same, erase]
  | positional parts hparts =>
    have hall : ∀ qs, sameAll parts qs = true ↔ eraseAll parts = eraseAll qs :=
      fun _ => sameAll_iff_eraseAll_eq fun p hp _ => hparts p hp
    cases q <;> simp [same, erase, hall]
  | typed t => cases q <;> simp [same, erase, Ty.same_iff_erase_eq]
  | deconstructed t parts hparts =>
    have hall : ∀ qs, sameAll parts qs = true ↔ eraseAll parts = eraseAll qs :=
      fun _ => sameAll_iff_eraseAll_eq fun p hp _ => hparts p hp
    cases q <;> simp [same, erase, hall, Ty.same_iff_erase_eq]

/-- The data of a pattern are those of the pattern without links. -/
theorem feed_erase (p : Pattern) : p.erase.feed = p.feed := by
  induction p using inductionOn with
  | wildcard => rfl
  | positional parts hparts =>
    simp [erase, feed, feedAll_eq_flatMap, eraseAll_eq_map, flatMap_map_eq hparts]
  | typed t => simp [erase, feed, Ty.feed_erase]
  | deconstructed t parts hparts =>
    simp [erase, feed, feedAll_eq_flatMap, eraseAll_eq_map, flatMap_map_eq hparts, Ty.feed_erase]

/-- Whatever follows the data of a pattern, one can tell where they end and, up to links, what
pattern they stand for. -/
theorem erase_eq_of_feed_append {p q : Pattern} {rest rest' : List Datum}
    (h : p.feed ++ rest = q.feed ++ rest') : p.erase = q.erase ∧ rest = rest' := by
  induction p using inductionOn generalizing q rest rest' with
  | wildcard => cases q <;> simp_all [feed, erase]
  | positional parts hparts =>
    cases q with
    | positional parts' =>
      simp only [feed, List.cons_append, List.cons.injEq, Datum.count.injEq, true_and,
        feedAll_eq_flatMap] at h
      obtain ⟨hlength, h⟩ := h
      obtain ⟨hall, hrest⟩ :=
        map_eq_of_flatMap_append hlength (fun a ha b r r' => hparts a ha) h
      exact ⟨by simp [erase, eraseAll_eq_map, hall], hrest⟩
    | wildcard => simp [feed] at h
    | typed u => simp [feed] at h
    | deconstructed u parts' => simp [feed] at h
  | typed t =>
    cases q with
    | typed u =>
      simp only [feed, List.cons_append, List.append_assoc, List.cons.injEq, true_and] at h
      obtain ⟨htarget, h⟩ := Ty.erase_eq_of_feed_append h
      exact ⟨by rw [erase, erase, htarget], by simpa using h⟩
    | deconstructed u parts' =>
      simp only [feed, List.cons_append, List.append_assoc, List.cons.injEq, true_and] at h
      obtain ⟨-, h⟩ := Ty.erase_eq_of_feed_append h
      simp at h
    | wildcard => simp [feed] at h
    | positional parts' => simp [feed] at h
  | deconstructed t parts hparts =>
    cases q with
    | deconstructed u parts' =>
      simp only [feed, List.cons_append, List.append_assoc, List.cons.injEq, true_and] at h
      obtain ⟨htarget, h⟩ := Ty.erase_eq_of_feed_append h
      simp only [List.cons.injEq, Datum.count.injEq, true_and, feedAll_eq_flatMap] at h
      obtain ⟨hlength, h⟩ := h
      obtain ⟨hall, hrest⟩ :=
        map_eq_of_flatMap_append hlength (fun a ha b r r' => hparts a ha) h
      exact ⟨by simp [erase, eraseAll_eq_map, hall, htarget], hrest⟩
    | typed u =>
      simp only [feed, List.cons_append, List.append_assoc, List.cons.injEq, true_and] at h
      obtain ⟨-, h⟩ := Ty.erase_eq_of_feed_append h
      simp at h
    | wildcard => simp [feed] at h
    | positional parts' => simp [feed] at h

theorem feed_eq_iff {p q : Pattern} : p.feed = q.feed ↔ p.erase = q.erase := by
  constructor
  · intro h
    exact (erase_eq_of_feed_append (congrArg (· ++ []) h)).1
  · intro h
    rw [← feed_erase p, h, feed_erase q]

end Pattern

/-! ## Classes -/

/-- Values that are told apart by a view are as many as the views. -/
theorem length_eq_ncard {α β : Type} {key : α → β} {xs ys : List α}
    (hdistinct : ys.Pairwise fun a b => key a ≠ key b)
    (hkeys : ∀ k, (∃ y ∈ ys, key y = k) ↔ ∃ x ∈ xs, key x = k) :
    ys.length = {k | ∃ x ∈ xs, key x = k}.ncard := by
  classical
  have hnodup : (ys.map key).Nodup := List.pairwise_map.2 hdistinct
  have hset : {k | ∃ x ∈ xs, key x = k} = ((ys.map key).toFinset : Set β) := by
    ext k
    simp [← hkeys]
  rw [hset, Set.ncard_coe_finset, List.toFinset_card_of_nodup hnodup, List.length_map]

/-- A hash table keeps one value for each view, if `==` goes by the view and hashes agree. -/
theorem distinctCount_eq_ncard {α β : Type} [BEq α] [Hashable α] {key : α → β}
    (hbeq : ∀ a b : α, (a == b) = true ↔ key a = key b)
    (hhash : ∀ a b : α, (a == b) = true → hash a = hash b) (xs : List α) :
    distinctCount xs = {k | ∃ x ∈ xs, key x = k}.ncard := by
  have : EquivBEq α :=
    { symm := fun h => (hbeq _ _).2 ((hbeq _ _).1 h).symm
      trans := fun h h' => (hbeq _ _).2 (((hbeq _ _).1 h).trans ((hbeq _ _).1 h'))
      rfl := (hbeq _ _).2 rfl }
  have : LawfulHashable α := ⟨hhash⟩
  have hcontains : ∀ (ys : List α) a, ys.contains a = true ↔ ∃ y ∈ ys, key y = key a := by
    intro ys a
    rw [List.contains_iff_exists_mem_beq]
    exact exists_congr fun y => and_congr_right fun _ => by rw [hbeq, eq_comm]
  set kept := Std.HashSet.ofList xs with hkept
  have hsame : ∀ a, (∃ y ∈ kept.toList, key y = key a) ↔ ∃ x ∈ xs, key x = key a := by
    intro a
    rw [← hcontains, ← hcontains, Std.HashSet.contains_toList, hkept, Std.HashSet.contains_ofList]
  rw [distinctCount, ← hkept, ← Std.HashSet.length_toList]
  apply length_eq_ncard
  · refine Std.HashSet.distinct_toList.imp fun {a b} hne heq => ?_
    rw [(hbeq a b).2 heq] at hne
    cases hne
  · intro k
    constructor
    · rintro ⟨y, hy, rfl⟩
      exact (hsame y).1 ⟨y, hy, rfl⟩
    · rintro ⟨x, hx, rfl⟩
      exact (hsame x).2 ⟨x, hx, rfl⟩

/-- `==`, the data for hashing and hash tables all go by the same view of a value. -/
structure ComparesBy {α β : Type} [BEq α] [Hashable α] (key : α → β) (feed : α → List Datum) :
    Prop where
  /-- Values are the same just when their views are equal. -/
  beq_iff : ∀ a b : α, (a == b) = true ↔ key a = key b
  /-- Sameness is an equivalence. -/
  equivalence : Equivalence fun a b : α => (a == b) = true
  /-- Values give the same data to a hash function just when they are the same. -/
  feed_iff : ∀ a b : α, feed a = feed b ↔ (a == b) = true
  /-- Values that are the same have the same hash. -/
  hash_eq : ∀ a b : α, (a == b) = true → hash a = hash b
  /-- Of a list, a hash table keeps as many values as there are views. -/
  distinct : ∀ xs : List α, distinctCount xs = {k | ∃ x ∈ xs, key x = k}.ncard

theorem ComparesBy.of_feed {α β : Type} [BEq α] [Hashable α] {key : α → β}
    {feed : α → List Datum} (hbeq : ∀ a b : α, (a == b) = true ↔ key a = key b)
    (hfeed : ∀ a b : α, feed a = feed b ↔ key a = key b)
    (hhash : ∀ a : α, hash a = Datum.digest (feed a)) : ComparesBy key feed := by
  have hdata : ∀ a b : α, feed a = feed b ↔ (a == b) = true :=
    fun a b => (hfeed a b).trans (hbeq a b).symm
  have hhashes : ∀ a b : α, (a == b) = true → hash a = hash b := by
    intro a b h
    rw [hhash, hhash, (hdata a b).2 h]
  refine ⟨hbeq, ?_, hdata, hhashes, distinctCount_eq_ncard hbeq hhashes⟩
  simp only [hbeq]
  exact ⟨fun _ => rfl, Eq.symm, Eq.trans⟩

/-- **Sameness is equality up to container links, and hashing agrees.**  For types, and for
patterns, `==` goes by the tree without links, and so do the data that a hash function is fed with,
and what a hash table keeps of a list.  A pattern that takes no value apart is the same only as
such a pattern. -/
theorem same_upToLinks :
    ComparesBy Ty.erase Ty.feed ∧ ComparesBy Pattern.erase Pattern.feed ∧
      ∀ p q : Pattern, (p == q) = true → (p.parts? = none ↔ q.parts? = none) := by
  have hpattern : ∀ p q : Pattern, (p == q) = true ↔ p.erase = q.erase :=
    fun _ _ => Pattern.same_iff_erase_eq
  refine ⟨.of_feed (fun _ _ => Ty.same_iff_erase_eq) (fun _ _ => Ty.feed_eq_iff) fun _ => rfl,
    .of_feed hpattern (fun _ _ => Pattern.feed_eq_iff) fun _ => rfl, ?_⟩
  intro p q h
  rw [hpattern] at h
  cases p <;> cases q <;> simp_all [Pattern.erase, Pattern.parts?]

end SwitchCoverage
