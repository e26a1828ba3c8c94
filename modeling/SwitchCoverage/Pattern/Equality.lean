import SwitchCoverage.Pattern.Basic
import SwitchCoverage.Ty.Equality

/-!
# Equality of patterns

Two patterns are the same when they have the same shape and agree up to the
container links of the types they test for.  A pattern that takes a value apart into
no parts is not the same as one that does not take it apart.

## Main definitions

* `Pattern.same` — sameness, which is also the `==` of patterns.
* `Pattern.feed` — the data that the hash of a pattern is made of.
* `Pattern.erase` — a pattern without container links.
-/
namespace SwitchCoverage.Pattern

mutual

/-- Whether two patterns agree up to container links. -/
def same : Pattern → Pattern → Bool
  | .wildcard, .wildcard => true
  | .positional ps, .positional qs => sameAll ps qs
  | .typed t, .typed u => t.same u
  | .deconstructed t ps, .deconstructed u qs => t.same u && sameAll ps qs
  | _, _ => false
termination_by structural p => p

/-- Whether two lists of patterns agree, entry by entry, up to container links. -/
def sameAll : List Pattern → List Pattern → Bool
  | [], [] => true
  | p :: ps, q :: qs => p.same q && sameAll ps qs
  | _, _ => false
termination_by structural ps => ps

end

instance : BEq Pattern := ⟨same⟩

mutual

/-- The data that the hash of a pattern is made of: whether it tests for a type and for
which, then whether it takes the value apart and into what. -/
def feed : Pattern → List Datum
  | .wildcard => [.form 0, .form 0]
  | .positional ps => .form 0 :: .form 1 :: .count ps.length :: feedAll ps
  | .typed t => .form 1 :: (t.feed ++ [.form 0])
  | .deconstructed t ps => .form 1 :: (t.feed ++ .form 1 :: .count ps.length :: feedAll ps)
termination_by structural p => p

/-- The data of the patterns of a list, one after the other. -/
def feedAll : List Pattern → List Datum
  | [] => []
  | p :: ps => p.feed ++ feedAll ps
termination_by structural ps => ps

end

instance : Hashable Pattern := ⟨fun p => Datum.digest p.feed⟩

theorem feedAll_eq_flatMap (ps : List Pattern) : feedAll ps = ps.flatMap feed := by
  induction ps with
  | nil => rfl
  | cons p ps ih => simp [feedAll, ih]

mutual

/-- A pattern without the container links of its types, at every depth. -/
def erase : Pattern → Pattern
  | .wildcard => .wildcard
  | .positional ps => .positional (eraseAll ps)
  | .typed t => .typed t.erase
  | .deconstructed t ps => .deconstructed t.erase (eraseAll ps)
termination_by structural p => p

/-- The patterns of a list without container links. -/
def eraseAll : List Pattern → List Pattern
  | [] => []
  | p :: ps => p.erase :: eraseAll ps
termination_by structural ps => ps

end

theorem eraseAll_eq_map (ps : List Pattern) : eraseAll ps = ps.map erase := by
  induction ps with
  | nil => rfl
  | cons p ps ih => simp [eraseAll, ih]

end SwitchCoverage.Pattern
