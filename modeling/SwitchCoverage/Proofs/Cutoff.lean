import SwitchCoverage.Proofs.Failure

/-!
# The depth limit as a cutoff

A limit on the depth of hierarchies is a guard against derivation that runs in a circle.  It
is no part of what a check means: as long as an expansion is not cut off, its result does not
show the limit under which it was made.  So two runs under different limits are compared step
by step, and each step of the run with more room either repeats the step of the other or
stands where the other was cut off.

## Main definitions

* `CutOff` — a computation that fails because a type nests too deep.
* `Prolongs` — a computation that gives what another one gives, unless that is cut off.
* `IsCutoff` — a limit that does nothing but cut off.

## Main statements

* `Catalog.leaves_prolongs`, `Catalog.splitFields_prolongs`, `Catalog.requiredNames_prolongs`,
  `Switch.check_prolongs` — a larger limit prolongs each part of the analysis.
* `depthLimit_isCutoff` — **the depth limit is only a cutoff.**
-/
namespace SwitchCoverage

/-! ## Computations that are cut off -/

/-- The computation fails because a type nests deeper than the limit. -/
def CutOff {α : Type} (x : Except CheckError α) : Prop :=
  ∃ type limit, x = .error (.tooDeep type limit)

/-- `y` gives the result of `x`, or its failure, unless `x` is cut off. -/
def Prolongs {α : Type} (x y : Except CheckError α) : Prop := CutOff x ∨ y = x

/-- What is computed under a limit shows the limit only where it is cut off. -/
structure IsCutoff {α : Type} (run : Nat → Except CheckError α) : Prop where
  /-- A result stays under every larger limit, and so does another failure. -/
  stable : ∀ m m', m ≤ m' → ¬ CutOff (run m) → run m' = run m
  /-- A computation that is cut off names the limit it was given. -/
  names_limit : ∀ m type limit, run m = .error (.tooDeep type limit) → limit = m

namespace Prolongs

variable {α β : Type}

theorem refl (x : Except CheckError α) : Prolongs x x := .inr rfl

theorem bind {x y : Except CheckError α} (h : Prolongs x y) {f k : α → Except CheckError β}
    (hfk : ∀ a, x = .ok a → Prolongs (f a) (k a)) : Prolongs (x >>= f) (y >>= k) := by
  rcases h with ⟨type, limit, rfl⟩ | rfl
  · exact .inl ⟨type, limit, rfl⟩
  · cases y with
    | error e => exact refl _
    | ok a => exact hfk a rfl

theorem map {x y : Except CheckError α} (h : Prolongs x y) (f : α → β) :
    Prolongs (x.map f) (y.map f) := by
  rcases h with ⟨type, limit, rfl⟩ | rfl
  · exact .inl ⟨type, limit, rfl⟩
  · exact refl _

theorem mapM {f k : α → Except CheckError β} {xs : List α}
    (h : ∀ x ∈ xs, Prolongs (f x) (k x)) : Prolongs (xs.mapM f) (xs.mapM k) := by
  induction xs with
  | nil => exact refl _
  | cons x xs ih =>
    rw [List.mapM_cons, List.mapM_cons]
    have hhead : Prolongs (f x) (k x) := h x (.head _)
    have htail : Prolongs (xs.mapM f) (xs.mapM k) := ih fun y hy => h y (.tail _ hy)
    exact hhead.bind fun y _ => htail.bind fun ys _ => refl _

end Prolongs

/-! ## Two runs of the analysis -/

namespace Catalog

variable {g : Catalog} {m m' : Nat} {t : Ty}

/-- The walk with more levels to go ends in the same leaves.  The limits that the two walks
would name if they were cut off do not matter. -/
theorem leavesWithin_of_le {n n' : Nat} (hn : n ≤ n') {ls : List Ty}
    (h : g.leavesWithin m n t = .ok ls) : g.leavesWithin m' n' t = .ok ls := by
  refine leavesWithin_induction (motive := fun n t ls => ∀ n', n ≤ n' →
    g.leavesWithin m' n' t = .ok ls) ?_ ?_ h n' hn
  · intro _ t hx n' _
    exact leavesWithin_of_not_isExpandable hx n'
  · intro n t parts hx hparts n' hn
    obtain ⟨k, rfl⟩ : ∃ k, n' = k + 1 := ⟨n' - 1, by omega⟩
    refine (leavesWithin_of_isExpandable hx).2 ⟨k, parts, rfl, rfl, ?_⟩
    exact hparts.imp fun _ _ hc => hc.2 k (by omega)

theorem leaves_prolongs (h : m ≤ m') : Prolongs (g.leaves m t) (g.leaves m' t) := by
  cases hls : g.leaves m t with
  | error e =>
    obtain ⟨p, -, rfl⟩ := leaves_eq_error hls
    exact .inl ⟨_, _, rfl⟩
  | ok ls => exact .inr (leavesWithin_of_le h hls)

/-- The fields of a type do not depend on the limit, and each of them is expanded anew. -/
theorem splitFields_prolongs (h : m ≤ m') :
    Prolongs (g.splitFields m t) (g.splitFields m' t) := by
  rw [splitFields, splitFields]
  refine (Prolongs.refl _).bind fun types _ => ?_
  have hfields : Prolongs (types.mapM (g.leaves m)) (types.mapM (g.leaves m')) :=
    Prolongs.mapM fun _ _ => leaves_prolongs h
  exact hfields.bind fun _ _ => Prolongs.refl _

/-- Whether the cases can be listed at all is seen from the leaves, which stay.  What is then
listed leaf by leaf stays as far as it goes. -/
theorem requiredNames_prolongs (h : m ≤ m') :
    Prolongs (g.requiredNames m t) (g.requiredNames m' t) := by
  rw [requiredNames, requiredNames]
  by_cases hx : g.isExpandable t = true
  · rw [if_pos hx, if_pos hx]
    refine (leaves_prolongs h).bind fun ls _ => ?_
    by_cases hbound : g.anyUnbound ls = true
    · rw [if_pos hbound, if_pos hbound]
      exact Prolongs.refl _
    · rw [if_neg hbound, if_neg hbound]
      have hcases : Prolongs (ls.mapM (g.leafCases m)) (ls.mapM (g.leafCases m')) :=
        Prolongs.mapM fun _ _ => (splitFields_prolongs h).map _
      exact hcases.bind fun _ _ => Prolongs.refl _
  · rw [if_neg hx, if_neg hx]
    exact Prolongs.refl _

end Catalog

/-- The report on a switch, given the names to cover, has no use for the limit. -/
theorem Switch.check_prolongs {g : Catalog} {m m' : Nat} (h : m ≤ m') (suggest : Bool)
    (s : Switch) : Prolongs (s.check g ⟨m, suggest⟩) (s.check g ⟨m', suggest⟩) := by
  have hjudge : s.judge g ⟨m, suggest⟩ = s.judge g ⟨m', suggest⟩ := rfl
  rw [check, check, hjudge]
  exact (Catalog.requiredNames_prolongs h).map _

/-! ## The limit that is named -/

namespace Catalog

variable {g : Catalog} {m limit : Nat} {t : Ty} {type : String}

theorem limit_of_leaves (h : g.leaves m t = .error (.tooDeep type limit)) : limit = m := by
  obtain ⟨p, -, he⟩ := leaves_eq_error h
  cases he
  rfl

theorem limit_of_splitFields (h : g.splitFields m t = .error (.tooDeep type limit)) :
    limit = m := by
  rcases splitFields_eq_error h with ⟨fault, -, he⟩ | ⟨field, hfield⟩
  · cases he
  · exact limit_of_leaves hfield

theorem limit_of_requiredNames (h : g.requiredNames m t = .error (.tooDeep type limit)) :
    limit = m := by
  rcases requiredNames_eq_error h with ⟨p, hp⟩ | ⟨-, ls, -, leaf, -, fault, -, he⟩
  · exact limit_of_leaves hp
  · cases he

end Catalog

theorem IsCutoff.of_prolongs {α : Type} {run : Nat → Except CheckError α}
    (hrun : ∀ m m', m ≤ m' → Prolongs (run m) (run m'))
    (hlimit : ∀ m type limit, run m = .error (.tooDeep type limit) → limit = m) :
    IsCutoff run where
  stable m m' h hm := (hrun m m' h).resolve_left hm
  names_limit := hlimit

/-- **The depth limit is only a cutoff.**  Under every larger limit, the leaves of a type, its
split fields, the names that a switch on it has to cover and the check of a switch give the
same result or the same failure, unless they are cut off, and then they name the limit. -/
theorem depthLimit_isCutoff (g : Catalog) :
    (∀ t, IsCutoff fun m => g.leaves m t) ∧
    (∀ t, IsCutoff fun m => g.splitFields m t) ∧
    (∀ t, IsCutoff fun m => g.requiredNames m t) ∧
    ∀ suggest, ∀ s : Switch, IsCutoff fun m => s.check g ⟨m, suggest⟩ := by
  refine ⟨fun t => ?_, fun t => ?_, fun t => ?_, fun suggest s => ?_⟩
  · exact .of_prolongs (fun _ _ => Catalog.leaves_prolongs) fun _ _ _ => Catalog.limit_of_leaves
  · exact .of_prolongs (fun _ _ => Catalog.splitFields_prolongs)
      fun _ _ _ => Catalog.limit_of_splitFields
  · exact .of_prolongs (fun _ _ => Catalog.requiredNames_prolongs)
      fun _ _ _ => Catalog.limit_of_requiredNames
  · exact .of_prolongs (fun _ _ h => Switch.check_prolongs h suggest s)
      fun _ _ _ h => Catalog.limit_of_requiredNames (Switch.check_eq_error_iff.1 h)

example : CutOff (Sample.catalog.leaves 0 Sample.ids.resultIntString) ∧
    ¬ CutOff (Sample.catalog.leaves 1 Sample.ids.resultIntString) :=
  ⟨⟨_, _, rfl⟩, nofun⟩

end SwitchCoverage
