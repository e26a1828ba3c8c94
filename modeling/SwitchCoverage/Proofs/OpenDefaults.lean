import SwitchCoverage.Proofs.Arms
import SwitchCoverage.Proofs.Naming
import SwitchCoverage.Proofs.Verdict
import SwitchCoverage.Ty.Equality

/-!
# Default arms on open types

Where no case is required, a check still says one thing: if an arm has the name of the very type of
the switch, the default arm is redundant.  The advice is to remove it, and that is safe if the other
arm is taken for every value of the type.

The name does not tell.  It shows what an arm tests for, and which variants of closed declarations
its sub-patterns test for; no other test of a sub-pattern shows.  An arm that tests a field for a
narrower open type has the name of an arm that takes everything.  Here it is worked out for which
arms the reports can be relied on.

## Main definitions

* `Pattern.Irrefutable` — a sub-pattern that matches all values of its position.
* `Pattern.TakesAll` — an arm that matches all values of the type it tests for.
* `Catalog.DefaultIsDead` — some arm leaves nothing of a type to a default arm.

## Main statements

* `Switch.redundantDefault_iff_of_open` — what a report on an open type says about the arms.
* `Switch.check_openDefault_iff` — **exactly when such reports can be relied on.**
-/
namespace SwitchCoverage

/-- The type of the field of `t` at a position, if there is such a field and the fields can be
looked up. -/
def Catalog.fieldAt? (g : Catalog) (t : Ty) (i : Nat) : Option Ty :=
  match g.fieldTypes t with
  | .ok types => types[i]?
  | .error _ => none

namespace Pattern

/-! ## Patterns that lose nothing -/

/-- A sub-pattern matches all values of a position whose type is the given one, where that is
known.  It tests for no type, or for a type that equals that of the position; and the same is true
of its own sub-patterns, at the positions of the fields. -/
inductive Irrefutable (g : Catalog) : Option Ty → Pattern → Prop
  /-- What matches everything. -/
  | wildcard {t : Option Ty} : Irrefutable g t .wildcard
  /-- What takes a value apart without a test. -/
  | positional {t : Option Ty} {parts : List Pattern}
      (h : ∀ (i : Nat) q, parts[i]? = some q → Irrefutable g (t.bind fun u => g.fieldAt? u i) q) :
      Irrefutable g t (.positional parts)
  /-- A test for the type of the position. -/
  | typed {t u : Ty} (h : (t == u) = true) : Irrefutable g (some t) (.typed u)
  /-- A test for the type of the position, and what takes the value apart. -/
  | deconstructed {t u : Ty} {parts : List Pattern} (h : (t == u) = true)
      (hparts : ∀ (i : Nat) q, parts[i]? = some q → Irrefutable g (g.fieldAt? u i) q) :
      Irrefutable g (some t) (.deconstructed u parts)

/-- An arm that tests for `u` matches all values of `u`: it has no sub-patterns, or each of them
matches all values of its field. -/
def TakesAll (g : Catalog) (u : Ty) (p : Pattern) : Prop :=
  ∀ parts, p.parts? = some parts → ∀ (i : Nat) q, parts[i]? = some q →
    q.Irrefutable g (g.fieldAt? u i)

/-- Some sub-pattern tests for a variant of a closed declaration.  No other test of a sub-pattern
shows in the name of a case. -/
def TestsVariant (g : Catalog) (p : Pattern) : Prop :=
  ∃ parts, p.parts? = some parts ∧ ∃ q ∈ parts, ∃ v, q.target? = some v ∧ g.isVariant v = true

variable {g : Catalog} {p : Pattern}

theorem partVariants_eq_nil_iff : p.partVariants g = [] ↔ ¬ p.TestsVariant g := by
  rw [partVariants, List.filterMap_eq_nil_iff, TestsVariant]
  cases hparts : p.parts? with
  | none => simp
  | some parts =>
    simp only [Option.getD_some, Option.some.injEq, exists_eq_left', not_exists, not_and]
    refine forall₂_congr fun q _ => ?_
    rw [Option.eq_none_iff_forall_ne_some]
    simp only [ne_eq, variantTarget?_eq_some_iff, not_and]

/-- An arm without such a test has the name of the type that it tests for. -/
theorem caseName?_of_not_testsVariant {u : Ty} (hu : p.target? = some u)
    (h : ¬ p.TestsVariant g) : p.caseName? g = some (g.display u) := by
  rw [caseName?, hu, partVariants_eq_nil_iff.2 h]
  rfl

/-- Any other arm has a longer name. -/
theorem display_ne_caseName {u : Ty} (h : p.TestsVariant g) :
    g.display u ≠ g.caseName u (p.partVariants g) := by
  have hne : p.partVariants g ≠ [] := by
    intro hnil
    exact partVariants_eq_nil_iff.1 hnil h
  have hlonger := g.length_caseName_lt u (List.nil_sublist (p.partVariants g))
    (List.length_pos_iff.2 hne)
  rw [Catalog.caseName_nil] at hlonger
  intro heq
  rw [← heq] at hlonger
  exact Nat.lt_irrefl _ hlonger

end Pattern

/-! ## Reports that can be relied on -/

/-- Some arm tests for a type that has the name of `t`, and takes all its values: nothing is left
to a default arm. -/
def Catalog.DefaultIsDead (g : Catalog) (t : Ty) (arms : List Pattern) : Prop :=
  ∃ p ∈ arms, ∃ u, p.target? = some u ∧ g.display u = g.display t ∧ p.TakesAll g u

namespace Switch

variable {g : Catalog} {cfg : Config} {t : Ty} {required : NameSet}

/-- Where no case is required, a default arm is found redundant just when there is one and some
arm has the name of the type of the switch. -/
theorem redundantDefault_iff_of_open (h : g.requiredNames cfg.maxDepth t = .ok required)
    (hempty : required.isEmpty = true) (arms : List Pattern) (catchAll : Bool) :
    (∃ d, (Switch.mk t arms catchAll).check g cfg = .ok (some d) ∧
        d.finding = .redundantDefault) ↔
      catchAll = true ∧ ∃ p ∈ arms, p.caseName? g = some (g.display t) := by
  have hcheck : (Switch.mk t arms catchAll).check g cfg =
      .ok ((Switch.mk t arms catchAll).judgeOpen g cfg) := check_of_open h hempty
  have hitself := coversItself_iff_exists (g := g) (s := ⟨t, arms, catchAll⟩)
  rw [hcheck, judgeOpen, ← hitself, ← Bool.and_eq_true]
  by_cases hboth : (catchAll && (Switch.mk t arms catchAll).coversItself g) = true
  · simp [hboth]
  · simp [hboth]

/-- **When a redundant default is dead.**  No case is required of `t`.  The reports on switches
over `t` whose arms are all of a certain kind can be relied on if and only if, of each arm of the
kind that tests for some `u`, two things hold.  If no sub-pattern tests for a variant and `u` has
the name of `t`, then the arm takes all values of `u`.  And if some sub-pattern does, then what the
name of the arm says of the variants does not make it the name of `t`. -/
theorem check_openDefault_iff (h : g.requiredNames cfg.maxDepth t = .ok required)
    (hempty : required.isEmpty = true) (usable : Pattern → Prop) :
    (∀ arms catchAll d, (∀ p ∈ arms, usable p) →
        (Switch.mk t arms catchAll).check g cfg = .ok (some d) → d.finding = .redundantDefault →
        g.DefaultIsDead t arms) ↔
      ∀ p u, usable p → p.target? = some u →
        (¬ p.TestsVariant g → g.display u = g.display t → p.TakesAll g u) ∧
        (p.TestsVariant g → g.caseName u (p.partVariants g) ≠ g.display t) := by
  constructor
  · intro hreliable p u hp hu
    -- The arm stands alone before the default.
    have hdead : p.caseName? g = some (g.display t) →
        g.display u = g.display t ∧ p.TakesAll g u := by
      intro hname
      obtain ⟨d, hd, hfinding⟩ := (redundantDefault_iff_of_open h hempty [p] true).2
        ⟨rfl, p, List.mem_singleton_self p, hname⟩
      obtain ⟨q, hq, v, hv, hdisplay, hall⟩ := hreliable [p] true d (by simpa using hp) hd hfinding
      obtain rfl : q = p := List.mem_singleton.1 hq
      obtain rfl : v = u := Option.some.inj (hv.symm.trans hu)
      exact ⟨hdisplay, hall⟩
    constructor
    · intro htests hdisplay
      apply (hdead _).2
      rw [Pattern.caseName?_of_not_testsVariant hu htests, hdisplay]
    · intro htests hname
      have hdisplay : g.display u = g.display t := by
        apply (hdead _).1
        rw [Pattern.caseName?, hu, Option.map_some, hname]
      exact Pattern.display_ne_caseName htests (hdisplay.trans hname.symm)
  · intro harms arms catchAll d husable hd hfinding
    obtain ⟨-, p, hp, hname⟩ :=
      (redundantDefault_iff_of_open h hempty arms catchAll).1 ⟨d, hd, hfinding⟩
    obtain ⟨u, hu, hcase⟩ := Option.map_eq_some_iff.1 hname
    obtain ⟨hplain, hvariant⟩ := harms p u (husable p hp) hu
    by_cases htests : p.TestsVariant g
    · exact absurd hcase (hvariant htests)
    · rw [Pattern.caseName?_of_not_testsVariant hu htests, Option.some.injEq] at hname
      exact ⟨p, hp, u, hu, hname, hplain htests hname⟩

end Switch

/-- Things, the coins among them, and parcels with a thing in each. -/
def Sample.parcels : Catalog where
  decls := #[
    { name := "Thing" },
    { name := "Coin", supertype := some (.plain ⟨0⟩) },
    { name := "Parcel", constructors := [{ params := [.plain ⟨0⟩] }] }]
  faultless := by decide

/-- The arm for parcels with a coin. -/
def Sample.coinParcel : Pattern := .deconstructed (.plain ⟨2⟩) [.typed (.plain ⟨1⟩)]

/-- A switch over parcels with an arm for those with a coin needs its default arm, and the report
says otherwise.  Arms that take nothing apart are safe. -/
theorem Switch.check_openDefault_parcels :
    (∃ required, Sample.parcels.requiredNames 64 (.plain ⟨2⟩) = .ok required ∧
      required.isEmpty = true) ∧
    (¬ ∀ arms catchAll d, (∀ p ∈ arms, p = Sample.coinParcel) →
      (Switch.mk (.plain ⟨2⟩) arms catchAll).check Sample.parcels {} = .ok (some d) →
      d.finding = .redundantDefault → Sample.parcels.DefaultIsDead (.plain ⟨2⟩) arms) ∧
    ∀ arms catchAll d, (∀ p ∈ arms, p.parts? = none) →
      (Switch.mk (.plain ⟨2⟩) arms catchAll).check Sample.parcels {} = .ok (some d) →
      d.finding = .redundantDefault → Sample.parcels.DefaultIsDead (.plain ⟨2⟩) arms := by
  have hreq : ∃ required, Sample.parcels.requiredNames ({} : Config).maxDepth (.plain ⟨2⟩) =
      .ok required ∧ required.isEmpty = true := ⟨_, rfl, rfl⟩
  refine ⟨hreq, ?_, ?_⟩
  · obtain ⟨required, hreq, hempty⟩ := hreq
    intro hreliable
    obtain ⟨hplain, -⟩ := (Switch.check_openDefault_iff hreq hempty (· = Sample.coinParcel)).1
      hreliable Sample.coinParcel (.plain ⟨2⟩) rfl rfl
    have htests : ¬ Sample.coinParcel.TestsVariant Sample.parcels :=
      Pattern.partVariants_eq_nil_iff.1 rfl
    have hcoin : (Pattern.typed (.plain ⟨1⟩)).Irrefutable Sample.parcels (some (.plain ⟨0⟩)) :=
      hplain htests rfl [.typed (.plain ⟨1⟩)] rfl 0 _ rfl
    cases hcoin with
    | typed h => exact absurd h (by decide)
  · obtain ⟨required, hreq, hempty⟩ := hreq
    apply (Switch.check_openDefault_iff hreq hempty (·.parts? = none)).2
    intro p u hp _
    constructor
    · intro _ _ parts hparts
      exact absurd (hp.symm.trans hparts) (by simp)
    · intro htests
      obtain ⟨parts, hparts, -⟩ := htests
      exact absurd (hp.symm.trans hparts) (by simp)

end SwitchCoverage
