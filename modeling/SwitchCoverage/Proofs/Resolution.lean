import SwitchCoverage.Proofs.Composition

/-!
# Types that nothing is required of

A check looks at one thing before it decides how to judge a switch: whether any name is required of
its type.  If none is, it takes the type for one whose cases cannot be listed, and nearly every
switch on it passes.  So no name may be required by accident: a closed type that can be resolved
must not come out without cases, or switches on it would pass unexamined.

Two things could leave such a type without cases.  An expansion could end without a leaf, but a
closed declaration has a variant to go on with.  And a leaf could contribute no name, if there were
no way to choose variants for its split fields; but each of these fields has several.

## Main definitions

* `Catalog.Resolvable` — a closed type that has its arguments, and so have its leaves.

## Main statements

* `Catalog.required_nonempty_iff` — something is required of the types that can be resolved.
* `Switch.check_of_resolvable`, `Switch.check_of_not_resolvable` — how switches are judged.
* `Switch.check_without_arms` — the switches that show it.
* `Catalog.nothing_required_iff` — **nothing is required just where nothing can be resolved.**
-/
namespace SwitchCoverage

namespace Catalog

variable {g : Catalog} {limit : Nat} {t : Ty} {ls : List Ty} {required : NameSet}

/-- A type can be resolved, where `ls` are its leaves: its declaration is closed, and neither the
type nor a leaf lacks arguments. -/
structure Resolvable (g : Catalog) (t : Ty) (ls : List Ty) : Prop where
  /-- The declaration is closed. -/
  closed : g.isClosed t = true
  /-- The type has its arguments. -/
  bound : g.isUnbound t = false
  /-- The leaves have their arguments. -/
  leaves : ∀ v ∈ ls, g.isUnbound v = false

theorem not_resolvable_iff : ¬ g.Resolvable t ls ↔
    g.isClosed t = false ∨ g.isUnbound t = true ∨ ∃ v ∈ ls, g.isUnbound v = true := by
  constructor
  · intro h
    by_contra hnone
    simp only [not_or, not_exists, not_and, Bool.not_eq_false, Bool.not_eq_true] at hnone
    obtain ⟨hclosed, hbound, hleaves⟩ := hnone
    exact h ⟨hclosed, hbound, hleaves⟩
  · rintro (hopen | hunbound | ⟨v, hv, hunbound⟩) h
    · simp [h.closed] at hopen
    · simp [h.bound] at hunbound
    · simp [h.leaves v hv] at hunbound

theorem Resolvable.isExpandable (h : g.Resolvable t ls) : g.isExpandable t = true := by
  simp [Catalog.isExpandable, h.closed, h.bound]

/-- Where the required names are listed, so are the leaves. -/
theorem exists_leaves_of_required (h : g.requiredNames limit t = .ok required) :
    ∃ ls, g.leaves limit t = .ok ls := by
  rcases requiredNames_eq_ok_iff.1 h with ⟨hx, -⟩ | ⟨-, ls, hls, -⟩
  · exact ⟨[t], leavesWithin_of_not_isExpandable hx limit⟩
  · exact ⟨ls, hls⟩

/-- Where the required names of a type that can be resolved are listed, its cases are. -/
theorem Resolvable.listed (hres : g.Resolvable t ls) (hls : g.leaves limit t = .ok ls)
    (h : g.requiredNames limit t = .ok required) : g.Listed limit t ls := by
  have hbound : g.anyUnbound ls = false := anyUnbound_eq_false_iff.2 hres.leaves
  rcases requiredNames_eq_ok_iff.1 h with ⟨hx, -⟩ | ⟨-, ls', hls', hcases⟩
  · simp [hres.isExpandable] at hx
  · obtain rfl : ls = ls' := Except.ok.inj (hls.symm.trans hls')
    rcases hcases with ⟨hunbound, -⟩ | ⟨-, nss, hnss, -⟩
    · simp [hbound] at hunbound
    · exact .of_leafCases hres.isExpandable hls hbound hnss

/-- Something is required of a type just when it can be resolved. -/
theorem required_nonempty_iff (h : g.requiredNames limit t = .ok required)
    (hls : g.leaves limit t = .ok ls) : required.isEmpty = false ↔ g.Resolvable t ls := by
  constructor
  · intro hne
    obtain ⟨ls', hlisted, -⟩ := listed_of_required h hne
    obtain rfl : ls = ls' := Except.ok.inj (hls.symm.trans hlisted.leaves)
    have hx : g.isClosed t = true ∧ g.isUnbound t = false := by
      simpa [Catalog.isExpandable] using hlisted.isExpandable
    exact ⟨hx.1, hx.2, hlisted.bound⟩
  · intro hres
    obtain ⟨required', h', hne, -⟩ := (hres.listed hls h).exists_required
    obtain rfl : required = required' := Except.ok.inj (h.symm.trans h')
    exact hne

end Catalog

namespace Switch

variable {g : Catalog} {cfg : Config} {s : Switch} {ls : List Ty} {required : NameSet}

/-- A switch on a type that can be resolved is compared with the required names. -/
theorem check_of_resolvable (h : g.requiredNames cfg.maxDepth s.scrutinee = .ok required)
    (hls : g.leaves cfg.maxDepth s.scrutinee = .ok ls) (hres : g.Resolvable s.scrutinee ls) :
    s.check g cfg = .ok (s.judgeClosed g cfg required) :=
  check_of_required h ((Catalog.required_nonempty_iff h hls).2 hres)

/-- A switch on any other type is judged by the name of the type alone. -/
theorem check_of_not_resolvable (h : g.requiredNames cfg.maxDepth s.scrutinee = .ok required)
    (hls : g.leaves cfg.maxDepth s.scrutinee = .ok ls) (hres : ¬ g.Resolvable s.scrutinee ls) :
    s.check g cfg = .ok (s.judgeOpen g cfg) := by
  rw [← Catalog.required_nonempty_iff h hls, Bool.not_eq_false] at hres
  exact check_of_open h hres

/-- A switch without arms is reported if its type can be resolved, and passes otherwise. -/
theorem check_without_arms (h : g.requiredNames cfg.maxDepth s.scrutinee = .ok required)
    (hls : g.leaves cfg.maxDepth s.scrutinee = .ok ls) (harms : s.arms = []) :
    (∃ d, s.check g cfg = .ok (some d)) ↔ g.Resolvable s.scrutinee ls := by
  by_cases hres : g.Resolvable s.scrutinee ls
  · have hreport : s.judgeClosed g cfg required ≠ none := by
      rw [Ne, judgeClosed_eq_none_iff, harms]
      rintro ⟨hcovered, -⟩
      have hempty : required.isEmpty = true := by
        rw [NameSet.isEmpty_iff]
        intro n hn
        simpa using hcovered n hn
      simp [(Catalog.required_nonempty_iff h hls).2 hres] at hempty
    obtain ⟨d, hd⟩ := Option.ne_none_iff_exists'.1 hreport
    simp [check_of_resolvable h hls hres, hd, hres]
  · have hsilent : s.judgeOpen g cfg = none := by simp [judgeOpen, coversItself, harms]
    simp [check_of_not_resolvable h hls hres, hsilent, hres]

end Switch

/-- **Nothing is required just where nothing can be resolved.**  Where the required names of a type
are listed, so are its leaves.  There is no required name just when the declaration of the type is
not closed, or the type or one of its leaves lacks arguments.  So a switch on a type that can be
resolved is always compared with the required names, and a switch on any other type never; and a
switch without arms shows which of the two has happened. -/
theorem Catalog.nothing_required_iff {g : Catalog} {cfg : Config} {t : Ty} {required : NameSet}
    (h : g.requiredNames cfg.maxDepth t = .ok required) :
    ∃ ls, g.leaves cfg.maxDepth t = .ok ls ∧
      (required.isEmpty = true ↔
        g.isClosed t = false ∨ g.isUnbound t = true ∨ ∃ v ∈ ls, g.isUnbound v = true) ∧
      ∀ s : Switch, s.scrutinee = t →
        (g.Resolvable t ls → s.check g cfg = .ok (s.judgeClosed g cfg required)) ∧
        (¬ g.Resolvable t ls → s.check g cfg = .ok (s.judgeOpen g cfg)) ∧
        (s.arms = [] → ((∃ d, s.check g cfg = .ok (some d)) ↔ g.Resolvable t ls)) := by
  obtain ⟨ls, hls⟩ := exists_leaves_of_required h
  refine ⟨ls, hls, ?_, ?_⟩
  · rw [← not_resolvable_iff, ← required_nonempty_iff h hls, Bool.not_eq_false]
  · rintro s rfl
    exact ⟨Switch.check_of_resolvable h hls, Switch.check_of_not_resolvable h hls,
      Switch.check_without_arms h hls⟩

/-- Nothing is required of an expression, since `Bind` lacks arguments.  A figure can be resolved,
so a switch on it that has a default arm and nothing else is reported. -/
theorem Catalog.nothing_required_iff_samples :
    (∃ ls, Sample.exprs.leaves 64 Sample.intExpr = .ok ls ∧
      Sample.exprs.requiredNames 64 Sample.intExpr = .ok ∅ ∧
      Sample.exprs.isExpandable Sample.intExpr = true ∧
      ∃ v ∈ ls, Sample.exprs.isUnbound v = true) ∧
    ∃ ls required, Sample.figures.leaves 64 Sample.figure = .ok ls ∧
      Sample.figures.requiredNames 64 Sample.figure = .ok required ∧ required.isEmpty = false ∧
      Sample.figures.Resolvable Sample.figure ls ∧
      ∃ d, (Switch.mk Sample.figure [] true).check Sample.figures {} = .ok (some d) := by
  constructor
  · have hnone : Sample.exprs.requiredNames ({} : Config).maxDepth Sample.intExpr = .ok ∅ := rfl
    obtain ⟨ls, hls, hiff, -⟩ := nothing_required_iff hnone
    refine ⟨ls, hls, hnone, rfl, ?_⟩
    rcases hiff.1 rfl with hopen | hunbound | hleaf
    · exact absurd hopen (by decide)
    · exact absurd hunbound (by decide)
    · exact hleaf
  · have hsome : ∃ required, Sample.figures.requiredNames ({} : Config).maxDepth Sample.figure =
        .ok required ∧ required.isEmpty = false := ⟨_, rfl, rfl⟩
    obtain ⟨required, hrequired, hne⟩ := hsome
    obtain ⟨ls, hls, hiff, hpaths⟩ := nothing_required_iff hrequired
    have hres : Sample.figures.Resolvable Sample.figure ls := by
      by_contra hres
      simp [hiff.2 (not_resolvable_iff.1 hres)] at hne
    obtain ⟨-, -, hreport⟩ := hpaths ⟨Sample.figure, [], true⟩ rfl
    exact ⟨ls, required, hls, hrequired, hne, hres, (hreport rfl).2 hres⟩

end SwitchCoverage
