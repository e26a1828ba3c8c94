import SwitchCoverage.Proofs.ByteOrder
import SwitchCoverage.Proofs.Cases
import SwitchCoverage.Switch.Check

/-!
# What a check answers

Where some name is required, the answer of a check is settled by two sets of names,
the required and the covered ones.  The statements here say how, once for each part
of a report, so that no later proof has to look inside a report or a listing.

## Main statements

* `Switch.check_of_required`, `Switch.check_of_open` — with or without required names, a check
  gives an answer.
* `Switch.judgeClosed_eq_none_iff` — when there is nothing to report.
* `Switch.matched_of_judgeClosed`, `Switch.missing_of_judgeClosed`,
  `Switch.isNotExhaustive_of_judgeClosed` — what a report lists and what it finds.
-/
namespace SwitchCoverage

/-! ## Sets of names -/

theorem NameSet.isEmpty_iff {s : NameSet} : s.isEmpty = true ↔ ∀ n, ¬ n ∈ s := by
  rw [NameSet.isEmpty, List.isEmpty_iff, List.eq_nil_iff_forall_not_mem]
  exact Iff.rfl

theorem mem_coveredNames {g : Catalog} {ps : List Pattern} {n : String} :
    n ∈ coveredNames g ps ↔ ∃ p ∈ ps, p.caseName? g = some n := by
  rw [coveredNames, NameSet.mem_ofList, List.mem_filterMap]

namespace Switch

variable {g : Catalog} {cfg : Config} {s : Switch} {required : NameSet}

/-! ## Reports -/

@[simp] theorem matched_report (g : Catalog) (cfg : Config) (s : Switch) (ms ns : List String) :
    (s.report g cfg ms ns).matched = Text.sortNames ms := by
  rw [report]
  split <;> rfl

@[simp] theorem missing_report (g : Catalog) (cfg : Config) (s : Switch) (ms ns : List String) :
    (s.report g cfg ms ns).missing = Text.sortNames ns := by
  rw [report]
  split <;> rfl

@[simp] theorem finding_report (g : Catalog) (cfg : Config) (s : Switch) (ms ns : List String) :
    (s.report g cfg ms ns).finding =
      if ns.isEmpty then .redundantDefault else .notExhaustive := by
  rw [report]
  split <;> rfl

/-! ## Answers -/

/-- Where a name is required, a check gives an answer, and it compares the arms with the
required names. -/
theorem check_of_required (h : g.requiredNames cfg.maxDepth s.scrutinee = .ok required)
    (hne : required.isEmpty = false) : s.check g cfg = .ok (s.judgeClosed g cfg required) := by
  simp [check, h, Except.map, judge, hne]

/-- Where no name is required, a check gives an answer too, and it looks for the name of the
type of the switch. -/
theorem check_of_open (h : g.requiredNames cfg.maxDepth s.scrutinee = .ok required)
    (hempty : required.isEmpty = true) : s.check g cfg = .ok (s.judgeOpen g cfg) := by
  simp [check, h, Except.map, judge, hempty]

theorem coversItself_iff_exists : s.coversItself g = true ↔
    ∃ p ∈ s.arms, p.caseName? g = some (g.display s.scrutinee) := by
  simp [coversItself]

/-- The missing names of a switch: required, and the name of no arm. -/
theorem mem_missing {n : String} : n ∈ required \ coveredNames g s.arms ↔
    n ∈ required ∧ ¬ ∃ p ∈ s.arms, p.caseName? g = some n := by
  rw [NameSet.mem_sdiff, mem_coveredNames]

theorem missing_isEmpty_iff : (required \ coveredNames g s.arms).isEmpty = true ↔
    ∀ n ∈ required, ∃ p ∈ s.arms, p.caseName? g = some n := by
  simp only [NameSet.isEmpty_iff, mem_missing, not_and, not_not]

/-- **Silence.**  There is nothing to report just when each required name is the name of
an arm and there is no default arm. -/
theorem judgeClosed_eq_none_iff : s.judgeClosed g cfg required = none ↔
    (∀ n ∈ required, ∃ p ∈ s.arms, p.caseName? g = some n) ∧ s.catchAll = false := by
  rw [← missing_isEmpty_iff, judgeClosed]
  cases (required \ coveredNames g s.arms).isEmpty <;> cases s.catchAll <;> simp

/-- A report is made of the covered and the missing names. -/
theorem eq_report_of_judgeClosed {d : Diagnostic} (h : s.judgeClosed g cfg required = some d) :
    d = s.report g cfg (coveredNames g s.arms).toList
      (required \ coveredNames g s.arms).toList := by
  simp only [judgeClosed] at h
  split at h
  · cases h
  · exact (Option.some.inj h).symm

theorem matched_of_judgeClosed {d : Diagnostic} (h : s.judgeClosed g cfg required = some d) :
    d.matched = (coveredNames g s.arms).toList := by
  simp [eq_report_of_judgeClosed h]

theorem missing_of_judgeClosed {d : Diagnostic} (h : s.judgeClosed g cfg required = some d) :
    d.missing = (required \ coveredNames g s.arms).toList := by
  simp [eq_report_of_judgeClosed h]

/-- A report finds the default arm redundant just when no required name is missing. -/
theorem isNotExhaustive_of_judgeClosed {d : Diagnostic}
    (h : s.judgeClosed g cfg required = some d) : d.isNotExhaustive = false ↔
      ∀ n ∈ required, ∃ p ∈ s.arms, p.caseName? g = some n := by
  rw [← missing_isEmpty_iff, NameSet.isEmpty, Diagnostic.isNotExhaustive,
    eq_report_of_judgeClosed h, finding_report]
  cases (required \ coveredNames g s.arms).toList.isEmpty <;> decide

/-- A silent check leaves no required name without an arm. -/
theorem covered_of_check_eq_none (h : g.requiredNames cfg.maxDepth s.scrutinee = .ok required)
    (hne : required.isEmpty = false) (hnone : s.check g cfg = .ok none) :
    ∀ n ∈ required, ∃ p ∈ s.arms, p.caseName? g = some n := by
  rw [check_of_required h hne] at hnone
  exact (judgeClosed_eq_none_iff.1 (Except.ok.inj hnone)).1

/-- A check says nothing of missing cases just when each required name has an arm. -/
theorem check_not_isNotExhaustive_iff
    (h : g.requiredNames cfg.maxDepth s.scrutinee = .ok required)
    (hne : required.isEmpty = false) :
    (∃ answer, s.check g cfg = .ok answer ∧ ∀ d ∈ answer, d.isNotExhaustive = false) ↔
      ∀ n ∈ required, ∃ p ∈ s.arms, p.caseName? g = some n := by
  rw [check_of_required h hne]
  constructor
  · rintro ⟨answer, hanswer, hd⟩
    obtain rfl : s.judgeClosed g cfg required = answer := Except.ok.inj hanswer
    cases hjudge : s.judgeClosed g cfg required with
    | none => exact (judgeClosed_eq_none_iff.1 hjudge).1
    | some d => exact (isNotExhaustive_of_judgeClosed hjudge).1 (hd d hjudge)
  · intro hcovered
    exact ⟨_, rfl, fun d hd => (isNotExhaustive_of_judgeClosed hd).2 hcovered⟩

end Switch

end SwitchCoverage
