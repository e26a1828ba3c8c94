import SwitchCoverage.Proofs.Decision

/-!
# Mending a switch

A report says what to do: add arms for the missing cases, or remove the default arm.  Here two
checks are compared, one before and one after the switch is edited.  The required names depend
on the type of the switch alone, so both compare their arms with the same names.  More arms
cover more of them, and a default arm covers none: it decides only what is said when nothing is
missing.  So a switch that follows its reports is done after two steps at most.

## Main definitions

* `missingIn` — the names that an answer says are missing.
* `Switch.RespondsToEdits` — how the answer changes when the switch does.

## Main statements

* `Switch.exists_required_of_check` — switches on one type are compared with the same names.
* `Switch.Decides.enumerates_missingIn` — what an answer misses, whether or not it is a report.
* `Switch.responds_to_edits` — **following the reports mends a switch.**
-/
namespace SwitchCoverage

/-- The names that an answer says are missing.  Where nothing is reported, none is. -/
def missingIn (answer : Option Diagnostic) : List String := (answer.map (·.missing)).getD []

namespace Enumerates

variable {names : List String} {set : Set String}

theorem nil : Enumerates [] ∅ := ⟨.nil, by simp⟩

theorem filter (h : Enumerates names set) (keep : String → Bool) :
    Enumerates (names.filter keep) {n | n ∈ set ∧ keep n = true} where
  ascending := h.ascending.filter keep
  mem_iff n := by rw [List.mem_filter, h.mem_iff]; rfl

end Enumerates

namespace Switch

variable {g : Catalog} {cfg : Config} {s s' : Switch} {answer answer' : Option Diagnostic}
  {required : Set String}

/-! ## Two checks -/

/-- A check that gives an answer lists the required names, and a switch on the same type is
judged by these. -/
theorem exists_required_of_check (h : s.check g cfg = .ok answer) :
    ∃ required : NameSet, g.requiredNames cfg.maxDepth s.scrutinee = .ok required ∧
      s.Decides g cfg required.members answer ∧
      ∀ s' : Switch, s'.scrutinee = s.scrutinee → ∃ answer', s'.check g cfg = .ok answer' ∧
        s'.Decides g cfg required.members answer' := by
  obtain ⟨required, hrequired, rfl⟩ := map_eq_ok_iff.1 h
  refine ⟨required, hrequired, decides_judge g cfg s required, fun s' hs' => ?_⟩
  refine ⟨s'.judge g cfg required, ?_, decides_judge g cfg s' required⟩
  rw [check, hs', hrequired]
  rfl

theorem mem_covered_iff {n : String} :
    n ∈ s.covered g ↔ ∃ p ∈ s.arms, p.caseName? g = some n := by
  rw [← members_coveredNames, NameSet.mem_members, mem_coveredNames]

/-- More arms cover more. -/
theorem covered_mono (h : s.arms ⊆ s'.arms) : s.covered g ⊆ s'.covered g := by
  intro n hn
  obtain ⟨p, hp, hname⟩ := mem_covered_iff.1 hn
  exact mem_covered_iff.2 ⟨p, h hp, hname⟩

namespace Decides

/-- The missing names are the required ones that are not covered, and where nothing is reported
there are none. -/
theorem enumerates_missingIn (h : s.Decides g cfg required answer) :
    Enumerates (missingIn answer) (required \ s.covered g) := by
  rcases required.eq_empty_or_nonempty with hempty | hne
  · have hmissing : missingIn answer = [] := by
      cases answer with
      | none => rfl
      | some d => exact (h.report_open hempty d rfl).2.1
    rw [hmissing, hempty, Set.empty_sdiff]
    exact .nil
  · cases answer with
    | none =>
      rw [Set.sdiff_eq_empty.2 ((h.silent_closed hne).1 rfl).1]
      exact .nil
    | some d => exact (h.report_closed hne d rfl).missing

/-- Where a report says that a switch is not exhaustive, some required name is not covered. -/
theorem notExhaustive_iff {d : Diagnostic} (h : s.Decides g cfg required (some d)) :
    d.finding = .notExhaustive ↔ (required \ s.covered g).Nonempty := by
  rcases required.eq_empty_or_nonempty with hempty | hne
  · rw [(h.report_open hempty d rfl).2.2.finding, hempty, Set.empty_sdiff]
  · exact (h.report_closed hne d rfl).finding

theorem redundantDefault_iff {d : Diagnostic} (h : s.Decides g cfg required (some d)) :
    d.finding = .redundantDefault ↔ required ⊆ s.covered g := by
  rw [← not_iff_not, ← Set.sdiff_nonempty, ← h.notExhaustive_iff]
  cases d.finding <;> simp

/-- A switch without a default arm is silent where nothing is missing. -/
theorem eq_none_of_covered (h : s.Decides g cfg required answer) (hdefault : s.catchAll = false)
    (hcovered : required ⊆ s.covered g) : answer = none := by
  rcases required.eq_empty_or_nonempty with hempty | hne
  · exact (h.silent_open hempty).2 (by simp [hdefault])
  · exact (h.silent_closed hne).2 ⟨hcovered, hdefault⟩

/-- A switch with a default arm is silent only where nothing is required. -/
theorem required_eq_empty (h : s.Decides g cfg required none) (hdefault : s.catchAll = true) :
    required = ∅ := by
  by_contra hne
  have hsilent := (h.silent_closed (Set.nonempty_iff_ne_empty.2 hne)).1 rfl
  simp [hdefault] at hsilent

/-- A default arm makes no difference where something is missing. -/
theorem without_default (h : s.Decides g cfg required answer)
    (hrest : (required \ s.covered g).Nonempty) :
    ({ s with catchAll := false } : Switch).Decides g cfg required answer := by
  have hne : required.Nonempty := hrest.mono Set.sdiff_subset
  have hcovered : ¬ required ⊆ s.covered g := Set.sdiff_nonempty.1 hrest
  refine ⟨fun h => absurd h hne.ne_empty, fun h => absurd h hne.ne_empty, fun _ => ?_,
    h.report_closed⟩
  constructor
  · intro hnone
    exact absurd ((h.silent_closed hne).1 hnone).1 hcovered
  · intro hall
    exact absurd hall.1 hcovered

/-! ## More arms -/

/-- With more arms, no more is missing. -/
theorem missingIn_subset (h : s.Decides g cfg required answer)
    (h' : s'.Decides g cfg required answer') (harms : s.arms ⊆ s'.arms) :
    missingIn answer' ⊆ missingIn answer := by
  intro n hn
  have hrest : n ∈ required \ s'.covered g := (h'.enumerates_missingIn.mem_iff n).1 hn
  exact (h.enumerates_missingIn.mem_iff n).2 ⟨hrest.1, fun hc => hrest.2 (covered_mono harms hc)⟩

/-- One more arm covers one more name, if it has one. -/
theorem missingIn_of_arm (h : s.Decides g cfg required answer)
    (h' : s'.Decides g cfg required answer') {p : Pattern}
    (harms : ∀ q, q ∈ s'.arms ↔ q = p ∨ q ∈ s.arms) :
    missingIn answer' = (missingIn answer).filter fun n => p.caseName? g ≠ some n := by
  have hcovered : ∀ n, n ∈ s'.covered g ↔ p.caseName? g = some n ∨ n ∈ s.covered g := by
    intro n
    simp [mem_covered_iff, harms]
  have hrest : required \ s'.covered g = {n | n ∈ required \ s.covered g ∧
      decide (p.caseName? g ≠ some n) = true} := by
    ext n
    simp only [Set.mem_sdiff, Set.mem_ofPred_eq, hcovered, decide_eq_true_eq]
    tauto
  refine h'.enumerates_missingIn.unique ?_
  rw [hrest]
  exact h.enumerates_missingIn.filter _

/-- With arms for all that is missing, everything is covered: what was not missing was covered
before, or not required. -/
theorem required_subset_covered (h : s.Decides g cfg required answer)
    (harms : s.arms ⊆ s'.arms)
    (hmended : ∀ n ∈ missingIn answer, ∃ p ∈ s'.arms, p.caseName? g = some n) :
    required ⊆ s'.covered g := by
  intro n hn
  by_cases hc : n ∈ s.covered g
  · exact covered_mono harms hc
  · exact mem_covered_iff.2 (hmended n ((h.enumerates_missingIn.mem_iff n).2 ⟨hn, hc⟩))

end Decides

/-! ## Edits -/

/-- How the answer to a switch changes when the switch does. -/
structure RespondsToEdits (g : Catalog) (cfg : Config) (s : Switch)
    (answer : Option Diagnostic) : Prop where
  /-- With more arms, no more is missing. -/
  more_arms : ∀ arms, s.arms ⊆ arms →
    ∃ answer', ({ s with arms } : Switch).check g cfg = .ok answer' ∧
      missingIn answer' ⊆ missingIn answer
  /-- With one more arm, the name of the case that it covers is not missing any more, and all
  others that were missing still are. -/
  one_arm : ∀ p arms, (∀ q, q ∈ arms ↔ q = p ∨ q ∈ s.arms) →
    ∃ answer', ({ s with arms } : Switch).check g cfg = .ok answer' ∧
      missingIn answer' = (missingIn answer).filter fun n => p.caseName? g ≠ some n
  /-- With arms for all missing cases, a switch without a default arm is in order, and one with
  a default arm has that arm left to remove. -/
  all_arms : ∀ d, answer = some d → d.finding = .notExhaustive → ∀ arms, s.arms ⊆ arms →
    (∀ n ∈ d.missing, ∃ p ∈ arms, p.caseName? g = some n) →
    (s.catchAll = false → ({ s with arms } : Switch).check g cfg = .ok none) ∧
    (s.catchAll = true → ∃ d', ({ s with arms } : Switch).check g cfg = .ok (some d') ∧
      d'.finding = .redundantDefault)
  /-- Without its default arm, a switch that is not exhaustive gets the same report, and one
  whose default arm is redundant is in order. -/
  no_default : s.catchAll = true → ∀ d, answer = some d →
    (d.finding = .notExhaustive →
      ({ s with catchAll := false } : Switch).check g cfg = .ok (some d)) ∧
    (d.finding = .redundantDefault →
      ({ s with catchAll := false } : Switch).check g cfg = .ok none)
  /-- A default arm is passed over in silence only where nothing is required. -/
  silent_default : s.catchAll = true → answer = none →
    g.requiredNames cfg.maxDepth s.scrutinee = .ok ∅

/-- **Following the reports mends a switch.**  Whenever a check gives an answer, the answer
responds to edits of the switch as it should. -/
theorem responds_to_edits (h : s.check g cfg = .ok answer) : s.RespondsToEdits g cfg answer := by
  obtain ⟨required, hrequired, hdecides, hsame⟩ := exists_required_of_check h
  constructor
  · intro arms harms
    obtain ⟨answer', hanswer', hdecides'⟩ := hsame { s with arms } rfl
    exact ⟨answer', hanswer', hdecides.missingIn_subset hdecides' harms⟩
  · intro p arms harms
    obtain ⟨answer', hanswer', hdecides'⟩ := hsame { s with arms } rfl
    exact ⟨answer', hanswer', hdecides.missingIn_of_arm hdecides' harms⟩
  · rintro d rfl hfinding arms harms hmended
    obtain ⟨answer', hanswer', hdecides'⟩ := hsame { s with arms } rfl
    have hcovered : required.members ⊆ covered g { s with arms } :=
      hdecides.required_subset_covered harms hmended
    constructor
    · intro hdefault
      rw [hanswer', hdecides'.eq_none_of_covered hdefault hcovered]
    · intro hdefault
      cases answer' with
      | none =>
        have hrest := hdecides.notExhaustive_iff.1 hfinding
        simp [hdecides'.required_eq_empty hdefault] at hrest
      | some d' => exact ⟨d', hanswer', hdecides'.redundantDefault_iff.2 hcovered⟩
  · rintro - d rfl
    obtain ⟨answer', hanswer', hdecides'⟩ := hsame { s with catchAll := false } rfl
    constructor
    · intro hfinding
      have hkept := hdecides.without_default (hdecides.notExhaustive_iff.1 hfinding)
      rw [hanswer', hdecides'.unique hkept]
    · intro hfinding
      have hcovered : required.members ⊆ s.covered g := hdecides.redundantDefault_iff.1 hfinding
      rw [hanswer', hdecides'.eq_none_of_covered rfl hcovered]
  · rintro hdefault rfl
    have hempty : required.members = ∅ := hdecides.required_eq_empty hdefault
    have hnone : required = ∅ := NameSet.ext_mem fun n => by
      simpa using Set.eq_empty_iff_forall_notMem.1 hempty n
    rw [hrequired, hnone]

end Switch

namespace Sample

/-- A result with a text or an HTTP error, of which the success has an arm and the failures are
left to a default arm. -/
def optimist : Switch := ⟨ids.resultHttpError, [.typed success], true⟩

end Sample

theorem Switch.responds_to_edits_optimist :
    ∃ d, Sample.optimist.check Sample.catalog {} = .ok (some d) ∧
      d.finding = .notExhaustive ∧ d.missing.length = 2 ∧
      Sample.optimist.RespondsToEdits Sample.catalog {} (some d) ∧
      (∃ d', ({ Sample.optimist with arms := Sample.resultArms } : Switch).check
        Sample.catalog {} = .ok (some d') ∧ d'.finding = .redundantDefault) ∧
      ({ Sample.optimist with catchAll := false } : Switch).check Sample.catalog {} =
        .ok (some d) := by
  have hcheck : ∃ d, Sample.optimist.check Sample.catalog {} = .ok (some d) ∧
      d.finding = .notExhaustive ∧ d.missing.length = 2 ∧
      ∀ n ∈ d.missing, ∃ p ∈ Sample.resultArms, p.caseName? Sample.catalog = some n :=
    ⟨_, rfl, rfl, rfl, by decide⟩
  obtain ⟨d, hd, hfinding, hlength, hmended⟩ := hcheck
  have harms : Sample.optimist.arms ⊆ Sample.resultArms := by
    simp [Sample.optimist, Sample.resultArms]
  have hresponds := responds_to_edits hd
  exact ⟨d, hd, hfinding, hlength, hresponds,
    (hresponds.all_arms d rfl hfinding _ harms hmended).2 rfl,
    (hresponds.no_default rfl d rfl).1 hfinding⟩

end SwitchCoverage
