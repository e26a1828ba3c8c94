import SwitchCoverage.Proofs.Arms
import SwitchCoverage.Proofs.Verdict
import SwitchCoverage.Sample

/-!
# One arm for each case

The names that a switch has to cover and the names that its arms cover are put
together in different ways: the first from the hierarchy and the fields of its
leaves, the second from what an arm happens to mention.  They meet on the arms that
are written for the cases.  With such an arm for every case a check has nothing to
say, and it finds a default arm redundant; with some of them left out, it misses the
names that are left out, and no others.

## Main definitions

* `ArmsOf` — arms that are written for the given cases, with at least one for each.

## Main statements

* `coveredNames_of_armsOf` — arms for all cases cover the required names and no others.
* `Switch.check_of_armsOf` — **closure and exact omission.**
-/
namespace SwitchCoverage

/-- The arms are written for the cases: each case has an arm, and each arm is for a case.
Their order does not matter, and a case may have several. -/
structure ArmsOf (cs : List Case) (arms : List Pattern) : Prop where
  /-- Every case has an arm. -/
  each : ∀ c ∈ cs, ∃ p ∈ arms, c.IsArm p
  /-- Every arm is for a case. -/
  only : ∀ p ∈ arms, ∃ c ∈ cs, c.IsArm p

variable {g : Catalog} {cfg : Config} {t : Ty} {required : NameSet} {cs : List Case}

/-- Arms for all cases cover the required names and no others. -/
theorem coveredNames_of_armsOf {limit : Nat} (hcs : g.cases limit t = .ok cs)
    (hrequired : ∀ n, n ∈ required ↔ ∃ c ∈ cs, c.name g = n) {arms : List Pattern}
    (harms : ArmsOf cs arms) : coveredNames g arms = required := by
  have hname : ∀ c ∈ cs, ∀ p, c.IsArm p → p.caseName? g = some (c.name g) := by
    intro c hc p hp
    exact hp.caseName?_eq ((Catalog.mem_cases hcs).1 hc)
  apply NameSet.ext_mem
  intro n
  rw [mem_coveredNames, hrequired]
  constructor
  · rintro ⟨p, hp, hn⟩
    obtain ⟨c, hc, harm⟩ := harms.only p hp
    exact ⟨c, hc, Option.some.inj ((hname c hc p harm).symm.trans hn)⟩
  · rintro ⟨c, hc, rfl⟩
    obtain ⟨p, hp, harm⟩ := harms.each c hc
    exact ⟨p, hp, hname c hc p harm⟩

/-- Without a default arm, a check answers with the required names that no arm has, in
ascending order, and is silent if there are none. -/
theorem Switch.check_without_default (h : g.requiredNames cfg.maxDepth t = .ok required)
    (hne : required.isEmpty = false) (kept : List Pattern) :
    ∃ answer, (Switch.mk t kept false).check g cfg = .ok answer ∧
      (answer = none ↔ ∀ n ∈ required, ∃ p ∈ kept, p.caseName? g = some n) ∧
      ∀ d ∈ answer, d.finding = .notExhaustive ∧ d.missing.Pairwise (· < ·) ∧
        ∀ n, n ∈ d.missing ↔ n ∈ required ∧ ¬ ∃ p ∈ kept, p.caseName? g = some n := by
  have hnone : judgeClosed g cfg ⟨t, kept, false⟩ required = none ↔
      (∀ n ∈ required, ∃ p ∈ kept, p.caseName? g = some n) ∧ false = false :=
    judgeClosed_eq_none_iff
  refine ⟨_, check_of_required h hne, by simpa using hnone, ?_⟩
  intro d hd
  refine ⟨?_, ?_, ?_⟩
  · have hmissing : ¬ ∀ n ∈ required, ∃ p ∈ kept, p.caseName? g = some n := by
      intro hall
      rw [hnone.2 ⟨hall, rfl⟩] at hd
      cases hd
    rw [← isNotExhaustive_of_judgeClosed hd] at hmissing
    simpa [Diagnostic.isNotExhaustive] using hmissing
  · rw [missing_of_judgeClosed hd]
    exact NameSet.ascending _
  · intro n
    rw [missing_of_judgeClosed hd]
    exact mem_missing

/-- **Closure and exact omission.**  Let a switch have to cover something.  Then its cases
are listed, and with arms for all of them a check is silent, or, if there is a default arm
as well, it reports that arm and lists all required names as matched.  With any of these
arms left out, what a check reports missing are the required names that no kept arm has;
it is silent just when there are none. -/
theorem Switch.check_of_armsOf (h : g.requiredNames cfg.maxDepth t = .ok required)
    (hne : required.isEmpty = false) :
    ∃ cs, g.cases cfg.maxDepth t = .ok cs ∧ ∀ arms, ArmsOf cs arms →
      (Switch.mk t arms false).check g cfg = .ok none ∧
      (∃ d, (Switch.mk t arms true).check g cfg = .ok (some d) ∧
        d.finding = .redundantDefault ∧ d.missing = [] ∧ d.matched = required.toList) ∧
      ∀ kept, kept.Sublist arms → ∃ answer, (Switch.mk t kept false).check g cfg = .ok answer ∧
        (answer = none ↔ ∀ n ∈ required, ∃ p ∈ kept, p.caseName? g = some n) ∧
        ∀ d ∈ answer, d.finding = .notExhaustive ∧ d.missing.Pairwise (· < ·) ∧
          ∀ n, n ∈ d.missing ↔ n ∈ required ∧ ¬ ∃ p ∈ kept, p.caseName? g = some n := by
  obtain ⟨-, -, cs, hcs, hrequired⟩ := Catalog.requiredNames_cases h hne
  refine ⟨cs, hcs, fun arms harms => ?_⟩
  have hcovered := coveredNames_of_armsOf hcs hrequired harms
  have hall : ∀ n ∈ required, ∃ p ∈ arms, p.caseName? g = some n := by
    intro n hn
    rw [← mem_coveredNames, hcovered]
    exact hn
  refine ⟨?_, ?_, fun kept _ => check_without_default h hne kept⟩
  · rw [check_of_required h hne, judgeClosed_eq_none_iff.2 ⟨hall, rfl⟩]
  · -- The flag alone makes the difference: nothing is missing, and yet there is a report.
    rw [check_of_required h hne]
    cases hd : judgeClosed g cfg ⟨t, arms, true⟩ required with
    | none => exact absurd (judgeClosed_eq_none_iff.1 hd).2 (by simp)
    | some d =>
      have hfinding := (isNotExhaustive_of_judgeClosed hd).2 hall
      have hmissing : (required \ coveredNames g arms).isEmpty = true :=
        missing_isEmpty_iff (s := ⟨t, arms, true⟩).2 hall
      refine ⟨d, rfl, ?_, ?_, ?_⟩
      · revert hfinding
        cases hf : d.finding <;> simp [Diagnostic.isNotExhaustive, hf]
      · rw [missing_of_judgeClosed hd]
        exact List.isEmpty_iff.1 hmissing
      · rw [matched_of_judgeClosed hd, hcovered]

namespace Sample

/-- The failure of a result with a text or an HTTP error. -/
def failure : Ty := (Ty.plain ids.error).within ids.resultHttpError

/-- The success of a result with a text or an HTTP error. -/
def success : Ty := (Ty.plain ids.ok).within ids.resultHttpError

/-- The two HTTP errors that carry a text. -/
def httpErrors : Ty × Ty :=
  ((Ty.plain ids.exceptionError).within ids.httpErrorString,
    (Ty.plain ids.errorResponseError).within ids.httpErrorString)

/-- The cases of a result with a text or an HTTP error. -/
def resultCases : List Case :=
  let fields := [⟨0, [httpErrors.1, httpErrors.2]⟩]
  [⟨success, [], []⟩, ⟨failure, fields, [httpErrors.1]⟩, ⟨failure, fields, [httpErrors.2]⟩]

/-- An arm for each of these cases, in another order. -/
def resultArms : List Pattern :=
  [.deconstructed failure [.deconstructed httpErrors.2 [.wildcard]], .typed success,
    .deconstructed failure [.typed httpErrors.1]]

theorem required_resultHttpError :
    ∃ required, catalog.requiredNames 64 ids.resultHttpError = .ok required ∧
      required.isEmpty = false := ⟨_, rfl, rfl⟩

theorem cases_resultHttpError : catalog.cases 64 ids.resultHttpError = .ok resultCases := rfl

theorem armsOf_resultArms : ArmsOf resultCases resultArms := by
  have hsuccess : Case.IsArm ⟨success, [], []⟩ (.typed success) := rfl
  -- A failure has one field, which is split, so an arm has one sub-pattern to speak of.
  have hfailure : ∀ (v : Ty) (vs : List Ty) (q : Pattern), q.target? = some v →
      Case.IsArm ⟨failure, [⟨0, vs⟩], [v]⟩ (.deconstructed failure [q]) := by
    intro v vs q hq
    refine ⟨[q], rfl, ?_, ?_⟩
    · intro i w hw
      obtain ⟨rfl, rfl⟩ : i = 0 ∧ w = v := by simpa [Case.places] using hw
      exact ⟨q, rfl, hq⟩
    · intro i q' hq' hi
      obtain ⟨k, rfl⟩ : ∃ k, i = k + 1 := Nat.exists_eq_succ_of_ne_zero (by simpa using hi)
      simp at hq'
  constructor
  · simp only [resultCases, List.forall_mem_cons, List.not_mem_nil]
    exact ⟨⟨_, .tail _ (.head _), hsuccess⟩,
      ⟨_, .tail _ (.tail _ (.head _)), hfailure _ _ _ rfl⟩,
      ⟨_, .head _, hfailure _ _ _ rfl⟩, by simp⟩
  · simp only [resultArms, List.forall_mem_cons, List.not_mem_nil]
    exact ⟨⟨_, .tail _ (.tail _ (.head _)), hfailure _ _ _ rfl⟩,
      ⟨_, .head _, hsuccess⟩, ⟨_, .tail _ (.head _), hfailure _ _ _ rfl⟩, by simp⟩

theorem silent_resultArms :
    (Switch.mk ids.resultHttpError resultArms false).check catalog {} = .ok none := by
  rfl

end Sample

theorem Switch.check_of_armsOf_resultArms :
    (∃ required, Sample.catalog.requiredNames 64 Sample.ids.resultHttpError = .ok required ∧
      required.isEmpty = false) ∧
    Sample.catalog.cases 64 Sample.ids.resultHttpError = .ok Sample.resultCases ∧
    ArmsOf Sample.resultCases Sample.resultArms ∧
    (Switch.mk Sample.ids.resultHttpError Sample.resultArms false).check Sample.catalog {} =
      .ok none := by
  refine ⟨Sample.required_resultHttpError, Sample.cases_resultHttpError,
    Sample.armsOf_resultArms, ?_⟩
  obtain ⟨required, hreq, hne⟩ := Sample.required_resultHttpError
  obtain ⟨cs, hcs, hall⟩ := @Switch.check_of_armsOf _ {} _ _ hreq hne
  obtain rfl : Sample.resultCases = cs :=
    Except.ok.inj (Sample.cases_resultHttpError.symm.trans hcs)
  exact (hall _ Sample.armsOf_resultArms).1

end SwitchCoverage
