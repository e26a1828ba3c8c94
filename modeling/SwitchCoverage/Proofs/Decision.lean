import Mathlib.Data.Set.Insert
import SwitchCoverage.Proofs.Closure

/-!
# The decision as a comparison of two sets

A check works on lists: it collects names, sorts them and puts texts together.  What it
answers is a matter of two sets alone, the required names and the covered ones.  Here the
answer is specified in terms of these sets, with listings only where a report shows them,
and the specification leaves one answer open.

It follows that two lists of arms that cover the same names get the same answer, and so
do lists that differ in the order of the arms, in repetitions, in arms that test for no
type, or deep inside a pattern.

## Main definitions

* `Enumerates` — a list that shows a set.
* `Diagnostic.Reports` — the report on given sets of matched and missing names.
* `Switch.Decides` — the answer that given required names call for.
* `Rearranged` — changes to a list of arms that a check does not notice.

## Main statements

* `Switch.check_decides` — **a check gives the one answer that is called for.**
* `Switch.judge_congr` — what an answer depends on.
* `Switch.check_eq_of_coverAlike` — **arms that cover the same names get the same answer.**
-/
namespace SwitchCoverage

/-! ## Listings of sets -/

/-- The list has the members of the set, each of them once, in the order of their bytes. -/
structure Enumerates (names : List String) (set : Set String) : Prop where
  /-- The bytes of the names ascend, so no name occurs twice. -/
  ascending : names.Pairwise fun m n => Text.bytes m < Text.bytes n
  /-- The names are the members. -/
  mem_iff : ∀ n, n ∈ names ↔ n ∈ set

namespace Enumerates

variable {xs ys : List String} {set : Set String}

theorem unique (hx : Enumerates xs set) (hy : Enumerates ys set) : xs = ys := by
  have hlt : ∀ {zs : List String}, Enumerates zs set → zs.Pairwise (· < ·) :=
    fun hz => hz.ascending.imp Text.bytes_lt_iff.1
  exact (hlt hx).eq_of_mem_iff (hlt hy) fun n => by rw [hx.mem_iff, hy.mem_iff]

end Enumerates

namespace NameSet

/-- The members of a set of names. -/
def members (s : NameSet) : Set String := {n | n ∈ s}

@[simp] theorem mem_members {s : NameSet} {n : String} : n ∈ s.members ↔ n ∈ s := .rfl

theorem enumerates (s : NameSet) : Enumerates s.toList s.members where
  ascending := s.ascending.imp Text.bytes_lt_iff.2
  mem_iff _ := .rfl

theorem isEmpty_eq_false_iff {s : NameSet} : s.isEmpty = false ↔ s.members.Nonempty := by
  rw [← Bool.not_eq_true, isEmpty_iff]
  simp [Set.Nonempty]

theorem members_sdiff (s t : NameSet) : (s \ t).members = s.members \ t.members := by
  ext n
  simp

end NameSet

/-! ## Reports on sets -/

/-- A titled listing; nothing if there are no names. -/
def titled (title : String) (names : List String) : List String :=
  if names = [] then [] else [title ++ ": " ++ ", ".intercalate names]

/-- The report on a switch on `base` that covers the names of one set and leaves out those
of another.  Its texts are made of the two listings as they stand. -/
structure Diagnostic.Reports (base : String) (suggest : Bool) (covered rest : Set String)
    (d : Diagnostic) : Prop where
  /-- The covered names are listed. -/
  matched : Enumerates d.matched covered
  /-- The names left out are listed. -/
  missing : Enumerates d.missing rest
  /-- The switch is not exhaustive just when a name is left out. -/
  finding : d.finding = .notExhaustive ↔ rest.Nonempty
  /-- The code is that of the finding. -/
  code : d.code.text = if d.finding = .notExhaustive then "E3001" else "E3002"
  /-- It is a warning. -/
  severity : d.severity = .warning
  /-- The headline says what is found. -/
  headline : d.headline = "Switch on " ++ base ++
    if d.finding = .notExhaustive then " is not exhaustive" else " has redundant default arm"
  /-- The note shows the listings that are not empty. -/
  note : d.note = "; ".intercalate (titled "Matched" d.matched ++ titled "Missing" d.missing)
  /-- The suggestion names all that is missing, or the default arm if nothing is. -/
  suggestions : d.suggestions =
    if suggest then
      [if d.finding = .notExhaustive then "add arms for: " ++ ", ".intercalate d.missing
        else "remove the default arm"]
    else []

namespace Diagnostic

theorem finding_eq_of_iff {f f' : Finding} (h : f = .notExhaustive ↔ f' = .notExhaustive) :
    f = f' := by
  cases f <;> cases f' <;> simp_all

/-- Two sets leave one report open. -/
theorem Reports.unique {base : String} {suggest : Bool} {covered rest : Set String}
    {d d' : Diagnostic} (h : d.Reports base suggest covered rest)
    (h' : d'.Reports base suggest covered rest) : d = d' := by
  have hmatched : d.matched = d'.matched := h.matched.unique h'.matched
  have hmissing : d.missing = d'.missing := h.missing.unique h'.missing
  have hfinding : d.finding = d'.finding :=
    finding_eq_of_iff (h.finding.trans h'.finding.symm)
  have hcode : d.code = d'.code := by
    have htext : d.code.text = d'.code.text := by rw [h.code, h'.code, hfinding]
    rw [← Option.some_inj, ← Code.parse?_text, htext, Code.parse?_text]
  have hseverity : d.severity = d'.severity := by rw [h.severity, h'.severity]
  have hheadline : d.headline = d'.headline := by rw [h.headline, h'.headline, hfinding]
  have hnote : d.note = d'.note := by rw [h.note, h'.note, hmatched, hmissing]
  have hsuggestions : d.suggestions = d'.suggestions := by
    rw [h.suggestions, h'.suggestions, hfinding, hmissing]
  cases d
  cases d'
  simp_all

end Diagnostic

theorem listing_toList (title : String) (s : NameSet) :
    Message.listing title s.toList = titled title s.toList := by
  simp [Message.listing, titled]

namespace Switch

variable {g : Catalog} {cfg : Config} {s : Switch} {required : NameSet}

@[simp] theorem code_report (g : Catalog) (cfg : Config) (s : Switch) (ms ns : List String) :
    (s.report g cfg ms ns).code = (s.report g cfg ms ns).finding.code := by
  rw [report]
  split <;> rfl

@[simp] theorem severity_report (g : Catalog) (cfg : Config) (s : Switch) (ms ns : List String) :
    (s.report g cfg ms ns).severity = .warning := by
  rw [report]
  split <;> rfl

@[simp] theorem headline_report (g : Catalog) (cfg : Config) (s : Switch) (ms ns : List String) :
    (s.report g cfg ms ns).headline = Message.headline (g.bareName s.scrutinee) ns := by
  rw [report]
  split <;> rfl

@[simp] theorem note_report (g : Catalog) (cfg : Config) (s : Switch) (ms ns : List String) :
    (s.report g cfg ms ns).note = Message.note ms ns := by
  rw [report]
  split <;> rfl

@[simp] theorem suggestions_report (g : Catalog) (cfg : Config) (s : Switch)
    (ms ns : List String) : (s.report g cfg ms ns).suggestions =
      if cfg.suggest then [advice (Text.sortNames ns)] else [] := by
  rw [report]
  split <;> rfl

/-- The report of a check on two sets of names. -/
theorem reports_report (g : Catalog) (cfg : Config) (s : Switch) (covered rest : NameSet) :
    (s.report g cfg covered.toList rest.toList).Reports (g.bareName s.scrutinee) cfg.suggest
      covered.members rest.members where
  matched := by
    rw [matched_report, NameSet.sortNames_toList]
    exact covered.enumerates
  missing := by
    rw [missing_report, NameSet.sortNames_toList]
    exact rest.enumerates
  finding := by
    rw [finding_report, ← NameSet.isEmpty_eq_false_iff, NameSet.isEmpty]
    cases rest.toList.isEmpty <;> simp
  code := by
    rw [code_report]
    cases (s.report g cfg covered.toList rest.toList).finding <;> rfl
  severity := severity_report ..
  headline := by
    rw [headline_report, finding_report, Message.headline]
    cases rest.toList.isEmpty <;> simp [String.append_assoc]
  note := by
    rw [note_report, Message.note, listing_toList, listing_toList]
    simp
  suggestions := by
    rw [suggestions_report, finding_report, missing_report, NameSet.sortNames_toList, advice]
    cases rest.toList.isEmpty <;> simp

/-- The names of the cases that the arms of a switch cover.  An arm that tests for no type
covers none. -/
def covered (g : Catalog) (s : Switch) : Set String :=
  {n | ∃ p ∈ s.arms, p.isCatchAll = false ∧ p.caseName? g = some n}

/-- An arm with a name tests for a type, so the arms that do not can be left in. -/
theorem members_coveredNames (g : Catalog) (s : Switch) :
    (coveredNames g s.arms).members = s.covered g := by
  ext n
  rw [NameSet.mem_members, mem_coveredNames]
  constructor
  · rintro ⟨p, hp, hn⟩
    refine ⟨p, hp, ?_, hn⟩
    obtain ⟨t, ht, -⟩ := Option.map_eq_some_iff.1 hn
    simp [Pattern.isCatchAll, ht]
  · rintro ⟨p, hp, -, hn⟩
    exact ⟨p, hp, hn⟩

/-- The answer that the required names call for. -/
structure Decides (g : Catalog) (cfg : Config) (s : Switch) (required : Set String)
    (answer : Option Diagnostic) : Prop where
  /-- If nothing is required, there is something to report just when an arm covers the
  very type of the switch and there is a default arm. -/
  silent_open : required = ∅ →
    (answer = none ↔ ¬ (s.catchAll = true ∧ g.display s.scrutinee ∈ s.covered g))
  /-- Then the report is about that type alone. -/
  report_open : required = ∅ → ∀ d ∈ answer, d.matched = [g.display s.scrutinee] ∧
    d.missing = [] ∧ d.Reports (g.bareName s.scrutinee) cfg.suggest {g.display s.scrutinee} ∅
  /-- If something is required, there is nothing to report just when all of it is covered
  and there is no default arm. -/
  silent_closed : required.Nonempty →
    (answer = none ↔ required ⊆ s.covered g ∧ s.catchAll = false)
  /-- Then the report is about the covered names, and the required ones that are not. -/
  report_closed : required.Nonempty → ∀ d ∈ answer,
    d.Reports (g.bareName s.scrutinee) cfg.suggest (s.covered g) (required \ s.covered g)

/-- The required names leave one answer open. -/
theorem Decides.unique {required : Set String} {a b : Option Diagnostic}
    (ha : s.Decides g cfg required a) (hb : s.Decides g cfg required b) : a = b := by
  have hreports : ∃ covered rest, (a = none ↔ b = none) ∧
      (∀ d ∈ a, d.Reports (g.bareName s.scrutinee) cfg.suggest covered rest) ∧
      ∀ d ∈ b, d.Reports (g.bareName s.scrutinee) cfg.suggest covered rest := by
    rcases required.eq_empty_or_nonempty with h | h
    · exact ⟨_, _, (ha.silent_open h).trans (hb.silent_open h).symm,
        fun d hd => (ha.report_open h d hd).2.2, fun d hd => (hb.report_open h d hd).2.2⟩
    · exact ⟨_, _, (ha.silent_closed h).trans (hb.silent_closed h).symm,
        ha.report_closed h, hb.report_closed h⟩
  obtain ⟨covered, rest, hnone, hda, hdb⟩ := hreports
  cases a with
  | none => exact (hnone.1 rfl).symm
  | some d =>
    cases b with
    | none => exact absurd (hnone.2 rfl) (by simp)
    | some d' => exact congrArg some ((hda d rfl).unique (hdb d' rfl))

theorem coversItself_iff : s.coversItself g = true ↔ g.display s.scrutinee ∈ s.covered g := by
  rw [← members_coveredNames, NameSet.mem_members, mem_coveredNames, coversItself_iff_exists]

theorem decides_judgeOpen (g : Catalog) (cfg : Config) (s : Switch) :
    s.Decides g cfg ∅ (s.judgeOpen g cfg) where
  silent_open _ := by
    rw [judgeOpen, ← coversItself_iff]
    cases s.catchAll <;> cases s.coversItself g <;> simp
  report_open _ d hd := by
    have hd : s.report g cfg [g.display s.scrutinee] [] = d := by
      rw [judgeOpen] at hd
      split at hd
      · exact Option.some.inj hd
      · cases hd
    have hreports := reports_report g cfg s (.ofList [g.display s.scrutinee]) ∅
    have hcovered : (NameSet.ofList [g.display s.scrutinee]).members = {g.display s.scrutinee} := by
      ext n
      simp
    have hrest : (∅ : NameSet).members = ∅ := by
      ext n
      simp
    rw [hcovered, hrest] at hreports
    subst hd
    exact ⟨matched_report .., missing_report .., hreports⟩
  silent_closed h := by simp at h
  report_closed h := by simp at h

theorem decides_judgeClosed (hne : required.isEmpty = false) :
    s.Decides g cfg required.members (s.judgeClosed g cfg required) := by
  have hne : required.members.Nonempty := NameSet.isEmpty_eq_false_iff.1 hne
  refine ⟨fun h => absurd h hne.ne_empty, fun h => absurd h hne.ne_empty, fun _ => ?_, ?_⟩
  · rw [judgeClosed_eq_none_iff, ← members_coveredNames]
    simp only [← mem_coveredNames]
    rfl
  · intro _ d hd
    rw [eq_report_of_judgeClosed hd, ← members_coveredNames, ← NameSet.members_sdiff]
    exact reports_report ..

theorem decides_judge (g : Catalog) (cfg : Config) (s : Switch) (required : NameSet) :
    s.Decides g cfg required.members (s.judge g cfg required) := by
  rw [judge]
  split
  next hempty =>
    have hmembers : required.members = ∅ := by
      rw [Set.eq_empty_iff_forall_notMem]
      exact NameSet.isEmpty_iff.1 hempty
    rw [hmembers]
    exact decides_judgeOpen g cfg s
  next hne => exact decides_judgeClosed (by simpa using hne)

/-- **A check gives the one answer that is called for.**  If the required names cannot be
listed, the check fails for the same reason.  Otherwise it gives an answer, which is the
only one that meets the specification. -/
theorem check_decides (g : Catalog) (cfg : Config) (s : Switch) :
    match g.requiredNames cfg.maxDepth s.scrutinee with
    | .error e => s.check g cfg = .error e
    | .ok required => ∃ answer, s.check g cfg = .ok answer ∧
        ∀ a, s.Decides g cfg required.members a ↔ a = answer := by
  rw [check]
  cases g.requiredNames cfg.maxDepth s.scrutinee with
  | error e => rfl
  | ok required =>
    refine ⟨_, rfl, fun a => ⟨fun ha => ha.unique (decides_judge g cfg s required), ?_⟩⟩
    rintro rfl
    exact decides_judge g cfg s required

/-! ## What an answer depends on -/

/-- Once the required names are known, an answer depends on the covered names, the two
names of the type of the switch, and whether there is a default arm. -/
theorem judge_congr {h : Catalog} {s' : Switch}
    (hcovered : coveredNames g s.arms = coveredNames h s'.arms)
    (hdisplay : g.display s.scrutinee = h.display s'.scrutinee)
    (hbare : g.bareName s.scrutinee = h.bareName s'.scrutinee)
    (hcatchAll : s.catchAll = s'.catchAll) (cfg : Config) (required : NameSet) :
    s.judge g cfg required = s'.judge h cfg required := by
  have hreport : ∀ ms ns, s.report g cfg ms ns = s'.report h cfg ms ns := by
    intro ms ns
    rw [report, report, hbare]
  have hitself : s.coversItself g = s'.coversItself h := by
    rw [Bool.eq_iff_iff, coversItself_iff, coversItself_iff, ← members_coveredNames,
      ← members_coveredNames, hcovered, hdisplay]
  rw [judge, judge, judgeOpen, judgeOpen, judgeClosed, judgeClosed, hcovered, hdisplay,
    hcatchAll, hitself]
  simp only [hreport]

end Switch

/-! ## Arms that cover the same names -/

/-- The two lists of arms cover cases of the same names. -/
def CoverAlike (g : Catalog) (ps qs : List Pattern) : Prop :=
  ∀ n, (∃ p ∈ ps, p.caseName? g = some n) ↔ ∃ q ∈ qs, q.caseName? g = some n

theorem CoverAlike.coveredNames_eq {g : Catalog} {ps qs : List Pattern}
    (h : CoverAlike g ps qs) : coveredNames g ps = coveredNames g qs :=
  NameSet.ext_mem fun n => by rw [mem_coveredNames, mem_coveredNames, h n]

/-- Two patterns test for the same type, and so do their sub-patterns.  What stands below
these may differ. -/
structure Pattern.AgreeAbove (p q : Pattern) : Prop where
  /-- The targets are equal. -/
  target : p.target? = q.target?
  /-- The targets of the sub-patterns are equal. -/
  parts : (p.parts?.getD []).map (·.target?) = (q.parts?.getD []).map (·.target?)

/-- The name of a case is made of the targets on two levels. -/
theorem Pattern.AgreeAbove.caseName?_eq {p q : Pattern} (h : p.AgreeAbove q) (g : Catalog) :
    p.caseName? g = q.caseName? g := by
  have hvariants : ∀ p : Pattern, p.partVariants g =
      ((p.parts?.getD []).map (·.target?)).filterMap fun t => t.filter g.isVariant := by
    intro p
    rw [partVariants, List.filterMap_map]
    rfl
  rw [caseName?, caseName?, h.target, hvariants p, hvariants q, h.parts]

/-- Changes to a list of arms that a check does not notice. -/
inductive Rearranged : List Pattern → List Pattern → Prop where
  /-- The arms change places. -/
  | perm {ps qs : List Pattern} : ps.Perm qs → Rearranged ps qs
  /-- An arm is repeated. -/
  | again {p : Pattern} {ps : List Pattern} : p ∈ ps → Rearranged ps (p :: ps)
  /-- An arm that tests for no type is put in. -/
  | catchAll {p : Pattern} {ps : List Pattern} : p.isCatchAll = true → Rearranged ps (p :: ps)
  /-- The arms change below their sub-patterns. -/
  | deeper {ps qs : List Pattern} : List.Forall₂ Pattern.AgreeAbove ps qs → Rearranged ps qs
  /-- A change is undone. -/
  | symm {ps qs : List Pattern} : Rearranged ps qs → Rearranged qs ps
  /-- One change follows another. -/
  | trans {ps qs rs : List Pattern} : Rearranged ps qs → Rearranged qs rs → Rearranged ps rs

theorem Rearranged.coverAlike {ps qs : List Pattern} (h : Rearranged ps qs) (g : Catalog) :
    CoverAlike g ps qs := by
  induction h with
  | perm hperm =>
    intro n
    simp only [hperm.mem_iff]
  | again hp =>
    intro n
    simp only [List.mem_cons, exists_eq_or_imp, iff_or_self]
    exact fun hn => ⟨_, hp, hn⟩
  | catchAll hp =>
    intro n
    have hnone : ∀ {p : Pattern}, p.isCatchAll = true → p.caseName? g = none := by
      intro p hp
      simpa [Pattern.isCatchAll, Pattern.caseName?] using hp
    simp [hnone hp]
  | deeper hagree =>
    intro n
    constructor
    · rintro ⟨p, hp, hn⟩
      obtain ⟨q, hq, hpq⟩ := exists_right_of_mem hagree hp
      exact ⟨q, hq, hpq.caseName?_eq g ▸ hn⟩
    · rintro ⟨q, hq, hn⟩
      obtain ⟨p, hp, hpq⟩ := exists_left_of_mem hagree hq
      exact ⟨p, hp, hpq.caseName?_eq g ▸ hn⟩
  | symm _ ih => exact fun n => (ih n).symm
  | trans _ _ ih ih' => exact fun n => (ih n).trans (ih' n)

/-- **Arms that cover the same names get the same answer**, or the same failure, with
every text in it.  In particular it does not matter how the arms are ordered, which of
them are repeated, where arms stand that test for no type, and what their patterns look
like below the sub-patterns. -/
theorem Switch.check_eq_of_coverAlike {g : Catalog} {ps qs : List Pattern}
    (h : CoverAlike g ps qs ∨ Rearranged ps qs) (cfg : Config) (t : Ty) (catchAll : Bool) :
    (Switch.mk t ps catchAll).check g cfg = (Switch.mk t qs catchAll).check g cfg := by
  have halike : CoverAlike g ps qs := h.elim id fun h => h.coverAlike g
  have hjudge : judge g cfg ⟨t, ps, catchAll⟩ = judge g cfg ⟨t, qs, catchAll⟩ := by
    funext required
    apply judge_congr halike.coveredNames_eq <;> rfl
  rw [check, check, hjudge]

namespace Sample

/-- The arms for the cases of a result in another order and with a repetition, under an arm
for everything, and with nothing said below the sub-patterns. -/
def shuffledArms : List Pattern :=
  [.positional [.typed success], .typed success, .deconstructed failure [.typed httpErrors.1],
    .typed success, .deconstructed failure [.typed httpErrors.2]]

theorem rearranged_shuffledArms : Rearranged resultArms shuffledArms := by
  have hperm : Rearranged resultArms
      [.deconstructed failure [.typed httpErrors.1], .typed success,
        .deconstructed failure [.deconstructed httpErrors.2 [.wildcard]]] :=
    .perm (List.reverse_perm resultArms).symm
  have hdeeper : Rearranged
      [.deconstructed failure [.typed httpErrors.1], .typed success,
        .deconstructed failure [.deconstructed httpErrors.2 [.wildcard]]]
      [.deconstructed failure [.typed httpErrors.1], .typed success,
        .deconstructed failure [.typed httpErrors.2]] :=
    .deeper (.cons ⟨rfl, rfl⟩ (.cons ⟨rfl, rfl⟩ (.cons ⟨rfl, rfl⟩ .nil)))
  exact .trans hperm (.trans hdeeper (.trans (.again (.tail _ (.head _))) (.catchAll rfl)))

end Sample

theorem Switch.check_eq_of_coverAlike_shuffledArms :
    Rearranged Sample.resultArms Sample.shuffledArms ∧
    (Switch.mk Sample.ids.resultHttpError Sample.resultArms true).check Sample.catalog {} =
      (Switch.mk Sample.ids.resultHttpError Sample.shuffledArms true).check Sample.catalog {} :=
  ⟨Sample.rearranged_shuffledArms,
    check_eq_of_coverAlike (.inr Sample.rearranged_shuffledArms) {} _ true⟩

end SwitchCoverage
