import SwitchCoverage.Diagnostic.Basic
import SwitchCoverage.Proofs.ByteOrder

/-!
# Canonical reports

Reports are compared with each other, so that a finding is shown once and a run can be compared
with an earlier one.  The cases that a report is made from come out of sets, in no particular
order, and that order must not show.  Sorting takes care of it: the names of a list can be put in
ascending order in one way only, so a report depends on how often each name occurs and on nothing
else.  It gives that away again, since it lists the names.

A host may add suggestions to a report and turn it into an error.  It can do so in any order and
any number of times, and all the rest of the report stays as it was made.

## Main definitions

* `Rearranges` — a list of names in the order of their bytes.
* `Diagnostic.Reflects` — the parts of a report that are settled by the given cases.
* `Revision`, `Diagnostic.revise` — later changes to a report, one after the other.

## Main statements

* `Rearranges.unique` — names can be put in order in one way only.
* `Text.sortNames_eq_iff` — sorting forgets the order of a list, and nothing else.
* `Diagnostic.revise_eq` — what a sequence of changes leaves alone.
* `Diagnostic.ofCases_canonical` — **reports are canonical.**
-/
namespace SwitchCoverage

/-! ## Sorted names -/

theorem Text.bytes_le_iff {s t : String} : bytes s ≤ bytes t ↔ s ≤ t := by
  have h : ¬ bytes t < bytes s ↔ ¬ t < s := not_congr bytes_lt_iff
  exact h

/-- The first list has the names of the second, each as often as it occurs there, in the order of
their bytes. -/
structure Rearranges (sorted names : List String) : Prop where
  /-- The names are the same, repetitions included. -/
  perm : sorted.Perm names
  /-- The bytes of the names ascend. -/
  ascending : sorted.Pairwise fun m n => Text.bytes m ≤ Text.bytes n

/-- **Names can be put in order in one way only**, however they stood before. -/
theorem Rearranges.unique {xs ys names names' : List String} (hx : Rearranges xs names)
    (hy : Rearranges ys names') (h : names.Perm names') : xs = ys := by
  have hperm : xs.Perm ys := hx.perm.trans (h.trans hy.perm.symm)
  refine List.Perm.eq_of_pairwise ?_ hx.ascending hy.ascending hperm
  intro m n _ _ hmn hnm
  exact String.le_antisymm (Text.bytes_le_iff.1 hmn) (Text.bytes_le_iff.1 hnm)

namespace Text

theorem rearranges_sortNames (names : List String) : Rearranges (sortNames names) names where
  perm := by
    rw [sortNames_eq_insertionSort]
    exact List.perm_insertionSort _ names
  ascending := by
    rw [sortNames_eq_insertionSort]
    exact (List.pairwise_insertionSort _ names).imp bytes_le_iff.2

/-- **Sorting forgets the order of a list**, and nothing else. -/
theorem sortNames_eq_iff {xs ys : List String} : sortNames xs = sortNames ys ↔ xs.Perm ys := by
  constructor
  · intro h
    have hperm : (sortNames xs).Perm ys := h ▸ (rearranges_sortNames ys).perm
    exact (rearranges_sortNames xs).perm.symm.trans hperm
  · intro h
    exact (rearranges_sortNames xs).unique (rearranges_sortNames ys) h

theorem rearranges_iff {xs names : List String} : Rearranges xs names ↔ xs = sortNames names := by
  constructor
  · intro h
    exact h.unique (rearranges_sortNames names) (.refl names)
  · intro h
    rw [h]
    exact rearranges_sortNames names

end Text

/-! ## Texts of a report -/

namespace Message

variable {matched matched' missing missing' : List String}

theorem headline_eq_of_perm (base : String) (h : missing.Perm missing') :
    headline base missing = headline base missing' := by
  rw [headline, headline, h.isEmpty_eq]

theorem listing_eq_of_perm (title : String) (h : missing.Perm missing') :
    listing title missing = listing title missing' := by
  rw [listing, listing, h.isEmpty_eq, Text.sortNames_eq_iff.2 h]

theorem note_eq_of_perm (hmatched : matched.Perm matched') (hmissing : missing.Perm missing') :
    note matched missing = note matched' missing' := by
  rw [note, note, listing_eq_of_perm _ hmatched, listing_eq_of_perm _ hmissing]

/-- A listing starts with its title, so even one of empty names shows. -/
theorem note_eq_empty_iff : note matched missing = "" ↔ matched = [] ∧ missing = [] := by
  cases matched <;> cases missing <;> simp [note, listing]

end Message

namespace Diagnostic

/-- The parts of a report on a switch on `base` that are settled by the matched cases `ms` and the
missing ones `ns`, in whatever order these are given. -/
structure Reflects (base : String) (ms ns : List String) (d : Diagnostic) : Prop where
  /-- The matched cases are put in order, which can be done in one way. -/
  matched : ∀ names, Rearranges names ms ↔ names = d.matched
  /-- So are the missing ones. -/
  missing : ∀ names, Rearranges names ns ↔ names = d.missing
  /-- The switch is not exhaustive just when a case is missing. -/
  finding : d.finding = .notExhaustive ↔ ns ≠ []
  /-- The code is that of the finding. -/
  code : d.code.text = if d.finding = .notExhaustive then "E3001" else "E3002"
  /-- The headline says what is found. -/
  headline : d.headline = "Switch on " ++ base ++
    if d.finding = .notExhaustive then " is not exhaustive" else " has redundant default arm"
  /-- The note is the same for all orders of the cases. -/
  note : ∀ ms' ns', ms.Perm ms' → ns.Perm ns' → Message.note ms' ns' = d.note
  /-- The note is empty just when there is no case at all. -/
  note_empty : d.note = "" ↔ ms = [] ∧ ns = []

theorem reflects_ofCases (base : String) (matched missing : List String) :
    (ofCases base matched missing).Reflects base matched missing where
  matched _ := Text.rearranges_iff
  missing _ := Text.rearranges_iff
  finding := by cases missing <;> simp [ofCases]
  code := by cases missing <;> rfl
  headline := by cases missing <;> simp [ofCases, Message.headline, String.append_assoc]
  note _ _ hmatched hmissing := Message.note_eq_of_perm hmatched.symm hmissing.symm
  note_empty := Message.note_eq_empty_iff

/-- Two reports on one type are equal just when they are made from the same cases, in whatever
order. -/
theorem ofCases_eq_iff {base : String} {matched missing matched' missing' : List String} :
    ofCases base matched missing = ofCases base matched' missing' ↔
      matched.Perm matched' ∧ missing.Perm missing' := by
  constructor
  · intro h
    have hmatched : Text.sortNames matched = Text.sortNames matched' :=
      congrArg Diagnostic.matched h
    have hmissing : Text.sortNames missing = Text.sortNames missing' :=
      congrArg Diagnostic.missing h
    exact ⟨Text.sortNames_eq_iff.1 hmatched, Text.sortNames_eq_iff.1 hmissing⟩
  · intro ⟨hmatched, hmissing⟩
    simp only [ofCases, hmissing.isEmpty_eq, Text.sortNames_eq_iff.2 hmatched,
      Text.sortNames_eq_iff.2 hmissing, Message.headline_eq_of_perm base hmissing,
      Message.note_eq_of_perm hmatched hmissing]

end Diagnostic

/-! ## Later changes -/

/-- A later change to a report. -/
inductive Revision where
  /-- One more suggestion. -/
  | suggest (suggestion : String)
  /-- The report becomes an error. -/
  | escalate
deriving DecidableEq

namespace Revision

/-- The report after a change. -/
def apply (d : Diagnostic) : Revision → Diagnostic
  | suggest suggestion => d.suggest suggestion
  | escalate => d.escalate

/-- The suggestion that a change adds. -/
def suggestion? : Revision → Option String
  | suggest suggestion => some suggestion
  | escalate => none

end Revision

namespace Diagnostic

/-- The report after some changes, one after the other. -/
def revise (d : Diagnostic) (revisions : List Revision) : Diagnostic :=
  revisions.foldl Revision.apply d

/-- **What a sequence of changes does**: it adds the suggestions behind those that are there, in
order, and the report becomes an error if one of the changes says so.  Nothing else changes. -/
theorem revise_eq (d : Diagnostic) (revisions : List Revision) :
    d.revise revisions =
      { d with
        severity := if .escalate ∈ revisions then .error else d.severity
        suggestions := d.suggestions ++ revisions.filterMap Revision.suggestion? } := by
  induction revisions generalizing d with
  | nil => simp [revise]
  | cons r rs ih =>
    have hstep : d.revise (r :: rs) = (r.apply d).revise rs := rfl
    rw [hstep, ih]
    cases r with
    | suggest suggestion => simp [Revision.apply, suggest, Revision.suggestion?]
    | escalate => simp [Revision.apply, escalate, Revision.suggestion?, List.filterMap_cons]

/-- **Reports are canonical.**  Reports on one type are equal just when they are made from the same
cases, in whatever order.  A report lists its cases in the order of their bytes, and its finding,
code and texts follow from them.  Later changes leave all of that alone: they add suggestions in
order, and may make the report an error. -/
theorem ofCases_canonical (base : String) (matched missing : List String) :
    (∀ matched' missing', ofCases base matched missing = ofCases base matched' missing' ↔
      matched.Perm matched' ∧ missing.Perm missing') ∧
    (ofCases base matched missing).Reflects base matched missing ∧
    ∀ (d : Diagnostic) (revisions : List Revision), d.revise revisions =
      { d with
        severity := if .escalate ∈ revisions then .error else d.severity
        suggestions := d.suggestions ++ revisions.filterMap Revision.suggestion? } :=
  ⟨fun _ _ => ofCases_eq_iff, reflects_ofCases base matched missing, revise_eq⟩

end Diagnostic

end SwitchCoverage
