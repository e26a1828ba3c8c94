import Mathlib.Data.List.Induction
import SwitchCoverage.Proofs.Hierarchy

/-!
# What a catalog knows of the edits behind it

A draft comes about by edits: declarations are added, and changed later, perhaps after others
have referred to them.  What is then at a position can be read off the edits alone.  It is the
declaration that was added when so many others had been, with the later changes at that
position made to it in order; a change made too early, when nothing is there, does nothing.

A catalog is asked for declarations, for the variants of a declaration and for names.  The
statements here compare its answers with the edits, and do not mention the draft between them.

## Main definitions

* `Edit` — an addition, or a change to the declaration at a position.
* `Draft.ofEdits` — the draft that edits lead to.
* `Records` — what edits put at a position.
* `Indexes` — a catalog whose answers are those that the edits call for.

## Main statements

* `Edit.decl?_exec_iff`, `records_concat_iff` — what one edit does to a draft, and to what is
  recorded.
* `Draft.decl?_ofEdits_iff` — a draft holds what its edits record.
* `Catalog.find?_eq_some_iff` — the first position of a name.
* `Draft.ofEdits_indexes` — **the indexes of a catalog are exact.**
-/
namespace SwitchCoverage

/-! ## Edits -/

/-- An edit of a draft. -/
inductive Edit where
  /-- A declaration is added. -/
  | add (d : Decl)
  /-- A declaration is added of which no more is said than its name. -/
  | addPlain (name : String)
  /-- The declaration at a position is changed, if there is one. -/
  | patch (id : DeclId) (change : Decl → Decl)

namespace Edit

/-- The declaration that an edit adds. -/
def added? : Edit → Option Decl
  | .add d => some d
  | .addPlain name => some { name }
  | .patch _ _ => none

/-- What an edit makes of a declaration that stands at `id`. -/
def revise (id : DeclId) : Edit → Decl → Decl
  | .add _, d => d
  | .addPlain _, d => d
  | .patch i change, d => if i = id then change d else d

/-- Makes an edit, and answers the position of the declaration that was added or changed. -/
def exec : Edit → StateM Draft (Option DeclId)
  | .add d => some <$> Draft.declare d
  | .addPlain name => some <$> Draft.declare { name }
  | .patch id change => modifyGet fun g =>
    match g.patch? id change with
    | some g' => (some id, g')
    | none => (none, g)

/-- The number of declarations that edits add. -/
def additions (es : List Edit) : Nat := (es.filterMap added?).length

end Edit

/-- The draft that edits lead to, in their order. -/
def Draft.ofEdits (es : List Edit) : Draft := es.foldl (fun g e => (e.exec.run g).2) {}

/-- The edits put `d` at the position `id`: a declaration is added after as many others as the
position counts, and `d` is what the later edits make of it, one after the other. -/
def Records (es : List Edit) (id : DeclId) (d : Decl) : Prop :=
  ∃ before e after d₀, es = before ++ e :: after ∧ e.added? = some d₀ ∧
    Edit.additions before = id.toNat ∧ after.foldl (fun d e => e.revise id d) d₀ = d

/-! ## One edit -/

theorem Draft.decl?_add (d : Decl) (g : Draft) (id : DeclId) :
    (g.add d).decl? id = if id.toNat = g.size then some d else g.decl? id := by
  rw [add, decl?, Array.getElem?_push]
  rfl

namespace Edit

variable {e : Edit} {g : Draft} {id : DeclId} {d : Decl}

@[simp] theorem exec_add (d : Decl) (g : Draft) :
    (add d).exec.run g = (some g.nextId, g.add d) := rfl

@[simp] theorem exec_addPlain (name : String) (g : Draft) :
    (addPlain name).exec.run g = (some g.nextId, g.add { name }) := rfl

theorem exec_patch (id : DeclId) (change : Decl → Decl) (g : Draft) :
    (patch id change).exec.run g = match g.patch? id change with
      | some g' => (some id, g')
      | none => (none, g) := rfl

/-- A change at a position that is not filled changes nothing, so the two cases are one. -/
theorem state_exec_patch (id : DeclId) (change : Decl → Decl) (g : Draft) :
    ((patch id change).exec.run g).2 = ⟨g.decls.modify id.toNat change⟩ := by
  rw [exec_patch, Draft.patch?]
  by_cases hid : id.toNat < g.size
  · rw [if_pos hid]
  · have hsame : g.decls.modify id.toNat change = g.decls := by
      apply Array.ext_getElem?
      intro k
      rw [Array.getElem?_modify]
      by_cases hk : id.toNat = k
      · have hnone : g.decls[k]? = none := Array.getElem?_eq_none (hk ▸ Nat.le_of_not_lt hid)
        simp [hnone]
      · rw [if_neg hk]
    rw [if_neg hid, hsame]

@[simp] theorem additions_concat (es : List Edit) (e : Edit) :
    additions (es ++ [e]) = additions es + e.added?.toList.length := by
  cases h : e.added? <;> simp [additions, h]

theorem size_exec (e : Edit) (g : Draft) :
    (e.exec.run g).2.size = g.size + e.added?.toList.length := by
  cases e with
  | add d => simp [Draft.add, Draft.size, added?]
  | addPlain name => simp [Draft.add, Draft.size, added?]
  | patch id change => simp [state_exec_patch, Draft.size, added?]

/-- What an edit does to a draft: it puts a declaration at the next position, and revises those
that are there. -/
theorem decl?_exec_iff : (e.exec.run g).2.decl? id = some d ↔
    (g.size = id.toNat ∧ e.added? = some d) ∨
      ∃ d', g.decl? id = some d' ∧ e.revise id d' = d := by
  have hadd : ∀ new : Decl, (g.add new).decl? id = some d ↔
      (g.size = id.toNat ∧ some new = some d) ∨ ∃ d', g.decl? id = some d' ∧ d' = d := by
    intro new
    by_cases hid : id.toNat = g.size
    · simp [Draft.decl?_add, hid, Draft.decl?_of_le (Nat.le_of_eq hid.symm)]
    · simp [Draft.decl?_add, hid, Ne.symm hid]
  cases e with
  | add new => exact hadd new
  | addPlain name => exact hadd { name }
  | patch i change =>
    rw [state_exec_patch, Draft.decl?, Array.getElem?_modify, added?]
    by_cases hi : i = id
    · subst hi
      simp [Draft.decl?, revise]
    · have hne : i.toNat ≠ id.toNat := fun h => hi (DeclId.toNat_injective h)
      simp [Draft.decl?, revise, hi, hne]

end Edit

/-! ## All edits -/

/-- What an edit after others does to what is recorded. -/
theorem records_concat_iff {es : List Edit} {e : Edit} {id : DeclId} {d : Decl} :
    Records (es ++ [e]) id d ↔ (Edit.additions es = id.toNat ∧ e.added? = some d) ∨
      ∃ d', Records es id d' ∧ e.revise id d' = d := by
  constructor
  · rintro ⟨before, a, after, d₀, hes, ha, hid, hd⟩
    rcases List.eq_nil_or_concat' after with rfl | ⟨after, last, rfl⟩
    · -- The declaration is added by the last edit.
      obtain ⟨rfl, rfl⟩ : es = before ∧ e = a := by simpa using hes
      exact .inl ⟨hid, by simpa [← hd] using ha⟩
    · have hsplit : es ++ [e] = (before ++ a :: after) ++ [last] := by simpa using hes
      obtain ⟨rfl, hlast⟩ := List.append_inj' hsplit rfl
      cases hlast
      exact .inr ⟨_, ⟨before, a, after, d₀, rfl, ha, hid, rfl⟩, by simpa using hd⟩
  · rintro (⟨hid, hd⟩ | ⟨_, ⟨before, a, after, d₀, rfl, ha, hid, rfl⟩, rfl⟩)
    · exact ⟨es, e, [], d, rfl, hd, hid, rfl⟩
    · exact ⟨before, a, after ++ [e], d₀, by simp, ha, hid, by simp⟩

namespace Draft

@[simp] theorem ofEdits_concat (es : List Edit) (e : Edit) :
    ofEdits (es ++ [e]) = (e.exec.run (ofEdits es)).2 := by
  simp [ofEdits]

theorem size_ofEdits (es : List Edit) : (ofEdits es).size = Edit.additions es := by
  induction es using List.reverseRecOn with
  | nil => rfl
  | append_singleton es e ih => simp [Edit.size_exec, ih]

/-- **A draft holds what its edits record.** -/
theorem decl?_ofEdits_iff {es : List Edit} {id : DeclId} {d : Decl} :
    (ofEdits es).decl? id = some d ↔ Records es id d := by
  induction es using List.reverseRecOn generalizing d with
  | nil => simp [ofEdits, Records, decl?]
  | append_singleton es e ih =>
    simp only [ofEdits_concat, Edit.decl?_exec_iff, records_concat_iff, size_ofEdits, ih]

/-- The next position counts the declarations, as long as positions are left. -/
theorem toNat_nextId {es : List Edit} (hes : Edit.additions es < UInt32.size) :
    (ofEdits es).nextId.toNat = Edit.additions es := by
  rw [nextId, size_ofEdits]
  exact DeclId.toNat_ofNat_of_lt hes

end Draft

/-- An edit that adds a declaration answers the position that is next. -/
theorem Edit.answer_of_added {e : Edit} {d : Decl} (h : e.added? = some d) (g : Draft) :
    (e.exec.run g).1 = some g.nextId := by
  cases e with
  | add new => rfl
  | addPlain name => rfl
  | patch id change => cases h

theorem Edit.additions_le_append (es es' : List Edit) :
    additions es ≤ additions (es ++ es') := by
  simp [additions]

/-! ## Questions to a catalog -/

namespace Catalog

variable {c : Catalog}

theorem least_of_find? {name : String} {i : DeclId} (h : c.find? name = some i) :
    (∃ d, c.decl? i = some d ∧ d.name = name) ∧
      ∀ j d, c.decl? j = some d → d.name = name → i.toNat ≤ j.toNat := by
  obtain ⟨⟨_, d⟩, hfind, rfl⟩ := Option.map_eq_some_iff.1 h
  obtain ⟨hname, before, after, hentries, hbefore⟩ := List.find?_eq_some_iff_append.1 hfind
  refine ⟨⟨d, mem_entries.1 (by simp [hentries]), by simpa using hname⟩, fun j e he hename => ?_⟩
  have hascending := c.entries_ascending
  rw [hentries, List.pairwise_append, List.pairwise_cons] at hascending
  -- Another entry with the name does not stand before the one that is found.
  have hmem : (j, e) ∈ before ++ (_, d) :: after := hentries ▸ mem_entries.2 he
  rcases List.mem_append.1 hmem with hmem | hmem
  · simpa [hename] using hbefore _ hmem
  · rcases List.mem_cons.1 hmem with heq | hmem
    · cases heq
      exact Nat.le_refl _
    · exact Nat.le_of_lt (hascending.2.1.1 _ hmem)

theorem find?_eq_none_iff {name : String} :
    c.find? name = none ↔ ∀ j d, c.decl? j = some d → d.name ≠ name := by
  simp [find?, ← mem_entries]

/-- Entries stand in the order of their positions, so the first one with a name has the
smallest position. -/
theorem find?_eq_some_iff {name : String} {i : DeclId} : c.find? name = some i ↔
    (∃ d, c.decl? i = some d ∧ d.name = name) ∧
      ∀ j d, c.decl? j = some d → d.name = name → i.toNat ≤ j.toNat := by
  constructor
  · exact least_of_find?
  · rintro ⟨⟨d, hd, hname⟩, hleast⟩
    cases hfind : c.find? name with
    | none => exact absurd hname (find?_eq_none_iff.1 hfind i d hd)
    | some j =>
      obtain ⟨⟨e, he, hename⟩, hleast'⟩ := least_of_find? hfind
      have hij : i.toNat = j.toNat :=
        Nat.le_antisymm (hleast j e he hename) (hleast' i d hd hname)
      rw [DeclId.toNat_injective hij]

end Catalog

/-! ## Exact indexes -/

/-- The answers of a catalog are those that the edits call for. -/
structure Indexes (es : List Edit) (c : Catalog) : Prop where
  /-- At a position stands what the edits record there. -/
  decl_iff : ∀ id d, c.decl id = .ok d ↔ Records es id d
  /-- A position at which nothing is recorded is reported as unknown. -/
  decl_unknown : ∀ id, (∀ d, ¬ Records es id d) → c.decl id = .error (.unknownDecl id)
  /-- Variants are listed in the order of declaration, each once. -/
  variants_ascending : ∀ p, (c.variants p).Pairwise fun i j => i.toNat < j.toNat
  /-- They are what is nested in a declaration and derives from it after all changes. -/
  mem_variants_iff : ∀ p i, i ∈ c.variants p ↔ ∃ d t, Records es i d ∧ d.container = some p ∧
    d.supertype = some t ∧ t.id? = some p
  /-- No declaration is a variant of itself. -/
  not_mem_variants_self : ∀ p, p ∉ c.variants p
  /-- No declaration is a variant of two. -/
  variants_disjoint : ∀ p q i, i ∈ c.variants p → i ∈ c.variants q → p = q
  /-- A position that is not filled has no variants. -/
  variants_outside : ∀ p, Edit.additions es ≤ p.toNat → c.variants p = []
  /-- A name is looked up at the smallest position that has it after all changes. -/
  find?_iff : ∀ name i, c.find? name = some i ↔ (∃ d, Records es i d ∧ d.name = name) ∧
    ∀ j d, Records es j d → d.name = name → i.toNat ≤ j.toNat
  /-- A name that no position has is not found. -/
  find?_none_iff : ∀ name, c.find? name = none ↔ ∀ j d, Records es j d → d.name ≠ name

theorem Catalog.indexes_of_toDraft {es : List Edit} {c : Catalog}
    (h : c.toDraft = Draft.ofEdits es) : Indexes es c := by
  have hrecords : ∀ {id d}, Records es id d ↔ c.decl? id = some d := by
    intro id d
    rw [h, Draft.decl?_ofEdits_iff]
  refine ⟨?_, ?_, c.variants_ascending, ?_, c.not_mem_variants_self,
    fun p q i => c.variants_disjoint, ?_, ?_, ?_⟩
  · intro id d
    rw [decl_eq_ok_iff, hrecords]
  · intro id hnone
    have hmissing : c.decl? id = none := by
      cases hd : c.decl? id with
      | none => rfl
      | some d => exact absurd (hrecords.2 hd) (hnone d)
    rw [decl, hmissing]
  · intro p i
    simp only [hrecords, c.mem_variants_iff]
  · intro p hp
    refine variants_eq_nil ?_
    rwa [h, Draft.size_ofEdits]
  · intro name i
    simp only [hrecords, find?_eq_some_iff]
  · intro name
    simp only [hrecords, find?_eq_none_iff]

/-- **The indexes of a catalog are exact.**  Let edits add fewer declarations than there are
positions.  Then each added declaration gets the position that was next before it was added,
which counts the additions before.  And if the draft that the edits lead to makes a catalog, the
answers of that catalog are those that the edits call for. -/
theorem Draft.ofEdits_indexes (es : List Edit) (hes : Edit.additions es < UInt32.size) :
    (∀ before e after d, es = before ++ e :: after → e.added? = some d →
      (e.exec.run (ofEdits before)).1 = some (ofEdits before).nextId ∧
      (ofEdits before).nextId.toNat = Edit.additions before) ∧
    ∀ c, (ofEdits es).finish = .ok c → Indexes es c := by
  constructor
  · rintro before e after d rfl hadd
    have hbefore : Edit.additions before < UInt32.size :=
      Nat.lt_of_le_of_lt (Edit.additions_le_append before (e :: after)) hes
    exact ⟨Edit.answer_of_added hadd _, toNat_nextId hbefore⟩
  · intro c hc
    exact Catalog.indexes_of_toDraft (finish_eq_ok_iff.1 hc)

namespace Sample

/-- A shape is told of its variant before that is declared, and gets its name after that.  The
first change comes too early, and the last declaration has a name that is taken. -/
def shapeEdits : List Edit := [
  .addPlain "Int",
  .patch ⟨1⟩ (Decl.nestedIn ⟨0⟩),
  .add { name := "Figure" },
  .patch ⟨1⟩ (Decl.withConstructor { visibility := .priv, params := [.plain ⟨2⟩] }),
  .addPlain "Disc",
  .patch ⟨2⟩ (Decl.derivedFrom ⟨1⟩ (.plain ⟨1⟩)),
  .patch ⟨1⟩ (Decl.amend { name := some "Shape" }),
  .addPlain "Shape"]

end Sample

theorem Draft.ofEdits_indexes_shapeEdits :
    Edit.additions Sample.shapeEdits < UInt32.size ∧
    ∃ c, (ofEdits Sample.shapeEdits).finish = .ok c ∧ Indexes Sample.shapeEdits c ∧
      c.variants ⟨1⟩ = [⟨2⟩] ∧ c.find? "Shape" = some ⟨1⟩ ∧ c.find? "Figure" = none ∧
      ((Edit.addPlain "Disc").exec.run (ofEdits (Sample.shapeEdits.take 4))).1 =
        some (ofEdits (Sample.shapeEdits.take 4)).nextId ∧
      (ofEdits (Sample.shapeEdits.take 4)).nextId.toNat = 2 := by
  have hes : Edit.additions Sample.shapeEdits < UInt32.size := by decide
  let c : Catalog := ⟨ofEdits Sample.shapeEdits, by decide⟩
  have hc : (ofEdits Sample.shapeEdits).finish = .ok c := finish_eq_ok_iff.2 rfl
  obtain ⟨hpositions, hindexes⟩ := ofEdits_indexes Sample.shapeEdits hes
  exact ⟨hes, c, hc, hindexes c hc, by decide, by decide, by decide,
    hpositions (Sample.shapeEdits.take 4) (.addPlain "Disc") _ _ rfl rfl⟩

end SwitchCoverage
