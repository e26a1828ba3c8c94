import SwitchCoverage.Proofs.Hierarchy
import SwitchCoverage.Sample
import SwitchCoverage.Switch.Check

/-!
# Where a check fails

A check looks up declarations and expands types, and it fails in two places only.  An
expansion fails when it is cut off.  A look-up fails when a leaf is asked for its fields and
some declaration around the leaf is missing.  The expansion itself never meets a missing
declaration: a catalog holds all declarations that its own declarations refer to, and it
goes from these to their variants.  What can be missing is what a switch brings along, and of
that only the types around the type it switches on are ever looked at.

## Main definitions

* `Ty.chain` — the declarations of a type and of the types around it.
* `Ty.enclosing` — those of the types around it alone.

## Main statements

* `Catalog.requiredNames_eq_error` — the two places at which an expansion into names fails.
* `Catalog.instantiate_variants` — every variant of a declaration can be looked up.
* `Switch.check_faulty` — **a missing declaration is one around the type of the switch.**
-/
namespace SwitchCoverage

/-! ## Failing steps

The failure of a walk is the failure of one of its steps. -/

section Except

variable {ε α β : Type}

theorem bind_eq_error_iff {x : Except ε α} {f : α → Except ε β} {e : ε} :
    x >>= f = .error e ↔ x = .error e ∨ ∃ a, x = .ok a ∧ f a = .error e := by
  cases x <;> simp [bind, Except.bind]

theorem map_eq_error_iff {x : Except ε α} {f : α → β} {e : ε} :
    x.map f = .error e ↔ x = .error e := by
  cases x <;> simp [Except.map]

theorem mapError_eq_error_iff {ε' : Type} {x : Except ε α} {f : ε → ε'} {e' : ε'} :
    x.mapError f = .error e' ↔ ∃ e, x = .error e ∧ e' = f e := by
  cases x <;> simp [Except.mapError, eq_comm]

/-- A walk fails at its first failing step: those before it succeed. -/
theorem exists_first_of_mapM_eq_error {f : α → Except ε β} {xs : List α} {e : ε}
    (h : xs.mapM f = .error e) : ∃ before x after, xs = before ++ x :: after ∧
      (∀ y ∈ before, ∃ b, f y = .ok b) ∧ f x = .error e := by
  induction xs with
  | nil => cases h
  | cons x xs ih =>
    rw [List.mapM_cons, bind_eq_error_iff] at h
    rcases h with h | ⟨y, hy, h⟩
    · exact ⟨[], x, xs, rfl, by simp, h⟩
    · rcases bind_eq_error_iff.1 h with h | ⟨ys, -, h⟩
      · obtain ⟨before, z, after, rfl, hbefore, hfail⟩ := ih h
        exact ⟨x :: before, z, after, rfl, List.forall_mem_cons.2 ⟨⟨y, hy⟩, hbefore⟩, hfail⟩
      · cases h

theorem exists_of_mapM_eq_error {f : α → Except ε β} {xs : List α} {e : ε}
    (h : xs.mapM f = .error e) : ∃ x ∈ xs, f x = .error e := by
  obtain ⟨before, x, after, rfl, -, hfail⟩ := exists_first_of_mapM_eq_error h
  exact ⟨x, by simp, hfail⟩

/-- A walk fails if one of its steps does, though maybe at an earlier one. -/
theorem mapM_fails_of_mem {f : α → Except ε β} {xs : List α} {x : α} {e : ε} (hx : x ∈ xs)
    (h : f x = .error e) : ∃ e', xs.mapM f = .error e' := by
  cases hrun : xs.mapM f with
  | error e' => exact ⟨e', rfl⟩
  | ok ys =>
    obtain ⟨y, -, hy⟩ := exists_right_of_mem (mapM_eq_ok_iff.1 hrun) hx
    rw [h] at hy
    cases hy

end Except

/-! ## Places of failure -/

namespace Catalog

variable {g : Catalog} {limit : Nat} {e : CheckError}

/-- An expansion fails only where it is cut off: at a type that could be expanded further. -/
theorem leaves_eq_error {t : Ty} (h : g.leaves limit t = .error e) :
    ∃ p, g.isExpandable p = true ∧ e = .tooDeep (g.display p) limit := by
  have walk : ∀ n t, g.leavesWithin limit n t = .error e →
      ∃ p, g.isExpandable p = true ∧ e = .tooDeep (g.display p) limit := by
    intro n
    induction n with
    | zero =>
      intro t h
      by_cases hx : g.isExpandable t = true
      · simp only [leavesWithin, hx, if_true, Except.error.injEq] at h
        exact ⟨t, hx, h.symm⟩
      · simp [leavesWithin, hx] at h
    | succ n ih =>
      intro t h
      by_cases hx : g.isExpandable t = true
      · simp only [leavesWithin, hx, if_true, map_eq_error_iff] at h
        obtain ⟨c, -, hc⟩ := exists_of_mapM_eq_error h
        exact ih c hc
      · simp [leavesWithin, hx] at h
  exact walk limit t h

/-- The split fields of a type are missing if its fields are, or if the type of a field is
cut off. -/
theorem splitFields_eq_error {t : Ty} (h : g.splitFields limit t = .error e) :
    (∃ fault, g.fieldTypes t = .error fault ∧ e = .faulty fault) ∨
      ∃ field, g.leaves limit field = .error e := by
  rw [splitFields, bind_eq_error_iff] at h
  rcases h with h | ⟨types, -, h⟩
  · exact .inl (mapError_eq_error_iff.1 h)
  · rcases bind_eq_error_iff.1 h with h | ⟨vss, -, h⟩
    · obtain ⟨field, -, hfield⟩ := exists_of_mapM_eq_error h
      exact .inr ⟨field, hfield⟩
    · cases h

/-- **The two places of failure.**  The names that a switch has to cover cannot be listed if
some type is cut off, or if the fields of a leaf cannot be looked up. -/
theorem requiredNames_eq_error {t : Ty} (h : g.requiredNames limit t = .error e) :
    (∃ p, g.leaves limit p = .error e) ∨
      g.isExpandable t = true ∧ ∃ ls, g.leaves limit t = .ok ls ∧
        ∃ leaf ∈ ls, ∃ fault, g.fieldTypes leaf = .error fault ∧ e = .faulty fault := by
  rw [requiredNames] at h
  split at h
  case isFalse => cases h
  case isTrue hx =>
    rcases bind_eq_error_iff.1 h with h | ⟨ls, hls, h⟩
    · exact .inl ⟨t, h⟩
    · split at h
      · cases h
      · rcases bind_eq_error_iff.1 h with h | ⟨nss, -, h⟩
        · obtain ⟨leaf, hleaf, hcases⟩ := exists_of_mapM_eq_error h
          rw [leafCases, map_eq_error_iff] at hcases
          rcases splitFields_eq_error hcases with hfault | hfield
          · exact .inr ⟨hx, ls, hls, leaf, hleaf, hfault⟩
          · exact .inl hfield
        · cases h

end Catalog

theorem Switch.check_eq_error_iff {g : Catalog} {cfg : Config} {s : Switch} {e : CheckError} :
    s.check g cfg = .error e ↔ g.requiredNames cfg.maxDepth s.scrutinee = .error e :=
  map_eq_error_iff

/-! ## Missing declarations -/

/-- A type that can be expanded is declared in the catalog. -/
theorem Catalog.decl_of_isExpandable {g : Catalog} {t : Ty} (h : g.isExpandable t = true) :
    ∃ id d, t.id? = some id ∧ g.decl? id = some d := by
  simp only [isExpandable, isClosed, Bool.and_eq_true, Option.any_eq_true] at h
  obtain ⟨⟨id, hid, hclosed⟩, -⟩ := h
  cases hd : g.decl? id with
  | none => simp [isClosedDecl, hd] at hclosed
  | some d => exact ⟨id, d, hid, hd⟩

namespace Ty

/-- The declaration of a type, then those of the types around it, from the inside out, as far
as these are declared types. -/
def chain : Ty → List DeclId
  | .named id _ none => [id]
  | .named id _ (some outer) => id :: outer.chain
  | .param _ => []
  | .array _ => []
  | .unresolved => []
termination_by structural t => t

/-- The declarations of the types around a type, from the inside out. -/
def enclosing (t : Ty) : List DeclId := (t.container?.map chain).getD []

theorem chain_of_id? {t : Ty} {id : DeclId} (h : t.id? = some id) :
    t.chain = id :: t.enclosing := by
  match t, h with
  | .named _ _ none, h => cases h; rfl
  | .named _ _ (some _), h => cases h; rfl

end Ty

namespace Catalog

variable {g : Catalog} {limit : Nat}

theorem decl_eq_error_iff {id : DeclId} {fault : Fault} :
    g.decl id = .error fault ↔ g.decl? id = none ∧ fault = .unknownDecl id := by
  cases hd : g.decl? id <;> simp [decl, hd, eq_comm]

/-- Every variant of a declaration can be looked up, so an expansion meets no missing one:
the children of a type are what the look-ups give. -/
theorem instantiate_variants {t : Ty} {p : DeclId} (h : t.id? = some p) :
    (g.variants p).mapM (g.instantiate t) = .ok (g.children t) := by
  rw [mapM_eq_ok_iff, variants, children, h, List.forall₂_map_left_iff,
    List.forall₂_map_right_iff, List.forall₂_same]
  intro entry hentry
  obtain ⟨hdecl, -⟩ := mem_variantEntries.1 hentry
  rw [instantiate, decl_eq_ok_iff.2 hdecl]
  rfl

/-- What the parameters in scope stand for is looked up along the chain of a type. -/
theorem bindings_eq_error {t : Ty} {fault : Fault} (h : g.bindings t = .error fault) :
    ∃ id ∈ t.chain, g.decl? id = none ∧ fault = .unknownDecl id := by
  induction t using Ty.inductionOn with
  | named id args container _ hcontainer =>
    cases container with
    | none =>
      rcases bind_eq_error_iff.1 h with h | ⟨d, -, h⟩
      · exact ⟨id, .head _, decl_eq_error_iff.1 h⟩
      · cases h
    | some outer =>
      rcases bind_eq_error_iff.1 h with h | ⟨d, -, h⟩
      · exact ⟨id, .head _, decl_eq_error_iff.1 h⟩
      · rcases bind_eq_error_iff.1 h with h | ⟨rest, -, h⟩
        · obtain ⟨missing, hmem, hmissing⟩ := hcontainer outer rfl h
          exact ⟨missing, .tail _ hmem, hmissing⟩
        · cases h
  | param name => cases h
  | array element _ => cases h
  | unresolved => cases h

theorem fieldTypes_eq_error {t : Ty} {fault : Fault} (h : g.fieldTypes t = .error fault) :
    ∃ id ∈ t.chain, g.decl? id = none ∧ fault = .unknownDecl id := by
  rw [fieldTypes] at h
  split at h
  · cases h
  · next id hid =>
    rcases bind_eq_error_iff.1 h with h | ⟨d, -, h⟩
    · refine ⟨id, ?_, decl_eq_error_iff.1 h⟩
      rw [Ty.chain_of_id? hid]
      exact .head _
    · split at h
      · cases h
      · rcases bind_eq_error_iff.1 h with h | ⟨bound, -, h⟩
        · exact bindings_eq_error h
        · cases h

/-- The chain of a leaf leads through declarations of the catalog to the type that was
expanded, and on to the types around that. -/
theorem chain_of_mem_leaves {t v : Ty} {ls : List Ty} (h : g.leaves limit t = .ok ls)
    (ht : g.isExpandable t = true) (hv : v ∈ ls) :
    ∀ id ∈ v.chain, g.decl? id = none → id ∈ t.enclosing := by
  have hroot : ∀ id ∈ t.chain, g.decl? id = none → id ∈ t.enclosing := by
    intro id hid hnone
    obtain ⟨root, d, hroot, hd⟩ := decl_of_isExpandable ht
    rw [Ty.chain_of_id? hroot] at hid
    rcases List.mem_cons.1 hid with rfl | hid
    · rw [hd] at hnone
      cases hnone
    · exact hid
  -- A child is looked up in the catalog, and its chain goes on with that of its parent.
  refine (leaves_induction (motive := fun v => ∀ id ∈ v.chain, g.decl? id = none →
    id ∈ t.enclosing) ?_ h hroot v hv).1
  intro p hp _ c hc id hid hnone
  obtain ⟨_, child, d, -, hd, -, rfl⟩ := mem_children.1 hc
  rcases List.mem_cons.1 hid with rfl | hid
  · rw [hd] at hnone
    cases hnone
  · exact hp id hid hnone

end Catalog

/-- **A missing declaration is one around the type of the switch.**  A check that fails over
a look-up names a declaration that is missing, and that some type around the type of the
switch belongs to.  So if these are all in the catalog, no check fails over a look-up,
whatever the type of the switch, its arguments and the arms refer to.  The look-ups of
variants in particular never fail. -/
theorem Switch.check_faulty (g : Catalog) (cfg : Config) (s : Switch) :
    (∀ fault, s.check g cfg = .error (.faulty fault) →
      ∃ id ∈ s.scrutinee.enclosing, g.decl? id = none ∧ fault = .unknownDecl id) ∧
    ((∀ id ∈ s.scrutinee.enclosing, ∃ d, g.decl? id = some d) →
      ∀ fault, s.check g cfg ≠ .error (.faulty fault)) ∧
    ∀ t p, t.id? = some p → (g.variants p).mapM (g.instantiate t) = .ok (g.children t) := by
  have horigin : ∀ fault, s.check g cfg = .error (.faulty fault) →
      ∃ id ∈ s.scrutinee.enclosing, g.decl? id = none ∧ fault = .unknownDecl id := by
    intro fault h
    rcases Catalog.requiredNames_eq_error (check_eq_error_iff.1 h) with
      ⟨t, ht⟩ | ⟨hx, ls, hls, leaf, hleaf, fault', hfields, he⟩
    · obtain ⟨p, -, hp⟩ := Catalog.leaves_eq_error ht
      cases hp
    · cases he
      obtain ⟨id, hid, hnone, hfault⟩ := Catalog.fieldTypes_eq_error hfields
      exact ⟨id, Catalog.chain_of_mem_leaves hls hx hleaf id hid hnone, hnone, hfault⟩
  refine ⟨horigin, ?_, fun t p => Catalog.instantiate_variants⟩
  intro hfilled fault h
  obtain ⟨id, hid, hnone, -⟩ := horigin fault h
  obtain ⟨d, hd⟩ := hfilled id hid
  rw [hnone] at hd
  cases hd

/-- A result inside another type, with arguments that are declared nowhere. -/
def Sample.resultWithin (outer : DeclId) : Ty :=
  (ids.resultOf (.plain ⟨98⟩) (.plain ⟨99⟩)).within (.plain outer)

theorem Switch.check_faulty_resultWithin :
    ((∀ id ∈ (Sample.resultWithin Sample.ids.string).enclosing,
        ∃ d, Sample.catalog.decl? id = some d) ∧
      ∀ arms fault, (Switch.mk (Sample.resultWithin Sample.ids.string) arms true).check
        Sample.catalog {} ≠ .error (.faulty fault)) ∧
    (Switch.mk (Sample.resultWithin ⟨42⟩) [] true).check Sample.catalog {} =
      .error (.faulty (.unknownDecl ⟨42⟩)) ∧
    ∃ id ∈ (Sample.resultWithin ⟨42⟩).enclosing, Sample.catalog.decl? id = none ∧
      Fault.unknownDecl ⟨42⟩ = .unknownDecl id := by
  have hfilled : ∀ id ∈ (Sample.resultWithin Sample.ids.string).enclosing,
      ∃ d, Sample.catalog.decl? id = some d := by
    intro id hid
    obtain rfl : id = Sample.ids.string := List.mem_singleton.1 hid
    exact ⟨_, rfl⟩
  have hfault : (Switch.mk (Sample.resultWithin ⟨42⟩) [] true).check Sample.catalog {} =
      .error (.faulty (.unknownDecl ⟨42⟩)) := rfl
  exact ⟨⟨hfilled, fun arms => (check_faulty Sample.catalog {} ⟨_, arms, true⟩).2.1 hfilled⟩,
    hfault, (check_faulty Sample.catalog {} _).1 _ hfault⟩

end SwitchCoverage
