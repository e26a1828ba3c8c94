import Mathlib.Data.List.Chain
import Mathlib.Logic.Relation
import SwitchCoverage.Proofs.Cutoff

/-!
# How deep a catalog can nest

An expansion is cut off when it goes down through more expandable types than the limit
allows.  A descent through more types than there are declarations comes to one of these
twice.  If no declaration is a variant of itself, however indirectly, that cannot be, so a
limit as large as the catalog cuts nothing off.  Otherwise, what a descent can do between the
two visits it can do again, as often as one likes: which steps are open depends on the
declaration and on the number of arguments, and a type that has as many arguments as its
declaration asks for hands on nothing else.  So a limit as large as the catalog tells a deep
hierarchy from one that runs in a circle.

## Main definitions

* `Catalog.Descends` — a step of the expansion after which it goes on.
* `Catalog.Deep` — a type below which that many steps are open.
* `Catalog.Acyclic` — no declaration is a variant of itself, however indirectly.
* `Catalog.Saturated` — a type with exactly the arguments that its declaration asks for.

## Main statements

* `Catalog.leavesWithin_fails_iff` — an expansion fails just when it is open too deep.
* `Catalog.Deep.exists_repetition` — a deep descent meets a declaration twice.
* `Catalog.deep_of_repetition` — a descent that comes back to its shape has no end.
* `Catalog.size_separates` — **a limit as large as the catalog tells deep from circular.**
-/
namespace SwitchCoverage

open Relation (ReflTransGen TransGen)

theorem Decl.args_instantiate (d : Decl) (id : DeclId) (t : Ty) :
    (d.instantiate id t).args = if 0 < d.arity ∧ d.arity = t.args.length then t.args else [] := rfl

namespace Catalog

variable {g : Catalog} {limit n : Nat} {t u : Ty}

/-! ## Descents -/

/-- The expansion goes from `p` to `c`, and can go on from there. -/
structure Descends (g : Catalog) (p c : Ty) : Prop where
  /-- The expansion enters `p`. -/
  isExpandable : g.isExpandable p = true
  /-- It reaches `c`. -/
  mem_children : c ∈ g.children p
  /-- It enters `c` as well. -/
  goes_on : g.isExpandable c = true

/-- From `t` the expansion can go down `n` steps and still go on. -/
def Deep (g : Catalog) : Nat → Ty → Prop
  | 0, t => g.isExpandable t = true
  | n + 1, t => ∃ c, g.Descends t c ∧ g.Deep n c

theorem Deep.isExpandable (h : g.Deep n t) : g.isExpandable t = true := by
  cases n with
  | zero => exact h
  | succ n =>
    obtain ⟨c, hc, -⟩ := h
    exact hc.isExpandable

/-- **When an expansion fails.**  It is cut off just when there are more steps open than it
may take. -/
theorem leavesWithin_fails_iff :
    (∃ e, g.leavesWithin limit n t = .error e) ↔ g.Deep n t := by
  induction n generalizing t with
  | zero => by_cases hx : g.isExpandable t = true <;> simp [leavesWithin, Deep, hx]
  | succ n ih =>
    by_cases hx : g.isExpandable t = true
    · simp only [leavesWithin, hx, if_true, map_eq_error_iff]
      constructor
      · rintro ⟨e, he⟩
        obtain ⟨c, hc, hfail⟩ := exists_of_mapM_eq_error he
        have hdeep : g.Deep n c := ih.1 ⟨e, hfail⟩
        exact ⟨c, ⟨hx, hc, hdeep.isExpandable⟩, hdeep⟩
      · rintro ⟨c, hc, hdeep⟩
        obtain ⟨e, he⟩ := ih.2 hdeep
        exact mapM_fails_of_mem hc.mem_children he
    · rw [leavesWithin_of_not_isExpandable (by simpa using hx)]
      constructor
      · rintro ⟨e, he⟩
        cases he
      · intro hdeep
        exact absurd hdeep.isExpandable hx

theorem Deep.pred (h : g.Deep (n + 1) t) : g.Deep n t := by
  induction n generalizing t with
  | zero => exact h.isExpandable
  | succ n ih =>
    obtain ⟨c, hc, hdeep⟩ := h
    exact ⟨c, hc, ih hdeep⟩

/-- What is open below `u` is open below `t`, one step deeper at least, if `u` is reached. -/
theorem Deep.of_transGen (hpath : TransGen g.Descends t u) (h : g.Deep n u) :
    g.Deep (n + 1) t := by
  induction hpath using TransGen.head_induction_on with
  | single hstep => exact ⟨u, hstep, h⟩
  | head hstep _ ih => exact Deep.pred ⟨_, hstep, ih⟩

theorem Deep.of_reflTransGen (hpath : ReflTransGen g.Descends t u) (h : g.Deep n u) :
    g.Deep n t := by
  rcases Relation.reflTransGen_iff_eq_or_transGen.1 hpath with rfl | hpath
  · exact h
  · exact (h.of_transGen hpath).pred

/-- The steps that are open, in a row. -/
theorem Deep.exists_chain (h : g.Deep n t) :
    ∃ ts, (t :: ts).IsChain g.Descends ∧ ts.length = n ∧
      ∀ u ∈ t :: ts, g.isExpandable u = true := by
  induction n generalizing t with
  | zero => exact ⟨[], .singleton t, rfl, by simpa using h.isExpandable⟩
  | succ n ih =>
    obtain ⟨c, hc, hdeep⟩ := h
    obtain ⟨ts, hchain, hlength, hx⟩ := ih hdeep
    refine ⟨c :: ts, hchain.cons_cons hc, by simp [hlength], ?_⟩
    exact List.forall_mem_cons.2 ⟨hc.isExpandable, hx⟩

/-! ## Repetition -/

theorem length_entries (g : Catalog) : g.entries.length = g.size := by
  simp [Draft.entries, Draft.size]

/-- Types that can be expanded and have different declarations are no more than the catalog
has declarations. -/
theorem length_le_size {ts : List Ty} (hx : ∀ u ∈ ts, g.isExpandable u = true)
    (hne : ts.Pairwise fun u v => u.id? ≠ v.id?) : ts.length ≤ g.size := by
  have hnodup : (ts.map Ty.id?).Nodup := List.pairwise_map.2 hne
  have hsubset : ts.map Ty.id? ⊆ g.entries.map fun e => some e.1 := by
    intro key hkey
    obtain ⟨u, hu, rfl⟩ := List.mem_map.1 hkey
    obtain ⟨id, d, hid, hd⟩ := decl_of_isExpandable (hx u hu)
    exact List.mem_map.2 ⟨(id, d), mem_entries.2 hd, hid.symm⟩
  calc ts.length = (ts.map Ty.id?).length := by simp
    _ ≤ (g.entries.map fun e => some e.1).length := hnodup.length_le_of_subset hsubset
    _ = g.size := by simp [length_entries]

/-- **A deep descent repeats itself.**  If the expansion can take as many steps as there are
declarations, it comes to two types of one declaration on its way. -/
theorem Deep.exists_repetition (h : g.Deep n t) (hn : g.size ≤ n) :
    ∃ p q, ReflTransGen g.Descends t p ∧ TransGen g.Descends p q ∧ p.id? = q.id? := by
  obtain ⟨ts, hchain, hlength, hx⟩ := h.exists_chain
  have hpaths : (t :: ts).Pairwise (TransGen g.Descends) :=
    List.isChain_iff_pairwise.1 (hchain.imp fun _ _ => TransGen.single)
  have hreach : ∀ p ∈ t :: ts, ReflTransGen g.Descends t p := by
    intro p hp
    rcases List.mem_cons.1 hp with rfl | hp
    · exact .refl
    · exact ((List.pairwise_cons.1 hpaths).1 p hp).to_reflTransGen
  by_contra hnone
  have hne : (t :: ts).Pairwise fun p q => p.id? ≠ q.id? := by
    refine hpaths.imp_of_mem fun {p q} hp _ hpq hid => ?_
    exact hnone ⟨p, q, hreach p hp, hpq, hid⟩
  have hbound : (t :: ts).length ≤ g.size := length_le_size hx hne
  simp only [List.length_cons] at hbound
  omega

/-! ## Catalogs without circles -/

/-- No declaration is its own variant, directly or through other variants. -/
def Acyclic (g : Catalog) : Prop := ∀ id, ¬ TransGen (fun p c => c ∈ g.variants p) id id

theorem variants_of_descends {p q : Ty} (h : TransGen g.Descends p q) :
    ∃ i j, p.id? = some i ∧ q.id? = some j ∧ TransGen (fun p c => c ∈ g.variants p) i j := by
  have hstep : ∀ {p c : Ty}, g.Descends p c →
      ∃ i j, p.id? = some i ∧ c.id? = some j ∧ j ∈ g.variants i := by
    intro p c h
    obtain ⟨i, j, d, hi, hd, hvar, rfl⟩ := Catalog.mem_children.1 h.mem_children
    exact ⟨i, j, hi, rfl, mem_variants.2 ⟨d, hd, hvar⟩⟩
  induction h with
  | single h =>
    obtain ⟨i, j, hi, hj, hvar⟩ := hstep h
    exact ⟨i, j, hi, hj, .single hvar⟩
  | tail _ h ih =>
    obtain ⟨i, j, hi, hj, hpath⟩ := ih
    obtain ⟨j', k, hj', hk, hvar⟩ := hstep h
    obtain rfl : j = j' := Option.some.inj (hj.symm.trans hj')
    exact ⟨i, k, hi, hk, hpath.tail hvar⟩

theorem Acyclic.not_deep (hg : g.Acyclic) (hn : g.size ≤ n) : ¬ g.Deep n t := by
  intro h
  obtain ⟨p, q, -, hpath, hid⟩ := h.exists_repetition hn
  obtain ⟨i, j, hi, hj, hcircle⟩ := variants_of_descends hpath
  obtain rfl : i = j := Option.some.inj (hi.symm.trans (hid.trans hj))
  exact hg i hcircle

/-- Where declarations come after those they are nested in, there is no circle. -/
theorem acyclic_of_lt (h : ∀ e ∈ g.entries, ∀ p ∈ e.2.container, p.toNat < e.1.toNat) :
    g.Acyclic := by
  have hstep : ∀ {p c}, c ∈ g.variants p → p.toNat < c.toNat := by
    intro p c hc
    obtain ⟨d, hd, hvar⟩ := mem_variants.1 hc
    exact h (c, d) (mem_entries.2 hd) p (Decl.isVariantOf_iff.1 hvar).1
  have hlt : ∀ {i j}, TransGen (fun p c => c ∈ g.variants p) i j → i.toNat < j.toNat := by
    intro i j hpath
    induction hpath with
    | single hc => exact hstep hc
    | tail _ hc ih => exact Nat.lt_trans ih (hstep hc)
  intro id hcircle
  exact Nat.lt_irrefl _ (hlt hcircle)

/-! ## Circles -/

/-- Two types of one declaration with equally many arguments. -/
structure SameShape (t u : Ty) : Prop where
  /-- The declaration is the same. -/
  id_eq : t.id? = u.id?
  /-- So is the number of arguments. -/
  length_eq : t.args.length = u.args.length

theorem isUnbound_eq_any (g : Catalog) (t : Ty) : g.isUnbound t = t.id?.any fun id =>
    (g.decl? id).any fun d => 0 < d.arity && t.args.length != d.arity := by
  cases t <;> rfl

theorem SameShape.isExpandable_eq (h : SameShape t u) : g.isExpandable t = g.isExpandable u := by
  rw [isExpandable, isExpandable, isClosed, isClosed, isUnbound_eq_any, isUnbound_eq_any, h.id_eq,
    h.length_eq]

/-- Whether a child takes over arguments depends on their number alone. -/
theorem SameShape.exists_child (h : SameShape t u) {c : Ty} (hc : c ∈ g.children t) :
    ∃ c' ∈ g.children u, SameShape c c' := by
  obtain ⟨p, id, d, hp, hd, hvar, rfl⟩ := mem_children.1 hc
  refine ⟨d.instantiate id u, mem_children.2 ⟨p, id, d, h.id_eq ▸ hp, hd, hvar, rfl⟩, rfl, ?_⟩
  rw [Decl.args_instantiate, Decl.args_instantiate, h.length_eq]
  split
  · exact h.length_eq
  · rfl

/-- Types of one shape are equally deep. -/
theorem Deep.of_sameShape (hshape : SameShape t u) (h : g.Deep n t) : g.Deep n u := by
  induction n generalizing t u with
  | zero => exact hshape.isExpandable_eq.symm.trans h
  | succ n ih =>
    obtain ⟨c, hc, hdeep⟩ := h
    obtain ⟨c', hc', hchild⟩ := hshape.exists_child hc.mem_children
    have hdeep' : g.Deep n c' := ih hchild hdeep
    exact ⟨c', ⟨hshape.isExpandable_eq.symm.trans hc.isExpandable, hc', hdeep'.isExpandable⟩,
      hdeep'⟩

/-- **A circle has no end.**  A descent that comes back to the shape it started from can be
gone on with for ever. -/
theorem deep_of_repetition {p q : Ty} (hpath : TransGen g.Descends p q) (hshape : SameShape p q)
    (n : Nat) : g.Deep n p := by
  induction n with
  | zero =>
    obtain ⟨c, hc, -⟩ := TransGen.head'_iff.1 hpath
    exact hc.isExpandable
  | succ n ih => exact Deep.of_transGen hpath (ih.of_sameShape hshape)

/-- A declared type with exactly the arguments that its declaration asks for. -/
def Saturated (g : Catalog) (t : Ty) : Prop :=
  ∃ id d, t.id? = some id ∧ g.decl? id = some d ∧ t.args.length = d.arity

/-- A child that can be expanded has the arguments that its declaration asks for: it took over
that many, or there are none to ask for. -/
theorem saturated_of_descends {p c : Ty} (h : g.Descends p c) : g.Saturated c := by
  obtain ⟨_, id, d, -, hd, -, rfl⟩ := Catalog.mem_children.1 h.mem_children
  have hbound : 0 < d.arity → (d.instantiate id p).args.length = d.arity := by
    have hx := h.goes_on
    simp only [isExpandable, isUnbound_eq_any, Bool.and_eq_true, Bool.not_eq_true'] at hx
    simpa [Decl.instantiate, hd] using hx.2
  refine ⟨id, d, rfl, hd, ?_⟩
  by_cases harity : 0 < d.arity
  · exact hbound harity
  · rw [Decl.args_instantiate, if_neg fun h => harity h.1, List.length_nil]
    omega

theorem Saturated.of_reflTransGen (ht : g.Saturated t) (hpath : ReflTransGen g.Descends t u) :
    g.Saturated u := by
  cases hpath with
  | refl => exact ht
  | tail _ h => exact saturated_of_descends h

theorem Saturated.sameShape (ht : g.Saturated t) (hu : g.Saturated u) (hid : t.id? = u.id?) :
    SameShape t u := by
  obtain ⟨i, d, hi, hd, hlength⟩ := ht
  obtain ⟨j, e, hj, he, hlength'⟩ := hu
  obtain rfl : i = j := Option.some.inj (hi.symm.trans (hid.trans hj))
  obtain rfl : d = e := Option.some.inj (hd.symm.trans he)
  exact ⟨hid, hlength.trans hlength'.symm⟩

/-- A saturated type that is as deep as the catalog is large has no bottom. -/
theorem Saturated.deep (ht : g.Saturated t) (h : g.Deep g.size t) (n : Nat) : g.Deep n t := by
  obtain ⟨p, q, hreach, hpath, hid⟩ := h.exists_repetition (Nat.le_refl _)
  have hp : g.Saturated p := ht.of_reflTransGen hreach
  have hq : g.Saturated q := hp.of_reflTransGen hpath.to_reflTransGen
  exact (deep_of_repetition hpath (hp.sameShape hq hid) n).of_reflTransGen hreach

/-- **A limit as large as the catalog tells deep from circular.**  Without a circle among the
variants of a catalog, no check is cut off under such a limit or a larger one.  And if the
leaves of a type that has its arguments cannot be listed under that limit, they are cut off
under every limit. -/
theorem size_separates (g : Catalog) :
    (g.Acyclic → ∀ m, g.size ≤ m → ∀ suggest, ∀ s : Switch,
      ¬ CutOff (s.check g ⟨m, suggest⟩)) ∧
    ∀ t, g.Saturated t → (∃ e, g.leaves g.size t = .error e) → ∀ m, CutOff (g.leaves m t) := by
  constructor
  · rintro hg m hm suggest s ⟨type, limit, h⟩
    rcases requiredNames_eq_error (Switch.check_eq_error_iff.1 h) with
      ⟨t, ht⟩ | ⟨-, ls, -, leaf, -, fault, -, he⟩
    · exact hg.not_deep hm (leavesWithin_fails_iff.1 ⟨_, ht⟩)
    · cases he
  · intro t ht hfail m
    have hdeep : g.Deep m t := ht.deep (leavesWithin_fails_iff.1 hfail) m
    obtain ⟨e, he⟩ := leavesWithin_fails_iff.2 hdeep
    obtain ⟨p, -, rfl⟩ := leaves_eq_error he
    exact ⟨_, _, he⟩

end Catalog

namespace Sample

/-- A tree is a tip or a fork, and a fork has two trees as its fields. -/
def trees : Catalog where
  decls := #[{ name := "Tree" },
    { name := "Tip", container := some ⟨0⟩, supertype := some (.plain ⟨0⟩) },
    { name := "Fork", container := some ⟨0⟩, supertype := some (.plain ⟨0⟩)
      constructors := [{ params := [.plain ⟨0⟩, .plain ⟨0⟩] }] }]
  faultless := by decide

/-- Two generic declarations, each of them the only variant of the other. -/
def ring : Catalog where
  decls := #[
    { name := "Hen", typeParams := ["T"], container := some ⟨1⟩
      supertype := some (.applied ⟨1⟩ [.param "T"]) },
    { name := "Egg", typeParams := ["T"], container := some ⟨0⟩
      supertype := some (.applied ⟨0⟩ [.param "T"]) }]
  faultless := by decide

/-- A hen whose argument is declared nowhere, which no expansion asks about. -/
def hen : Ty := .applied ⟨0⟩ [.plain ⟨7⟩]

theorem acyclic_trees : trees.Acyclic := Catalog.acyclic_of_lt (by decide)

end Sample

theorem Catalog.size_separates_samples :
    (Sample.trees.Acyclic ∧ ∀ arms, ¬ CutOff
      ((Switch.mk (.plain ⟨0⟩) arms false).check Sample.trees ⟨3, true⟩)) ∧
    Sample.ring.Saturated Sample.hen ∧ (∃ e, Sample.ring.leaves 2 Sample.hen = .error e) ∧
      ∀ m, CutOff (Sample.ring.leaves m Sample.hen) := by
  have hsaturated : Sample.ring.Saturated Sample.hen := ⟨⟨0⟩, _, rfl, rfl, rfl⟩
  have hfail : ∃ e, Sample.ring.leaves 2 Sample.hen = .error e := ⟨_, rfl⟩
  refine ⟨⟨Sample.acyclic_trees, fun arms => ?_⟩, hsaturated, hfail, ?_⟩
  · exact (size_separates Sample.trees).1 Sample.acyclic_trees 3 (by decide) true _
  · exact (size_separates Sample.ring).2 Sample.hen hsaturated hfail

end SwitchCoverage
