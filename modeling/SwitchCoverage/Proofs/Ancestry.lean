import Mathlib.Data.List.Nodup
import Mathlib.Data.Set.List
import SwitchCoverage.Proofs.Suffix

/-!
# Each leaf once

A variant is nested in the declaration that it derives from, so it is a variant of one
declaration at most.  Two ways down that end in one declaration therefore come from one
declaration, step by step upwards, until one of them has come to the start of the other.  If
both start at children of one type, and not at the same child, then the longer one passes the
declaration of that type again, and it passes it with variants below.

A catalog does not exclude that: derivation may run in a circle.  But a type that has the
arguments that its declaration asks for and comes back to its declaration can do so again and
again, so its leaves cannot be listed.  What the expansion can come back to is the declaration
as a leaf, without arguments, and that happens once.

## Main definitions

* `Catalog.Expands` — a step of the expansion, whether or not it goes on afterwards.

## Main statements

* `Catalog.Expands.parent_eq` — a declaration is reached from one declaration only.
* `Catalog.passes_start` — of two ways down to one declaration, one passes the start of the other.
* `Catalog.not_returns` — a type whose leaves can be listed does not come back to itself.
* `Catalog.leaves_once` — **no leaf is listed twice.**
-/
namespace SwitchCoverage

open Relation (ReflTransGen TransGen)

namespace Catalog

variable {g : Catalog} {limit n : Nat} {t u v : Ty}

/-! ## Ways down -/

/-- The expansion goes from `p` to `c`. -/
structure Expands (g : Catalog) (p c : Ty) : Prop where
  /-- The expansion enters `p`. -/
  isExpandable : g.isExpandable p = true
  /-- It reaches `c`. -/
  mem_children : c ∈ g.children p

/-- A declaration is a variant of one declaration at most. -/
theorem Expands.parent_eq {p q : Ty} (hu : g.Expands p u) (hv : g.Expands q v)
    (hid : u.id? = v.id?) : p.id? = q.id? := by
  obtain ⟨i, k, d, hi, hd, hvar, rfl⟩ := Catalog.mem_children.1 hu.mem_children
  obtain ⟨j, k', e, hj, he, hvar', rfl⟩ := Catalog.mem_children.1 hv.mem_children
  obtain rfl : k = k' := Option.some.inj hid
  rw [hi, hj, variants_disjoint (mem_variants.2 ⟨d, hd, hvar⟩) (mem_variants.2 ⟨e, he, hvar'⟩)]

/-- Of two ways down that end in one declaration, one passes the declaration at which the other
starts. -/
theorem passes_start {x y : Ty} (hx : ReflTransGen g.Expands x u)
    (hy : ReflTransGen g.Expands y v) (hid : u.id? = v.id?) :
    (∃ w, ReflTransGen g.Expands x w ∧ w.id? = y.id?) ∨
      ∃ w, ReflTransGen g.Expands y w ∧ w.id? = x.id? := by
  induction hx generalizing v with
  | refl => exact .inr ⟨v, hy, hid.symm⟩
  | tail hx hu ih =>
    cases hy with
    | refl => exact .inl ⟨_, hx.tail hu, hid⟩
    | tail hy hv => exact ih hy (hu.parent_eq hv hid)

/-- The way to a type that can be expanded goes through types that can. -/
theorem descends_of_expands {c p : Ty} (hc : g.Expands t c) (hp : ReflTransGen g.Expands c p)
    (hx : g.isExpandable p = true) : TransGen g.Descends t p := by
  induction hp with
  | refl => exact .single ⟨hc.isExpandable, hc.mem_children, hx⟩
  | tail _ hstep ih =>
    have hbefore : TransGen g.Descends t _ := ih hstep.isExpandable
    exact hbefore.tail ⟨hstep.isExpandable, hstep.mem_children, hx⟩

/-! ## Ways back -/

/-- The expansion of `t` comes to the declaration of `t` again, and goes on from there. -/
def Returns (g : Catalog) (t : Ty) : Prop := ∃ q, TransGen g.Descends t q ∧ q.id? = t.id?

/-- A way down from one child that passes the declaration of another child has come through
the declaration of their parent. -/
theorem returns_of_passes {a b w : Ty} (ha : g.Expands t a) (hb : g.Expands t b)
    (hne : a.id? ≠ b.id?) (hw : ReflTransGen g.Expands a w) (hid : w.id? = b.id?) :
    g.Returns t := by
  cases hw with
  | refl => exact absurd hid hne
  | tail hp hstep =>
    exact ⟨_, descends_of_expands ha hp hstep.isExpandable, hstep.parent_eq hb hid⟩

/-- Whoever comes back once comes back for ever, and then no limit is large enough. -/
theorem not_returns (ht : g.Saturated t) {ls : List Ty} (h : g.leavesWithin limit n t = .ok ls) :
    ¬ g.Returns t := by
  rintro ⟨q, hpath, hid⟩
  have hq : g.Saturated q := ht.of_reflTransGen hpath.to_reflTransGen
  have hdeep : g.Deep n t := deep_of_repetition hpath (ht.sameShape hq hid.symm) n
  obtain ⟨e, he⟩ : ∃ e, g.leavesWithin limit n t = .error e := leavesWithin_fails_iff.2 hdeep
  rw [h] at he
  cases he

/-! ## Leaves -/

theorem expands_of_mem_leavesWithin {ls : List Ty} (h : g.leavesWithin limit n t = .ok ls) :
    ∀ v ∈ ls, ReflTransGen g.Expands t v := by
  have hleaves : g.leaves n t = .ok ls := leavesWithin_of_le (Nat.le_refl n) h
  intro v hv
  refine (leaves_induction (motive := ReflTransGen g.Expands t) ?_ hleaves .refl v hv).1
  intro p hp hx c hc
  exact hp.tail ⟨hx, hc⟩

/-- Leaves below different children of a type have different declarations, unless the type
comes back to its own. -/
theorem id?_ne_of_mem_leavesWithin {a b : Ty} {la lb : List Ty} (ht : ¬ g.Returns t)
    (ha : g.Expands t a) (hb : g.Expands t b) (hne : a.id? ≠ b.id?)
    (hla : g.leavesWithin limit n a = .ok la) (hlb : g.leavesWithin limit n b = .ok lb)
    (hu : u ∈ la) (hv : v ∈ lb) : u.id? ≠ v.id? := by
  intro hid
  have hau : ReflTransGen g.Expands a u := expands_of_mem_leavesWithin hla u hu
  have hbv : ReflTransGen g.Expands b v := expands_of_mem_leavesWithin hlb v hv
  rcases passes_start hau hbv hid with ⟨w, hw, hwid⟩ | ⟨w, hw, hwid⟩
  · exact ht (returns_of_passes ha hb hne hw hwid)
  · exact ht (returns_of_passes hb ha hne.symm hw hwid)

theorem children_distinct (g : Catalog) (t : Ty) :
    (g.children t).Pairwise fun a b => a.id? ≠ b.id? := by
  refine (g.children_ascending t).imp_of_mem fun {a b} ha hb hlt hid => ?_
  obtain ⟨_, i, _, -, -, -, rfl⟩ := mem_children.1 ha
  obtain ⟨_, j, _, -, -, -, rfl⟩ := mem_children.1 hb
  obtain rfl : i = j := Option.some.inj hid
  exact Nat.lt_irrefl _ (hlt i i rfl rfl)

/-- The induction is along the expansion.  The leaves of one child are different by induction,
since a child that can be expanded has its arguments; those of two children are different
because the type does not come back to itself. -/
theorem nodup_id?_leavesWithin (ht : g.isExpandable t = true → g.Saturated t) {ls : List Ty}
    (h : g.leavesWithin limit n t = .ok ls) : (ls.map Ty.id?).Nodup := by
  refine leavesWithin_induction (motive := fun _ t ls =>
    (g.isExpandable t = true → g.Saturated t) → (ls.map Ty.id?).Nodup) ?_ ?_ h ht
  · intro _ t _ _
    simp
  · intro n t parts hx hparts ht
    have hleaves : List.Forall₂ (fun c l => g.leavesWithin limit n c = .ok l)
        (g.children t) parts := hparts.imp fun _ _ hc => hc.1
    have hstay : ¬ g.Returns t := not_returns (ht hx)
      ((leavesWithin_of_isExpandable hx).2 ⟨n, parts, rfl, rfl, hleaves⟩)
    rw [List.map_flatten, List.nodup_flatten]
    constructor
    · intro ids hids
      obtain ⟨l, hl, rfl⟩ := List.mem_map.1 hids
      obtain ⟨c, hc, -, hnodup⟩ := exists_left_of_mem hparts hl
      exact hnodup fun hxc => saturated_of_descends ⟨hx, hc, hxc⟩
    · refine List.pairwise_map.2 (pairwise_of_forall₂ hleaves (g.children_distinct t) ?_)
      intro a ha b hb la lb hne hla hlb
      simp only [List.disjoint_left, List.mem_map]
      rintro _ ⟨u, hu, rfl⟩ ⟨v, hv, hid⟩
      exact id?_ne_of_mem_leavesWithin hstay ⟨hx, ha⟩ ⟨hx, hb⟩ hne hla hlb hu hv hid.symm

/-- **No leaf is listed twice.**  If the leaves of a type with exactly the arguments that its
declaration asks for can be listed, they are declared types, and their declarations are
pairwise different. -/
theorem leaves_once (ht : g.Saturated t) {ls : List Ty} (h : g.leaves limit t = .ok ls) :
    ∃ ids : List DeclId, ls.map Ty.id? = ids.map some ∧ ids.Nodup := by
  have hnodup : (ls.map Ty.id?).Nodup := nodup_id?_leavesWithin (fun _ => ht) h
  have hdeclared : ls.map Ty.id? ∈ Set.range (List.map some) := by
    obtain ⟨root, -, hroot, -, -⟩ := ht
    rw [Set.range_list_map]
    intro key hkey
    obtain ⟨v, hv, rfl⟩ := List.mem_map.1 hkey
    obtain ⟨i, hi⟩ := id?_of_mem_leaves hroot h v hv
    exact ⟨i, hi.symm⟩
  obtain ⟨ids, hids⟩ := hdeclared
  exact ⟨ids, hids.symm, List.Nodup.of_map some (hids ▸ hnodup)⟩

end Catalog

namespace Sample

/-- Folders hold notes and archives, and an archive, which has no parameter, holds tapes and
folders.  So a folder of something comes back to folders, but there nothing is left that says
what of. -/
def filing : Catalog where
  decls := #[
    { name := "Int" },
    { name := "Folder", typeParams := ["T"], container := some ⟨2⟩
      supertype := some (.plain ⟨2⟩) },
    { name := "Archive", container := some ⟨1⟩
      supertype := some (.applied ⟨1⟩ [.param "T"]) },
    { name := "Note", container := some ⟨1⟩
      supertype := some (.applied ⟨1⟩ [.param "T"]) },
    { name := "Tape", container := some ⟨2⟩, supertype := some (.plain ⟨2⟩) }]
  faultless := by decide

/-- A folder of numbers. -/
def intFolder : Ty := .applied ⟨1⟩ [.plain ⟨0⟩]

end Sample

theorem Catalog.leaves_once_filing :
    Sample.filing.Saturated Sample.intFolder ∧
    ∃ ls, Sample.filing.leaves 64 Sample.intFolder = .ok ls ∧
      ls.map Ty.id? = [some ⟨1⟩, some ⟨4⟩, some ⟨3⟩] ∧
      ∃ ids : List DeclId, ls.map Ty.id? = ids.map some ∧ ids.Nodup := by
  have hsaturated : Sample.filing.Saturated Sample.intFolder := ⟨⟨1⟩, _, rfl, rfl, rfl⟩
  have hleaves : ∃ ls, Sample.filing.leaves 64 Sample.intFolder = .ok ls ∧
      ls.map Ty.id? = [some ⟨1⟩, some ⟨4⟩, some ⟨3⟩] := ⟨_, rfl, rfl⟩
  obtain ⟨ls, hls, hids⟩ := hleaves
  exact ⟨hsaturated, ls, hls, hids, leaves_once hsaturated hls⟩

-- An archive asks for no argument.  Given one all the same, it hands it on to the folders in
-- it, and comes back to archives: the tape is listed twice.
example : (Sample.filing.leaves 64 (.applied ⟨2⟩ [.plain ⟨0⟩])).map (·.map Ty.id?) =
    .ok [some ⟨1⟩, some ⟨4⟩, some ⟨3⟩, some ⟨4⟩] := rfl

end SwitchCoverage
