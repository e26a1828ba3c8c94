import Mathlib.Data.List.Forall2
import SwitchCoverage.Switch.Expansion

/-!
# Variants and leaves

A catalog numbers its declarations by position, so its entries are its filled
positions, and the variants of a declaration are the filled positions that say so.
From that follows what a leaf can be.  The expansion of a type is a bounded walk in
which every step goes from an expandable type to one of its children; whatever the
type has and every such step hands on, each leaf has.

## Main statements

* `Draft.fault?_eq_none_iff` — when declarations make a catalog.
* `Catalog.mem_entries`, `Catalog.mem_children` — the filled positions, and the types
  that a step of the expansion reaches.
* `Catalog.variants_ascending` — variants stand in the order of their positions.
* `Catalog.variants_disjoint` — a declaration is a variant of one other at most.
* `Catalog.leavesWithin_induction` — induction along an expansion.
* `Catalog.leaves_induction` — what the expansion hands on from a type to its leaves.
* `Catalog.isVariant_of_mem_leaves` — a leaf of an expandable type that has its
  arguments is a variant of a closed declaration.
-/
namespace SwitchCoverage

/-! ## Steps that can fail

A walk fails at its first failing step, so a result of the whole is a result of
every step. -/

section Except

variable {ε α β : Type}

theorem bind_eq_ok_iff {x : Except ε α} {f : α → Except ε β} {b : β} :
    x >>= f = .ok b ↔ ∃ a, x = .ok a ∧ f a = .ok b := by
  cases x <;> simp [bind, Except.bind]

theorem map_eq_ok_iff {x : Except ε α} {f : α → β} {b : β} :
    x.map f = .ok b ↔ ∃ a, x = .ok a ∧ f a = b := by
  cases x <;> simp [Except.map]

theorem mapM_eq_ok_iff {f : α → Except ε β} {xs : List α} {ys : List β} :
    xs.mapM f = .ok ys ↔ List.Forall₂ (fun x y => f x = .ok y) xs ys := by
  induction xs generalizing ys with
  | nil => simp [pure, Except.pure, eq_comm]
  | cons x xs ih =>
    rw [List.mapM_cons, bind_eq_ok_iff, List.forall₂_cons_left_iff]
    constructor
    · rintro ⟨y, hy, h⟩
      obtain ⟨rest, hrest, h⟩ := bind_eq_ok_iff.1 h
      exact ⟨y, rest, hy, ih.1 hrest, (Except.ok.inj h).symm⟩
    · rintro ⟨y, rest, hy, hrest, rfl⟩
      exact ⟨y, hy, bind_eq_ok_iff.2 ⟨rest, ih.2 hrest, rfl⟩⟩

theorem mapError_eq_ok_iff {ε' : Type} {x : Except ε α} {f : ε → ε'} {a : α} :
    x.mapError f = .ok a ↔ x = .ok a := by
  cases x <;> simp [Except.mapError]

theorem bind_congr_ok {x : Except ε α} {f k : α → Except ε β}
    (h : ∀ a, x = .ok a → f a = k a) : x >>= f = x >>= k := by
  cases x with
  | error e => rfl
  | ok a => exact h a rfl

theorem map_congr_ok {x : Except ε α} {f k : α → β} (h : ∀ a, x = .ok a → f a = k a) :
    x.map f = x.map k := by
  cases x with
  | error e => rfl
  | ok a => exact congrArg Except.ok (h a rfl)

theorem mapM_congr {f k : α → Except ε β} {xs : List α} (h : ∀ x ∈ xs, f x = k x) :
    xs.mapM f = xs.mapM k := by
  induction xs with
  | nil => rfl
  | cons x xs ih =>
    rw [List.mapM_cons, List.mapM_cons, h x (.head _), ih fun y hy => h y (.tail _ hy)]

/-- In lists that are related entry by entry, each entry on the right has a partner on
the left. -/
theorem exists_left_of_mem {R : α → β → Prop} {xs : List α} {ys : List β}
    (h : List.Forall₂ R xs ys) {y : β} (hy : y ∈ ys) : ∃ x ∈ xs, R x y := by
  induction h with
  | nil => simp at hy
  | cons hxy _ ih =>
    rcases List.mem_cons.1 hy with rfl | hy
    · exact ⟨_, .head _, hxy⟩
    · obtain ⟨x, hx, hR⟩ := ih hy
      exact ⟨x, .tail _ hx, hR⟩

theorem exists_right_of_mem {R : α → β → Prop} {xs : List α} {ys : List β}
    (h : List.Forall₂ R xs ys) {x : α} (hx : x ∈ xs) : ∃ y ∈ ys, R x y :=
  exists_left_of_mem (R := flip R) h.flip hx

/-- If each entry of a list has a partner, the partners make a list. -/
theorem exists_forall₂ {R : α → β → Prop} {xs : List α} (h : ∀ x ∈ xs, ∃ y, R x y) :
    ∃ ys, List.Forall₂ R xs ys := by
  induction xs with
  | nil => exact ⟨[], .nil⟩
  | cons x xs ih =>
    obtain ⟨⟨y, hy⟩, hxs⟩ := List.forall_mem_cons.1 h
    obtain ⟨ys, hys⟩ := ih hxs
    exact ⟨y :: ys, .cons hy hys⟩

/-- What holds of any two entries on the left holds, carried over, of their partners. -/
theorem pairwise_of_forall₂ {R : α → β → Prop} {S : α → α → Prop}
    {T : β → β → Prop} {xs : List α} {ys : List β} (h : List.Forall₂ R xs ys)
    (hxs : xs.Pairwise S) (hST : ∀ a ∈ xs, ∀ b ∈ xs, ∀ x y, S a b → R a x → R b y → T x y) :
    ys.Pairwise T := by
  induction h with
  | nil => exact .nil
  | @cons a x xs ys hax hrest ih =>
    obtain ⟨ha, hxs⟩ := List.pairwise_cons.1 hxs
    refine List.pairwise_cons.2 ⟨fun y hy => ?_, ih hxs fun b hb c hc =>
      hST b (.tail _ hb) c (.tail _ hc)⟩
    obtain ⟨b, hb, hby⟩ := exists_left_of_mem hrest hy
    exact hST a (.head _) b (.tail _ hb) x y (ha b hb) hax hby

end Except

/-! ## Drafts without fault -/

theorem DeclId.toNat_injective : Function.Injective DeclId.toNat :=
  Function.LeftInverse.injective DeclId.ofNat_toNat

theorem Decl.fault?_eq_none_iff {bound : Nat} {self : DeclId} {d : Decl} :
    d.fault? bound self = none ↔ (∀ i ∈ d.mentions, i.toNat < bound) ∧ d.base? ≠ some self := by
  rw [Decl.fault?]
  cases hfind : d.mentions.find? fun id => bound ≤ id.toNat with
  | some id =>
    have hid : ¬ id.toNat < bound := by simpa using List.find?_some hfind
    simp only [reduceCtorEq, false_iff, not_and]
    exact fun hall => absurd (hall id (List.mem_of_find?_eq_some hfind)) hid
  | none =>
    have hall : ∀ i ∈ d.mentions, i.toNat < bound := by
      simpa using List.find?_eq_none.1 hfind
    simpa using fun _ => hall

namespace Draft

variable {g : Draft}

theorem decl?_of_lt {id : DeclId} (h : id.toNat < g.size) : ∃ d, g.decl? id = some d :=
  ⟨_, Array.getElem?_eq_getElem h⟩

theorem decl?_of_le {id : DeclId} (h : g.size ≤ id.toNat) : g.decl? id = none :=
  Array.getElem?_eq_none h

theorem lt_of_decl? {id : DeclId} {d : Decl} (h : g.decl? id = some d) : id.toNat < g.size :=
  (Array.getElem?_eq_some_iff.1 h).1

theorem mem_entries (hsize : g.size < UInt32.size) {id : DeclId} {d : Decl} :
    (id, d) ∈ g.entries ↔ g.decl? id = some d := by
  simp only [entries, decl?, List.mem_map, Prod.exists, Prod.mk.injEq]
  constructor
  · rintro ⟨e, i, hmem, rfl, rfl⟩
    have hget : g.decls[i]? = some e := by
      simpa using List.mk_mem_zipIdx_iff_getElem?.1 hmem
    have hi : i < g.size := (Array.getElem?_eq_some_iff.1 hget).1
    rwa [DeclId.toNat_ofNat_of_lt (Nat.lt_trans hi hsize)]
  · intro hget
    exact ⟨d, id.toNat, List.mk_mem_zipIdx_iff_getElem?.2 (by simpa using hget), by simp, rfl⟩

/-- **A draft is without fault** just when its positions can be numbered, its declarations
refer to filled positions, and none of them derives from itself. -/
theorem fault?_eq_none_iff : g.fault? = none ↔ g.size < UInt32.size ∧
    ∀ id d, g.decl? id = some d → (∀ i ∈ d.mentions, i.toNat < g.size) ∧ d.base? ≠ some id := by
  by_cases hsize : g.size < UInt32.size
  · simp only [fault?, hsize, if_true, true_and, List.findSome?_eq_none_iff, Prod.forall,
      mem_entries hsize, Decl.fault?_eq_none_iff]
  · simp [fault?, hsize]

theorem finish_eq_ok_iff {defs : Draft} {g : Catalog} :
    defs.finish = .ok g ↔ g.toDraft = defs := by
  rw [finish]
  split
  next hnone =>
    rw [Except.ok.injEq]
    constructor
    · rintro rfl
      rfl
    · rintro rfl
      rfl
  next fault hfault =>
    constructor
    · intro h
      cases h
    · rintro rfl
      rw [g.faultless] at hfault
      cases hfault

end Draft

namespace Catalog

variable {g : Catalog} {limit : Nat}

/-! ## Entries -/

theorem decl_eq_ok_iff {id : DeclId} {d : Decl} : g.decl id = .ok d ↔ g.decl? id = some d := by
  rw [decl]
  split <;> simp_all

/-- A catalog has fewer declarations than there are positions. -/
theorem size_lt (g : Catalog) : g.size < UInt32.size :=
  (Draft.fault?_eq_none_iff.1 g.faultless).1

theorem mem_entries {id : DeclId} {d : Decl} : (id, d) ∈ g.entries ↔ g.decl? id = some d :=
  Draft.mem_entries g.size_lt

/-- A declaration of a catalog refers to filled positions only. -/
theorem decl?_of_mem_mentions {id i : DeclId} {d : Decl} (hd : g.decl? id = some d)
    (hi : i ∈ d.mentions) : ∃ e, g.decl? i = some e :=
  Draft.decl?_of_lt (((Draft.fault?_eq_none_iff.1 g.faultless).2 id d hd).1 i hi)

theorem mem_variantEntries {p id : DeclId} {d : Decl} :
    (id, d) ∈ g.variantEntries p ↔ g.decl? id = some d ∧ d.isVariantOf p = true := by
  rw [variantEntries, List.mem_filter, mem_entries]

theorem mem_variants {p id : DeclId} :
    id ∈ g.variants p ↔ ∃ d, g.decl? id = some d ∧ d.isVariantOf p = true := by
  simp [variants, mem_variantEntries]

/-- The entries of a catalog stand in the order of their positions. -/
theorem entries_ascending (g : Catalog) :
    g.entries.Pairwise fun a b => a.1.toNat < b.1.toNat := by
  have hpositions : g.entries.map (fun e => e.1.toNat) = List.range' 0 g.decls.toList.length := by
    rw [← List.zipIdx_map_snd 0, Draft.entries, List.map_map]
    refine List.map_congr_left fun e he => ?_
    have hlt : e.2 < g.size := by simpa [Draft.size] using List.snd_lt_of_mem_zipIdx he
    exact DeclId.toNat_ofNat_of_lt (Nat.lt_trans hlt g.size_lt)
  have hlt : (g.entries.map fun e => e.1.toNat).Pairwise (· < ·) := by
    rw [hpositions]
    exact List.pairwise_lt_range' 1
  exact List.pairwise_map.1 hlt

/-- So do the variants of a declaration. -/
theorem variants_ascending (g : Catalog) (p : DeclId) :
    (g.variants p).Pairwise fun i j => i.toNat < j.toNat :=
  List.pairwise_map.2 (g.entries_ascending.filter _)

/-- A variant is nested in the declaration and derives from it. -/
theorem mem_variants_iff {p i : DeclId} : i ∈ g.variants p ↔ ∃ d t, g.decl? i = some d ∧
    d.container = some p ∧ d.supertype = some t ∧ t.id? = some p := by
  simp only [mem_variants, Decl.isVariantOf_iff, Decl.base?, Option.bind_eq_some_iff]
  constructor
  · rintro ⟨d, hd, hcontainer, t, ht, hid⟩
    exact ⟨d, t, hd, hcontainer, ht, hid⟩
  · rintro ⟨d, t, hd, hcontainer, ht, hid⟩
    exact ⟨d, hd, hcontainer, t, ht, hid⟩

/-- No declaration is a variant of itself. -/
theorem not_mem_variants_self (g : Catalog) (p : DeclId) : p ∉ g.variants p := by
  intro hp
  obtain ⟨d, hd, hvar⟩ := mem_variants.1 hp
  exact ((Draft.fault?_eq_none_iff.1 g.faultless).2 p d hd).2 (Decl.isVariantOf_iff.1 hvar).2

/-- A declaration is a variant of one other at most. -/
theorem variants_disjoint {p q i : DeclId} (hp : i ∈ g.variants p) (hq : i ∈ g.variants q) :
    p = q := by
  obtain ⟨d, hd, hvar⟩ := mem_variants.1 hp
  obtain ⟨e, he, hvar'⟩ := mem_variants.1 hq
  obtain rfl : d = e := Option.some.inj (hd.symm.trans he)
  have hcontainer : d.container = some p := (Decl.isVariantOf_iff.1 hvar).1
  exact Option.some.inj (hcontainer.symm.trans (Decl.isVariantOf_iff.1 hvar').1)

/-- What is not declared has no variants, since these would refer to it. -/
theorem variants_eq_nil {p : DeclId} (hp : g.size ≤ p.toNat) : g.variants p = [] := by
  refine List.eq_nil_iff_forall_not_mem.2 fun i hi => ?_
  obtain ⟨d, hd, hvar⟩ := mem_variants.1 hi
  have hmention : p ∈ d.mentions := by
    simp [Decl.mentions, (Decl.isVariantOf_iff.1 hvar).1]
  obtain ⟨e, he⟩ := decl?_of_mem_mentions hd hmention
  exact absurd (Draft.lt_of_decl? he) (Nat.not_lt.2 hp)

/-- The children of a declared type are the variants of its declaration, as types
declared in it. -/
theorem mem_children {t c : Ty} :
    c ∈ g.children t ↔ ∃ p id d, t.id? = some p ∧ g.decl? id = some d ∧
      d.isVariantOf p = true ∧ c = d.instantiate id t := by
  rw [children]
  cases t.id? with
  | none => simp
  | some p =>
    simp only [List.mem_map, Prod.exists, mem_variantEntries, Option.some.injEq]
    constructor
    · rintro ⟨id, d, ⟨hd, hvar⟩, rfl⟩
      exact ⟨p, id, d, rfl, hd, hvar, rfl⟩
    · rintro ⟨_, id, d, rfl, hd, hvar, rfl⟩
      exact ⟨id, d, ⟨hd, hvar⟩, rfl⟩

/-- A child of a closed type is a variant as soon as it is not closed itself. -/
theorem isVariant_of_mem_children {p c : Ty} (hp : g.isClosed p = true) (hc : c ∈ g.children p)
    (hopen : g.isClosed c = false) : g.isVariant c = true := by
  obtain ⟨parent, id, d, hparent, hd, hvar, rfl⟩ := mem_children.1 hc
  have hclosed : g.isClosedDecl parent = true := by simpa [isClosed, hparent] using hp
  have hopen : g.isClosedDecl id = false := by simpa [isClosed, Decl.instantiate] using hopen
  have hcontainer : d.container = some parent := (Decl.isVariantOf_iff.1 hvar).1
  have hmem : id ∈ g.variants parent := mem_variants.2 ⟨d, hd, hvar⟩
  simp [isVariant, Decl.instantiate, hd, hopen, hcontainer, hclosed, hmem]

/-- Variants are declared. -/
theorem decl_of_isVariant {v : Ty} (h : g.isVariant v = true) :
    ∃ id d, v.id? = some id ∧ g.decl? id = some d := by
  simp only [isVariant, Option.any_eq_true] at h
  obtain ⟨id, hid, d, hd, -⟩ := h
  exact ⟨id, d, hid, hd⟩

/-! ## Leaves -/

theorem leavesWithin_of_not_isExpandable {t : Ty} (h : g.isExpandable t = false) (n : Nat) :
    g.leavesWithin limit n t = .ok [t] := by
  cases n <;> simp [leavesWithin, h]

/-- An expandable type has leaves only while levels remain, and they are the leaves of
its children one after the other. -/
theorem leavesWithin_of_isExpandable {t : Ty} (h : g.isExpandable t = true) {n : Nat}
    {ls : List Ty} :
    g.leavesWithin limit n t = .ok ls ↔ ∃ m parts, n = m + 1 ∧ ls = parts.flatten ∧
      List.Forall₂ (fun c l => g.leavesWithin limit m c = .ok l) (g.children t) parts := by
  cases n with
  | zero => simp [leavesWithin, h]
  | succ m =>
    simp only [leavesWithin, h, if_true, map_eq_ok_iff, mapM_eq_ok_iff]
    constructor
    · rintro ⟨parts, hparts, rfl⟩
      exact ⟨m, parts, rfl, rfl, hparts⟩
    · rintro ⟨k, parts, hk, rfl, hparts⟩
      obtain rfl : m = k := by omega
      exact ⟨parts, hparts, rfl⟩

/-- **Induction along an expansion.**  It ends at once where a type cannot be expanded, and
otherwise goes on, with one level less, to the children of the type. -/
theorem leavesWithin_induction {motive : Nat → Ty → List Ty → Prop}
    (leaf : ∀ n t, g.isExpandable t = false → motive n t [t])
    (node : ∀ n t parts, g.isExpandable t = true →
      List.Forall₂ (fun c l => g.leavesWithin limit n c = .ok l ∧ motive n c l)
        (g.children t) parts → motive (n + 1) t parts.flatten)
    {n : Nat} {t : Ty} {ls : List Ty} (h : g.leavesWithin limit n t = .ok ls) :
    motive n t ls := by
  induction n generalizing t ls with
  | zero =>
    by_cases hx : g.isExpandable t = true
    · simp [leavesWithin, hx] at h
    · rw [leavesWithin_of_not_isExpandable (by simpa using hx)] at h
      cases h
      exact leaf 0 t (by simpa using hx)
  | succ n ih =>
    by_cases hx : g.isExpandable t = true
    · obtain ⟨m, parts, hm, rfl, hparts⟩ := (leavesWithin_of_isExpandable hx).1 h
      obtain rfl : n = m := by omega
      exact node n t parts hx (hparts.imp fun _ _ hc => ⟨hc, ih hc⟩)
    · rw [leavesWithin_of_not_isExpandable (by simpa using hx)] at h
      cases h
      exact leaf (n + 1) t (by simpa using hx)

/-- **The invariant of the expansion.**  A property of a type that every expandable type
hands on to its children is a property of all leaves, and no leaf is expandable. -/
theorem leaves_induction {motive : Ty → Prop}
    (step : ∀ p, motive p → g.isExpandable p = true → ∀ c ∈ g.children p, motive c)
    {t : Ty} {ls : List Ty} (h : g.leaves limit t = .ok ls) (ht : motive t) :
    ∀ v ∈ ls, motive v ∧ g.isExpandable v = false := by
  refine leavesWithin_induction (motive := fun _ t ls => motive t →
    ∀ v ∈ ls, motive v ∧ g.isExpandable v = false) ?_ ?_ h ht
  · intro _ t hx ht
    simpa using And.intro ht hx
  · intro n t parts hx hparts ht v hv
    obtain ⟨l, hl, hv⟩ := List.mem_flatten.1 hv
    obtain ⟨c, hc, -, hleaves⟩ := exists_left_of_mem hparts hl
    exact hleaves (step t ht hx c hc) v hv

/-- A leaf of an expandable type is a child of an expandable type. -/
theorem exists_parent_of_mem_leaves {t v : Ty} {ls : List Ty} (h : g.leaves limit t = .ok ls)
    (ht : g.isExpandable t = true) (hv : v ∈ ls) :
    ∃ p, g.isExpandable p = true ∧ v ∈ g.children p := by
  obtain ⟨hwalk, hleaf⟩ := leaves_induction
    (motive := fun v => v = t ∨ ∃ p, g.isExpandable p = true ∧ v ∈ g.children p)
    (fun p _ hp c hc => .inr ⟨p, hp, hc⟩) h (.inl rfl) v hv
  rcases hwalk with rfl | hparent
  · simp [ht] at hleaf
  · exact hparent

/-- A leaf of an expandable type is declared. -/
theorem decl_of_mem_leaves {t v : Ty} {ls : List Ty} (h : g.leaves limit t = .ok ls)
    (ht : g.isExpandable t = true) (hv : v ∈ ls) :
    ∃ id d, v.id? = some id ∧ g.decl? id = some d := by
  obtain ⟨p, -, hchild⟩ := exists_parent_of_mem_leaves h ht hv
  obtain ⟨_, id, d, -, hd, -, rfl⟩ := mem_children.1 hchild
  exact ⟨id, d, rfl, hd⟩

/-- **A leaf with all its arguments is a variant.**  A leaf is not expandable, so having
its arguments it cannot be closed; and it was reached from a closed parent. -/
theorem isVariant_of_mem_leaves {t v : Ty} {ls : List Ty} (h : g.leaves limit t = .ok ls)
    (ht : g.isExpandable t = true) (hv : v ∈ ls) (hbound : g.isUnbound v = false) :
    g.isVariant v = true := by
  obtain ⟨p, hp, hchild⟩ := exists_parent_of_mem_leaves h ht hv
  have hleaf := (leaves_induction (motive := fun _ => True) (fun _ _ _ _ _ => trivial)
    h trivial v hv).2
  have hopen : g.isClosed v = false := by simpa [isExpandable, hbound] using hleaf
  have hclosed : g.isClosed p = true := by
    simp only [isExpandable, Bool.and_eq_true] at hp
    exact hp.1
  exact isVariant_of_mem_children hclosed hchild hopen

/-- A type with several leaves is expandable. -/
theorem isExpandable_of_one_lt_length {t : Ty} {ls : List Ty} (h : g.leaves limit t = .ok ls)
    (hls : 1 < ls.length) : g.isExpandable t = true := by
  by_contra hx
  rw [leaves, leavesWithin_of_not_isExpandable (by simpa using hx)] at h
  cases h
  simp at hls

end Catalog

end SwitchCoverage
