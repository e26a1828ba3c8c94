import Mathlib.Data.Fin.Rev
import Mathlib.Data.List.Perm.Basic
import SwitchCoverage.Proofs.ByteOrder
import SwitchCoverage.Proofs.Cases
import SwitchCoverage.Proofs.Renaming

/-!
# The order of declarations

Declarations are numbered in the order in which they are added, and the analysis follows
that order: it decides in which order variants are listed, and which of two failures comes
first.  An answer shows none of it.  If the declarations of a catalog are put in another
order, and all positions are renamed accordingly, then every switch gets the answer that it
got before, or fails where it failed before.

## Main definitions

* `Alike` — two computations that succeed together, with related results.
* `Draft.moved`, `Draft.reordered` — the new positions, and the declarations in a new order.

## Main statements

* `Catalog.Embeds.leaves_alike` — the leaves of a renamed type, up to their order.
* `Catalog.Embeds.requiredNames_alike` — the names that a switch has to cover stay.
* `Switch.check_reordered` — **the order of declarations is irrelevant.**
-/
namespace SwitchCoverage

/-! ## Computations that succeed together -/

/-- Both computations succeed, with related results, or both fail.  Why they fail does not
matter. -/
def Alike {ε α β : Type} (R : α → β → Prop) : Except ε α → Except ε β → Prop
  | .ok a, .ok b => R a b
  | .error _, .error _ => True
  | _, _ => False

namespace Alike

variable {ε α β γ δ : Type} {R : α → β → Prop} {S : γ → δ → Prop}

theorem map {x : Except ε α} {y : Except ε β} (h : Alike R x y) {f : α → γ} {k : β → δ}
    (hfk : ∀ a b, R a b → S (f a) (k b)) : Alike S (x.map f) (y.map k) := by
  cases x <;> cases y <;> simp_all [Alike, Except.map]

theorem bind {x : Except ε α} {y : Except ε β} (h : Alike R x y) {f : α → Except ε γ}
    {k : β → Except ε δ} (hfk : ∀ a b, R a b → Alike S (f a) (k b)) :
    Alike S (x >>= f) (y >>= k) := by
  cases x <;> cases y <;> simp_all [Alike, Bind.bind, Except.bind]

theorem mapM {f : α → Except ε γ} {k : β → Except ε δ} {xs : List α} {ys : List β}
    (hxy : List.Forall₂ (fun x y => Alike S (f x) (k y)) xs ys) :
    Alike (List.Forall₂ S) (xs.mapM f) (ys.mapM k) := by
  induction hxy with
  | nil => exact List.Forall₂.nil
  | cons hstep _ ih =>
    rw [List.mapM_cons, List.mapM_cons]
    exact hstep.bind fun a b hab => ih.bind fun as bs habs => List.Forall₂.cons hab habs

/-- A list in another order gives its results in another order. -/
theorem mapM_perm {f : α → Except ε γ} {xs ys : List α} (h : xs.Perm ys) :
    Alike List.Perm (xs.mapM f) (ys.mapM f) := by
  have hresults : ∀ {xs ys : List α}, xs.Perm ys → ∀ as, xs.mapM f = .ok as →
      ∃ bs, ys.mapM f = .ok bs ∧ as.Perm bs := by
    intro xs ys h as has
    obtain ⟨bs, hbs, hperm⟩ := List.perm_comp_forall₂ h.symm (mapM_eq_ok_iff.1 has)
    exact ⟨bs, mapM_eq_ok_iff.2 hbs, hperm.symm⟩
  cases has : xs.mapM f with
  | ok as =>
    obtain ⟨bs, hbs, hperm⟩ := hresults h as has
    rw [hbs]
    exact hperm
  | error e =>
    cases hbs : ys.mapM f with
    | error e' => trivial
    | ok bs =>
      obtain ⟨as, has', -⟩ := hresults h.symm bs hbs
      rw [has] at has'
      cases has'

theorem trans {R : α → β → Prop} {S : β → γ → Prop} {x : Except ε α} {y : Except ε β}
    {z : Except ε γ} (hxy : Alike R x y) (hyz : Alike S y z) :
    Alike (fun a c => ∃ b, R a b ∧ S b c) x z := by
  cases x <;> cases y <;> cases z <;> simp_all [Alike]
  exact ⟨_, hxy, hyz⟩

/-- Two lists that correspond in some order give results that correspond in some order. -/
theorem mapM_of_perm {f : α → Except ε γ} {k : β → Except ε δ} {r : α → β} {xs : List α}
    {ys : List β} (hperm : ys.Perm (xs.map r)) (hstep : ∀ x ∈ xs, Alike S (f x) (k (r x))) :
    Alike (fun as bs => ∃ bs', List.Forall₂ S as bs' ∧ bs'.Perm bs) (xs.mapM f) (ys.mapM k) := by
  have hmap : List.Forall₂ (fun x y => Alike S (f x) (k y)) xs (xs.map r) := by
    rw [List.forall₂_map_right_iff, List.forall₂_same]
    exact hstep
  exact (mapM hmap).trans (mapM_perm hperm.symm)

theorem ok_iff {x y : Except ε α} (h : Alike Eq x y) (a : α) : x = .ok a ↔ y = .ok a := by
  cases x <;> cases y <;> simp_all [Alike]

end Alike

/-! ## Leaves and cases of renamed types -/

theorem mem_choices_iff_of_perm {α : Type} {r : α → α} {xss yss : List (List α)}
    (h : List.Forall₂ (fun xs ys => ys.Perm (xs.map r)) xss yss) (ys : List α) :
    ys ∈ choices yss ↔ ∃ xs ∈ choices xss, xs.map r = ys := by
  simp only [mem_choices]
  induction h generalizing ys with
  | nil => simp [eq_comm]
  | cons hhead _ ih =>
    simp only [List.forall₂_cons_right_iff, ih, hhead.mem_iff, List.mem_map]
    constructor
    · rintro ⟨_, _, ⟨x, hx, rfl⟩, ⟨xs, hxs, rfl⟩, rfl⟩
      exact ⟨x :: xs, ⟨x, xs, hx, hxs, rfl⟩, rfl⟩
    · rintro ⟨_, ⟨x, xs, hx, hxs, rfl⟩, rfl⟩
      exact ⟨r x, xs.map r, ⟨x, hx, rfl⟩, ⟨xs, hxs, rfl⟩, rfl⟩

/-- Without its positions, the list of split fields is a part of the list of all. -/
theorem Catalog.variants_split (g : Catalog) (vss : List (List Ty)) :
    ((vss.zipIdx.filter fun e => g.splits e.1).map fun e => SplitField.mk e.2 e.1).map
      (·.variants) = vss.filter g.splits := by
  rw [List.map_map]
  conv_rhs => rw [← List.zipIdx_map_fst 0 vss, List.filter_map]
  rfl

namespace Catalog.Embeds

variable {g h : Catalog} {f : DeclId → DeclId} {limit : Nat}

/-- The children of a renamed type, up to their order. -/
theorem children_perm (H : Embeds g h f fun _ => True) (t : Ty) :
    (h.children (t.rename f)).Perm ((g.children t).map (Ty.rename f)) := by
  rw [children, children, Ty.id?_rename]
  cases t.id? with
  | none => exact .nil
  | some p =>
    have hperm := (H.variantEntries_perm (p := p) trivial).map
      fun e => e.2.instantiate e.1 (t.rename f)
    simp only [Option.map_some]
    refine hperm.trans (.of_eq ?_)
    simp only [List.map_map]
    exact List.map_congr_left fun e _ => Decl.instantiate_rename f e.2 e.1 t

/-- **The leaves of a renamed type** are the renamed leaves, up to their order. -/
theorem leaves_alike (H : Embeds g h f fun _ => True) (t : Ty) :
    Alike (fun ls ls' => ls'.Perm (ls.map (Ty.rename f))) (g.leaves limit t)
      (h.leaves limit (t.rename f)) := by
  have walk : ∀ n t, Alike (fun ls ls' => ls'.Perm (ls.map (Ty.rename f)))
      (g.leavesWithin limit n t) (h.leavesWithin limit n (t.rename f)) := by
    intro n
    induction n with
    | zero =>
      intro t
      have hx := H.isExpandable_eq (t := t) fun _ _ => trivial
      simp only [leavesWithin, hx]
      split <;> simp [Alike]
    | succ n ih =>
      intro t
      have hx := H.isExpandable_eq (t := t) fun _ _ => trivial
      simp only [leavesWithin, hx]
      split
      · refine (Alike.mapM_of_perm (H.children_perm t) fun c _ => ih c).map ?_
        rintro parts parts' ⟨parts'', hparts, hperm⟩
        have hflat : parts''.flatten.Perm (parts.map (List.map (Ty.rename f))).flatten := by
          refine List.Perm.flatten_congr ?_
          rw [List.forall₂_map_right_iff]
          exact hparts.flip
        rw [List.map_flatten]
        exact hperm.symm.flatten.trans hflat
      · simp [Alike]
  exact walk limit t

theorem anyUnbound_eq (H : Embeds g h f fun _ => True) {ls ls' : List Ty}
    (hperm : ls'.Perm (ls.map (Ty.rename f))) : h.anyUnbound ls' = g.anyUnbound ls := by
  rw [anyUnbound, anyUnbound, hperm.any_eq, List.any_map]
  exact congrArg ls.any (funext fun t => H.isUnbound_eq fun _ _ => trivial)

theorem splits_iff (H : Embeds g h f fun _ => True) (vs vs' : List Ty)
    (hperm : vs'.Perm (vs.map (Ty.rename f))) : g.splits vs = true ↔ h.splits vs' = true := by
  rw [splits, splits, H.anyUnbound_eq hperm, hperm.length_eq, List.length_map]

/-- The variants that the split fields of a renamed type can take, up to their order. -/
theorem splitFields_alike (H : Embeds g h f fun _ => True) (t : Ty) :
    Alike (fun fs fs' => List.Forall₂ (fun vs vs' => vs'.Perm (vs.map (Ty.rename f)))
      (fs.map (·.variants)) (fs'.map (·.variants)))
      (g.splitFields limit t) (h.splitFields limit (t.rename f)) := by
  have hfields : Alike (fun fs fs' => fs' = fs.map (Ty.rename f))
      ((g.fieldTypes t).mapError CheckError.faulty)
      ((h.fieldTypes (t.rename f)).mapError CheckError.faulty) := by
    rw [H.fieldTypes_eq fun _ _ => trivial]
    cases g.fieldTypes t <;> simp [Alike, Except.map, Except.mapError]
  refine hfields.bind ?_
  rintro fs _ rfl
  have hleaves : List.Forall₂ (fun t t' => Alike
      (fun ls ls' => ls'.Perm (ls.map (Ty.rename f))) (g.leaves limit t) (h.leaves limit t'))
      fs (fs.map (Ty.rename f)) := by
    rw [List.forall₂_map_right_iff, List.forall₂_same]
    exact fun t _ => H.leaves_alike t
  refine (Alike.mapM hleaves).bind fun vss vss' hvss => ?_
  change List.Forall₂ _ (List.map _ _) (List.map _ _)
  rw [variants_split, variants_split]
  exact List.rel_filter H.splits_iff hvss

/-- The names of the cases of a renamed leaf. -/
theorem leafCases_alike (H : Embeds g h f fun _ => True) (leaf : Ty) :
    Alike (fun ns ns' => ∀ n, n ∈ ns ↔ n ∈ ns') (g.leafCases limit leaf)
      (h.leafCases limit (leaf.rename f)) := by
  refine (H.splitFields_alike leaf).map fun fs fs' hfs n => ?_
  simp only [List.mem_map, mem_choices_iff_of_perm hfs]
  constructor
  · rintro ⟨vs, hvs, rfl⟩
    exact ⟨_, ⟨vs, hvs, rfl⟩, H.caseName_eq (fun _ _ => trivial) fun _ _ _ _ => trivial⟩
  · rintro ⟨_, ⟨vs, hvs, rfl⟩, rfl⟩
    exact ⟨vs, hvs, (H.caseName_eq (fun _ _ => trivial) fun _ _ _ _ => trivial).symm⟩

/-- **The names that a switch has to cover stay.** -/
theorem requiredNames_alike (H : Embeds g h f fun _ => True) (t : Ty) :
    Alike Eq (g.requiredNames limit t) (h.requiredNames limit (t.rename f)) := by
  have hx := H.isExpandable_eq (t := t) fun _ _ => trivial
  simp only [requiredNames, hx]
  split
  · refine (H.leaves_alike t).bind fun ls ls' hls => ?_
    rw [H.anyUnbound_eq hls]
    split
    · rfl
    · refine (Alike.mapM_of_perm hls fun leaf _ => H.leafCases_alike leaf).bind ?_
      rintro nss nss' ⟨nss'', hnss, hperm⟩
      refine NameSet.ext_mem fun n => ?_
      rw [NameSet.mem_ofList, NameSet.mem_ofList, ← hperm.flatten.mem_iff, List.mem_flatten,
        List.mem_flatten]
      constructor
      · rintro ⟨ns, hns, hn⟩
        obtain ⟨ns', hns', hiff⟩ := exists_right_of_mem hnss hns
        exact ⟨ns', hns', (hiff n).1 hn⟩
      · rintro ⟨ns', hns', hn⟩
        obtain ⟨ns, hns, hiff⟩ := exists_left_of_mem hnss hns'
        exact ⟨ns, hns, (hiff n).2 hn⟩
  · rfl

/-- A check of a renamed switch fails when the check of the switch fails, and answers the
same otherwise. -/
theorem check_alike (H : Embeds g h f fun _ => True) (cfg : Config) (s : Switch) :
    Alike Eq (s.check g cfg) ((s.rename f).check h cfg) := by
  refine (H.requiredNames_alike s.scrutinee).map ?_
  rintro required _ rfl
  exact (H.judge_eq ⟨fun _ _ => trivial, fun _ _ _ _ => trivial⟩ cfg required).symm

end Catalog.Embeds

/-! ## Declarations in another order -/

namespace Draft

variable {g : Draft} {σ : Equiv.Perm (Fin g.size)}

/-- The position that a declaration moves to.  A position that is not filled stays. -/
def moved (g : Draft) (σ : Equiv.Perm (Fin g.size)) (id : DeclId) : DeclId :=
  if h : id.toNat < g.size then .ofNat (σ ⟨id.toNat, h⟩) else id

/-- The declarations in another order, with all positions renamed: the one that stands at
position `i` moves to position `σ i`. -/
def reordered (g : Draft) (σ : Equiv.Perm (Fin g.size)) : Draft :=
  ⟨Array.ofFn fun i : Fin g.size => g.decls[σ.symm i].rename (g.moved σ)⟩

@[simp] theorem size_reordered : (g.reordered σ).size = g.size := by
  simp [reordered, size]

theorem moved_of_le {id : DeclId} (h : g.size ≤ id.toNat) : g.moved σ id = id := by
  rw [moved, dif_neg (Nat.not_lt.2 h)]

theorem toNat_moved (hsize : g.size < UInt32.size) {id : DeclId} (h : id.toNat < g.size) :
    (g.moved σ id).toNat = σ ⟨id.toNat, h⟩ := by
  rw [moved, dif_pos h, DeclId.toNat_ofNat_of_lt (Nat.lt_trans (σ _).isLt hsize)]

theorem moved_lt (hsize : g.size < UInt32.size) {id : DeclId} (h : id.toNat < g.size) :
    (g.moved σ id).toNat < g.size := by
  rw [toNat_moved hsize h]
  exact (σ _).isLt

theorem moved_injective (hsize : g.size < UInt32.size) : Function.Injective (g.moved σ) := by
  intro i j hij
  by_cases hi : i.toNat < g.size <;> by_cases hj : j.toNat < g.size
  · have hσ : σ ⟨i.toNat, hi⟩ = σ ⟨j.toNat, hj⟩ := by
      rw [Fin.ext_iff, ← toNat_moved hsize hi, ← toNat_moved hsize hj, hij]
    exact DeclId.toNat_injective (by simpa using σ.injective hσ)
  · have hlt := moved_lt (σ := σ) hsize hi
    rw [hij, moved_of_le (Nat.le_of_not_lt hj)] at hlt
    exact absurd hlt hj
  · have hlt := moved_lt (σ := σ) hsize hj
    rw [← hij, moved_of_le (Nat.le_of_not_lt hi)] at hlt
    exact absurd hlt hi
  · rwa [moved_of_le (Nat.le_of_not_lt hi), moved_of_le (Nat.le_of_not_lt hj)] at hij

/-- Every filled position is one that a declaration moves to. -/
theorem exists_moved_eq (hsize : g.size < UInt32.size) {id : DeclId} (h : id.toNat < g.size) :
    ∃ i : DeclId, i.toNat < g.size ∧ g.moved σ i = id := by
  have hi : (DeclId.ofNat (σ.symm ⟨id.toNat, h⟩)).toNat = σ.symm ⟨id.toNat, h⟩ :=
    DeclId.toNat_ofNat_of_lt (Nat.lt_trans (σ.symm _).isLt hsize)
  have hlt : (DeclId.ofNat (σ.symm ⟨id.toNat, h⟩)).toNat < g.size := by
    rw [hi]
    exact (σ.symm _).isLt
  refine ⟨_, hlt, DeclId.toNat_injective ?_⟩
  rw [toNat_moved hsize hlt]
  simp [hi]

/-- A declaration is found, renamed, at its new position. -/
theorem decl?_reordered (hsize : g.size < UInt32.size) (id : DeclId) :
    (g.reordered σ).decl? (g.moved σ id) = (g.decl? id).map (Decl.rename (g.moved σ)) := by
  by_cases hid : id.toNat < g.size
  · rw [decl?, decl?, toNat_moved hsize hid, reordered, Array.getElem?_ofFn,
      dif_pos (σ _).isLt, Array.getElem?_eq_getElem hid]
    simp only [Fin.eta, Equiv.symm_apply_apply, Option.map_some]
    rfl
  · have hle := Nat.le_of_not_lt hid
    rw [moved_of_le hle, decl?_of_le hle, decl?_of_le (by simpa using hle)]
    rfl

/-- Another order of the declarations makes no fault. -/
theorem fault?_reordered (h : g.fault? = none) : (g.reordered σ).fault? = none := by
  rw [fault?_eq_none_iff] at h ⊢
  obtain ⟨hsize, hdecls⟩ := h
  refine ⟨by simpa using hsize, fun id' d' hd' => ?_⟩
  have hid' : id'.toNat < g.size := by simpa using lt_of_decl? hd'
  obtain ⟨id, hid, rfl⟩ := exists_moved_eq (σ := σ) hsize hid'
  obtain ⟨d, hd⟩ := decl?_of_lt hid
  obtain rfl : d.rename (g.moved σ) = d' := by simpa [decl?_reordered hsize, hd] using hd'
  obtain ⟨hmentions, hbase⟩ := hdecls id d hd
  constructor
  · intro i hi
    rw [Decl.mentions_rename] at hi
    obtain ⟨j, hj, rfl⟩ := List.mem_map.1 hi
    simpa using moved_lt hsize (hmentions j hj)
  · rw [Decl.base?_rename]
    intro heq
    obtain ⟨b, hb, hbid⟩ := Option.map_eq_some_iff.1 heq
    exact hbase (moved_injective hsize hbid ▸ hb)

end Draft

/-- The declarations of a catalog are carried over to their new positions. -/
theorem Catalog.embeds_reordered {g h : Catalog} {σ : Equiv.Perm (Fin g.size)}
    (hh : h.toDraft = g.toDraft.reordered σ) :
    g.Embeds h (g.moved σ) fun _ => True where
  injective := Draft.moved_injective g.size_lt
  filled _ _ _ := trivial
  fixed id hid := by
    refine Draft.moved_of_le (Nat.le_of_not_lt fun hlt => ?_)
    obtain ⟨d, hd⟩ := Draft.decl?_of_lt hlt
    rw [hid] at hd
    cases hd
  decl? id _ := by
    rw [hh]
    exact Draft.decl?_reordered g.size_lt id
  variant p id d _ hd _ := by
    have hid : id.toNat < g.size := by
      have hlt := Draft.lt_of_decl? hd
      rwa [hh, Draft.size_reordered] at hlt
    obtain ⟨i, hi, rfl⟩ := Draft.exists_moved_eq (σ := σ) g.size_lt hid
    obtain ⟨e, he⟩ := Draft.decl?_of_lt hi
    exact ⟨i, e, he, rfl⟩

/-- **The order of declarations is irrelevant.**  Let the declarations of a catalog be put
in another order, and let all positions be renamed accordingly, in the declarations and in
switches, while those that are not filled stay.  Then the declarations make a catalog again,
and a switch gets the answer that it got before, if it got one. -/
theorem Switch.check_reordered {defs : Draft} {g : Catalog} (hg : defs.finish = .ok g)
    (σ : Equiv.Perm (Fin defs.size)) :
    ∃ h, (defs.reordered σ).finish = .ok h ∧ ∀ (cfg : Config) (s : Switch) answer,
      s.check g cfg = .ok answer ↔ (s.rename (defs.moved σ)).check h cfg = .ok answer := by
  obtain rfl := Draft.finish_eq_ok_iff.1 hg
  let h : Catalog := ⟨g.toDraft.reordered σ, Draft.fault?_reordered g.faultless⟩
  refine ⟨h, Draft.finish_eq_ok_iff.2 rfl, fun cfg s answer => ?_⟩
  exact ((Catalog.embeds_reordered rfl).check_alike cfg s).ok_iff answer

theorem Switch.check_reordered_resultArms :
    Sample.catalog.toDraft.finish = .ok Sample.catalog ∧
    ∃ h, (Sample.catalog.toDraft.reordered Fin.revPerm).finish = .ok h ∧
      ((Switch.mk Sample.ids.resultHttpError Sample.resultArms false).rename
        (Sample.catalog.toDraft.moved Fin.revPerm)).check h {} = .ok none := by
  have hfinish : Sample.catalog.toDraft.finish = .ok Sample.catalog :=
    Draft.finish_eq_ok_iff.2 rfl
  obtain ⟨h, hh, hcheck⟩ := check_reordered hfinish Fin.revPerm
  exact ⟨hfinish, h, hh, (hcheck {} _ none).1 Sample.silent_resultArms⟩

end SwitchCoverage
