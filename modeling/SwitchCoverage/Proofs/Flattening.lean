import SwitchCoverage.Proofs.Depth

/-!
# Leaves as a flattening

The leaves of a type are found by a walk that may be cut off.  Here the walk is compared with
two descriptions in which no limit occurs.  What it lists is the flattening of the type, in
which each closed type is replaced by the flattenings of its variants, in the order of
declaration.  What cuts it off is a route: a way down through types that can all be expanded.

A route is known by the positions of the variants that it takes, and the walk tries the
variants in the order of their positions.  Among the routes that are too long it therefore
meets the one whose positions come first in lexicographic order, and names the type at its end.

## Main definitions

* `Catalog.Flattens` — the flattening of a type.
* `Catalog.Route` — a way down through expandable types.
* `Catalog.FirstRoute` — the first of all ways down of a given length.

## Main statements

* `Catalog.leavesWithin_eq_error_iff` — an expansion fails at the end of the first route that
  is too long.
* `Catalog.flattens_iff_of_leavesWithin` — what an expansion lists is the flattening.
* `Catalog.leavesWithin_ne_nil` — no type is without leaves.
* `Catalog.leaves_flatten` — **leaves are the flattening, unless a route is too long.**
-/
namespace SwitchCoverage

/-- If each entry of `xs` is related to its partner in `ys` and to nothing else, then `xs` is
related, entry by entry, to `ys` alone. -/
theorem forall₂_iff_eq {α β : Type} {R : α → β → Prop} {xs : List α} {ys zs : List β}
    (h : List.Forall₂ (fun x y => ∀ z, R x z ↔ z = y) xs ys) :
    List.Forall₂ R xs zs ↔ zs = ys := by
  induction h generalizing zs with
  | nil => exact List.forall₂_nil_left_iff
  | cons hxy _ ih => simp [List.forall₂_cons_left_iff, hxy, ih]

namespace Catalog

variable {g : Catalog} {limit n : Nat} {t u c : Ty}

/-! ## Children by position -/

theorem id?_of_instantiate {id : DeclId} (h : g.instantiate t id = .ok c) : c.id? = some id := by
  obtain ⟨d, -, rfl⟩ := map_eq_ok_iff.1 h
  rfl

theorem mem_children_of_instantiate {p id : DeclId} (hp : t.id? = some p)
    (hid : id ∈ g.variants p) (hc : g.instantiate t id = .ok c) : c ∈ g.children t := by
  obtain ⟨c', hc', hinstance⟩ :=
    exists_right_of_mem (mapM_eq_ok_iff.1 (instantiate_variants hp)) hid
  rw [hc] at hinstance
  exact Except.ok.inj hinstance ▸ hc'

/-- A child is the instance of one of the variants. -/
theorem instantiate_of_mem_children (hc : c ∈ g.children t) :
    ∃ p id, t.id? = some p ∧ id ∈ g.variants p ∧ g.instantiate t id = .ok c := by
  obtain ⟨p, -, -, hp, -, -, -⟩ := mem_children.1 hc
  obtain ⟨id, hid, hinstance⟩ :=
    exists_left_of_mem (mapM_eq_ok_iff.1 (instantiate_variants hp)) hc
  exact ⟨p, id, hp, hid, hinstance⟩

/-- The children of a type stand in the order of the positions of their declarations. -/
theorem children_ascending (g : Catalog) (t : Ty) :
    (g.children t).Pairwise fun a b => ∀ i j, a.id? = some i → b.id? = some j →
      i.toNat < j.toNat := by
  rw [children]
  split
  · refine List.pairwise_map.2 ((g.entries_ascending.filter _).imp fun hlt i j hi hj => ?_)
    cases hi
    cases hj
    exact hlt
  · exact .nil

/-- A type that can be expanded has a child, since closed declarations have a variant. -/
theorem children_ne_nil (h : g.isExpandable t = true) : g.children t ≠ [] := by
  obtain ⟨id, d, hid, hd⟩ := decl_of_isExpandable h
  simp only [isExpandable, isClosed, hid, Option.any_some, isClosedDecl, hd, Bool.and_eq_true,
    Bool.not_eq_true', List.isEmpty_eq_false_iff] at h
  simpa [children, hid, variants] using h.1.2

/-! ## Routes -/

/-- The expansion can go from `t` down to `u` by way of the variants at the positions in
`path`: all types that it comes to can be expanded, `t` and `u` included. -/
inductive Route (g : Catalog) : Ty → List DeclId → Ty → Prop
  /-- The way that ends where it starts. -/
  | here {t : Ty} (ht : g.isExpandable t = true) : Route g t [] t
  /-- A step to a variant, and a way on from there. -/
  | down {t c u : Ty} {p id : DeclId} {path : List DeclId} (ht : g.isExpandable t = true)
      (hp : t.id? = some p) (hid : id ∈ g.variants p) (hc : g.instantiate t id = .ok c)
      (rest : Route g c path u) : Route g t (id :: path) u

/-- One path comes before another in the order of declaration: at the first position at which
they differ, it takes the variant that is declared first. -/
def Earlier (path path' : List DeclId) : Prop :=
  List.Lex (fun i j => i.toNat < j.toNat) path path'

theorem Earlier.asymm {path path' : List DeclId} (h : Earlier path path')
    (h' : Earlier path' path) : False :=
  List.lex_asymm (fun hij hji => Nat.lt_asymm hij hji) h h'

/-- Of all routes that go `n` levels down from `t`, the one that comes first leads to `u`. -/
structure FirstRoute (g : Catalog) (n : Nat) (t : Ty) (path : List DeclId) (u : Ty) : Prop where
  /-- It is a route. -/
  route : g.Route t path u
  /-- It goes `n` levels down. -/
  length_eq : path.length = n
  /-- Every other route of this length comes later. -/
  first : ∀ path' u', g.Route t path' u' → path'.length = n → path' = path ∨ Earlier path path'

theorem Route.end_unique {path : List DeclId} {u' : Ty} (h : g.Route t path u)
    (h' : g.Route t path u') : u = u' := by
  induction h with
  | here =>
    cases h'
    rfl
  | down _ _ _ hc _ ih =>
    cases h' with
    | down _ _ _ hc' rest' =>
      rw [hc] at hc'
      cases hc'
      exact ih rest'

theorem FirstRoute.end_unique {path path' : List DeclId} {u' : Ty}
    (h : g.FirstRoute n t path u) (h' : g.FirstRoute n t path' u') : u = u' := by
  rcases h.first path' u' h'.route h'.length_eq with heq | hlt
  · exact h.route.end_unique (heq ▸ h'.route)
  · rcases h'.first path u h.route h.length_eq with heq | hgt
    · exact h.route.end_unique (heq ▸ h'.route)
    · exact (hlt.asymm hgt).elim

theorem Route.deep {path : List DeclId} (h : g.Route t path u) : g.Deep path.length t := by
  induction h with
  | here ht => exact ht
  | down ht hp hid hc _ ih =>
    exact ⟨_, ⟨ht, mem_children_of_instantiate hp hid hc, ih.isExpandable⟩, ih⟩

/-- The first route below a type goes through the first child that has any: the children
before it have none, and those after it come later. -/
theorem FirstRoute.of_child {path : List DeclId} {before after : List Ty}
    (h : g.FirstRoute n c path u) (hx : g.isExpandable t = true)
    (hchildren : g.children t = before ++ c :: after)
    (hbefore : ∀ b ∈ before, ∀ path' u', g.Route b path' u' → path'.length ≠ n) :
    ∃ id, g.FirstRoute (n + 1) t (id :: path) u := by
  have hmem : c ∈ g.children t := by simp [hchildren]
  obtain ⟨p, id, hp, hid, hc⟩ := instantiate_of_mem_children hmem
  refine ⟨id, .down hx hp hid hc h.route, ?_, ?_⟩
  · rw [List.length_cons, h.length_eq]
  · intro path' u' hroute hlength
    cases hroute with
    | here => simp at hlength
    | @down _ c' _ p' id' rest _ hp' hid' hc' hrest =>
      have hlength' : rest.length = n := by simpa using hlength
      have hmem' : c' ∈ before ++ c :: after :=
        hchildren ▸ mem_children_of_instantiate hp' hid' hc'
      have hascending := g.children_ascending t
      rw [hchildren, List.pairwise_append, List.pairwise_cons] at hascending
      -- Another route starts at a child before `c`, at `c` itself, or at a child after it.
      rcases List.mem_append.1 hmem' with hmem' | hmem'
      · exact absurd hlength' (hbefore c' hmem' rest u' hrest)
      · rcases List.mem_cons.1 hmem' with rfl | hmem'
        · obtain rfl : id = id' :=
            Option.some.inj ((id?_of_instantiate hc).symm.trans (id?_of_instantiate hc'))
          rcases h.first rest u' hrest hlength' with rfl | hlt
          · exact .inl rfl
          · exact .inr (.cons hlt)
        · have hlt := hascending.2.1.1 c' hmem' id id' (id?_of_instantiate hc)
            (id?_of_instantiate hc')
          exact .inr (.rel hlt)

/-! ## Where an expansion is cut off -/

/-- The walk fails at the first child that fails, and the children before it have leaves, so
no route below them is too long. -/
theorem exists_firstRoute {e : CheckError} (h : g.leavesWithin limit n t = .error e) :
    ∃ path u, g.FirstRoute n t path u ∧ e = .tooDeep (g.display u) limit := by
  induction n generalizing t with
  | zero =>
    by_cases hx : g.isExpandable t = true
    · simp only [leavesWithin, hx, if_true, Except.error.injEq] at h
      refine ⟨[], t, ⟨.here hx, rfl, fun path' u' _ hlength => .inl ?_⟩, h.symm⟩
      exact List.length_eq_zero_iff.1 hlength
    · simp [leavesWithin, hx] at h
  | succ n ih =>
    by_cases hx : g.isExpandable t = true
    · simp only [leavesWithin, hx, if_true, map_eq_error_iff] at h
      obtain ⟨before, c, after, hchildren, hbefore, hfail⟩ := exists_first_of_mapM_eq_error h
      obtain ⟨path, u, hfirst, he⟩ := ih hfail
      have hshort : ∀ b ∈ before, ∀ path' u', g.Route b path' u' → path'.length ≠ n := by
        intro b hb path' u' hroute hlength
        obtain ⟨ls, hls⟩ := hbefore b hb
        obtain ⟨e', he'⟩ := leavesWithin_fails_iff.2 (hlength ▸ hroute.deep)
        rw [hls] at he'
        cases he'
      obtain ⟨id, hfirst'⟩ := hfirst.of_child hx hchildren hshort
      exact ⟨id :: path, u, hfirst', he⟩
    · simp [leavesWithin, hx] at h

/-- **Where an expansion is cut off**: at the end of the first route that is too long. -/
theorem leavesWithin_eq_error_iff {e : CheckError} : g.leavesWithin limit n t = .error e ↔
    ∃ path u, g.FirstRoute n t path u ∧ e = .tooDeep (g.display u) limit := by
  constructor
  · exact exists_firstRoute
  · rintro ⟨path, u, hfirst, rfl⟩
    obtain ⟨e, he⟩ := leavesWithin_fails_iff.2 (hfirst.length_eq ▸ hfirst.route.deep)
    obtain ⟨path', u', hfirst', rfl⟩ := exists_firstRoute he
    rw [he, hfirst.end_unique hfirst']

/-! ## Flattenings -/

/-- `ls` is the flattening of `t`. -/
inductive Flattens (g : Catalog) : Ty → List Ty → Prop
  /-- A type that cannot be expanded is its own flattening. -/
  | leaf {t : Ty} (ht : g.isExpandable t = false) : Flattens g t [t]
  /-- The flattening of another type consists of those of its instantiated variants, one after
  the other in the order of declaration. -/
  | node {t : Ty} {p : DeclId} {cs : List Ty} {parts : List (List Ty)}
      (ht : g.isExpandable t = true) (hp : t.id? = some p)
      (hcs : (g.variants p).mapM (g.instantiate t) = .ok cs)
      (hparts : List.Forall₂ (Flattens g) cs parts) : Flattens g t parts.flatten

/-- **What an expansion lists is the flattening**, and there is no other one. -/
theorem flattens_iff_of_leavesWithin {ls : List Ty} (h : g.leavesWithin limit n t = .ok ls)
    (ls' : List Ty) : g.Flattens t ls' ↔ ls' = ls := by
  refine leavesWithin_induction (motive := fun _ t ls => ∀ ls', g.Flattens t ls' ↔ ls' = ls)
    ?_ ?_ h ls'
  · intro _ t hx ls'
    constructor
    · intro hflat
      cases hflat with
      | leaf => rfl
      | node ht => simp [hx] at ht
    · rintro rfl
      exact .leaf hx
  · intro n t parts hx hparts ls'
    have hunique : ∀ parts', List.Forall₂ g.Flattens (g.children t) parts' ↔ parts' = parts :=
      fun _ => forall₂_iff_eq (hparts.imp fun _ _ hc => hc.2)
    constructor
    · intro hflat
      cases hflat with
      | leaf ht => simp [hx] at ht
      | node _ hp hcs hparts' =>
        rw [instantiate_variants hp] at hcs
        cases hcs
        rw [(hunique _).1 hparts']
    · rintro rfl
      obtain ⟨p, -, hp, -⟩ := decl_of_isExpandable hx
      exact .node hx hp (instantiate_variants hp) ((hunique parts).2 rfl)

/-- No type is without leaves: where an expansion goes on, it has a child to go to. -/
theorem leavesWithin_ne_nil {ls : List Ty} (h : g.leavesWithin limit n t = .ok ls) :
    ls ≠ [] := by
  refine leavesWithin_induction (motive := fun _ _ ls => ls ≠ []) ?_ ?_ h
  · intro _ t _
    simp
  · intro n t parts hx hparts
    obtain ⟨c, hc⟩ := List.exists_mem_of_ne_nil _ (children_ne_nil hx)
    obtain ⟨l, hl, -, hne⟩ := exists_right_of_mem hparts hc
    exact fun hempty => hne (List.flatten_eq_nil_iff.1 hempty l hl)

/-- **Leaves are the flattening, unless a route is too long.**  The expansion of a type under a
limit is cut off just when a route leads that many levels down, and it then names the type at
the end of the first such route, and the limit.  Otherwise it lists the flattening of the type,
which is one list.  No such list is empty, and what is on it cannot be expanded, so that it is
its own only leaf under every limit. -/
theorem leaves_flatten (g : Catalog) (m : Nat) (t : Ty) :
    (CutOff (g.leaves m t) ↔ ∃ path u, g.Route t path u ∧ path.length = m) ∧
    (∀ e, g.leaves m t = .error e ↔
      ∃ path u, g.FirstRoute m t path u ∧ e = .tooDeep (g.display u) m) ∧
    ((¬ ∃ path u, g.Route t path u ∧ path.length = m) →
      ∃ ls, g.leaves m t = .ok ls ∧ ∀ ls', g.Flattens t ls' ↔ ls' = ls) ∧
    ∀ ls, g.leaves m t = .ok ls →
      ls ≠ [] ∧ ∀ v ∈ ls, g.isExpandable v = false ∧ ∀ k, g.leaves k v = .ok [v] := by
  have hfails : (∃ path u, g.Route t path u ∧ path.length = m) ↔
      ∃ e, g.leaves m t = .error e := by
    constructor
    · rintro ⟨path, u, hroute, rfl⟩
      exact leavesWithin_fails_iff.2 hroute.deep
    · rintro ⟨e, he⟩
      obtain ⟨path, u, hfirst, -⟩ := exists_firstRoute he
      exact ⟨path, u, hfirst.route, hfirst.length_eq⟩
  refine ⟨?_, fun e => leavesWithin_eq_error_iff, ?_, ?_⟩
  · rw [hfails]
    constructor
    · rintro ⟨type, limit, h⟩
      exact ⟨_, h⟩
    · rintro ⟨e, he⟩
      obtain ⟨p, -, rfl⟩ := leaves_eq_error he
      exact ⟨_, _, he⟩
  · intro hnone
    rw [hfails] at hnone
    cases hls : g.leaves m t with
    | error e => exact absurd ⟨e, hls⟩ hnone
    | ok ls => exact ⟨ls, rfl, flattens_iff_of_leavesWithin hls⟩
  · intro ls hls
    refine ⟨leavesWithin_ne_nil hls, fun v hv => ?_⟩
    have hleaf := (leaves_induction (motive := fun _ => True) (fun _ _ _ _ _ => trivial)
      hls trivial v hv).2
    exact ⟨hleaf, fun k => leavesWithin_of_not_isExpandable hleaf k⟩

end Catalog

namespace Sample

/-- Expressions of a type.  A literal is one, and so are calls and loops, which are closed in
turn: a call sends something or binds it, with two parameters of its own. -/
def exprs : Catalog where
  decls := #[
    { name := "Int" },
    { name := "Expr", typeParams := ["T"] },
    { name := "Literal", container := some ⟨1⟩, supertype := some (.applied ⟨1⟩ [.param "T"]) },
    { name := "Call", typeParams := ["T"], container := some ⟨1⟩
      supertype := some (.applied ⟨1⟩ [.param "T"]) },
    { name := "Loop", typeParams := ["T"], container := some ⟨1⟩
      supertype := some (.applied ⟨1⟩ [.param "T"]) },
    { name := "Send", typeParams := ["T"], container := some ⟨3⟩
      supertype := some (.applied ⟨3⟩ [.param "T"]) },
    { name := "Bind", typeParams := ["S", "T"], container := some ⟨3⟩
      supertype := some (.applied ⟨3⟩ [.param "T"]) },
    { name := "While", container := some ⟨4⟩, supertype := some (.applied ⟨4⟩ [.param "T"]) }]
  faultless := by decide

/-- An expression that is a number. -/
def intExpr : Ty := .applied ⟨1⟩ [.plain ⟨0⟩]

/-- A call that is a number. -/
def intCall : Ty := (Ty.applied ⟨3⟩ [.plain ⟨0⟩]).within intExpr

end Sample

theorem Catalog.leaves_flatten_exprs :
    (Sample.exprs.Route Sample.intExpr [⟨3⟩] Sample.intCall ∧
      CutOff (Sample.exprs.leaves 1 Sample.intExpr)) ∧
    (Sample.exprs.leaves 1 Sample.intExpr = .error (.tooDeep "Call<Int>" 1) ∧
      ∃ path u, Sample.exprs.FirstRoute 1 Sample.intExpr path u ∧
        CheckError.tooDeep "Call<Int>" 1 = .tooDeep (Sample.exprs.display u) 1) ∧
    (¬ ∃ path u, Sample.exprs.Route Sample.intExpr path u ∧ path.length = 2) ∧
    ∃ ls, Sample.exprs.leaves 2 Sample.intExpr = .ok ls ∧
      (∀ ls', Sample.exprs.Flattens Sample.intExpr ls' ↔ ls' = ls) ∧
      ls ≠ [] ∧ ∀ v ∈ ls, Sample.exprs.isExpandable v = false ∧
        ∀ k, Sample.exprs.leaves k v = .ok [v] := by
  have hroute : Sample.exprs.Route Sample.intExpr [⟨3⟩] Sample.intCall :=
    .down rfl rfl (by decide) rfl (.here rfl)
  have herror : Sample.exprs.leaves 1 Sample.intExpr = .error (.tooDeep "Call<Int>" 1) := by rfl
  have hshort : ¬ ∃ path u, Sample.exprs.Route Sample.intExpr path u ∧ path.length = 2 := by
    rw [← (leaves_flatten Sample.exprs 2 Sample.intExpr).1]
    rintro ⟨type, limit, h⟩
    cases h
  obtain ⟨hcut, hfirst, -, -⟩ := leaves_flatten Sample.exprs 1 Sample.intExpr
  obtain ⟨-, -, hlist, hleaves⟩ := leaves_flatten Sample.exprs 2 Sample.intExpr
  obtain ⟨ls, hls, hflat⟩ := hlist hshort
  exact ⟨⟨hroute, hcut.2 ⟨_, _, hroute, rfl⟩⟩, ⟨herror, (hfirst _).1 herror⟩, hshort, ls, hls,
    hflat, hleaves ls hls⟩

end SwitchCoverage
