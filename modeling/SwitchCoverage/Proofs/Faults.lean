import SwitchCoverage.Proofs.Hierarchy
import SwitchCoverage.Sample

/-!
# The first fault of a draft

A draft is checked declaration by declaration, and each declaration part by part: the
declaration it is nested in, the parameters of its constructors, its supertype, and last
whether it derives from itself.  Types are read from the outside to the inside and from left to
right.  The check stops at the first fault, so which fault it names depends on that order.

Here the order is made explicit.  Whatever is mentioned stands at a site, which is the list of
the positions that lead to it from the outside, and sites are compared lexicographically, a
site before those inside of it.  Then the first fault is the one at the least site, and this
does not say how to find it.

## Main definitions

* `InOrder` — a list of what stands at some sites, in the order of the sites.
* `Ty.MentionsAt`, `Decl.MentionsAt` — the sites at which a declaration is mentioned.
* `Decl.FaultAt`, `Draft.FaultAt` — the sites at which something is wrong.
* `Draft.FirstFault` — the fault at the least site.

## Main statements

* `InOrder.head?_eq_some_iff` — a list in order starts with what stands at the least site.
* `Ty.mentions_inOrder`, `Decl.mentions_inOrder`, `Draft.faults_inOrder` — what is read is in order.
* `Draft.finish_firstFault` — **a draft is accepted or refused for its first fault.**
-/
namespace SwitchCoverage

/-! ## Sites -/

section InOrder

variable {α β : Type}

/-- `xs` lists what stands at the sites that `At` describes, site by site in ascending order. -/
def InOrder (At : List Nat → α → Prop) (xs : List α) : Prop :=
  ∃ sites : List (List Nat × α), sites.map (·.2) = xs ∧
    sites.Pairwise (fun x y => x.1 < y.1) ∧ ∀ path a, (path, a) ∈ sites ↔ At path a

namespace InOrder

variable {At At' : List Nat → α → Prop} {xs ys : List α}

theorem congr (h : InOrder At xs) (hAt : ∀ path a, At path a ↔ At' path a) : InOrder At' xs := by
  obtain ⟨sites, hxs, hlt, hmem⟩ := h
  exact ⟨sites, hxs, hlt, fun path a => (hmem path a).trans (hAt path a)⟩

theorem nil : InOrder (fun _ (_ : α) => False) [] := ⟨[], rfl, .nil, by simp⟩

/-- What stands at the outermost site. -/
theorem outermost (a : α) : InOrder (fun path b => path = [] ∧ b = a) [a] :=
  ⟨[([], a)], rfl, List.pairwise_singleton .., by simp⟩

theorem append (hxs : InOrder At xs) (hys : InOrder At' ys)
    (hlt : ∀ path a path' b, At path a → At' path' b → path < path') :
    InOrder (fun path a => At path a ∨ At' path a) (xs ++ ys) := by
  obtain ⟨sites, rfl, hsites, hmem⟩ := hxs
  obtain ⟨sites', rfl, hsites', hmem'⟩ := hys
  refine ⟨sites ++ sites', by simp, List.pairwise_append.2 ⟨hsites, hsites', ?_⟩, ?_⟩
  · intro x hx y hy
    exact hlt x.1 x.2 y.1 y.2 ((hmem x.1 x.2).1 hx) ((hmem' y.1 y.2).1 hy)
  · intro path a
    rw [List.mem_append, hmem, hmem']

/-- The same list one level further inside, at position `k`. -/
theorem inside (k : Nat) (h : InOrder At xs) :
    InOrder (fun path a => ∃ rest, path = k :: rest ∧ At rest a) xs := by
  obtain ⟨sites, rfl, hsites, hmem⟩ := h
  refine ⟨sites.map fun x => (k :: x.1, x.2), by simp, List.pairwise_map.2 ?_, ?_⟩
  · exact hsites.imp fun hlt => List.cons_lt_cons_self.2 hlt
  · intro path a
    simp only [List.mem_map, Prod.exists, Prod.mk.injEq, hmem]
    constructor
    · rintro ⟨rest, b, hb, rfl, rfl⟩
      exact ⟨rest, rfl, hb⟩
    · rintro ⟨rest, rfl, ha⟩
      exact ⟨rest, a, ha, rfl, rfl⟩

theorem filter (keep : α → Bool) (h : InOrder At xs) :
    InOrder (fun path a => At path a ∧ keep a = true) (xs.filter keep) := by
  obtain ⟨sites, rfl, hsites, hmem⟩ := h
  refine ⟨sites.filter fun x => keep x.2, by simp [List.filter_map, Function.comp_def],
    hsites.filter _, ?_⟩
  intro path a
  rw [List.mem_filter, hmem]

theorem map (f : α → β) (h : InOrder At xs) :
    InOrder (fun path b => ∃ a, At path a ∧ f a = b) (xs.map f) := by
  obtain ⟨sites, rfl, hsites, hmem⟩ := h
  refine ⟨sites.map fun x => (x.1, f x.2), by simp, List.pairwise_map.2 hsites, ?_⟩
  intro path b
  simp only [List.mem_map, Prod.exists, Prod.mk.injEq, hmem]
  constructor
  · rintro ⟨rest, a, ha, rfl, rfl⟩
    exact ⟨a, ha, rfl⟩
  · rintro ⟨a, ha, rfl⟩
    exact ⟨path, a, ha, rfl, rfl⟩

/-- Entry by entry, where the entries stand at the positions from `n` on. -/
theorem flatMapFrom {f : β → List α} {At : β → List Nat → α → Prop} (zs : List β) (n : Nat)
    (h : ∀ z ∈ zs, InOrder (At z) (f z)) :
    InOrder (fun path a => ∃ k z rest, path = (n + k) :: rest ∧ zs[k]? = some z ∧ At z rest a)
      (zs.flatMap f) := by
  induction zs generalizing n with
  | nil => exact nil.congr (by simp)
  | cons z zs ih =>
    have hhead : InOrder (fun path a => ∃ rest, path = n :: rest ∧ At z rest a) (f z) :=
      (h z (.head _)).inside n
    have htail := ih (n + 1) fun y hy => h y (.tail _ hy)
    refine (hhead.append htail ?_).congr fun path a => ?_
    · rintro _ a _ b ⟨rest, rfl, -⟩ ⟨k, y, rest', rfl, -, -⟩
      exact List.cons_lt_cons_iff.2 (.inl (by omega))
    · constructor
      · rintro (⟨rest, rfl, ha⟩ | ⟨k, y, rest, rfl, hy, ha⟩)
        · exact ⟨0, z, rest, rfl, rfl, ha⟩
        · exact ⟨k + 1, y, rest, by rw [Nat.add_assoc, Nat.add_comm 1], hy, ha⟩
      · rintro ⟨k, y, rest, rfl, hy, ha⟩
        cases k with
        | zero =>
          obtain rfl : z = y := by simpa using hy
          exact .inl ⟨rest, rfl, ha⟩
        | succ k =>
          exact .inr ⟨k, y, rest, by rw [Nat.add_assoc, Nat.add_comm 1], by simpa using hy, ha⟩

/-- Entry by entry, where each entry stands at its position in the list. -/
theorem flatMap {f : β → List α} {At : β → List Nat → α → Prop} {zs : List β}
    (h : ∀ z ∈ zs, InOrder (At z) (f z)) :
    InOrder (fun path a => ∃ k z rest, path = k :: rest ∧ zs[k]? = some z ∧ At z rest a)
      (zs.flatMap f) := by
  simpa using flatMapFrom zs 0 h

/-- What stands in something that may be absent. -/
theorem option {f : β → List α} {At : β → List Nat → α → Prop} (o : Option β)
    (h : ∀ b ∈ o, InOrder (At b) (f b)) :
    InOrder (fun path a => ∃ b, o = some b ∧ At b path a) (o.toList.flatMap f) := by
  cases o with
  | none => exact nil.congr (by simp)
  | some b => simpa using h b rfl

theorem eq_nil_iff (h : InOrder At xs) : xs = [] ↔ ∀ path a, ¬ At path a := by
  obtain ⟨sites, rfl, -, hmem⟩ := h
  rw [List.map_eq_nil_iff, List.eq_nil_iff_forall_not_mem]
  simp only [Prod.forall, hmem]

/-- **A list in order starts with what stands at the least site.** -/
theorem head?_eq_some_iff (h : InOrder At xs) {a : α} : xs.head? = some a ↔
    ∃ path, At path a ∧ ∀ path' b, At path' b → path' = path ∨ path < path' := by
  obtain ⟨sites, rfl, hsites, hmem⟩ := h
  simp only [← hmem]
  cases sites with
  | nil => simp
  | cons first rest =>
    obtain ⟨hfirst, -⟩ := List.pairwise_cons.1 hsites
    have hleast : ∀ path b, (path, b) ∈ first :: rest → (path, b) = first ∨ first.1 < path := by
      intro path b hb
      rcases List.mem_cons.1 hb with hb | hb
      · exact .inl hb
      · exact .inr (hfirst _ hb)
    simp only [List.map_cons, List.head?_cons, Option.some.injEq]
    constructor
    · rintro rfl
      refine ⟨first.1, .head _, fun path b hb => ?_⟩
      exact (hleast path b hb).imp (fun heq => congrArg Prod.fst heq) id
    · rintro ⟨path, ha, hpath⟩
      rcases hleast path a ha with heq | hlt
      · rw [← heq]
      · -- The first entry would have to come after `path`, and it comes before.
        rcases hpath first.1 first.2 (.head _) with heq | hgt
        · exact absurd (heq ▸ hlt) (List.lt_irrefl _)
        · exact absurd (List.lt_trans hlt hgt) (List.lt_irrefl _)

end InOrder

end InOrder

/-! ## Mentioned declarations -/

/-- The type mentions a declaration at a site. -/
inductive Ty.MentionsAt : Ty → List Nat → DeclId → Prop
  /-- Outermost stands the declaration of a declared type itself. -/
  | own {id : DeclId} {args : List Ty} {container : Option Ty} :
    MentionsAt (.named id args container) [] id
  /-- Inside stand its arguments, each at its position. -/
  | arg {id i : DeclId} {args : List Ty} {container : Option Ty} {k : Nat} {a : Ty}
      {path : List Nat} (ha : args[k]? = some a) (h : MentionsAt a path i) :
    MentionsAt (.named id args container) (k :: path) i
  /-- After them stands the type that it is declared in. -/
  | container {id i : DeclId} {args : List Ty} {outer : Ty} {path : List Nat}
      (h : MentionsAt outer path i) :
    MentionsAt (.named id args (some outer)) (args.length :: path) i
  /-- Inside an array stands its element. -/
  | element {i : DeclId} {element : Ty} {path : List Nat} (h : MentionsAt element path i) :
    MentionsAt (.array element) (0 :: path) i

/-- The declaration mentions a declaration at a site. -/
inductive Decl.MentionsAt (d : Decl) : List Nat → DeclId → Prop
  /-- First stands the declaration that it is nested in. -/
  | container {i : DeclId} (h : d.container = some i) : MentionsAt d [0] i
  /-- Then stand the parameters of its constructors, constructor by constructor. -/
  | param {i : DeclId} {j k : Nat} {c : Constructor} {t : Ty} {path : List Nat}
      (hc : d.constructors[j]? = some c) (ht : c.params[k]? = some t)
      (h : t.MentionsAt path i) : MentionsAt d (1 :: j :: k :: path) i
  /-- Then stands its supertype. -/
  | supertype {i : DeclId} {t : Ty} {path : List Nat} (ht : d.supertype = some t)
      (h : t.MentionsAt path i) : MentionsAt d (2 :: path) i

/-- A type is read from the outside to the inside and from left to right. -/
theorem Ty.mentions_inOrder (t : Ty) : InOrder t.MentionsAt t.mentions := by
  induction t using Ty.inductionOn with
  | named id args container hargs hcontainer =>
    have hparts := (InOrder.flatMap hargs).append
      ((InOrder.option container hcontainer).inside args.length) (by
        rintro _ i _ j ⟨k, a, rest, rfl, ha, -⟩ ⟨rest', rfl, -⟩
        have hk : k < args.length := (List.getElem?_eq_some_iff.1 ha).1
        exact List.cons_lt_cons_iff.2 (.inl hk))
    rw [mentions_named]
    refine ((InOrder.outermost id).append hparts ?_).congr fun path i => ?_
    · rintro _ i _ j ⟨rfl, -⟩ (⟨k, a, rest, rfl, -⟩ | ⟨rest, rfl, -⟩)
      · exact List.nil_lt_cons ..
      · exact List.nil_lt_cons ..
    · constructor
      · rintro (⟨rfl, rfl⟩ | ⟨k, a, rest, rfl, ha, h⟩ | ⟨rest, rfl, outer, rfl, h⟩)
        · exact .own
        · exact .arg ha h
        · exact .container h
      · intro h
        cases h with
        | own => exact .inl ⟨rfl, rfl⟩
        | arg ha h => exact .inr (.inl ⟨_, _, _, rfl, ha, h⟩)
        | container h => exact .inr (.inr ⟨_, rfl, _, rfl, h⟩)
  | param name => exact InOrder.nil.congr fun path i => ⟨False.elim, nofun⟩
  | array element ih =>
    refine (ih.inside 0).congr fun path i => ?_
    constructor
    · rintro ⟨rest, rfl, h⟩
      exact .element h
    · intro h
      cases h with
      | element h => exact ⟨_, rfl, h⟩
  | unresolved => exact InOrder.nil.congr fun path i => ⟨False.elim, nofun⟩

/-- Constructors are read one after the other, and the parameters of each from left to right. -/
theorem Constructor.mentions_inOrder (cs : List Constructor) :
    InOrder (fun path i => ∃ j c k t rest, path = j :: k :: rest ∧ cs[j]? = some c ∧
      c.params[k]? = some t ∧ t.MentionsAt rest i)
      (cs.flatMap fun c => Ty.mentionsAll c.params) := by
  have hparams : ∀ c ∈ cs, InOrder (fun path i => ∃ k t rest, path = k :: rest ∧
      c.params[k]? = some t ∧ t.MentionsAt rest i) (Ty.mentionsAll c.params) := by
    intro c _
    rw [Ty.mentionsAll_eq_flatMap]
    exact InOrder.flatMap fun t _ => t.mentions_inOrder
  refine (InOrder.flatMap hparams).congr fun path i => ?_
  constructor
  · rintro ⟨j, c, _, rfl, hc, k, t, rest, rfl, ht, h⟩
    exact ⟨j, c, k, t, rest, rfl, hc, ht, h⟩
  · rintro ⟨j, c, k, t, rest, rfl, hc, ht, h⟩
    exact ⟨j, c, _, rfl, hc, k, t, rest, rfl, ht, h⟩

/-- A declaration is read part by part. -/
theorem Decl.mentions_inOrder (d : Decl) : InOrder d.MentionsAt d.mentions := by
  have hcontainer := (InOrder.option d.container fun p _ => InOrder.outermost p).inside 0
  have hparams := (Constructor.mentions_inOrder d.constructors).inside 1
  have hsupertype := (InOrder.option d.supertype fun t _ => t.mentions_inOrder).inside 2
  rw [mentions, Ty.mentionsAll_eq_flatMap, ← List.flatMap_singleton' d.container.toList]
  refine ((hcontainer.append hparams ?_).append hsupertype ?_).congr fun path i => ?_
  · rintro _ i _ i' ⟨rest, rfl, -⟩ ⟨rest', rfl, -⟩
    exact List.cons_lt_cons_iff.2 (.inl (by omega))
  · rintro _ i _ i' (⟨rest, rfl, -⟩ | ⟨rest, rfl, -⟩) ⟨rest', rfl, -⟩
    · exact List.cons_lt_cons_iff.2 (.inl (by omega))
    · exact List.cons_lt_cons_iff.2 (.inl (by omega))
  · constructor
    · rintro ((⟨_, rfl, p, hp, rfl, rfl⟩ | ⟨_, rfl, j, c, k, t, rest, rfl, hc, ht, h⟩) |
        ⟨rest, rfl, t, ht, h⟩)
      · exact .container hp
      · exact .param hc ht h
      · exact .supertype ht h
    · intro h
      cases h with
      | container hp => exact .inl (.inl ⟨_, rfl, _, hp, rfl, rfl⟩)
      | param hc ht h => exact .inl (.inr ⟨_, rfl, _, _, _, _, _, rfl, hc, ht, h⟩)
      | supertype ht h => exact .inr ⟨_, rfl, _, ht, h⟩

/-! ## Faults -/

/-- Something is wrong at a site of a declaration, which stands at `self` among `bound`
declarations. -/
inductive Decl.FaultAt (bound : Nat) (self : DeclId) (d : Decl) : List Nat → Fault → Prop
  /-- A declaration is mentioned that is not there. -/
  | unknown {i : DeclId} {path : List Nat} (h : d.MentionsAt path i) (hi : bound ≤ i.toNat) :
    FaultAt bound self d path (.unknownDecl i)
  /-- The declaration derives from itself, which is seen after all that it mentions. -/
  | selfDerived {args : List Ty} {container : Option Ty}
      (h : d.supertype = some (.named self args container)) :
    FaultAt bound self d [3] (.selfDerived d.name)

/-- Something is wrong at a site of a draft.  Each declaration stands at its position. -/
def Draft.FaultAt (g : Draft) (path : List Nat) (fault : Fault) : Prop :=
  ∃ id d rest, path = id.toNat :: rest ∧ g.decl? id = some d ∧ d.FaultAt g.size id rest fault

/-- The fault stands at the least site of all at which something is wrong. -/
def Draft.FirstFault (g : Draft) (fault : Fault) : Prop :=
  ∃ path, g.FaultAt path fault ∧
    ∀ path' fault', g.FaultAt path' fault' → path' = path ∨ path < path'

/-- All that is wrong with a declaration. -/
def Decl.faults (bound : Nat) (self : DeclId) (d : Decl) : List Fault :=
  (d.mentions.filter fun i => bound ≤ i.toNat).map .unknownDecl ++
    if d.base? = some self then [.selfDerived d.name] else []

/-- All that is wrong with a draft. -/
def Draft.faults (g : Draft) : List Fault := g.entries.flatMap fun e => e.2.faults g.size e.1

theorem Decl.fault?_eq_head? (bound : Nat) (self : DeclId) (d : Decl) :
    d.fault? bound self = (d.faults bound self).head? := by
  rw [fault?, faults, List.head?_append, List.head?_map, List.head?_filter]
  cases d.mentions.find? fun i => bound ≤ i.toNat with
  | some i => rfl
  | none =>
    by_cases hself : d.base? = some self <;> simp [hself]

theorem Draft.fault?_eq_head? {g : Draft} (hsize : g.size < UInt32.size) :
    g.fault? = g.faults.head? := by
  rw [fault?, if_pos hsize, faults, List.head?_flatMap]
  simp only [Decl.fault?_eq_head?]

theorem Decl.base?_eq_some_iff {d : Decl} {i : DeclId} :
    d.base? = some i ↔ ∃ args container, d.supertype = some (.named i args container) := by
  rw [base?, Option.bind_eq_some_iff]
  constructor
  · rintro ⟨t, ht, hid⟩
    cases t with
    | named id args container =>
      obtain rfl : id = i := by simpa using hid
      exact ⟨args, container, ht⟩
    | param name => cases hid
    | array element => cases hid
    | unresolved => cases hid
  · rintro ⟨args, container, ht⟩
    exact ⟨_, ht, rfl⟩

/-- What is mentioned comes before the derivation. -/
theorem Decl.MentionsAt.lt_derivation {d : Decl} {path : List Nat} {i : DeclId}
    (h : d.MentionsAt path i) : path < [3] := by
  cases h <;> exact List.cons_lt_cons_iff.2 (.inl (by omega))

theorem Decl.faults_inOrder (bound : Nat) (self : DeclId) (d : Decl) :
    InOrder (d.FaultAt bound self) (d.faults bound self) := by
  have hunknown := (d.mentions_inOrder.filter fun i => bound ≤ i.toNat).map Fault.unknownDecl
  have hself : InOrder (fun path fault => d.base? = some self ∧ path = [3] ∧
      fault = Fault.selfDerived d.name)
      (if d.base? = some self then [Fault.selfDerived d.name] else []) := by
    by_cases hbase : d.base? = some self
    · refine (if_pos hbase).symm ▸ ((InOrder.outermost _).inside 3).congr fun path fault => ?_
      simp [hbase]
    · exact (if_neg hbase).symm ▸ InOrder.nil.congr (by simp [hbase])
  refine (hunknown.append hself ?_).congr fun path fault => ?_
  · rintro path _ _ _ ⟨i, ⟨h, -⟩, rfl⟩ ⟨-, rfl, rfl⟩
    exact h.lt_derivation
  · constructor
    · rintro (⟨i, ⟨h, hi⟩, rfl⟩ | ⟨hbase, rfl, rfl⟩)
      · exact .unknown h (by simpa using hi)
      · obtain ⟨args, container, ht⟩ := base?_eq_some_iff.1 hbase
        exact .selfDerived ht
    · intro h
      cases h with
      | unknown h hi => exact .inl ⟨_, ⟨h, by simpa using hi⟩, rfl⟩
      | selfDerived ht => exact .inr ⟨base?_eq_some_iff.2 ⟨_, _, ht⟩, rfl, rfl⟩

namespace Draft

variable {g : Draft}

theorem getElem?_entries (hsize : g.size < UInt32.size) {k : Nat} {id : DeclId} {d : Decl} :
    g.entries[k]? = some (id, d) ↔ k = id.toNat ∧ g.decl? id = some d := by
  have hget : g.entries[k]? = g.decls[k]?.map fun e => (DeclId.ofNat k, e) := by
    simp [entries, List.getElem?_zipIdx, Function.comp_def]
  rw [hget, Option.map_eq_some_iff]
  constructor
  · rintro ⟨e, he, heq⟩
    cases heq
    have hk : k < g.size := (Array.getElem?_eq_some_iff.1 he).1
    have hid : (DeclId.ofNat k).toNat = k := DeclId.toNat_ofNat_of_lt (Nat.lt_trans hk hsize)
    exact ⟨hid.symm, by rw [decl?, hid, he]⟩
  · rintro ⟨rfl, hd⟩
    exact ⟨d, hd, by simp⟩

/-- A draft is read declaration by declaration. -/
theorem faults_inOrder (hsize : g.size < UInt32.size) : InOrder g.FaultAt g.faults := by
  have hentries : ∀ e ∈ g.entries, InOrder (e.2.FaultAt g.size e.1) (e.2.faults g.size e.1) :=
    fun e _ => e.2.faults_inOrder g.size e.1
  refine (InOrder.flatMap hentries).congr fun path fault => ?_
  constructor
  · rintro ⟨k, ⟨id, d⟩, rest, rfl, hentry, h⟩
    obtain ⟨rfl, hd⟩ := (getElem?_entries hsize).1 hentry
    exact ⟨id, d, rest, rfl, hd, h⟩
  · rintro ⟨id, d, rest, rfl, hd, h⟩
    exact ⟨id.toNat, (id, d), rest, rfl, (getElem?_entries hsize).2 ⟨rfl, hd⟩, h⟩

theorem finish_eq_error_iff {fault : Fault} : g.finish = .error fault ↔ g.fault? = some fault := by
  rw [finish]
  split
  next hnone => simp [hnone]
  next other hother => simp [hother]

theorem exists_finish_iff : (∃ c : Catalog, g.finish = .ok c ∧ c.toDraft = g) ↔
    g.fault? = none := by
  constructor
  · rintro ⟨c, -, rfl⟩
    exact c.faultless
  · intro hnone
    exact ⟨⟨g, hnone⟩, finish_eq_ok_iff.2 rfl, rfl⟩

/-- **A draft is accepted or refused for its first fault.**  If its positions can be numbered, it
makes a catalog just when every declaration that is mentioned anywhere in it is there, and none
has a type of its own as its supertype; that catalog has the same declarations.  Otherwise it is
refused for what is wrong at the least site. -/
theorem finish_firstFault (g : Draft) (hsize : g.size < UInt32.size) :
    ((∃ c : Catalog, g.finish = .ok c ∧ c.toDraft = g) ↔ ∀ id d, g.decl? id = some d →
      (∀ path i, d.MentionsAt path i → i.toNat < g.size) ∧
      ∀ args container, d.supertype ≠ some (.named id args container)) ∧
    ∀ fault, g.finish = .error fault ↔ g.FirstFault fault := by
  have horder : InOrder g.FaultAt g.faults := faults_inOrder hsize
  constructor
  · rw [exists_finish_iff, fault?_eq_head? hsize, List.head?_eq_none_iff, horder.eq_nil_iff]
    constructor
    · intro hnone id d hd
      constructor
      · intro path i hi
        by_contra hle
        exact hnone _ _ ⟨id, d, path, rfl, hd, .unknown hi (by omega)⟩
      · intro args container ht
        exact hnone _ _ ⟨id, d, [3], rfl, hd, .selfDerived ht⟩
    · rintro hgood _ _ ⟨id, d, rest, rfl, hd, hfault⟩
      obtain ⟨hmentions, hself⟩ := hgood id d hd
      cases hfault with
      | unknown h hi => exact absurd (hmentions _ _ h) (by omega)
      | selfDerived ht => exact hself _ _ ht
  · intro fault
    rw [finish_eq_error_iff, fault?_eq_head? hsize, horder.head?_eq_some_iff]
    rfl

end Draft

namespace Sample

/-- A link derives from itself, but before that is seen, its constructor mentions something that
is not there; and so does the declaration after it. -/
def brokenLinks : Draft where
  decls := #[
    { name := "Int" },
    { name := "Link", supertype := some (.plain ⟨1⟩)
      constructors := [{ params := [.plain ⟨0⟩] },
        { params := [.array (.named ⟨0⟩ [(Ty.plain ⟨7⟩).within (.plain ⟨8⟩)]
            (some (.plain ⟨9⟩)))] }] },
    { name := "Stray", container := some ⟨5⟩ }]

end Sample

theorem Draft.finish_firstFault_samples :
    Sample.brokenLinks.size < UInt32.size ∧
    Sample.brokenLinks.finish = .error (.unknownDecl ⟨7⟩) ∧
    Sample.brokenLinks.FirstFault (.unknownDecl ⟨7⟩) ∧
    Sample.catalog.toDraft.size < UInt32.size ∧
    ∀ id d, Sample.catalog.decl? id = some d →
      (∀ path i, d.MentionsAt path i → i.toNat < Sample.catalog.size) ∧
      ∀ args container, d.supertype ≠ some (.named id args container) := by
  have hbroken : Sample.brokenLinks.size < UInt32.size := by decide
  have hwhole : Sample.catalog.toDraft.size < UInt32.size := by decide
  have hrefused : Sample.brokenLinks.finish = .error (.unknownDecl ⟨7⟩) :=
    finish_eq_error_iff.2 (by decide)
  exact ⟨hbroken, hrefused, ((finish_firstFault _ hbroken).2 _).1 hrefused, hwhole,
    (finish_firstFault _ hwhole).1.1 ⟨Sample.catalog, finish_eq_ok_iff.2 rfl, rfl⟩⟩

end SwitchCoverage
