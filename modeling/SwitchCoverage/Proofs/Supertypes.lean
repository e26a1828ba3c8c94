import SwitchCoverage.Proofs.Scope
import SwitchCoverage.Ty.Equality

/-!
# Supertypes of instances

A variant says which type it derives from, and that type mentions type parameters.  When the
variant is taken as a type in the context of a parent, nobody looks at what it says; it takes over
the arguments of the parent, or it gets none.  The declared supertype still means something: with
what the parameters in scope of the instance stand for put in, it should be the parent again.

There are two ways in which that comes about.  A variant with as many parameters as its parent
lists them as the arguments of the supertype, and they stand for the arguments that were taken
over.  A variant without parameters mentions those of its parent, and finds what they stand for one
level further out.  In both cases the parameters are bound to the arguments of the parent in order,
and these bindings come before all others.

## Main definitions

* `Decl.DerivesInOrder` — a supertype that is applied to type parameters in order.

## Main statements

* `Ty.map_subst_param` — parameters that are bound in order are replaced by what they are bound to.
* `Catalog.bindings_instantiate` — what the parameters in scope of an instance stand for.
* `Catalog.supertype_instantiate` — **the supertype of an instance is its parent.**
-/
namespace SwitchCoverage

/-- The supertype of `d` is the declaration `parent` at `p`, applied to type parameters in order.
These are the own ones of `d` if it has as many as its parent and has some, and those of the parent
if `d` has none; no two of them are called the same. -/
structure Decl.DerivesInOrder (d : Decl) (p : DeclId) (parent : Decl) (names : List String) :
    Prop where
  /-- The supertype, whatever it says to be declared in. -/
  supertype : ∃ link, d.supertype = some (.named p (names.map .param) link)
  /-- The type parameters. -/
  params : 0 < d.arity ∧ d.arity = parent.arity ∧ names = d.typeParams ∨
    d.arity = 0 ∧ names = parent.typeParams
  /-- They have different names. -/
  distinct : names.Nodup

/-! ## Replacement in order -/

/-- Where no two parameters are called the same, each of them stands for its own argument. -/
theorem lookup_zip_of_nodup {names : List String} (hnames : names.Nodup) {args : List Ty} {i : Nat}
    {name : String} {a : Ty} (hname : names[i]? = some name) (ha : args[i]? = some a) :
    (names.zip args).lookup name = some a := by
  refine lookup_zip_eq_some_iff.2 ⟨i, hname, ha, fun j hj b hjn => ?_⟩
  have hlt : j < names.length := (List.getElem?_eq_some_iff.1 hjn).1
  have heq : j = i := (List.getElem?_inj hlt hnames).1 (hjn.trans hname.symm)
  omega

/-- **Parameters that are bound in order are replaced by what they are bound to**, whatever is
bound after them. -/
theorem Ty.map_subst_param {names : List String} (hnames : names.Nodup) {args : List Ty}
    (hlength : names.length = args.length) (rest : Bindings) :
    (names.map Ty.param).map (subst (names.zip args ++ rest)) = args := by
  refine List.ext_getElem (by simpa using hlength) fun i hi hi' => ?_
  have hname : i < names.length := by simpa using hi
  have hlookup : (names.zip args).lookup names[i] = some args[i] :=
    lookup_zip_of_nodup hnames (List.getElem?_eq_getElem hname) (List.getElem?_eq_getElem hi')
  simp [subst, List.lookup_append, hlookup]

/-- A declared type is told by its declaration and its arguments alone. -/
theorem Ty.named_args_same {t : Ty} {id : DeclId} (h : t.id? = some id) (link : Option Ty) :
    (Ty.named id t.args link == t) = true := by
  refine same_iff_erase_eq.2 ?_
  cases t with
  | named i args container =>
    cases h
    rfl
  | param name => cases h
  | array element => cases h
  | unresolved => cases h

namespace Catalog

variable {g : Catalog} {t parent : Ty} {p i : DeclId} {dp d : Decl} {names : List String}

/-! ## Bindings of an instance -/

theorem decl?_of_bindings {bound : Bindings} (h : g.bindings t = .ok bound) :
    ∀ k ∈ t.chain, ∃ e, g.decl? k = some e := by
  induction t using Ty.inductionOn generalizing bound with
  | named id args container _ hcontainer =>
    cases container with
    | none =>
      obtain ⟨e, he, -⟩ := bind_eq_ok_iff.1 h
      simpa [Ty.chain] using ⟨e, decl_eq_ok_iff.1 he⟩
    | some outer =>
      obtain ⟨e, he, h⟩ := bind_eq_ok_iff.1 h
      obtain ⟨rest, hrest, -⟩ := bind_eq_ok_iff.1 h
      exact List.forall_mem_cons.2 ⟨⟨e, decl_eq_ok_iff.1 he⟩, hcontainer outer rfl hrest⟩
  | param name => simp [Ty.chain]
  | array element _ => simp [Ty.chain]
  | unresolved => simp [Ty.chain]

/-- What the parameters in scope stand for can be told just when the type and those around it are
in the catalog. -/
theorem exists_bindings_iff :
    (∃ bound, g.bindings t = .ok bound) ↔ ∀ k ∈ t.chain, ∃ e, g.decl? k = some e := by
  constructor
  · intro ⟨bound, hbound⟩
    exact decl?_of_bindings hbound
  · intro h
    refine exists_bindings fun l hl => h l.id ?_
    rw [Ty.chain_eq_map_levels]
    exact List.mem_map_of_mem hl

/-- Bindings start with the own parameters of a type. -/
theorem exists_bindings_append (hp : t.id? = some p) (hd : g.decl? p = some d) {bound : Bindings}
    (h : g.bindings t = .ok bound) : ∃ rest, bound = d.typeParams.zip t.args ++ rest := by
  match t, hp with
  | .named _ args none, rfl =>
    obtain ⟨e, he, h⟩ := bind_eq_ok_iff.1 h
    obtain rfl : d = e := Option.some.inj (hd.symm.trans (decl_eq_ok_iff.1 he))
    cases h
    exact ⟨[], (List.append_nil _).symm⟩
  | .named _ args (some outer), rfl =>
    obtain ⟨e, he, h⟩ := bind_eq_ok_iff.1 h
    obtain rfl : d = e := Option.some.inj (hd.symm.trans (decl_eq_ok_iff.1 he))
    obtain ⟨rest, -, h⟩ := bind_eq_ok_iff.1 h
    exact ⟨rest, (Except.ok.inj h).symm⟩

/-- **What the parameters in scope of an instance stand for.**  The parameters that its supertype
is applied to come first, and they stand for the arguments of the parent, in order. -/
theorem bindings_instantiate (hp : parent.id? = some p) (hdp : g.decl? p = some dp)
    (hfull : parent.args.length = dp.arity) (hd : g.decl? i = some d)
    (hsuper : d.DerivesInOrder p dp names) {bound : Bindings}
    (h : g.bindings (d.instantiate i parent) = .ok bound) :
    names.length = parent.args.length ∧ ∃ rest, bound = names.zip parent.args ++ rest := by
  obtain ⟨e, he, h⟩ := bind_eq_ok_iff.1 h
  obtain ⟨outer, houter, h⟩ := bind_eq_ok_iff.1 h
  obtain rfl : d = e := Option.some.inj (hd.symm.trans (decl_eq_ok_iff.1 he))
  cases h
  rcases hsuper.params with ⟨hpos, harity, rfl⟩ | ⟨hzero, rfl⟩
  · rw [if_pos ⟨hpos, harity.trans hfull.symm⟩]
    exact ⟨harity.trans hfull.symm, outer, rfl⟩
  · have hnone : d.typeParams = [] := List.length_eq_zero_iff.1 hzero
    rw [hnone]
    exact ⟨hfull.symm, exists_bindings_append hp hdp houter⟩

/-- **The supertype of an instance is its parent.**  Let a parent type have all its arguments, and
let `d` derive from it in order.  Then `d` can be taken as a type in the context of the parent.
What the parameters in scope of that instance stand for is what its fields are typed with, and it
can be told just when the types around the parent are in the catalog.  With it put in, the declared
supertype of `d` is the parent type. -/
theorem supertype_instantiate (hp : parent.id? = some p) (hdp : g.decl? p = some dp)
    (hfull : parent.args.length = dp.arity) (hd : g.decl? i = some d)
    (hsuper : d.DerivesInOrder p dp names) :
    ∃ inst super, g.instantiate parent i = .ok inst ∧ d.supertype = some super ∧
      (∀ c, d.longest? = some c →
        g.fieldTypes inst = (g.bindings inst).map fun bound => c.params.map (Ty.subst bound)) ∧
      ((∃ bound, g.bindings inst = .ok bound) ↔
        ∀ k ∈ parent.enclosing, ∃ e, g.decl? k = some e) ∧
      ∀ bound, g.bindings inst = .ok bound → (super.subst bound == parent) = true := by
  obtain ⟨link, hlink⟩ := hsuper.supertype
  refine ⟨d.instantiate i parent, _, ?_, hlink, fun c hc => ?_, ?_, fun bound hbound => ?_⟩
  · rw [instantiate, decl_eq_ok_iff.2 hd]
    rfl
  · exact fieldTypes_of_longest?_eq_some rfl hd hc
  · have hchain : (d.instantiate i parent).chain = i :: p :: parent.enclosing := by
      rw [← Ty.chain_of_id? hp]
      rfl
    rw [exists_bindings_iff, hchain]
    simp [hd, hdp]
  · obtain ⟨hlength, rest, rfl⟩ := bindings_instantiate hp hdp hfull hd hsuper hbound
    have hargs := Ty.map_subst_param hsuper.distinct hlength rest
    rw [Ty.subst_named, hargs]
    exact Ty.named_args_same hp _

end Catalog

namespace Sample

/-- Pairs of two things. -/
def pair : Decl :=
  { name := "Pair", typeParams := ["A", "B"]
    constructors := [{ visibility := .priv, params := [] }] }

/-- A full pair calls its parameters the other way round. -/
def fullPair : Decl :=
  { name := "Full", typeParams := ["B", "A"], container := some ⟨2⟩
    supertype := some (.applied ⟨2⟩ [.param "B", .param "A"])
    constructors := [{ params := [.param "A", .param "B"] }] }

/-- An empty pair has no parameters, and says of pairs that they lie in a drawer. -/
def emptyPair : Decl :=
  { name := "Empty", container := some ⟨2⟩
    supertype := some (.named ⟨2⟩ [.param "A", .param "B"] (some (.applied ⟨1⟩ [.param "A"]))) }

/-- Pairs, and drawers for them. -/
def drawers : Catalog where
  decls := #[
    { name := "Int" },
    { name := "Drawer", typeParams := ["A"] },
    pair,
    fullPair,
    emptyPair]
  faultless := by decide

/-- A pair in a drawer.  What it is made of is called like the parameters. -/
def drawerPair : Ty := (Ty.applied ⟨2⟩ [.array (.param "B"), .applied ⟨1⟩ [.param "A"]]).within
  (.applied ⟨1⟩ [.plain ⟨0⟩])

theorem fullPair_derivesInOrder : fullPair.DerivesInOrder ⟨2⟩ pair ["B", "A"] where
  supertype := ⟨none, rfl⟩
  params := .inl ⟨by decide, rfl, rfl⟩
  distinct := by decide

theorem emptyPair_derivesInOrder : emptyPair.DerivesInOrder ⟨2⟩ pair ["A", "B"] where
  supertype := ⟨_, rfl⟩
  params := .inr ⟨rfl, rfl⟩
  distinct := by decide

end Sample

/-- Both kinds of pairs derive from what they are instances of, the full one by its own parameters
and the empty one by those of the pair. -/
theorem Catalog.supertype_instantiate_drawers :
    Sample.drawers.variants ⟨2⟩ = [⟨3⟩, ⟨4⟩] ∧
    ∀ e ∈ [(⟨3⟩, Sample.fullPair), (⟨4⟩, Sample.emptyPair)], ∃ inst super bound,
      Sample.drawers.instantiate Sample.drawerPair e.1 = .ok inst ∧
      e.2.supertype = some super ∧ Sample.drawers.bindings inst = .ok bound ∧
      (super.subst bound == Sample.drawerPair) = true := by
  have hdrawer : ∀ k ∈ Sample.drawerPair.enclosing, ∃ e, Sample.drawers.decl? k = some e := by
    intro k hk
    obtain rfl : k = ⟨1⟩ := List.mem_singleton.1 hk
    exact ⟨_, rfl⟩
  have hinstance : ∀ (i : DeclId) (d : Decl) (names : List String),
      Sample.drawers.decl? i = some d → d.DerivesInOrder ⟨2⟩ Sample.pair names →
      ∃ inst super bound, Sample.drawers.instantiate Sample.drawerPair i = .ok inst ∧
        d.supertype = some super ∧ Sample.drawers.bindings inst = .ok bound ∧
        (super.subst bound == Sample.drawerPair) = true := by
    intro i d names hd hderives
    obtain ⟨inst, super, hinst, hsuper, -, hbindings, hparent⟩ :=
      supertype_instantiate (rfl : Sample.drawerPair.id? = some ⟨2⟩) rfl rfl hd hderives
    obtain ⟨bound, hbound⟩ := hbindings.2 hdrawer
    exact ⟨inst, super, bound, hinst, hsuper, hbound, hparent bound hbound⟩
  refine ⟨by decide, fun e he => ?_⟩
  rcases List.mem_pair.1 he with rfl | rfl
  · exact hinstance ⟨3⟩ Sample.fullPair _ rfl Sample.fullPair_derivesInOrder
  · exact hinstance ⟨4⟩ Sample.emptyPair _ rfl Sample.emptyPair_derivesInOrder

end SwitchCoverage
