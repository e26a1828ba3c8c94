import SwitchCoverage.Proofs.Flattening
import SwitchCoverage.Proofs.Naming

/-!
# Arguments that leaves show

A type that is declared in another shows the arguments of that other, and the expansion
declares every variant in the type it comes from.  A variant brings arguments of its own only
where it takes over those of its parent, and then the parent shows some.  So a step of the
expansion does not change the arguments that are shown, and neither does the whole expansion:
the leaves of `Result<Int32, String>` are all written with `<Int32, String>`, however deep they
lie.

For the same reason it makes no difference how many levels lie between a leaf and the type it
is declared in.  An arm can name a leaf directly inside the type that is expanded.

## Main statements

* `Catalog.suffix_named` — what a type shows that is declared in another.
* `Catalog.suffix_of_mem_leaves` — leaves show the arguments of the expanded type.
* `Catalog.display_of_mem_leaves` — **leaves are named alike, and arms can skip levels.**
-/
namespace SwitchCoverage

theorem bracketed_eq_empty_iff {args : List String} : bracketed args = "" ↔ args = [] := by
  cases args <;> simp [bracketed]

namespace Catalog

variable {g : Catalog} {limit : Nat} {t : Ty}

/-- A type that shows no arguments has none. -/
theorem args_eq_nil_of_suffix (h : (g.label t).suffix = "") : t.args = [] := by
  have hown : ∀ {args : List Ty}, bracketed (g.displayAll args) = "" → args = [] := by
    intro args h
    rw [bracketed_eq_empty_iff, displayAll_eq_map] at h
    exact List.map_eq_nil_iff.1 h
  cases t with
  | named id args container =>
    cases container with
    | none => exact hown h
    | some outer =>
      simp only [label] at h
      split at h
      · exact hown h
      · next hne => exact absurd h hne
  | param name => rfl
  | array element => rfl
  | unresolved => rfl

/-- What is declared in a type shows the arguments of the type, unless it has arguments and the
type has none. -/
theorem suffix_named {id : DeclId} {args : List Ty} (h : t.args = [] → args = []) :
    (g.label (.named id args (some t))).suffix = (g.label t).suffix := by
  simp only [label]
  split
  · next hempty =>
    rw [hempty, h (args_eq_nil_of_suffix hempty)]
    rfl
  · rfl

/-- A child takes over the arguments of its parent, or has none. -/
theorem suffix_of_mem_children {c : Ty} (hc : c ∈ g.children t) :
    (g.label c).suffix = (g.label t).suffix := by
  obtain ⟨_, id, d, -, -, -, rfl⟩ := mem_children.1 hc
  refine suffix_named fun hargs => ?_
  split
  · exact hargs
  · rfl

/-- **Leaves show the arguments of the expanded type.** -/
theorem suffix_of_mem_leaves {ls : List Ty} (h : g.leaves limit t = .ok ls) :
    ∀ v ∈ ls, (g.label v).suffix = (g.label t).suffix := by
  intro v hv
  refine (leaves_induction (motive := fun v => (g.label v).suffix = (g.label t).suffix)
    ?_ h rfl v hv).1
  intro p hp _ c hc
  exact (suffix_of_mem_children hc).trans hp

/-- The leaves of a declared type are declared types. -/
theorem id?_of_mem_leaves {id : DeclId} (hid : t.id? = some id) {ls : List Ty}
    (h : g.leaves limit t = .ok ls) : ∀ v ∈ ls, ∃ i, v.id? = some i := by
  intro v hv
  refine (leaves_induction (motive := fun v => ∃ i, v.id? = some i) ?_ h ⟨id, hid⟩ v hv).1
  intro p _ _ c hc
  obtain ⟨_, i, d, -, -, -, rfl⟩ := mem_children.1 hc
  exact ⟨i, rfl⟩

/-- **Leaves are named alike, and arms can skip levels.**  The name of a declared type is that
of its declaration and a text after it.  The name of each leaf has the same text after the name
of the leaf's declaration, and so has the leaf without arguments when it is declared in the
type directly. -/
theorem display_of_mem_leaves {id : DeclId} (hid : t.id? = some id) {ls : List Ty}
    (h : g.leaves limit t = .ok ls) :
    ∃ s, g.display t = g.simpleName id ++ s ∧ ∀ leaf ∈ ls, ∃ i, leaf.id? = some i ∧
      g.display leaf = g.simpleName i ++ s ∧
      g.display ((Ty.plain i).within t) = g.display leaf := by
  refine ⟨(g.label t).suffix, display_of_id? hid, fun leaf hleaf => ?_⟩
  obtain ⟨i, hi⟩ := id?_of_mem_leaves hid h leaf hleaf
  have hdisplay : g.display leaf = g.simpleName i ++ (g.label t).suffix := by
    rw [display_of_id? hi, suffix_of_mem_leaves h leaf hleaf]
  have hdirect : (g.label ((Ty.plain i).within t)).suffix = (g.label t).suffix :=
    suffix_named fun _ => rfl
  refine ⟨i, hi, hdisplay, ?_⟩
  rw [hdisplay, ← hdirect]
  exact display_of_id? rfl

end Catalog

/-- The literal has no parameters, the call that sends takes over the argument, and the one
that binds cannot get its two. -/
theorem Catalog.display_of_mem_leaves_exprs :
    Sample.intExpr.id? = some ⟨1⟩ ∧ ∃ ls, Sample.exprs.leaves 64 Sample.intExpr = .ok ls ∧
      ls.map Sample.exprs.display = ["Literal<Int>", "Send<Int>", "Bind<Int>", "While<Int>"] ∧
      ∃ s, Sample.exprs.display Sample.intExpr = Sample.exprs.simpleName ⟨1⟩ ++ s ∧
        ∀ leaf ∈ ls, ∃ i, leaf.id? = some i ∧
          Sample.exprs.display leaf = Sample.exprs.simpleName i ++ s ∧
          Sample.exprs.display ((Ty.plain i).within Sample.intExpr) =
            Sample.exprs.display leaf := by
  have hleaves : ∃ ls, Sample.exprs.leaves 64 Sample.intExpr = .ok ls ∧
      ls.map Sample.exprs.display = ["Literal<Int>", "Send<Int>", "Bind<Int>", "While<Int>"] :=
    ⟨_, rfl, rfl⟩
  obtain ⟨ls, hls, hnames⟩ := hleaves
  exact ⟨rfl, ls, hls, hnames, display_of_mem_leaves rfl hls⟩

end SwitchCoverage
