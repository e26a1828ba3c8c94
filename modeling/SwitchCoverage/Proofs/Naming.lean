import Mathlib.Algebra.Order.BigOperators.Group.List
import Mathlib.Algebra.Order.Ring.Nat
import SwitchCoverage.Catalog.Naming

/-!
# Names of cases as texts

Coverage is decided by comparing texts.  What a text gives away depends on how far
its parts can be told apart, and the first part is the name of a declaration: after
it comes nothing, or a bracket, or the blank before `with`.  Two declarations can
therefore be taken for each other only if their names are equal, or one goes on
where the other stops, with a bracket or a blank.

The other fact here is about lengths.  A case name grows with each variant that is
added to it, whatever the variants are called.

## Main definitions

* `continued` — what follows the first name in a bracketed listing.
* `Follows` — texts that can follow the name of a declaration in the name of a case.
* `Catalog.Confusable` — different declarations whose names can be taken for each other.

## Main statements

* `append_inj_of_stop` — a name can be read off a text, if a character of another kind follows it.
* `Catalog.confusable_of_caseName_eq` — equal case names come from one declaration, or
  from confusable ones.
* `Catalog.length_caseName_lt` — more variants make a longer name.
-/
namespace SwitchCoverage

/-! ## Reading a text -/

/-- **A name can be read off a text**, if its characters are all of one kind and what follows it is
empty or starts with a character of another kind. -/
theorem append_inj_of_stop {p : Char → Bool} {a b r s : String} (ha : ∀ c ∈ a.toList, p c = true)
    (hb : ∀ c ∈ b.toList, p c = true) (hr : ∀ c ∈ r.toList.head?, p c = false)
    (hs : ∀ c ∈ s.toList.head?, p c = false) (h : a ++ r = b ++ s) : a = b ∧ r = s := by
  have hread : ∀ {x y : String}, (∀ c ∈ x.toList, p c = true) →
      (∀ c ∈ y.toList.head?, p c = false) → (x ++ y).toList.takeWhile p = x.toList := by
    intro x y hx hy
    have hstop : y.toList.takeWhile p = [] := by
      cases hchars : y.toList with
      | nil => rfl
      | cons c cs => simp [hy c (by simp [hchars])]
    rw [String.toList_append, List.takeWhile_append_of_pos hx, hstop, List.append_nil]
  have hab : a = b := by
    rw [← String.toList_inj, ← hread ha hr, h, hread hb hs]
  subst hab
  exact ⟨rfl, (String.append_right_inj a).1 h⟩

/-- What follows the first name in a bracketed listing: the other names, and the end. -/
def continued : List String → String
  | [] => ">"
  | x :: xs => ", " ++ (x ++ continued xs)

theorem bracketed_cons (x : String) (xs : List String) :
    bracketed (x :: xs) = "<" ++ (x ++ continued xs) := by
  have hlisting : ∀ x, ", ".intercalate (x :: xs) ++ ">" = x ++ continued xs := by
    induction xs with
    | nil => intro x; simp [continued]
    | cons y ys ih =>
      intro x
      rw [String.intercalate_cons_of_ne_nil (by simp), String.append_assoc, ih, continued,
        String.append_assoc]
  rw [bracketed, if_neg (by simp), String.append_assoc, hlisting]

/-! ## What follows the name of a declaration -/

/-- A text that can follow the name of a declaration in the name of a case: it is empty,
or it opens a bracket or starts with a blank. -/
def Follows (s : String) : Prop := ∀ c ∈ s.toList.head?, c = '<' ∨ c = ' '

theorem follows_empty : Follows "" := by simp [Follows]

/-- The first character of two texts together is that of one of them. -/
theorem forall_head?_append {P : Char → Prop} {s r : String} (hs : ∀ c ∈ s.toList.head?, P c)
    (hr : ∀ c ∈ r.toList.head?, P c) : ∀ c ∈ (s ++ r).toList.head?, P c := by
  intro c hc
  rw [String.toList_append, List.head?_append, Option.mem_def] at hc
  cases hhead : s.toList.head? with
  | none => exact hr c (by simpa [hhead] using hc)
  | some d => exact hs c (by simpa [hhead] using hc)

theorem follows_append {s r : String} (hs : Follows s) (hr : Follows r) : Follows (s ++ r) :=
  forall_head?_append hs hr

theorem follows_bracketed (args : List String) : Follows (bracketed args) := by
  rw [bracketed]
  split
  · exact follows_empty
  · intro c hc
    left
    simpa [eq_comm] using hc

namespace Catalog

variable {g : Catalog}

/-- The arguments that a type shows are bracketed, or there are none. -/
theorem follows_suffix (g : Catalog) (t : Ty) : Follows (g.label t).suffix := by
  induction t using Ty.inductionOn with
  | named id args container _ hcontainer =>
    cases container with
    | none => exact follows_bracketed _
    | some outer =>
      simp only [label]
      split
      · exact follows_bracketed _
      · exact hcontainer outer rfl
  | param name => exact follows_empty
  | array element _ => exact follows_empty
  | unresolved => exact follows_empty

theorem label_head_of_id? {t : Ty} {id : DeclId} (h : t.id? = some id) :
    (g.label t).head = g.simpleName id := by
  match t, h with
  | .named _ _ none, rfl => rfl
  | .named _ _ (some _), rfl => rfl

theorem bareName_of_id? {t : Ty} {id : DeclId} (h : t.id? = some id) :
    g.bareName t = g.simpleName id := by
  cases t <;> cases h
  rfl

theorem display_of_id? {t : Ty} {id : DeclId} (h : t.id? = some id) :
    g.display t = g.simpleName id ++ (g.label t).suffix := by
  rw [display, Label.text, label_head_of_id? h]

/-- The name of a case starts with the name of its declaration. -/
theorem caseName_of_id? {t : Ty} {id : DeclId} (h : t.id? = some id) (vs : List Ty) :
    ∃ s, Follows s ∧ g.caseName t vs = g.simpleName id ++ s := by
  rw [caseName]
  split
  · exact ⟨_, follows_suffix g t, display_of_id? h⟩
  · refine ⟨(g.label t).suffix ++ (" with " ++ ", ".intercalate (vs.map g.display)), ?_, ?_⟩
    · refine follows_append (follows_suffix g t) ?_
      intro c hc
      right
      simpa [eq_comm] using hc
    · rw [display_of_id? h, String.append_assoc, String.append_assoc]

/-- Two different declarations that a case name may not tell apart: their names are equal,
or one of the names is the other and a text that can follow it. -/
def Confusable (g : Catalog) (i j : DeclId) : Prop :=
  i ≠ j ∧ ∃ s, Follows s ∧
    (g.simpleName i = g.simpleName j ++ s ∨ g.simpleName j = g.simpleName i ++ s)

/-- **Equal case names come from one declaration, or from confusable ones.** -/
theorem confusable_of_caseName_eq {t u : Ty} {i j : DeclId} (ht : t.id? = some i)
    (hu : u.id? = some j) {vs ws : List Ty} (h : g.caseName t vs = g.caseName u ws) :
    i = j ∨ g.Confusable i j := by
  by_cases hij : i = j
  · exact .inl hij
  refine .inr ⟨hij, ?_⟩
  obtain ⟨r, hr, htr⟩ := caseName_of_id? (g := g) ht vs
  obtain ⟨s, hs, hus⟩ := caseName_of_id? (g := g) hu ws
  have htexts : (g.simpleName i).toList ++ r.toList = (g.simpleName j).toList ++ s.toList := by
    rw [← String.toList_append, ← String.toList_append, ← htr, ← hus, h]
  -- The shorter of the two names is a beginning of the longer, and what is left of the
  -- longer one begins what follows the shorter.
  rcases List.append_eq_append_iff.1 htexts with ⟨m, hj, hm⟩ | ⟨m, hi, hm⟩
  · refine ⟨String.ofList m, ?_, .inr ?_⟩
    · intro c hc
      refine hr c ?_
      rw [hm, List.head?_append]
      simp_all
    · rw [← String.toList_inj, String.toList_append, String.toList_ofList, hj]
  · refine ⟨String.ofList m, ?_, .inl ?_⟩
    · intro c hc
      refine hs c ?_
      rw [hm, List.head?_append]
      simp_all
    · rw [← String.toList_inj, String.toList_append, String.toList_ofList, hi]

end Catalog

/-! ## Lengths -/

/-- In a joined text each entry counts with one separator, except for the last. -/
theorem length_intercalate (sep : String) (xs : List String) (h : xs ≠ []) :
    (sep.intercalate xs).length + sep.length =
      (xs.map fun x => x.length).sum + sep.length * xs.length := by
  induction xs with
  | nil => exact absurd rfl h
  | cons x xs ih =>
    by_cases hxs : xs = []
    · simp [hxs]
    · have hrest := ih hxs
      rw [String.intercalate_cons_of_ne_nil hxs, String.length_append, String.length_append,
        List.map_cons, List.sum_cons, List.length_cons, Nat.mul_succ]
      omega

/-- **More variants make a longer name.** -/
theorem Catalog.length_caseName_lt (g : Catalog) (t : Ty) {vs ws : List Ty}
    (h : vs.Sublist ws) (hlt : vs.length < ws.length) :
    (g.caseName t vs).length < (g.caseName t ws).length := by
  have hws : ws ≠ [] := List.ne_nil_of_length_pos (by omega)
  have hlong := length_intercalate ", " (ws.map g.display) (by simpa using hws)
  have hwith : " with ".length = 6 := by decide
  have hsep : ", ".length = 2 := by decide
  rw [hsep, List.length_map] at hlong
  simp only [caseName, List.isEmpty_iff, hws, if_false, String.length_append, hwith]
  split
  · omega
  · next hvs =>
    have hshort := length_intercalate ", " (vs.map g.display) (by simpa using hvs)
    have hsum : ((vs.map g.display).map fun x => x.length).sum ≤
        ((ws.map g.display).map fun x => x.length).sum :=
      ((h.map g.display).map _).sum_le_sum fun _ _ => Nat.zero_le _
    rw [hsep, List.length_map] at hshort
    simp only [String.length_append, hwith]
    omega

end SwitchCoverage
