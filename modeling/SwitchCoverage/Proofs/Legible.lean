import SwitchCoverage.Proofs.Cases
import SwitchCoverage.Proofs.Heredity
import SwitchCoverage.Proofs.Naming

/-!
# Legible names

A case name is punctuated with brackets, commas and blanks.  Where no declaration
and no type parameter is called by one of these characters, the brackets of a name
match, and what stands outside of them can be read: the name of the leaf, and the
names of the chosen variants, in order.

`outline` does the reading.  It drops all bracketed text and keeps the rest, so that
`Error<Int32, E> with Timeout<E>, Refused` becomes `Error with Timeout, Refused`.

## Main definitions

* `plainText`, `Ty.isPlain` — texts without punctuation, and types whose parameters are
  called by such texts.
* `Catalog.Legible` — plain names, and a different one for each declaration.
* `outline` — a text without its brackets and what they hold.

## Main statements

* `Catalog.isPlain_of_hasCase` — the cases of a plain type mention plain types alone.
* `Catalog.outline_caseName` — the outline of a case name.
* `Catalog.ids_eq_of_caseName_eq` — **a legible case name gives away its declarations.**
-/
namespace SwitchCoverage

/-- Whether a text has none of the characters that punctuate case names. -/
def plainText (s : String) : Bool :=
  s.toList.all fun c => c != '<' && c != '>' && c != ',' && c != ' '

/-! ## Type parameters -/

namespace Ty

mutual

/-- The names of the type parameters in a type: those in its arguments from left to right,
then those in the type it is declared in. -/
def paramNames : Ty → List String
  | .named _ args none => paramNamesAll args
  | .named _ args (some outer) => paramNamesAll args ++ outer.paramNames
  | .param name => [name]
  | .array element => element.paramNames
  | .unresolved => []
termination_by structural t => t

/-- The names of the type parameters in the types of a list. -/
def paramNamesAll : List Ty → List String
  | [] => []
  | t :: ts => t.paramNames ++ paramNamesAll ts
termination_by structural ts => ts

end

/-- Whether all type parameters in a type are called by plain texts. -/
def isPlain (t : Ty) : Bool := t.paramNames.all plainText

theorem paramNamesAll_eq_flatMap (ts : List Ty) : paramNamesAll ts = ts.flatMap paramNames := by
  induction ts with
  | nil => rfl
  | cons t ts ih => simp [paramNamesAll, ih]

theorem mem_paramNames_named {id : DeclId} {args : List Ty} {container : Option Ty}
    {name : String} : name ∈ (named id args container).paramNames ↔
      (∃ a ∈ args, name ∈ a.paramNames) ∨ ∃ o ∈ container, name ∈ o.paramNames := by
  cases container <;> simp [paramNames, paramNamesAll_eq_flatMap]

theorem isPlain_named {id : DeclId} {args : List Ty} {container : Option Ty} :
    (named id args container).isPlain = true ↔
      (∀ a ∈ args, a.isPlain = true) ∧ ∀ o ∈ container, o.isPlain = true := by
  cases container <;>
    simp [isPlain, paramNames, paramNamesAll_eq_flatMap, List.all_append, List.all_flatMap]

theorem hereditary_isPlain : Hereditary (fun _ => True) fun t => t.isPlain = true where
  named := by simp [isPlain_named]
  array := .rfl

end Ty

/-- Each declaration of the catalog has a name of its own, and names and type parameters
are called by plain texts. -/
structure Catalog.Legible (g : Catalog) : Prop where
  /-- No two declarations show the same name. -/
  distinct : (g.decls.toList.map fun d => dropArityMark d.name).Nodup
  /-- The shown names are plain. -/
  plain : ∀ d ∈ g.decls.toList, plainText (dropArityMark d.name) = true
  /-- The type parameters that fields mention are plain. -/
  params : ∀ d ∈ g.decls.toList, ∀ c ∈ d.constructors, ∀ p ∈ c.params, p.isPlain = true

namespace Catalog

variable {g : Catalog} {limit : Nat}

/-- The cases of a plain type mention plain types alone. -/
theorem isPlain_of_hasCase (hg : g.Legible) {t : Ty} (ht : t.isPlain = true) {c : Case}
    (h : g.HasCase limit t c) :
    c.leaf.isPlain = true ∧ ∀ v ∈ c.choice, v.isPlain = true := by
  obtain ⟨ls, hls, hleaf⟩ := h.leaf
  have hplain := Ty.hereditary_isPlain.of_mem_leaves (fun _ _ _ => trivial) ht hls c.leaf hleaf
  refine ⟨hplain, fun v hv => ?_⟩
  obtain ⟨f, hf, hvf⟩ := exists_right_of_mem h.choice hv
  exact Ty.hereditary_isPlain.of_mem_splitFields (fun _ _ _ => trivial) hg.params hplain
    h.fields f hf v hvf

end Catalog

/-! ## Outlines -/

/-- A text without its brackets and what they hold, where `depth` brackets are open. -/
def outline : Nat → List Char → List Char
  | _, [] => []
  | depth, c :: cs =>
    if c = '<' then outline (depth + 1) cs
    else if c = '>' then outline (depth - 1) cs
    else if depth = 0 then c :: outline 0 cs
    else outline depth cs

/-- Between brackets the text leaves no trace, and as many are open after it as before. -/
def Hidden (s : String) : Prop :=
  ∀ depth rest, outline (depth + 1) (s.toList ++ rest) = outline (depth + 1) rest

/-- The text leaves no trace anywhere. -/
def Traceless (s : String) : Prop :=
  ∀ depth rest, outline depth (s.toList ++ rest) = outline depth rest

theorem Traceless.hidden {s : String} (h : Traceless s) : Hidden s := fun depth => h (depth + 1)

theorem hidden_append {s r : String} (hs : Hidden s) (hr : Hidden r) : Hidden (s ++ r) := by
  intro depth rest
  rw [String.toList_append, List.append_assoc, hs, hr]

theorem hidden_of_no_bracket {s : String} (h : ∀ c ∈ s.toList, c ≠ '<' ∧ c ≠ '>') :
    Hidden s := by
  intro depth rest
  generalize s.toList = cs at h
  induction cs with
  | nil => rfl
  | cons c cs ih =>
    obtain ⟨⟨hopen, hclose⟩, hcs⟩ := List.forall_mem_cons.1 h
    simpa [outline, hopen, hclose] using ih hcs

theorem hidden_intercalate {sep : String} (hsep : Hidden sep) {xs : List String}
    (h : ∀ x ∈ xs, Hidden x) : Hidden (sep.intercalate xs) := by
  induction xs with
  | nil => exact fun _ _ => rfl
  | cons x xs ih =>
    obtain ⟨hx, hxs⟩ := List.forall_mem_cons.1 h
    by_cases hne : xs = []
    · simpa [hne] using hx
    · rw [String.intercalate_cons_of_ne_nil hne]
      exact hidden_append (hidden_append hx hsep) (ih hxs)

theorem traceless_bracketed {args : List String} (h : ∀ a ∈ args, Hidden a) :
    Traceless (bracketed args) := by
  rw [bracketed]
  split
  · exact fun _ _ => rfl
  · intro depth rest
    have hsep : Hidden ", " := hidden_of_no_bracket (by simp)
    have hopen : ("<" : String).toList = ['<'] := rfl
    have hclose : (">" : String).toList = ['>'] := rfl
    rw [String.toList_append, String.toList_append, List.append_assoc, List.append_assoc, hopen,
      hclose, List.singleton_append, outline, if_pos rfl, hidden_intercalate hsep h,
      List.singleton_append, outline, if_neg (by decide), if_pos rfl, Nat.add_sub_cancel]

theorem outline_append_of_no_bracket {cs : List Char} (h : ∀ c ∈ cs, c ≠ '<' ∧ c ≠ '>')
    (rest : List Char) : outline 0 (cs ++ rest) = cs ++ outline 0 rest := by
  induction cs with
  | nil => rfl
  | cons c cs ih =>
    obtain ⟨⟨hopen, hclose⟩, hcs⟩ := List.forall_mem_cons.1 h
    simp [outline, hopen, hclose, ih hcs]

theorem plainText_iff {s : String} :
    plainText s = true ↔ ∀ c ∈ s.toList, (c ≠ '<' ∧ c ≠ '>') ∧ c ≠ ',' ∧ c ≠ ' ' := by
  simp [plainText, and_assoc]

theorem no_bracket_of_plainText {s : String} (h : plainText s = true) :
    ∀ c ∈ s.toList, c ≠ '<' ∧ c ≠ '>' := fun c hc => (plainText_iff.1 h c hc).1

namespace Catalog

variable {g : Catalog}

theorem plainText_simpleName (hg : g.Legible) (id : DeclId) :
    plainText (g.simpleName id) = true := by
  rw [simpleName]
  split
  · next d hd => exact hg.plain d (mem_decls_of_decl? hd)
  · decide

/-- Inside brackets the name of a plain type leaves no trace, and its arguments leave none
anywhere. -/
theorem hidden_text_traceless_suffix (hg : g.Legible) {t : Ty} (ht : t.isPlain = true) :
    Hidden (g.label t).text ∧ Traceless (g.label t).suffix := by
  induction t using Ty.inductionOn with
  | named id args container hargs hcontainer =>
    obtain ⟨ha, hc⟩ := Ty.isPlain_named.1 ht
    have hown : Traceless (bracketed (g.displayAll args)) := by
      rw [displayAll_eq_map]
      refine traceless_bracketed fun a hmem => ?_
      obtain ⟨b, hb, rfl⟩ := List.mem_map.1 hmem
      exact (hargs b hb (ha b hb)).1
    have hsuffix : Traceless (g.label (.named id args container)).suffix := by
      cases container with
      | none => exact hown
      | some outer =>
        simp only [label]
        split
        · exact hown
        · exact (hcontainer outer rfl (hc outer rfl)).2
    have hhead : Hidden (g.label (.named id args container)).head := by
      rw [label_head_of_id? rfl]
      exact hidden_of_no_bracket (no_bracket_of_plainText (plainText_simpleName hg id))
    exact ⟨hidden_append hhead hsuffix.hidden, hsuffix⟩
  | param name =>
    have hname : plainText name = true := by simpa [Ty.isPlain, Ty.paramNames] using ht
    have hhidden := hidden_of_no_bracket (no_bracket_of_plainText hname)
    exact ⟨hidden_append hhidden fun _ _ => rfl, fun _ _ => rfl⟩
  | array element ih =>
    have hmark : Hidden "[]" := hidden_of_no_bracket (by simp)
    exact ⟨hidden_append (hidden_append (ih ht).1 hmark) fun _ _ => rfl, fun _ _ => rfl⟩
  | unresolved =>
    have hmark : Hidden "?" := hidden_of_no_bracket (by simp)
    exact ⟨hidden_append hmark fun _ _ => rfl, fun _ _ => rfl⟩

/-- Of the name of a declared type, the outline keeps the name of its declaration. -/
theorem outline_display (hg : g.Legible) {t : Ty} (ht : t.isPlain = true) {id : DeclId}
    (hid : t.id? = some id) (rest : List Char) :
    outline 0 ((g.display t).toList ++ rest) = (g.simpleName id).toList ++ outline 0 rest := by
  rw [display_of_id? hid, String.toList_append, List.append_assoc,
    outline_append_of_no_bracket (no_bracket_of_plainText (plainText_simpleName hg id)),
    (hidden_text_traceless_suffix hg ht).2]

/-- The names of declared types joined by commas have an outline of the same form. -/
theorem outline_intercalate (hg : g.Legible) {vs : List Ty} {ids : List DeclId}
    (hplain : ∀ v ∈ vs, v.isPlain = true) (hids : vs.map Ty.id? = ids.map some) :
    outline 0 (", ".intercalate (vs.map g.display)).toList =
      [',', ' '].intercalate (ids.map fun id => (g.simpleName id).toList) := by
  induction vs generalizing ids with
  | nil =>
    obtain rfl : ids = [] := List.map_eq_nil_iff.1 hids.symm
    rfl
  | cons v vs ih =>
    obtain ⟨id, ids, rfl⟩ := List.exists_cons_of_ne_nil (l := ids) (by rintro rfl; simp at hids)
    simp only [List.map_cons, List.cons.injEq] at hids
    obtain ⟨hv, hvs⟩ := List.forall_mem_cons.1 hplain
    by_cases hne : vs = []
    · obtain rfl : ids = [] := List.map_eq_nil_iff.1 (by rw [← hids.2, hne, List.map_nil])
      simpa [hne, outline] using outline_display hg hv hids.1 []
    · have hne' : ids ≠ [] := by
        rintro rfl
        exact hne (by simpa using hids.2)
      have hsep : ∀ c ∈ (", " : String).toList, c ≠ '<' ∧ c ≠ '>' := by simp
      rw [List.map_cons, String.intercalate_cons_of_ne_nil (by simpa using hne),
        String.toList_append, String.toList_append, List.append_assoc,
        outline_display hg hv hids.1, outline_append_of_no_bracket hsep, ih hvs hids.2,
        List.map_cons, List.intercalate_cons_of_ne_nil (by simpa using hne')]
      simp

/-- The outline of a case name: the name of the leaf, and the names of the variants. -/
theorem outline_caseName (hg : g.Legible) {t : Ty} (ht : t.isPlain = true) {i : DeclId}
    (hi : t.id? = some i) {vs : List Ty} {ids : List DeclId}
    (hplain : ∀ v ∈ vs, v.isPlain = true) (hids : vs.map Ty.id? = ids.map some) :
    outline 0 (g.caseName t vs).toList = (g.simpleName i).toList ++
      if ids = [] then []
      else " with ".toList ++
        [',', ' '].intercalate (ids.map fun id => (g.simpleName id).toList) := by
  have hnil : vs.isEmpty = true ↔ ids = [] := by
    rw [List.isEmpty_iff, ← List.map_eq_nil_iff (f := Ty.id?), hids, List.map_eq_nil_iff]
  by_cases hempty : vs.isEmpty = true
  · simpa [caseName, hempty, hnil.1 hempty, outline] using outline_display hg ht hi []
  · have hwith : ∀ c ∈ (" with " : String).toList, c ≠ '<' ∧ c ≠ '>' := by simp
    rw [caseName, if_neg hempty, if_neg (mt hnil.2 hempty), String.toList_append,
      String.toList_append, List.append_assoc, outline_display hg ht hi,
      outline_append_of_no_bracket hwith, outline_intercalate hg hplain hids]

end Catalog

/-! ## Reading an outline -/

/-- What stands before a separator can be told from what follows, if it does not hold the
first character of the separator. -/
theorem append_cons_inj {c : Char} {xs ys rs ss : List Char} (hx : c ∉ xs) (hy : c ∉ ys)
    (h : xs ++ c :: rs = ys ++ c :: ss) : xs = ys ∧ rs = ss := by
  induction xs generalizing ys with
  | nil =>
    cases ys with
    | nil => simpa using h
    | cons y ys =>
      obtain ⟨rfl, -⟩ := List.cons.inj h
      exact absurd (.head _) hy
  | cons x xs ih =>
    cases ys with
    | nil =>
      obtain ⟨rfl, -⟩ := List.cons.inj h
      exact absurd (.head _) hx
    | cons y ys =>
      obtain ⟨rfl, htail⟩ := List.cons.inj h
      obtain ⟨rfl, hrest⟩ := ih (fun hc => hx (.tail _ hc)) (fun hc => hy (.tail _ hc)) htail
      exact ⟨rfl, hrest⟩

/-- Texts without commas can be read off their listing. -/
theorem intercalate_inj {xss yss : List (List Char)} (hx : ∀ xs ∈ xss, ',' ∉ xs)
    (hy : ∀ ys ∈ yss, ',' ∉ ys) (hxne : xss ≠ []) (hyne : yss ≠ [])
    (h : [',', ' '].intercalate xss = [',', ' '].intercalate yss) : xss = yss := by
  induction xss generalizing yss with
  | nil => exact absurd rfl hxne
  | cons xs xss ih =>
    obtain ⟨ys, yss, rfl⟩ := List.exists_cons_of_ne_nil hyne
    obtain ⟨hxs, hxss⟩ := List.forall_mem_cons.1 hx
    obtain ⟨hys, hyss⟩ := List.forall_mem_cons.1 hy
    by_cases hxe : xss = [] <;> by_cases hye : yss = []
    · subst hxe hye
      simpa using h
    · subst hxe
      rw [List.intercalate_singleton, List.intercalate_cons_of_ne_nil hye] at h
      exact absurd (h ▸ by simp) hxs
    · subst hye
      rw [List.intercalate_singleton, List.intercalate_cons_of_ne_nil hxe] at h
      exact absurd (h ▸ by simp) hys
    · rw [List.intercalate_cons_of_ne_nil hxe, List.intercalate_cons_of_ne_nil hye,
        List.append_assoc, List.append_assoc, List.cons_append, List.cons_append] at h
      obtain ⟨rfl, hrest⟩ := append_cons_inj hxs hys h
      rw [ih hxss hyss hxe hye (by simpa using hrest)]

namespace Catalog

variable {g : Catalog}

/-- Where no two declarations show the same name, a declaration is known by its name. -/
theorem eq_of_simpleName_eq (hg : (g.decls.toList.map fun d => dropArityMark d.name).Nodup)
    {i j : DeclId} {d e : Decl} (hi : g.decl? i = some d) (hj : g.decl? j = some e)
    (h : g.simpleName i = g.simpleName j) : i = j := by
  have hnames : dropArityMark d.name = dropArityMark e.name := by
    simpa [simpleName, hi, hj] using h
  have hlt : i.toNat < g.decls.size := (Array.getElem?_eq_some_iff.1 hi).1
  refine DeclId.toNat_injective ?_
  refine (List.getElem?_inj (by simpa using hlt) hg).1 ?_
  rw [Draft.decl?] at hi hj
  simp [hi, hj, hnames]

/-- A legible catalog has no confusable declarations. -/
theorem not_confusable (hg : g.Legible) {i j : DeclId} {d e : Decl} (hi : g.decl? i = some d)
    (hj : g.decl? j = some e) : ¬ g.Confusable i j := by
  -- A text that follows a name and is part of one has no first character.
  have hempty : ∀ {k : DeclId} {m s : String}, Follows s → g.simpleName k = m ++ s → s = "" := by
    intro k m s hs hk
    cases hchars : s.toList with
    | nil => exact String.toList_inj.1 hchars
    | cons c cs =>
      have hplain := plainText_iff.1 (plainText_simpleName hg k) c (by simp [hk, hchars])
      rcases hs c (by simp [hchars]) with rfl | rfl
      · exact absurd rfl hplain.1.1
      · exact absurd rfl hplain.2.2
  rintro ⟨hne, s, hs, h | h⟩
  · rw [hempty hs h, String.append_empty] at h
    exact hne (eq_of_simpleName_eq hg.distinct hi hj h)
  · rw [hempty hs h, String.append_empty] at h
    exact hne (eq_of_simpleName_eq hg.distinct hi hj h.symm)

/-- Declared positions are known by their names, one by one. -/
theorem ids_eq_of_names_eq (hg : g.Legible) {is js : List DeclId}
    (hi : ∀ i ∈ is, ∃ d, g.decl? i = some d) (hj : ∀ j ∈ js, ∃ d, g.decl? j = some d)
    (h : is.map (fun i => (g.simpleName i).toList) = js.map fun j => (g.simpleName j).toList) :
    is = js := by
  induction is generalizing js with
  | nil => exact (List.map_eq_nil_iff.1 h.symm).symm
  | cons i is ih =>
    obtain ⟨j, js, rfl⟩ := List.exists_cons_of_ne_nil (l := js) (by rintro rfl; simp at h)
    obtain ⟨⟨d, hd⟩, his⟩ := List.forall_mem_cons.1 hi
    obtain ⟨⟨e, he⟩, hjs⟩ := List.forall_mem_cons.1 hj
    simp only [List.map_cons, List.cons.injEq] at h
    rw [eq_of_simpleName_eq hg.distinct hd he (String.toList_inj.1 h.1), ih his hjs h.2]

/-- The declarations of a list of variants. -/
theorem exists_ids {vs : List Ty} (h : ∀ v ∈ vs, g.isVariant v = true) :
    ∃ ids : List DeclId, vs.map Ty.id? = ids.map some ∧ ∀ id ∈ ids, ∃ d, g.decl? id = some d := by
  induction vs with
  | nil => exact ⟨[], rfl, by simp⟩
  | cons v vs ih =>
    obtain ⟨hv, hvs⟩ := List.forall_mem_cons.1 h
    obtain ⟨id, d, hid, hd⟩ := decl_of_isVariant hv
    obtain ⟨ids, hids, hdecl⟩ := ih hvs
    exact ⟨id :: ids, by simp [hid, hids], List.forall_mem_cons.2 ⟨⟨d, hd⟩, hdecl⟩⟩

/-- **A legible case name gives away its declarations**: that of the leaf, and those of the
chosen variants, in order. -/
theorem ids_eq_of_caseName_eq (hg : g.Legible) {t u : Ty} (ht : t.isPlain = true)
    (hu : u.isPlain = true) {i j : DeclId} {d e : Decl} (hti : t.id? = some i)
    (huj : u.id? = some j) (hi : g.decl? i = some d) (hj : g.decl? j = some e)
    {vs ws : List Ty} (hvs : ∀ v ∈ vs, v.isPlain = true ∧ g.isVariant v = true)
    (hws : ∀ w ∈ ws, w.isPlain = true ∧ g.isVariant w = true)
    (h : g.caseName t vs = g.caseName u ws) : i = j ∧ vs.map Ty.id? = ws.map Ty.id? := by
  obtain rfl : i = j :=
    (confusable_of_caseName_eq hti huj h).resolve_right (not_confusable hg hi hj)
  refine ⟨rfl, ?_⟩
  obtain ⟨is, his, hidecl⟩ := exists_ids fun v hv => (hvs v hv).2
  obtain ⟨js, hjs, hjdecl⟩ := exists_ids fun w hw => (hws w hw).2
  have hnocomma : ∀ ids : List DeclId, ∀ cs ∈ ids.map (fun id => (g.simpleName id).toList),
      ',' ∉ cs := by
    intro ids cs hcs hcomma
    obtain ⟨id, -, rfl⟩ := List.mem_map.1 hcs
    exact (plainText_iff.1 (plainText_simpleName hg id) ',' hcomma).2.1 rfl
  -- The leaf has one name in both outlines; what is left are the listings of the variants.
  have houtlines := congrArg (fun s : String => outline 0 s.toList) h
  simp only [outline_caseName hg ht hti (fun v hv => (hvs v hv).1) his,
    outline_caseName hg hu huj (fun w hw => (hws w hw).1) hjs, List.append_cancel_left_eq]
    at houtlines
  rw [his, hjs]
  by_cases hie : is = [] <;> by_cases hje : js = []
  · rw [hie, hje]
  · simp [hie, hje] at houtlines
  · simp [hie, hje] at houtlines
  · rw [if_neg hie, if_neg hje] at houtlines
    have hnames := intercalate_inj (hnocomma is) (hnocomma js) (by simpa using hie)
      (by simpa using hje) (List.append_cancel_left houtlines)
    rw [ids_eq_of_names_eq hg hidecl hjdecl hnames]

end Catalog

end SwitchCoverage
