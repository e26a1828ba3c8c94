import SwitchCoverage.Proofs.Legible
import SwitchCoverage.Sample
import SwitchCoverage.Ty.Equality

/-!
# Names that can be read back

Cases are told apart by the names of types, so it matters whether a name says which type it is the
name of.  A name does not show what a type is declared in.  Apart from that it can be read back, if
declarations and type parameters are called by words, texts without the characters that punctuate
names, and no two of them by the same word.

A name is read from the left.  It starts with a word, or with `?`, and that ends where the first
bracket or comma stands.  Arguments between angle brackets come next, each of which is a name again,
and then a pair of square brackets for each array.  These pairs stand at the end of a name, though
the arrays are the outermost part of the type.  So what is read is a name together with all pairs
that follow it, up to a comma, a closing angle bracket or the end of the text.

## Main definitions

* `isWord` — texts without punctuation.
* `Catalog.Readable` — each declaration is called by a word of its own.
* `Catalog.Writable` — types that a name can be read back to.
* `Catalog.Recoverable` — a type that can be read off any text that starts with its name.

## Main statements

* `Catalog.eq_of_append_eq` — names that start with a word are read word first.
* `Catalog.Writable.recoverable` — a type can be read off any text that starts with its name.
* `Catalog.eq_of_display_eq` — **types with the same name are equal.**
-/
namespace SwitchCoverage

/-! ## Words and types of words -/

/-- The characters that punctuate the names of types. -/
def punctuation : List Char := ['<', '>', ',', '[', ']', '?', ' ']

/-- Whether a text has no punctuation. -/
def isWord (s : String) : Bool := s.toList.all fun c => !punctuation.contains c

/-- Each declaration is called by a word of its own. -/
structure Catalog.Readable (g : Catalog) : Prop where
  /-- No two declarations show the same name. -/
  distinct : (g.decls.toList.map fun d => dropArityMark d.name).Nodup
  /-- The shown names are words. -/
  word : ∀ d ∈ g.decls.toList, isWord (dropArityMark d.name) = true

/-- A type that does not say what it or a part of it is declared in, that mentions declarations of
the catalog, and whose type parameters are called by words, and not like declarations. -/
structure Catalog.Writable (g : Catalog) (t : Ty) : Prop where
  /-- There are no links to other types. -/
  linkless : t.erase = t
  /-- The declarations exist. -/
  declared : ∀ id ∈ t.mentions, ∃ d, g.decl? id = some d
  /-- The parameters are called by words. -/
  word : ∀ name ∈ t.paramNames, isWord name = true
  /-- No parameter is called like a declaration. -/
  fresh : ∀ name ∈ t.paramNames, ∀ d ∈ g.decls.toList, dropArityMark d.name ≠ name

namespace Catalog.Writable

variable {g : Catalog}

theorem container_eq_none {id : DeclId} {args : List Ty} {container : Option Ty}
    (h : g.Writable (.named id args container)) : container = none := by
  have hlinkless := h.linkless
  simp only [Ty.erase, Ty.named.injEq] at hlinkless
  exact hlinkless.2.2.symm

theorem decl {id : DeclId} {args : List Ty} {container : Option Ty}
    (h : g.Writable (.named id args container)) : ∃ d, g.decl? id = some d := by
  refine h.declared id ?_
  rw [Ty.mentions_named]
  exact .head _

/-- The arguments of such a type are such types. -/
theorem of_mem_args {id : DeclId} {args : List Ty} {container : Option Ty}
    (h : g.Writable (.named id args container)) : ∀ a ∈ args, g.Writable a := by
  intro a ha
  have hmentions : ∀ i ∈ a.mentions, i ∈ (Ty.named id args container).mentions := by
    intro i hi
    rw [Ty.mentions_named]
    exact .tail _ (List.mem_append_left _ (List.mem_flatMap.2 ⟨a, ha, hi⟩))
  have hparams : ∀ name ∈ a.paramNames, name ∈ (Ty.named id args container).paramNames := by
    intro name hname
    exact Ty.mem_paramNames_named.2 (.inl ⟨a, ha, hname⟩)
  have hargs : args.map Ty.erase = args := by
    have hlinkless := h.linkless
    simp only [Ty.erase, Ty.eraseAll_eq_map, Ty.named.injEq] at hlinkless
    exact hlinkless.2.1
  exact {
    linkless := List.map_inj_left.1 (hargs.trans (List.map_id args).symm) a ha
    declared := fun i hi => h.declared i (hmentions i hi)
    word := fun name hname => h.word name (hparams name hname)
    fresh := fun name hname => h.fresh name (hparams name hname) }

theorem element {e : Ty} (h : g.Writable (.array e)) : g.Writable e where
  linkless := by
    have hlinkless := h.linkless
    simpa [Ty.erase] using hlinkless
  declared := h.declared
  word := h.word
  fresh := h.fresh

end Catalog.Writable

/-! ## Reading -/

/-- Whether a character ends the first word of a name. -/
def endsWord (c : Char) : Bool := ['<', '>', ',', '[', ' '].contains c

/-- A text that can follow a name and its pairs of square brackets: it is empty, or it goes on with
the next name or closes the arguments. -/
def Closes (s : String) : Prop := ∀ c ∈ s.toList.head?, c = ',' ∨ c = '>'

theorem closes_empty : Closes "" := by simp [Closes]

theorem closes_continued_append (xs : List String) (s : String) : Closes (continued xs ++ s) := by
  cases xs <;> simp [Closes, continued]

/-- Pairs of square brackets. -/
def pairs : Nat → String
  | 0 => ""
  | n + 1 => "[]" ++ pairs n

/-- What comes after the arguments of a type does not open any. -/
theorem head?_pairs_append {s : String} (hs : Closes s) (n : Nat) :
    ∀ c ∈ (pairs n ++ s).toList.head?, c = '[' ∨ c = ',' ∨ c = '>' := by
  cases n with
  | zero =>
    intro c hc
    exact .inr (hs c (by simpa [pairs] using hc))
  | succ n => simp [pairs]

theorem not_closes_pairs_append (n : Nat) (s : String) : ¬ Closes (pairs (n + 1) ++ s) := by
  simp [Closes, pairs]

/-- All pairs of square brackets are read. -/
theorem pairs_append_inj {m n : Nat} {r s : String} (hr : Closes r) (hs : Closes s)
    (h : pairs m ++ r = pairs n ++ s) : m = n ∧ r = s := by
  induction m generalizing n with
  | zero =>
    cases n with
    | zero => simpa [pairs] using h
    | succ n =>
      rw [pairs, String.empty_append] at h
      exact absurd (h ▸ hr) (not_closes_pairs_append n s)
  | succ m ih =>
    cases n with
    | zero =>
      rw [pairs.eq_1, String.empty_append] at h
      exact absurd (h ▸ hs) (not_closes_pairs_append m r)
    | succ n =>
      rw [pairs, pairs, String.append_assoc, String.append_assoc, String.append_right_inj] at h
      obtain ⟨hmn, hrs⟩ := ih h
      exact ⟨congrArg (· + 1) hmn, hrs⟩

namespace Ty

/-- Whether a type is an array. -/
def isArray : Ty → Bool
  | .array _ => true
  | _ => false

/-- Arrays of arrays of a type, down to the given depth. -/
def arrays : Nat → Ty → Ty
  | 0, t => t
  | n + 1, t => arrays n (.array t)

end Ty

namespace Catalog

variable {g : Catalog}

theorem display_array_append (g : Catalog) (e : Ty) (n : Nat) (s : String) :
    g.display (.array e) ++ (pairs n ++ s) = g.display e ++ (pairs (n + 1) ++ s) := by
  simp [display, label, Label.text, pairs, String.append_assoc]

/-- A type can be read off a text that starts with its name and some pairs of square brackets, if
what follows them closes the name: no other type has a text like that. -/
def Recoverable (g : Catalog) (t : Ty) : Prop :=
  ∀ (u : Ty) (m n : Nat) (r s : String), g.Writable u → Closes r → Closes s →
    g.display t ++ (pairs m ++ r) = g.display u ++ (pairs n ++ s) →
    t.arrays m = u.arrays n ∧ r = s

/-- Arguments are read one after the other, up to the bracket that closes them. -/
theorem continued_append_inj {as bs : List Ty} (has : ∀ a ∈ as, g.Recoverable a)
    (hbs : ∀ b ∈ bs, g.Writable b) {r s : String}
    (h : continued (as.map g.display) ++ r = continued (bs.map g.display) ++ s) :
    as = bs ∧ r = s := by
  induction as generalizing bs with
  | nil =>
    cases bs with
    | nil => simpa [continued] using h
    | cons b bs =>
      have hchars := congrArg String.toList h
      simp [continued] at hchars
  | cons a as ih =>
    cases bs with
    | nil =>
      have hchars := congrArg String.toList h
      simp [continued] at hchars
    | cons b bs =>
      obtain ⟨ha, has⟩ := List.forall_mem_cons.1 has
      obtain ⟨hb, hbs⟩ := List.forall_mem_cons.1 hbs
      have htail : g.display a ++ (pairs 0 ++ (continued (as.map g.display) ++ r)) =
          g.display b ++ (pairs 0 ++ (continued (bs.map g.display) ++ s)) := by
        simpa [continued, pairs, String.append_assoc] using h
      obtain ⟨hab, hrest⟩ := ha b 0 0 _ _ hb (closes_continued_append _ _)
        (closes_continued_append _ _) htail
      obtain ⟨hargs, hrs⟩ := ih has hbs hrest
      exact ⟨by rw [show a = b from hab, hargs], hrs⟩

/-- Whether there are arguments is seen at the first character. -/
theorem bracketed_append_inj {as bs : List Ty} (has : ∀ a ∈ as, g.Recoverable a)
    (hbs : ∀ b ∈ bs, g.Writable b) {r s : String} (hr : ∀ c ∈ r.toList.head?, c ≠ '<')
    (hs : ∀ c ∈ s.toList.head?, c ≠ '<')
    (h : bracketed (as.map g.display) ++ r = bracketed (bs.map g.display) ++ s) :
    as = bs ∧ r = s := by
  cases as with
  | nil =>
    cases bs with
    | nil => simpa [bracketed] using h
    | cons b bs =>
      rw [List.map_nil, List.map_cons, bracketed_cons] at h
      have hopen : '<' ∈ r.toList.head? := by simpa [bracketed] using congrArg (·.toList.head?) h
      exact absurd rfl (hr '<' hopen)
  | cons a as =>
    cases bs with
    | nil =>
      rw [List.map_nil, List.map_cons, bracketed_cons] at h
      have hopen : '<' ∈ s.toList.head? := by
        simpa [bracketed] using congrArg (·.toList.head?) h.symm
      exact absurd rfl (hs '<' hopen)
    | cons b bs =>
      simp only [List.map_cons, bracketed_cons, String.append_assoc, String.append_right_inj] at h
      refine continued_append_inj has hbs ?_
      simp only [List.map_cons, continued, String.append_assoc, h]

/-! ## The first word -/

theorem not_endsWord_of_isWord {s : String} (h : isWord s = true) :
    ∀ c ∈ s.toList, (!endsWord c) = true := by
  intro c hc
  have hword : c ∉ punctuation := by simpa using List.all_eq_true.1 h c hc
  simp only [punctuation, List.mem_cons, not_or] at hword
  simp [endsWord, hword]

theorem isWord_simpleName (hg : g.Readable) {id : DeclId} (h : ∃ d, g.decl? id = some d) :
    isWord (g.simpleName id) = true := by
  obtain ⟨d, hd⟩ := h
  rw [simpleName, hd]
  exact hg.word d (mem_decls_of_decl? hd)

/-- The name of a type that is no array starts with a word, or with `?`. -/
theorem not_endsWord_head (hg : g.Readable) {t : Ty} (ht : g.Writable t)
    (harray : t.isArray = false) : ∀ c ∈ (g.label t).head.toList, (!endsWord c) = true := by
  cases t with
  | named id args container =>
    rw [label_head_of_id? rfl]
    exact not_endsWord_of_isWord (isWord_simpleName hg ht.decl)
  | param name => exact not_endsWord_of_isWord (ht.word name (.head _))
  | array element => cases harray
  | unresolved => simp [label, endsWord]

/-- What comes after the first word of a name ends it. -/
theorem endsWord_head?_suffix_append (g : Catalog) (t : Ty) (n : Nat) {s : String}
    (hs : Closes s) :
    ∀ c ∈ ((g.label t).suffix ++ (pairs n ++ s)).toList.head?, (!endsWord c) = false := by
  refine forall_head?_append (fun c hc => ?_) fun c hc => ?_
  · rcases follows_suffix g t c hc with rfl | rfl <;> rfl
  · rcases head?_pairs_append hs n c hc with rfl | rfl | rfl <;> rfl

/-- The first word is read, and what is left are the arguments and all that follows them. -/
theorem label_eq_of_append_eq (hg : g.Readable) {t u : Ty} (ht : g.Writable t) (hu : g.Writable u)
    (htarray : t.isArray = false) (huarray : u.isArray = false) {m n : Nat} {r s : String}
    (hr : Closes r) (hs : Closes s)
    (h : g.display t ++ (pairs m ++ r) = g.display u ++ (pairs n ++ s)) :
    (g.label t).head = (g.label u).head ∧
      (g.label t).suffix ++ (pairs m ++ r) = (g.label u).suffix ++ (pairs n ++ s) := by
  simp only [display, Label.text, String.append_assoc] at h
  exact append_inj_of_stop (not_endsWord_head hg ht htarray) (not_endsWord_head hg hu huarray)
    (endsWord_head?_suffix_append g t m hr) (endsWord_head?_suffix_append g u n hs) h

theorem ne_questionMark_of_isWord {s : String} (h : isWord s = true) : s ≠ "?" := by
  intro heq
  rw [heq] at h
  exact absurd h (by decide)

theorem Writable.simpleName_ne {id : DeclId} {args : List Ty} {container : Option Ty}
    {name : String} (ht : g.Writable (.named id args container)) (hu : g.Writable (.param name)) :
    g.simpleName id ≠ name := by
  obtain ⟨d, hd⟩ := ht.decl
  rw [simpleName, hd]
  exact hu.fresh name (.head _) d (mem_decls_of_decl? hd)

/-- The first word says what kind of type follows, and which declaration or parameter it is. -/
theorem eq_or_named_of_head_eq (hg : g.Readable) {t u : Ty} (ht : g.Writable t)
    (hu : g.Writable u) (htarray : t.isArray = false) (huarray : u.isArray = false)
    (h : (g.label t).head = (g.label u).head) :
    (∃ id as bs, t = .named id as none ∧ u = .named id bs none) ∨ t = u := by
  cases t with
  | named i as container =>
    obtain rfl := ht.container_eq_none
    cases u with
    | named j bs container =>
      obtain rfl := hu.container_eq_none
      obtain ⟨⟨d, hd⟩, e, he⟩ := And.intro ht.decl hu.decl
      obtain rfl : i = j := eq_of_simpleName_eq hg.distinct hd he h
      exact .inl ⟨i, as, bs, rfl, rfl⟩
    | param name => exact absurd h (ht.simpleName_ne hu)
    | array element => cases huarray
    | unresolved => exact absurd h (ne_questionMark_of_isWord (isWord_simpleName hg ht.decl))
  | param name =>
    have hword : isWord name = true := ht.word name (.head _)
    cases u with
    | named j bs container =>
      rw [label_head_of_id? (t := .named j bs container) rfl] at h
      exact absurd h.symm (hu.simpleName_ne ht)
    | param other => exact .inr (congrArg Ty.param h)
    | array element => cases huarray
    | unresolved => exact absurd h (ne_questionMark_of_isWord hword)
  | array element => cases htarray
  | unresolved =>
    cases u with
    | named j bs container =>
      rw [label_head_of_id? (t := .named j bs container) rfl] at h
      exact absurd h.symm (ne_questionMark_of_isWord (isWord_simpleName hg hu.decl))
    | param name => exact absurd h.symm (ne_questionMark_of_isWord (hu.word name (.head _)))
    | array element => cases huarray
    | unresolved => exact .inr rfl

/-! ## Whole names -/

/-- Two names that start with a word are read word first, then argument by argument, and then the
pairs of square brackets. -/
theorem eq_of_append_eq (hg : g.Readable) {t u : Ty} (ht : g.Writable t) (hu : g.Writable u)
    (htarray : t.isArray = false) (huarray : u.isArray = false)
    (hargs : ∀ a ∈ t.args, g.Recoverable a) {m n : Nat} {r s : String} (hr : Closes r)
    (hs : Closes s) (h : g.display t ++ (pairs m ++ r) = g.display u ++ (pairs n ++ s)) :
    t = u ∧ m = n ∧ r = s := by
  obtain ⟨hhead, hrest⟩ := label_eq_of_append_eq hg ht hu htarray huarray hr hs h
  rcases eq_or_named_of_head_eq hg ht hu htarray huarray hhead with
    ⟨id, as, bs, rfl, rfl⟩ | rfl
  · simp only [label, displayAll_eq_map] at hrest
    have hopen : ∀ {k : Nat} {x : String}, Closes x →
        ∀ c ∈ (pairs k ++ x).toList.head?, c ≠ '<' := by
      intro k x hx c hc
      rcases head?_pairs_append hx k c hc with rfl | rfl | rfl <;> decide
    obtain ⟨has, hpairs⟩ : as = bs ∧ pairs m ++ r = pairs n ++ s :=
      bracketed_append_inj hargs hu.of_mem_args (hopen hr) (hopen hs) hrest
    exact ⟨by rw [has], pairs_append_inj hr hs hpairs⟩
  · exact ⟨rfl, pairs_append_inj hr hs ((String.append_right_inj _).1 hrest)⟩

/-- A type that is no array can be read off, if its arguments can be.  The other type may still be
an array: its element is asked then, with one more pair of square brackets after it. -/
theorem recoverable_of_args (hg : g.Readable) {t : Ty} (ht : g.Writable t)
    (harray : t.isArray = false) (hargs : ∀ a ∈ t.args, g.Recoverable a) : g.Recoverable t := by
  intro u m n r s hu hr hs h
  have hbase : ∀ {u : Ty} {n : Nat}, g.Writable u → u.isArray = false →
      g.display t ++ (pairs m ++ r) = g.display u ++ (pairs n ++ s) →
      t.arrays m = u.arrays n ∧ r = s := by
    intro u n hu huarray h
    obtain ⟨htu, hmn, hrs⟩ := eq_of_append_eq hg ht hu harray huarray hargs hr hs h
    exact ⟨by rw [htu, hmn], hrs⟩
  induction u using Ty.inductionOn generalizing n with
  | named id args container _ _ => exact hbase hu rfl h
  | param name => exact hbase hu rfl h
  | array element ih =>
    rw [display_array_append] at h
    exact ih (n + 1) hu.element h
  | unresolved => exact hbase hu rfl h

/-- A type can be read off any text that starts with its name. -/
theorem Writable.recoverable (hg : g.Readable) {t : Ty} (ht : g.Writable t) :
    g.Recoverable t := by
  induction t using Ty.inductionOn with
  | named id args container hargs _ =>
    exact recoverable_of_args hg ht rfl fun a ha => hargs a ha (ht.of_mem_args a ha)
  | param name => exact recoverable_of_args hg ht rfl (by simp [Ty.args])
  | array element ih =>
    intro u m n r s hu hr hs h
    rw [display_array_append] at h
    exact ih ht.element u (m + 1) n r s hu hr hs h
  | unresolved => exact recoverable_of_args hg ht rfl (by simp [Ty.args])

/-- **Types with the same name are equal.** -/
theorem eq_of_display_eq (hg : g.Readable) {t u : Ty} (ht : g.Writable t) (hu : g.Writable u)
    (h : g.display t = g.display u) : t = u := by
  have htexts : g.display t ++ (pairs 0 ++ "") = g.display u ++ (pairs 0 ++ "") := by rw [h]
  exact (ht.recoverable hg u 0 0 "" "" hu closes_empty closes_empty htexts).1

end Catalog

namespace Sample

/-- Results with rows of numbers, or HTTP errors with an unknown response. -/
def rowsOrErrors : Ty :=
  ids.resultOf (.array (.array (.plain ids.int32))) (.array (ids.httpErrorOf (.param "T")))

theorem readable_catalog : catalog.Readable := ⟨by decide, by decide⟩

theorem writable_rowsOrErrors : catalog.Writable rowsOrErrors where
  linkless := rfl
  declared := by
    have hdeclared : ∀ id ∈ rowsOrErrors.mentions, (catalog.decl? id).isSome = true := by decide
    exact fun id hid => Option.isSome_iff_exists.1 (hdeclared id hid)
  word := by decide
  fresh := by decide

end Sample

/-- No other type is called like this one. -/
theorem Catalog.eq_rowsOrErrors_of_display_eq :
    Sample.catalog.Readable ∧ Sample.catalog.Writable Sample.rowsOrErrors ∧
    Sample.catalog.display Sample.rowsOrErrors = "Result<Int32[][], HttpError<T>[]>" ∧
    ∀ t, Sample.catalog.Writable t →
      Sample.catalog.display t = "Result<Int32[][], HttpError<T>[]>" →
      t = Sample.rowsOrErrors := by
  have hname : Sample.catalog.display Sample.rowsOrErrors =
      "Result<Int32[][], HttpError<T>[]>" := by decide
  refine ⟨Sample.readable_catalog, Sample.writable_rowsOrErrors, hname, ?_⟩
  intro t ht h
  exact eq_of_display_eq Sample.readable_catalog ht Sample.writable_rowsOrErrors
    (h.trans hname.symm)

end SwitchCoverage
