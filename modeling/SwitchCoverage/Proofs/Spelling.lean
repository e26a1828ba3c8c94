import Mathlib.Data.List.Forall2
import SwitchCoverage.Json.Decl
import SwitchCoverage.Json.Diagnostic
import SwitchCoverage.Json.Pattern

/-!
# Spellings of data

A piece of data can be spelled as a JSON value in several ways.  A record is an object, with
its keys in any order, among others that do not count, and without a key that would hold
`null`; or it is an array of what stands under the keys.  An alternative without content is
its name or an object with that name as its key.  Nested data brings in all of this at every
level.

Here each piece of data gets the set of its spellings, by recursion on the data.  Readers and
writers are then measured against these sets: a reader accepts a value just when it is a
spelling of what is read, and a writer picks one spelling.  So what is written is read back as
it was, container links and all, and reading and writing again changes nothing any more.

## Main definitions

* `Json.Names`, `Json.Tags`, `Json.Holds` — spellings of alternatives and of records.
* `Ty.Spelled`, `Nominal.Spelled`, `Constructor.Spelled`, `Decl.Spelled`, `Pattern.Spelled`,
  `Diagnostic.Spelled` — the spellings of each kind of data.
* `Json.Faithful` — a writer and a reader that agree on a set of spellings.

## Main statements

* `Ty.ofJson?_iff_spelled`, `Pattern.ofJson?_iff_spelled` — the recursive readers accept the
  spellings and nothing else.
* `Json.faithful_data` — **what is written is read back**, for all kinds of data.
-/
namespace SwitchCoverage

/-! ## Shapes of values -/

namespace Json

/-- An alternative without content: its name alone, or `null` under its name. -/
def Names (name : String) (j : Json) : Prop := j = .str name ∨ j = .obj [(name, .null)]

/-- An alternative with content: a value of the given kind under its name, and no other key. -/
def Tags (name : String) (content : Json → Prop) (j : Json) : Prop :=
  ∃ v, j = .obj [(name, v)] ∧ content v

/-- A record with a value of the given kind for each key: an object, in which a missing key
stands for `null`, or an array in the order of the keys. -/
def Holds (fields : List (String × (Json → Prop))) : Json → Prop
  | .obj members => ∀ f ∈ fields, f.2 (member members f.1)
  | .arr items => List.Forall₂ (fun f v => f.2 v) fields items
  | _ => False

/-- A list with an item of the given kind for each entry. -/
def Lists {α : Type} (spelled : α → Json → Prop) (as : List α) (j : Json) : Prop :=
  ∃ js, j = .arr js ∧ List.Forall₂ spelled as js

/-- A text. -/
def IsText (s : String) (j : Json) : Prop := j = .str s

/-- A value that may be missing, which is `null` if it is. -/
def Optional {α : Type} (spelled : α → Json → Prop) : Option α → Json → Prop
  | none, j => j = .null
  | some a, j => spelled a j

variable {α : Type} {j : Json} {name : String}

theorem tagged?_eq_some_iff {v : Json} :
    j.tagged? = some (name, v) ↔ j = .obj [(name, v)] ∨ j = .str name ∧ v = .null := by
  rw [tagged?.eq_def]
  split <;> simp_all [eq_comm]

theorem tagged?_eq_null_iff : j.tagged? = some (name, .null) ↔ j.Names name := by
  rw [tagged?_eq_some_iff, Names]
  tauto

/-- An alternative with content that `null` does not have is an object. -/
theorem tags_iff_tagged? {content : Json → Prop} (hnull : ¬ content .null) :
    j.Tags name content ↔ ∃ v, j.tagged? = some (name, v) ∧ content v := by
  simp only [tagged?_eq_some_iff]
  constructor
  · rintro ⟨v, hj, hv⟩
    exact ⟨v, .inl hj, hv⟩
  · rintro ⟨v, hj | ⟨-, rfl⟩, hv⟩
    · exact ⟨v, hj, hv⟩
    · exact absurd hv hnull

@[simp] theorem holds_obj {fields : List (String × (Json → Prop))}
    {members : List (String × Json)} :
    (obj members).Holds fields ↔ ∀ f ∈ fields, f.2 (member members f.1) := .rfl

@[simp] theorem member_cons (key : String) (v : Json) (members : List (String × Json))
    (name : String) :
    member ((key, v) :: members) name = if name = key then v else member members name := by
  by_cases h : name = key
  · simp [member, h]
  · have hne : (name == key) = false := beq_false_of_ne h
    simp [member, List.lookup_cons, hne, h]

theorem lists_congr {R S : α → Json → Prop} {as : List α} (h : ∀ a ∈ as, ∀ j, R a j ↔ S a j) :
    Lists R as = Lists S as := by
  have hitems : ∀ js, List.Forall₂ R as js ↔ List.Forall₂ S as js := by
    induction as with
    | nil => simp
    | cons a as ih =>
      intro js
      simp only [List.forall₂_cons_left_iff, h a (.head _), ih fun b hb => h b (.tail _ hb)]
  funext j
  simp only [Lists, hitems]

theorem optional_congr {R S : α → Json → Prop} {o : Option α} (h : ∀ a ∈ o, ∀ j, R a j ↔ S a j) :
    Optional R o = Optional S o := by
  cases o with
  | none => rfl
  | some a => exact funext fun j => propext (h a rfl j)

theorem holds_iff_record? {fields : List (String × (Json → Prop))} :
    j.Holds fields ↔ ∃ values, j.record? (fields.map (·.1)) = some values ∧
      List.Forall₂ (fun f v => f.2 v) fields values := by
  cases j with
  | obj members => simp [Holds, record?, List.forall₂_map_right_iff, List.forall₂_same]
  | arr items =>
    simp only [Holds, record?, List.length_map]
    constructor
    · intro h
      exact ⟨items, if_pos h.length_eq.symm, h⟩
    · rintro ⟨values, hvalues, h⟩
      split at hvalues
      · cases hvalues
        exact h
      · cases hvalues
  | _ => simp [Holds, record?]

/-! ## Plain readers -/

theorem str?_eq_some_iff {s : String} : j.str? = some s ↔ j.IsText s := by
  cases j <;> simp [str?, IsText]

theorem bool?_eq_some_iff {b : Bool} : j.bool? = some b ↔ j = .bool b := by
  cases j <;> simp [bool?]

theorem mapM_eq_some_iff {β : Type} {f : α → Option β} {xs : List α} {ys : List β} :
    xs.mapM f = some ys ↔ List.Forall₂ (fun y x => f x = some y) ys xs := by
  induction xs generalizing ys with
  | nil => simp [eq_comm]
  | cons x xs ih =>
    simp only [List.mapM_cons, Option.bind_eq_bind, Option.bind_eq_some_iff, ih, Option.pure_def,
      Option.some.injEq, List.forall₂_cons_right_iff]
    constructor
    · rintro ⟨y, hy, rest, hrest, rfl⟩
      exact ⟨y, rest, hy, hrest, rfl⟩
    · rintro ⟨y, rest, hy, hrest, rfl⟩
      exact ⟨y, hy, rest, hrest, rfl⟩

theorem list?_eq_some_iff {read : Json → Option α} {as : List α} :
    j.list? read = some as ↔ j.Lists (fun a k => read k = some a) as := by
  cases j <;> simp [list?, items?, Lists, mapM_eq_some_iff]

theorem option?_eq_some_iff {read : Json → Option α} (hnull : read .null = none) {o : Option α} :
    j.option? read = some o ↔ j.Optional (fun a k => read k = some a) o := by
  cases o <;> cases j <;> simp [option?, Optional, hnull]

/-- Names of alternatives that differ are read as what they name. -/
theorem alternative?_eq_some_iff {name : α → String} {all : List α} {a : α}
    (hname : Function.Injective name) (hall : ∀ a, a ∈ all) :
    j.alternative? name all = some a ↔ j.Names (name a) := by
  have hfind : ∀ tag, all.find? (name · == tag) = some a ↔ name a = tag := by
    intro tag
    constructor
    · intro h
      simpa using List.find?_some h
    · rintro rfl
      obtain ⟨b, hb⟩ := Option.isSome_iff_exists.1
        (List.find?_isSome.2 ⟨a, hall a, by simp⟩ : (all.find? (name · == name a)).isSome = true)
      have hab : name b = name a := by simpa using List.find?_some hb
      rw [hb, hname hab]
  rw [← tagged?_eq_null_iff, alternative?]
  split
  · next tag htag =>
    rw [htag, hfind, Option.some.injEq, Prod.mk.injEq]
    simp [eq_comm]
  · next htag =>
    simp only [reduceCtorEq, false_iff]
    exact htag (name a)

end Json

/-! ## Spellings of types -/

/-- The spelling of a position: its number, without point or exponent. -/
def DeclId.Spelled (id : DeclId) (j : Json) : Prop := j = .integer (.ofNat id.toNat)

theorem DeclId.ofJson?_iff_spelled {j : Json} {id : DeclId} :
    DeclId.ofJson? j = some id ↔ id.Spelled j := by
  rw [DeclId.ofJson?, Option.map_eq_some_iff, Spelled]
  constructor
  · rintro ⟨n, hn, rfl⟩
    obtain ⟨hn, hlt⟩ := Option.filter_eq_some_iff.1 hn
    have hlt : n < UInt32.size := by simpa using hlt
    rw [DeclId.toNat_ofNat_of_lt hlt]
    unfold Json.nat? at hn
    split at hn <;> simp_all
  · rintro rfl
    refine ⟨id.toNat, ?_, DeclId.ofNat_toNat id⟩
    have hlt : id.toNat < UInt32.size := id.index.toNat_lt
    simp [Json.nat?, hlt]

/-- The parts of a declared type, with arguments and a container of the given kinds. -/
def Nominal.Parts (id : DeclId) (args container : Json → Prop) : Json → Prop :=
  Json.Holds [("def", id.Spelled), ("args", args), ("container", container)]

mutual

/-- The spellings of a type. -/
def Ty.Spelled : Ty → Json → Prop
  | .named id args none, j =>
    j.Tags "Named" (Nominal.Parts id (fun v => ∃ js, v = .arr js ∧ Ty.SpelledAll args js)
      (· = .null))
  | .named id args (some outer), j =>
    j.Tags "Named" (Nominal.Parts id (fun v => ∃ js, v = .arr js ∧ Ty.SpelledAll args js)
      outer.Spelled)
  | .param name, j => j.Tags "Param" (Json.IsText name)
  | .array element, j => j.Tags "Array" element.Spelled
  | .unresolved, j => j.Names "Unresolved"
termination_by structural t => t

/-- The spellings of the types of a list, one after the other. -/
def Ty.SpelledAll : List Ty → List Json → Prop
  | [], [] => True
  | t :: ts, j :: js => t.Spelled j ∧ Ty.SpelledAll ts js
  | _, _ => False
termination_by structural ts => ts

end

/-- The spellings of the parts of a declared type. -/
def Nominal.Spelled (n : Nominal) : Json → Prop :=
  Nominal.Parts n.id (Json.Lists Ty.Spelled n.args) (Json.Optional Ty.Spelled n.container)

namespace Ty

theorem spelledAll_iff_forall₂ {ts : List Ty} {js : List Json} :
    SpelledAll ts js ↔ List.Forall₂ Spelled ts js := by
  induction ts generalizing js with
  | nil => cases js <;> simp [SpelledAll]
  | cons t ts ih => cases js <;> simp [SpelledAll, ih]

/-- A declared type is spelled as an alternative whose content spells its parts. -/
theorem spelled_named {id : DeclId} {args : List Ty} {container : Option Ty} {j : Json} :
    (named id args container).Spelled j ↔
      j.Tags "Named" (Nominal.Spelled ⟨id, args, container⟩) := by
  cases container <;> simp only [Spelled, spelledAll_iff_forall₂] <;> rfl

/-! ### Reading -/

theorem allOfJson?_eq_mapM (js : List Json) : allOfJson? js = js.mapM ofJson? := by
  induction js with
  | nil => simp [allOfJson?]
  | cons k ks ih => simp [allOfJson?, ih]

theorem listOfJson?_eq_some_iff {j : Json} {ts : List Ty} :
    listOfJson? j = some ts ↔ j.Lists (fun t k => ofJson? k = some t) ts := by
  cases j <;> simp [listOfJson?, Json.Lists, allOfJson?_eq_mapM, Json.mapM_eq_some_iff]

theorem ofJson?_null : ofJson? .null = none := by
  rw [ofJson?]
  rfl

theorem optionOfJson?_eq_some_iff {j : Json} {o : Option Ty} :
    optionOfJson? j = some o ↔ j.Optional (fun t k => ofJson? k = some t) o := by
  cases o <;> cases j <;> simp [optionOfJson?, Json.Optional, ofJson?_null]

end Ty

theorem Nominal.ofJson?_iff_holds {j : Json} {n : Nominal} :
    Nominal.ofJson? j = some n ↔ j.Holds [("def", (DeclId.ofJson? · = some n.id)),
      ("args", (Ty.listOfJson? · = some n.args)),
      ("container", (Ty.optionOfJson? · = some n.container))] := by
  obtain ⟨id, args, container⟩ := n
  rw [Json.holds_iff_record?, Nominal.ofJson?]
  split
  · next hrec => simp [hrec, Option.bind_eq_some_iff]
  · next hrec =>
    simp only [reduceCtorEq, false_iff]
    rintro ⟨_, hvalues, _ | ⟨-, _ | ⟨-, _ | ⟨-, ⟨⟩⟩⟩⟩⟩
    exact hrec _ _ _ hvalues

namespace Ty

/-- What a value is read as is seen from its tag; the content is left to other readers. -/
theorem ofJson?_iff_tagged? {j : Json} {t : Ty} : ofJson? j = some t ↔
    match t with
    | .named id args container =>
      ∃ v, j.tagged? = some ("Named", v) ∧ Nominal.ofJson? v = some ⟨id, args, container⟩
    | .param name => j.tagged? = some ("Param", .str name)
    | .array element => ∃ v, j.tagged? = some ("Array", v) ∧ ofJson? v = some element
    | .unresolved => j.tagged? = some ("Unresolved", .null) := by
  have htoTy : ∀ (n : Nominal) id args container,
      n.toTy = .named id args container ↔ n = ⟨id, args, container⟩ := by
    intro n id args container
    cases n
    simp [Nominal.toTy]
  rw [ofJson?]
  split
  · next h => cases t <;> simp [h]
  · next h => cases t <;> simp [h]
  · next h => cases t <;> simp [h]
  · next v h => cases t <;> simp [h, htoTy] <;> simp [Nominal.toTy]
  · next hunresolved hparam harray hnamed =>
    cases t with
    | named id args container => simpa using fun v hv => (hnamed v hv).elim
    | param name => simpa using hparam name
    | array element => simpa using fun v hv => (harray v hv).elim
    | unresolved => simpa using hunresolved

/-- **A type is read from its spellings** and from nothing else. -/
theorem ofJson?_iff_spelled {t : Ty} {j : Json} : ofJson? j = some t ↔ t.Spelled j := by
  induction t using inductionOn generalizing j with
  | named id args container hargs hcontainer =>
    have hparts : ∀ v, Nominal.ofJson? v = some ⟨id, args, container⟩ ↔
        Nominal.Spelled ⟨id, args, container⟩ v := by
      intro v
      simp only [Nominal.ofJson?_iff_holds, DeclId.ofJson?_iff_spelled, listOfJson?_eq_some_iff,
        optionOfJson?_eq_some_iff, Json.lists_congr fun a ha _ => hargs a ha,
        Json.optional_congr fun c hc _ => hcontainer c hc]
      rfl
    rw [spelled_named, Json.tags_iff_tagged? not_false, ofJson?_iff_tagged?]
    simp only [hparts]
  | param name =>
    rw [Spelled, Json.tags_iff_tagged? nofun, ofJson?_iff_tagged?]
    simp [Json.IsText]
  | array element ih =>
    have hnull : ¬ element.Spelled .null := by simp [← ih, ofJson?_null]
    rw [Spelled, Json.tags_iff_tagged? hnull, ofJson?_iff_tagged?]
    simp only [ih]
  | unresolved => rw [Spelled, ← Json.tagged?_eq_null_iff, ofJson?_iff_tagged?]

theorem listOfJson?_iff_spelled {j : Json} {ts : List Ty} :
    listOfJson? j = some ts ↔ j.Lists Spelled ts := by
  simp only [listOfJson?_eq_some_iff, ofJson?_iff_spelled]

theorem optionOfJson?_iff_spelled {j : Json} {o : Option Ty} :
    optionOfJson? j = some o ↔ j.Optional Spelled o := by
  simp only [optionOfJson?_eq_some_iff, ofJson?_iff_spelled]

end Ty

theorem Nominal.ofJson?_iff_spelled {j : Json} {n : Nominal} :
    Nominal.ofJson? j = some n ↔ n.Spelled j := by
  simp only [Nominal.ofJson?_iff_holds, DeclId.ofJson?_iff_spelled, Ty.listOfJson?_iff_spelled,
    Ty.optionOfJson?_iff_spelled]
  rfl

/-! ## Spellings of declarations -/

/-- The spellings of a visibility. -/
def Visibility.Spelled (v : Visibility) : Json → Prop := Json.Names v.text

/-- The spellings of a constructor. -/
def Constructor.Spelled (c : Constructor) : Json → Prop :=
  Json.Holds [("visibility", c.visibility.Spelled), ("is_static", (· = .bool c.static)),
    ("params", Json.Lists Ty.Spelled c.params)]

/-- The spellings of a declaration. -/
def Decl.Spelled (d : Decl) : Json → Prop :=
  Json.Holds [("name", Json.IsText d.name), ("type_params", Json.Lists Json.IsText d.typeParams),
    ("constructors", Json.Lists Constructor.Spelled d.constructors),
    ("supertype", Json.Optional Ty.Spelled d.supertype),
    ("container", Json.Optional DeclId.Spelled d.container)]

theorem Visibility.ofJson?_iff_spelled {j : Json} {v : Visibility} :
    Visibility.ofJson? j = some v ↔ v.Spelled j := by
  refine Json.alternative?_eq_some_iff ?_ ?_
  · intro v w
    cases v <;> cases w <;> simp [text]
  · intro v
    cases v <;> simp [all]

theorem Constructor.ofJson?_iff_holds {j : Json} {c : Constructor} :
    Constructor.ofJson? j = some c ↔ j.Holds [
      ("visibility", (Visibility.ofJson? · = some c.visibility)),
      ("is_static", (Json.bool? · = some c.static)),
      ("params", (Ty.listOfJson? · = some c.params))] := by
  obtain ⟨visibility, static, params⟩ := c
  rw [Json.holds_iff_record?, Constructor.ofJson?]
  split
  · next hrec => simp [hrec, Option.bind_eq_some_iff, -Bool.exists_bool]
  · next hrec =>
    simp only [reduceCtorEq, false_iff]
    rintro ⟨_, hvalues, _ | ⟨-, _ | ⟨-, _ | ⟨-, ⟨⟩⟩⟩⟩⟩
    exact hrec _ _ _ hvalues

theorem Constructor.ofJson?_iff_spelled {j : Json} {c : Constructor} :
    Constructor.ofJson? j = some c ↔ c.Spelled j := by
  simp only [Constructor.ofJson?_iff_holds, Visibility.ofJson?_iff_spelled, Json.bool?_eq_some_iff,
    Ty.listOfJson?_iff_spelled]
  rfl

theorem Decl.ofJson?_iff_holds {j : Json} {d : Decl} :
    Decl.ofJson? j = some d ↔ j.Holds [("name", (Json.str? · = some d.name)),
      ("type_params", (Json.list? Json.str? · = some d.typeParams)),
      ("constructors", (Json.list? Constructor.ofJson? · = some d.constructors)),
      ("supertype", (Ty.optionOfJson? · = some d.supertype)),
      ("container", (Json.option? DeclId.ofJson? · = some d.container))] := by
  obtain ⟨name, typeParams, constructors, supertype, container⟩ := d
  rw [Json.holds_iff_record?, Decl.ofJson?]
  split
  · next hrec => simp [hrec, Option.bind_eq_some_iff]
  · next hrec =>
    simp only [reduceCtorEq, false_iff]
    rintro ⟨_, hvalues, _ | ⟨-, _ | ⟨-, _ | ⟨-, _ | ⟨-, _ | ⟨-, ⟨⟩⟩⟩⟩⟩⟩⟩
    exact hrec _ _ _ _ _ hvalues

theorem Decl.ofJson?_iff_spelled {j : Json} {d : Decl} :
    Decl.ofJson? j = some d ↔ d.Spelled j := by
  have hnull : DeclId.ofJson? .null = none := rfl
  simp only [Decl.ofJson?_iff_holds, Json.str?_eq_some_iff, Json.list?_eq_some_iff,
    Constructor.ofJson?_iff_spelled, Ty.optionOfJson?_iff_spelled,
    Json.option?_eq_some_iff hnull, DeclId.ofJson?_iff_spelled]
  rfl

/-! ## Spellings of patterns -/

namespace Pattern

/-- The record of a pattern, with a target and sub-patterns of the given kinds. -/
def Parts (target parts : Json → Prop) : Json → Prop :=
  Json.Holds [("target", target), ("sub_patterns", parts)]

mutual

/-- The spellings of a pattern. -/
def Spelled : Pattern → Json → Prop
  | .wildcard, j => Parts (· = .null) (· = .null) j
  | .positional parts, j => Parts (· = .null) (fun v => ∃ js, v = .arr js ∧ SpelledAll parts js) j
  | .typed t, j => Parts t.Spelled (· = .null) j
  | .deconstructed t parts, j =>
    Parts t.Spelled (fun v => ∃ js, v = .arr js ∧ SpelledAll parts js) j
termination_by structural p => p

/-- The spellings of the patterns of a list, one after the other. -/
def SpelledAll : List Pattern → List Json → Prop
  | [], [] => True
  | p :: ps, j :: js => p.Spelled j ∧ SpelledAll ps js
  | _, _ => False
termination_by structural ps => ps

end

theorem allOfJson?_eq_mapM (js : List Json) : allOfJson? js = js.mapM ofJson? := by
  induction js with
  | nil => simp [allOfJson?]
  | cons k ks ih => simp [allOfJson?, ih]

theorem ofJson?_iff_holds {j : Json} {p : Pattern} :
    ofJson? j = some p ↔ j.Holds [("target", (Ty.optionOfJson? · = some p.target?)),
      ("sub_patterns", (partsOfJson? · = some p.parts?))] := by
  have hparts : ∀ target parts,
      ofParts target parts = p ↔ target = p.target? ∧ parts = p.parts? := by
    intro target parts
    constructor
    · rintro rfl
      simp
    · rintro ⟨rfl, rfl⟩
      simp
  rw [Json.holds_iff_record?, ofJson?]
  split
  · next hrec => simp [hrec, Option.bind_eq_some_iff, hparts]
  · next hrec =>
    simp only [reduceCtorEq, false_iff]
    rintro ⟨_, hvalues, _ | ⟨-, _ | ⟨-, ⟨⟩⟩⟩⟩
    exact hrec _ _ hvalues

theorem partsOfJson?_null_iff {j : Json} : partsOfJson? j = some none ↔ j = .null := by
  cases j <;> simp [partsOfJson?]

theorem partsOfJson?_some_iff {j : Json} {ps : List Pattern} : partsOfJson? j = some (some ps) ↔
    ∃ js, j = .arr js ∧ List.Forall₂ (fun p k => ofJson? k = some p) ps js := by
  cases j <;> simp [partsOfJson?, allOfJson?_eq_mapM, Json.mapM_eq_some_iff]

mutual

/-- **A pattern is read from its spellings** and from nothing else. -/
theorem ofJson?_iff_spelled (p : Pattern) {j : Json} : ofJson? j = some p ↔ p.Spelled j := by
  rw [ofJson?_iff_holds]
  cases p with
  | wildcard =>
    simp only [target?, parts?, Ty.optionOfJson?_iff_spelled, partsOfJson?_null_iff]
    rfl
  | positional parts =>
    simp only [target?, parts?, Ty.optionOfJson?_iff_spelled, partsOfJson?_some_iff,
      forall₂_iff_spelledAll parts]
    rfl
  | typed t =>
    simp only [target?, parts?, Ty.optionOfJson?_iff_spelled, partsOfJson?_null_iff]
    rfl
  | deconstructed t parts =>
    simp only [target?, parts?, Ty.optionOfJson?_iff_spelled, partsOfJson?_some_iff,
      forall₂_iff_spelledAll parts]
    rfl
termination_by structural p

theorem forall₂_iff_spelledAll (ps : List Pattern) {js : List Json} :
    List.Forall₂ (fun p k => ofJson? k = some p) ps js ↔ SpelledAll ps js := by
  cases ps with
  | nil => cases js <;> simp [SpelledAll]
  | cons p ps =>
    cases js <;> simp [SpelledAll, ofJson?_iff_spelled p, forall₂_iff_spelledAll ps]
termination_by structural ps

end

end Pattern

/-! ## Spellings of diagnostics -/

/-- The spellings of a report.  Nothing is asked of its texts and lists. -/
def Diagnostic.Spelled (d : Diagnostic) : Json → Prop :=
  Json.Holds [("code", Json.Names d.code.text), ("severity", Json.Names d.severity.name),
    ("kind", Json.Names d.finding.name), ("main_message", Json.IsText d.headline),
    ("detail_message", Json.IsText d.note), ("matched", Json.Lists Json.IsText d.matched),
    ("missing", Json.Lists Json.IsText d.missing),
    ("suggestions", Json.Lists Json.IsText d.suggestions)]

theorem Code.ofJson?_iff_names {j : Json} {c : Code} : Code.ofJson? j = some c ↔ j.Names c.text :=
  Json.alternative?_eq_some_iff (fun c c' => by cases c <;> cases c' <;> simp [text]) mem_all

theorem Severity.ofJson?_iff_names {j : Json} {s : Severity} :
    Severity.ofJson? j = some s ↔ j.Names s.name :=
  Json.alternative?_eq_some_iff (fun s s' => by cases s <;> cases s' <;> simp [name])
    fun s => by cases s <;> simp [all]

theorem Finding.ofJson?_iff_names {j : Json} {f : Finding} :
    Finding.ofJson? j = some f ↔ j.Names f.name :=
  Json.alternative?_eq_some_iff (fun f f' => by cases f <;> cases f' <;> simp [name])
    fun f => by cases f <;> simp [all]

theorem Diagnostic.ofJson?_iff_holds {j : Json} {d : Diagnostic} :
    Diagnostic.ofJson? j = some d ↔ j.Holds [("code", (Code.ofJson? · = some d.code)),
      ("severity", (Severity.ofJson? · = some d.severity)),
      ("kind", (Finding.ofJson? · = some d.finding)),
      ("main_message", (Json.str? · = some d.headline)),
      ("detail_message", (Json.str? · = some d.note)),
      ("matched", (Json.list? Json.str? · = some d.matched)),
      ("missing", (Json.list? Json.str? · = some d.missing)),
      ("suggestions", (Json.list? Json.str? · = some d.suggestions))] := by
  obtain ⟨code, severity, finding, headline, note, matched, missing, suggestions⟩ := d
  rw [Json.holds_iff_record?, Diagnostic.ofJson?]
  split
  · next hrec => simp [hrec, Option.bind_eq_some_iff]
  · next hrec =>
    simp only [reduceCtorEq, false_iff]
    rintro ⟨_, hvalues, _ | ⟨-, _ | ⟨-, _ | ⟨-, _ | ⟨-, _ | ⟨-, _ | ⟨-, _ | ⟨-, _ | ⟨-, ⟨⟩⟩⟩⟩⟩⟩⟩⟩⟩⟩
    exact hrec _ _ _ _ _ _ _ _ hvalues

theorem Diagnostic.ofJson?_iff_spelled {j : Json} {d : Diagnostic} :
    Diagnostic.ofJson? j = some d ↔ d.Spelled j := by
  simp only [Diagnostic.ofJson?_iff_holds, Code.ofJson?_iff_names, Severity.ofJson?_iff_names,
    Finding.ofJson?_iff_names, Json.str?_eq_some_iff, Json.list?_eq_some_iff]
  rfl

/-! ## Writing -/

namespace Json

theorem lists_arr {α : Type} {spelled : α → Json → Prop} {write : α → Json} {as : List α}
    (h : ∀ a ∈ as, spelled a (write a)) : (Json.arr (as.map write)).Lists spelled as := by
  refine ⟨as.map write, rfl, ?_⟩
  rw [List.forall₂_map_right_iff, List.forall₂_same]
  exact h

theorem optional_ofOption {α : Type} {spelled : α → Json → Prop} {write : α → Json}
    {o : Option α} (h : ∀ a ∈ o, spelled a (write a)) :
    (ofOption write o).Optional spelled o := by
  cases o with
  | none => rfl
  | some a => exact h a rfl

theorem lists_ofStrings (texts : List String) : (ofStrings texts).Lists IsText texts :=
  lists_arr fun _ _ => rfl

end Json

theorem Ty.toJsonAll_eq_map (ts : List Ty) : toJsonAll ts = ts.map toJson := by
  induction ts with
  | nil => rfl
  | cons t ts ih => simp [toJsonAll, ih]

theorem Ty.toJson_named (id : DeclId) (args : List Ty) (container : Option Ty) :
    (named id args container).toJson = .obj [("Named", Nominal.toJson ⟨id, args, container⟩)] := by
  cases container <;> simp only [toJson] <;> rfl

/-- The written parts of a declared type spell it, if those of its parts do. -/
theorem Nominal.spelled_toJson_of {n : Nominal} (hargs : ∀ a ∈ n.args, a.Spelled a.toJson)
    (hcontainer : ∀ c ∈ n.container, c.Spelled c.toJson) : n.Spelled n.toJson := by
  have hid : n.id.Spelled n.id.toJson := rfl
  have hlist := Json.lists_arr hargs
  have hoption := Json.optional_ofOption hcontainer
  simp [Spelled, Parts, toJson, record, Ty.toJsonAll_eq_map, hid, hlist, hoption]

theorem Ty.spelled_toJson (t : Ty) : t.Spelled t.toJson := by
  induction t using inductionOn with
  | named id args container hargs hcontainer =>
    rw [spelled_named, toJson_named]
    exact ⟨_, rfl, Nominal.spelled_toJson_of hargs hcontainer⟩
  | param name => exact ⟨_, rfl, rfl⟩
  | array element ih => exact ⟨_, rfl, ih⟩
  | unresolved => exact .inl rfl

theorem Nominal.spelled_toJson (n : Nominal) : n.Spelled n.toJson :=
  spelled_toJson_of (fun a _ => a.spelled_toJson) fun c _ => c.spelled_toJson

theorem Constructor.spelled_toJson (c : Constructor) : c.Spelled c.toJson := by
  have hparams : (Json.arr (c.params.map Ty.toJson)).Lists Ty.Spelled c.params :=
    Json.lists_arr fun t _ => t.spelled_toJson
  simp [Spelled, toJson, Visibility.Spelled,
    Visibility.toJson, Json.Names, Ty.toJsonAll_eq_map, hparams]

theorem Decl.spelled_toJson (d : Decl) : d.Spelled d.toJson := by
  have hconstructors : (Json.arr (d.constructors.map Constructor.toJson)).Lists
      Constructor.Spelled d.constructors := Json.lists_arr fun c _ => c.spelled_toJson
  have hsupertype : (Json.ofOption Ty.toJson d.supertype).Optional Ty.Spelled d.supertype :=
    Json.optional_ofOption fun t _ => t.spelled_toJson
  have hcontainer : (Json.ofOption DeclId.toJson d.container).Optional DeclId.Spelled
      d.container := Json.optional_ofOption fun _ _ => rfl
  simp [Spelled, toJson, Json.IsText,
    Json.lists_ofStrings, hconstructors, hsupertype, hcontainer]

mutual

theorem Pattern.spelled_toJson (p : Pattern) : p.Spelled p.toJson := by
  cases p with
  | wildcard => simp [Spelled, Parts, toJson, record]
  | positional parts =>
    simp [Spelled, Parts, toJson, record, spelledAll_toJsonAll parts]
  | typed t =>
    simp [Spelled, Parts, toJson, record, t.spelled_toJson]
  | deconstructed t parts =>
    simp [Spelled, Parts, toJson, record, t.spelled_toJson, spelledAll_toJsonAll parts]
termination_by structural p

theorem Pattern.spelledAll_toJsonAll (ps : List Pattern) : SpelledAll ps (toJsonAll ps) := by
  cases ps with
  | nil => trivial
  | cons p ps => exact ⟨p.spelled_toJson, spelledAll_toJsonAll ps⟩
termination_by structural ps

end

theorem Diagnostic.spelled_toJson (d : Diagnostic) : d.Spelled d.toJson := by
  simp [Spelled, toJson, members, Json.IsText,
    Json.lists_ofStrings, Json.Names, Code.toJson, Severity.toJson, Finding.toJson]

/-! ## Round trips -/

/-- A writer and a reader agree on how data is spelled. -/
structure Json.Faithful {α : Type} (write : α → Json) (read : Json → Option α)
    (spelled : α → Json → Prop) : Prop where
  /-- What is written is read back as it was. -/
  read_write : ∀ a, read (write a) = some a
  /-- A value is read as what it spells, and if it spells nothing it is not read. -/
  read_iff : ∀ j a, read j = some a ↔ spelled a j
  /-- Whatever the spelling, what is read from it is read again from what is then written. -/
  reread : ∀ j a, read j = some a → read (write a) = some a
  /-- So reading and writing a second time gives what it gave the first time. -/
  rewrite : ∀ j k, (read j).map write = some k → (read k).map write = some k

theorem Json.Faithful.of_spelled {α : Type} {write : α → Json} {read : Json → Option α}
    {spelled : α → Json → Prop} (hread : ∀ {j a}, read j = some a ↔ spelled a j)
    (hwrite : ∀ a, spelled a (write a)) : Faithful write read spelled where
  read_write a := hread.2 (hwrite a)
  read_iff _ _ := hread
  reread _ a _ := hread.2 (hwrite a)
  rewrite j k h := by
    obtain ⟨a, -, rfl⟩ := Option.map_eq_some_iff.1 h
    rw [hread.2 (hwrite a), Option.map_some]

/-- **What is written is read back.**  For each kind of data that is exchanged, reading undoes
writing exactly, reading accepts the spellings of the data and nothing else, and data that is
read from any spelling comes back from its written form. -/
theorem Json.faithful_data :
    Faithful Ty.toJson Ty.ofJson? Ty.Spelled ∧
    Faithful Nominal.toJson Nominal.ofJson? Nominal.Spelled ∧
    Faithful Decl.toJson Decl.ofJson? Decl.Spelled ∧
    Faithful Constructor.toJson Constructor.ofJson? Constructor.Spelled ∧
    Faithful Pattern.toJson Pattern.ofJson? Pattern.Spelled ∧
    Faithful Diagnostic.toJson Diagnostic.ofJson? Diagnostic.Spelled :=
  ⟨.of_spelled Ty.ofJson?_iff_spelled Ty.spelled_toJson,
    .of_spelled Nominal.ofJson?_iff_spelled Nominal.spelled_toJson,
    .of_spelled Decl.ofJson?_iff_spelled Decl.spelled_toJson,
    .of_spelled Constructor.ofJson?_iff_spelled Constructor.spelled_toJson,
    .of_spelled (Pattern.ofJson?_iff_spelled _) Pattern.spelled_toJson,
    .of_spelled Diagnostic.ofJson?_iff_spelled Diagnostic.spelled_toJson⟩

end SwitchCoverage
