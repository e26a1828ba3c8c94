import SwitchCoverage.Proofs.Scope
import SwitchCoverage.Proofs.Suffix

/-!
# Arguments of enclosing types

A type that is declared in another shows the arguments of that other.  Several types around it can
have arguments, and then one of them has to be chosen.  Type parameters are looked up from the
inside out, so one would expect the arguments of the innermost such type, the nearest one.  But
what a type shows is asked of the type around it first, and that one asks further outward before it
looks at its own arguments.  So the outermost type that has arguments decides.

The two rules differ only where two types around a type have arguments.  Wherever that is the case,
there are arguments that make them differ.

## Main definitions

* `outermostArgs` — the arguments of the outermost level that has any.
* `Ty.nearestArgs` — the arguments of the innermost type around a type that has any.
* `Ty.shape` — the declarations of the levels, and how many arguments each has.
* `Catalog.ShowsNearest` — a type that shows the arguments of the nearest type around it.

## Main statements

* `Catalog.suffix_outermost` — the outermost level that has arguments decides.
* `Catalog.display_outermost` — **what is shown, and for which types it is the nearest.**
-/
namespace SwitchCoverage

/-- Whether a level has arguments. -/
def Level.isGeneric (l : Level) : Bool := !l.args.isEmpty

theorem Level.isGeneric_eq_false_iff {l : Level} : l.isGeneric = false ↔ l.args = [] := by
  simp [isGeneric]

theorem Level.isGeneric_eq_decide (l : Level) : l.isGeneric = decide (0 < l.args.length) := by
  cases hargs : l.args <;> simp [isGeneric, hargs]

/-! ## The outermost arguments -/

/-- The arguments of the outermost level that has any; none if no level has. -/
def outermostArgs (levels : List Level) : List Ty :=
  ((levels.filter Level.isGeneric).getLast?.map (·.args)).getD []

theorem outermostArgs_eq_nil_iff {ls : List Level} :
    outermostArgs ls = [] ↔ ls.filter Level.isGeneric = [] := by
  rw [outermostArgs]
  cases hlast : (ls.filter Level.isGeneric).getLast? with
  | none => simpa using hlast
  | some l =>
    have hmem : l ∈ ls.filter Level.isGeneric := List.mem_of_getLast? hlast
    have hgeneric : l.args ≠ [] := by
      simpa [Level.isGeneric] using (List.mem_filter.1 hmem).2
    simp [hgeneric, List.ne_nil_of_mem hmem]

/-- Further outward comes first. -/
theorem outermostArgs_append (inner outer : List Level) : outermostArgs (inner ++ outer) =
    if outermostArgs outer = [] then outermostArgs inner else outermostArgs outer := by
  by_cases hempty : outermostArgs outer = []
  · have hfilter : outer.filter Level.isGeneric = [] := outermostArgs_eq_nil_iff.1 hempty
    rw [if_pos hempty, outermostArgs, List.filter_append, hfilter, List.append_nil, outermostArgs]
  · have hfilter : outer.filter Level.isGeneric ≠ [] := mt outermostArgs_eq_nil_iff.2 hempty
    rw [if_neg hempty, outermostArgs, List.filter_append,
      List.getLast?_append_of_ne_nil _ hfilter, outermostArgs]

theorem outermostArgs_singleton (l : Level) : outermostArgs [l] = l.args := by
  by_cases hargs : l.args = []
  · simp [outermostArgs, Level.isGeneric_eq_false_iff.2 hargs, hargs]
  · simp [outermostArgs, Level.isGeneric, hargs]

theorem outermostArgs_cons (l : Level) (ls : List Level) : outermostArgs (l :: ls) =
    if outermostArgs ls = [] then l.args else outermostArgs ls := by
  have h := outermostArgs_append [l] ls
  rwa [outermostArgs_singleton] at h

namespace Catalog

/-- **The outermost level that has arguments decides** what a type shows. -/
theorem suffix_outermost (g : Catalog) (t : Ty) :
    (g.label t).suffix = bracketed ((outermostArgs t.levels).map g.display) := by
  induction t using Ty.inductionOn with
  | named id args container _ hcontainer =>
    cases container with
    | none => simp [label, Ty.levels, outermostArgs_singleton, displayAll_eq_map]
    | some outer =>
      have houter := hcontainer outer rfl
      simp only [label, Ty.levels, outermostArgs_cons, houter, displayAll_eq_map]
      by_cases hempty : outermostArgs outer.levels = []
      · simp [hempty, bracketed_eq_empty_iff.2]
      · have hshown : bracketed ((outermostArgs outer.levels).map g.display) ≠ "" := by
          simpa [bracketed_eq_empty_iff] using hempty
        rw [if_neg hshown, if_neg hempty]
  | param name => rfl
  | array element _ => rfl
  | unresolved => rfl

end Catalog

/-! ## The nearest arguments -/

namespace Ty

/-- The arguments of the innermost type around a type that has any; if none has, those of the type
itself. -/
def nearestArgs (t : Ty) : List Ty :=
  ((t.levels.tail.find? Level.isGeneric).map (·.args)).getD t.args

/-- The declarations of the levels of a type, and how many arguments each has there. -/
def shape (t : Ty) : List (DeclId × Nat) := t.levels.map fun l => (l.id, l.args.length)

theorem length_filter_shape (ls : List Level) :
    ((ls.map fun l => (l.id, l.args.length)).filter fun e => 0 < e.2).length =
      (ls.filter Level.isGeneric).length := by
  rw [List.filter_map, List.length_map, funext Level.isGeneric_eq_decide]
  rfl

theorem levels_of_id? {t : Ty} {id : DeclId} (h : t.id? = some id) :
    t.levels = ⟨id, t.args⟩ :: t.levels.tail := by
  match t, h with
  | .named _ _ none, rfl => rfl
  | .named _ _ (some _), rfl => rfl

theorem exists_id?_of_levels {t : Ty} {l : Level} {ls : List Level} (h : t.levels = l :: ls) :
    ∃ id, t.id? = some id := by
  cases t with
  | named id args container => exact ⟨id, rfl⟩
  | param name => cases h
  | array element => cases h
  | unresolved => cases h

end Ty

namespace Catalog

variable {g : Catalog} {t : Ty} {id : DeclId}

/-- A type shows the arguments of the nearest type around it that has any, or its own if none
has. -/
def ShowsNearest (g : Catalog) (t : Ty) : Prop :=
  g.display t = g.bareName t ++ bracketed (t.nearestArgs.map g.display)

theorem showsNearest_iff (hid : t.id? = some id) : g.ShowsNearest t ↔
    bracketed ((outermostArgs t.levels).map g.display) =
      bracketed (t.nearestArgs.map g.display) := by
  rw [ShowsNearest, display_of_id? hid, suffix_outermost, bareName_of_id? hid,
    String.append_right_inj]

end Catalog

/-- If one type around a type has arguments at most, it is both the nearest and the outermost. -/
theorem Ty.nearestArgs_eq {t : Ty} {id : DeclId} (hid : t.id? = some id)
    (h : (t.levels.tail.filter Level.isGeneric).length ≤ 1) :
    t.nearestArgs = outermostArgs t.levels := by
  rw [levels_of_id? hid, outermostArgs_cons, nearestArgs, ← List.head?_filter]
  by_cases hnone : t.levels.tail.filter Level.isGeneric = []
  · rw [if_pos (outermostArgs_eq_nil_iff.2 hnone), hnone]
    rfl
  · have hone : (t.levels.tail.filter Level.isGeneric).length = 1 := by
      have hpos := List.length_pos_iff.2 hnone
      omega
    obtain ⟨l, hl⟩ := List.length_eq_one_iff.1 hone
    rw [if_neg (mt outermostArgs_eq_nil_iff.1 hnone), outermostArgs, hl]
    rfl

/-! ## Types that do not show the nearest arguments -/

namespace Level

/-- The type with the given levels, from the inside out. -/
def nest (own : Level) : List Level → Ty
  | [] => .named own.id own.args none
  | l :: ls => .named own.id own.args (some (l.nest ls))

theorem levels_nest (own : Level) (ls : List Level) : (own.nest ls).levels = own :: ls := by
  induction ls generalizing own with
  | nil => rfl
  | cons l ls ih => rw [nest, Ty.levels, ih]

/-- A level with a declaration and a number of arguments as given, and one type for all of
them. -/
def filled (a : Ty) (e : DeclId × Nat) : Level := ⟨e.1, List.replicate e.2 a⟩

theorem isGeneric_filled (a : Ty) (e : DeclId × Nat) :
    (filled a e).isGeneric = decide (0 < e.2) := by
  simp [isGeneric_eq_decide, filled]

theorem args_filled {a : Ty} {e : DeclId × Nat} (h : 0 < e.2) :
    ∃ n, (filled a e).args = List.replicate (n + 1) a := by
  refine ⟨e.2 - 1, ?_⟩
  rw [filled, Nat.sub_add_cancel h]

end Level

/-- If some level has arguments, and all arguments are the same type, that type is shown. -/
theorem outermostArgs_map_filled (a : Ty) {shape : List (DeclId × Nat)} (h : ∃ e ∈ shape, 0 < e.2) :
    ∃ n, outermostArgs (shape.map (Level.filled a)) = List.replicate (n + 1) a := by
  obtain ⟨e, he, hpos⟩ := h
  have hgeneric : Level.filled a e ∈ (shape.map (Level.filled a)).filter Level.isGeneric := by
    simp only [List.mem_filter, Level.isGeneric_filled, hpos, decide_true, and_true]
    exact List.mem_map_of_mem he
  rw [outermostArgs]
  cases hlast : ((shape.map (Level.filled a)).filter Level.isGeneric).getLast? with
  | none =>
    rw [List.getLast?_eq_none_iff.1 hlast] at hgeneric
    cases hgeneric
  | some l =>
    have hmem := List.mem_filter.1 (List.mem_of_getLast? hlast)
    obtain ⟨e', -, rfl⟩ := List.mem_map.1 hmem.1
    have hpos' : 0 < e'.2 := by simpa [Level.isGeneric_filled] using hmem.2
    exact Level.args_filled hpos'

/-- An unknown argument does not look like a known one. -/
theorem bracketed_unresolved_ne (g : Catalog) (m n : Nat) :
    bracketed ((List.replicate (m + 1) Ty.unresolved).map g.display) ≠
      bracketed ((List.replicate (n + 1) (Ty.param "T")).map g.display) := by
  have hunknown : g.display .unresolved = "?" := rfl
  have hknown : g.display (.param "T") = "T" := rfl
  rw [List.map_replicate, List.map_replicate, List.replicate_succ, List.replicate_succ,
    bracketed_cons, bracketed_cons, hunknown, hknown]
  intro h
  have hchars := congrArg String.toList ((String.append_right_inj _).1 h)
  simp at hchars

/-- If two levels have arguments, there is a first one, and another further outward. -/
theorem exists_nearest_of_two {shape : List (DeclId × Nat)}
    (h : 1 < (shape.filter fun e => 0 < e.2).length) :
    ∃ inner nearest outer, shape = inner ++ nearest :: outer ∧ (∀ e ∈ inner, e.2 = 0) ∧
      0 < nearest.2 ∧ ∃ e ∈ outer, 0 < e.2 := by
  induction shape with
  | nil => simp at h
  | cons e es ih =>
    by_cases hpos : 0 < e.2
    · have hothers : 0 < (es.filter fun e => 0 < e.2).length := by simpa [hpos] using h
      obtain ⟨e', he'⟩ := List.exists_mem_of_length_pos hothers
      exact ⟨[], e, es, rfl, by simp, hpos, e', by simpa using List.mem_filter.1 he'⟩
    · have hzero : e.2 = 0 := by omega
      obtain ⟨inner, nearest, outer, rfl, hinner, hnearest⟩ := ih (by simpa [hpos] using h)
      exact ⟨e :: inner, nearest, outer, rfl, List.forall_mem_cons.2 ⟨hzero, hinner⟩, hnearest⟩

theorem Ty.nearestArgs_of_levels {t : Ty} {own nearest : Level} {inner outer : List Level}
    (h : t.levels = own :: (inner ++ nearest :: outer))
    (hinner : ∀ l ∈ inner, l.isGeneric = false) (hnearest : nearest.isGeneric = true) :
    t.nearestArgs = nearest.args := by
  have hskip : inner.find? Level.isGeneric = none := by simpa using hinner
  simp [nearestArgs, h, List.find?_append, hskip, hnearest]

namespace Catalog

/-- If two types around a type have arguments, these can be chosen so that the type does not show
those of the nearest one: they are known up to that one, and unknown further outward. -/
theorem exists_not_showsNearest (g : Catalog) (own : DeclId × Nat) {around : List (DeclId × Nat)}
    (h : 1 < (around.filter fun e => 0 < e.2).length) :
    ∃ t : Ty, t.shape = own :: around ∧ ¬ g.ShowsNearest t := by
  obtain ⟨inner, nearest, outer, rfl, hinner, hpos, houter⟩ := exists_nearest_of_two h
  let known := Level.filled (.param "T")
  let far := outer.map (Level.filled .unresolved)
  let t := (known own).nest (inner.map known ++ known nearest :: far)
  have hlevels : t.levels = known own :: (inner.map known ++ known nearest :: far) :=
    Level.levels_nest ..
  refine ⟨t, ?_, ?_⟩
  · rw [Ty.shape, hlevels]
    simp [known, far, Level.filled, Function.comp_def]
  · obtain ⟨id, hid⟩ := Ty.exists_id?_of_levels hlevels
    obtain ⟨m, hm⟩ := outermostArgs_map_filled .unresolved houter
    obtain ⟨n, hn⟩ := Level.args_filled (a := .param "T") hpos
    have houtermost : outermostArgs t.levels = List.replicate (m + 1) .unresolved := by
      have hfar : outermostArgs far ≠ [] := by simp [far, hm]
      rw [hlevels, List.append_cons, ← List.cons_append, outermostArgs_append, if_neg hfar, hm]
    have hnearest : t.nearestArgs = List.replicate (n + 1) (.param "T") := by
      rw [← hn]
      refine Ty.nearestArgs_of_levels hlevels ?_ ?_
      · intro l hl
        obtain ⟨e, he, rfl⟩ := List.mem_map.1 hl
        simp [known, Level.isGeneric_filled, hinner e he]
      · simpa [known, Level.isGeneric_filled] using hpos
    rw [showsNearest_iff hid, houtermost, hnearest]
    exact bracketed_unresolved_ne g m n

/-- **What is shown, and for which types it is the nearest.**  A type shows the arguments of the
outermost of its levels that has any.  These are the ones of the nearest type around it that has
any, or its own if none has, in all types whose levels have given declarations and given numbers of
arguments, if and only if at most one type around them has arguments at all. -/
theorem display_outermost (g : Catalog) :
    (∀ (t : Ty) (id : DeclId), t.id? = some id → g.display t =
      g.simpleName id ++ bracketed ((outermostArgs t.levels).map g.display)) ∧
    ∀ (own : DeclId × Nat) (around : List (DeclId × Nat)),
      (∀ t : Ty, t.shape = own :: around → g.ShowsNearest t) ↔
        (around.filter fun e => 0 < e.2).length ≤ 1 := by
  refine ⟨fun t id hid => ?_, fun own around => ⟨fun hall => ?_, fun hone t hshape => ?_⟩⟩
  · rw [display_of_id? hid, suffix_outermost]
  · by_contra hmany
    obtain ⟨t, hshape, hnot⟩ := g.exists_not_showsNearest own (Nat.lt_of_not_le hmany)
    exact hnot (hall t hshape)
  · obtain ⟨l, ls, hlevels, -, hls⟩ := List.map_eq_cons_iff.1 hshape
    obtain ⟨id, hid⟩ := Ty.exists_id?_of_levels hlevels
    rw [← hls, Ty.length_filter_shape] at hone
    rw [showsNearest_iff hid, Ty.nearestArgs_eq hid]
    rwa [hlevels]

end Catalog

namespace Sample

/-- A rack has slots, and a slot has pins.  Racks and slots are made for a type each. -/
def racks : Catalog where
  decls := #[
    { name := "Int" },
    { name := "Text" },
    { name := "Rack", typeParams := ["R"] },
    { name := "Slot", typeParams := ["S"], container := some ⟨2⟩ },
    { name := "Pin", container := some ⟨3⟩ }]
  faultless := by decide

/-- A pin of a slot for numbers, in a rack for texts. -/
def pin : Ty := (Ty.plain ⟨4⟩).within
  ((Ty.applied ⟨3⟩ [.plain ⟨0⟩]).within (.applied ⟨2⟩ [.plain ⟨1⟩]))

end Sample

/-- The pin shows what the rack is made for.  The slot is nearer, and the pin does not show what
that one is made for.  Pins of plain slots are safe. -/
theorem Catalog.display_outermost_pin :
    Sample.pin.nearestArgs = [.plain ⟨0⟩] ∧ outermostArgs Sample.pin.levels = [.plain ⟨1⟩] ∧
    Sample.racks.display Sample.pin = "Pin<Text>" ∧ ¬ Sample.racks.ShowsNearest Sample.pin ∧
    ∀ t : Ty, t.shape = [(⟨4⟩, 0), (⟨3⟩, 0), (⟨2⟩, 1)] → Sample.racks.ShowsNearest t := by
  have hdisplay : Sample.racks.display Sample.pin = "Pin<Text>" :=
    (display_outermost Sample.racks).1 Sample.pin ⟨4⟩ rfl
  refine ⟨rfl, rfl, hdisplay, ?_, ?_⟩
  · have hnearest : Sample.racks.bareName Sample.pin ++
        bracketed (Sample.pin.nearestArgs.map Sample.racks.display) = "Pin<Int>" := by decide
    rw [ShowsNearest, hdisplay, hnearest]
    decide
  · exact ((display_outermost Sample.racks).2 _ _).2 (by decide)

end SwitchCoverage
