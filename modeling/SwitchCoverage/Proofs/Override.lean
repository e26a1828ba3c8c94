import Mathlib.Data.List.DropRight
import Mathlib.Data.Nat.Digits.Defs
import SwitchCoverage.Switch.Config

/-!
# Overrides of the depth limit

The depth limit can be overridden by a text, and a text that gives no limit is passed over.  So it
matters which texts give one.  Here these texts are described by a grammar: a numeral, which may be
long and start with any number of zeros, with blanks around it.  What it denotes has to fit into a
word of 64 bits, and zero is no limit.

The grammar says nothing of how a text is read.  Reading cuts off blanks at one end after the
other and adds up digits from the left; the value of a numeral is that of its digits by their
places, counted from the right.

## Main definitions

* `Text.Trimmed` — what is left of a text without the blanks around it.
* `Text.Digits`, `Text.Numeral` — rows of digits, with or without a plus sign, and what they denote.
* `Config.Gives` — the texts that give a depth limit.

## Main statements

* `Text.trimBlank_eq_iff`, `Text.unsigned?_eq_some_iff` — what trimming and reading amount to.
* `Config.depth?_eq_some_iff` — an override gives a limit just when the grammar says so.
* `Config.ofOverride_reads` — **the depth limit under every override.**
-/
namespace SwitchCoverage

namespace Text

variable {cs body : List Char} {n : Nat}

/-! ## Blanks around a text -/

/-- `body` is what is left of a text when the blanks at its two ends are taken away, and no
others. -/
structure Trimmed (cs body : List Char) : Prop where
  /-- All that is taken away is blank. -/
  around : ∃ lead trail, cs = lead ++ body ++ trail ∧
    (∀ c ∈ lead, isBlank c = true) ∧ ∀ c ∈ trail, isBlank c = true
  /-- There is no blank left in front. -/
  first : ∀ c ∈ body.head?, isBlank c = false
  /-- There is no blank left at the end. -/
  last : ∀ c ∈ body.getLast?, isBlank c = false

theorem trimBlank_eq_rdropWhile (cs : List Char) :
    trimBlank cs = (cs.dropWhile isBlank).rdropWhile isBlank := rfl

theorem trimmed_trimBlank (cs : List Char) : Trimmed cs (trimBlank cs) := by
  rw [trimBlank_eq_rdropWhile]
  set rest := cs.dropWhile isBlank with hrest
  have hcs : cs = cs.takeWhile isBlank ++ rest := List.takeWhile_append_dropWhile.symm
  have hsplit : rest = rest.rdropWhile isBlank ++ rest.rtakeWhile isBlank :=
    (List.rdropWhile_append_rtakeWhile ..).symm
  refine ⟨⟨cs.takeWhile isBlank, rest.rtakeWhile isBlank, ?_, ?_, ?_⟩, ?_, ?_⟩
  · rw [List.append_assoc, ← hsplit, ← hcs]
  · exact fun c hc => List.mem_takeWhile_imp hc
  · exact fun c hc => List.mem_rtakeWhile_imp hc
  · intro c hc
    have hhead : rest.head? = some c := by
      rw [hsplit, List.head?_append, Option.mem_def.1 hc]
      rfl
    have hnot := List.head?_dropWhile_not isBlank cs
    rw [← hrest, hhead] at hnot
    simpa using hnot
  · intro c hc
    obtain ⟨hne, rfl⟩ := List.mem_getLast?_eq_getLast hc
    simpa using List.rdropWhile_last_not (p := isBlank) (l := rest) hne

/-- Dropping blanks from the front stops where the blanks end. -/
theorem dropWhile_isBlank_append {lead rest : List Char} (hlead : ∀ c ∈ lead, isBlank c = true)
    (hrest : ∀ c ∈ rest.head?, isBlank c = false) : (lead ++ rest).dropWhile isBlank = rest := by
  rw [List.dropWhile_append_of_pos hlead]
  cases rest with
  | nil => rfl
  | cons c rest => exact List.dropWhile_cons_of_neg (by simp [hrest c rfl])

/-- Trimming leaves just the text without the blanks around it. -/
theorem trimBlank_eq_iff : trimBlank cs = body ↔ Trimmed cs body := by
  constructor
  · rintro rfl
    exact trimmed_trimBlank cs
  · rintro ⟨⟨lead, trail, rfl, hlead, htrail⟩, hfirst, hlast⟩
    -- A text of blanks has no first character to stop at, so it is a case of its own.
    by_cases hempty : body = []
    · subst hempty
      have hall : ∀ c ∈ lead ++ [] ++ trail, isBlank c = true := by
        simpa [or_imp, forall_and] using ⟨hlead, htrail⟩
      rw [trimBlank, List.dropWhile_eq_nil_iff.2 hall]
      rfl
    · have hfront : (lead ++ body ++ trail).dropWhile isBlank = body ++ trail := by
        rw [List.append_assoc]
        refine dropWhile_isBlank_append hlead fun c hc => hfirst c ?_
        rwa [List.head?_append_of_ne_nil _ hempty] at hc
      have hback : (body ++ trail).reverse.dropWhile isBlank = body.reverse := by
        rw [List.reverse_append]
        refine dropWhile_isBlank_append (fun c hc => htrail c (List.mem_reverse.1 hc)) ?_
        rwa [List.head?_reverse]
      rw [trimBlank, hfront, hback, List.reverse_reverse]

/-! ## Numerals -/

/-- A row of one or more ASCII digits denotes `n`: each counts by its place.  Zeros in front are
digits like any others. -/
def Digits (cs : List Char) (n : Nat) : Prop :=
  ∃ ds : List Nat, ds ≠ [] ∧ (∀ d ∈ ds, d < 10) ∧ cs = ds.map Nat.digitChar ∧
    n = Nat.ofDigits 10 ds.reverse

/-- Digits denote `n`, after one plus sign at most. -/
def Numeral (cs : List Char) (n : Nat) : Prop :=
  ∃ sign digits, (sign = [] ∨ sign = ['+']) ∧ cs = sign ++ digits ∧ Digits digits n

theorem digit?_eq_some_iff {c : Char} {d : Nat} :
    digit? c = some d ↔ d < 10 ∧ c = Nat.digitChar d := by
  have hchar : ∀ e < 10, (Nat.digitChar e).toNat = 48 + e := by decide
  have hdigit : ∀ e < 10, digit? (Nat.digitChar e) = some e := by decide
  constructor
  · intro h
    obtain ⟨⟨hlow, hhigh⟩, hvalue⟩ := Option.ite_none_right_eq_some.1 h
    have hlow : 48 ≤ c.toNat := hlow
    have hhigh : c.toNat ≤ 57 := hhigh
    have hd : c.toNat - 48 = d := Option.some.inj hvalue
    have hlt : d < 10 := by omega
    refine ⟨hlt, Char.toNat_inj.1 ?_⟩
    rw [hchar d hlt]
    omega
  · rintro ⟨hd, rfl⟩
    exact hdigit d hd

theorem mapM_digit?_eq_some_iff {ds : List Nat} :
    cs.mapM digit? = some ds ↔ (∀ d ∈ ds, d < 10) ∧ cs = ds.map Nat.digitChar := by
  induction cs generalizing ds with
  | nil => cases ds <;> simp
  | cons c cs ih =>
    simp only [List.mapM_cons, Option.bind_eq_bind, Option.bind_eq_some_iff, Option.pure_def,
      Option.some.injEq, digit?_eq_some_iff, ih]
    constructor
    · rintro ⟨d, ⟨hd, rfl⟩, ds, ⟨hds, rfl⟩, rfl⟩
      exact ⟨List.forall_mem_cons.2 ⟨hd, hds⟩, rfl⟩
    · rintro ⟨hds, hcs⟩
      cases ds with
      | nil => cases hcs
      | cons d ds =>
        obtain ⟨hd, hds⟩ := List.forall_mem_cons.1 hds
        obtain ⟨rfl, rfl⟩ := List.cons.inj hcs
        exact ⟨d, ⟨hd, rfl⟩, ds, ⟨hds, rfl⟩, rfl⟩

/-- Adding up from the left counts each digit by its place. -/
theorem ofDigitValues_eq_ofDigits (ds : List Nat) :
    ofDigitValues ds = Nat.ofDigits 10 ds.reverse := by
  rw [Nat.ofDigits_eq_foldr, List.foldr_reverse, ofDigitValues]
  simp only [Nat.cast_id, Nat.add_comm]

theorem natural?_eq_some_iff : natural? cs = some n ↔ Digits cs n := by
  have hempty : natural? cs = some n ↔ cs ≠ [] ∧ (cs.mapM digit?).map ofDigitValues = some n := by
    cases cs <;> simp [natural?]
  simp only [hempty, Option.map_eq_some_iff, mapM_digit?_eq_some_iff, ofDigitValues_eq_ofDigits]
  constructor
  · rintro ⟨hne, ds, ⟨hds, rfl⟩, rfl⟩
    exact ⟨ds, by simpa using hne, hds, rfl, rfl⟩
  · rintro ⟨ds, hne, hds, rfl, rfl⟩
    exact ⟨by simpa using hne, ds, ⟨hds, rfl⟩, rfl⟩

/-- A plus sign is no digit. -/
theorem not_digits_plus : ¬ Digits ('+' :: cs) n := by
  rintro ⟨ds, -, hds, hcs, -⟩
  have hmem : '+' ∈ ds.map Nat.digitChar := hcs ▸ List.mem_cons_self
  obtain ⟨d, hd, hplus⟩ := List.mem_map.1 hmem
  have hdigit : digit? '+' = some d := digit?_eq_some_iff.2 ⟨hds d hd, hplus.symm⟩
  cases hdigit

theorem unsigned?_eq_some_iff : unsigned? cs = some n ↔ Numeral cs n := by
  rw [unsigned?.eq_def]
  split
  next rest =>
    rw [natural?_eq_some_iff]
    constructor
    · intro h
      exact ⟨['+'], rest, .inr rfl, rfl, h⟩
    · rintro ⟨sign, digits, rfl | rfl, hcs, h⟩
      · obtain rfl : '+' :: rest = digits := hcs
        exact absurd h not_digits_plus
      · obtain rfl : rest = digits := List.tail_eq_of_cons_eq hcs
        exact h
  next hplus =>
    rw [natural?_eq_some_iff]
    constructor
    · intro h
      exact ⟨[], cs, .inl rfl, rfl, h⟩
    · rintro ⟨sign, digits, rfl | rfl, hcs, h⟩
      · obtain rfl : cs = digits := hcs
        exact h
      · exact absurd hcs (hplus digits)

end Text

namespace Config

/-- A text gives the depth limit `n`: without the blanks around it, it is a numeral for `n`, which
is not zero and fits into a word of 64 bits. -/
def Gives (value : String) (n : Nat) : Prop :=
  ∃ body, Text.Trimmed value.toList body ∧ Text.Numeral body n ∧ 1 ≤ n ∧ n ≤ 2 ^ 64 - 1

/-- An override gives a limit just when the grammar says so. -/
theorem depth?_eq_some_iff {value : String} {n : Nat} : depth? value = some n ↔ Gives value n := by
  have hlargest : largestDepth = 2 ^ 64 - 1 := rfl
  simp only [depth?, Option.filter_eq_some_iff, Text.unsigned?_eq_some_iff, Bool.and_eq_true,
    decide_eq_true_eq, hlargest]
  constructor
  · rintro ⟨hnumeral, hpos, hle⟩
    exact ⟨_, Text.trimmed_trimBlank _, hnumeral, hpos, hle⟩
  · rintro ⟨body, htrimmed, hnumeral, hpos, hle⟩
    rw [Text.trimBlank_eq_iff.2 htrimmed]
    exact ⟨hnumeral, hpos, hle⟩

theorem maxDepth_ofOverride {value : String} {n : Nat} :
    (ofOverride (some value)).maxDepth = n ↔
      Gives value n ∨ (¬ ∃ m, Gives value m) ∧ n = 64 := by
  have hlimit : (ofOverride (some value)).maxDepth = (depth? value).getD 64 := rfl
  simp only [hlimit, ← depth?_eq_some_iff]
  cases depth? value with
  | none => simp [eq_comm]
  | some m => simp

/-- **The depth limit under every override.**  It is `n` just when the override gives `n`, and 64
where it gives no limit or there is none.  So a limit is never zero, and no override takes the
suggestions away. -/
theorem ofOverride_reads :
    (∀ value n, (ofOverride (some value)).maxDepth = n ↔
      Gives value n ∨ (¬ ∃ m, Gives value m) ∧ n = 64) ∧
    (ofOverride none).maxDepth = 64 ∧
    ∀ value, 1 ≤ (ofOverride value).maxDepth ∧ (ofOverride value).suggest = true := by
  refine ⟨fun value n => maxDepth_ofOverride, rfl, fun value => ⟨?_, rfl⟩⟩
  cases value with
  | none => decide
  | some value =>
    rcases maxDepth_ofOverride.1 (rfl : _ = (ofOverride (some value)).maxDepth) with h | ⟨-, h⟩
    · obtain ⟨_, -, -, hpos, -⟩ := h
      exact hpos
    · omega

-- The largest limit in a long spelling, and the number after it.
example : depth? "\t+00018446744073709551615 " = some (2 ^ 64 - 1) ∧
    depth? "18446744073709551616" = none := by decide

end Config

end SwitchCoverage
