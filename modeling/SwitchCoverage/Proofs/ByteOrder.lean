import Mathlib.Data.List.Lex
import Mathlib.Data.List.Sort
import Mathlib.Data.String.Basic
import Mathlib.Tactic.SplitIfs
import SwitchCoverage.NameSet
import SwitchCoverage.Text

/-!
# Names in the order of their bytes

Names are compared character by character, and stored byte by byte.  UTF-8 is made so
that the two comparisons agree: of two characters the one with the smaller code point
has the smaller encoding, and neither encoding begins the other.

Names are listed in that order.  Putting them in order is insertion sort, and there is
one way only to list a set.

## Main definitions

* `Text.bytes` — the UTF-8 encoding of a name.

## Main statements

* `Text.utf8EncodeChar_append_lt` — encodings of different characters differ at a byte.
* `Text.bytes_lt_iff` — the order of names is the order of their bytes.
* `Text.sortNames_eq_insertionSort` — names are sorted by insertion.
* `NameSet.ext_mem` — a set of names is determined by its members.
-/
namespace SwitchCoverage

namespace Text

/-- The UTF-8 encoding of a name. -/
def bytes (s : String) : List UInt8 := s.toByteArray.data.toList

theorem bytes_eq_flatMap (s : String) : bytes s = s.toList.flatMap String.utf8EncodeChar := by
  rw [bytes, ← String.utf8Encode_toList, List.utf8Encode, List.data_toByteArray]

theorem toNat_ofNat_of_lt {k : Nat} (h : k < 256) : (UInt8.ofNat k).toNat = k := by
  simpa using h

/-- Of two characters the smaller has the smaller encoding, whatever follows.  The
encodings differ at a byte that both have: the first one if their lengths differ, and
otherwise the one with the first digit to base 64 in which the code points differ. -/
theorem utf8EncodeChar_append_lt {c d : Char} (h : c < d) (r s : List UInt8) :
    String.utf8EncodeChar c ++ r < String.utf8EncodeChar d ++ s := by
  have hlt : c.val.toNat < d.val.toNat := h
  have hmax : d.val.toNat < 1114112 := by
    rcases d.valid with hd | hd <;> omega
  simp only [String.utf8EncodeChar]
  generalize c.val.toNat = m at *
  generalize d.val.toNat = n at *
  -- Four bytes have room for more than a code point, so the top digit is not cut off.
  have htop : ∀ k ≤ n, k / 262144 % 8 = k / 262144 := by omega
  have hhigh : m / 4096 < n / 4096 → m / 262144 < n / 262144 ∨
      m / 262144 = n / 262144 ∧ m / 4096 % 64 < n / 4096 % 64 := by omega
  have hmiddle : m / 64 < n / 64 → m / 4096 < n / 4096 ∨
      m / 4096 = n / 4096 ∧ m / 64 % 64 < n / 64 % 64 := by omega
  have hlow : m / 64 < n / 64 ∨ m / 64 = n / 64 ∧ m % 64 < n % 64 := by omega
  rw [htop m hlt.le, htop n le_rfl]
  split_ifs
  all_goals try omega
  all_goals
    simp (disch := omega) only [List.cons_append, List.nil_append, List.cons_lt_cons_iff,
      UInt8.lt_iff_toNat_lt, ← UInt8.toNat_inj, toNat_ofNat_of_lt]
    omega

theorem flatMap_utf8EncodeChar_lt {cs ds : List Char} (h : cs < ds) :
    cs.flatMap String.utf8EncodeChar < ds.flatMap String.utf8EncodeChar := by
  induction h with
  | @nil d ds =>
    obtain ⟨b, bs, hb⟩ := List.exists_cons_of_ne_nil (String.utf8EncodeChar_ne_nil (c := d))
    simp [hb]
  | @cons c cs ds _ ih =>
    simp only [List.flatMap_cons]
    exact List.append_left_lt ih
  | @rel c cs d ds hcd =>
    simp only [List.flatMap_cons]
    exact utf8EncodeChar_append_lt hcd _ _

/-- **The order of names is the order of their bytes.** -/
theorem bytes_lt_iff {s t : String} : bytes s < bytes t ↔ s < t := by
  have hmono : ∀ {s t : String}, s < t → bytes s < bytes t := by
    intro s t hst
    rw [bytes_eq_flatMap, bytes_eq_flatMap]
    exact flatMap_utf8EncodeChar_lt hst
  constructor
  · intro h
    rcases lt_trichotomy s t with hst | rfl | hts
    · exact hst
    · exact absurd h (List.lt_irrefl _)
    · exact absurd h (List.lt_asymm (hmono hts))
  · exact hmono

/-! ## Listings -/

theorem insertName_eq_orderedInsert (n : String) (ms : List String) :
    insertName n ms = ms.orderedInsert (· ≤ ·) n := by
  induction ms with
  | nil => rfl
  | cons m ms ih =>
    rw [insertName, List.orderedInsert_cons, ih]
    by_cases hlt : m < n
    · rw [if_pos hlt, if_neg (not_le.2 hlt)]
    · rw [if_neg hlt, if_pos (not_lt.1 hlt)]

/-- Names are put in order by insertion. -/
theorem sortNames_eq_insertionSort (names : List String) :
    sortNames names = names.insertionSort (· ≤ ·) := by
  induction names with
  | nil => rfl
  | cons n ns ih =>
    change insertName n (sortNames ns) = _
    rw [insertName_eq_orderedInsert, ih, List.insertionSort_cons]

end Text

namespace NameSet

/-- Two sets with the same members are equal, listing included. -/
theorem ext_mem {s t : NameSet} (h : ∀ n, n ∈ s ↔ n ∈ t) : s = t := by
  obtain ⟨xs, hx⟩ := s
  obtain ⟨ys, hy⟩ := t
  obtain rfl : xs = ys := hx.eq_of_mem_iff hy h
  rfl

/-- The listing of a set is sorted already. -/
@[simp] theorem sortNames_toList (s : NameSet) : Text.sortNames s.toList = s.toList := by
  rw [Text.sortNames_eq_insertionSort]
  exact (s.ascending.imp le_of_lt).insertionSort_eq

end NameSet

end SwitchCoverage
