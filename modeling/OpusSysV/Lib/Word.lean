import Mathlib.Tactic.NormNum

/-!
# Machine words as integers

What an integer becomes when it is stored in a 16-bit or a 32-bit word: `short`,
`ushort` and `long`.  Within the word's range it stays what it is; `short_sub_eq` and
`long_wrap` are the cases that a check for overflow rests on.
-/

namespace Lib

/-- The value of an integer stored in a `short`. -/
def short (x : ℤ) : ℤ := Int.bmod x 65536

/-- The value of an integer stored in a `ushort`. -/
def ushort (x : ℤ) : ℕ := (x % 65536).toNat

/-- The values of a `long`. -/
abbrev Long := {x : ℤ // -2 ^ 31 ≤ x ∧ x < 2 ^ 31}

/-- The value of an integer stored in a `long`. -/
def long (x : ℤ) : ℤ := Int.bmod x (2 ^ 32)

theorem short_eq {x : ℤ} (h : -32768 ≤ x ∧ x < 32768) : short x = x := by
  simp only [short, Int.bmod]
  split_ifs <;> omega

/-- Storing `a - v` in a `short` and adding `v` again gives back `a`. -/
theorem short_restore {a : ℤ} (h : -32768 ≤ a ∧ a < 32768) (v : ℤ) :
    short (short (a - v) + v) = a := by
  rw [short, short, Int.bmod_add_bmod, Int.sub_add_cancel]
  exact short_eq h

/-- What a `short` overflows by is taken off again. -/
theorem short_short_sub {x c : ℤ} (h : -32768 ≤ x - c ∧ x - c < 32768) :
    short (short x - c) = x - c := by
  rw [short, short, sub_eq_add_neg, Int.bmod_add_bmod, ← sub_eq_add_neg]
  exact short_eq h

/-- Two `ushort` values are told apart when they are stored in a `short`. -/
theorem short_inj {a b : ℕ} (ha : a < 65536) (hb : b < 65536) :
    short a = short b ↔ a = b := by
  simp only [short, Int.bmod]
  constructor
  · intro h
    split_ifs at h <;> omega
  · rintro rfl
    rfl

/-- A `ushort` from 32768 on becomes negative in a `short`. -/
theorem short_neg {a : ℕ} (h : 32768 ≤ a) (ha : a < 65536) : short a < 0 := by
  simp only [short, Int.bmod]
  split_ifs <;> omega

/-- A difference of two words within 16384 that is stored within 16384 is exact. -/
theorem short_sub_eq {a v m : ℤ} (hm : m ≤ 16384) (ha : -m ≤ a ∧ a ≤ m) (hv : -m ≤ v ∧ v ≤ m)
    (h : -m ≤ short (a - v)) : short (a - v) = a - v := by
  rcases Int.lt_or_le (a - v) 32768 with hlt | hge
  · exact short_eq (by omega)
  · have : a - v = 32768 := by omega
    rw [this, show short 32768 = -32768 from rfl] at h
    omega

theorem ushort_eq {x : ℤ} (h : 0 ≤ x ∧ x < 65536) : (ushort x : ℤ) = x := by
  unfold ushort
  omega

theorem long_eq {x : ℤ} (h1 : -2 ^ 31 ≤ x) (h2 : x < 2 ^ 31) : long x = x := by
  unfold long
  apply Int.bmod_eq_of_le <;> norm_num <;> omega

theorem long_range (x : ℤ) : -2 ^ 31 ≤ long x ∧ long x < 2 ^ 31 := by
  have h1 := Int.le_bmod (x := x) (m := 2 ^ 32) (by norm_num)
  have h2 := Int.bmod_lt (x := x) (m := 2 ^ 32) (by norm_num)
  unfold long
  norm_num at h1 h2 ⊢
  omega

/-- A counter kept in a `long` is the count stored in a `long`. -/
theorem long_add (x y : ℤ) : long (long x + y) = long (x + y) := by
  unfold long
  exact Int.bmod_add_bmod

/-- A `long` counter repeats after `2^32`. -/
theorem long_period (x : ℤ) : long (x + 2 ^ 32) = long x := by
  unfold long
  rw [Int.bmod_def, Int.bmod_def]
  norm_num

/-- Numbers less than `2^32` apart are told apart when they are stored in a `long`. -/
theorem long_inj {a b : ℕ} (ha : a ≤ 2 ^ 32) (hb : b ≤ 2 ^ 32) (ha0 : 0 < a) (hb0 : 0 < b)
    (h : long a = long b) : a = b := by
  have h1 := (Int.bmod_eq_bmod_iff_bmod_sub_eq_zero).mp h
  have h2 := Int.dvd_of_bmod_eq_zero h1
  norm_num at h2 ha hb
  omega

/-- A sum beyond the largest `long` wraps around to a negative value. -/
theorem long_wrap {x : ℤ} (h1 : 2 ^ 31 ≤ x) (h2 : x < 2 ^ 32) : long x = x - 2 ^ 32 := by
  unfold long
  rw [Int.bmod_def]
  norm_num at h1 h2 ⊢
  split_ifs <;> omega

end Lib
