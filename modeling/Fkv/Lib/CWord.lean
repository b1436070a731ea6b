import Mathlib.Data.Nat.Bitwise

namespace CWord

/-- Addition of two 64-bit words. -/
def add64 (a b : Nat) : Nat := (a + b) % 2 ^ 64

/-- Subtraction of two 64-bit words, wrapping below zero. -/
def sub64 (a b : Nat) : Nat := (a + 2 ^ 64 - b % 2 ^ 64) % 2 ^ 64

/-- Conversion of a word to the signed 32-bit int. -/
def toInt32 (x : Nat) : Int :=
  if x % 2 ^ 32 < 2 ^ 31 then ((x % 2 ^ 32 : Nat) : Int) else ((x % 2 ^ 32 : Nat) : Int) - 2 ^ 32

/-- Conversion of an int to the unsigned 32-bit word. -/
def toUInt32 (x : Int) : Nat := (x % 2 ^ 32).toNat

theorem add64_of_lt {a b : Nat} (bound : a + b < 2 ^ 64) : add64 a b = a + b :=
  Nat.mod_eq_of_lt bound

theorem sub64_of_le {a b : Nat} (below : b ≤ a) (bound : a < 2 ^ 64) : sub64 a b = a - b := by
  unfold sub64
  omega

theorem toInt32_of_lt {x : Nat} (bound : x < 2 ^ 31) : toInt32 x = x := by
  unfold toInt32
  rw [Nat.mod_eq_of_lt (by omega), if_pos bound]

theorem toUInt32_of_nonneg {x : Nat} (bound : x < 2 ^ 32) : toUInt32 (x : Int) = x := by
  unfold toUInt32
  omega

theorem toInt32_of_ge {x : Nat} (high : 2 ^ 31 ≤ x) (word : x < 2 ^ 32) : toInt32 x = (x : Int) - 2 ^ 32 := by
  unfold toInt32
  rw [Nat.mod_eq_of_lt word, if_neg (by omega)]

theorem and_seven (x : Nat) : x &&& 7 = x % 8 := by
  rw [show (7 : Nat) = 2 ^ 3 - 1 from rfl, Nat.and_two_pow_sub_one_eq_mod]

/-- Masking with all bits of a word but the lowest clears the lowest. -/
theorem and_even (n x : Nat) : x &&& (2 ^ n - 1) * 2 = x % 2 ^ (n + 1) / 2 * 2 := by
  apply Nat.eq_of_testBit_eq
  intro i
  have half : x % 2 ^ (n + 1) / 2 = x / 2 % 2 ^ n := by
    rw [pow_succ, Nat.mul_comm, Nat.mod_mul_right_div_self]
  rw [half, Nat.testBit_and, show (2 ^ n - 1) * 2 = (2 ^ n - 1) * 2 ^ 1 from rfl, Nat.testBit_mul_two_pow,
    Nat.testBit_two_pow_sub_one, show x / 2 % 2 ^ n * 2 = x / 2 ^ 1 % 2 ^ n * 2 ^ 1 from rfl,
    Nat.testBit_mul_two_pow, Nat.testBit_mod_two_pow, Nat.testBit_div_two_pow]
  by_cases first : 1 ≤ i
  · simp only [first, decide_true, Bool.true_and, Nat.sub_add_cancel first, Bool.and_comm]
  · simp [first]

/-- Masking with `~0U - 1` keeps a 32-bit word without its lowest bit. -/
theorem and_even32 (x : Nat) : x &&& 0xFFFFFFFE = x % 2 ^ 32 / 2 * 2 := and_even 31 x

/-- Masking with `~0x1UL` keeps a word without its lowest bit. -/
theorem and_even64 {x : Nat} (bound : x < 2 ^ 64) : x &&& 0xFFFFFFFFFFFFFFFE = x / 2 * 2 := by
  rw [show (0xFFFFFFFFFFFFFFFE : Nat) = (2 ^ 63 - 1) * 2 from rfl, and_even, Nat.mod_eq_of_lt bound]

end CWord
