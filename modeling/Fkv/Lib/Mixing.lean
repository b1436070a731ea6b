import Mathlib.Data.BitVec
import Mathlib.Logic.Function.Basic

namespace Mixing

/-- A word mixed with its own upper part. -/
def xorShift {w : Nat} (s : Nat) (x : BitVec w) : BitVec w := x ^^^ (x >>> s)

/-- A shift by half the width or more is its own inverse. -/
theorem xorShift_xorShift {w s : Nat} {x : BitVec w} (far : w ≤ s + s) : xorShift s (xorShift s x) = x := by
  have gone : x >>> (s + s) = 0#w := BitVec.ushiftRight_eq_zero far
  rw [xorShift, xorShift, BitVec.ushiftRight_xor_distrib, ← BitVec.shiftRight_add, gone, BitVec.xor_zero,
    BitVec.xor_assoc, BitVec.xor_self, BitVec.xor_zero]

theorem xorShift_injective {w : Nat} (s : Nat) (far : w ≤ s + s) :
    Function.Injective (xorShift s : BitVec w → BitVec w) :=
  Function.LeftInverse.injective fun _ => xorShift_xorShift far

/-- Multiplication by a word that has an inverse loses nothing. -/
theorem mul_injective {w : Nat} (k inverse : BitVec w) (unit : k * inverse = 1#w) :
    Function.Injective (· * k : BitVec w → BitVec w) := by
  refine Function.LeftInverse.injective (g := (· * inverse)) fun x => ?_
  simp only [BitVec.mul_assoc, unit, BitVec.mul_one]

end Mixing
