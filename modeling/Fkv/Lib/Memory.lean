import Mathlib.Data.List.Basic
import Mathlib.Logic.Function.Basic
import Mathlib.Tactic.NormNum

namespace ByteMemory

/-- Byte-addressed memory. Which addresses a program may touch is a matter of
its own invariants; the memory itself answers for every address. -/
abbrev Mem := Nat → UInt8

/-- The little-endian 32-bit word at an address. -/
def read32 (m : Mem) (a : Nat) : Nat :=
  (m a).toNat + 2 ^ 8 * (m (a + 1)).toNat + 2 ^ 16 * (m (a + 2)).toNat + 2 ^ 24 * (m (a + 3)).toNat

/-- The little-endian 64-bit word at an address. -/
def read64 (m : Mem) (a : Nat) : Nat := read32 m a + 2 ^ 32 * read32 m (a + 4)

/-- Storing a 64-bit word replaces its eight bytes. -/
def write64 (m : Mem) (a v : Nat) : Mem :=
  fun x => if a ≤ x ∧ x < a + 8 then UInt8.ofNat (v / 256 ^ (x - a)) else m x

/-- The first `n` bytes from an address on. -/
def readBytes (m : Mem) (a n : Nat) : List UInt8 := (List.range n).map (fun i => m (a + i))

/-- Copying a byte string to an address, as memcpy does. -/
def writeBytes (m : Mem) (a : Nat) (bytes : List UInt8) : Mem :=
  fun x => if a ≤ x ∧ x < a + bytes.length then bytes.getD (x - a) 0 else m x

theorem read32_lt (m : Mem) (a : Nat) : read32 m a < 2 ^ 32 := by
  have b0 := (m a).toNat_lt
  have b1 := (m (a + 1)).toNat_lt
  have b2 := (m (a + 2)).toNat_lt
  have b3 := (m (a + 3)).toNat_lt
  unfold read32
  omega

theorem read64_lt (m : Mem) (a : Nat) : read64 m a < 2 ^ 64 := by
  have low := read32_lt m a
  have high := read32_lt m (a + 4)
  unfold read64
  omega

/-- A word depends on its own bytes only. -/
theorem read32_congr {m m' : Mem} {a : Nat} (same : ∀ x, a ≤ x → x < a + 4 → m x = m' x) :
    read32 m a = read32 m' a := by
  simp only [read32, same a (by omega) (by omega), same (a + 1) (by omega) (by omega),
    same (a + 2) (by omega) (by omega), same (a + 3) (by omega) (by omega)]

theorem read64_congr {m m' : Mem} {a : Nat} (same : ∀ x, a ≤ x → x < a + 8 → m x = m' x) :
    read64 m a = read64 m' a := by
  unfold read64
  rw [read32_congr (fun x lower upper => same x lower (by omega)),
    read32_congr (a := a + 4) (fun x lower upper => same x (by omega) (by omega))]

/-- So it is the same word where its bytes have been copied to. -/
theorem read32_shift {m m' : Mem} {a b : Nat} (same : ∀ k < 4, m' (b + k) = m (a + k)) :
    read32 m' b = read32 m a := by
  have first := same 0 (by omega)
  simp only [Nat.add_zero] at first
  simp only [read32, first, same 1 (by omega), same 2 (by omega), same 3 (by omega)]

theorem read64_shift {m m' : Mem} {a b : Nat} (same : ∀ k < 8, m' (b + k) = m (a + k)) :
    read64 m' b = read64 m a := by
  have low : read32 m' b = read32 m a := read32_shift fun k bound => same k (by omega)
  have high : read32 m' (b + 4) = read32 m (a + 4) := read32_shift fun k bound => by
    rw [Nat.add_assoc, Nat.add_assoc]
    exact same (4 + k) (by omega)
  rw [read64, read64, low, high]

/-- A word determines its bytes. -/
theorem read32_inj {m m' : Mem} {a b : Nat} : read32 m' b = read32 m a ↔ ∀ k < 4, m' (b + k) = m (a + k) := by
  refine ⟨fun same k bound => UInt8.toNat_inj.mp ?_, read32_shift⟩
  have b0 := (m' b).toNat_lt
  have b1 := (m' (b + 1)).toNat_lt
  have b2 := (m' (b + 2)).toNat_lt
  have b3 := (m' (b + 3)).toNat_lt
  have a0 := (m a).toNat_lt
  have a1 := (m (a + 1)).toNat_lt
  have a2 := (m (a + 2)).toNat_lt
  have a3 := (m (a + 3)).toNat_lt
  unfold read32 at same
  obtain rfl | rfl | rfl | rfl : k = 0 ∨ k = 1 ∨ k = 2 ∨ k = 3 := by omega
  · rw [Nat.add_zero, Nat.add_zero]
    omega
  all_goals omega

theorem read64_inj {m m' : Mem} {a b : Nat} : read64 m' b = read64 m a ↔ ∀ k < 8, m' (b + k) = m (a + k) := by
  refine ⟨fun same k bound => ?_, read64_shift⟩
  have low := read32_lt m a
  have low' := read32_lt m' b
  unfold read64 at same
  rcases Nat.lt_or_ge k 4 with first | second
  · exact read32_inj.mp (show read32 m' b = read32 m a by omega) k first
  · have later := read32_inj.mp (show read32 m' (b + 4) = read32 m (a + 4) by omega) (k - 4) (by omega)
    rwa [Nat.add_assoc, Nat.add_assoc, Nat.add_sub_cancel' second] at later

theorem readBytes_shift {m m' : Mem} {a b n : Nat} (same : ∀ k < n, m' (b + k) = m (a + k)) :
    readBytes m' b n = readBytes m a n :=
  List.map_congr_left fun k member => same k (List.mem_range.mp member)

@[simp] theorem readBytes_length (m : Mem) (a n : Nat) : (readBytes m a n).length = n := by
  simp [readBytes]

theorem readBytes_getElem? {m : Mem} {a n i : Nat} (bound : i < n) :
    (readBytes m a n)[i]? = some (m (a + i)) := by
  simp [readBytes, bound]

theorem write64_apart (m : Mem) {a v x : Nat} (apart : x < a ∨ a + 8 ≤ x) :
    write64 m a v x = m x := by
  unfold write64
  rw [if_neg (by omega)]

theorem write64_byte (m : Mem) (a v i : Nat) (bound : i < 8) :
    (write64 m a v (a + i)).toNat = v / 256 ^ i % 256 := by
  unfold write64
  rw [if_pos (by omega), Nat.add_sub_cancel_left]
  exact UInt8.toNat_ofNat'

/-- Reading back a stored word gives it modulo the word size. -/
theorem read64_write64 (m : Mem) (a v : Nat) : read64 (write64 m a v) a = v % 2 ^ 64 := by
  have b0 := write64_byte m a v 0 (by omega)
  simp only [read64, read32, Nat.add_assoc, Nat.reduceAdd, Nat.add_zero] at b0 ⊢
  rw [b0, write64_byte m a v 1 (by omega), write64_byte m a v 2 (by omega),
    write64_byte m a v 3 (by omega), write64_byte m a v 4 (by omega), write64_byte m a v 5 (by omega),
    write64_byte m a v 6 (by omega), write64_byte m a v 7 (by omega)]
  omega

theorem read64_write64_of_lt (m : Mem) (a : Nat) {v : Nat} (bound : v < 2 ^ 64) :
    read64 (write64 m a v) a = v := by
  rw [read64_write64, Nat.mod_eq_of_lt bound]

theorem read64_write64_apart (m : Mem) {a b v : Nat} (apart : b + 8 ≤ a ∨ a + 8 ≤ b) :
    read64 (write64 m a v) b = read64 m b :=
  read64_congr (fun _ _ _ => write64_apart m (by omega))

theorem writeBytes_apart (m : Mem) {a x : Nat} {bytes : List UInt8}
    (apart : x < a ∨ a + bytes.length ≤ x) : writeBytes m a bytes x = m x := by
  unfold writeBytes
  rw [if_neg (by omega)]

theorem writeBytes_at (m : Mem) (a : Nat) (bytes : List UInt8) {i : Nat} (bound : i < bytes.length) :
    writeBytes m a bytes (a + i) = bytes[i] := by
  unfold writeBytes
  rw [if_pos (by omega), Nat.add_sub_cancel_left]
  simp [bound]

theorem readBytes_writeBytes (m : Mem) (a : Nat) (bytes : List UInt8) :
    readBytes (writeBytes m a bytes) a bytes.length = bytes := by
  apply List.ext_getElem?
  intro i
  by_cases bound : i < bytes.length
  · rw [readBytes_getElem? bound, writeBytes_at m a bytes bound, List.getElem?_eq_getElem bound]
  · rw [List.getElem?_eq_none (by simpa using bound), List.getElem?_eq_none (by omega)]

/-- Copying bytes back to where they are changes nothing. -/
theorem writeBytes_readBytes (m : Mem) (a n : Nat) : writeBytes m a (readBytes m a n) = m := by
  funext x
  by_cases inside : a ≤ x ∧ x < a + n
  · obtain ⟨k, rfl⟩ := Nat.exists_eq_add_of_le inside.1
    rw [writeBytes_at m a _ (by rw [readBytes_length]; omega)]
    simp [readBytes]
  · exact writeBytes_apart m (by rw [readBytes_length]; omega)

end ByteMemory
