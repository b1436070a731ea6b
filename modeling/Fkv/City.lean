import Fkv.Lib.Memory
import Fkv.Lib.Mixing

namespace Fkv.City
open ByteMemory Mixing

def k0 : BitVec 64 := 0xc3a5c85c97cb3127

def k1 : BitVec 64 := 0xb492b66fbe98f273

def k2 : BitVec 64 := 0x9ae16a3b2f90404f

def k3 : BitVec 64 := 0xc949d7c7509e6557

/-- The multiplier of `Hash128to64`. -/
def kMul : BitVec 64 := 0x9ddfea08eb382d69

def fetch64 (m : Mem) (p : Nat) : BitVec 64 := BitVec.ofNat 64 (read64 m p)

def fetch32 (m : Mem) (p : Nat) : BitVec 32 := BitVec.ofNat 32 (read32 m p)

structure Uint128 where
  first : BitVec 64
  second : BitVec 64
  deriving DecidableEq

def hash128to64 (x : Uint128) : BitVec 64 :=
  let a := (x.first ^^^ x.second) * kMul
  let a := a ^^^ (a >>> 47)
  let b := (x.second ^^^ a) * kMul
  let b := b ^^^ (b >>> 47)
  b * kMul

def rotate (val : BitVec 64) (shift : Nat) : BitVec 64 :=
  if shift = 0 then val else (val >>> shift) ||| (val <<< (64 - shift))

def rotateByAtLeast1 (val : BitVec 64) (shift : Nat) : BitVec 64 := (val >>> shift) ||| (val <<< (64 - shift))

def shiftMix (val : BitVec 64) : BitVec 64 := val ^^^ (val >>> 47)

def hashLen16 (u v : BitVec 64) : BitVec 64 := hash128to64 ⟨u, v⟩

/-- The words of the last branch are of 32 bits. -/
def hashLen0to16 (m : Mem) (s len : Nat) : BitVec 64 :=
  if 8 < len then
    let a := fetch64 m s
    let b := fetch64 m (s + len - 8)
    hashLen16 a (rotateByAtLeast1 (b + BitVec.ofNat 64 len) len) ^^^ b
  else if 4 ≤ len then
    let a := (fetch32 m s).setWidth 64
    hashLen16 (BitVec.ofNat 64 len + (a <<< 3)) ((fetch32 m (s + len - 4)).setWidth 64)
  else if 0 < len then
    let a := m s
    let b := m (s + (len >>> 1))
    let c := m (s + len - 1)
    let y := BitVec.ofNat 32 a.toNat + (BitVec.ofNat 32 b.toNat <<< 8)
    let z := BitVec.ofNat 32 len + (BitVec.ofNat 32 c.toNat <<< 2)
    shiftMix (y.setWidth 64 * k2 ^^^ z.setWidth 64 * k3) * k2
  else k2

def hashLen17to32 (m : Mem) (s len : Nat) : BitVec 64 :=
  let a := fetch64 m s * k1
  let b := fetch64 m (s + 8)
  let c := fetch64 m (s + len - 8) * k2
  let d := fetch64 m (s + len - 16) * k0
  hashLen16 (rotate (a - b) 43 + rotate c 30 + d) (a + rotate (b ^^^ k3) 20 - c + BitVec.ofNat 64 len)

def weakHashLen32WithSeeds6 (w x y z a b : BitVec 64) : Uint128 :=
  let a := a + w
  let b := rotate (b + a + z) 21
  let c := a
  let a := a + x
  let a := a + y
  let b := b + rotate a 44
  ⟨a + z, b + c⟩

def weakHashLen32WithSeeds (m : Mem) (s : Nat) (a b : BitVec 64) : Uint128 :=
  weakHashLen32WithSeeds6 (fetch64 m s) (fetch64 m (s + 8)) (fetch64 m (s + 16)) (fetch64 m (s + 24)) a b

def hashLen33to64 (m : Mem) (s len : Nat) : BitVec 64 :=
  let z := fetch64 m (s + 24)
  let a := fetch64 m s + (BitVec.ofNat 64 len + fetch64 m (s + len - 16)) * k0
  let b := rotate (a + z) 52
  let c := rotate a 37
  let a := a + fetch64 m (s + 8)
  let c := c + rotate a 7
  let a := a + fetch64 m (s + 16)
  let vf := a + z
  let vs := b + rotate a 31 + c
  let a := fetch64 m (s + 16) + fetch64 m (s + len - 32)
  let z := fetch64 m (s + len - 8)
  let b := rotate (a + z) 52
  let c := rotate a 37
  let a := a + fetch64 m (s + len - 24)
  let c := c + rotate a 7
  let a := a + fetch64 m (s + len - 16)
  let wf := a + z
  let ws := b + rotate a 31 + c
  let r := shiftMix ((vf + ws) * k2 + (wf + vs) * k0)
  shiftMix (r * k0 + vs) * k2

/-- The 56 bytes of state of the loop. -/
structure Lanes where
  x : BitVec 64
  y : BitVec 64
  z : BitVec 64
  v : Uint128
  w : Uint128

/-- The loop body. It ends with `x` and `z` swapped. -/
def Lanes.absorb (m : Mem) (s : Nat) (st : Lanes) : Lanes :=
  let x := rotate (st.x + st.y + st.v.first + fetch64 m (s + 8)) 37 * k1
  let y := rotate (st.y + st.v.second + fetch64 m (s + 48)) 42 * k1
  let x := x ^^^ st.w.second
  let y := y + (st.v.first + fetch64 m (s + 40))
  let z := rotate (st.z + st.w.first) 33 * k1
  let v := weakHashLen32WithSeeds m s (st.v.second * k1) (x + st.w.first)
  let w := weakHashLen32WithSeeds m (s + 32) (z + st.w.second) (y + fetch64 m (s + 16))
  ⟨z, y, x, v, w⟩

/-- A loop over the `n` chunks of 64 bytes from `s` on. -/
def chunks (body : Nat → Lanes → Lanes) : Nat → Nat → Lanes → Lanes
  | 0, _, st => st
  | n + 1, s, st => chunks body n (s + 64) (body s st)

/-- The end of the key is hashed first, then all its chunks of 64 bytes. -/
def cityHash64 (m : Mem) (s len : Nat) : BitVec 64 :=
  if len ≤ 32 then
    if len ≤ 16 then hashLen0to16 m s len else hashLen17to32 m s len
  else if len ≤ 64 then hashLen33to64 m s len
  else
    let x := fetch64 m (s + len - 40)
    let y := fetch64 m (s + len - 16) + fetch64 m (s + len - 56)
    let z := hashLen16 (fetch64 m (s + len - 48) + BitVec.ofNat 64 len) (fetch64 m (s + len - 24))
    let v := weakHashLen32WithSeeds m (s + len - 64) (BitVec.ofNat 64 len) z
    let w := weakHashLen32WithSeeds m (s + len - 32) (y + k1) x
    let x := x * k1 + fetch64 m s
    let st := chunks (fun s st => st.absorb m s) ((len - 1) / 64) s ⟨x, y, z, v, w⟩
    hashLen16 (hashLen16 st.v.first st.w.first + shiftMix st.y * k1 + st.z)
      (hashLen16 st.v.second st.w.second + st.x)

/-- The keys hold the same bytes. -/
def Agree (m : Mem) (s : Nat) (m' : Mem) (s' len : Nat) : Prop := ∀ i < len, m (s + i) = m' (s' + i)

namespace Agree

theorem drop {m m' : Mem} {s s' len : Nat} (same : Agree m s m' s' len) (n : Nat) :
    Agree m (s + n) m' (s' + n) (len - n) := by
  intro i bound
  rw [Nat.add_assoc, Nat.add_assoc]
  exact same (n + i) (by omega)

theorem word {m m' : Mem} {s s' len o : Nat} (same : Agree m s m' s' len) (inside : o + 8 ≤ len) :
    fetch64 m (s + o) = fetch64 m' (s' + o) := by
  have shift : read64 m (s + o) = read64 m' (s' + o) := read64_shift fun k bound => (same.drop o) k (by omega)
  rw [fetch64, fetch64, shift]

theorem front {m m' : Mem} {s s' len : Nat} (same : Agree m s m' s' len) (inside : 8 ≤ len) :
    fetch64 m s = fetch64 m' s' := same.word (o := 0) (by omega)

theorem back {m m' : Mem} {s s' len o : Nat} (same : Agree m s m' s' len) (enough : 8 ≤ o) (inside : o ≤ len) :
    fetch64 m (s + len - o) = fetch64 m' (s' + len - o) := by
  rw [Nat.add_sub_assoc inside, Nat.add_sub_assoc inside]
  exact same.word (by omega)

theorem halves {m m' : Mem} {s s' len : Nat} (same : Agree m s m' s' len) (inside : 4 ≤ len) :
    fetch32 m s = fetch32 m' s' ∧ fetch32 m (s + len - 4) = fetch32 m' (s' + len - 4) := by
  have first : read32 m s = read32 m' s' := read32_shift fun k bound => same k (by omega)
  have last : read32 m (s + (len - 4)) = read32 m' (s' + (len - 4)) :=
    read32_shift fun k bound => (same.drop (len - 4)) k (by omega)
  rw [fetch32, fetch32, fetch32, fetch32, first, Nat.add_sub_assoc inside, Nat.add_sub_assoc inside, last]
  exact ⟨rfl, rfl⟩

theorem hashLen0to16 {m m' : Mem} {s s' len : Nat} (same : Agree m s m' s' len) :
    City.hashLen0to16 m s len = City.hashLen0to16 m' s' len := by
  unfold City.hashLen0to16
  split
  · rw [same.front (by omega), same.back (by omega) (by omega)]
  · split
    · obtain ⟨first, last⟩ := same.halves (by omega)
      rw [first, last]
    · split
      · have first : m s = m' s' := same 0 (by omega)
        have half : len >>> 1 < len := by
          rw [Nat.shiftRight_one]
          omega
        have last := same (len - 1) (by omega)
        rw [← Nat.add_sub_assoc (by omega), ← Nat.add_sub_assoc (by omega)] at last
        rw [first, same _ half, last]
      · rfl

theorem hashLen17to32 {m m' : Mem} {s s' len : Nat} (same : Agree m s m' s' len) (long : 16 < len) :
    City.hashLen17to32 m s len = City.hashLen17to32 m' s' len := by
  rw [City.hashLen17to32, same.front (by omega), same.word (by omega), same.back (by omega) (by omega),
    same.back (by omega) (by omega)]
  rfl

theorem hashLen33to64 {m m' : Mem} {s s' len : Nat} (same : Agree m s m' s' len) (long : 32 < len) :
    City.hashLen33to64 m s len = City.hashLen33to64 m' s' len := by
  unfold City.hashLen33to64
  simp only [same.front (show 8 ≤ len by omega), same.word (show 8 + 8 ≤ len by omega),
    same.word (show 16 + 8 ≤ len by omega),
    same.word (show 24 + 8 ≤ len by omega), same.back (show 8 ≤ 8 by omega) (show 8 ≤ len by omega),
    same.back (show 8 ≤ 16 by omega) (show 16 ≤ len by omega),
    same.back (show 8 ≤ 24 by omega) (show 24 ≤ len by omega),
    same.back (show 8 ≤ 32 by omega) (show 32 ≤ len by omega)]

theorem weakHashLen32WithSeeds {m m' : Mem} {s s' len : Nat} (same : Agree m s m' s' len) (long : 32 ≤ len)
    (a b : BitVec 64) :
    City.weakHashLen32WithSeeds m s a b = City.weakHashLen32WithSeeds m' s' a b := by
  rw [City.weakHashLen32WithSeeds, same.front (by omega), same.word (by omega), same.word (by omega),
    same.word (by omega)]
  rfl

theorem absorb {m m' : Mem} {s s' len : Nat} (same : Agree m s m' s' len) (long : 64 ≤ len) (st : Lanes) :
    st.absorb m s = st.absorb m' s' := by
  have later := (same.drop 32).weakHashLen32WithSeeds (show 32 ≤ len - 32 by omega)
  simp only [Lanes.absorb, same.word (show 8 + 8 ≤ len by omega), same.word (show 16 + 8 ≤ len by omega),
    same.word (show 40 + 8 ≤ len by omega), same.word (show 48 + 8 ≤ len by omega),
    same.weakHashLen32WithSeeds (show 32 ≤ len by omega), later]

theorem chunks {m m' : Mem} {s s' len n : Nat} (same : Agree m s m' s' len) (inside : 64 * n ≤ len) (st : Lanes) :
    City.chunks (fun s st => st.absorb m s) n s st = City.chunks (fun s st => st.absorb m' s) n s' st := by
  induction n generalizing s s' len st with
  | zero => rw [City.chunks, City.chunks]
  | succ n ih =>
    rw [City.chunks, City.chunks, same.absorb (by omega)]
    exact ih (same.drop 64) (by omega) _

/-- Neither where a key lies nor what is around it matters to its hash. -/
theorem cityHash64 {m m' : Mem} {s s' len : Nat} (same : Agree m s m' s' len) :
    City.cityHash64 m s len = City.cityHash64 m' s' len := by
  unfold City.cityHash64
  split
  · split
    · exact same.hashLen0to16
    · exact same.hashLen17to32 (by omega)
  · split
    · exact same.hashLen33to64 (by omega)
    · have ending := fun (o : Nat) (enough : 8 ≤ o) (inside : o ≤ 64) => same.back enough (show o ≤ len by omega)
      have last : Agree m (s + len - 64) m' (s' + len - 64) 64 := by
        rw [Nat.add_sub_assoc (by omega), Nat.add_sub_assoc (by omega)]
        exact fun i bound => same.drop (len - 64) i (by omega)
      have near : Agree m (s + len - 32) m' (s' + len - 32) 32 := by
        rw [Nat.add_sub_assoc (by omega), Nat.add_sub_assoc (by omega)]
        exact fun i bound => same.drop (len - 32) i (by omega)
      simp only [ending 40 (by omega) (by omega), ending 16 (by omega) (by omega), ending 56 (by omega) (by omega),
        ending 48 (by omega) (by omega), ending 24 (by omega) (by omega), same.front (show 8 ≤ len by omega),
        last.weakHashLen32WithSeeds (by omega), near.weakHashLen32WithSeeds (by omega),
        same.chunks (show 64 * ((len - 1) / 64) ≤ len by omega)]

end Agree

/-- The bytes at the end of a short key that its hash mixes in last. -/
def tailLength (len : Nat) : Nat := if 8 < len then 8 else if 4 ≤ len then 4 else 1

theorem shiftMix_injective : Function.Injective shiftMix := xorShift_injective 47 (by decide)

theorem k2_injective : Function.Injective (· * k2) := mul_injective k2 0xb5a360ae14bed6af (by decide)

theorem kMul_injective : Function.Injective (· * kMul) := mul_injective kMul 0xdc56e6f5090b32d9 (by decide)

/-- For a fixed second word the hash of two loses nothing of the first. -/
theorem hashLen16_inj {u u' v : BitVec 64} : hashLen16 u v = hashLen16 u' v ↔ u = u' := by
  have form : ∀ u, hashLen16 u v = shiftMix ((v ^^^ shiftMix ((u ^^^ v) * kMul)) * kMul) * kMul := fun _ => rfl
  refine ⟨fun same => ?_, congrArg (hashLen16 · v)⟩
  rw [form, form] at same
  have outer := kMul_injective (shiftMix_injective (kMul_injective same))
  exact (BitVec.xor_left_inj v).mp (kMul_injective (shiftMix_injective ((BitVec.xor_right_inj v).mp outer)))

theorem fetch32_inj {m m' : Mem} {s s' : Nat} : fetch32 m s = fetch32 m' s' ↔ Agree m s m' s' 4 := by
  refine Iff.trans ?_ read32_inj
  rw [fetch32, fetch32, ← BitVec.toNat_inj, BitVec.toNat_ofNat, BitVec.toNat_ofNat,
    Nat.mod_eq_of_lt (read32_lt m s), Nat.mod_eq_of_lt (read32_lt m' s')]

theorem fetch64_inj {m m' : Mem} {s s' : Nat} : fetch64 m s = fetch64 m' s' ↔ Agree m s m' s' 8 := by
  refine Iff.trans ?_ read64_inj
  rw [fetch64, fetch64, ← BitVec.toNat_inj, BitVec.toNat_ofNat, BitVec.toNat_ofNat,
    Nat.mod_eq_of_lt (read64_lt m s), Nat.mod_eq_of_lt (read64_lt m' s')]

/-- The front and the end of a key make it up, where they meet. -/
theorem Agree.of_ends {m m' : Mem} {s s' len o n : Nat} (front : Agree m s m' s' n)
    (back : Agree m (s + len - o) m' (s' + len - o) o) (inside : o ≤ len) (meet : len ≤ n + o) :
    Agree m s m' s' len := by
  intro i bound
  rcases Nat.lt_or_ge i n with early | late
  · exact front i early
  · have equal := back (i - (len - o)) (by omega)
    rwa [Nat.add_sub_assoc inside, Nat.add_sub_assoc inside, Nat.add_assoc, Nat.add_assoc,
      Nat.add_sub_cancel' (by omega)] at equal

theorem shifted_inj {a a' : BitVec 32} : a.setWidth 64 <<< 3 = a'.setWidth 64 <<< 3 ↔ a = a' := by
  refine ⟨fun same => ?_, fun same => by rw [same]⟩
  have equal := congrArg BitVec.toNat same
  have bound := a.isLt
  have bound' := a'.isLt
  simp only [BitVec.toNat_shiftLeft, BitVec.toNat_setWidth, Nat.shiftLeft_eq] at equal
  exact BitVec.eq_of_toNat_eq (by omega)

theorem packed_inj {a b a' b' : UInt8} : (BitVec.ofNat 32 a.toNat + (BitVec.ofNat 32 b.toNat <<< 8)).setWidth 64 =
    (BitVec.ofNat 32 a'.toNat + (BitVec.ofNat 32 b'.toNat <<< 8)).setWidth 64 ↔ a = a' ∧ b = b' := by
  refine ⟨fun same => ?_, fun ⟨first, second⟩ => by rw [first, second]⟩
  have equal := congrArg BitVec.toNat same
  have bounds := And.intro a.toNat_lt (And.intro b.toNat_lt (And.intro a'.toNat_lt b'.toNat_lt))
  simp only [BitVec.toNat_add, BitVec.toNat_ofNat, BitVec.toNat_shiftLeft, BitVec.toNat_setWidth,
    Nat.shiftLeft_eq] at equal
  rw [← UInt8.toNat_inj, ← UInt8.toNat_inj]
  omega

/-- A short key can be told from its hash and its end. -/
theorem Agree.of_hash {m m' : Mem} {s s' len : Nat} (short : len ≤ 16)
    (back : Agree m (s + len - tailLength len) m' (s' + len - tailLength len) (tailLength len))
    (same : City.cityHash64 m s len = City.cityHash64 m' s' len) : Agree m s m' s' len := by
  rw [City.cityHash64, City.cityHash64, if_pos (by omega), if_pos short, if_pos (by omega), if_pos short,
    City.hashLen0to16, City.hashLen0to16]
    at same
  by_cases long : 8 < len
  · rw [tailLength, if_pos long] at back
    simp only [if_pos long, back.front le_rfl] at same
    have front := fetch64_inj.mp (hashLen16_inj.mp ((BitVec.xor_left_inj _).mp same))
    exact front.of_ends back (by omega) (by omega)
  by_cases middle : 4 ≤ len
  · rw [tailLength, if_neg long, if_pos middle] at back
    simp only [if_neg long, if_pos middle, (back.halves le_rfl).1] at same
    have front := fetch32_inj.mp (shifted_inj.mp ((BitVec.add_right_inj _).mp (hashLen16_inj.mp same)))
    exact front.of_ends back (by omega) (by omega)
  by_cases some : 0 < len
  · rw [tailLength, if_neg long, if_neg middle] at back
    have last : m (s + len - 1) = m' (s' + len - 1) := back 0 (by omega)
    simp only [if_neg long, if_neg middle, if_pos some, last] at same
    have words := k2_injective ((BitVec.xor_left_inj _).mp (shiftMix_injective (k2_injective same)))
    obtain ⟨first, half⟩ := packed_inj.mp words
    rw [Nat.shiftRight_one] at half
    rw [Nat.add_sub_assoc some, Nat.add_sub_assoc some] at last
    intro i bound
    obtain rfl | rfl | rfl : i = 0 ∨ i = len / 2 ∨ i = len - 1 := by omega
    · exact first
    · exact half
    · exact last
  · exact fun i bound => absurd bound (by omega)

/-- The hash of a key of any length is one of its bytes alone, and tells keys of one
length up to 16 bytes apart that end in the same 8, 4 or 1 bytes. -/
theorem cityHash64_bytes (m : Mem) (s : Nat) (m' : Mem) (s' len : Nat) :
    (Agree m s m' s' len → cityHash64 m s len = cityHash64 m' s' len) ∧
      (len ≤ 16 → Agree m (s + len - tailLength len) m' (s' + len - tailLength len) (tailLength len) →
        (cityHash64 m s len = cityHash64 m' s' len ↔ Agree m s m' s' len)) :=
  ⟨Agree.cityHash64, fun short back => ⟨Agree.of_hash short back, Agree.cityHash64⟩⟩

/-- A key of twelve bytes that begins with this one. -/
def twelveBytes (first : UInt8) : Mem := writeBytes (fun _ => 0) 0 [first, 2, 3, 4, 5, 6, 7, 8, 9, 10, 11, 12]

theorem cityHash64_bytes_twelve : cityHash64 (twelveBytes 0) 0 12 ≠ cityHash64 (twelveBytes 1) 0 12 := by
  obtain ⟨-, apart⟩ := cityHash64_bytes (twelveBytes 0) 0 (twelveBytes 1) 0 12
  have back : ∀ i < 8, twelveBytes 0 (4 + i) = twelveBytes 1 (4 + i) := by decide
  intro same
  exact absurd ((apart (by decide) back).mp same 0 (by decide)) (by decide)

end Fkv.City
