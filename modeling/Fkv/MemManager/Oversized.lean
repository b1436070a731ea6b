import Fkv.MemManager.Carve

namespace Fkv
open CWord Runs

/-- Below 2^31 bytes the class is the size in words, rounded up. -/
theorem classCeilIndex_low {dataSize : Nat} (low : dataSize < 2 ^ 31) (some : 0 < dataSize) :
    classCeilIndex dataSize = ((dataSize + 7) / 8 - 1 : Nat) := by
  unfold classCeilIndex
  rw [toInt32_of_lt low, and_seven]
  simp only
  split
  · omega
  · split <;> omega

/-- From 2^31 bytes on the conversion to int is negative. A multiple of eight is
then taken for the smallest class. -/
theorem classCeilIndex_high_multiple {dataSize : Nat} (high : 2 ^ 31 ≤ dataSize) (word : dataSize < 2 ^ 32)
    (multiple : dataSize % 8 = 0) :
    classCeilIndex dataSize = 0 := by
  unfold classCeilIndex
  rw [toInt32_of_ge high word, and_seven]
  simp only
  rw [if_neg (by omega), if_pos (by omega)]

/-- Any other such size compares as a class above every number of classes. -/
theorem classCeilIndex_high_odd {dataSize : Nat} (high : 2 ^ 31 ≤ dataSize) (word : dataSize < 2 ^ 32)
    (odd : dataSize % 8 ≠ 0) :
    2 ^ 29 < toUInt32 (classCeilIndex dataSize) := by
  unfold classCeilIndex
  rw [toInt32_of_ge high word, and_seven]
  simp only
  rw [if_pos (by omega)]
  unfold toUInt32
  omega

/-- An allocator never has more than 2^29 classes. -/
theorem created_len_le {M : Nat} {raw : SegregatedFits} (word : M < 2 ^ 32) :
    (createSegregatedFits raw M).len ≤ 2 ^ 29 := by
  simp only [createSegregatedFits, segregatedFitsClassSize]
  split <;> omega

theorem firstNonEmpty_none {sfits : SegregatedFits} {i n : Nat} :
    firstNonEmpty sfits i n = none ↔ ∀ j, i ≤ j → j < i + n → segregatedFitsIsEmpty sfits j = true := by
  induction n generalizing i with
  | zero => exact ⟨fun _ j _ _ => by omega, fun _ => rfl⟩
  | succ n ih =>
    rw [firstNonEmpty]
    split
    · rename_i empty
      rw [ih]
      constructor
      · intro all j lower upper
        rcases Nat.lt_or_eq_of_le lower with later | rfl
        · exact all j later (by omega)
        · exact empty
      · exact fun all j lower upper => all j (by omega) (by omega)
    · rename_i listed
      constructor
      · intro found
        cases found
      · intro all
        exact absurd (all i le_rfl (by omega)) listed

/-- A class that is looked at hands out a block or meets a fault. -/
theorem handOut_some (h : Heap) (i : Nat) (h' : Heap) : handOut h i ≠ .ok (none, h') := by
  unfold handOut
  simp only
  split
  · rintro ⟨⟩
  · rintro ⟨⟩

/-- A request of class 0 comes back without a block exactly when every list is
empty. -/
theorem get_smallest {h : Heap} {dataSize : Nat} (positive : 1 ≤ h.sfits.len)
    (smallest : classCeilIndex dataSize = 0) :
    getSegregatedFitsBlock h dataSize = .ok (none, h) ↔
    ∀ i < h.sfits.len, segregatedFitsIsEmpty h.sfits i = true := by
  have inside : (0 : Int) ≤ 0 ∧ (0 : Int) < h.sfits.len := by omega
  have opened : getSegregatedFitsBlock h dataSize = getFrom h 0 := by
    rw [getSegregatedFitsBlock]
    simp only [smallest, headIndex, inside, and_self, if_true, ok_bind, Int.toNat_zero, getFrom, handOut]
    rw [if_neg (by simp [toUInt32])]
  rw [opened, getFrom]
  by_cases first : segregatedFitsIsEmpty h.sfits 0 = true
  · rw [if_pos first, segregatedFitsDivide]
    cases larger : firstNonEmpty h.sfits (0 + 1) (h.sfits.len - (0 + 1)) with
    | none =>
      rw [firstNonEmpty_none] at larger
      simp only [ok_bind, Bool.false_eq_true, if_false, true_iff]
      intro i bound
      rcases Nat.eq_zero_or_pos i with rfl | above
      · exact first
      · exact larger i above (by omega)
    | some i =>
      have listed : ¬ ∀ i < h.sfits.len, segregatedFitsIsEmpty h.sfits i = true := by
        intro all
        rw [firstNonEmpty_none.mpr fun j lower upper => all j (by omega)] at larger
        cases larger
      simp only [listed, iff_false]
      cases divided : divideClass h 0 i with
      | error fault => simp [error_bind]
      | ok h' =>
        simp only [ok_bind, if_true]
        exact handOut_some h' 0 h
  · have listed : ¬ ∀ i < h.sfits.len, segregatedFitsIsEmpty h.sfits i = true := fun all => first (all 0 positive)
    simp only [first, Bool.false_eq_true, if_false, ok_bind, if_true, listed, iff_false]
    exact handOut_some h 0 h

/-- One class past the last is taken for a class. -/
theorem get_past_last {h : Heap} {dataSize : Nat} (above : 8 * h.sfits.len < dataSize)
    (next : dataSize ≤ 8 * (h.sfits.len + 1)) (low : dataSize < 2 ^ 31) :
    getSegregatedFitsBlock h dataSize = .error .headsOutOfRange := by
  have index : (dataSize + 7) / 8 - 1 = h.sfits.len := by omega
  have unsigned : toUInt32 (h.sfits.len : Int) = h.sfits.len := toUInt32_of_nonneg (by omega)
  rw [getSegregatedFitsBlock, classCeilIndex_low low (by omega), index]
  simp only [unsigned, lt_self_iff_false, if_false, headIndex, and_false, error_bind]

/-- A class further on is refused. -/
theorem get_above {h : Heap} {dataSize : Nat} (above : 8 * (h.sfits.len + 1) < dataSize)
    (low : dataSize < 2 ^ 31) :
    getSegregatedFitsBlock h dataSize = .ok (none, h) := by
  have unsigned : toUInt32 (((dataSize + 7) / 8 - 1 : Nat) : Int) = (dataSize + 7) / 8 - 1 :=
    toUInt32_of_nonneg (by omega)
  have beyond : h.sfits.len < (dataSize + 7) / 8 - 1 := by omega
  rw [getSegregatedFitsBlock, classCeilIndex_low low (by omega)]
  simp only [unsigned, beyond, if_true]

/-- A request above the largest class is refused without a look at `heads[]`
exactly when it is below 2^31 bytes and more than one class too large, or from
2^31 bytes on and no multiple of eight. The multiples are refused only while
there is nothing to hand out. -/
theorem get_refuses_iff (h : Heap) (raw : SegregatedFits) (M dataSize : Nat)
    (created : h.sfits.len = (createSegregatedFits raw M).len) (max : M < 2 ^ 32) (positive : 1 ≤ h.sfits.len)
    (word : dataSize < 2 ^ 32) (oversized : 8 * h.sfits.len < dataSize) :
    getSegregatedFitsBlock h dataSize = .ok (none, h) ↔
      (dataSize < 2 ^ 31 ∧ 8 * (h.sfits.len + 1) < dataSize) ∨
      (2 ^ 31 ≤ dataSize ∧ (dataSize % 8 ≠ 0 ∨ ∀ i < h.sfits.len, segregatedFitsIsEmpty h.sfits i = true)) := by
  have few : h.sfits.len ≤ 2 ^ 29 := created ▸ created_len_le max
  by_cases low : dataSize < 2 ^ 31
  · have notHigh : ¬ 2 ^ 31 ≤ dataSize := by omega
    simp only [low, true_and, notHigh, false_and, or_false]
    by_cases next : dataSize ≤ 8 * (h.sfits.len + 1)
    · simp only [get_past_last oversized next low, reduceCtorEq, false_iff]
      omega
    · have above : 8 * (h.sfits.len + 1) < dataSize := by omega
      exact iff_of_true (get_above above low) above
  · have high : 2 ^ 31 ≤ dataSize := by omega
    simp only [low, false_and, high, true_and, false_or]
    by_cases multiple : dataSize % 8 = 0
    · simp only [multiple, ne_eq, not_true_eq_false, false_or]
      exact get_smallest positive (classCeilIndex_high_multiple high word multiple)
    · have beyond : h.sfits.len < toUInt32 (classCeilIndex dataSize) :=
        Nat.lt_of_le_of_lt few (classCeilIndex_high_odd high word multiple)
      rw [getSegregatedFitsBlock]
      simp only [beyond, if_true, ne_eq, multiple, not_false_eq_true, true_or]

theorem get_refuses_iff_small :
    ∃ h, carve (fun _ => 0) smallRaw 16 4096 96 = .ok h ∧ getSegregatedFitsBlock h 33 = .ok (none, h) ∧
      getSegregatedFitsBlock h (2 ^ 31 + 4) = .ok (none, h) ∧
      getSegregatedFitsBlock h (2 ^ 31) ≠ .ok (none, h) := by
  obtain ⟨h, run, rep, -⟩ := carve_spec (A := smallArena) (M := 16) (fun _ => 0) smallRaw rfl rfl
  have len : h.sfits.len = 2 := rep.shape.len
  have listed : segregatedFitsIsEmpty h.sfits 1 = false := by
    simpa using (not_congr (rep.isEmpty_iff (show 1 < smallArena.len by decide))).mpr
      (show smallArena.fresh.lists 1 ≠ [] by decide)
  refine ⟨h, run, ?_, ?_, ?_⟩
  · exact (get_refuses_iff h smallRaw 16 33 len (by decide) (by omega) (by decide) (by omega)).mpr
      (Or.inl (by omega))
  · exact (get_refuses_iff h smallRaw 16 (2 ^ 31 + 4) len (by decide) (by omega) (by decide) (by omega)).mpr
      (Or.inr ⟨by decide, Or.inl (by decide)⟩)
  · intro refused
    rcases (get_refuses_iff h smallRaw 16 (2 ^ 31) len (by decide) (by omega) (by decide) (by omega)).mp refused
      with ⟨low, -⟩ | ⟨-, multiple | empty⟩
    · exact absurd low (by decide)
    · exact multiple (by decide)
    · exact absurd (empty 1 (by omega)) (by simp [listed])

/-- One byte above the largest class of two classes reads `heads[2]`. -/
theorem get_reads_past_heads :
    ∃ h, carve (fun _ => 0) smallRaw 16 4096 96 = .ok h ∧ WellFormed smallArena h ∧
      getSegregatedFitsBlock h 17 = .error .headsOutOfRange := by
  obtain ⟨h, run, rep, -⟩ := carve_spec (A := smallArena) (M := 16) (fun _ => 0) smallRaw rfl rfl
  have len : h.sfits.len = 2 := rep.shape.len
  refine ⟨h, run, ⟨_, fun b member => Or.inr (Region.fresh_free _ b member), rep⟩, ?_⟩
  exact get_past_last (by omega) (by omega) (by omega)

end Fkv
