import Fkv.Lib.Runs
import Fkv.MemManager.Tags

namespace Fkv
open ByteMemory CWord Tiling LinkedRing Runs

/-- Taking the block of `w` words at `p` off its list, if it is on one. -/
def delist (F : Nat → List Nat) (w p : Nat) : Nat → List Nat :=
  if 3 ≤ w then Function.update F (w - 3) ((F (w - 3)).erase (p + 8)) else F

/-- Putting it in front of its list, if blocks of its size are listed. -/
def enlist (F : Nat → List Nat) (w p : Nat) : Nat → List Nat :=
  if 3 ≤ w then Function.update F (w - 3) ((p + 8) :: F (w - 3)) else F

theorem class_len (A : Region) : (segregatedFitsClass A.len + 16) % 2 ^ 32 = 8 * (A.len + 3) := by
  have len := A.len_lt
  unfold segregatedFitsClass
  omega

theorem class_eq {i : Nat} (A : Region) (bound : i ≤ A.len) : segregatedFitsClass i = 8 * (i + 1) := by
  have len := A.len_lt
  unfold segregatedFitsClass
  omega

/-- The class of a multiple of eight bytes of data. -/
theorem classCeilIndex_words {w : Nat} (positive : 1 ≤ w) (small : 8 * w < 2 ^ 31) :
    classCeilIndex (8 * w) = (w : Int) - 1 := by
  have low : 8 * w &&& 7 = 0 := by
    rw [and_seven]
    omega
  unfold classCeilIndex
  rw [toInt32_of_lt small]
  simp only [low, ne_eq, not_true_eq_false, if_false]
  split <;> omega

theorem neighbourIndex_eq {A : Arena} {h : Heap} {v : Nat} (shape : Shape A h.sfits) (positive : 1 ≤ v)
    (fits : v ≤ A.len + 2) :
    neighbourIndex h.sfits (8 * v) = if 3 ≤ v then ((v - 3 : Nat) : Int) else -1 := by
  have len := A.len_lt
  have lenPos := A.len_pos
  have lenInt : toInt32 A.len = A.len := toInt32_of_lt (by omega)
  by_cases listed : 3 ≤ v
  · have data : sub64 (8 * v) 16 = 8 * (v - 2) := by
      rw [sub64_of_le (by omega) (by omega)]
      omega
    have dataInt : toInt32 (8 * (v - 2)) = ((8 * (v - 2) : Nat) : Int) := toInt32_of_lt (by omega)
    have positiveData : (0 : Int) < ((8 * (v - 2) : Nat) : Int) := by omega
    have ceil := classCeilIndex_words (w := v - 2) (by omega) (by omega)
    simp only [neighbourIndex, shape.len, lenInt, data, dataInt, positiveData, if_true,
      toUInt32_of_nonneg (x := 8 * (v - 2)) (by omega), ceil, listed]
    rw [if_neg (by omega)]
    omega
  · have small : ¬ (0 < toInt32 (sub64 (8 * v) 16)) := by
      have cases : v = 1 ∨ v = 2 := by omega
      rcases cases with rfl | rfl <;> decide
    simp only [neighbourIndex, shape.len, lenInt, small, if_false, listed]
    rw [if_neg (by omega)]

/-- Removing a free neighbour from its list takes it in hand. -/
theorem Rep.removeNeighbour {A : Arena} {h : Heap} {p v : Nat} {pre post : List Block} {F : Nat → List Nat}
    (rep : Rep A h ⟨pre ++ ⟨v, .free⟩ :: post, F⟩) (atP : p = A.addr + span Block.size pre) :
    ∃ h', removeNeighbour h (8 * v) (p + 8) = .ok h' ∧
      Evolves A h ⟨pre ++ ⟨v, .free⟩ :: post, F⟩ h' ⟨pre ++ ⟨v, .hand⟩ :: post, delist F v p⟩ := by
  obtain ⟨positive, fits⟩ : 1 ≤ v ∧ v ≤ A.len + 2 := rep.sized ⟨v, .free⟩ (by simp)
  have index := neighbourIndex_eq rep.shape positive fits
  by_cases listed : 3 ≤ v
  · obtain ⟨i, rfl⟩ : ∃ i, v = i + 3 := ⟨v - 3, by omega⟩
    obtain ⟨h', run, evolves⟩ := rep.unlink (by omega)
    rw [← atP] at run evolves
    rw [if_pos listed, Nat.add_sub_cancel] at index
    refine ⟨h', ?_, by simpa [delist] using evolves⟩
    have inside : (0 : Int) ≤ (i : Int) ∧ (i : Int) < A.len := by omega
    simp only [Fkv.removeNeighbour, index, inside.1, if_true, headIndex, rep.shape.len, inside, and_self,
      Int.toNat_natCast]
    exact run
  · rw [if_neg listed] at index
    refine ⟨h, by simp [Fkv.removeNeighbour, index], ?_⟩
    have tags := rep.tags (by simp)
    have kept := rep.retag (m := h.mem) (c := ⟨v, .hand⟩) (by simp [Block.Listed, listed])
      (by simp [Block.Listed]) rfl positive rfl (fun _ => tags.1) (fun _ => tags.2) (fun _ _ => rfl)
    refine ⟨by simpa [delist, listed] using kept, fun _ _ => rfl, fun z => (vacant_hand ..).mp⟩

/-- Two neighbours in hand become one when the outer tags say so. -/
theorem Rep.join {A : Arena} {h : Heap} {p v w : Nat} {pre post : List Block} {F : Nat → List Nat}
    (rep : Rep A h ⟨pre ++ ⟨v, .hand⟩ :: ⟨w, .hand⟩ :: post, F⟩) (atP : p = A.addr + span Block.size pre) :
    Evolves A h ⟨pre ++ ⟨v, .hand⟩ :: ⟨w, .hand⟩ :: post, F⟩
      { h with mem := storeBoth h.mem p (p + 8 * (v + w) - 8) (8 * (v + w)) }
      ⟨pre ++ ⟨v + w, .hand⟩ :: post, F⟩ := by
  have positive : 1 ≤ v := rep.pos ⟨v, .hand⟩ (by simp) (by simp)
  have extent := rep.extent
  simp only [span_cons, Block.size_mk] at extent
  have small := A.size_lt
  have stored := storeBoth_spec (m := h.mem) (p := p) (w := v + w) (v := 8 * (v + w)) (by omega) (by omega)
    (Or.inl ⟨rfl, rfl⟩)
  have rep' : Rep A h ⟨pre ++ [⟨v, .hand⟩, ⟨w, .hand⟩] ++ post, F⟩ := by simpa using rep
  have joined : Evolves A h ⟨pre ++ [⟨v, .hand⟩, ⟨w, .hand⟩] ++ post, F⟩
      { h with mem := storeBoth h.mem p (p + 8 * (v + w) - 8) (8 * (v + w)) }
      ⟨pre ++ [⟨v + w, .hand⟩] ++ post, F⟩ := by
    refine rep'.reshape rfl ?_ (by simp [Block.Listed]) (by simp [Block.Listed]) (by simp; omega) ?_ ?_
    · intro z away
      simp only [span_cons, span_nil, Block.size_mk] at away
      exact stored.2.2 z (by omega)
    · simp only [List.mem_singleton, forall_eq, Block.Sized]
      omega
    · simp only [tagged_cons, tagged_nil, and_true, Block.size_mk, Block.tag, reduceCtorEq, if_false,
        ← atP]
      exact fun _ => ⟨stored.1, stored.2.1⟩
  simpa using joined

/-- A free block behind the one in hand is merged into it. -/
theorem mergeBlockBackward_free {A : Arena} {h : Heap} {p v w : Nat} {pre post : List Block}
    {F : Nat → List Nat} (rep : Rep A h ⟨pre ++ ⟨w, .hand⟩ :: ⟨v, .free⟩ :: post, F⟩)
    (atP : p = A.addr + span Block.size pre) :
    ∃ h', mergeBlockBackward h p = .ok (true, h') ∧
      Evolves A h ⟨pre ++ ⟨w, .hand⟩ :: ⟨v, .free⟩ :: post, F⟩ h'
        ⟨pre ++ ⟨w + v, .hand⟩ :: post, delist F v (p + 8 * w)⟩ := by
  have extent := rep.extent
  simp only [span_cons, Block.size_mk] at extent
  have small := A.size_lt
  have top := A.top
  have finish := A.end_lt
  have low := A.addr_ge
  obtain ⟨positive, fits⟩ : 1 ≤ v ∧ v ≤ A.len + 2 := rep.sized ⟨v, .free⟩ (by simp)
  have own := (rep.tags (by simp)).1
  have rep' : Rep A h ⟨(pre ++ [⟨w, .hand⟩]) ++ ⟨v, .free⟩ :: post, F⟩ := by simpa using rep
  have atNext : p + 8 * w = A.addr + span Block.size (pre ++ [⟨w, .hand⟩]) := by simp; omega
  have next := (rep'.tags (by simp)).1
  rw [← atNext] at next
  rw [← atP] at own
  simp only [Block.tag, reduceCtorEq, if_false, Nat.add_zero] at own next
  obtain ⟨h₁, removed, first⟩ := rep'.removeNeighbour atNext
  have again := (first.rep.tags (by simp)).1
  rw [← atNext] at again
  simp only [Block.tag, reduceCtorEq, if_false, Nat.add_zero] at again
  have first' : Evolves A h ⟨pre ++ ⟨w, .hand⟩ :: ⟨v, .free⟩ :: post, F⟩ h₁
      ⟨pre ++ ⟨w, .hand⟩ :: ⟨v, .hand⟩ :: post, delist F v (p + 8 * w)⟩ := by simpa using first
  refine ⟨_, ?_, first'.trans (first'.rep.join atP)⟩
  have unused : 8 * v &&& 1 = 0 := by rw [Nat.and_one_is_mod]; omega
  simp only [mergeBlockBackward, rep.shape.addr, rep.shape.addrSize, rep.shape.len, class_len, own,
    freeBit_size (w := w) (by omega), add64_of_lt (a := A.addr) (b := A.addrSize) (by omega),
    add64_of_lt (a := p) (b := 8 * w) (by omega), next,
    add64_of_lt (a := p + 8 * w) (b := 8) (by omega), unused,
    sub64_of_le (a := p + 8 * w) (b := 8) (by omega) (by omega),
    add64_of_lt (a := p + 8 * w - 8) (b := 8 * v) (by omega),
    add64_of_lt (a := p + 8 * w - 8 + 8 * v) (b := 8) (by omega), ne_eq, not_true_eq_false, if_false]
  rw [if_neg (by omega), if_neg (by omega), if_neg (by omega), removed]
  simp only [ok_bind, again, add64_of_lt (a := 8 * w) (b := 8 * v) (by omega)]
  rw [show p + 8 * w - 8 + 8 * v = p + 8 * (w + v) - 8 by omega, show 8 * w + 8 * v = 8 * (w + v) by omega]

/-- Behind the block in hand there is the end of the partition or a used block:
nothing is merged. -/
theorem mergeBlockBackward_stop {A : Arena} {h : Heap} {p w : Nat} {pre post : List Block} {F : Nat → List Nat}
    (rep : Rep A h ⟨pre ++ ⟨w, .hand⟩ :: post, F⟩) (atP : p = A.addr + span Block.size pre)
    (stop : ∀ b ∈ post.head?, b.state = .used) :
    mergeBlockBackward h p = .ok (false, h) := by
  have extent := rep.extent
  have small := A.size_lt
  have top := A.top
  have finish := A.end_lt
  have own := (rep.tags (by simp)).1
  rw [← atP] at own
  simp only [Block.tag, reduceCtorEq, if_false, Nat.add_zero] at own extent
  have unfolded : mergeBlockBackward h p = if A.addr + A.addrSize < p + 8 * w + 8 then .ok (false, h)
      else if read64 h.mem (p + 8 * w) &&& 1 ≠ 0 then .ok (false, h) else mergeBlockBackward h p := by
    simp only [mergeBlockBackward, rep.shape.addr, rep.shape.addrSize, own, freeBit_size (w := w) (by omega),
      add64_of_lt (a := A.addr) (b := A.addrSize) (by omega), add64_of_lt (a := p) (b := 8 * w) (by omega),
      add64_of_lt (a := p + 8 * w) (b := 8) (by omega)]
    split
    · rfl
    · split <;> rfl
  cases post with
  | nil =>
    rw [unfolded, if_pos (by simp only [span_nil] at extent; omega)]
  | cons b post =>
    have used : b.state = .used := stop b (by simp)
    have rep' : Rep A h ⟨(pre ++ [⟨w, .hand⟩]) ++ b :: post, F⟩ := by simpa using rep
    have next := (rep'.tags (by simp [used])).1
    have atNext : p + 8 * w = A.addr + span Block.size (pre ++ [⟨w, .hand⟩]) := by simp; omega
    rw [← atNext] at next
    rw [unfolded, next, if_pos ((tag_used_iff b).mpr used)]
    split <;> rfl

/-- A free block in front of the one in hand is merged into it. -/
theorem mergeBlockForward_free {A : Arena} {h : Heap} {p v w : Nat} {pre post : List Block} {F : Nat → List Nat}
    (rep : Rep A h ⟨pre ++ ⟨v, .free⟩ :: ⟨w, .hand⟩ :: post, F⟩) (atP : p = A.addr + span Block.size pre) :
    ∃ h', mergeBlockForward h (p + 8 * v + 8 * w - 8) = .ok (true, h') ∧
      Evolves A h ⟨pre ++ ⟨v, .free⟩ :: ⟨w, .hand⟩ :: post, F⟩ h'
        ⟨pre ++ ⟨v + w, .hand⟩ :: post, delist F v p⟩ := by
  have extent := rep.extent
  simp only [span_cons, Block.size_mk] at extent
  have small := A.size_lt
  have top := A.top
  have finish := A.end_lt
  have low := A.addr_ge
  obtain ⟨positive, fits⟩ : 1 ≤ v ∧ v ≤ A.len + 2 := rep.sized ⟨v, .free⟩ (by simp)
  have rep' : Rep A h ⟨(pre ++ [⟨v, .free⟩]) ++ ⟨w, .hand⟩ :: post, F⟩ := by simpa using rep
  have positive' : 1 ≤ w := rep.pos ⟨w, .hand⟩ (by simp) (by simp)
  have atHand : p + 8 * v = A.addr + span Block.size (pre ++ [⟨v, .free⟩]) := by simp; omega
  have own := (rep'.tags (by simp)).2
  have previous := (rep.tags (by simp)).2
  rw [← atHand] at own
  rw [← atP] at previous
  simp only [Block.tag, reduceCtorEq, if_false, Nat.add_zero] at own previous
  obtain ⟨h₁, removed, first⟩ := rep.removeNeighbour atP
  have again := (first.rep.tags (by simp)).2
  rw [← atP] at again
  simp only [Block.tag, reduceCtorEq, if_false, Nat.add_zero] at again
  refine ⟨_, ?_, first.trans (first.rep.join atP)⟩
  have unused : 8 * v &&& 1 = 0 := by rw [Nat.and_one_is_mod]; omega
  have back : sub64 (p + 8 * v + 8 * w - 8) (8 * w) = p + 8 * v - 8 := by
    rw [sub64_of_le (by omega) (by omega)]
    omega
  have head : add64 (sub64 (p + 8 * v - 8) (8 * v)) 8 = p := by
    by_cases deep : 8 * v ≤ p + 8 * v - 8
    · rw [sub64_of_le deep (by omega), add64_of_lt (by omega)]
      omega
    · omega
  simp only [mergeBlockForward, rep.shape.addr, rep.shape.len, class_len, own,
    freeBit_size (w := w) (by omega), back, previous, unused, head, ne_eq, not_true_eq_false, if_false]
  rw [if_neg (by omega), if_neg (by omega), if_neg (by omega), add64_of_lt (by omega), removed]
  simp only [ok_bind, again, add64_of_lt (a := 8 * w) (b := 8 * v) (by omega)]
  rw [show p + 8 * v + 8 * w - 8 = p + 8 * (v + w) - 8 by omega, show 8 * w + 8 * v = 8 * (v + w) by omega]

/-- In front of the block in hand there is the start of the partition or a used
block: nothing is merged. -/
theorem mergeBlockForward_stop {A : Arena} {h : Heap} {p w : Nat} {pre post : List Block} {F : Nat → List Nat}
    (rep : Rep A h ⟨pre ++ ⟨w, .hand⟩ :: post, F⟩) (atP : p = A.addr + span Block.size pre)
    (stop : ∀ b ∈ pre.getLast?, b.state = .used) :
    mergeBlockForward h (p + 8 * w - 8) = .ok (false, h) := by
  have extent := rep.extent
  have small := A.size_lt
  have top := A.top
  have low := A.addr_ge
  have positive : 1 ≤ w := rep.pos ⟨w, .hand⟩ (by simp) (by simp)
  have own := (rep.tags (by simp)).2
  rw [← atP] at own
  simp only [Block.tag, reduceCtorEq, if_false, Nat.add_zero] at own extent
  have back : sub64 (p + 8 * w - 8) (8 * w) = p - 8 := by
    rw [sub64_of_le (by omega) (by omega)]
    omega
  have unfolded : mergeBlockForward h (p + 8 * w - 8) = if p - 8 < A.addr then .ok (false, h)
      else if read64 h.mem (p - 8) &&& 1 ≠ 0 then .ok (false, h)
      else mergeBlockForward h (p + 8 * w - 8) := by
    simp only [mergeBlockForward, rep.shape.addr, own, freeBit_size (w := w) (by omega), back]
    split
    · rfl
    · split <;> rfl
  cases pre using List.reverseRecOn with
  | nil =>
    rw [unfolded, if_pos (by simp only [span_nil] at atP; omega)]
  | append_singleton pre b =>
    have used : b.state = .used := stop b (by simp)
    have rep' : Rep A h ⟨pre ++ b :: ⟨w, .hand⟩ :: post, F⟩ := by simpa using rep
    have previous := (rep'.tags (by simp [used])).2
    simp only [span_append, span_cons, span_nil, Block.size] at atP
    rw [show A.addr + span Block.size pre + 8 * b.words - 8 = p - 8 by omega] at previous
    rw [unfolded, previous, if_pos ((tag_used_iff b).mpr used)]
    split <;> rfl

end Fkv
