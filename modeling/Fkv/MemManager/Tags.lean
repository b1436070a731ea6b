import Fkv.MemManager.Lists

namespace Fkv
open ByteMemory CWord Tiling LinkedRing

/-- A chained assignment to the two ends of a block, in either order. -/
theorem storeBoth_spec {m : Mem} {p w x y v : Nat} (positive : 1 ≤ w) (small : v < 2 ^ 64)
    (ends : (x = p ∧ y = p + 8 * w - 8) ∨ (x = p + 8 * w - 8 ∧ y = p)) :
    read64 (storeBoth m x y v) p = v ∧ read64 (storeBoth m x y v) (p + 8 * w - 8) = v ∧
      ∀ z, z < p ∨ p + 8 * w ≤ z → storeBoth m x y v z = m z := by
  have outer : read64 (storeBoth m x y v) x = v := read64_write64_of_lt _ _ small
  have inner : read64 (storeBoth m x y v) y = v := by
    by_cases one : w = 1
    · have same : y = x := by omega
      subst same
      exact outer
    · unfold storeBoth
      rw [read64_write64_apart _ (by omega), read64_write64_of_lt _ _ small]
  refine ⟨?_, ?_, ?_⟩
  · rcases ends with ⟨rfl, -⟩ | ⟨-, rfl⟩
    · exact outer
    · exact inner
  · rcases ends with ⟨-, rfl⟩ | ⟨rfl, -⟩
    · exact inner
    · exact outer
  · intro z away
    unfold storeBoth
    rw [write64_apart _ (by omega), write64_apart _ (by omega)]

/-- Rewriting the tags of a block that is on no list. -/
theorem Rep.retag {A : Region} {h : Heap} {m : Mem} {p : Nat} {b c : Block} {pre post : List Block}
    {F : Nat → List Nat} (rep : Rep A h ⟨pre ++ b :: post, F⟩) (unlisted : ¬ b.Listed) (unlisted' : ¬ c.Listed)
    (length : c.words = b.words) (sized : c.Sized A.len) (atP : p = A.addr + span Block.size pre)
    (header : c.state ≠ .raw → read64 m p = c.tag)
    (footer : c.state ≠ .raw → read64 m (p + 8 * c.words - 8) = c.tag)
    (outside : ∀ z, z < p ∨ p + 8 * c.words ≤ z → m z = h.mem z) :
    Rep A { h with mem := m } ⟨pre ++ c :: post, F⟩ := by
  have rep' : Rep A h ⟨pre ++ [b] ++ post, F⟩ := by simpa using rep
  have new : Rep A { h with mem := m } ⟨pre ++ [c] ++ post, F⟩ := by
    refine rep'.restate rfl ?_ (by simpa using unlisted) (by simpa using unlisted')
      (by simp [Block.size, length]) (by simpa using sized) ?_
    · intro z away
      simp only [span_cons, span_nil, Block.size] at away
      exact outside z (by omega)
    · simp only [tagged_cons, tagged_nil, and_true, Block.size, ← atP]
      exact fun notRaw => ⟨header notRaw, footer notRaw⟩
  simpa using new

/-- Dropping the tags of a block from the layout, with memory as it is. -/
theorem Rep.forget {A : Region} {h : Heap} {b : Block} {pre post : List Block} {F : Nat → List Nat}
    (rep : Rep A h ⟨pre ++ b :: post, F⟩) (unlisted : ¬ b.Listed) :
    Rep A h ⟨pre ++ ⟨b.words, .raw⟩ :: post, F⟩ :=
  rep.retag (m := h.mem) unlisted (by simp [Block.Listed]) rfl (by simp [Block.Sized]) rfl
    (fun notRaw => absurd rfl notRaw) (fun notRaw => absurd rfl notRaw) (fun _ _ => rfl)

theorem blockSize_eq {m : Mem} {p w : Nat} (tag : freeBit (read64 m p) = 8 * w) (small : 8 * w < 2 ^ 32)
    (room : p + 8 < 2 ^ 64) :
    blockSize m (p + 8) = 8 * w := by
  have head : sub64 (p + 8) 8 = p := by rw [sub64_of_le (by omega) (by omega)]; omega
  rw [blockSize, head, tag, Nat.mod_eq_of_lt small]

/-- Where a mask writes: the two ends of the block. -/
theorem mask_ends {p w : Nat} (room : p + 8 * w < 2 ^ 64) (positive : 1 ≤ w) (low : 8 ≤ p) :
    sub64 (p + 8) 8 = p ∧ add64 (sub64 (p + 8) 16) (8 * w) = p + 8 * w - 8 := by
  refine ⟨?_, ?_⟩
  · rw [sub64_of_le (by omega) (by omega)]
    omega
  · rw [sub64_of_le (by omega) (by omega), add64_of_lt (by omega)]
    omega

/-- Popping the first block of a class marks it used. -/
theorem Rep.pop {h : Heap} {i x : Nat} {pre post : List Block} {F : Nat → List Nat} {rest : List Nat}
    {A : Arena} (rep : Rep A h ⟨pre ++ ⟨i + 3, .free⟩ :: post, F⟩) (bound : i < A.len) (first : F i = x :: rest)
    (atX : x = A.addr + span Block.size pre + 8) :
    ∃ h', getSegregatedFitsBlockInner h i = (x, h') ∧
      Evolves A h ⟨pre ++ ⟨i + 3, .free⟩ :: post, F⟩ h'
        ⟨pre ++ ⟨i + 3, .used⟩ :: post, Function.update F i rest⟩ := by
  have len := A.len_lt
  have low := A.addr_ge
  have top := A.top
  have extent := rep.extent
  simp only at extent
  have ring := rep.rings i bound
  simp only [first, circular_cons, Heap.link_headPtr rep.shape] at ring
  have different := rep.not_sentinel bound (show x ∈ F i by simp [first]) bound
  have alone : F i = [] ++ x :: rest := first
  have taken := rep.unlinkAt bound alone atX rfl
  have unlinked : h.setLink i (A.headPtr i) (h.link i x) =
      { h with sfits := h.sfits.setNext i (read64 h.mem x) } := by
    simp [Heap.setLink, rep.shape.headPtr, Heap.link_block rep.shape different]
  rw [List.getLast_singleton, unlinked, List.nil_append] at taken
  have tag := (taken.rep.tags (by simp)).1
  simp only [Block.tag, reduceCtorEq, if_false, Nat.add_zero] at tag
  have size : blockSize h.mem x = 8 * (i + 3) := by
    rw [atX]
    exact blockSize_eq (by rw [tag, freeBit_size (by omega)]) (by omega) (by omega)
  obtain ⟨head, foot⟩ := mask_ends (p := A.addr + span Block.size pre) (w := i + 3) (by omega)
    (by omega) (by omega)
  rw [← atX] at head foot
  have stored := storeBoth_spec (m := h.mem) (p := A.addr + span Block.size pre) (w := i + 3)
    (v := 8 * (i + 3) + 1) (by omega) (by omega) (Or.inl ⟨rfl, rfl⟩)
  have marked : maskAllocatedFlag h.mem x = storeBoth h.mem (A.addr + span Block.size pre)
      (A.addr + span Block.size pre + 8 * (i + 3) - 8) (8 * (i + 3) + 1) := by
    simp only [maskAllocatedFlag, size, head, foot, usedBit_size]
  have used := taken.rep.retag (c := ⟨i + 3, .used⟩) (by simp [Block.Listed]) (by simp [Block.Listed]) rfl
    (by simp only [Block.Sized]; omega) rfl (fun _ => stored.1) (fun _ => stored.2.1) stored.2.2
  refine ⟨_, ?_, used, ?_, ?_⟩
  · simp only [getSegregatedFitsBlockInner, ring.1, marked]
  · intro z kept
    simp only [vacant_append, vacant_cons, not_or, Block.size_mk] at kept
    refine stored.2.2 z ?_
    by_contra within
    exact kept.2.1 ⟨by simp, by omega, by omega⟩
  · intro z
    simp only [vacant_append, vacant_cons, Block.size_mk, ne_eq, not_true_eq_false, false_and, false_or]
    exact Or.imp_right Or.inr

/-- Unmarking a used block takes it in hand; only its own bytes change. -/
theorem Rep.maskFree {h : Heap} {p w : Nat} {pre post : List Block} {F : Nat → List Nat} {A : Arena}
    (rep : Rep A h ⟨pre ++ ⟨w, .used⟩ :: post, F⟩) (atP : p = A.addr + span Block.size pre) :
    Rep A { h with mem := maskFreeFlag h.mem (p + 8) } ⟨pre ++ ⟨w, .hand⟩ :: post, F⟩ ∧
      ∀ z, z < p ∨ p + 8 * w ≤ z → maskFreeFlag h.mem (p + 8) z = h.mem z := by
  have low := A.addr_ge
  have top := A.top
  have small := A.size_lt
  have extent := rep.extent
  simp only at extent
  have positive : 1 ≤ w := rep.pos ⟨w, .used⟩ (by simp) (by simp)
  have tag := (rep.tags (by simp)).1
  simp only [Block.tag, if_true, ← atP] at tag
  have size : blockSize h.mem (p + 8) = 8 * w :=
    blockSize_eq (by rw [tag, freeBit_usedTag (by omega)]) (by omega) (by omega)
  obtain ⟨head, foot⟩ := mask_ends (p := p) (w := w) (by omega) (by omega) (by omega)
  have stored := storeBoth_spec (m := h.mem) (p := p) (w := w) (v := 8 * w) (by omega) (by omega)
    (Or.inl ⟨rfl, rfl⟩)
  have marked : maskFreeFlag h.mem (p + 8) = storeBoth h.mem p (p + 8 * w - 8) (8 * w) := by
    simp only [maskFreeFlag, size, head, foot]
  rw [marked]
  refine ⟨?_, stored.2.2⟩
  exact rep.retag (by simp [Block.Listed]) (by simp [Block.Listed]) rfl
    (by simpa only [Block.Sized] using positive) atP (fun _ => stored.1) (fun _ => stored.2.1) stored.2.2

end Fkv
