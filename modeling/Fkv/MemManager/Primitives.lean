import Fkv.MemManager.Represents

namespace Fkv
open ByteMemory CWord Tiling LinkedRing

/-- One heap turns into another inside the blocks that are not used: the new
layout is represented, bytes of used blocks and bytes outside the partition
stay, and no byte becomes vacant. -/
structure Evolves (A : Region) (h : Heap) (lay : Layout) (h' : Heap) (lay' : Layout) : Prop where
  rep : Rep A h' lay'
  frame : ∀ x, ¬ Vacant A.addr lay.blocks x → h'.mem x = h.mem x
  vacant : ∀ x, Vacant A.addr lay'.blocks x → Vacant A.addr lay.blocks x

theorem Evolves.refl {A : Region} {h : Heap} {lay : Layout} (rep : Rep A h lay) : Evolves A h lay h lay :=
  ⟨rep, fun _ _ => rfl, fun _ vacant => vacant⟩

theorem Evolves.trans {A : Region} {h h' : Heap} {lay lay' lay'' : Layout} {h'' : Heap}
    (first : Evolves A h lay h' lay') (second : Evolves A h' lay' h'' lay'') :
    Evolves A h lay h'' lay'' := by
  refine ⟨second.rep, fun x kept => ?_, fun x vacant => first.vacant x (second.vacant x vacant)⟩
  rw [second.frame x (fun vacant => kept (first.vacant x vacant)), first.frame x kept]

/-- Nothing outside the partition changes. -/
theorem Evolves.outside {A : Region} {h h' : Heap} {lay lay' : Layout} {x : Nat}
    (evolves : Evolves A h lay h' lay') (rep : Rep A h lay)
    (away : x < A.addr ∨ A.addr + 8 * (A.addrSize / 8) ≤ x) : h'.mem x = h.mem x := by
  refine evolves.frame x fun vacant => ?_
  have bounds := vacant_bounds vacant
  rw [rep.total] at bounds
  omega

/-- Changes inside a stretch without used blocks. -/
theorem Evolves.within {A : Region} {h h' : Heap} {pre mid mid' post : List Block} {F : Nat → List Nat}
    {G : Nat → List Nat} (new : Rep A h' ⟨pre ++ mid' ++ post, G⟩) (unused : ∀ b ∈ mid, b.state ≠ .used)
    (length : span Block.size mid' = span Block.size mid) (outside : ∀ x, x < A.addr + span Block.size pre ∨
      A.addr + span Block.size pre + span Block.size mid ≤ x → h'.mem x = h.mem x) :
    Evolves A h ⟨pre ++ mid ++ post, F⟩ h' ⟨pre ++ mid' ++ post, G⟩ := by
  refine ⟨new, fun x kept => outside x ?_, fun x vacant => ?_⟩
  · by_contra inside
    refine kept ?_
    simp only [vacant_append]
    exact Or.inl (Or.inr (vacant_of_unused unused (by omega) (by omega)))
  · simp only [vacant_append, span_append, length] at vacant ⊢
    rcases vacant with (left | here) | right
    · exact Or.inl (Or.inl left)
    · have bounds := vacant_bounds here
      exact Or.inl (Or.inr (vacant_of_unused unused bounds.1 (by omega)))
    · exact Or.inr right

/-- Rewriting a stretch without used and without listed blocks. -/
theorem Rep.reshape {A : Region} {h h' : Heap} {pre mid mid' post : List Block} {F : Nat → List Nat}
    (rep : Rep A h ⟨pre ++ mid ++ post, F⟩) (sfits : h'.sfits = h.sfits)
    (outside : ∀ x, x < A.addr + span Block.size pre ∨
      A.addr + span Block.size pre + span Block.size mid ≤ x → h'.mem x = h.mem x)
    (loose : ∀ b ∈ mid, b.state ≠ .used ∧ ¬ b.Listed) (unlisted : ∀ b ∈ mid', ¬ b.Listed)
    (length : span Block.size mid' = span Block.size mid) (sized : ∀ b ∈ mid', b.Sized A.len)
    (tagged : Tagged h'.mem (A.addr + span Block.size pre) mid') :
    Evolves A h ⟨pre ++ mid ++ post, F⟩ h' ⟨pre ++ mid' ++ post, F⟩ :=
  .within (rep.restate sfits outside (fun b member => (loose b member).2) unlisted length sized tagged)
    (fun b member => (loose b member).1) length outside

theorem freeBit_size {w : Nat} (bound : 8 * w < 2 ^ 32) : freeBit (8 * w) = 8 * w := by
  unfold freeBit
  rw [and_even32]
  omega

theorem freeBit_usedTag {w : Nat} (bound : 8 * w < 2 ^ 32) : freeBit (8 * w + 1) = 8 * w := by
  unfold freeBit
  rw [and_even32]
  omega

theorem usedBit_size (w : Nat) : usedBit (8 * w) = 8 * w + 1 :=
  (Nat.two_pow_add_eq_or_of_lt (i := 3) (b := 1) (by decide) w).symm

theorem tag_used_iff (b : Block) : b.tag &&& 1 ≠ 0 ↔ b.state = .used := by
  rw [Nat.and_one_is_mod]
  unfold Block.tag
  split <;> simp_all <;> omega

theorem freeOfClass_length (i a : Nat) (blocks : List Block) :
    24 * (freeOfClass a i blocks).length ≤ span Block.size blocks := by
  induction blocks generalizing a with
  | nil => simp
  | cons b blocks ih =>
    have rest := ih (a + b.size)
    rw [freeOfClass_cons, span_cons, List.length_append]
    split
    · rename_i found
      simp only [Block.size, found.2, List.length_singleton] at rest ⊢
      omega
    · simp only [List.length_nil]
      omega

/-- A list is shorter than the partition has bytes. -/
theorem Rep.list_length {A : Region} {h : Heap} {lay : Layout} {i : Nat} (rep : Rep A h lay) (bound : i < A.len) :
    24 * (lay.lists i).length ≤ A.addrSize := by
  have length := freeOfClass_length i A.addr lay.blocks
  rw [rep.total] at length
  rw [(rep.members i bound).length_eq]
  omega

/-- The link word of a listed block is none of the words that hold tags. -/
theorem Rep.tagged_link {A : Region} {h : Heap} {lay : Layout} {i x : Nat} (rep : Rep A h lay)
    (bound : i < A.len) (member : x ∈ lay.lists i) (v : Nat) :
    Tagged (write64 h.mem x v) A.addr lay.blocks := by
  obtain ⟨p, placed, rfl⟩ := rep.listed bound member
  intro q c placed' notRaw
  have pos := rep.pos c (mem_of_place placed') notRaw
  have old := rep.tagged q c placed' notRaw
  have apart : ∀ z, z = q ∨ z = q + c.size - 8 → z + 8 ≤ p + 8 ∨ p + 8 + 8 ≤ z := by
    intro z at'
    simp only [Block.size] at at'
    rcases place_apart placed placed' with same | ahead | behind
    · obtain ⟨rfl, rfl⟩ := Prod.mk.inj same
      simp only at at'
      omega
    · simp only [Block.size] at ahead; omega
    · simp only [Block.size] at behind; omega
  rw [read64_write64_apart _ (apart q (Or.inl rfl)), read64_write64_apart _ (apart _ (Or.inr rfl))]
  exact old

/-- What redirecting one link of list `i` does to the links of all lists. -/
theorem Rep.link_setLink {A : Region} {h : Heap} {lay : Layout} {i p : Nat} (rep : Rep A h lay)
    (bound : i < A.len) {v : Nat} (small : v < 2 ^ 64) (node : p = A.headPtr i ∨ p ∈ lay.lists i) :
    Shape A (h.setLink i p v).sfits ∧ Tagged (h.setLink i p v).mem A.addr lay.blocks ∧
      (∀ z, ¬ Vacant A.addr lay.blocks z → (h.setLink i p v).mem z = h.mem z) ∧
      (h.setLink i p v).link i p = v ∧
      ∀ j, j < A.len → ∀ y ∈ A.headPtr j :: lay.lists j, j ≠ i ∨ y ≠ p →
        (h.setLink i p v).link j y = h.link j y := by
  by_cases sentinel : p = A.headPtr i
  · subst sentinel
    have unfolded : h.setLink i (A.headPtr i) v = { h with sfits := h.sfits.setNext i v } := by
      simp [Heap.setLink, rep.shape.headPtr]
    have shape := rep.shape.setNext i v
    rw [unfolded]
    refine ⟨shape, rep.tagged, fun _ _ => rfl, ?_, ?_⟩
    · rw [Heap.link_headPtr shape]
      simp [SegregatedFits.setNext]
    · intro j bound' y member other
      rcases List.mem_cons.mp member with rfl | inside
      · rw [Heap.link_headPtr shape, Heap.link_headPtr rep.shape]
        have different : j ≠ i := by
          rcases other with different | different
          · exact different
          · exact fun same => different (by rw [same])
        simp [SegregatedFits.setNext, different]
      · have different := rep.not_sentinel bound' inside bound'
        rw [Heap.link_block shape different, Heap.link_block rep.shape different]
  · have inside : p ∈ lay.lists i := node.resolve_left sentinel
    have unfolded : h.setLink i p v = { h with mem := write64 h.mem p v } := by
      simp [Heap.setLink, rep.shape.headPtr, sentinel]
    rw [unfolded]
    refine ⟨rep.shape, rep.tagged_link bound inside v, ?_, ?_, ?_⟩
    · intro z kept
      obtain ⟨q, placed, rfl⟩ := rep.listed bound inside
      refine write64_apart _ ?_
      by_contra within
      exact kept ⟨q, _, placed, by simp, by omega, by simp only [Block.size_mk]; omega⟩
    · rw [Heap.link_block (h := { h with mem := write64 h.mem p v }) rep.shape sentinel]
      exact read64_write64_of_lt _ _ small
    · intro j bound' y member other
      rcases List.mem_cons.mp member with rfl | listed
      · rw [Heap.link_headPtr (h := { h with mem := write64 h.mem p v }) rep.shape,
          Heap.link_headPtr rep.shape]
      · have different := rep.not_sentinel bound' listed bound'
        rw [Heap.link_block (h := { h with mem := write64 h.mem p v }) rep.shape different,
          Heap.link_block rep.shape different]
        refine read64_write64_apart _ ?_
        have unequal : y ≠ p := by
          rcases other with differs | differs
          · rintro rfl
            exact differs (rep.lists_disjoint bound' bound listed inside)
          · exact differs
        obtain ⟨q, placed, rfl⟩ := rep.listed bound inside
        obtain ⟨r, placed', rfl⟩ := rep.listed bound' listed
        rcases place_apart placed placed' with same | ahead | behind
        · exact absurd (by rw [(Prod.mk.inj same).1]) unequal
        · simp only [Block.size_mk] at ahead; omega
        · simp only [Block.size_mk] at behind; omega

end Fkv
