import Fkv.MemManager.Primitives

namespace Fkv
open ByteMemory CWord Tiling LinkedRing

/-- Only the state of one block differs, and a free block and one in hand carry
the same tags. -/
theorem tagged_hand (m : Mem) (a w : Nat) (pre post : List Block) :
    Tagged m a (pre ++ ⟨w, .hand⟩ :: post) ↔ Tagged m a (pre ++ ⟨w, .free⟩ :: post) := by
  simp [Block.tag]

theorem vacant_hand (a w x : Nat) (pre post : List Block) :
    Vacant a (pre ++ ⟨w, .hand⟩ :: post) x ↔ Vacant a (pre ++ ⟨w, .free⟩ :: post) x := by
  simp

theorem sized_replace {b : Block} {pre post : List Block} {len : Nat} {c : Block}
    (sized : ∀ d ∈ pre ++ b :: post, d.Sized len) (new : c.Sized len) : ∀ d ∈ pre ++ c :: post, d.Sized len := by
  intro d member
  simp only [List.mem_append, List.mem_cons] at member sized
  rcases member with left | rfl | right
  · exact sized d (Or.inl left)
  · exact new
  · exact sized d (Or.inr (Or.inr right))

/-- Redirecting the predecessor of a listed block past it takes the block in
hand. -/
theorem Rep.unlinkAt {A : Region} {h : Heap} {i p x : Nat} {pre post : List Block} {F : Nat → List Nat}
    {before after : List Nat} (rep : Rep A h ⟨pre ++ ⟨i + 3, .free⟩ :: post, F⟩) (bound : i < A.len)
    (split : F i = before ++ x :: after) (atX : x = A.addr + span Block.size pre + 8)
    (last : (A.headPtr i :: before).getLast (by simp) = p) :
    Evolves A h ⟨pre ++ ⟨i + 3, .free⟩ :: post, F⟩ (h.setLink i p (h.link i x))
      ⟨pre ++ ⟨i + 3, .hand⟩ :: post, Function.update F i (before ++ after)⟩ := by
  have inList : x ∈ F i := by simp [split]
  have different := rep.not_sentinel bound inList bound
  have small : h.link i x < 2 ^ 64 := by
    rw [Heap.link_block rep.shape different]
    exact read64_lt _ _
  have node : p = A.headPtr i ∨ p ∈ F i := by
    have member := List.getLast_mem (l := A.headPtr i :: before) (by simp)
    rw [last, List.mem_cons] at member
    exact member.imp_right (fun inside => by simp [split, inside])
  obtain ⟨shape, tagged, frame, redirected, kept⟩ := rep.link_setLink bound small node
  have sized : ∀ c ∈ pre ++ Block.mk (i + 3) .free :: post, c.Sized A.len := rep.sized
  refine ⟨⟨shape, ?_, sized_replace sized (by simp [Block.Sized]), (tagged_hand ..).mpr tagged, ?_, ?_⟩,
    frame, fun z => (vacant_hand ..).mp⟩
  · have total := rep.total
    simpa using total
  · intro j bound'
    by_cases same : j = i
    · subst same
      have distinct := rep.ring_nodup bound
      have ring := rep.rings j bound
      simp only [split] at distinct ring
      simp only [Function.update_self]
      have ends : A.headPtr j :: before = (A.headPtr j :: before).dropLast ++ [p] := by
        rw [← last, List.dropLast_append_getLast]
      refine ring.unlink ends distinct redirected ?_
      intro y member other
      refine kept j bound y ?_ (Or.inr other)
      simp only [List.mem_cons, List.mem_append, split] at member ⊢
      exact member.imp_right (fun inside => inside.imp_right Or.inr)
    · simp only [Function.update_of_ne same]
      exact (rep.rings j bound').congr (fun y member => kept j bound' y member (Or.inl same))
  · intro j bound'
    have old := rep.members j bound'
    by_cases same : j = i
    · subst same
      simp only [split, freeOfClass_append, freeOfClass_cons, and_self, if_true, ← atX, Block.size_mk,
        List.singleton_append] at old
      simp only [Function.update_self, freeOfClass_append, freeOfClass_cons, reduceCtorEq, false_and,
        if_false, List.nil_append, Block.size_mk]
      exact List.Perm.cons_inv ((List.perm_middle.symm.trans old).trans List.perm_middle)
    · simpa [Function.update_of_ne same, Ne.symm same] using old

/-- The traversal stops in front of the block it looks for. -/
theorem unlinkLoop_spec {A : Region} {h : Heap} {lay : Layout} {i x : Nat} {before after : List Nat}
    (rep : Rep A h lay) (bound : i < A.len) (listed : x ∈ lay.lists i) :
    ∀ (q : Nat) (fuel : Nat), (∀ y ∈ before, y ∈ lay.lists i ∧ y ≠ x) →
      Links (h.link i) (q :: (before ++ x :: after)) → before.length < fuel →
      unlinkLoop h i x fuel q (h.link i q) =
        .ok (h.setLink i ((q :: before).getLast (by simp)) (h.link i x)) := by
  have different := rep.not_sentinel bound listed bound
  induction before with
  | nil =>
    intro q fuel _ links enough
    obtain ⟨fuel, rfl⟩ := Nat.exists_eq_add_of_lt enough
    have next : h.link i q = x := (List.isChain_cons_cons.mp links).1
    simp only [unlinkLoop, next, rep.shape.headPtr, different, if_false, ne_eq, not_true_eq_false,
      List.length_nil, List.getLast_singleton, Heap.link_block rep.shape different]
  | cons y before ih =>
    intro q fuel inside links enough
    obtain ⟨member, other⟩ := inside y (by simp)
    have middle := rep.not_sentinel bound member bound
    have next : h.link i q = y := (List.isChain_cons_cons.mp links).1
    have step := ih y (fuel - 1) (fun z zin => inside z (List.mem_cons_of_mem _ zin))
      (List.isChain_cons_cons.mp links).2 (by simp only [List.length_cons] at enough; omega)
    obtain ⟨fuel, rfl⟩ := Nat.exists_eq_add_of_lt enough
    simp only [unlinkLoop, next, rep.shape.headPtr, middle, if_false, ne_eq, Ne.symm other,
      not_false_eq_true, if_true, ← Heap.link_block rep.shape middle]
    simpa using step

/-- Removing a listed block from its class succeeds and takes it in hand. -/
theorem Rep.unlink {A : Region} {h : Heap} {i : Nat} {pre post : List Block} {F : Nat → List Nat}
    (rep : Rep A h ⟨pre ++ ⟨i + 3, .free⟩ :: post, F⟩) (bound : i < A.len) :
    ∃ h', getSegregatedFitsBlockWithAddr h i (A.addr + span Block.size pre + 8) = .ok h' ∧
      Evolves A h ⟨pre ++ ⟨i + 3, .free⟩ :: post, F⟩ h'
        ⟨pre ++ ⟨i + 3, .hand⟩ :: post,
          Function.update F i ((F i).erase (A.addr + span Block.size pre + 8))⟩ := by
  have listed : A.addr + span Block.size pre + 8 ∈ F i :=
    (rep.members i bound).mem_iff.mpr (mem_freeOfClass.mpr ⟨_, by simp, rfl⟩)
  obtain ⟨before, after, missing, split, erased⟩ := List.exists_erase_eq listed
  have notEmpty : segregatedFitsIsEmpty h.sfits i = false := by
    rw [Bool.eq_false_iff, Ne, rep.isEmpty_iff bound]
    intro empty
    rw [show F i = [] from empty] at listed
    simp at listed
  have ring : Circular _ _ (F i) := rep.rings i bound
  have length : 24 * (F i).length ≤ _ := rep.list_length bound
  simp only [split, List.length_append, List.length_cons] at ring length
  have links : Links (h.link i)
      (A.headPtr i :: (before ++ (A.addr + span Block.size pre + 8) :: after)) := by
    rw [Circular, ← List.cons_append] at ring
    exact List.IsChain.left_of_append ring
  have run := unlinkLoop_spec rep bound listed (A.headPtr i) A.addrSize
    (fun y member => ⟨by simp [split, member], fun same => missing (same ▸ member)⟩) links (by omega)
  rw [Heap.link_headPtr rep.shape] at run
  refine ⟨_, ?_, erased ▸ rep.unlinkAt bound split rfl rfl⟩
  simp only [getSegregatedFitsBlockWithAddr, notEmpty, Bool.false_eq_true, if_false, rep.shape.headPtr,
    rep.shape.addrSize]
  exact run

theorem Rep.next_lt {A : Region} {h : Heap} {lay : Layout} {i : Nat} (rep : Rep A h lay) (bound : i < A.len) :
    (h.sfits.heads i).next < 2 ^ 64 := by
  have ring := rep.rings i bound
  rw [← Heap.link_headPtr rep.shape]
  cases list : lay.lists i with
  | nil =>
    rw [list, circular_nil] at ring
    rw [ring]
    exact A.headPtr_lt bound
  | cons y rest =>
    rw [list, circular_cons] at ring
    have bounds := rep.listed_bounds bound (show y ∈ lay.lists i by simp [list])
    have top := A.words_lt
    rw [ring.1]
    omega

/-- The heap after an insertion, once its address computations are done. -/
theorem insertBlockHead_eq {A : Region} {h : Heap} {i p : Nat} (shape : Shape A h.sfits) (bound : i < A.len)
    (room : p + 8 * (i + 3) < 2 ^ 64) :
    segregatedFitsInsertBlockHead h i (p + 8) =
      { mem := write64 (write64 (write64 h.mem p (8 * (i + 3))) (p + 8 * (i + 3) - 8) (8 * (i + 3)))
          (p + 8) (h.sfits.heads i).next
        sfits := h.sfits.setNext i (p + 8) } := by
  have len := A.len_lt
  have size : (8 * (i + 1) + 16) % 2 ^ 32 = 8 * (i + 3) := by omega
  have head : sub64 (p + 8) 8 = p := by rw [sub64_of_le (by omega) (by omega)]; omega
  have foot : add64 (p + 8) (8 * (i + 1)) = p + 8 * (i + 3) - 8 := by
    rw [add64_of_lt (by omega)]; omega
  simp only [segregatedFitsInsertBlockHead, shape.memSize i bound, size, head, foot,
    freeBit_size (w := i + 3) (by omega)]

/-- A raw stretch of the size of a class becomes its first free block. -/
theorem Rep.insertHead {A : Region} {h : Heap} {i p : Nat} {pre post : List Block} {F : Nat → List Nat}
    (rep : Rep A h ⟨pre ++ ⟨i + 3, .raw⟩ :: post, F⟩) (bound : i < A.len)
    (atP : p = A.addr + span Block.size pre) :
    Evolves A h ⟨pre ++ ⟨i + 3, .raw⟩ :: post, F⟩ (segregatedFitsInsertBlockHead h i (p + 8))
      ⟨pre ++ ⟨i + 3, .free⟩ :: post, Function.update F i ((p + 8) :: F i)⟩ := by
  have len := A.len_lt
  have top := A.words_lt
  have extent := rep.extent
  simp only at extent
  have next := rep.next_lt bound
  rw [insertBlockHead_eq rep.shape bound (by omega)]
  generalize new : write64 (write64 (write64 h.mem p (8 * (i + 3))) (p + 8 * (i + 3) - 8) (8 * (i + 3)))
    (p + 8) (h.sfits.heads i).next = m
  have outside : ∀ x, x < p ∨ p + 8 * (i + 3) ≤ x → m x = h.mem x := by
    intro x apart
    rw [← new, write64_apart _ (by omega), write64_apart _ (by omega), write64_apart _ (by omega)]
  have header : read64 m p = 8 * (i + 3) := by
    rw [← new, read64_write64_apart _ (by omega), read64_write64_apart _ (by omega),
      read64_write64_of_lt _ _ (by omega)]
  have footer : read64 m (p + 8 * (i + 3) - 8) = 8 * (i + 3) := by
    rw [← new, read64_write64_apart _ (by omega), read64_write64_of_lt _ _ (by omega)]
  have linked : read64 m (p + 8) = (h.sfits.heads i).next := by
    rw [← new, read64_write64_of_lt _ _ next]
  have rep' : Rep A h ⟨pre ++ [⟨i + 3, .raw⟩] ++ post, F⟩ := by simpa using rep
  have unlisted : ∀ b ∈ [Block.mk (i + 3) .raw], ¬ b.Listed := by simp [Block.Listed]
  have apart : ∀ j, j < A.len → ∀ x ∈ F j, x + 16 ≤ p ∨ p + 8 * (i + 3) + 8 ≤ x := by
    intro j bound' x member
    have outsideMid := rep'.listed_outside unlisted bound' member
    simp only [span_cons, span_nil, Block.size_mk] at outsideMid
    omega
  have shape := rep.shape.setNext i (p + 8)
  have sized : ∀ c ∈ pre ++ Block.mk (i + 3) .raw :: post, c.Sized A.len := rep.sized
  have new : Rep A ⟨m, h.sfits.setNext i (p + 8)⟩
      ⟨pre ++ ⟨i + 3, .free⟩ :: post, Function.update F i ((p + 8) :: F i)⟩ := by
    refine ⟨shape, ?_, sized_replace sized ?_, ?_, ?_, ?_⟩
    · have total := rep.total
      simpa using total
    · simp only [Block.Sized]
      omega
    · have tagged : Tagged m A.addr (pre ++ [⟨i + 3, .free⟩] ++ post) := by
        refine rep'.tagged_restate ?_ (by simp) (by simp [Block.tag, ← atP, header, footer])
        intro x away
        simp only [span_cons, span_nil, Block.size_mk] at away
        exact outside x (by omega)
      simpa using tagged
    · intro j bound'
      have first : ∀ k, (⟨m, h.sfits.setNext i (p + 8)⟩ : Heap).link k (A.headPtr k) =
          if k = i then p + 8 else h.link k (A.headPtr k) := by
        intro k
        rw [Heap.link_headPtr shape, Heap.link_headPtr rep.shape]
        simp only [SegregatedFits.setNext, Function.update_apply]
        split <;> rfl
      have kept : ∀ k, k < A.len → ∀ y ∈ F k,
          (⟨m, h.sfits.setNext i (p + 8)⟩ : Heap).link k y = h.link k y := by
        intro k bound'' y member
        have different := rep.not_sentinel bound'' member bound''
        have away := apart k bound'' y member
        rw [Heap.link_block shape different, Heap.link_block rep.shape different]
        exact read64_congr (fun z lower upper => outside z (by omega))
      by_cases same : j = i
      · subst same
        simp only [Function.update_self]
        refine (rep.rings j bound).push (by simp [first]) ?_ (fun y member => kept j bound y member)
        have clear := A.headPtr_apart bound
        rw [Heap.link_block shape (by omega), Heap.link_headPtr rep.shape]
        exact linked
      · simp only [Function.update_of_ne same]
        refine (rep.rings j bound').congr (fun y member => ?_)
        rcases List.mem_cons.mp member with rfl | inside
        · rw [first, if_neg same]
        · exact kept j bound' y inside
    · intro j bound'
      have old := rep.members j bound'
      by_cases same : j = i
      · subst same
        simp only [freeOfClass_append, freeOfClass_cons, reduceCtorEq, false_and, if_false, List.nil_append,
          Block.size_mk] at old
        simp only [Function.update_self, freeOfClass_append, freeOfClass_cons, and_self, if_true, ← atP,
          Block.size_mk, List.singleton_append] at old ⊢
        exact (old.cons (p + 8)).trans List.perm_middle.symm
      · simpa [Function.update_of_ne same, Ne.symm same] using old
  have new' : Rep A ⟨m, h.sfits.setNext i (p + 8)⟩
      ⟨pre ++ [⟨i + 3, .free⟩] ++ post, Function.update F i ((p + 8) :: F i)⟩ := by simpa using new
  have inside : Evolves A h ⟨pre ++ [⟨i + 3, .raw⟩] ++ post, F⟩ ⟨m, h.sfits.setNext i (p + 8)⟩
      ⟨pre ++ [⟨i + 3, .free⟩] ++ post, Function.update F i ((p + 8) :: F i)⟩ := by
    refine Evolves.within new' (by simp) (by simp) ?_
    intro x away
    simp only [span_cons, span_nil, Block.size_mk] at away
    exact outside x (by omega)
  simpa using inside

end Fkv
