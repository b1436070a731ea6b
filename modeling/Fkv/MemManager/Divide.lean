import Fkv.MemManager.Free

namespace Fkv
open ByteMemory CWord Tiling LinkedRing Runs

/-- The words of the free run a list of blocks starts with. -/
def freeRun : List Block → Nat
  | [] => 0
  | b :: blocks => if b.state = .used then 0 else b.words + freeRun blocks

/-- Merging a block of `w` words at `q` with the whole free run behind it. -/
def absorb (q : Nat) : List Block → Nat → (Nat → List Nat) → Nat × List Block × (Nat → List Nat)
  | [], w, F => (w, [], F)
  | b :: post, w, F =>
    if b.state = .used then (w, b :: post, F)
    else absorb q post (w + b.words) (delist F b.words (q + 8 * w))

/-- The lists while a block of class `i` at `p` is cut for class `c`. -/
def cutLists (F : Nat → List Nat) (c i p : Nat) : Nat → List Nat :=
  Function.update (Function.update F i (F i).tail) c ((p + 8) :: F c)

/-- What a division makes of the layout around the block it cuts: a block of
class `c`, and the remainder together with the free run behind it. -/
def divide (a c i : Nat) (pre post : List Block) (F : Nat → List Nat) : Layout :=
  let p := a + span Block.size pre
  let q := p + 8 * (c + 3)
  let r := absorb q post (i - c) (cutLists F c i p)
  ⟨pre ++ ⟨c + 3, .free⟩ :: ⟨r.1, .free⟩ :: r.2.1, enlist r.2.2 r.1 q⟩

/-- The first class with a listed block among the `n` classes from `i` on. -/
def firstListed (F : Nat → List Nat) : Nat → Nat → Option Nat
  | _, 0 => none
  | i, n + 1 => if F i = [] then firstListed F (i + 1) n else some i

theorem absorb_words {q w : Nat} {post : List Block} {F : Nat → List Nat} :
    (absorb q post w F).1 = w + freeRun post := by
  induction post generalizing w F with
  | nil => rfl
  | cons b post ih =>
    rw [absorb, freeRun]
    split
    · rfl
    · rw [ih]
      omega

theorem absorb_cut (q : Nat) (post : List Block) (w : Nat) (F : Nat → List Nat) :
    ∃ gone, post = gone ++ (absorb q post w F).2.1 ∧ (∀ b ∈ gone, b.state ≠ .used) ∧
    span Block.size gone = 8 * freeRun post := by
  induction post generalizing w F with
  | nil => exact ⟨[], rfl, by simp, rfl⟩
  | cons b post ih =>
    rw [absorb, freeRun]
    split
    · exact ⟨[], rfl, by simp, rfl⟩
    · rename_i unused
      obtain ⟨gone, whole, free, length⟩ := ih (w + b.words) (delist F b.words (q + 8 * w))
      refine ⟨b :: gone, by rw [List.cons_append, ← whole], by simpa using ⟨unused, free⟩, ?_⟩
      simp only [span_cons, Block.size, length]
      omega

/-- The merging loop of a division swallows the whole free run. -/
theorem mergeAllBackward_spec {A : Arena} {h : Heap} {fuel p w : Nat} {pre post : List Block}
    {F : Nat → List Nat} (rep : Rep A h ⟨pre ++ ⟨w, .hand⟩ :: post, F⟩) (settled : ∀ b ∈ post, b.Settled)
    (atP : p = A.addr + span Block.size pre) (enough : post.length < fuel) :
    ∃ h', mergeAllBackward p fuel h = .ok h' ∧
      Evolves A h ⟨pre ++ ⟨w, .hand⟩ :: post, F⟩ h'
        ⟨pre ++ ⟨(absorb p post w F).1, .hand⟩ :: (absorb p post w F).2.1, (absorb p post w F).2.2⟩ := by
  obtain ⟨fuel, rfl⟩ : ∃ n, fuel = n + 1 := ⟨fuel - 1, by omega⟩
  induction post generalizing h w F fuel with
  | nil =>
    have stop := mergeBlockBackward_stop rep atP (by simp)
    refine ⟨h, ?_, .refl rep⟩
    simp only [mergeAllBackward, stop, ok_bind, Bool.false_eq_true, if_false]
  | cons b post ih =>
    rcases settled b (by simp) with used | free
    · have stop := mergeBlockBackward_stop rep atP (by simp [used])
      refine ⟨h, ?_, by simpa only [absorb, used, if_true] using Evolves.refl rep⟩
      simp only [mergeAllBackward, stop, ok_bind, Bool.false_eq_true, if_false]
    · obtain ⟨v, s⟩ := b
      simp only at free
      subst free
      obtain ⟨h₁, merged, first⟩ := mergeBlockBackward_free rep atP
      obtain ⟨n, rfl⟩ : ∃ n, fuel = n + 1 := ⟨fuel - 1, by simp only [List.length_cons] at enough; omega⟩
      obtain ⟨h₂, run, second⟩ := ih first.rep (fun c member => settled c (by simp [member])) n
        (by simp only [List.length_cons] at enough; omega)
      refine ⟨h₂, ?_, first.trans second⟩
      rw [mergeAllBackward, merged]
      simp only [ok_bind, if_true]
      exact run

theorem firstNonEmpty_eq {A : Arena} {h : Heap} {lay : Layout} {i n : Nat} (rep : Rep A h lay)
    (bound : i + n ≤ A.len) :
    firstNonEmpty h.sfits i n = firstListed lay.lists i n := by
  induction n generalizing i with
  | zero => rfl
  | succ n ih =>
    rw [firstNonEmpty, firstListed, ih (by omega)]
    simp only [rep.isEmpty_iff (show i < A.len by omega)]

theorem firstListed_some {i j n : Nat} {F : Nat → List Nat} (found : firstListed F i n = some j) :
    i ≤ j ∧ j < i + n ∧ F j ≠ [] := by
  induction n generalizing i with
  | zero => cases found
  | succ n ih =>
    rw [firstListed] at found
    split at found
    · obtain ⟨lower, upper, listed⟩ := ih found
      exact ⟨by omega, by omega, listed⟩
    · rename_i listed
      cases found
      exact ⟨by omega, by omega, listed⟩

/-- Tagging the remainder of a cut, in each of the three ways of the source. -/
theorem tagRemainder {m : Mem} {q w : Nat} (positive : 1 ≤ w) (small : 8 * w < 2 ^ 32)
    (room : q + 8 * w < 2 ^ 64) :
    let m' := if (0 : Int) ≤ (w : Int) - 3 then storeBoth m (sub64 (add64 q (8 * w)) 8) q (8 * w)
      else if (w : Int) - 3 = -2 then maskFree8Block m q else maskFree16Block m q
    read64 m' q = 8 * w ∧ read64 m' (q + 8 * w - 8) = 8 * w ∧ ∀ z, z < q ∨ q + 8 * w ≤ z → m' z = m z := by
  have foot : sub64 (add64 q (8 * w)) 8 = q + 8 * w - 8 := by
    rw [add64_of_lt (by omega), sub64_of_le (by omega) (by omega)]
  have stored : ∀ u v, (u = q ∧ v = q + 8 * w - 8) ∨ (u = q + 8 * w - 8 ∧ v = q) →
      read64 (storeBoth m u v (8 * w)) q = 8 * w ∧ read64 (storeBoth m u v (8 * w)) (q + 8 * w - 8) = 8 * w ∧
        ∀ z, z < q ∨ q + 8 * w ≤ z → storeBoth m u v (8 * w) z = m z :=
    fun u v ends => storeBoth_spec positive (by omega) ends
  have cases : 3 ≤ w ∨ w = 1 ∨ w = 2 := by omega
  rcases cases with large | rfl | rfl
  · rw [if_pos (by omega), foot]
    exact stored _ _ (Or.inr ⟨rfl, rfl⟩)
  · have outside : ∀ z, z < q ∨ q + 8 ≤ z → write64 m q 8 z = m z := fun z away => write64_apart _ away
    simpa [maskFree8Block, read64_write64_of_lt] using outside
  · have both := stored (q + 8) q (Or.inr ⟨by omega, rfl⟩)
    rw [if_neg (by omega), if_neg (by omega), maskFree16Block, add64_of_lt (by omega)]
    exact both

/-- The first half of a division: the block is popped and cut, its front goes to
the list of class `c` and its remainder is in hand. -/
theorem divideClass_eq {A : Arena} {h : Heap} {i p q c : Nat} {pre post : List Block} {F : Nat → List Nat}
    (rep : Rep A h ⟨pre ++ ⟨i + 3, .free⟩ :: post, F⟩) (below : c < i) (bound : i < A.len)
    (first : (F i).head? = some (p + 8)) (atP : p = A.addr + span Block.size pre) (atQ : q = p + 8 * (c + 3)) :
    ∃ h₁, divideClass h c i = (mergeAllBackward q A.addrSize h₁ >>= fun h =>
        if 0 ≤ toInt32 (read64 h.mem q / 8) - 3 then
          headIndex h.sfits (toInt32 (read64 h.mem q / 8) - 3) >>= fun j =>
            .ok (segregatedFitsInsertBlockHead h j (add64 q 8))
        else .ok h) ∧
      Evolves A h ⟨pre ++ ⟨i + 3, .free⟩ :: post, F⟩ h₁
        ⟨pre ++ ⟨c + 3, .free⟩ :: ⟨i - c, .hand⟩ :: post, cutLists F c i p⟩ := by
  have len := A.len_lt
  have small := A.size_lt
  have top := A.top
  have low := A.addr_ge
  have extent := rep.extent
  simp only at extent
  obtain ⟨rest, list⟩ : ∃ rest, F i = (p + 8) :: rest := by
    cases list : F i with
    | nil => simp [list] at first
    | cons y rest => exact ⟨rest, by simpa [list] using first⟩
  obtain ⟨h₀, popped, taken⟩ := rep.pop bound list (by rw [atP])
  have size : blockSize h₀.mem (p + 8) = 8 * (i + 3) := by
    have tag := (taken.rep.tags (by simp)).1
    simp only [← atP, Block.tag, if_true] at tag
    exact blockSize_eq (by rw [tag, freeBit_usedTag (by omega)]) (by omega) (by omega)
  have raw : Evolves A h ⟨pre ++ ⟨i + 3, .free⟩ :: post, F⟩ h₀
      ⟨pre ++ ⟨i + 3, .raw⟩ :: post, Function.update F i rest⟩ :=
    ⟨taken.rep.forget (by simp [Block.Listed]), taken.frame, fun z => by simp⟩
  have whole : i + 3 = c + 3 + (i - c) := by omega
  have halves : Evolves A h ⟨pre ++ ⟨i + 3, .free⟩ :: post, F⟩ h₀
      ⟨pre ++ ⟨c + 3, .raw⟩ :: ⟨i - c, .raw⟩ :: post, Function.update F i rest⟩ := by
    have rep' := raw.rep
    rw [whole] at rep'
    have split := rep'.splitRaw
    rw [← whole] at split
    exact raw.trans split
  have front := halves.trans (halves.rep.insertHead (by omega) atP)
  have front' : Evolves A h ⟨pre ++ ⟨i + 3, .free⟩ :: post, F⟩ (segregatedFitsInsertBlockHead h₀ c (p + 8))
      ⟨(pre ++ [⟨c + 3, .free⟩]) ++ ⟨i - c, .raw⟩ :: post, cutLists F c i p⟩ := by
    have lists : cutLists F c i p =
        Function.update (Function.update F i rest) c ((p + 8) :: Function.update F i rest c) := by
      rw [cutLists, list, List.tail_cons, Function.update_of_ne (by omega : c ≠ i)]
    rw [lists]
    simpa using front
  have atQ' : q = A.addr + span Block.size (pre ++ [⟨c + 3, .free⟩]) := by simp; omega
  obtain ⟨header, footer, outside⟩ := tagRemainder (m := (segregatedFitsInsertBlockHead h₀ c (p + 8)).mem)
    (q := q) (w := i - c) (by omega) (by omega) (by omega)
  have remainder := front'.rep.rawToHand (by omega) atQ' header footer outside
  refine ⟨_, ?_, by simpa only [List.append_assoc, List.singleton_append] using front'.trans remainder⟩
  have buddy : (i : Int) - c - 3 = ((i - c : Nat) : Int) - 3 := by omega
  have sizeA : segregatedFitsClass c + 16 = 8 * (c + 3) := by rw [class_eq A (by omega)]; omega
  have sizeB : sub64 (8 * (i + 3)) (8 * (c + 3)) = 8 * (i - c) := by
    rw [sub64_of_le (by omega) (by omega)]
    omega
  have head : add64 (sub64 (p + 8) 8) (8 * (c + 3)) = q := by
    rw [sub64_of_le (by omega) (by omega), add64_of_lt (by omega)]
    omega
  have valid : ¬ ((i - c : Nat) : Int) - 3 < -2 := by omega
  simp only [divideClass, buddy, valid, if_false, popped, size, sizeA, sizeB, head, front'.rep.shape.addrSize]

/-- The last lines of a division, for a remainder of `w` words at `q`. -/
theorem insertRemainder {A : Arena} {h : Heap} {q w : Nat} (shape : Shape A h.sfits) (room : q + 8 < 2 ^ 64) :
    (if (0 : Int) ≤ (w : Int) - 3 then
        headIndex h.sfits ((w : Int) - 3) >>= fun j => .ok (segregatedFitsInsertBlockHead h j (add64 q 8))
      else .ok h) =
    if w ≤ A.len + 2 then .ok (if 3 ≤ w then segregatedFitsInsertBlockHead h (w - 3) (q + 8) else h)
    else Except.error .headsOutOfRange := by
  have len := A.len_lt
  by_cases listed : 3 ≤ w
  · obtain ⟨i, rfl⟩ : ∃ i, w = i + 3 := ⟨w - 3, by omega⟩
    have index : ((i + 3 : Nat) : Int) - 3 = (i : Int) := by omega
    rw [if_pos listed, index, if_pos (by omega), headIndex, shape.len]
    by_cases inside : i < A.len
    · rw [if_pos (by omega), if_pos (by omega), ok_bind, add64_of_lt room, Nat.add_sub_cancel, Int.toNat_natCast]
    · rw [if_neg (by omega), if_neg (by omega), error_bind]
  · rw [if_neg listed, if_neg (by omega), if_pos (by omega)]

/-- Where a division ends: the remainder with the free run behind it is in hand,
and the class it gets may lie outside `heads[]`. -/
theorem divideClass_spec {A : Arena} {h : Heap} {i c : Nat} {pre post : List Block} {F : Nat → List Nat}
    (rep : Rep A h ⟨pre ++ ⟨i + 3, .free⟩ :: post, F⟩) (settled : ∀ b ∈ post, b.Settled)
    (few : post.length < A.addrSize) (below : c < i) (bound : i < A.len)
    (first : (F i).head? = some (A.addr + span Block.size pre + 8)) :
    if i - c + freeRun post ≤ A.len + 2 then
      ∃ h', divideClass h c i = .ok h' ∧
        Evolves A h ⟨pre ++ ⟨i + 3, .free⟩ :: post, F⟩ h' (divide A.addr c i pre post F)
    else divideClass h c i = .error .headsOutOfRange := by
  have len := A.len_lt
  obtain ⟨h₁, cut, opened⟩ := divideClass_eq rep below bound first rfl rfl
  have opened' : Evolves A h ⟨pre ++ ⟨i + 3, .free⟩ :: post, F⟩ h₁
      ⟨(pre ++ [⟨c + 3, .free⟩]) ++ ⟨i - c, .hand⟩ :: post, cutLists F c i (A.addr + span Block.size pre)⟩ := by
    simpa only [List.append_assoc, List.singleton_append] using opened
  have atQ : A.addr + span Block.size pre + 8 * (c + 3) =
      A.addr + span Block.size (pre ++ [⟨c + 3, .free⟩]) := by
    simp [Nat.add_assoc]
  obtain ⟨h₂, merged, absorbed⟩ := mergeAllBackward_spec opened'.rep settled atQ few
  have header := (absorbed.rep.tags (by simp)).1
  have extent := absorbed.rep.extent
  have room := absorbed.rep.room atQ
  have final := fun fits => (opened'.trans absorbed).trans (absorbed.rep.settle atQ fits)
  simp only [← atQ, Block.tag, reduceCtorEq, if_false, Nat.add_zero, absorb_words] at header extent final
  have index : toInt32 (read64 h₂.mem (A.addr + span Block.size pre + 8 * (c + 3)) / 8) - 3 =
      ((i - c + freeRun post : Nat) : Int) - 3 := by
    have small := A.size_lt
    rw [header, Nat.mul_div_cancel_left _ (by omega), toInt32_of_lt (by omega)]
  rw [cut, merged, ok_bind, index, insertRemainder absorbed.rep.shape room]
  split
  · rename_i fits
    exact ⟨_, rfl, by simpa only [divide, absorb_words, List.append_assoc, List.singleton_append] using final fits⟩
  · rfl

end Fkv
