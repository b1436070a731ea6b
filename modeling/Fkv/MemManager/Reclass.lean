import Fkv.MemManager.Merge

namespace Fkv
open ByteMemory CWord Tiling LinkedRing Runs

/-- A raw stretch may be seen as two. -/
theorem Rep.splitRaw {A : Region} {h : Heap} {v w : Nat} {pre post : List Block} {F : Nat → List Nat}
    (rep : Rep A h ⟨pre ++ ⟨v + w, .raw⟩ :: post, F⟩) :
    Evolves A h ⟨pre ++ ⟨v + w, .raw⟩ :: post, F⟩ h ⟨pre ++ ⟨v, .raw⟩ :: ⟨w, .raw⟩ :: post, F⟩ := by
  have rep' : Rep A h ⟨pre ++ [⟨v + w, .raw⟩] ++ post, F⟩ := by simpa using rep
  have halves : Evolves A h ⟨pre ++ [⟨v + w, .raw⟩] ++ post, F⟩ h ⟨pre ++ [⟨v, .raw⟩, ⟨w, .raw⟩] ++ post, F⟩ :=
    rep'.reshape rfl (fun _ _ => rfl) (by simp [Block.Listed]) (by simp [Block.Listed]) (by simp; omega)
      (by simp [Block.Sized]) (by simp)
  simpa using halves

/-- A raw stretch of no words is nothing. -/
theorem Rep.dropRaw {A : Region} {h : Heap} {pre post : List Block} {F : Nat → List Nat}
    (rep : Rep A h ⟨pre ++ ⟨0, .raw⟩ :: post, F⟩) : Rep A h ⟨pre ++ post, F⟩ := by
  have rep' : Rep A h ⟨pre ++ [⟨0, .raw⟩] ++ post, F⟩ := by simpa using rep
  have dropped : Rep A h ⟨pre ++ [] ++ post, F⟩ :=
    rep'.restate rfl (fun _ _ => rfl) (by simp [Block.Listed]) (by simp) (by simp) (by simp) (by simp)
  simpa using dropped

/-- Dropping the tags of the block in hand. -/
theorem Rep.handToRaw {A : Region} {h : Heap} {w : Nat} {pre post : List Block} {F : Nat → List Nat}
    (rep : Rep A h ⟨pre ++ ⟨w, .hand⟩ :: post, F⟩) :
    Evolves A h ⟨pre ++ ⟨w, .hand⟩ :: post, F⟩ h ⟨pre ++ ⟨w, .raw⟩ :: post, F⟩ :=
  ⟨rep.forget (by simp [Block.Listed]), fun _ _ => rfl, fun z => by simp⟩

/-- Tagging a raw stretch takes it in hand. -/
theorem Rep.rawToHand {A : Region} {h : Heap} {m : Mem} {p w : Nat} {pre post : List Block} {F : Nat → List Nat}
    (rep : Rep A h ⟨pre ++ ⟨w, .raw⟩ :: post, F⟩) (positive : 1 ≤ w) (atP : p = A.addr + span Block.size pre)
    (header : read64 m p = 8 * w) (footer : read64 m (p + 8 * w - 8) = 8 * w)
    (outside : ∀ z, z < p ∨ p + 8 * w ≤ z → m z = h.mem z) :
    Evolves A h ⟨pre ++ ⟨w, .raw⟩ :: post, F⟩ { h with mem := m } ⟨pre ++ ⟨w, .hand⟩ :: post, F⟩ := by
  have rep' : Rep A h ⟨pre ++ [⟨w, .raw⟩] ++ post, F⟩ := by simpa using rep
  have tagged : Evolves A h ⟨pre ++ [⟨w, .raw⟩] ++ post, F⟩ { h with mem := m }
      ⟨pre ++ [⟨w, .hand⟩] ++ post, F⟩ := by
    refine rep'.reshape rfl ?_ (by simp [Block.Listed]) (by simp [Block.Listed]) (by simp)
      (by simpa [Block.Sized] using positive) (by simp [Block.tag, ← atP, header, footer])
    intro z away
    simp only [span_cons, span_nil, Block.size_mk] at away
    exact outside z (by omega)
  simpa using tagged

/-- A block in hand that no list takes is as good as free. -/
theorem Rep.settleSmall {A : Region} {h : Heap} {w : Nat} {pre post : List Block} {F : Nat → List Nat}
    (rep : Rep A h ⟨pre ++ ⟨w, .hand⟩ :: post, F⟩) (small : w < 3) :
    Evolves A h ⟨pre ++ ⟨w, .hand⟩ :: post, F⟩ h ⟨pre ++ ⟨w, .free⟩ :: post, F⟩ := by
  have positive := rep.pos ⟨w, .hand⟩ (by simp) (by simp)
  have lenPos := A.len_pos
  have tags := rep.tags (by simp)
  have kept := rep.retag (m := h.mem) (c := ⟨w, .free⟩) (by simp [Block.Listed])
    (by simp only [Block.Listed]; omega) rfl (by simp only [Block.Sized] at positive ⊢; omega) rfl
    (fun _ => tags.1) (fun _ => tags.2) (fun _ _ => rfl)
  exact ⟨kept, fun _ _ => rfl, fun z => by simp⟩

/-- Carving: the largest block that fits goes from the front of a raw stretch
to the list of its class. -/
theorem Rep.reclass {A : Region} {h : Heap} {k p r w : Nat} {pre post : List Block} {F : Nat → List Nat}
    (rep : Rep A h ⟨pre ++ ⟨w, .raw⟩ :: post, F⟩) (atP : p = A.addr + span Block.size pre) (room : 3 ≤ w)
    (odd : r < 8) (small : 8 * w + r < 2 ^ 32) (largest : k = min w (A.len + 2)) :
    ∃ h', segregatedFitsReclassing h p (8 * w + r) =
        .ok (if 8 * (w - k) + r = 0 then enomem else 0, p + 8 * k, 8 * (w - k) + r, h') ∧
      Evolves A h ⟨pre ++ ⟨w, .raw⟩ :: post, F⟩ h'
        ⟨pre ++ ⟨k, .free⟩ :: ⟨w - k, .raw⟩ :: post, enlist F k p⟩ := by
  have len := A.len_lt
  have lenPos := A.len_pos
  have top := A.words_lt
  have extent := rep.extent
  simp only at extent
  obtain ⟨i, rfl⟩ : ∃ i, k = i + 3 := ⟨k - 3, by omega⟩
  have whole : w = i + 3 + (w - (i + 3)) := by omega
  have halves : Evolves A h ⟨pre ++ ⟨w, .raw⟩ :: post, F⟩ h
      ⟨pre ++ ⟨i + 3, .raw⟩ :: ⟨w - (i + 3), .raw⟩ :: post, F⟩ := by
    have rep' := rep
    rw [whole] at rep'
    have split := rep'.splitRaw
    rwa [← whole] at split
  have inserted := halves.rep.insertHead (by omega) atP
  have tags := inserted.rep.tags (by simp)
  rw [← atP] at tags
  simp only [Block.tag, reduceCtorEq, if_false, Nat.add_zero] at tags
  refine ⟨_, ?_, by simpa [enlist] using halves.trans inserted⟩
  have words : (8 * w + r) / 8 = w := by omega
  have index : (if toInt32 A.len ≤ toInt32 ((8 * w + r) / 8) - 2 - 1 then toInt32 A.len - 1
      else toInt32 ((8 * w + r) / 8) - 2 - 1) = (i : Int) := by
    rw [words, toInt32_of_lt (x := A.len) (by omega), toInt32_of_lt (x := w) (by omega)]
    split <;> omega
  have memSize : (toUInt32 (i : Int) + 2 + 1) % 2 ^ 32 * 8 % 2 ^ 32 = 8 * (i + 3) := by
    rw [toUInt32_of_nonneg (by omega)]
    omega
  have rest : (8 * w + r + 2 ^ 32 - 8 * (i + 3)) % 2 ^ 32 = 8 * (w - (i + 3)) + r := by omega
  have inside : (0 : Int) ≤ (i : Int) ∧ (i : Int) < A.len := by omega
  have foot : sub64 (p + 8 * (i + 3)) 8 = p + 8 * (i + 3) - 8 := sub64_of_le (by omega) (by omega)
  simp only [segregatedFitsReclassing, rep.shape.len, index, memSize, rest, headIndex, inside, and_self,
    if_true, ok_bind, Int.toNat_natCast, add64_of_lt (a := p) (b := 8) (by omega),
    add64_of_lt (a := p) (b := 8 * (i + 3)) (by omega), foot, tags, ne_eq, not_true_eq_false, if_false]
  rw [if_neg (by omega)]

/-- A block in hand above the largest class is cut: the largest block goes to
its list, the remainder stays in hand. -/
theorem Rep.resplit {A : Region} {h : Heap} {p w : Nat} {pre post : List Block} {F : Nat → List Nat}
    (rep : Rep A h ⟨pre ++ ⟨w, .hand⟩ :: post, F⟩) (atP : p = A.addr + span Block.size pre)
    (above : A.len + 2 < w) :
    ∃ h', segregatedFitsReclassingInner h p (8 * w) = .ok (p + 8 * (A.len + 2), h') ∧
      Evolves A h ⟨pre ++ ⟨w, .hand⟩ :: post, F⟩ h'
        ⟨pre ++ ⟨A.len + 2, .free⟩ :: ⟨w - (A.len + 2), .hand⟩ :: post, enlist F (A.len + 2) p⟩ := by
  have lenPos := A.len_pos
  have top := A.words_lt
  have small := A.size_lt
  have extent := rep.extent
  simp only at extent
  have raw := rep.handToRaw
  obtain ⟨h₁, run, carved⟩ := raw.rep.reclass (r := 0) (k := A.len + 2) atP (by omega) (by omega) (by omega)
    (by omega)
  simp only [Nat.add_zero] at run
  have carved' : Evolves A h ⟨pre ++ ⟨w, .raw⟩ :: post, F⟩ h₁
      ⟨(pre ++ [⟨A.len + 2, .free⟩]) ++ ⟨w - (A.len + 2), .raw⟩ :: post, enlist F (A.len + 2) p⟩ := by
    simpa using carved
  have stored := storeBoth_spec (m := h₁.mem) (p := p + 8 * (A.len + 2)) (w := w - (A.len + 2))
    (v := 8 * (w - (A.len + 2))) (by omega) (by omega) (Or.inl ⟨rfl, rfl⟩)
  have tagged := carved'.rep.rawToHand (p := p + 8 * (A.len + 2)) (by omega) (by simp; omega) stored.1
    stored.2.1 stored.2.2
  refine ⟨_, ?_, raw.trans (carved'.trans (by simpa using tagged))⟩
  have foot : sub64 (add64 (p + 8 * (A.len + 2)) (8 * (w - (A.len + 2)))) 8 =
      p + 8 * (A.len + 2) + 8 * (w - (A.len + 2)) - 8 := by
    rw [add64_of_lt (by omega), sub64_of_le (by omega) (by omega)]
  have more : ¬ 8 * (w - (A.len + 2)) = 0 := by omega
  simp only [segregatedFitsReclassingInner, run, ok_bind, more, if_false, foot]
  rw [if_neg (by decide)]

end Fkv
