import Fkv.MemManager.Get

namespace Fkv
open ByteMemory CWord Tiling LinkedRing Runs

/-- Carving `w` words behind the blocks `pre`: largest blocks first, and what
remains as one smaller block. -/
def carved (M a : Nat) : Nat → List Block → Nat → (Nat → List Nat) → Layout
  | 0, pre, _, F => ⟨pre, F⟩
  | fuel + 1, pre, w, F =>
    if w = 0 then ⟨pre, F⟩
    else carved M a fuel (pre ++ [⟨min w M, .free⟩]) (w - min w M) (enlist F (min w M) (a + span Block.size pre))

/-- The layout an allocator starts with. -/
def Region.fresh (A : Region) : Layout :=
  carved (A.len + 2) A.addr (A.addrSize / 8) [] (A.addrSize / 8) (fun _ => [])

/-- The blocks carved are all free. -/
theorem carved_free {M a fuel w : Nat} {pre : List Block} {F : Nat → List Nat}
    (free : ∀ b ∈ pre, b.state = .free) : ∀ b ∈ (carved M a fuel pre w F).blocks, b.state = .free := by
  induction fuel generalizing pre w F with
  | zero => exact free
  | succ fuel ih =>
    rw [carved]
    split
    · exact free
    · refine ih ?_
      intro b member
      rcases List.mem_append.mp member with old | new
      · exact free b old
      · rw [List.mem_singleton.mp new]

theorem Region.fresh_free (A : Region) : ∀ b ∈ A.fresh.blocks, b.state = .free :=
  carved_free (by simp)

@[simp] theorem carved_zero {M a fuel : Nat} {pre : List Block} {F : Nat → List Nat} :
    carved M a fuel pre 0 F = ⟨pre, F⟩ := by
  cases fuel <;> rfl

/-- Less than a listed block's worth of words makes one block that is on no list. -/
theorem carved_small {M a fuel w : Nat} {pre : List Block} {F : Nat → List Nat} (few : w < 3) (room : 3 ≤ M)
    (enough : w ≤ fuel) :
    carved M a fuel pre w F = ⟨pre ++ if w = 0 then [] else [⟨w, .free⟩], F⟩ := by
  by_cases none : w = 0
  · simp [none]
  · obtain ⟨fuel, rfl⟩ : ∃ n, fuel = n + 1 := ⟨fuel - 1, by omega⟩
    have unlisted : ¬ 3 ≤ w := by omega
    simp [carved, none, show min w M = w by omega, enlist, unlisted]

/-- Reclassing one or two words tags them; less than a word is left alone. -/
theorem Rep.reclassSmall {A : Region} {h : Heap} {p r w : Nat} {pre : List Block} {F : Nat → List Nat}
    (rep : Rep A h ⟨pre ++ [⟨w, .raw⟩], F⟩) (atP : p = A.addr + span Block.size pre) (few : w < 3) (odd : r < 8) :
    ∃ q s h', segregatedFitsReclassing h p (8 * w + r) = .ok (enomem, q, s, h') ∧
      Rep A h' ⟨pre ++ if w = 0 then [] else [⟨w, .free⟩], F⟩ ∧
      ∀ x, x < p ∨ p + 8 * w ≤ x → h'.mem x = h.mem x := by
  have len := A.len_lt
  have lenPos := A.len_pos
  have top := A.words_lt
  have extent := rep.extent
  simp only [span_nil, Nat.add_zero] at extent
  have words : (8 * w + r) / 8 = w := by omega
  have unfolded : segregatedFitsReclassing h p (8 * w + r) = .ok (enomem, add64 p (8 * w), r,
      { h with mem := if w = 1 then maskFree8Block h.mem p
          else if w = 2 then maskFree16Block h.mem p else h.mem }) := by
    have index : toInt32 w - 2 - 1 = (w : Int) - 3 := by
      rw [toInt32_of_lt (by omega)]
      omega
    have largest : toInt32 A.len = A.len := toInt32_of_lt (by omega)
    have below : ¬ ((A.len : Nat) : Int) ≤ (w : Int) - 3 := by omega
    have negative : (w : Int) - 3 < 0 := by omega
    have enough : ¬ (w : Int) - 3 < -3 := by omega
    have memSize : (toUInt32 ((w : Int) - 3) + 2 + 1) % 2 ^ 32 * 8 % 2 ^ 32 = 8 * w := by
      have cases : w = 0 ∨ w = 1 ∨ w = 2 := by omega
      rcases cases with rfl | rfl | rfl <;> decide
    have rest : (8 * w + r + 2 ^ 32 - 8 * w) % 2 ^ 32 = r := by omega
    have one : ((w : Int) - 3 = -2) = (w = 1) := by rw [eq_iff_iff]; omega
    have two : ((w : Int) - 3 = -1) = (w = 2) := by rw [eq_iff_iff]; omega
    simp only [segregatedFitsReclassing, rep.shape.len, words, index, largest, below, if_false, memSize, rest,
      negative, if_true, enough, one, two]
  refine ⟨_, _, _, unfolded, ?_⟩
  have cases : w = 0 ∨ w = 1 ∨ w = 2 := by omega
  rcases cases with rfl | rfl | rfl
  · refine ⟨?_, fun x _ => by simp⟩
    simpa using rep.dropRaw
  · obtain ⟨header, footer, outside⟩ :=
      tagRemainder (m := h.mem) (q := p) (w := 1) (by omega) (by omega) (by omega)
    refine ⟨?_, by simpa using outside⟩
    simpa using (rep.rawToHand (by omega) atP header footer outside).rep.settleSmall (by omega) |>.rep
  · obtain ⟨header, footer, outside⟩ :=
      tagRemainder (m := h.mem) (q := p) (w := 2) (by omega) (by omega) (by omega)
    refine ⟨?_, by simpa using outside⟩
    simpa using (rep.rawToHand (by omega) atP header footer outside).rep.settleSmall (by omega) |>.rep

/-- The carving loop. -/
theorem carveLoop_spec {A : Region} {h : Heap} {fuel p r w : Nat} {pre : List Block} {F : Nat → List Nat}
    (rep : Rep A h ⟨pre ++ [⟨w, .raw⟩], F⟩) (atP : p = A.addr + span Block.size pre) (odd : r < 8)
    (small : 8 * w + r < 2 ^ 32) (enough : w < fuel) {budget : Nat} (budgeted : w ≤ budget) :
    ∃ h', carveLoop fuel h p (8 * w + r) = .ok h' ∧ Rep A h' (carved (A.len + 2) A.addr budget pre w F) ∧
      ∀ x, x < A.addr ∨ A.addr + 8 * (A.addrSize / 8) ≤ x → h'.mem x = h.mem x := by
  have lenPos := A.len_pos
  induction fuel generalizing h pre w F p budget with
  | zero => omega
  | succ fuel ih =>
    by_cases few : w < 3
    · obtain ⟨q, s, h', run, done, outside⟩ := rep.reclassSmall atP few odd
      have extent := rep.extent
      refine ⟨h', ?_, ?_, fun x away => outside x (by simp only [span_nil] at extent; omega)⟩
      · simp only [carveLoop, run, ok_bind]
        rw [if_pos (by decide)]
      · rwa [carved_small few (by omega) budgeted]
    · obtain ⟨h₁, run, first⟩ := rep.reclass (r := r) atP (by omega) odd small rfl
      obtain ⟨budget, rfl⟩ : ∃ n, budget = n + 1 := ⟨budget - 1, by omega⟩
      have some : w ≠ 0 := by omega
      simp only [carveLoop, run, ok_bind, carved, some, if_false]
      have first' : Rep A h₁ ⟨(pre ++ [⟨min w (A.len + 2), .free⟩]) ++ [⟨w - min w (A.len + 2), .raw⟩],
          enlist F (min w (A.len + 2)) p⟩ := by simpa using first.rep
      by_cases last : 8 * (w - min w (A.len + 2)) + r = 0
      · rw [if_pos last, if_pos (by decide)]
        have none : w - min w (A.len + 2) = 0 := by omega
        rw [none] at first' ⊢
        refine ⟨h₁, rfl, ?_, fun x away => first.outside rep away⟩
        rw [carved_zero, ← atP]
        simpa using first'.dropRaw
      · rw [if_neg last, if_neg (by decide)]
        rw [atP] at first'
        obtain ⟨h₂, rest, carved, outside⟩ := ih (p := p + 8 * min w (A.len + 2))
          (w := w - min w (A.len + 2)) first' (by simp; omega) (by omega) (by omega)
            (show w - min w (A.len + 2) ≤ budget by omega)
        exact ⟨h₂, rest, carved, fun x away => (outside x away).trans (first.outside rep away)⟩

/-- Creation for an arena sets up a header of its shape with empty lists. -/
theorem Rep.created {A : Region} {m : Mem} {M : Nat} {raw : SegregatedFits} (self : raw.self = A.self)
    (classes : segregatedFitsClassSize M = A.len) :
    Rep A { mem := m, sfits := { createSegregatedFits raw M with addr := A.addr, addrSize := A.addrSize } }
      ⟨[] ++ [⟨A.addrSize / 8, .raw⟩], fun _ => []⟩ := by
  have shape : Shape A { createSegregatedFits raw M with addr := A.addr, addrSize := A.addrSize } := by
    refine ⟨self, rfl, rfl, classes, ?_⟩
    intro i bound
    simp only [createSegregatedFits, classes, bound, if_true]
    exact class_eq A (by omega)
  refine ⟨shape, by simp, by simp [Block.Sized], by simp, ?_, by simp⟩
  intro i bound
  rw [circular_nil, Heap.link_headPtr shape]
  simp [createSegregatedFits, classes, bound, SegregatedFits.headPtr, Region.headPtr, self]

/-- Carving a partition succeeds and leaves the fresh layout. -/
theorem carve_spec {A : Region} {M : Nat} (m : Mem) (raw : SegregatedFits) (self : raw.self = A.self)
    (classes : segregatedFitsClassSize M = A.len) :
    ∃ h, carve m raw M A.addr A.addrSize = .ok h ∧ Rep A h A.fresh ∧
      ∀ x, x < A.addr ∨ A.addr + 8 * (A.addrSize / 8) ≤ x → h.mem x = m x := by
  have small := A.size_lt
  obtain ⟨h, run, rep, outside⟩ := carveLoop_spec (p := A.addr) (r := A.addrSize % 8)
    (Rep.created (m := m) self classes) (by simp) (by omega) (by omega)
    (show A.addrSize / 8 < A.addrSize + 1 by omega) le_rfl
  refine ⟨h, ?_, rep, outside⟩
  rw [Nat.div_add_mod] at run
  rw [carve, Nat.mod_eq_of_lt small]
  exact run

/-- Carving takes blocks of `M` words as long as there are enough. -/
theorem carved_blocks {M fuel w : Nat} (a : Nat) (pre : List Block) (F : Nat → List Nat) (positive : 1 ≤ M)
    (enough : w ≤ fuel) :
    (carved M a fuel pre w F).blocks = pre ++ (List.replicate (w / M) ⟨M, .free⟩ ++ if w % M = 0 then []
      else [⟨w % M, .free⟩]) := by
  induction fuel generalizing pre w F with
  | zero =>
    obtain rfl : w = 0 := by omega
    simp
  | succ fuel ih =>
    rw [carved]
    split
    · rename_i none
      simp [none]
    · rename_i some
      rw [ih _ _ (by omega)]
      by_cases more : M ≤ w
      · have quotient : w / M = (w - M) / M + 1 := by
          rw [← Nat.add_div_right _ (by omega), Nat.sub_add_cancel more]
        have remainder : (w - M) % M = w % M := (Nat.mod_eq_sub_mod more).symm
        rw [Nat.min_eq_right more, quotient, remainder, List.replicate_succ]
        simp
      · have less : w < M := by omega
        rw [Nat.min_eq_left less.le, Nat.sub_self, Nat.div_eq_of_lt less, Nat.mod_eq_of_lt less, if_neg some]
        simp

/-- A fresh partition has as many largest blocks as fit. -/
theorem Region.fresh_count (A : Region) :
    A.addrSize / 8 / (A.len + 2) ≤ A.fresh.blocks.count ⟨A.len + 2, .free⟩ := by
  have blocks := carved_blocks A.addr [] (fun _ => []) (show 1 ≤ A.len + 2 by omega) (le_refl (A.addrSize / 8))
  rw [Region.fresh, blocks, List.nil_append, List.count_append, List.count_replicate_self]
  exact Nat.le_add_right _ _

/-- Two classes and three largest blocks. -/
def smallArena : Arena :=
  { self := 64, addr := 4096, addrSize := 96, len := 2, addr_ge := by decide, size_lt := by decide,
    end_lt := by decide, top := by decide, len_pos := by decide, len_lt := by decide, self_lt := by decide,
    apart := by decide }

/-- Two classes and two largest blocks. -/
def pairArena : Arena :=
  { self := 64, addr := 4096, addrSize := 64, len := 2, addr_ge := by decide, size_lt := by decide,
    end_lt := by decide, top := by decide, len_pos := by decide, len_lt := by decide, self_lt := by decide,
    apart := by decide }

/-- Two classes and seven words. -/
def mixedArena : Arena :=
  { self := 64, addr := 4096, addrSize := 56, len := 2, size_lt := by decide, end_lt := by decide,
    len_pos := by decide, len_lt := by decide, self_lt := by decide, apart := by decide, addr_ge := by decide,
    top := by decide }

/-- Seven classes and nine words. -/
def wideArena : Arena :=
  { self := 64, addr := 4096, addrSize := 72, len := 7, size_lt := by decide, end_lt := by decide,
    len_pos := by decide, len_lt := by decide, self_lt := by decide, apart := by decide, addr_ge := by decide,
    top := by decide }

/-- One class and three words, eight bytes below the end of the address space. -/
def edgeRegion : Region :=
  { self := 64, addr := 2 ^ 64 - 32, addrSize := 24, len := 1, size_lt := by decide, end_lt := by decide,
    len_pos := by decide, len_lt := by decide, self_lt := by decide, apart := by decide }

def smallRaw : SegregatedFits := { self := 64, addr := 0, addrSize := 0, len := 0, heads := fun _ => ⟨0, 0⟩ }

/-- The carving loop of a new log ends, stays inside the partition and leaves as
many largest blocks as fit, followed by at most one smaller block. -/
theorem carve_tiles (A : Region) (m : Mem) (raw : SegregatedFits) (M : Nat) (self : raw.self = A.self)
    (classes : segregatedFitsClassSize M = A.len) :
    ∃ h F, carve m raw M A.addr A.addrSize = .ok h ∧
      (∀ x, x < A.addr ∨ A.addr + 8 * (A.addrSize / 8) ≤ x → h.mem x = m x) ∧
      Rep A h ⟨List.replicate (A.addrSize / (8 * (A.len + 2))) ⟨A.len + 2, .free⟩ ++
        (if A.addrSize / 8 % (A.len + 2) = 0 then [] else [⟨A.addrSize / 8 % (A.len + 2), .free⟩]), F⟩ := by
  obtain ⟨h, run, rep, outside⟩ := carve_spec m raw self classes
  have blocks := carved_blocks A.addr [] (fun _ => []) (show 1 ≤ A.len + 2 by omega) (le_refl (A.addrSize / 8))
  rw [List.nil_append, Nat.div_div_eq_div_mul] at blocks
  refine ⟨h, A.fresh.lists, run, outside, ?_⟩
  rw [← blocks]
  exact rep

theorem carve_tiles_small : ∃ h F, carve (fun _ => 0) smallRaw 16 4096 96 = .ok h ∧
    (∀ x, x < 4096 ∨ 4192 ≤ x → h.mem x = 0) ∧
    Rep smallArena h ⟨[⟨4, .free⟩, ⟨4, .free⟩, ⟨4, .free⟩], F⟩ :=
  carve_tiles smallArena (fun _ => 0) smallRaw 16 rfl rfl

end Fkv
