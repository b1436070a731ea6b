import Fkv.MemManager.Reclass

namespace Fkv
open ByteMemory CWord Tiling LinkedRing Runs

/-- A layout seen from the block in hand: the blocks in front of it, nearest
first, its length in words, and the blocks behind it. -/
structure Focus where
  before : List Block
  words : Nat
  after : List Block
  lists : Nat → List Nat

/-- The address of the block in hand. -/
def Focus.head (a : Nat) (f : Focus) : Nat := a + span Block.size f.before

def Focus.layout (s : BlockState) (f : Focus) : Layout :=
  ⟨f.before.reverse ++ ⟨f.words, s⟩ :: f.after, f.lists⟩

/-- Merging with the free run in front. A sum above `M` words gives its first
`M` words back at once and ends the merging. -/
def mergeLeft (M a : Nat) (after : List Block) : List Block → Nat → (Nat → List Nat) → Focus
  | [], w, F => ⟨[], w, after, F⟩
  | b :: before, w, F =>
    if b.state = .used then ⟨b :: before, w, after, F⟩
    else if M < b.words + w then
      ⟨⟨M, .free⟩ :: before, b.words + w - M, after,
        enlist (delist F b.words (a + span Block.size before)) M (a + span Block.size before)⟩
    else mergeLeft M a after before (b.words + w) (delist F b.words (a + span Block.size before))

/-- Merging with the free run behind, in the same way. -/
def mergeRight (M a : Nat) (before : List Block) : List Block → Nat → (Nat → List Nat) → Focus
  | [], w, F => ⟨before, w, [], F⟩
  | b :: after, w, F =>
    if b.state = .used then ⟨before, w, b :: after, F⟩
    else if M < w + b.words then
      ⟨⟨M, .free⟩ :: before, w + b.words - M, after,
        enlist (delist F b.words (a + span Block.size before + 8 * w)) M (a + span Block.size before)⟩
    else mergeRight M a before after (w + b.words) (delist F b.words (a + span Block.size before + 8 * w))

/-- Both loops of a free, starting with the freed block in hand. -/
def coalesce (M a : Nat) (f : Focus) : Focus :=
  let left := mergeLeft M a f.after f.before f.words f.lists
  mergeRight M a left.before left.after left.words left.lists

/-- What a free makes of the layout around the freed block. -/
def release (M a : Nat) (f : Focus) : Layout :=
  let g := coalesce M a f
  ⟨g.before.reverse ++ ⟨g.words, .free⟩ :: g.after, enlist g.lists g.words (g.head a)⟩

/-- The free run in front is replaced by at most one block of `M` words. -/
theorem mergeLeft_cut {M w : Nat} {before : List Block} (a : Nat) (after : List Block) (F : Nat → List Nat)
    (sized : ∀ b ∈ before, 1 ≤ b.words ∧ b.words ≤ M) (positive : 1 ≤ w) (fits : w ≤ M) :
    ∃ gone rest emitted, before = gone ++ rest ∧ (∀ b ∈ gone, b.state ≠ .used) ∧
      (mergeLeft M a after before w F).before = emitted ++ rest ∧ (emitted = [] ∨ emitted = [⟨M, .free⟩]) ∧
      span Block.size emitted + 8 * (mergeLeft M a after before w F).words = span Block.size gone + 8 * w ∧
      1 ≤ (mergeLeft M a after before w F).words ∧ (mergeLeft M a after before w F).words ≤ M ∧
      (mergeLeft M a after before w F).after = after := by
  induction before generalizing w F with
  | nil => exact ⟨[], [], [], rfl, by simp, rfl, Or.inl rfl, rfl, positive, fits, rfl⟩
  | cons b before ih =>
    obtain ⟨low, high⟩ := sized b (by simp)
    rw [mergeLeft]
    split
    · exact ⟨[], b :: before, [], rfl, by simp, rfl, Or.inl rfl, rfl, positive, fits, rfl⟩
    · rename_i unused
      split
      · refine ⟨[b], before, [⟨M, .free⟩], rfl, by simpa using unused, rfl, Or.inr rfl, ?_, ?_, ?_, rfl⟩
        · simp only [span_cons, span_nil, Block.size]; omega
        · simp only; omega
        · simp only; omega
      · obtain ⟨gone, rest, emitted, rfl, free, cut, shape, length, more⟩ :=
          ih (w := b.words + w) (delist F b.words (a + span Block.size before))
            (fun c member => sized c (by simp [member])) (by omega) (by omega)
        refine ⟨b :: gone, rest, emitted, rfl, by simpa using ⟨unused, free⟩, cut, shape, ?_, more⟩
        rw [length]
        simp only [span_cons, Block.size]
        omega

theorem mergeRight_cut {M w : Nat} {after : List Block} (a : Nat) (before : List Block) (F : Nat → List Nat)
    (sized : ∀ b ∈ after, 1 ≤ b.words ∧ b.words ≤ M) (positive : 1 ≤ w) (fits : w ≤ M) :
    ∃ gone emitted, after = gone ++ (mergeRight M a before after w F).after ∧ (∀ b ∈ gone, b.state ≠ .used) ∧
      (mergeRight M a before after w F).before = emitted ++ before ∧
      (emitted = [] ∨ emitted = [⟨M, .free⟩]) ∧
      span Block.size emitted + 8 * (mergeRight M a before after w F).words = 8 * w + span Block.size gone ∧
      1 ≤ (mergeRight M a before after w F).words ∧ (mergeRight M a before after w F).words ≤ M := by
  induction after generalizing w F with
  | nil => exact ⟨[], [], rfl, by simp, rfl, Or.inl rfl, by simp [mergeRight], positive, fits⟩
  | cons b after ih =>
    obtain ⟨low, high⟩ := sized b (by simp)
    rw [mergeRight]
    split
    · exact ⟨[], [], rfl, by simp, rfl, Or.inl rfl, by simp, positive, fits⟩
    · rename_i unused
      split
      · refine ⟨[b], [⟨M, .free⟩], rfl, by simpa using unused, rfl, Or.inr rfl, ?_, ?_, ?_⟩
        · simp only [span_cons, span_nil, Block.size]; omega
        · simp only; omega
        · simp only; omega
      · obtain ⟨gone, emitted, all, free, cut, shape, length, more⟩ :=
          ih (w := w + b.words) (delist F b.words (a + span Block.size before + 8 * w))
            (fun c member => sized c (by simp [member])) (by omega) (by omega)
        refine ⟨b :: gone, emitted, ?_, by simpa using ⟨unused, free⟩, cut, shape, ?_, more⟩
        · rw [List.cons_append, ← all]
        · rw [length]
          simp only [span_cons, Block.size]
          omega

/-- What both loops do to the blocks: the free runs next to the block in hand go,
and at most two blocks of `M` words come in front of it. -/
theorem coalesce_cut {M a : Nat} {f : Focus} (sized : ∀ b ∈ f.before ++ f.after, 1 ≤ b.words ∧ b.words ≤ M)
    (positive : 1 ≤ f.words) (fits : f.words ≤ M) :
    ∃ gone rest emitted gone', f.before = gone ++ rest ∧ f.after = gone' ++ (coalesce M a f).after ∧
      (∀ b ∈ gone ++ gone', b.state ≠ .used) ∧ (coalesce M a f).before = emitted ++ rest ∧
      (∀ b ∈ emitted, b = ⟨M, .free⟩) ∧
      span Block.size emitted + 8 * (coalesce M a f).words =
        span Block.size gone + 8 * f.words + span Block.size gone' ∧
      1 ≤ (coalesce M a f).words ∧ (coalesce M a f).words ≤ M := by
  obtain ⟨before, w, after, F⟩ := f
  simp only [List.mem_append] at sized positive fits
  obtain ⟨gone, rest, emitted, whole, free, cut, shape, length, positive', fits', kept⟩ :=
    mergeLeft_cut a after F (fun b member => sized b (Or.inl member)) positive fits
  simp only [coalesce]
  rw [kept]
  obtain ⟨gone', emitted', whole', free', cut', shape', length', bounds⟩ :=
    mergeRight_cut a (mergeLeft M a after before w F).before (mergeLeft M a after before w F).lists
      (fun b member => sized b (Or.inr member)) positive' fits'
  refine ⟨gone, rest, emitted' ++ emitted, gone', whole, whole', ?_, ?_, ?_, ?_, bounds⟩
  · intro b member
    rcases List.mem_append.mp member with left | right
    · exact free b left
    · exact free' b right
  · rw [cut', cut, List.append_assoc]
  · intro b member
    rcases List.mem_append.mp member with new | old
    · rcases shape' with rfl | rfl
      · cases new
      · simpa using new
    · rcases shape with rfl | rfl
      · cases old
      · simpa using old
  · rw [span_append]
    omega

/-- Every used block can be put in focus. -/
theorem Layout.focus {a p w : Nat} (lay : Layout) (used : (p, w) ∈ usedBlocks a lay.blocks) :
    ∃ f : Focus, f.layout .used = lay ∧ f.head a = p ∧ f.words = w := by
  obtain ⟨pre, post, split, atP⟩ := place_split (mem_usedBlocks.mp used)
  refine ⟨⟨pre.reverse, w, post, lay.lists⟩, ?_, by simp [Focus.head, atP], rfl⟩
  obtain ⟨blocks, F⟩ := lay
  simpa [Focus.layout] using split.symm

/-- The used blocks around the one in focus. -/
theorem Focus.used_perm (a : Nat) (f : Focus) : (usedBlocks a (f.layout .used).blocks).Perm
    ((f.head a, f.words) :: usedBlocks a (f.layout .hand).blocks) := by
  simp only [Focus.layout, Focus.head, usedBlocks_append, usedBlocks_cons, if_true, reduceCtorEq, if_false,
    List.nil_append, span_reverse, Block.size_mk]
  exact List.perm_middle

/-- A free keeps the other used blocks where they are. -/
theorem release_used {M a : Nat} {f : Focus} (sized : ∀ b ∈ f.before ++ f.after, 1 ≤ b.words ∧ b.words ≤ M)
    (positive : 1 ≤ f.words) (fits : f.words ≤ M) :
    usedBlocks a (release M a f).blocks = usedBlocks a (f.layout .hand).blocks := by
  obtain ⟨gone, rest, emitted, gone', before, after, unused, cut, shape, length, -, -⟩ :=
    coalesce_cut (a := a) sized positive fits
  have none : ∀ q, usedBlocks q gone.reverse = [] := fun q =>
    usedBlocks_unused (fun b member => unused b (by simp_all))
  have none' : ∀ q, usedBlocks q gone' = [] := fun q => usedBlocks_unused (fun b member => unused b (by simp_all))
  have fresh : ∀ q, usedBlocks q emitted.reverse = [] := fun q =>
    usedBlocks_unused (fun b member => by simp [shape b (by simpa using member)])
  have behind : ∀ q, usedBlocks q f.after = usedBlocks (q + span Block.size gone') (coalesce M a f).after := by
    intro q
    rw [after, usedBlocks_append, none', List.nil_append]
  simp only [release, Focus.layout, before, cut, List.reverse_append, List.append_assoc, usedBlocks_append,
    usedBlocks_cons, reduceCtorEq, if_false, List.nil_append, none, fresh, span_reverse, Block.size_mk, behind]
  rw [show a + span Block.size rest + span Block.size emitted + 8 * (coalesce M a f).words =
    a + span Block.size rest + span Block.size gone + 8 * f.words + span Block.size gone' by omega]

theorem release_settled {M a : Nat} {f : Focus} (sized : ∀ b ∈ f.before ++ f.after, 1 ≤ b.words ∧ b.words ≤ M)
    (positive : 1 ≤ f.words) (fits : f.words ≤ M) (settled : ∀ b ∈ f.before ++ f.after, b.Settled) :
    (release M a f).Settled := by
  obtain ⟨gone, rest, emitted, gone', before, after, -, cut, shape, -, -, -⟩ :=
    coalesce_cut (a := a) sized positive fits
  intro b member
  simp only [release, cut, List.mem_append, List.mem_reverse, List.mem_cons] at member
  rcases member with (new | old) | rfl | old
  · exact Or.inr (by rw [shape b new])
  · exact settled b (by simp [before, old])
  · exact Or.inr rfl
  · exact settled b (by rw [List.mem_append, after, List.mem_append]; exact Or.inr (Or.inr old))

/-- The first loop of a free. -/
theorem forwardLoop_spec {A : Arena} {h : Heap} {fuel w : Nat} {before after : List Block} {F : Nat → List Nat}
    (rep : Rep A h (Focus.layout .hand ⟨before, w, after, F⟩)) (settled : ∀ b ∈ before, b.Settled)
    (fits : w ≤ A.len + 2) (enough : before.length < fuel) :
    ∃ h', forwardLoop (A.addr + span Block.size before + 8 * w - 8) (8 * (A.len + 3)) fuel h = .ok h' ∧
      Evolves A h (Focus.layout .hand ⟨before, w, after, F⟩) h'
        ((mergeLeft (A.len + 2) A.addr after before w F).layout .hand) := by
  have len := A.len_lt
  have small := A.size_lt
  obtain ⟨fuel, rfl⟩ : ∃ n, fuel = n + 1 := ⟨fuel - 1, by omega⟩
  induction before generalizing h w F fuel with
  | nil =>
    have stop := mergeBlockForward_stop (show Rep A h ⟨[] ++ ⟨w, .hand⟩ :: after, F⟩ from rep) rfl (by simp)
    refine ⟨h, ?_, .refl rep⟩
    simp only [span_nil, Nat.add_zero] at stop ⊢
    simp only [forwardLoop, stop, ok_bind, Bool.false_eq_true, if_false]
  | cons b before ih =>
    rcases settled b (by simp) with used | free
    · have stop := mergeBlockForward_stop rep rfl (by simp [used])
      rw [span_reverse] at stop
      refine ⟨h, ?_, by simpa only [mergeLeft, used, if_true] using Evolves.refl rep⟩
      simp only [forwardLoop, stop, ok_bind, Bool.false_eq_true, if_false]
    · obtain ⟨v, s⟩ := b
      simp only at free
      subst free
      have opened : Rep A h ⟨before.reverse ++ ⟨v, .free⟩ :: ⟨w, .hand⟩ :: after, F⟩ := by
        simpa [Focus.layout] using rep
      have atP : A.addr + span Block.size before = A.addr + span Block.size before.reverse := by simp
      obtain ⟨positive, high⟩ : 1 ≤ v ∧ v ≤ A.len + 2 := opened.sized ⟨v, .free⟩ (by simp)
      obtain ⟨h₁, merged, first⟩ := mergeBlockForward_free opened atP
      have extent := first.rep.extent
      simp only [span_reverse] at extent
      have tail := (first.rep.tags (by simp)).2
      simp only [span_reverse, Block.tag, reduceCtorEq, if_false, Nat.add_zero] at tail
      have address : A.addr + span Block.size (⟨v, .free⟩ :: before) + 8 * w - 8 =
          A.addr + span Block.size before + 8 * v + 8 * w - 8 := by
        simp only [span_cons, Block.size_mk]; omega
      have start : Evolves A h (Focus.layout .hand ⟨⟨v, .free⟩ :: before, w, after, F⟩) h₁
          (Focus.layout .hand ⟨before, v + w, after, delist F v (A.addr + span Block.size before)⟩) := by
        simpa [Focus.layout] using first
      have size : read64 h₁.mem (A.addr + span Block.size before + 8 * v + 8 * w - 8) % 2 ^ 32 = 8 * (v + w) := by
        rw [show A.addr + span Block.size before + 8 * v + 8 * w - 8 =
          A.addr + span Block.size before + 8 * (v + w) - 8 by omega, tail]
        omega
      rw [address]
      by_cases above : A.len + 2 < v + w
      · obtain ⟨h₂, cut, second⟩ := first.rep.resplit atP above
        refine ⟨h₂, ?_, start.trans ?_⟩
        · have top := A.top
          have low := A.addr_ge
          have head : add64 (sub64 (A.addr + span Block.size before + 8 * v + 8 * w - 8) (8 * (v + w))) 8 =
              A.addr + span Block.size before := by
            rw [sub64_of_le (by omega) (by omega), add64_of_lt (by omega)]
            omega
          simp only [forwardLoop, merged, ok_bind, if_true, size]
          rw [if_pos (by omega), head, cut]
          rfl
        · simpa [Focus.layout, mergeLeft, above] using second
      · obtain ⟨n, rfl⟩ : ∃ n, fuel = n + 1 := ⟨fuel - 1, by simp only [List.length_cons] at enough; omega⟩
        obtain ⟨h₂, rest, second⟩ := ih start.rep (fun c member => settled c (by simp [member])) (by omega) n
          (by simp only [List.length_cons] at enough; omega)
        refine ⟨h₂, ?_, start.trans ?_⟩
        · simp only [forwardLoop, merged, ok_bind, if_true, size] at rest ⊢
          rw [if_neg (by omega), show A.addr + span Block.size before + 8 * v + 8 * w - 8 =
            A.addr + span Block.size before + 8 * (v + w) - 8 by omega]
          exact rest
        · simpa [mergeLeft, above] using second

/-- The second loop of a free, with the address it leaves in `block_head`. -/
theorem backwardLoop_spec {A : Arena} {h : Heap} {fuel w : Nat} {before after : List Block} {F : Nat → List Nat}
    (rep : Rep A h (Focus.layout .hand ⟨before, w, after, F⟩)) (settled : ∀ b ∈ after, b.Settled)
    (fits : w ≤ A.len + 2) (enough : after.length < fuel) :
    ∃ h', backwardLoop (A.addr + span Block.size before) (8 * (A.len + 3)) fuel h =
        .ok ((mergeRight (A.len + 2) A.addr before after w F).head A.addr, h') ∧
      Evolves A h (Focus.layout .hand ⟨before, w, after, F⟩) h'
        ((mergeRight (A.len + 2) A.addr before after w F).layout .hand) := by
  have len := A.len_lt
  have small := A.size_lt
  have atP : A.addr + span Block.size before = A.addr + span Block.size before.reverse := by simp
  obtain ⟨fuel, rfl⟩ : ∃ n, fuel = n + 1 := ⟨fuel - 1, by omega⟩
  induction after generalizing h w F fuel with
  | nil =>
    have stop := mergeBlockBackward_stop rep atP (by simp)
    refine ⟨h, ?_, .refl rep⟩
    simp only [backwardLoop, stop, ok_bind, Bool.false_eq_true, if_false, mergeRight, Focus.head]
  | cons b after ih =>
    rcases settled b (by simp) with used | free
    · have stop := mergeBlockBackward_stop rep atP (by simp [used])
      refine ⟨h, ?_, by simpa only [mergeRight, used, if_true] using Evolves.refl rep⟩
      simp only [backwardLoop, stop, ok_bind, Bool.false_eq_true, if_false, mergeRight, used, if_true, Focus.head]
    · obtain ⟨v, s⟩ := b
      simp only at free
      subst free
      obtain ⟨positive, high⟩ : 1 ≤ v ∧ v ≤ A.len + 2 := rep.sized ⟨v, .free⟩ (by simp [Focus.layout])
      obtain ⟨h₁, merged, first⟩ := mergeBlockBackward_free rep atP
      have start : Evolves A h (Focus.layout .hand ⟨before, w, ⟨v, .free⟩ :: after, F⟩) h₁ (Focus.layout .hand
          ⟨before, w + v, after, delist F v (A.addr + span Block.size before + 8 * w)⟩) := first
      have extent := first.rep.extent
      have head := (first.rep.tags (by simp)).1
      simp only [← atP, Block.tag, reduceCtorEq, if_false, Nat.add_zero] at head
      have size : read64 h₁.mem (A.addr + span Block.size before) % 2 ^ 32 = 8 * (w + v) := by
        rw [head]
        simp only at extent
        omega
      by_cases above : A.len + 2 < w + v
      · obtain ⟨h₂, cut, second⟩ := first.rep.resplit atP above
        refine ⟨h₂, ?_, start.trans ?_⟩
        · simp only [backwardLoop, merged, ok_bind, if_true, size, mergeRight, reduceCtorEq, if_false, above,
            Focus.head, span_cons, Block.size_mk]
          rw [if_pos (by omega), cut]
          simp only [Nat.add_comm, Nat.add_left_comm]
        · simpa [Focus.layout, mergeRight, above] using second
      · obtain ⟨n, rfl⟩ : ∃ n, fuel = n + 1 := ⟨fuel - 1, by simp only [List.length_cons] at enough; omega⟩
        obtain ⟨h₂, rest, second⟩ := ih start.rep (fun c member => settled c (by simp [member])) (by omega) n
          (by simp only [List.length_cons] at enough; omega)
        refine ⟨h₂, ?_, start.trans ?_⟩
        · rw [backwardLoop, merged]
          simp only [ok_bind, if_true, size, mergeRight, reduceCtorEq, if_false, above]
          rw [if_neg (by omega)]
          exact rest
        · simpa [mergeRight, above] using second

/-- A block in hand of at most the largest size ends up on its list, if there
is one for it. -/
theorem Rep.settle {A : Arena} {h : Heap} {p w : Nat} {pre post : List Block} {F : Nat → List Nat}
    (rep : Rep A h ⟨pre ++ ⟨w, .hand⟩ :: post, F⟩) (atP : p = A.addr + span Block.size pre)
    (fits : w ≤ A.len + 2) :
    Evolves A h ⟨pre ++ ⟨w, .hand⟩ :: post, F⟩
      (if 3 ≤ w then segregatedFitsInsertBlockHead h (w - 3) (p + 8) else h)
      ⟨pre ++ ⟨w, .free⟩ :: post, enlist F w p⟩ := by
  unfold enlist
  split
  · obtain ⟨i, rfl⟩ : ∃ i, w = i + 3 := ⟨w - 3, by omega⟩
    exact rep.handToRaw.trans (rep.handToRaw.rep.insertHead (by omega) atP)
  · exact rep.settleSmall (by omega)

theorem Rep.room {A : Arena} {h : Heap} {p : Nat} {b : Block} {pre post : List Block} {F : Nat → List Nat}
    (rep : Rep A h ⟨pre ++ b :: post, F⟩) (atP : p = A.addr + span Block.size pre) :
    p + 8 < 2 ^ 64 := by
  have top := A.top
  have extent := rep.extent
  omega

theorem Rep.count {A : Arena} {h : Heap} {lay : Layout} (rep : Rep A h lay) (settled : lay.Settled) :
    lay.blocks.length ≤ A.addrSize := by
  have length : lay.blocks.length ≤ span Block.size lay.blocks := by
    refine length_le_span ?_
    intro b member
    have positive := rep.pos b member (by rcases settled b member with used | free <;> simp [*])
    simp only [Block.size]
    omega
  rw [rep.total] at length
  omega

/-- The blocks around the one a settled layout is seen from. -/
theorem Rep.around {A : Arena} {h : Heap} {f : Focus} {s : BlockState} (rep : Rep A h (f.layout s))
    (settled : (f.layout s).Settled) :
    (∀ b ∈ f.before ++ f.after, b.Settled) ∧ ∀ b ∈ f.before ++ f.after, 1 ≤ b.words ∧ b.words ≤ A.len + 2 := by
  have inside : ∀ b ∈ f.before ++ f.after, b ∈ (f.layout s).blocks := by
    intro b member
    simp only [Focus.layout, List.mem_append, List.mem_reverse, List.mem_cons] at member ⊢
    exact member.imp_right Or.inr
  refine ⟨fun b member => settled b (inside b member), fun b member => ?_⟩
  have kind := settled b (inside b member)
  exact ⟨rep.pos b (inside b member) (by rcases kind with used | free <;> simp [*]),
    (rep.sized b (inside b member)).le kind⟩

/-- The class computed at the end of a free. -/
theorem freedIndex {w : Nat} (small : 8 * w < 2 ^ 32) (positive : 1 ≤ w) :
    toInt32 (sub64 (8 * w / 8) 3) = (w : Int) - 3 := by
  rw [Nat.mul_div_cancel_left w (by omega)]
  by_cases listed : 3 ≤ w
  · rw [sub64_of_le listed (by omega), toInt32_of_lt (by omega)]
    omega
  · have cases : w = 1 ∨ w = 2 := by omega
    rcases cases with rfl | rfl <;> decide

/-- The last lines of a free, for a block of `w` words at `p`. -/
theorem insertFreed {A : Arena} {h : Heap} {p w : Nat} (shape : Shape A h.sfits) (fits : w ≤ A.len + 2)
    (room : p + 8 < 2 ^ 64) :
    (if (w : Int) - 3 < 0 then .ok h else if h.sfits.len < toUInt32 ((w : Int) - 3) then .ok h
      else headIndex h.sfits ((w : Int) - 3) >>= fun i => .ok (segregatedFitsInsertBlockHead h i (add64 p 8))) =
    Except.ok (if 3 ≤ w then segregatedFitsInsertBlockHead h (w - 3) (p + 8) else h) := by
  have len := A.len_lt
  by_cases listed : 3 ≤ w
  · obtain ⟨i, rfl⟩ : ∃ i, w = i + 3 := ⟨w - 3, by omega⟩
    have index : ((i + 3 : Nat) : Int) - 3 = (i : Int) := by omega
    have inside : (0 : Int) ≤ (i : Int) ∧ (i : Int) < A.len := by omega
    rw [if_pos listed, index, if_neg (by omega), toUInt32_of_nonneg (by omega), shape.len, if_neg (by omega),
      headIndex, shape.len, if_pos inside, ok_bind, add64_of_lt room, Nat.add_sub_cancel, Int.toNat_natCast]
  · rw [if_neg listed, if_pos (by omega)]

/-- Both loops, as a free runs them: the second one starts where the tag of the
last word of the block in hand says the block begins. -/
theorem coalesce_spec {A : Arena} {h : Heap} {f : Focus} (rep : Rep A h (f.layout .hand))
    (settled : ∀ b ∈ f.before ++ f.after, b.Settled) (fits : f.words ≤ A.len + 2)
    (few : f.before.length + f.after.length ≤ A.addrSize) :
    ∃ h₁ h₂ size, forwardLoop (f.head A.addr + 8 * f.words - 8) (8 * (A.len + 3)) (A.addrSize + 1) h = .ok h₁ ∧
      size = read64 h₁.mem (f.head A.addr + 8 * f.words - 8) % 2 ^ 32 ∧
      backwardLoop (add64 (sub64 (f.head A.addr + 8 * f.words - 8) size) 8) (8 * (A.len + 3)) (A.addrSize + 1) h₁ =
        .ok ((coalesce (A.len + 2) A.addr f).head A.addr, h₂) ∧
      h₁.sfits.addrSize = A.addrSize ∧ (coalesce (A.len + 2) A.addr f).words ≤ A.len + 2 ∧
      Evolves A h (f.layout .hand) h₂ ((coalesce (A.len + 2) A.addr f).layout .hand) := by
  obtain ⟨before, w, after, F⟩ := f
  simp only [List.mem_append] at settled fits few
  have small := A.size_lt
  have top := A.top
  have low := A.addr_ge
  have sized : ∀ b, b ∈ before ∨ b ∈ after → 1 ≤ b.words ∧ b.words ≤ A.len + 2 := by
    intro b member
    have inside : b ∈ (Focus.layout .hand ⟨before, w, after, F⟩).blocks := by
      simp only [Focus.layout, List.mem_append, List.mem_reverse, List.mem_cons]
      exact member.imp_right Or.inr
    exact ⟨rep.pos b inside (by rcases settled b member with used | free <;> simp [*]),
      (rep.sized b inside).le (settled b member)⟩
  have positive : 1 ≤ w := rep.pos ⟨w, .hand⟩ (by simp [Focus.layout]) (by simp)
  obtain ⟨h₁, first, left⟩ := forwardLoop_spec rep (fun b member => settled b (Or.inl member)) fits
    (show before.length < A.addrSize + 1 by omega)
  obtain ⟨gone, rest, emitted, whole, -, cut, -, length, positive', fits', kept⟩ :=
    mergeLeft_cut A.addr after F (fun b member => sized b (Or.inl member)) positive fits
  rw [coalesce]
  generalize mergeLeft (A.len + 2) A.addr after before w F = g at *
  obtain ⟨before', w', after', G⟩ := g
  simp only at cut length positive' fits' kept
  subst kept
  have same : span Block.size before' + 8 * w' = span Block.size before + 8 * w := by
    rw [whole, cut, span_append, span_append]
    omega
  have extent := left.rep.extent
  have tail := (left.rep.tags (by simp)).2
  simp only [span_reverse, Block.tag, reduceCtorEq, if_false, Nat.add_zero] at extent tail
  have address : A.addr + span Block.size before + 8 * w - 8 =
      A.addr + span Block.size before' + 8 * w' - 8 := by omega
  have head : add64 (sub64 (A.addr + span Block.size before' + 8 * w' - 8) (8 * w')) 8 =
      A.addr + span Block.size before' := by
    rw [sub64_of_le (by omega) (by omega), add64_of_lt (by omega)]
    omega
  obtain ⟨h₂, second, right⟩ := backwardLoop_spec left.rep (fun b member => settled b (Or.inr member)) fits'
    (show after'.length < A.addrSize + 1 by omega)
  obtain ⟨-, -, -, -, -, -, -, -, final⟩ :=
    mergeRight_cut A.addr before' G (fun b member => sized b (Or.inr member)) positive' fits'
  refine ⟨h₁, h₂, 8 * w', first, ?_, ?_, left.rep.shape.addrSize, final, left.trans right⟩
  · simp only [Focus.head]
    rw [address, tail]
    omega
  · simp only [Focus.head]
    rw [address, head]
    exact second

/-- A free of a used block succeeds, releases it in the layout and keeps every
byte of the other used blocks. -/
theorem Rep.free {A : Arena} {h : Heap} {f : Focus} (rep : Rep A h (f.layout .used))
    (settled : (f.layout .used).Settled) :
    ∃ h', freeSegregatedFitsBlock h (f.head A.addr + 8) = .ok h' ∧
      Rep A h' (release (A.len + 2) A.addr f) ∧
      ∀ x, ¬ Vacant A.addr (f.layout .hand).blocks x → h'.mem x = h.mem x := by
  have len := A.len_lt
  have small := A.size_lt
  have top := A.top
  have low := A.addr_ge
  have atP : f.head A.addr = A.addr + span Block.size f.before.reverse := by simp [Focus.head]
  have extent := rep.extent
  obtain ⟨least, most⟩ : 3 ≤ f.words ∧ f.words ≤ A.len + 2 := rep.sized ⟨f.words, .used⟩ (by simp [Focus.layout])
  have count := rep.count settled
  simp only [Focus.layout, Layout.Settled, List.mem_append, List.mem_reverse, List.mem_cons, List.length_append,
    List.length_reverse, List.length_cons] at settled count
  obtain ⟨masked, outside⟩ := rep.maskFree atP
  have size := (masked.tags (by simp)).1
  simp only [← atP, Block.tag, reduceCtorEq, if_false, Nat.add_zero] at size
  have blockSize : blockSize (maskFreeFlag h.mem (f.head A.addr + 8)) (f.head A.addr + 8) = 8 * f.words :=
    blockSize_eq (by rw [size, freeBit_size (by omega)]) (by omega) (by omega)
  have tail : sub64 (add64 (f.head A.addr + 8) (8 * f.words)) 16 = f.head A.addr + 8 * f.words - 8 := by
    simp only at extent
    rw [add64_of_lt (by omega), sub64_of_le (by omega) (by omega)]
    omega
  obtain ⟨h₁, h₂, left, forward, atTail, backward, addrSize, fits, merged⟩ := coalesce_spec masked
    (fun b member => settled b ((List.mem_append.mp member).imp_right Or.inr)) most (by omega)
  have release_eq : release (A.len + 2) A.addr f = ⟨(coalesce (A.len + 2) A.addr f).before.reverse ++
      ⟨(coalesce (A.len + 2) A.addr f).words, .free⟩ :: (coalesce (A.len + 2) A.addr f).after,
      enlist (coalesce (A.len + 2) A.addr f).lists (coalesce (A.len + 2) A.addr f).words
        ((coalesce (A.len + 2) A.addr f).head A.addr)⟩ := rfl
  rw [release_eq]
  generalize coalesce (A.len + 2) A.addr f = g at *
  have atG : g.head A.addr = A.addr + span Block.size g.before.reverse := by simp [Focus.head]
  have settledG := merged.rep.settle atG fits
  have positive : 1 ≤ g.words := merged.rep.pos ⟨g.words, .hand⟩ (by simp [Focus.layout]) (by simp)
  have header := (merged.rep.tags (by simp)).1
  simp only [← atG, Block.tag, reduceCtorEq, if_false, Nat.add_zero] at header
  have extentG := merged.rep.extent
  simp only at extentG
  have whole := merged.trans settledG
  refine ⟨_, ?_, whole.rep, ?_⟩
  · have index := freedIndex (w := g.words) (by omega) positive
    simp only [freeSegregatedFitsBlock, rep.shape.len, rep.shape.addrSize, class_len, blockSize, tail, forward,
      ok_bind, ← atTail, addrSize, backward, header, index]
    exact insertFreed merged.rep.shape fits (merged.rep.room atG)
  · intro x kept
    have away : x < f.head A.addr ∨ f.head A.addr + 8 * f.words ≤ x := by
      by_contra within
      refine kept ?_
      simp only [Focus.layout, vacant_append, vacant_cons, ← atP]
      exact Or.inr (Or.inl ⟨by simp, by omega, by simp only [Block.size_mk]; omega⟩)
    have framed := whole.frame x kept
    simp only [outside x away] at framed
    exact framed

end Fkv
