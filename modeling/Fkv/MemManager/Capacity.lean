import Fkv.MemManager.Release

namespace Fkv
open ByteMemory CWord Tiling LinkedRing Runs

/-- Some free block has `w` words or more. -/
def Available (w : Nat) (blocks : List Block) : Prop := ∃ b ∈ blocks, b.state = .free ∧ w ≤ b.words

theorem requestClass_le {k dataSize : Nat} : requestClass dataSize ≤ k ↔ dataSize ≤ 8 * (k + 1) := by
  unfold requestClass
  omega

@[simp] theorem available_nil {w : Nat} : ¬ Available w [] := by simp [Available]

@[simp] theorem available_cons {w : Nat} {b : Block} {xs : List Block} :
    Available w (b :: xs) ↔ b.state = .free ∧ w ≤ b.words ∨ Available w xs := by
  simp [Available]

@[simp] theorem available_append {w : Nat} {xs ys : List Block} :
    Available w (xs ++ ys) ↔ Available w xs ∨ Available w ys := by
  simp [Available, or_and_right, exists_or]

@[simp] theorem available_reverse {w : Nat} {xs : List Block} :
    Available w xs.reverse ↔ Available w xs := by simp [Available]

/-- The first class with a listed block is missing when no class has any. -/
theorem firstListed_none {i n : Nat} {F : Nat → List Nat} :
    firstListed F i n = none ↔ ∀ j, i ≤ j → j < i + n → F j = [] := by
  induction n generalizing i with
  | zero =>
    simp only [firstListed, true_iff]
    omega
  | succ n ih =>
    rw [firstListed]
    by_cases empty : F i = []
    · rw [if_pos empty, ih]
      constructor
      · intro all j lower upper
        rcases Nat.eq_or_lt_of_le lower with rfl | above
        · exact empty
        · exact all j above (by omega)
      · exact fun all j lower upper => all j (by omega) (by omega)
    · rw [if_neg empty]
      simp only [reduceCtorEq, false_iff]
      exact fun all => empty (all i le_rfl (by omega))

/-- A list has a member exactly when the partition has a free block of its class. -/
theorem Rep.list_empty_iff {A : Arena} {h : Heap} {lay : Layout} {i : Nat} (rep : Rep A h lay)
    (bound : i < A.len) : lay.lists i = [] ↔ ⟨i + 3, .free⟩ ∉ lay.blocks := by
  rw [List.eq_nil_iff_forall_not_mem]
  constructor
  · intro none member
    obtain ⟨p, placed⟩ := exists_place Block.size A.addr member
    exact none (p + 8) ((rep.members i bound).mem_iff.mpr (mem_freeOfClass.mpr ⟨p, placed, rfl⟩))
  · intro none x listed
    obtain ⟨p, placed, -⟩ := rep.listed bound listed
    exact none (mem_of_place placed)

/-- A get finds nothing exactly when no free block is large enough. -/
theorem Gets.none_iff {A : Arena} {h : Heap} {lay lay' : Layout} {c : Nat} {r : Option Nat}
    (gets : Gets A c lay r lay') (rep : Rep A h lay) (bound : c < A.len) :
    r = Option.none ↔ ¬ Available (c + 3) lay.blocks := by
  have listed : ∀ i, c ≤ i → i < A.len → lay.lists i ≠ [] → Available (c + 3) lay.blocks := by
    intro i lower upper some
    rw [ne_eq, rep.list_empty_iff upper, not_not] at some
    exact ⟨_, some, rfl, by simpa using lower⟩
  cases gets with
  | pop some _ =>
    simp only [reduceCtorEq, false_iff, not_not]
    exact listed c le_rfl bound some
  | cut cuts _ _ =>
    obtain ⟨lower, upper, some⟩ := firstListed_some cuts.first
    simp only [reduceCtorEq, false_iff, not_not]
    exact listed _ (by omega) (by omega) some
  | none empty first =>
    simp only [true_iff]
    rintro ⟨⟨v, s⟩, member, free, large⟩
    simp only at free large
    subst free
    have fits : v ≤ A.len + 2 := (rep.sized _ member).le (Or.inr rfl)
    obtain ⟨i, rfl⟩ : ∃ i, v = i + 3 := ⟨v - 3, by omega⟩
    have missing : lay.lists i = [] := by
      rcases Nat.eq_or_lt_of_le (show c ≤ i by omega) with rfl | above
      · exact empty
      · exact firstListed_none.mp first i above (by omega)
    exact (rep.list_empty_iff (by omega)).mp missing member

/-- A division only takes bytes that were vacant. -/
theorem divide_vacant {a c i y : Nat} {pre post : List Block} {F : Nat → List Nat} (below : c < i)
    (vacant : Vacant a (divide a c i pre post F).blocks y) :
    Vacant a (pre ++ ⟨i + 3, .free⟩ :: post) y := by
  obtain ⟨gone, whole, unused, length⟩ := absorb_cut (a + span Block.size pre + 8 * (c + 3)) post (i - c)
    (cutLists F c i (a + span Block.size pre))
  have run : ∀ z, a + span Block.size pre ≤ z → z < a + span Block.size pre + 8 * (i + 3) + 8 * freeRun post →
      Vacant (a + span Block.size pre) (⟨i + 3, .free⟩ :: gone) z := by
    intro z lower upper
    refine vacant_of_unused ?_ lower (by simp only [span_cons, Block.size_mk, length]; omega)
    simpa using unused
  have split : pre ++ ⟨i + 3, .free⟩ :: post = pre ++ (⟨i + 3, .free⟩ :: gone ++ (absorb (a + span Block.size pre +
      8 * (c + 3)) post (i - c) (cutLists F c i (a + span Block.size pre))).2.1) := by
    conv_lhs => rw [whole]
    rfl
  rw [split, vacant_append, vacant_append]
  simp only [divide, vacant_append, vacant_cons, absorb_words, Block.size_mk] at vacant
  rcases vacant with front | ⟨-, lower, upper⟩ | ⟨-, lower, upper⟩ | rest
  · exact Or.inl front
  · exact Or.inr (Or.inl (run y lower (by omega)))
  · exact Or.inr (Or.inl (run y (by omega) (by omega)))
  · refine Or.inr (Or.inr ?_)
    simp only [span_cons, Block.size_mk, length]
    rw [show a + span Block.size pre + 8 * (c + 3) + 8 * (i - c + freeRun post) =
      a + span Block.size pre + (8 * (i + 3) + 8 * freeRun post) by omega] at rest
    exact rest

/-- What a get hands out is a block of its class in a place that was vacant. -/
theorem Gets.taken {A : Arena} {lay lay' : Layout} {c x : Nat} (gets : Gets A c lay (some x) lay') :
    ∃ p, x = p + 8 ∧ (p, c + 3) ∈ usedBlocks A.addr lay'.blocks ∧
    ∀ y, p ≤ y → y < p + 8 * (c + 3) → Vacant A.addr lay.blocks y := by
  have popped : ∀ {lay}, Pops A c lay x lay' → ∃ p, x = p + 8 ∧ (p, c + 3) ∈ usedBlocks A.addr lay'.blocks ∧
      ∀ y, p ≤ y → y < p + 8 * (c + 3) → Vacant A.addr lay.blocks y := by
    rintro lay ⟨rfl, -⟩
    refine ⟨_, rfl, by simp, fun y lower upper => ?_⟩
    rw [vacant_append, vacant_cons]
    exact Or.inr (Or.inl ⟨by simp, lower, upper⟩)
  cases gets with
  | pop _ pops => exact popped pops
  | cut cuts _ pops =>
    obtain ⟨lower, -, -⟩ := firstListed_some cuts.first
    obtain ⟨p, atP, used, vacant⟩ := popped pops
    exact ⟨p, atP, used, fun y low high => divide_vacant (by omega) (vacant y low high)⟩

/-- A used block is on no list. -/
theorem Rep.used_unlisted {A : Arena} {h : Heap} {lay : Layout} {i p w : Nat} (rep : Rep A h lay)
    (used : (p, w) ∈ usedBlocks A.addr lay.blocks) (positive : 1 ≤ w) (bound : i < A.len) :
    p + 8 ∉ lay.lists i := by
  intro listed
  obtain ⟨q, placed, same⟩ := rep.listed bound listed
  obtain rfl : p = q := by omega
  rcases place_apart placed (mem_usedBlocks.mp used) with equal | behind | front
  · simp at equal
  · simp only [Block.size_mk] at behind
    omega
  · simp only [Block.size_mk] at front
    omega

/-- A get that finds nothing leaves the heap as it was. -/
theorem Rep.get_nothing {A : Arena} {h h' : Heap} {lay : Layout} {dataSize : Nat} (rep : Rep A h lay)
    (settled : lay.Settled) (request : dataSize ≤ 8 * A.len)
    (run : getSegregatedFitsBlock h dataSize = .ok (Option.none, h')) : h' = h := by
  obtain ⟨lay', gets, -⟩ := rep.get_ok settled request run
  cases gets with
  | none empty first =>
    rw [rep.get_none request rfl empty first] at run
    cases run
    rfl

/-- A get of a valid size refuses exactly when no free block is large enough, and
otherwise hands out a block of its class from vacant space, exactly when the
remainder of its cut fits. -/
theorem get_serves_iff (A : Arena) (h : Heap) (lay : Layout) (c dataSize : Nat) (settled : lay.Settled)
    (rep : Rep A h lay) (request : dataSize ≤ 8 * A.len) (least : ∀ k, c ≤ k ↔ dataSize ≤ 8 * (k + 1)) :
    (∃ r h', getSegregatedFitsBlock h dataSize = .ok (r, h') ∧ (r = none ↔ ¬ Available (c + 3) lay.blocks) ∧
      (r = none → h' = h) ∧
      ∀ x, r = some x → ∃ lay' p, x = p + 8 ∧ lay'.Settled ∧ Rep A h' lay' ∧
        (p, c + 3) ∈ usedBlocks A.addr lay'.blocks ∧
        read64 h'.mem p = 8 * (c + 3) + 1 ∧ read64 h'.mem (p + 8 * (c + 3) - 8) = 8 * (c + 3) + 1 ∧
        (∀ y, p ≤ y → y < p + 8 * (c + 3) → Vacant A.addr lay.blocks y) ∧ ∀ i < A.len, x ∉ lay'.lists i) ↔
    lay.CutFits A c := by
  obtain rfl : c = requestClass dataSize :=
    Nat.le_antisymm ((least _).mpr (requestClass_le.mp le_rfl)) (requestClass_le.mpr ((least c).mp le_rfl))
  obtain ⟨bound, -⟩ := getSegregatedFitsBlock_eq rep.shape request rfl
  obtain ⟨served, overrun⟩ := rep.get settled request
  constructor
  · rintro ⟨r, h', run, -⟩
    by_contra beyond
    rw [overrun beyond] at run
    cases run
  · intro fits
    obtain ⟨r, h', lay', run, gets, evolved⟩ := served fits
    refine ⟨r, h', run, gets.none_iff rep bound, ?_, ?_⟩
    · rintro rfl
      exact rep.get_nothing settled request run
    · rintro x rfl
      obtain ⟨p, rfl, used, vacant⟩ := gets.taken
      obtain ⟨header, footer⟩ := evolved.rep.tagged p _ (mem_usedBlocks.mp used) (by simp)
      exact ⟨lay', p, rfl, gets.settled settled, evolved.rep, used, header, footer, vacant, fun i inside =>
        evolved.rep.used_unlisted used (by omega) inside⟩

theorem get_serves_iff_mixed :
    (∃ r h', getSegregatedFitsBlock mixedHeap 8 = .ok (r, h') ∧ (r = none ↔ ¬ Available 3 mixedLayout.blocks) ∧
      (r = none → h' = mixedHeap) ∧
      ∀ x, r = some x → ∃ lay' p, x = p + 8 ∧ lay'.Settled ∧ Rep mixedArena h' lay' ∧
        (p, 3) ∈ usedBlocks 4096 lay'.blocks ∧
        read64 h'.mem p = 25 ∧ read64 h'.mem (p + 24 - 8) = 25 ∧
        (∀ y, p ≤ y → y < p + 24 → Vacant 4096 mixedLayout.blocks y) ∧ ∀ i < 2, x ∉ lay'.lists i) ↔
    mixedLayout.CutFits mixedArena 0 :=
  get_serves_iff mixedArena mixedHeap mixedLayout 0 8 mixedLayout_settled mixedHeap_rep (by decide) (by omega)

/-- Two free blocks of the largest class, with the one in front listed first. -/
def crowdedHeap : Heap :=
  { mem := write64 (write64 (write64 (write64 (write64 (write64 (fun _ => 0) 4096 32) 4120 32) 4128 32)
      4152 32) 4104 4136) 4136 96
    sfits := { self := 64, addr := 4096, addrSize := 64, len := 2,
               heads := fun i => if i = 0 then ⟨80, 8⟩ else ⟨4104, 16⟩ } }

def crowdedLayout : Layout := ⟨[⟨4, .free⟩, ⟨4, .free⟩], fun i => if i = 1 then [4104, 4136] else []⟩

theorem crowdedHeap_rep : Rep pairArena crowdedHeap crowdedLayout := by
  have shape : Shape pairArena crowdedHeap.sfits := by
    refine ⟨rfl, rfl, rfl, rfl, fun i bound => ?_⟩
    have cases : i = 0 ∨ i = 1 := by simp only [pairArena] at bound; omega
    rcases cases with rfl | rfl <;> rfl
  refine ⟨shape, rfl, ?_, ?_, fun i bound => ?_, fun i bound => ?_⟩
  · simp [crowdedLayout, pairArena, Block.Sized]
  · simp only [crowdedLayout, tagged_cons, tagged_nil, and_true]
    refine ⟨fun _ => ⟨?_, ?_⟩, fun _ => ⟨?_, ?_⟩⟩ <;> decide +kernel
  · have cases : i = 0 ∨ i = 1 := by simp only [pairArena] at bound; omega
    rcases cases with rfl | rfl
    · exact circular_nil.mpr (by decide +kernel)
    · refine circular_cons.mpr ⟨by decide +kernel, ?_⟩
      simp only [List.cons_append, List.nil_append, List.isChain_cons_cons, List.isChain_singleton, and_true]
      exact ⟨by decide +kernel, by decide +kernel⟩
  · have cases : i = 0 ∨ i = 1 := by simp only [pairArena] at bound; omega
    rcases cases with rfl | rfl <;> simp [crowdedLayout, pairArena, Block.size]

/-- A request of class 0 leaves `heads[]` although both blocks could serve it. -/
theorem get_leaves_heads :
    Rep pairArena crowdedHeap crowdedLayout ∧ Available 3 crowdedLayout.blocks ∧
      ¬ ∃ r h', getSegregatedFitsBlock crowdedHeap 8 = .ok (r, h') := by
  refine ⟨crowdedHeap_rep, ⟨⟨4, .free⟩, by decide, rfl, by decide⟩, ?_⟩
  rintro ⟨r, h', run⟩
  have fails : (getSegregatedFitsBlock crowdedHeap 8).isOk = false := by decide +kernel
  rw [run] at fails
  cases fails

/-- The first loop gives back a block of `M` words or takes in the whole run. -/
theorem mergeLeft_all (M a : Nat) (before after : List Block) (w : Nat) (F : Nat → List Nat) :
    ⟨M, .free⟩ ∈ (mergeLeft M a after before w F).before ∨
    (mergeLeft M a after before w F).words = freeRun before + w := by
  induction before generalizing w F with
  | nil => exact Or.inr (by simp [mergeLeft, freeRun])
  | cons b before ih =>
    rw [mergeLeft, freeRun]
    split
    · exact Or.inr (by simp)
    · split
      · exact Or.inl (by simp)
      · refine (ih (b.words + w) (delist F b.words (a + span Block.size before))).imp_right fun all => ?_
        rw [all]
        omega

/-- The second loop as well. -/
theorem mergeRight_all (M a : Nat) (before after : List Block) (w : Nat) (F : Nat → List Nat) :
    ⟨M, .free⟩ ∈ (mergeRight M a before after w F).before ∨
      (mergeRight M a before after w F).before = before ∧
      (mergeRight M a before after w F).words = w + freeRun after := by
  induction after generalizing w F with
  | nil => exact Or.inr (by simp [mergeRight, freeRun])
  | cons b after ih =>
    rw [mergeRight, freeRun]
    split
    · exact Or.inr (by simp)
    · split
      · exact Or.inl (by simp)
      · refine (ih (w + b.words) (delist F b.words (a + span Block.size before + 8 * w))).imp_right fun both => ?_
        rw [both.1, both.2]
        exact ⟨rfl, by omega⟩

theorem mergeLeft_after {M : Nat} {before : List Block} (a : Nat) (after : List Block) (w : Nat)
    (F : Nat → List Nat) :
    (mergeLeft M a after before w F).after = after := by
  induction before generalizing w F with
  | nil => rfl
  | cons b before ih =>
    rw [mergeLeft]
    split
    · rfl
    · split
      · rfl
      · exact ih _ _

/-- A release leaves a free block of `M` words or one of the whole free space
around the released block. -/
theorem release_all (M a : Nat) (f : Focus) : ⟨M, .free⟩ ∈ (release M a f).blocks ∨
    ⟨freeRun f.before + f.words + freeRun f.after, .free⟩ ∈ (release M a f).blocks := by
  obtain ⟨before, w, after, F⟩ := f
  simp only [release, coalesce, mergeLeft_after, List.mem_append, List.mem_reverse, List.mem_cons]
  rcases mergeRight_all M a (mergeLeft M a after before w F).before after
    (mergeLeft M a after before w F).words (mergeLeft M a after before w F).lists with largest | ⟨same, right⟩
  · exact Or.inl (Or.inl largest)
  · rw [same, right]
    rcases mergeLeft_all M a before after w F with largest | left
    · exact Or.inl (Or.inl largest)
    · rw [left]
      exact Or.inr (Or.inr (Or.inl rfl))

theorem words_le_span {b : Block} {xs : List Block} (member : b ∈ xs) : 8 * b.words ≤ span Block.size xs := by
  obtain ⟨p, placed⟩ := exists_place Block.size 0 member
  have bounds := place_bounds placed
  simp only [Block.size] at bounds
  omega

/-- A release has a free block as large as any that was free before, the released
one among them. -/
theorem release_available {M a w : Nat} {f : Focus}
    (sized : ∀ b ∈ f.before ++ f.after, 1 ≤ b.words ∧ b.words ≤ M) (positive : 1 ≤ f.words) (fits : f.words ≤ M)
    (available : Available w (f.layout .free).blocks) : Available w (release M a f).blocks := by
  obtain ⟨gone, rest, emitted, gone', front, behind, -, cut, shape, length, -, -⟩ :=
    coalesce_cut (a := a) sized positive fits
  obtain ⟨b, member, free, large⟩ := available
  have split : (release M a f).blocks = rest.reverse ++ (emitted.reverse ++
      (⟨(coalesce M a f).words, .free⟩ :: (coalesce M a f).after)) := by
    simp [release, cut]
  have capped : b.words ≤ M := by
    simp only [Focus.layout, List.mem_append, List.mem_reverse, List.mem_cons] at member
    rcases member with left | rfl | right
    · exact (sized b (by simp [left])).2
    · exact fits
    · exact (sized b (by simp [right])).2
  have inside : b ∈ rest ∨ b ∈ (coalesce M a f).after ∨
      8 * b.words ≤ span Block.size gone + 8 * f.words + span Block.size gone' := by
    simp only [Focus.layout, front, behind, List.mem_append, List.mem_reverse, List.mem_cons] at member
    rcases member with (inGone | inRest) | rfl | inGone | inRest
    · have room := words_le_span inGone
      exact Or.inr (Or.inr (by omega))
    · exact Or.inl inRest
    · exact Or.inr (Or.inr (by simp only; omega))
    · have room := words_le_span inGone
      exact Or.inr (Or.inr (by omega))
    · exact Or.inr (Or.inl inRest)
  rw [split]
  simp only [available_append, available_reverse, available_cons]
  rcases inside with stays | stays | merged
  · exact Or.inl ⟨b, stays, free, large⟩
  · exact Or.inr (Or.inr (Or.inr ⟨b, stays, free, large⟩))
  · cases emitted with
    | nil =>
      simp only [span_nil] at length
      exact Or.inr (Or.inr (Or.inl ⟨trivial, by omega⟩))
    | cons c emitted =>
      obtain rfl := shape c (by simp)
      exact Or.inr (Or.inl ⟨⟨M, .free⟩, by simp, rfl, by simp only; omega⟩)

/-- A division keeps the free bytes. -/
theorem cut_freeBytes {c i n : Nat} {xs : List Block} (pre ys : List Block) (below : c < i)
    (settled : ∀ b ∈ xs, b.Settled) (unused : ∀ b ∈ xs, b.state ≠ .used) (length : span Block.size xs = 8 * n) :
    freeBytes (pre ++ ⟨c + 3, .free⟩ :: ⟨i - c + n, .free⟩ :: ys) =
      freeBytes (pre ++ ⟨i + 3, .free⟩ :: (xs ++ ys)) := by
  have run : freeBytes xs = span Block.size xs :=
    freeBytes_free fun b member => (settled b member).resolve_left (unused b member)
  simp only [freeBytes_append, freeBytes_cons, if_true, Block.size_mk, run, length]
  omega

/-- Releasing what was cut off brings back a free block as large as the one that
was cut and the free blocks behind it. -/
theorem release_cut {M a c i n w : Nat} {pre xs ys : List Block} {f : Focus}
    (split : (f.layout .free).blocks = pre ++ ⟨c + 3, .free⟩ :: ⟨i - c + n, .free⟩ :: ys)
    (sized : ∀ b ∈ f.before ++ f.after, 1 ≤ b.words ∧ b.words ≤ M) (positive : 1 ≤ f.words) (fits : f.words ≤ M)
    (below : c < i) (capped : i + 3 ≤ M) (small : ∀ b ∈ xs, b.words ≤ M) (length : span Block.size xs = 8 * n)
    (whole : i + 3 + n ≤ freeRun f.before + f.words + freeRun f.after)
    (available : Available w (pre ++ ⟨i + 3, .free⟩ :: (xs ++ ys))) : Available w (release M a f).blocks := by
  have merged : ∀ v, v ≤ M → v ≤ i + 3 + n → Available v (release M a f).blocks := by
    intro v below within
    rcases release_all M a f with largest | all
    · exact ⟨_, largest, rfl, below⟩
    · exact ⟨_, all, rfl, by simp only; omega⟩
  have kept : Available w (pre ++ ⟨c + 3, .free⟩ :: ⟨i - c + n, .free⟩ :: ys) →
    Available w (release M a f).blocks :=
    fun other => release_available sized positive fits (split ▸ other)
  simp only [available_append, available_cons] at available kept
  rcases available with front | ⟨-, large⟩ | ⟨b, member, free, large⟩ | rest
  · exact kept (Or.inl front)
  · exact merged w (by omega) (by omega)
  · have room := words_le_span member
    have most := small b member
    exact merged w (by omega) (by omega)
  · exact kept (Or.inr (Or.inr (Or.inr rest)))

/-- What a get hands out can be put in focus, and releasing it loses nothing. -/
theorem Gets.released {A : Arena} {h h' : Heap} {lay lay' : Layout} {c x : Nat}
    (gets : Gets A c lay (some x) lay') (rep : Rep A h lay) (settled : lay.Settled) (rep' : Rep A h' lay')
    (settled' : lay'.Settled) :
    ∃ f : Focus, f.layout .used = lay' ∧ x = f.head A.addr + 8 ∧ f.words = c + 3 ∧
      freeBytes (f.layout .free).blocks = freeBytes lay.blocks ∧
      ∀ w, Available w lay.blocks → Available w (release (A.len + 2) A.addr f).blocks := by
  have sized : ∀ f : Focus, f.layout .used = lay' → f.words = c + 3 →
      (∀ b ∈ f.before ++ f.after, 1 ≤ b.words ∧ b.words ≤ A.len + 2) ∧ f.words ≤ A.len + 2 := by
    rintro f rfl -
    exact ⟨(rep'.around settled').2, (rep'.sized ⟨f.words, .used⟩ (by simp [Focus.layout])).2⟩
  obtain ⟨blocks', F'⟩ := lay'
  cases gets with
  | pop _ pops =>
    obtain ⟨pre, post, p, rest, before, rfl, -, rfl, after⟩ := pops.elim
    simp only at after
    have same : (Focus.layout .used ⟨pre.reverse, c + 3, post, F'⟩) = ⟨blocks', F'⟩ := by
      simp [Focus.layout, after]
    obtain ⟨around, fits⟩ := sized _ same rfl
    have blocks : (Focus.layout .free ⟨pre.reverse, c + 3, post, F'⟩).blocks = lay.blocks := by
      simp [Focus.layout, before]
    exact ⟨_, same, by simp [Focus.head], rfl, by rw [blocks], fun w available =>
      release_available around (by simp) fits (by rwa [blocks])⟩
  | @cut pre i post F _ _ cuts _ pops =>
    obtain ⟨lower, upper, -⟩ := firstListed_some cuts.first
    have positive : ∀ b ∈ pre ++ post, 1 ≤ b.words := fun b member =>
      rep.pos b (by simp only [List.mem_append, List.mem_cons] at member ⊢; tauto) (by
        rcases settled b (by simp only [List.mem_append, List.mem_cons] at member ⊢; tauto) with used | free <;>
        simp [*])
    obtain ⟨gone, rest, rfl, unused, length, -, handed⟩ := pops.cut positive cuts
    have inGone : ∀ b ∈ gone, b ∈ pre ++ ⟨i + 3, .free⟩ :: (gone ++ rest) := fun b member => by simp [member]
    have small : ∀ b ∈ gone, b.words ≤ A.len + 2 := fun b member =>
      (rep.sized b (inGone b member)).le (settled b (inGone b member))
    have bytes := cut_freeBytes pre rest (show c < i by omega)
      (fun b member => settled b (inGone b member)) unused length
    rcases handed with ⟨-, rfl, after⟩ | ⟨same, rfl, after⟩
    · have whole : (Focus.layout .used ⟨pre.reverse, c + 3, ⟨i - c + freeRun (gone ++ rest), .free⟩ :: rest, F'⟩) =
          ⟨blocks', F'⟩ := by
        simp only [Focus.layout, List.reverse_reverse, ← after]
      obtain ⟨around, fits⟩ := sized _ whole rfl
      have split : (Focus.layout .free
          ⟨pre.reverse, c + 3, ⟨i - c + freeRun (gone ++ rest), .free⟩ :: rest, F'⟩).blocks =
          pre ++ ⟨c + 3, .free⟩ :: ⟨i - c + freeRun (gone ++ rest), .free⟩ :: rest := by
        simp [Focus.layout]
      exact ⟨_, whole, by simp [Focus.head], rfl, by rw [split, bytes], fun w available =>
        release_cut split around (by simp) fits (by omega) (by omega) small length
          (by simp only [freeRun, reduceCtorEq, if_false]; omega) available⟩
    · have whole : (Focus.layout .used ⟨⟨c + 3, .free⟩ :: pre.reverse, c + 3, rest, F'⟩) = ⟨blocks', F'⟩ := by
        simp only [Focus.layout, List.reverse_cons, List.reverse_reverse, ← after]
      obtain ⟨around, fits⟩ := sized _ whole rfl
      have split : (Focus.layout .free ⟨⟨c + 3, .free⟩ :: pre.reverse, c + 3, rest, F'⟩).blocks =
          pre ++ ⟨c + 3, .free⟩ :: ⟨i - c + freeRun (gone ++ rest), .free⟩ :: rest := by
        simp [Focus.layout, same]
      exact ⟨_, whole, by simp [Focus.head]; omega, rfl, by rw [split, bytes], fun w available =>
        release_cut split around (by simp) fits (by omega) (by omega) small length
          (by simp only [freeRun, reduceCtorEq, if_false]; omega) available⟩

/-- The free of a block that a get has just handed out keeps the used blocks, the free
bytes and every size that could be served before both. -/
theorem Rep.regains {A : Arena} {h h₁ : Heap} {lay : Layout} {dataSize x : Nat} (rep : Rep A h lay)
    (settled : lay.Settled) (request : dataSize ≤ 8 * A.len)
    (got : getSegregatedFitsBlock h dataSize = .ok (some x, h₁)) :
    ∃ h₂ lay₂, freeSegregatedFitsBlock h₁ x = .ok h₂ ∧ lay₂.Settled ∧ Rep A h₂ lay₂ ∧
      freeBytes lay₂.blocks = freeBytes lay.blocks ∧
      (usedBlocks A.addr lay₂.blocks).Perm (usedBlocks A.addr lay.blocks) ∧
      ∀ size, Available (requestClass size + 3) lay.blocks → Available (requestClass size + 3) lay₂.blocks := by
  obtain ⟨lay', gets, evolved⟩ := rep.get_ok settled request got
  have settled' := gets.settled settled
  obtain ⟨f, rfl, rfl, words, bytes, available⟩ := gets.released rep settled evolved.rep settled'
  obtain ⟨around, sized⟩ := evolved.rep.around settled'
  have most : f.words ≤ A.len + 2 := (evolved.rep.sized ⟨f.words, .used⟩ (by simp [Focus.layout])).2
  obtain ⟨h₂, done, rep₂, -⟩ := evolved.rep.free settled'
  refine ⟨h₂, _, done, release_settled sized (by omega) most around, rep₂, ?_, ?_, fun size => available _⟩
  · rw [release_freeBytes sized (by omega) most around, ← bytes]
    simp only [Focus.layout, freeBytes_append, freeBytes_cons, reduceCtorEq, if_true, if_false, Block.size_mk]
    omega
  · rw [release_used sized (by omega) most]
    rcases gets.used with ⟨p, same, used⟩ | ⟨nothing, -⟩
    · obtain rfl : f.head A.addr = p := by
        simp only [Option.some.injEq] at same
        omega
      rw [← words] at used
      exact ((f.used_perm A.addr).symm.trans used).cons_inv
    · cases nothing

/-- A get stays within `heads[]` and the free of what it hands out keeps the used blocks,
the free bytes and every size that could be served before both, exactly when the
remainder of its cut fits. -/
theorem get_free_keeps_capacity_iff (A : Arena) (h : Heap) (lay : Layout) (dataSize : Nat)
    (settled : lay.Settled) (rep : Rep A h lay) (request : dataSize ≤ 8 * A.len) :
    (∃ r h₁, getSegregatedFitsBlock h dataSize = .ok (r, h₁) ∧ ∀ x, r = some x →
      ∃ h₂ lay₂, freeSegregatedFitsBlock h₁ x = .ok h₂ ∧ lay₂.Settled ∧ Rep A h₂ lay₂ ∧
        freeBytes lay₂.blocks = freeBytes lay.blocks ∧
        (usedBlocks A.addr lay₂.blocks).Perm (usedBlocks A.addr lay.blocks) ∧
        ∀ size, Available (requestClass size + 3) lay.blocks → Available (requestClass size + 3) lay₂.blocks) ↔
      lay.CutFits A (requestClass dataSize) := by
  obtain ⟨served, overrun⟩ := rep.get settled request
  constructor
  · rintro ⟨r, h₁, run, -⟩
    by_contra beyond
    rw [overrun beyond] at run
    cases run
  · intro fits
    obtain ⟨r, h₁, -, run, -⟩ := served fits
    refine ⟨r, h₁, run, ?_⟩
    rintro x rfl
    exact rep.regains settled request run

theorem get_free_keeps_capacity_iff_mixed :
    (∃ r h₁, getSegregatedFitsBlock mixedHeap 8 = .ok (r, h₁) ∧ ∀ x, r = some x →
      ∃ h₂ lay₂, freeSegregatedFitsBlock h₁ x = .ok h₂ ∧ lay₂.Settled ∧ Rep mixedArena h₂ lay₂ ∧
        freeBytes lay₂.blocks = freeBytes mixedLayout.blocks ∧
        (usedBlocks 4096 lay₂.blocks).Perm (usedBlocks 4096 mixedLayout.blocks) ∧
        ∀ size, Available (requestClass size + 3) mixedLayout.blocks →
          Available (requestClass size + 3) lay₂.blocks) ↔
      mixedLayout.CutFits mixedArena 0 :=
  get_free_keeps_capacity_iff mixedArena mixedHeap mixedLayout 8 mixedLayout_settled mixedHeap_rep (by decide)

/-- With two free blocks of the largest class a get of class 0 leaves `heads[]` instead. -/
theorem get_free_leaves_heads :
    crowdedLayout.Settled ∧ Rep pairArena crowdedHeap crowdedLayout ∧ Available 3 crowdedLayout.blocks ∧
      ¬ ∃ r h₁, getSegregatedFitsBlock crowdedHeap 8 = .ok (r, h₁) ∧ ∀ x, r = some x →
        ∃ h₂ lay₂, freeSegregatedFitsBlock h₁ x = .ok h₂ ∧ lay₂.Settled ∧ Rep pairArena h₂ lay₂ ∧
          freeBytes lay₂.blocks = freeBytes crowdedLayout.blocks ∧
          (usedBlocks 4096 lay₂.blocks).Perm (usedBlocks 4096 crowdedLayout.blocks) ∧
          ∀ size, Available (requestClass size + 3) crowdedLayout.blocks →
            Available (requestClass size + 3) lay₂.blocks := by
  have settled : crowdedLayout.Settled := by simp [crowdedLayout, Layout.Settled, Block.Settled]
  refine ⟨settled, crowdedHeap_rep, ⟨⟨4, .free⟩, by decide, rfl, by decide⟩, ?_⟩
  rintro ⟨r, h₁, run, -⟩
  have fails : (getSegregatedFitsBlock crowdedHeap 8).isOk = false := by decide +kernel
  rw [run] at fails
  cases fails

end Fkv
