import Fkv.MemManager.Carve

namespace Fkv
open ByteMemory CWord Tiling LinkedRing Runs

/-- The bytes of the free blocks. -/
def freeBytes : List Block → Nat
  | [] => 0
  | b :: blocks => (if b.state = .free then b.size else 0) + freeBytes blocks

/-- The words in hand once a block of `w` words has taken in the free run in
front of it, nearest block first. A sum above `M` loses `M` words, and that ends
it. -/
def gathered (M : Nat) : List Block → Nat → Nat
  | [], w => w
  | b :: before, w =>
    if b.state = .used then w else if M < b.words + w then b.words + w - M else gathered M before (b.words + w)

/-- Taking in the free run behind does not come to a block of `M` words with
fewer than `M` words in hand. -/
def Spares (M : Nat) : List Block → Nat → Prop
  | [], _ => True
  | b :: after, w =>
    b.state = .used ∨ if b.words = M then w = M else M < w + b.words ∨ Spares M after (w + b.words)

@[simp] theorem freeBytes_nil : freeBytes [] = 0 := rfl

@[simp] theorem freeBytes_cons {b : Block} {xs : List Block} :
    freeBytes (b :: xs) = (if b.state = .free then b.size else 0) + freeBytes xs := rfl

@[simp] theorem freeBytes_append {xs ys : List Block} : freeBytes (xs ++ ys) = freeBytes xs + freeBytes ys := by
  induction xs with
  | nil => simp
  | cons b xs ih => simp [ih, Nat.add_assoc]

@[simp] theorem freeBytes_reverse {xs : List Block} : freeBytes xs.reverse = freeBytes xs := by
  induction xs with
  | nil => rfl
  | cons b xs ih => simp [ih, Nat.add_comm]

/-- A run of free blocks is free throughout. -/
theorem freeBytes_free {xs : List Block} (free : ∀ b ∈ xs, b.state = .free) :
    freeBytes xs = span Block.size xs := by
  induction xs with
  | nil => rfl
  | cons b xs ih =>
    rw [freeBytes_cons, span_cons, if_pos (free b (by simp)), ih fun c member => free c (by simp [member])]

/-- The bytes of a used block are not vacant. -/
theorem not_vacant_of_used {a q v x : Nat} {xs : List Block} (used : (q, v) ∈ usedBlocks a xs) (lower : q ≤ x)
    (upper : x < q + 8 * v) : ¬ Vacant a xs x := by
  rintro ⟨p, b, placed, unused, above, below⟩
  rcases place_apart placed (mem_usedBlocks.mp used) with same | behind | front
  · obtain ⟨rfl, rfl⟩ := Prod.mk.inj same
    exact unused rfl
  · omega
  · simp only [Block.size_mk] at front
    omega

/-- What is released is vacant afterwards. -/
theorem release_vacant {M a x : Nat} {f : Focus} (sized : ∀ b ∈ f.before ++ f.after, 1 ≤ b.words ∧ b.words ≤ M)
    (positive : 1 ≤ f.words) (fits : f.words ≤ M) (lower : f.head a ≤ x) (upper : x < f.head a + 8 * f.words) :
    Vacant a (release M a f).blocks x := by
  obtain ⟨gone, rest, emitted, gone', front, -, -, cut, shape, length, -, -⟩ :=
    coalesce_cut (a := a) sized positive fits
  have run : Vacant (a + span Block.size rest) (emitted.reverse ++ [⟨(coalesce M a f).words, .free⟩]) x := by
    refine vacant_of_unused ?_ ?_ ?_
    · intro b member
      rcases List.mem_append.mp member with new | last
      · simp [shape b (List.mem_reverse.mp new)]
      · simp [List.mem_singleton.mp last]
    · simp only [Focus.head, front, span_append] at lower
      omega
    · simp only [Focus.head, front, span_append] at upper
      simp only [span_append, span_reverse, span_cons, span_nil, Block.size_mk]
      omega
  have split : (release M a f).blocks = rest.reverse ++ (emitted.reverse ++ [⟨(coalesce M a f).words, .free⟩] ++
      (coalesce M a f).after) := by
    simp [release, cut]
  rw [split, vacant_append, vacant_append, span_reverse]
  exact Or.inr (Or.inl run)

/-- A release adds exactly the released bytes to the free ones. -/
theorem release_freeBytes {M a : Nat} {f : Focus} (sized : ∀ b ∈ f.before ++ f.after, 1 ≤ b.words ∧ b.words ≤ M)
    (positive : 1 ≤ f.words) (fits : f.words ≤ M) (settled : ∀ b ∈ f.before ++ f.after, b.Settled) :
    freeBytes (release M a f).blocks = freeBytes (f.layout .used).blocks + 8 * f.words := by
  obtain ⟨gone, rest, emitted, gone', front, behind, unused, cut, shape, length, -, -⟩ :=
    coalesce_cut (a := a) sized positive fits
  have free : ∀ b ∈ gone ++ gone', b.state = .free := by
    intro b member
    refine (settled b ?_).resolve_left (unused b member)
    rw [front, behind]
    simp only [List.mem_append] at member ⊢
    tauto
  have left : freeBytes gone = span Block.size gone := freeBytes_free fun b member => free b (by simp [member])
  have right : freeBytes gone' = span Block.size gone' := freeBytes_free fun b member => free b (by simp [member])
  have new : freeBytes emitted = span Block.size emitted := freeBytes_free fun b member => by rw [shape b member]
  have old : freeBytes f.after = freeBytes gone' + freeBytes (coalesce M a f).after := by
    rw [← freeBytes_append, ← behind]
  simp only [release, Focus.layout, cut, front, old, List.reverse_append, freeBytes_append, freeBytes_reverse,
    freeBytes_cons, reduceCtorEq, if_true, if_false, Block.size_mk, left, right, new]
  omega

/-- A free of a used block ends without a fault in a well formed state. The block
becomes free, whatever its neighbours are, and every other used block keeps its
tags and bytes. -/
theorem free_keeps_well_formed (A : Arena) (h : Heap) (lay : Layout) (p w : Nat) (settled : lay.Settled)
    (rep : Rep A h lay) (used : (p, w) ∈ usedBlocks A.addr lay.blocks) :
    ∃ h' lay', freeSegregatedFitsBlock h (p + 8) = .ok h' ∧ lay'.Settled ∧ Rep A h' lay' ∧
      (∀ x, p ≤ x → x < p + 8 * w → Vacant A.addr lay'.blocks x) ∧
      freeBytes lay'.blocks = freeBytes lay.blocks + 8 * w ∧
      (usedBlocks A.addr lay.blocks).Perm ((p, w) :: usedBlocks A.addr lay'.blocks) ∧
      ∀ q v, (q, v) ∈ usedBlocks A.addr lay'.blocks → ∀ x, q ≤ x → x < q + 8 * v → h'.mem x = h.mem x := by
  obtain ⟨f, rfl, rfl, rfl⟩ := lay.focus used
  obtain ⟨least, most⟩ : 3 ≤ f.words ∧ f.words ≤ A.len + 2 := rep.sized ⟨f.words, .used⟩ (by simp [Focus.layout])
  obtain ⟨around, sized⟩ := rep.around settled
  obtain ⟨h', run, rep', kept⟩ := rep.free settled
  have same := release_used (a := A.addr) sized (by omega) most
  refine ⟨h', _, run, release_settled sized (by omega) most around, rep',
    fun x => release_vacant sized (by omega) most,
    release_freeBytes sized (by omega) most around, ?_, fun q v member x lower upper => ?_⟩
  · rw [same]
    exact f.used_perm A.addr
  · rw [same] at member
    exact kept x (not_vacant_of_used member lower upper)

/-- A used block of three words between two free ones of three words. -/
def betweenHeap : Heap :=
  { mem := write64 (write64 (write64 (write64 (write64 (write64 (write64 (write64 (fun _ => 0)
      4096 24) 4112 24) 4120 25) 4136 25) 4144 24) 4160 24) 4104 4152) 4152 80
    sfits := { self := 64, addr := 4096, addrSize := 72, len := 7,
               heads := fun i => if i = 0 then ⟨4104, 8⟩ else ⟨80 + 16 * i, 8 * (i + 1)⟩ } }

def betweenLayout : Layout := ⟨[⟨3, .free⟩, ⟨3, .used⟩, ⟨3, .free⟩], fun i => if i = 0 then [4104, 4152] else []⟩

theorem betweenLayout_settled : betweenLayout.Settled := by
  simp [betweenLayout, Layout.Settled, Block.Settled]

theorem betweenHeap_rep : Rep wideArena betweenHeap betweenLayout := by
  have shape : Shape wideArena betweenHeap.sfits := by
    refine ⟨rfl, rfl, rfl, rfl, fun i bound => ?_⟩
    by_cases first : i = 0
    · rw [first]
      rfl
    · simp [betweenHeap, first]
  refine ⟨shape, rfl, ?_, ?_, fun i bound => ?_, fun i bound => ?_⟩
  · simp [betweenLayout, wideArena, Block.Sized]
  · simp only [betweenLayout, tagged_cons, tagged_nil, and_true]
    refine ⟨fun _ => ⟨?_, ?_⟩, fun _ => ⟨?_, ?_⟩, fun _ => ⟨?_, ?_⟩⟩ <;> decide +kernel
  · by_cases first : i = 0
    · subst first
      refine circular_cons.mpr ⟨by decide +kernel, ?_⟩
      simp only [List.cons_append, List.nil_append, List.isChain_cons_cons, List.isChain_singleton, and_true]
      exact ⟨by decide +kernel, by decide +kernel⟩
    · have empty : betweenLayout.lists i = [] := if_neg first
      rw [empty, circular_nil, Heap.link_headPtr shape]
      simp [betweenHeap, Region.headPtr, wideArena, first]
  · by_cases first : i = 0
    · subst first
      decide
    · simp [betweenLayout, wideArena, Block.size, first]

theorem free_keeps_well_formed_between :
    ∃ h' lay', freeSegregatedFitsBlock betweenHeap 4128 = .ok h' ∧ lay'.Settled ∧ Rep wideArena h' lay' ∧
      (∀ x, 4120 ≤ x → x < 4120 + 8 * 3 → Vacant 4096 lay'.blocks x) ∧ freeBytes lay'.blocks = 72 ∧
      (usedBlocks 4096 betweenLayout.blocks).Perm ((4120, 3) :: usedBlocks 4096 lay'.blocks) ∧
      ∀ q v, (q, v) ∈ usedBlocks 4096 lay'.blocks → ∀ x, q ≤ x → x < q + 8 * v → h'.mem x = betweenHeap.mem x :=
  free_keeps_well_formed wideArena betweenHeap betweenLayout 4120 3 betweenLayout_settled betweenHeap_rep
    (by decide)

/-- One class, and a partition that is one used block. The word behind the
partition looks like the tag of a free block. -/
def loneHeap (addr : Nat) : Heap :=
  { mem := write64 (write64 (write64 (fun _ => 0) addr 25) (addr + 16) 25) (addr + 24) 24
    sfits := { self := 64, addr := addr, addrSize := 24, len := 1, heads := fun _ => ⟨80, 8⟩ } }

theorem loneHeap_rep (B : Region) (self : B.self = 64) (size : B.addrSize = 24) (len : B.len = 1) :
    Rep B (loneHeap B.addr) ⟨[⟨3, .used⟩], fun _ => []⟩ := by
  have shape : Shape B (loneHeap B.addr).sfits := by
    refine ⟨self.symm, rfl, size.symm, len.symm, fun i bound => ?_⟩
    obtain rfl : i = 0 := by omega
    rfl
  refine ⟨shape, by simp [size], by simp [Block.Sized, len], ?_, fun i bound => ?_, by simp⟩
  · have header : read64 (loneHeap B.addr).mem B.addr = 25 := by
      simp only [loneHeap]
      rw [read64_write64_apart _ (by omega), read64_write64_apart _ (by omega),
        read64_write64_of_lt _ _ (by decide)]
    have footer : read64 (loneHeap B.addr).mem (B.addr + 16) = 25 := by
      simp only [loneHeap]
      rw [read64_write64_apart _ (by omega), read64_write64_of_lt _ _ (by decide)]
    simpa [Block.tag] using ⟨header, footer⟩
  · obtain rfl : i = 0 := by omega
    rw [circular_nil, Heap.link_headPtr shape]
    simp [loneHeap, Region.headPtr, self]

/-- At the end of the address space the test for the end of the partition wraps,
and the word behind the partition is taken for a block that no list has. -/
theorem free_at_the_edge :
    Rep edgeRegion (loneHeap edgeRegion.addr) ⟨[⟨3, .used⟩], fun _ => []⟩ ∧
      ¬ ∃ h', freeSegregatedFitsBlock (loneHeap edgeRegion.addr) (edgeRegion.addr + 8) = .ok h' := by
  refine ⟨loneHeap_rep edgeRegion rfl rfl rfl, ?_⟩
  rintro ⟨h', run⟩
  have fails : (freeSegregatedFitsBlock (loneHeap edgeRegion.addr) (edgeRegion.addr + 8)).isOk = false := by
    decide +kernel
  rw [run] at fails
  cases fails

theorem mergeLeft_words {M w : Nat} {before : List Block} (a : Nat) (after : List Block) (F : Nat → List Nat) :
    (mergeLeft M a after before w F).words = gathered M before w := by
  induction before generalizing w F with
  | nil => rfl
  | cons b before ih =>
    rw [mergeLeft, gathered]
    split
    · rfl
    · split
      · rfl
      · exact ih _

/-- Blocks of `M` words in front of the freed block stay where they are. -/
theorem mergeLeft_keeps {M w : Nat} {before : List Block} (a : Nat) (after : List Block) (F : Nat → List Nat)
    (q : Nat) (positive : 1 ≤ w) (member : (q, ⟨M, .free⟩) ∈ place Block.size a before.reverse) :
    (q, ⟨M, .free⟩) ∈ place Block.size a (mergeLeft M a after before w F).before.reverse := by
  induction before generalizing w F with
  | nil => exact member
  | cons b before ih =>
    rw [mergeLeft]
    split
    · exact member
    · rw [List.reverse_cons, place_append, List.mem_append] at member
      split
      · rw [List.reverse_cons, place_append, List.mem_append]
        refine member.imp_right fun here => ?_
        simp only [place_cons, place_nil, List.mem_singleton, Prod.mk.injEq] at here ⊢
        exact ⟨here.1, trivial⟩
      · rename_i fewer
        refine ih _ (by omega) (member.resolve_right fun here => ?_)
        simp only [place_cons, place_nil, List.mem_singleton, Prod.mk.injEq] at here
        simp only [← here.2] at fewer
        omega

/-- Blocks of `M` words behind the block in hand all stay where they are exactly
when the second loop spares them. -/
theorem mergeRight_keeps_iff {M w : Nat} {after : List Block} (a : Nat) (before : List Block)
    (F : Nat → List Nat) (sized : ∀ b ∈ after, 1 ≤ b.words ∧ b.words ≤ M) (settled : ∀ b ∈ after, b.Settled)
    (positive : 1 ≤ w) (fits : w ≤ M) :
    (∀ q, (q, ⟨M, .free⟩) ∈ place Block.size (a + span Block.size before + 8 * w) after →
      (q, ⟨M, .free⟩) ∈ place Block.size a ((mergeRight M a before after w F).layout .free).blocks) ↔
    Spares M after w := by
  induction after generalizing w F with
  | nil => simp [Spares]
  | cons b after ih =>
    obtain ⟨low, high⟩ := sized b (by simp)
    rw [mergeRight, Spares]
    rcases settled b (by simp) with used | free
    · simp only [used, if_true, true_or, iff_true]
      intro q member
      simp only [Focus.layout, place_append, place_cons, List.mem_append, List.mem_cons, span_reverse,
        Block.size_mk]
      exact Or.inr (Or.inr (List.mem_cons.mp member))
    · obtain ⟨u, s⟩ := b
      simp only at free low high
      subst free
      by_cases above : M < w + u
      · have cut : ((⟨⟨M, .free⟩ :: before, w + u - M, after,
          enlist (delist F u (a + span Block.size before + 8 * w)) M
            (a + span Block.size before)⟩ : Focus).layout .free).blocks =
            before.reverse ++ ⟨M, .free⟩ :: ⟨w + u - M, .free⟩ :: after := by
          simp [Focus.layout]
        have rest : a + span Block.size before + 8 * M + 8 * (w + u - M) =
            a + span Block.size before + 8 * w + 8 * u := by
          omega
        simp only [reduceCtorEq, if_false, above, if_true, cut, place_append, place_cons, span_reverse,
          Block.size_mk, rest, List.mem_append, List.mem_cons, false_or, true_or]
        constructor
        · intro all
          split
          · rename_i largest
            subst largest
            rcases all _ (Or.inl rfl) with left | here | right | later
            · have bounds := place_bounds left
              simp only [span_reverse, Block.size_mk] at bounds
              omega
            · simp only [Prod.mk.injEq, and_true] at here
              omega
            · simp only [Prod.mk.injEq, Block.mk.injEq] at right
              omega
            · have bounds := place_bounds later
              omega
          · trivial
        · intro spares q member
          rcases member with here | later
          · simp only [Prod.mk.injEq, Block.mk.injEq, and_true] at here
            obtain ⟨rfl, rfl⟩ := here
            rw [if_pos rfl] at spares
            subst spares
            exact Or.inr (Or.inr (Or.inl (by simp)))
          · exact Or.inr (Or.inr (Or.inr later))
      · have smaller : u ≠ M := by omega
        have next := ih (w := w + u) (delist F u (a + span Block.size before + 8 * w))
          (fun c member => sized c (by simp [member])) (fun c member => settled c (by simp [member])) (by omega)
          (by omega)
        have address : a + span Block.size before + 8 * (w + u) =
            a + span Block.size before + 8 * w + 8 * u := by omega
        rw [address] at next
        simp only [reduceCtorEq, if_false, above, smaller, false_or, place_cons, Block.size_mk, List.mem_cons]
        rw [← next]
        constructor
        · exact fun all q later => all q (Or.inr later)
        · rintro all q (here | later)
          · simp only [Prod.mk.injEq, Block.mk.injEq, and_true] at here
            exact absurd here.2.symm smaller
          · exact all q later

/-- A release keeps every free block of `M` words where it is exactly when the
second loop spares those behind. -/
theorem release_keeps_iff {M a : Nat} {f : Focus} (sized : ∀ b ∈ f.before ++ f.after, 1 ≤ b.words ∧ b.words ≤ M)
    (positive : 1 ≤ f.words) (fits : f.words ≤ M) (settled : ∀ b ∈ f.before ++ f.after, b.Settled) :
    (∀ q, (q, ⟨M, .free⟩) ∈ place Block.size a (f.layout .used).blocks →
      (q, ⟨M, .free⟩) ∈ place Block.size a (release M a f).blocks) ↔
      Spares M f.after (gathered M f.before f.words) := by
  obtain ⟨before, w, after, F⟩ := f
  simp only [List.mem_append] at sized settled positive fits
  obtain ⟨gone, rest, emitted, front, -, cut, -, length, positive', fits', kept⟩ :=
    mergeLeft_cut a after F (fun b member => sized b (Or.inl member)) positive fits
  have keeps : ∀ q, (q, ⟨M, .free⟩) ∈ place Block.size a before.reverse →
      (q, ⟨M, .free⟩) ∈ place Block.size a (mergeLeft M a after before w F).before.reverse := fun q =>
    mergeLeft_keeps a after F q positive
  have right := mergeRight_keeps_iff a (mergeLeft M a after before w F).before
    (mergeLeft M a after before w F).lists (fun b member => sized b (Or.inr member))
    (fun b member => settled b (Or.inr member)) positive' fits'
  obtain ⟨gone', emitted', -, -, cut', -, -, -⟩ := mergeRight_cut a (mergeLeft M a after before w F).before
    (mergeLeft M a after before w F).lists (fun b member => sized b (Or.inr member)) positive' fits'
  have behind : a + span Block.size (mergeLeft M a after before w F).before +
    8 * (mergeLeft M a after before w F).words =
      a + span Block.size before + 8 * w := by
    have whole := congrArg (span Block.size) front
    rw [span_append] at whole
    rw [cut, span_append]
    omega
  have blocks : (release M a ⟨before, w, after, F⟩).blocks =
    ((mergeRight M a (mergeLeft M a after before w F).before after
      (mergeLeft M a after before w F).words (mergeLeft M a after before w F).lists).layout .free).blocks := by
    simp only [release, coalesce, kept, Focus.layout]
  rw [← mergeLeft_words a after F, ← right, behind, blocks]
  simp only [Focus.layout, place_append, place_cons, List.mem_append, List.mem_cons, Prod.mk.injEq, Block.mk.injEq,
    reduceCtorEq, and_false, false_or, span_reverse, Block.size_mk]
  constructor
  · exact fun all q member => all q (Or.inr member)
  · rintro all q (left | later)
    · refine Or.inl ?_
      rw [cut', List.reverse_append, place_append, List.mem_append]
      exact Or.inl (keeps q left)
    · exact all q later

/-- A free leaves the free blocks of the largest class alone exactly when its
second loop never comes to one with fewer words in hand. -/
theorem free_spares_iff (A : Arena) (h : Heap) (f : Focus) (settled : (f.layout .used).Settled)
    (rep : Rep A h (f.layout .used)) :
    ∃ h' lay', freeSegregatedFitsBlock h (f.head A.addr + 8) = .ok h' ∧ lay'.Settled ∧ Rep A h' lay' ∧
      ((∀ q, (q, ⟨A.len + 2, .free⟩) ∈ place Block.size A.addr (f.layout .used).blocks →
        (q, ⟨A.len + 2, .free⟩) ∈ place Block.size A.addr lay'.blocks) ↔
      Spares (A.len + 2) f.after (gathered (A.len + 2) f.before f.words)) := by
  obtain ⟨least, most⟩ : 3 ≤ f.words ∧ f.words ≤ A.len + 2 := rep.sized ⟨f.words, .used⟩ (by simp [Focus.layout])
  obtain ⟨around, sized⟩ := rep.around settled
  obtain ⟨h', run, rep', -⟩ := rep.free settled
  exact ⟨h', _, run, release_settled sized (by omega) most around, rep',
    release_keeps_iff sized (by omega) most around⟩

/-- A used block of three words in front of a free block of the largest class. -/
def mixedHeap : Heap :=
  { mem := write64 (write64 (write64 (write64 (write64 (fun _ => 0) 4096 25) 4112 25) 4120 32) 4144 32) 4128 96
    sfits := { self := 64, addr := 4096, addrSize := 56, len := 2,
               heads := fun i => if i = 0 then ⟨80, 8⟩ else ⟨4128, 16⟩ } }

def mixedLayout : Layout := ⟨[⟨3, .used⟩, ⟨4, .free⟩], fun i => if i = 1 then [4128] else []⟩

theorem mixedLayout_settled : mixedLayout.Settled := by
  simp [mixedLayout, Layout.Settled, Block.Settled]

theorem mixedHeap_rep : Rep mixedArena mixedHeap mixedLayout := by
  have shape : Shape mixedArena mixedHeap.sfits := by
    refine ⟨rfl, rfl, rfl, rfl, fun i bound => ?_⟩
    have cases : i = 0 ∨ i = 1 := by simp only [mixedArena] at bound; omega
    rcases cases with rfl | rfl <;> rfl
  refine ⟨shape, rfl, ?_, ?_, fun i bound => ?_, fun i bound => ?_⟩
  · simp [mixedLayout, mixedArena, Block.Sized]
  · simp only [mixedLayout, tagged_cons, tagged_nil, and_true]
    refine ⟨fun _ => ⟨?_, ?_⟩, fun _ => ⟨?_, ?_⟩⟩ <;> decide +kernel
  · have cases : i = 0 ∨ i = 1 := by simp only [mixedArena] at bound; omega
    rcases cases with rfl | rfl
    · exact circular_nil.mpr (by decide +kernel)
    · refine circular_cons.mpr ⟨by decide +kernel, ?_⟩
      simp only [List.nil_append, List.isChain_cons_cons, List.isChain_singleton, and_true]
      decide +kernel
  · have cases : i = 0 ∨ i = 1 := by simp only [mixedArena] at bound; omega
    rcases cases with rfl | rfl <;> simp [mixedLayout, mixedArena, Block.size]

theorem free_spares_iff_mixed :
    ∃ h' lay', freeSegregatedFitsBlock mixedHeap 4104 = .ok h' ∧ lay'.Settled ∧ Rep mixedArena h' lay' ∧
      ((∀ q, (q, ⟨4, .free⟩) ∈ place Block.size 4096 mixedLayout.blocks →
        (q, ⟨4, .free⟩) ∈ place Block.size 4096 lay'.blocks) ↔
        Spares 4 [⟨4, .free⟩] 3) :=
  free_spares_iff mixedArena mixedHeap ⟨[], 3, [⟨4, .free⟩], mixedLayout.lists⟩ mixedLayout_settled mixedHeap_rep

/-- A freed block of three words takes four words off the front of itself and the
largest block behind it, so that block is gone. -/
theorem free_moves_largest :
    (4120, ⟨4, .free⟩) ∈ place Block.size 4096 mixedLayout.blocks ∧ Rep mixedArena mixedHeap mixedLayout ∧
      ∃ h', freeSegregatedFitsBlock mixedHeap 4104 = .ok h' ∧
        ∀ lay', lay'.Settled → Rep mixedArena h' lay' →
          (4120, ⟨4, .free⟩) ∉ place Block.size 4096 lay'.blocks := by
  refine ⟨by decide, mixedHeap_rep, ?_⟩
  obtain ⟨h', run, rep, -⟩ :=
    Rep.free (f := ⟨[], 3, [⟨4, .free⟩], mixedLayout.lists⟩) mixedHeap_rep mixedLayout_settled
  refine ⟨h', run, fun lay' settled rep' => ?_⟩
  have settled' : (release 4 4096 ⟨[], 3, [⟨4, .free⟩], mixedLayout.lists⟩).Settled := by
    simp [release, coalesce, mergeLeft, mergeRight, Layout.Settled, Block.Settled]
  rw [rep'.blocks_unique rep settled settled']
  decide

end Fkv
