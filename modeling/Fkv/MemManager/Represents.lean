import Fkv.Lib.LinkedRing
import Fkv.MemManager.Layout

namespace Fkv
open ByteMemory CWord Tiling LinkedRing

/-- Where an allocator lives and how large its classes get. -/
structure Region where
  self : Nat
  addr : Nat
  addrSize : Nat
  len : Nat
  size_lt : addrSize < 2 ^ 32
  end_lt : addr + addrSize < 2 ^ 64
  len_pos : 1 ≤ len
  len_lt : 8 * (len + 3) < 2 ^ 30
  self_lt : self + 16 + 16 * len < 2 ^ 64
  apart : self + 16 + 16 * len ≤ addr ∨ addr + addrSize ≤ self

/-- A region in which no address computation of the source wraps: `top` leaves
one word between the last whole word of the partition and the end of the address
space. -/
structure Arena extends Region where
  addr_ge : 8 ≤ addr
  top : addr + 8 * (addrSize / 8) + 8 < 2 ^ 64

instance : CoeOut Arena Region := ⟨Arena.toRegion⟩

/-- The sentinel of class `i`. -/
def Region.headPtr (A : Region) (i : Nat) : Nat := A.self + 16 + 16 * i

/-- The blocks of the partition in address order, and the free lists. -/
structure Layout where
  blocks : List Block
  lists : Nat → List Nat

/-- The constant part of the header, as creation left it. -/
structure Shape (A : Region) (sfits : SegregatedFits) : Prop where
  self : sfits.self = A.self
  addr : sfits.addr = A.addr
  addrSize : sfits.addrSize = A.addrSize
  len : sfits.len = A.len
  memSize : ∀ i, i < A.len → (sfits.heads i).memSize = 8 * (i + 1)

/-- The pointer stored in a list node: a sentinel keeps it in the header, a
block in its first data word. -/
def Heap.link (h : Heap) (i p : Nat) : Nat :=
  if p = h.sfits.headPtr i then (h.sfits.heads i).next else read64 h.mem p

/-- The heap is the layout: the blocks tile the whole words of the partition,
carry their tags, and the list of every class holds exactly its free blocks. -/
structure Rep (A : Region) (h : Heap) (lay : Layout) : Prop where
  shape : Shape A h.sfits
  total : span Block.size lay.blocks = 8 * (A.addrSize / 8)
  sized : ∀ b ∈ lay.blocks, b.Sized A.len
  tagged : Tagged h.mem A.addr lay.blocks
  rings : ∀ i, i < A.len → Circular (h.link i) (A.headPtr i) (lay.lists i)
  members : ∀ i, i < A.len → (lay.lists i).Perm (freeOfClass A.addr i lay.blocks)

/-- Well formed between two calls: the heap is some layout all of whose blocks
are used or free. -/
def Layout.Settled (lay : Layout) : Prop := ∀ b ∈ lay.blocks, b.Settled

def WellFormed (A : Region) (h : Heap) : Prop := ∃ lay : Layout, lay.Settled ∧ Rep A h lay

theorem Shape.headPtr {A : Region} {h : Heap} (shape : Shape A h.sfits) (i : Nat) :
    h.sfits.headPtr i = A.headPtr i := by
  simp [SegregatedFits.headPtr, Region.headPtr, shape.self]

theorem Shape.setNext {A : Region} {sfits : SegregatedFits} (shape : Shape A sfits) (i p : Nat) :
    Shape A (sfits.setNext i p) := by
  refine ⟨shape.self, shape.addr, shape.addrSize, shape.len, ?_⟩
  intro j bound
  simp only [SegregatedFits.setNext, Function.update_apply]
  split
  · rename_i same
    subst same
    exact shape.memSize j bound
  · exact shape.memSize j bound

theorem Region.headPtr_lt {i : Nat} (A : Region) (bound : i < A.len) : A.headPtr i < 2 ^ 64 := by
  have := A.self_lt
  unfold Region.headPtr
  omega

/-- The whole words of the partition end inside the address space. -/
theorem Region.words_lt (A : Region) : A.addr + 8 * (A.addrSize / 8) < 2 ^ 64 := by
  have finish := A.end_lt
  omega

/-- No sentinel lies in the partition. -/
theorem Region.headPtr_apart {i : Nat} (A : Region) (bound : i < A.len) :
    A.headPtr i + 16 ≤ A.addr ∨ A.addr + A.addrSize ≤ A.headPtr i := by
  have := A.apart
  unfold Region.headPtr
  omega

theorem Heap.link_headPtr {A : Region} {h : Heap} (shape : Shape A h.sfits) (i : Nat) :
    h.link i (A.headPtr i) = (h.sfits.heads i).next := by
  simp [Heap.link, shape.headPtr]

theorem Heap.link_block {A : Region} {h : Heap} {i p : Nat} (shape : Shape A h.sfits)
    (different : p ≠ A.headPtr i) :
    h.link i p = read64 h.mem p := by
  simp [Heap.link, shape.headPtr, different]

/-- A placed block ends before the whole words of the partition do. -/
theorem Rep.bounds {A : Region} {h : Heap} {lay : Layout} {p : Nat} {b : Block} (rep : Rep A h lay)
    (placed : (p, b) ∈ place Block.size A.addr lay.blocks) :
    A.addr ≤ p ∧ p + 8 * b.words ≤ A.addr + 8 * (A.addrSize / 8) := by
  have bounds := place_bounds placed
  rw [rep.total] at bounds
  exact bounds

theorem Rep.pos {A : Region} {h : Heap} {lay : Layout} (rep : Rep A h lay) (b : Block) (member : b ∈ lay.blocks)
    (notRaw : b.state ≠ .raw) :
    1 ≤ b.words :=
  (rep.sized b member).pos notRaw

/-- The members of a list are the data addresses of free blocks of its class. -/
theorem Rep.listed {A : Region} {h : Heap} {lay : Layout} {i x : Nat} (rep : Rep A h lay) (bound : i < A.len)
    (member : x ∈ lay.lists i) :
    ∃ p, (p, Block.mk (i + 3) .free) ∈ place Block.size A.addr lay.blocks ∧ x = p + 8 :=
  mem_freeOfClass.mp ((rep.members i bound).mem_iff.mp member)

theorem Rep.listed_bounds {A : Region} {h : Heap} {lay : Layout} {i x : Nat} (rep : Rep A h lay)
    (bound : i < A.len) (member : x ∈ lay.lists i) :
    A.addr + 8 ≤ x ∧ x + 16 ≤ A.addr + 8 * (A.addrSize / 8) := by
  obtain ⟨p, placed, rfl⟩ := rep.listed bound member
  have bounds := rep.bounds placed
  simp only at bounds
  omega

theorem Rep.not_sentinel {A : Region} {h : Heap} {lay : Layout} {i j x : Nat} (rep : Rep A h lay)
    (bound : i < A.len) (member : x ∈ lay.lists i) (sentinel : j < A.len) : x ≠ A.headPtr j := by
  have bounds := rep.listed_bounds bound member
  have apart := A.headPtr_apart sentinel
  omega

theorem Rep.nodup {A : Region} {h : Heap} {lay : Layout} {i : Nat} (rep : Rep A h lay) (bound : i < A.len) :
    (lay.lists i).Nodup :=
  (rep.members i bound).nodup_iff.mpr freeOfClass_nodup

theorem Rep.ring_nodup {A : Region} {h : Heap} {lay : Layout} {i : Nat} (rep : Rep A h lay) (bound : i < A.len) :
    (A.headPtr i :: lay.lists i).Nodup :=
  List.nodup_cons.mpr ⟨fun member => rep.not_sentinel bound member bound rfl, rep.nodup bound⟩

/-- The same address is never on two lists. -/
theorem Rep.lists_disjoint {A : Region} {h : Heap} {lay : Layout} {i j x : Nat} (rep : Rep A h lay)
    (bound : i < A.len) (bound' : j < A.len) (member : x ∈ lay.lists i) (member' : x ∈ lay.lists j) : i = j := by
  obtain ⟨p, placed, atP⟩ := rep.listed bound member
  obtain ⟨q, placed', atQ⟩ := rep.listed bound' member'
  rcases place_apart placed placed' with same | before | after
  · simpa using (Prod.mk.inj same).2
  · simp only [Block.size_mk] at before; omega
  · simp only [Block.size_mk] at after; omega

theorem Rep.isEmpty_iff {A : Region} {h : Heap} {lay : Layout} {i : Nat} (rep : Rep A h lay) (bound : i < A.len) :
    segregatedFitsIsEmpty h.sfits i = true ↔ lay.lists i = [] := by
  have empty := (rep.rings i bound).empty_iff (List.nodup_cons.mp (rep.ring_nodup bound)).1
  rw [Heap.link_headPtr rep.shape] at empty
  simp only [segregatedFitsIsEmpty, rep.shape.headPtr, beq_iff_eq]
  exact empty

/-- The layout around one block. -/
theorem Rep.tags {A : Region} {h : Heap} {b : Block} {pre post : List Block} {F : Nat → List Nat}
    (rep : Rep A h ⟨pre ++ b :: post, F⟩) (notRaw : b.state ≠ .raw) :
    read64 h.mem (A.addr + span Block.size pre) = b.tag ∧
      read64 h.mem (A.addr + span Block.size pre + 8 * b.words - 8) = b.tag :=
  rep.tagged _ b (by simp) notRaw

theorem Rep.extent {A : Region} {h : Heap} {b : Block} {pre post : List Block} {F : Nat → List Nat}
    (rep : Rep A h ⟨pre ++ b :: post, F⟩) :
    span Block.size pre + 8 * b.words + span Block.size post = 8 * (A.addrSize / 8) := by
  have total := rep.total
  simp only [span_append, span_cons, Block.size] at total
  omega

/-- Tags determine the blocks between them. -/
theorem tagged_unique {m : Mem} {a : Nat} {xs ys : List Block} (tagged : Tagged m a xs)
    (tagged' : Tagged m a ys) (settled : ∀ b ∈ xs, b.Settled ∧ 1 ≤ b.words)
    (settled' : ∀ b ∈ ys, b.Settled ∧ 1 ≤ b.words) (total : span Block.size xs = span Block.size ys) :
    xs = ys := by
  induction xs generalizing a ys with
  | nil =>
    cases ys with
    | nil => rfl
    | cons c ys =>
      have words := (settled' c (by simp)).2
      simp only [span_nil, span_cons, Block.size] at total
      omega
  | cons b xs ih =>
    cases ys with
    | nil =>
      have words := (settled b (by simp)).2
      simp only [span_nil, span_cons, Block.size] at total
      omega
    | cons c ys =>
      rw [tagged_cons] at tagged tagged'
      have kind := (settled b (by simp)).1
      have kind' := (settled' c (by simp)).1
      have tag := (tagged.1 (by rcases kind with used | free <;> simp [*])).1
      have tag' := (tagged'.1 (by rcases kind' with used | free <;> simp [*])).1
      obtain rfl : b = c := by
        obtain ⟨v, s⟩ := b
        obtain ⟨w, t⟩ := c
        have same := tag.symm.trans tag'
        rcases kind with rfl | rfl <;> rcases kind' with rfl | rfl <;> simp [Block.tag] at same ⊢ <;> omega
      simp only [span_cons, Nat.add_left_cancel_iff] at total
      rw [ih tagged.2 tagged'.2 (fun d member => settled d (by simp [member]))
        (fun d member => settled' d (by simp [member])) total]

/-- A heap is at most one settled layout of blocks. -/
theorem Rep.blocks_unique {A : Region} {h : Heap} {lay lay' : Layout} (rep : Rep A h lay)
    (rep' : Rep A h lay') (settled : lay.Settled) (settled' : lay'.Settled) : lay.blocks = lay'.blocks := by
  have all : ∀ {lay : Layout}, Rep A h lay → lay.Settled → ∀ b ∈ lay.blocks, b.Settled ∧ 1 ≤ b.words := by
    intro lay rep settled b member
    exact ⟨settled b member, rep.pos b member (by rcases settled b member with used | free <;> simp [*])⟩
  exact tagged_unique rep.tagged rep'.tagged (all rep settled) (all rep' settled')
    (rep.total.trans rep'.total.symm)

/-- A ring survives every change that keeps its first pointer and the links
of its members. -/
theorem Rep.ring_keep {A : Region} {h h' : Heap} {lay : Layout} {i : Nat} (rep : Rep A h lay)
    (shape : Shape A h'.sfits) (bound : i < A.len) (first : (h'.sfits.heads i).next = (h.sfits.heads i).next)
    (nodes : ∀ x ∈ lay.lists i, read64 h'.mem x = read64 h.mem x) :
    Circular (h'.link i) (A.headPtr i) (lay.lists i) := by
  refine (rep.rings i bound).congr ?_
  intro x member
  rcases List.mem_cons.mp member with rfl | inside
  · rw [Heap.link_headPtr shape, Heap.link_headPtr rep.shape, first]
  · have different := rep.not_sentinel bound inside bound
    rw [Heap.link_block shape different, Heap.link_block rep.shape different, nodes x inside]

/-- The listed blocks of a split layout lie before or behind a stretch that
has none. -/
theorem Rep.listed_outside {A : Region} {h : Heap} {i x : Nat} {pre mid post : List Block} {F : Nat → List Nat}
    (rep : Rep A h ⟨pre ++ mid ++ post, F⟩) (unlisted : ∀ b ∈ mid, ¬ b.Listed) (bound : i < A.len)
    (member : x ∈ F i) :
    x + 16 ≤ A.addr + span Block.size pre ∨
      A.addr + span Block.size pre + span Block.size mid + 8 ≤ x := by
  obtain ⟨p, placed, rfl⟩ := rep.listed bound member
  simp only [place_append, span_append, List.mem_append] at placed
  rcases placed with (before | inside) | behind
  · have bounds := place_bounds before
    simp only [Block.size_mk] at bounds
    omega
  · exact absurd ⟨rfl, by simp⟩ (unlisted _ (mem_of_place inside))
  · have bounds := place_bounds behind
    omega

/-- Tags of the surrounding blocks survive a change inside one stretch. -/
theorem Rep.tagged_restate {A : Region} {h : Heap} {m : Mem} {pre mid mid' post : List Block}
    {F : Nat → List Nat} (rep : Rep A h ⟨pre ++ mid ++ post, F⟩)
    (outside : ∀ x, x < A.addr + span Block.size pre ∨
      A.addr + span Block.size pre + span Block.size mid ≤ x → m x = h.mem x)
    (length : span Block.size mid' = span Block.size mid)
    (tagged : Tagged m (A.addr + span Block.size pre) mid') : Tagged m A.addr (pre ++ mid' ++ post) := by
  have old := rep.tagged
  have pos := rep.pos
  simp only [tagged_append, span_append, List.mem_append] at old pos
  simp only [tagged_append, span_append, length]
  refine ⟨⟨?_, tagged⟩, ?_⟩
  · exact old.1.1.congr (fun b member => pos b (Or.inl (Or.inl member)))
      (fun x _ upper => outside x (Or.inl upper))
  · exact old.2.congr (fun b member => pos b (Or.inr member))
      (fun x lower _ => outside x (Or.inr (by omega)))

/-- Rewriting a stretch without listed blocks: where memory changes inside the
stretch only, and the new blocks there are tagged, the layout follows. -/
theorem Rep.restate {A : Region} {h h' : Heap} {pre mid mid' post : List Block} {F : Nat → List Nat}
    (rep : Rep A h ⟨pre ++ mid ++ post, F⟩) (sfits : h'.sfits = h.sfits)
    (outside : ∀ x, x < A.addr + span Block.size pre ∨
      A.addr + span Block.size pre + span Block.size mid ≤ x → h'.mem x = h.mem x)
    (unlisted : ∀ b ∈ mid, ¬ b.Listed) (unlisted' : ∀ b ∈ mid', ¬ b.Listed)
    (length : span Block.size mid' = span Block.size mid) (sized : ∀ b ∈ mid', b.Sized A.len)
    (tagged : Tagged h'.mem (A.addr + span Block.size pre) mid') :
    Rep A h' ⟨pre ++ mid' ++ post, F⟩ := by
  have all := rep.sized
  simp only [List.mem_append] at all
  refine ⟨sfits ▸ rep.shape, ?_, ?_, rep.tagged_restate outside length tagged, ?_, ?_⟩
  · have total := rep.total
    simp only [span_append] at total ⊢
    omega
  · intro b member
    simp only [List.mem_append] at member
    rcases member with (before | inside) | behind
    · exact all b (Or.inl (Or.inl before))
    · exact sized b inside
    · exact all b (Or.inr behind)
  · intro i bound
    refine rep.ring_keep (sfits ▸ rep.shape) bound (by rw [sfits]) ?_
    intro x member
    have apart := rep.listed_outside unlisted bound member
    exact read64_congr (fun y lower upper => outside y (by omega))
  · intro i bound
    have before := rep.members i bound
    simp only [freeOfClass_append, span_append, length, freeOfClass_unlisted unlisted,
      freeOfClass_unlisted unlisted'] at before ⊢
    exact before

end Fkv
