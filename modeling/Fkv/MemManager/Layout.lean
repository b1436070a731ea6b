import Fkv.Lib.Tiling
import Fkv.MemManager.Model

namespace Fkv
open ByteMemory Tiling

/-- What a stretch of the partition is. A block in `hand` carries the tags of a
free block but is on no list, a `raw` stretch carries no tags at all: both
exist only inside a call. -/
inductive BlockState
  | used
  | free
  | hand
  | raw
  deriving DecidableEq, Repr

/-- A block of the partition, measured in 8-byte words. -/
structure Block where
  words : Nat
  state : BlockState
  deriving DecidableEq, Repr

def Block.size (b : Block) : Nat := 8 * b.words

/-- The boundary tag: the size in bytes, with the lowest bit set if used. -/
def Block.tag (b : Block) : Nat := 8 * b.words + if b.state = .used then 1 else 0

/-- Sizes the allocator can deal with. Only a block in hand or a raw stretch
may be longer than the largest class. -/
def Block.Sized (len : Nat) (b : Block) : Prop :=
  match b.state with
  | .used => 3 ≤ b.words ∧ b.words ≤ len + 2
  | .free => 1 ≤ b.words ∧ b.words ≤ len + 2
  | .hand => 1 ≤ b.words
  | .raw => True

/-- Used or free, as every block is between two calls. -/
def Block.Settled (b : Block) : Prop := b.state = .used ∨ b.state = .free

/-- A block that is on some list. -/
def Block.Listed (b : Block) : Prop := b.state = .free ∧ 3 ≤ b.words

@[simp] theorem Block.size_mk (w : Nat) (s : BlockState) : (Block.mk w s).size = 8 * w := rfl

theorem Block.Sized.pos {len : Nat} {b : Block} (sized : b.Sized len) (tagged : b.state ≠ .raw) :
    1 ≤ b.words := by
  unfold Block.Sized at sized
  cases state : b.state with
  | used => simp only [state] at sized; omega
  | free => simp only [state] at sized; omega
  | hand => simpa only [state] using sized
  | raw => exact absurd state tagged

theorem Block.Sized.le {len : Nat} {b : Block} (sized : b.Sized len) (settled : b.Settled) :
    b.words ≤ len + 2 := by
  unfold Block.Sized at sized
  rcases settled with used | free
  · simp only [used] at sized; omega
  · simp only [free] at sized; omega

/-- Both tags of every tagged block are in memory. -/
def Tagged (m : Mem) (a : Nat) (blocks : List Block) : Prop :=
  ∀ p b, (p, b) ∈ place Block.size a blocks → b.state ≠ .raw →
    read64 m p = b.tag ∧ read64 m (p + b.size - 8) = b.tag

/-- An address inside a block that is not used. -/
def Vacant (a : Nat) (blocks : List Block) (x : Nat) : Prop :=
  ∃ p b, (p, b) ∈ place Block.size a blocks ∧ b.state ≠ .used ∧ p ≤ x ∧ x < p + b.size

/-- The data addresses of the free blocks of one class, from low to high. -/
def freeOfClass (a i : Nat) (blocks : List Block) : List Nat :=
  (place Block.size a blocks).filterMap
    (fun q => if q.2.state = .free ∧ q.2.words = i + 3 then some (q.1 + 8) else none)

/-- The used blocks with their addresses and lengths in words. -/
def usedBlocks (a : Nat) (blocks : List Block) : List (Nat × Nat) :=
  (place Block.size a blocks).filterMap (fun q => if q.2.state = .used then some (q.1, q.2.words) else none)

@[simp] theorem tagged_nil {m : Mem} {a : Nat} : Tagged m a [] := by simp [Tagged]

@[simp] theorem tagged_cons {m : Mem} {a : Nat} {b : Block} {xs : List Block} : Tagged m a (b :: xs) ↔
    (b.state ≠ .raw → read64 m a = b.tag ∧ read64 m (a + b.size - 8) = b.tag) ∧
      Tagged m (a + b.size) xs := by
  constructor
  · intro tagged
    exact ⟨tagged a b (by simp), fun p c member => tagged p c (by simp [member])⟩
  · rintro ⟨first, rest⟩ p c member
    rcases List.mem_cons.mp member with equal | later
    · cases equal
      exact first
    · exact rest p c later

@[simp] theorem tagged_append {m : Mem} {a : Nat} {xs ys : List Block} : Tagged m a (xs ++ ys) ↔
    Tagged m a xs ∧ Tagged m (a + span Block.size xs) ys := by
  induction xs generalizing a with
  | nil => simp
  | cons b xs ih => simp [ih, and_assoc, Nat.add_assoc]

@[simp] theorem vacant_nil {a x : Nat} : ¬ Vacant a [] x := by simp [Vacant]

@[simp] theorem vacant_cons {a x : Nat} {b : Block} {xs : List Block} : Vacant a (b :: xs) x ↔
    (b.state ≠ .used ∧ a ≤ x ∧ x < a + b.size) ∨ Vacant (a + b.size) xs x := by
  constructor
  · rintro ⟨p, c, member, rest⟩
    rcases List.mem_cons.mp member with equal | later
    · cases equal
      exact Or.inl rest
    · exact Or.inr ⟨p, c, later, rest⟩
  · rintro (here | ⟨p, c, member, rest⟩)
    · exact ⟨a, b, by simp, here⟩
    · exact ⟨p, c, by simp [member], rest⟩

@[simp] theorem vacant_append {a x : Nat} {xs ys : List Block} : Vacant a (xs ++ ys) x ↔
    Vacant a xs x ∨ Vacant (a + span Block.size xs) ys x := by
  induction xs generalizing a with
  | nil => simp
  | cons b xs ih => simp [ih, or_assoc, Nat.add_assoc]

@[simp] theorem freeOfClass_nil {a i : Nat} : freeOfClass a i [] = [] := rfl

@[simp] theorem freeOfClass_cons {a i : Nat} {b : Block} {xs : List Block} : freeOfClass a i (b :: xs) =
    (if b.state = .free ∧ b.words = i + 3 then [a + 8] else []) ++ freeOfClass (a + b.size) i xs := by
  unfold freeOfClass
  rw [place_cons, List.filterMap_cons]
  split <;> rename_i found <;> split at found <;> simp_all

@[simp] theorem freeOfClass_append {a i : Nat} {xs ys : List Block} : freeOfClass a i (xs ++ ys) =
    freeOfClass a i xs ++ freeOfClass (a + span Block.size xs) i ys := by
  simp [freeOfClass]

theorem mem_freeOfClass {a i x : Nat} {xs : List Block} : x ∈ freeOfClass a i xs ↔
    ∃ p, (p, Block.mk (i + 3) .free) ∈ place Block.size a xs ∧ x = p + 8 := by
  simp only [freeOfClass, List.mem_filterMap]
  constructor
  · rintro ⟨⟨p, w, s⟩, member, found⟩
    split at found
    · rename_i same
      obtain ⟨rfl, rfl⟩ := same
      exact ⟨p, member, (Option.some.inj found).symm⟩
    · simp at found
  · rintro ⟨p, member, rfl⟩
    exact ⟨(p, Block.mk (i + 3) .free), member, by simp⟩

theorem freeOfClass_bounds {a i x : Nat} {xs : List Block} (member : x ∈ freeOfClass a i xs) :
    a + 8 ≤ x ∧ x + 8 * (i + 3) ≤ a + span Block.size xs + 8 := by
  obtain ⟨p, placed, rfl⟩ := mem_freeOfClass.mp member
  have bounds := place_bounds placed
  simp only [Block.size_mk] at bounds
  omega

theorem freeOfClass_nodup {a i : Nat} {xs : List Block} : (freeOfClass a i xs).Nodup := by
  induction xs generalizing a with
  | nil => simp
  | cons b xs ih =>
    rw [freeOfClass_cons]
    split
    · rename_i found
      rw [List.singleton_append, List.nodup_cons]
      refine ⟨fun member => ?_, ih⟩
      have bounds := freeOfClass_bounds member
      simp only [Block.size, found.2] at bounds
      omega
    · exact ih

/-- A run without listed blocks contributes to no list. -/
theorem freeOfClass_unlisted {a i : Nat} {xs : List Block} (unlisted : ∀ b ∈ xs, ¬ b.Listed) :
    freeOfClass a i xs = [] := by
  apply List.eq_nil_iff_forall_not_mem.mpr
  intro x member
  obtain ⟨p, placed, -⟩ := mem_freeOfClass.mp member
  exact unlisted _ (mem_of_place placed) ⟨rfl, by simp⟩

@[simp] theorem usedBlocks_nil {a : Nat} : usedBlocks a [] = [] := rfl

@[simp] theorem usedBlocks_cons {a : Nat} {b : Block} {xs : List Block} : usedBlocks a (b :: xs) =
    (if b.state = .used then [(a, b.words)] else []) ++ usedBlocks (a + b.size) xs := by
  unfold usedBlocks
  rw [place_cons, List.filterMap_cons]
  split <;> rename_i found <;> split at found <;> simp_all

@[simp] theorem usedBlocks_append {a : Nat} {xs ys : List Block} : usedBlocks a (xs ++ ys) =
    usedBlocks a xs ++ usedBlocks (a + span Block.size xs) ys := by
  simp [usedBlocks]

theorem mem_usedBlocks {a p : Nat} {xs : List Block} {w : Nat} :
    (p, w) ∈ usedBlocks a xs ↔ (p, Block.mk w .used) ∈ place Block.size a xs := by
  simp only [usedBlocks, List.mem_filterMap]
  constructor
  · rintro ⟨⟨q, v, s⟩, member, found⟩
    split at found
    · rename_i used
      subst used
      cases found
      exact member
    · simp at found
  · intro member
    exact ⟨_, member, by simp⟩

theorem usedBlocks_unused {a : Nat} {xs : List Block} (unused : ∀ b ∈ xs, b.state ≠ .used) :
    usedBlocks a xs = [] := by
  apply List.eq_nil_iff_forall_not_mem.mpr
  rintro ⟨p, w⟩ member
  exact unused _ (mem_of_place (mem_usedBlocks.mp member)) rfl

/-- Used blocks that are not empty have addresses of their own. -/
theorem usedBlocks_nodup {a : Nat} {xs : List Block} (positive : ∀ b ∈ xs, b.state = .used → 1 ≤ b.words) :
    ((usedBlocks a xs).map Prod.fst).Nodup := by
  induction xs generalizing a with
  | nil => simp
  | cons b xs ih =>
    have rest := ih (a := a + b.size) (fun c member => positive c (List.mem_cons_of_mem _ member))
    rw [usedBlocks_cons]
    split
    · rename_i used
      have words := positive b (by simp) used
      rw [List.singleton_append, List.map_cons, List.nodup_cons]
      refine ⟨fun member => ?_, rest⟩
      obtain ⟨⟨p, w⟩, found, same⟩ := List.mem_map.mp member
      have bounds := place_bounds (mem_usedBlocks.mp found)
      simp only [Block.size] at bounds same
      omega
    · exact rest

/-- A run without used blocks is vacant throughout. -/
theorem vacant_of_unused {a x : Nat} {xs : List Block} (unused : ∀ b ∈ xs, b.state ≠ .used) (lower : a ≤ x)
    (upper : x < a + span Block.size xs) : Vacant a xs x := by
  induction xs generalizing a with
  | nil => simp only [span_nil] at upper; omega
  | cons b xs ih =>
    rw [vacant_cons]
    by_cases here : x < a + b.size
    · exact Or.inl ⟨unused b (by simp), lower, here⟩
    · simp only [span_cons] at upper
      exact Or.inr (ih (fun c member => unused c (List.mem_cons_of_mem _ member)) (by omega) (by omega))

theorem vacant_bounds {a x : Nat} {xs : List Block} (vacant : Vacant a xs x) :
    a ≤ x ∧ x < a + span Block.size xs := by
  obtain ⟨p, b, placed, -, lower, upper⟩ := vacant
  have bounds := place_bounds placed
  omega

/-- Tags are read inside the run only. -/
theorem Tagged.congr {m m' : Mem} {a : Nat} {xs : List Block} (tagged : Tagged m a xs)
    (sized : ∀ b ∈ xs, b.state ≠ .raw → 1 ≤ b.words)
    (same : ∀ x, a ≤ x → x < a + span Block.size xs → m' x = m x) : Tagged m' a xs := by
  intro p b placed notRaw
  have bounds := place_bounds placed
  have positive := sized b (mem_of_place placed) notRaw
  simp only [Block.size] at bounds
  have old := tagged p b placed notRaw
  rw [read64_congr (fun x lower upper => same x (by omega) (by omega)),
    read64_congr (a := p + b.size - 8)
      (fun x lower upper => same x (by simp only [Block.size] at lower; omega)
        (by simp only [Block.size] at upper; omega))]
  exact old

end Fkv
