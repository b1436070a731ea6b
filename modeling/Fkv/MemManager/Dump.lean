import Fkv.MemManager.StackOrder

namespace Fkv
open ByteMemory CWord Tiling LinkedRing Runs

/-- What `dump_segregated_fits` prints: a heading for each class with free blocks, and
the addresses of these. -/
inductive DumpLine
  | heading (memorySize allocatedSize headAddress : Nat)
  | block (address : Nat)
  deriving DecidableEq, Repr

/-- The loop of `dump_segregated_fits_block`, with its assertions. -/
def dumpLoop (h : Heap) (i : Nat) : Nat → Nat → Except Fault (List DumpLine)
  | 0, _ => .error .outOfFuel
  | fuel + 1, next =>
    if next = h.sfits.headPtr i then .ok []
    else
      let memSize := (h.sfits.heads i).memSize
      let blockSize := (memSize + 16) % 2 ^ 32
      let headerSize := read64 h.mem (sub64 next 8)
      let footerSize := read64 h.mem (add64 next memSize)
      if blockSize ≠ headerSize then .error .assertFailed
      else if blockSize ≠ footerSize then .error .assertFailed
      else do
        let lines ← dumpLoop h i fuel (read64 h.mem next)
        .ok (.block (sub64 next 8) :: lines)

def dumpSegregatedFitsBlock (h : Heap) (i : Nat) : Except Fault (List DumpLine) :=
  if segregatedFitsIsEmpty h.sfits i then .ok []
  else do
    let memSize := (h.sfits.heads i).memSize
    let lines ← dumpLoop h i h.sfits.addrSize (h.sfits.heads i).next
    .ok (.heading memSize ((memSize + 16) % 2 ^ 32) (h.sfits.headPtr i) :: lines)

/-- The loop of `dump_segregated_fits` from class `i` on. -/
def dumpClasses (h : Heap) : Nat → Nat → Except Fault (List DumpLine)
  | _, 0 => .ok []
  | i, n + 1 => do
    let lines ← dumpSegregatedFitsBlock h i
    let rest ← dumpClasses h (i + 1) n
    .ok (lines ++ rest)

def dumpSegregatedFits (h : Heap) : Except Fault (List DumpLine) := dumpClasses h 0 h.sfits.len

/-- The lines about one class of a layout. -/
def Layout.linesOfClass (A : Region) (lay : Layout) (i : Nat) : List DumpLine :=
  if lay.lists i = [] then []
  else .heading (8 * (i + 1)) (8 * (i + 3)) (A.headPtr i) :: (lay.lists i).map fun x => .block (x - 8)

def Layout.lines (A : Region) (lay : Layout) : List DumpLine := (List.range A.len).flatMap (lay.linesOfClass A)

/-- The loop meets both tags of every block of its list. -/
theorem dumpLoop_spec {A : Region} {h : Heap} {lay : Layout} {i : Nat} {xs : List Nat} (rep : Rep A h lay)
    (bound : i < A.len) : ∀ (fuel q : Nat), (∀ x ∈ xs, x ∈ lay.lists i) →
    Links (h.link i) (q :: (xs ++ [A.headPtr i])) → xs.length < fuel →
    dumpLoop h i fuel (h.link i q) = .ok (xs.map fun x => .block (x - 8)) := by
  induction xs with
  | nil =>
    intro fuel q _ links enough
    obtain ⟨fuel, rfl⟩ := Nat.exists_eq_add_of_lt enough
    have next : h.link i q = A.headPtr i := (List.isChain_cons_cons.mp links).1
    simp only [dumpLoop, next, rep.shape.headPtr, if_true, List.map_nil]
  | cons x xs ih =>
    intro fuel q inside links enough
    obtain ⟨fuel, rfl⟩ : ∃ n, fuel = n + 1 := ⟨fuel - 1, by omega⟩
    obtain ⟨next, links⟩ := List.isChain_cons_cons.mp links
    have member := inside x (by simp)
    have sentinel := rep.not_sentinel bound member bound
    have rest := ih fuel x (fun y later => inside y (by simp [later])) links (by simpa using enough)
    obtain ⟨p, placed, rfl⟩ := rep.listed bound member
    have bounds := rep.bounds placed
    have words := A.words_lt
    have len := A.len_lt
    obtain ⟨header, footer⟩ := rep.tagged p _ placed (by simp)
    simp only [Block.tag, Block.size_mk, reduceCtorEq, if_false, Nat.add_zero] at header footer bounds
    have memSize := rep.shape.memSize i bound
    have size : (8 * (i + 1) + 16) % 2 ^ 32 = 8 * (i + 3) := by omega
    have first : sub64 (p + 8) 8 = p := by
      rw [sub64_of_le (by omega) (by omega)]
      omega
    have last : add64 (p + 8) (8 * (i + 1)) = p + 8 * (i + 3) - 8 := by
      rw [add64_of_lt (by omega)]
      omega
    rw [Heap.link_block rep.shape sentinel] at rest
    simp only [dumpLoop, next, rep.shape.headPtr, sentinel, if_false, memSize, size, first, last, header,
      footer, ne_eq, not_true_eq_false, rest, ok_bind, List.map_cons, Nat.add_sub_cancel]

theorem Rep.dumpBlock {A : Region} {h : Heap} {lay : Layout} {i : Nat} (rep : Rep A h lay) (bound : i < A.len) :
    dumpSegregatedFitsBlock h i = .ok (lay.linesOfClass A i) := by
  have len := A.len_lt
  rw [dumpSegregatedFitsBlock, Layout.linesOfClass]
  by_cases empty : lay.lists i = []
  · rw [if_pos ((rep.isEmpty_iff bound).mpr empty), if_pos empty]
  · have length := rep.list_length bound
    have ring := rep.rings i bound
    have lines := dumpLoop_spec rep bound A.addrSize (A.headPtr i) (fun _ member => member) ring (by
      have some := List.length_pos_of_ne_nil empty
      omega)
    rw [Heap.link_headPtr rep.shape] at lines
    have size : (8 * (i + 1) + 16) % 2 ^ 32 = 8 * (i + 3) := by omega
    rw [if_neg (fun same => empty ((rep.isEmpty_iff bound).mp same)), if_neg empty, rep.shape.addrSize, lines,
      ok_bind, rep.shape.memSize i bound, size, rep.shape.headPtr]

theorem Rep.dumpClasses {A : Region} {h : Heap} {lay : Layout} {i n : Nat} (rep : Rep A h lay)
    (bound : i + n ≤ A.len) :
    Fkv.dumpClasses h i n = .ok ((List.range' i n).flatMap (lay.linesOfClass A)) := by
  induction n generalizing i with
  | zero => rfl
  | succ n ih =>
    rw [Fkv.dumpClasses, rep.dumpBlock (by omega), ok_bind, ih (by omega), ok_bind, List.range'_succ,
      List.flatMap_cons]

/-- On a heap that is a layout the dump ends with no assertion failed. -/
theorem Rep.dump {A : Region} {h : Heap} {lay : Layout} (rep : Rep A h lay) :
    dumpSegregatedFits h = .ok (lay.lines A) := by
  rw [dumpSegregatedFits, rep.shape.len, rep.dumpClasses (by omega), Layout.lines, List.range_eq_range']

def DumpLine.address : DumpLine → Option Nat
  | .heading _ _ _ => none
  | .block address => some address

theorem linesOfClass_addresses (A : Region) (lay : Layout) (i : Nat) :
    (lay.linesOfClass A i).filterMap DumpLine.address = (lay.lists i).map (· - 8) := by
  rw [Layout.linesOfClass]
  split
  · rename_i empty
    rw [empty, List.filterMap_nil, List.map_nil]
  · simp only [List.filterMap_cons, DumpLine.address, List.filterMap_map, Function.comp_def]
    rw [List.filterMap_eq_map']

theorem lines_addresses (A : Region) (lay : Layout) : (lay.lines A).filterMap DumpLine.address =
    (List.range A.len).flatMap fun i => (lay.lists i).map (· - 8) := by
  rw [Layout.lines, List.filterMap_flatMap]
  simp only [linesOfClass_addresses]

/-- On every well-formed heap the dump ends with all its assertions met, and lists each
free block of at least 24 bytes exactly once, and nothing else. -/
theorem dump_lists_free (A : Region) (h : Heap) (lay : Layout) (rep : Rep A h lay) :
    ∃ lines, dumpSegregatedFits h = .ok lines ∧ (lines.filterMap DumpLine.address).Nodup ∧
      ∀ p, p ∈ lines.filterMap DumpLine.address ↔
        ∃ w, (p, ⟨w, .free⟩) ∈ place Block.size A.addr lay.blocks ∧ 3 ≤ w := by
  refine ⟨_, rep.dump, ?_, fun p => ?_⟩
  · rw [lines_addresses, List.nodup_flatMap]
    constructor
    · intro i inside
      have bound := List.mem_range.mp inside
      refine List.Nodup.map_on (fun x member y member' same => ?_) (rep.nodup bound)
      have lower := rep.listed_bounds bound member
      have lower' := rep.listed_bounds bound member'
      omega
    · refine List.Nodup.pairwise_of_forall_ne List.nodup_range fun i inside j inside' different => ?_
      intro p first second
      obtain ⟨x, member, rfl⟩ := List.mem_map.mp first
      obtain ⟨y, member', same⟩ := List.mem_map.mp second
      have bound := List.mem_range.mp inside
      have bound' := List.mem_range.mp inside'
      have lower := rep.listed_bounds bound member
      have lower' := rep.listed_bounds bound' member'
      obtain rfl : y = x := by omega
      exact different (rep.lists_disjoint bound bound' member member')
  · simp only [lines_addresses, List.mem_flatMap, List.mem_range, List.mem_map]
    constructor
    · rintro ⟨i, bound, x, member, rfl⟩
      obtain ⟨p, placed, rfl⟩ := rep.listed bound member
      exact ⟨i + 3, by simpa using placed, by omega⟩
    · rintro ⟨w, placed, long⟩
      have fits : w ≤ A.len + 2 := (rep.sized _ (mem_of_place placed)).le (Or.inr rfl)
      obtain ⟨i, rfl⟩ : ∃ i, w = i + 3 := ⟨w - 3, by omega⟩
      have bound : i < A.len := by omega
      exact ⟨i, bound, p + 8, (rep.members i bound).mem_iff.mpr (mem_freeOfClass.mpr ⟨p, placed, rfl⟩), by omega⟩

theorem dump_lists_free_crowded : ∃ lines, dumpSegregatedFits crowdedHeap = .ok lines ∧
    4128 ∈ lines.filterMap DumpLine.address := by
  obtain ⟨lines, dumped, -, listed⟩ := dump_lists_free pairArena crowdedHeap crowdedLayout crowdedHeap_rep
  exact ⟨lines, dumped, (listed 4128).mpr ⟨4, by decide, by decide⟩⟩

end Fkv
