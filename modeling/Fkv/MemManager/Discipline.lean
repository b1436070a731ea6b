import Fkv.MemManager.Largest

namespace Fkv
open ByteMemory CWord Tiling LinkedRing Runs

/-- A rule for clients under which the allocator never fails them while they hold
fewer blocks than there are of the largest class: they ask for no less than `least`,
and where `lastOnly` is set they give back only the block got last. -/
structure Discipline where
  least : Nat → Nat
  lastOnly : Bool
  Kept : Arena → Client → Prop
  serves : ∀ {A s}, Kept A s → s.WellFormed A
  fresh : ∀ {A : Arena} {h}, Rep A h A.fresh → Kept A ⟨h, []⟩
  get : ∀ {A s n}, Kept A s → least A.len ≤ n → n ≤ 8 * A.len → s.live.length < A.addrSize / 8 / (A.len + 2) →
    ∃ x h, getSegregatedFitsBlock s.heap n = .ok (some x, h) ∧ Kept A ⟨h, (x, n) :: s.live⟩
  free : ∀ {A s x n}, Kept A s → (x, n) ∈ s.live → (lastOnly = true → s.live.head? = some (x, n)) →
    ∃ h, freeSegregatedFitsBlock s.heap x = .ok h ∧ Kept A ⟨h, s.live.filter fun q => q.1 ≠ x⟩
  rewrite : ∀ {A s m}, Kept A s → (∀ y, A.addr ≤ y → y < A.addr + 8 * (A.addrSize / 8) →
      (∀ x n, (x, n) ∈ s.live → y < x ∨ x + n ≤ y) → m y = s.heap.mem y) →
      Kept A ⟨{ s.heap with mem := m }, s.live⟩

/-- A client that keeps to its blocks keeps the order. -/
theorem Stacks.rewrite {A : Arena} {s : Client} {lay : Layout} {m : Mem} (ordered : Stacks A s lay)
    (same : ∀ y, A.addr ≤ y → y < A.addr + 8 * (A.addrSize / 8) →
      (∀ x n, (x, n) ∈ s.live → y < x ∨ x + n ≤ y) → m y = s.heap.mem y) :
    Stacks A ⟨{ s.heap with mem := m }, s.live⟩ lay :=
  ⟨ordered.serves.rewrite same, ordered.piled, ordered.descends⟩

namespace Discipline

/-- Blocks of any size, given back in stack order. -/
def stackOrder : Discipline where
  least _ := 0
  lastOnly := true
  Kept A s := ∃ lay, Stacks A s lay
  serves := fun ⟨lay, ordered⟩ => ⟨lay, ordered.serves⟩
  fresh rep := ⟨_, .fresh rep⟩
  get := by
    rintro A s n ⟨lay, ordered⟩ - request room
    obtain ⟨r, h, got, refuses⟩ := ordered.stacked.serves n request
    cases r with
    | none => exact absurd (refuses rfl) (Nat.not_le.mpr room)
    | some x =>
      obtain ⟨lay', -, ordered'⟩ := ordered.got request got
      exact ⟨x, h, got, lay', ordered'⟩
  free := by
    rintro A s x n ⟨lay, ordered⟩ - last
    obtain ⟨live, top⟩ := List.head?_eq_some_iff.mp (last rfl)
    obtain ⟨h', lay', freed, -, ordered'⟩ := ordered.frees top
    refine ⟨h', freed, lay', ?_⟩
    rw [ordered.serves.left_of_last top]
    exact ordered'
  rewrite := fun ⟨lay, ordered⟩ same => ⟨lay, ordered.rewrite same⟩

/-- Blocks of the largest class only, given back in any order. -/
def largest : Discipline where
  least len := 8 * (len - 1) + 1
  lastOnly := false
  Kept A s := ∃ lay, Rows A s lay
  serves := fun ⟨lay, rows⟩ => ⟨lay, rows.serves⟩
  fresh rep := ⟨_, .fresh rep⟩
  get := by
    rintro A s n ⟨lay, rows⟩ least request room
    obtain ⟨r, h, lay', got, rows', refuses⟩ := rows.gets least request
    cases r with
    | none => exact absurd (refuses.mp rfl) room.ne
    | some x => exact ⟨x, h, got, lay', rows'⟩
  free := by
    rintro A s x n ⟨lay, rows⟩ live -
    obtain ⟨h', lay', freed, rows'⟩ := rows.free live
    exact ⟨h', freed, lay', rows'⟩
  rewrite := fun ⟨lay, rows⟩ same => ⟨lay, rows.serves.rewrite same, rows.rowed⟩

end Discipline

end Fkv
