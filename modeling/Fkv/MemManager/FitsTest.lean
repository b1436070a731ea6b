import Fkv.MemManager.Supply

namespace Fkv
open ByteMemory CWord Tiling LinkedRing Runs

/-- The get loop of `segregated_fits_test`, with its assertion. -/
def getAll : List Nat → Heap → Except Fault (List Nat × Heap)
  | [], h => .ok ([], h)
  | dataSize :: sizes, h => do
    let (block, h) ← getSegregatedFitsBlock h dataSize
    match block with
    | none => .error .assertFailed
    | some x => do
      let (addrs, h) ← getAll sizes h
      .ok (x :: addrs, h)

/-- `segregated_fits_test` on a partition of `size` bytes at `head`, with the sizes of
its gets. Blocks are freed in the order they were got. -/
def segregatedFitsTest (mem : Mem) (raw : SegregatedFits) (maxDataSize head size : Nat) (sizes : List Nat) :
    Except Fault Heap := do
  let h ← carve mem raw maxDataSize head size
  let _ ← dumpSegregatedFits h
  let (addrs, h) ← getAll sizes h
  let _ ← dumpSegregatedFits h
  let h ← run freeSegregatedFitsBlock addrs h
  let _ ← dumpSegregatedFits h
  .ok h

/-- Gets alone take from the supply one after the other. -/
theorem Supply.Backs.getAll {A : Arena} {lay : Layout} {s : Supply} {t : Client} {rest : List Block}
    {sizes : List Nat} (backs : s.Backs A lay rest) (ordered : Stacks A t lay)
    (asked : ∀ n ∈ sizes, n ≤ 8 * A.len) :
    (s.takeAll (A.len + 2) sizes = none ∧ Fkv.getAll sizes t.heap = .error .assertFailed) ∨
      ∃ s' addrs t' lay', s.takeAll (A.len + 2) sizes = some s' ∧ Fkv.getAll sizes t.heap = .ok (addrs, t'.heap) ∧
        Serves A t' lay' ∧ t'.live.map Prod.fst = addrs.reverse ++ t.live.map Prod.fst := by
  induction sizes generalizing s t lay rest with
  | nil => exact Or.inr ⟨s, [], t, lay, rfl, rfl, ordered.serves, rfl⟩
  | cons dataSize sizes ih =>
    rcases backs.gets ordered (asked dataSize List.mem_cons_self) with
      ⟨refused, none⟩ | ⟨x, h, s', lay', rest', got, some, ordered', backs'⟩
    · refine Or.inl ⟨by rw [takeAll, none, Option.bind_none], ?_⟩
      rw [Fkv.getAll, refused, ok_bind]
    · have next := ih backs' ordered' fun n later => asked n (List.mem_cons_of_mem _ later)
      rw [takeAll, some, Option.bind_some, Fkv.getAll, got, ok_bind]
      rcases next with ⟨none, failed⟩ | ⟨s'', addrs, t', lay'', taken, done, serves, live⟩
      · exact Or.inl ⟨none, by simp only [failed, error_bind]⟩
      · refine Or.inr ⟨s'', x :: addrs, t', lay'', taken, by simp only [done, ok_bind], serves, ?_⟩
        rw [live, List.map_cons, List.reverse_cons, List.append_assoc, List.singleton_append]

/-- All blocks held can be freed, in any order. -/
theorem Serves.freeAll {A : Arena} {lay : Layout} {t : Client} {addrs : List Nat} (serves : Serves A t lay)
    (nodup : addrs.Nodup) (held : ∀ x, x ∈ t.live.map Prod.fst ↔ x ∈ addrs) :
    ∃ h lay', run freeSegregatedFitsBlock addrs t.heap = .ok h ∧ Serves A ⟨h, []⟩ lay' := by
  induction addrs generalizing t lay with
  | nil =>
    have none : t.live = [] := by
      rw [← List.map_eq_nil_iff, List.eq_nil_iff_forall_not_mem]
      exact fun x member => absurd ((held x).mp member) (by simp)
    exact ⟨t.heap, lay, rfl, none ▸ serves⟩
  | cons x addrs ih =>
    obtain ⟨absent, distinct⟩ := List.nodup_cons.mp nodup
    obtain ⟨⟨x, dataSize⟩, member, rfl⟩ := List.mem_map.mp ((held x).mpr List.mem_cons_self)
    obtain ⟨f, whole, rfl⟩ := serves.focus member
    rw [← whole] at serves
    obtain ⟨h', freed, rep, -⟩ := serves.rep.free serves.settled
    obtain ⟨h, lay', done, serves'⟩ := ih (serves.free rep) distinct fun y => by
      have before := held y
      simp only [List.mem_map, List.mem_filter, List.mem_cons] at before ⊢
      constructor
      · rintro ⟨q, ⟨inside, other⟩, rfl⟩
        exact (before.mp ⟨q, inside, rfl⟩).resolve_left (by simpa using other)
      · intro later
        obtain ⟨q, inside, rfl⟩ := before.mpr (Or.inr later)
        refine ⟨q, ⟨inside, ?_⟩, rfl⟩
        simp only [ne_eq, decide_not, Bool.not_eq_true', decide_eq_false_iff_not]
        exact fun same => absent (same ▸ later)
    exact ⟨h, lay', by rw [run_cons freed]; exact done, serves'⟩

/-- Where no block is held all are free. -/
theorem Serves.all_free {A : Arena} {h : Heap} {lay : Layout} (serves : Serves A ⟨h, []⟩ lay) :
    ∀ b ∈ lay.blocks, b.state = .free := by
  intro b member
  refine (serves.settled b member).resolve_left fun used => ?_
  obtain ⟨p, placed⟩ := exists_place Block.size A.addr member
  have none := List.map_eq_nil_iff.mp (List.perm_nil.mp serves.live.symm)
  have listed : (p, b.words) ∈ usedBlocks A.addr lay.blocks :=
    List.mem_filterMap.mpr ⟨(p, b), placed, by simp [used]⟩
  rw [none] at listed
  simp at listed

/-- The test of the allocator ends with all its assertions met, and then with every
block free, exactly when the supply of the partition lasts for all its gets. If it does
not, the assertion that fails is the one on a get. -/
theorem segregatedFitsTest_iff (A : Arena) (m : Mem) (raw : SegregatedFits) (M : Nat) (sizes : List Nat)
    (self : raw.self = A.self) (classes : segregatedFitsClassSize M = A.len) (asked : ∀ n ∈ sizes, n ≤ 8 * A.len) :
    ((∃ h lay, segregatedFitsTest m raw M A.addr A.addrSize sizes = .ok h ∧ Rep A h lay ∧
      ∀ b ∈ lay.blocks, b.state = .free) ↔
        (A.supply.takeAll (A.len + 2) sizes).isSome) ∧
      (segregatedFitsTest m raw M A.addr A.addrSize sizes = .error .assertFailed ↔
        (A.supply.takeAll (A.len + 2) sizes).isNone) ∧
      ∃ h, carve m raw M A.addr A.addrSize = .ok h ∧ (∃ lines, dumpSegregatedFits h = .ok lines) ∧
        (getAll sizes h = .error .assertFailed ↔ (A.supply.takeAll (A.len + 2) sizes).isNone) := by
  obtain ⟨h, carving, rep, -⟩ := carve_spec m raw self classes
  have dumped := rep.dump
  rcases (Supply.Backs.fresh rep).getAll (t := ⟨h, []⟩) (.fresh rep) asked with
    ⟨none, failed⟩ | ⟨s', addrs, t, lay, taken, done, serves, live⟩
  · have fails : segregatedFitsTest m raw M A.addr A.addrSize sizes = .error .assertFailed := by
      rw [segregatedFitsTest, carving, ok_bind, dumped, ok_bind, failed, error_bind]
    rw [fails, none]
    exact ⟨by simp, by simp, h, carving, ⟨_, dumped⟩, iff_of_true failed rfl⟩
  · rw [List.map_nil, List.append_nil] at live
    have nodup := serves.starts_nodup
    rw [live, List.nodup_reverse] at nodup
    obtain ⟨h', lay', freed, serves'⟩ := serves.freeAll nodup fun x => by rw [live, List.mem_reverse]
    have passes : segregatedFitsTest m raw M A.addr A.addrSize sizes = .ok h' := by
      simp only [segregatedFitsTest, carving, ok_bind, dumped, done, serves.rep.dump, freed, serves'.rep.dump]
    rw [taken, passes]
    refine ⟨iff_of_true ⟨h', lay', rfl, serves'.rep, serves'.all_free⟩ rfl, by simp, h, carving, ⟨_, dumped⟩, ?_⟩
    simp [done]

/-- The partition of the test in the source: 1 MB and blocks of up to 1152 bytes. -/
def testArena : Arena :=
  { self := 64, addr := 8192, addrSize := 2 ^ 20, len := 144, addr_ge := by decide, size_lt := by decide,
    end_lt := by decide, top := by decide, len_pos := by decide, len_lt := by decide, self_lt := by decide,
    apart := by decide }

/-- The sizes of its thousand gets. -/
def testSizes : List Nat := (List.range 1000).map fun i => i * 8 % 1152

theorem testSizes_last : (testArena.supply.takeAll (testArena.len + 2) testSizes).isSome := by decide +kernel

/-- As it stands in the source the test passes. -/
theorem segregatedFitsTest_iff_source :
    ∃ h, segregatedFitsTest (fun _ => 0) smallRaw 1152 8192 (2 ^ 20) testSizes = .ok h := by
  have asked : ∀ n ∈ testSizes, n ≤ 8 * testArena.len := by
    intro n member
    obtain ⟨i, -, rfl⟩ := List.mem_map.mp member
    have less := Nat.mod_lt (i * 8) (show 0 < 1152 by decide)
    exact less.le
  obtain ⟨h, lay, passed, -⟩ :=
    (segregatedFitsTest_iff testArena (fun _ => 0) smallRaw 1152 testSizes rfl rfl asked).1.mpr testSizes_last
  exact ⟨h, passed⟩

end Fkv
