import Fkv.CircularLog.Shelved

namespace Fkv
open ByteMemory CWord Refinement Runs

/-- Under any discipline a table just created, called in order, is the finite map. -/
theorem Discipline.created (D : Discipline) (L : Logs) (hash : List UInt8 → Nat) (log : Nat → Nat)
    (raw : Nat → SegregatedFits) (m : Mem) (bkts mainSize spareSize fuel : Nat) (calls : List KvCall)
    (selves : ∀ l, (raw l).self = (L.arena l).self) (mains : 1 ≤ mainSize)
    (size : 128 * (mainSize + spareSize) < 2 ^ 32) (mapped : bkts + 128 * (mainSize + spareSize) ≤ 2 ^ 64)
    (enough : spareSize + 1 < fuel)
    (legal : ∀ call ∈ calls, (L.setting hash log).Legal call ∧ (L.setting hash log).Bounded call)
    (order : KeepsOrder D hash log mainSize spareSize calls [] 0) :
    ∃ t, KvTable.create raw m bkts L.baseAddr L.logSize mainSize spareSize = .ok t ∧
      Refines ((L.setting hash log).Performs fuel) KvMap.always ((L.setting hash log).Finds fuel) calls t
        KvMap.empty := by
  obtain ⟨t, created, fresh, pool, serving⟩ :=
    KvTable.create_fresh L hash log raw m bkts mainSize spareSize selves mains size mapped
  have mainSize : t.bktPool.mainSize = mainSize := by rw [pool]; rfl
  have spareSize : t.bktPool.spareSize = spareSize := by rw [pool]; rfl
  have shelved : Shelved D L hash log t KvMap.empty [] 0 := .fresh fresh serving
  refine ⟨t, created, shelved.refines ?_ legal ?_⟩
  · rw [spareSize]
    exact enough
  · rw [mainSize, spareSize]
    exact order

/-- A table whose keys leave each log in the order opposite to that in which they
came, and never crowd a log or a bucket, is the finite map: every put is stored and
every call answered, whatever the sizes of the entries. -/
theorem stack_order_map (L : Logs) (hash : List UInt8 → Nat) (log : Nat → Nat) (raw : Nat → SegregatedFits)
    (m : Mem) (bkts mainSize spareSize fuel : Nat) (calls : List KvCall)
    (selves : ∀ l, (raw l).self = (L.arena l).self) (mains : 1 ≤ mainSize)
    (size : 128 * (mainSize + spareSize) < 2 ^ 32) (mapped : bkts + 128 * (mainSize + spareSize) ≤ 2 ^ 64)
    (enough : spareSize + 1 < fuel)
    (legal : ∀ call ∈ calls, (L.setting hash log).Legal call ∧ (L.setting hash log).Bounded call)
    (order : KeepsOrder .stackOrder hash log mainSize spareSize calls [] 0) :
    ∃ t, KvTable.create raw m bkts L.baseAddr L.logSize mainSize spareSize = .ok t ∧
      Refines ((L.setting hash log).Performs fuel) KvMap.always ((L.setting hash log).Finds fuel) calls t
        KvMap.empty :=
  Discipline.stackOrder.created L hash log raw m bkts mainSize spareSize fuel calls selves mains size mapped
    enough legal order

theorem stack_order_map_one : ∃ t, KvTable.create (fun _ => smallRaw) (fun _ => 0) 4096 (2 ^ 40) 1 1 1 = .ok t ∧
    Refines (oneSetting.Performs 4) KvMap.always (oneSetting.Finds 4)
      [.put (fullEntry 0), .put (fullEntry 1), .remove (fullEntry 1), .get (fullEntry 0)] t KvMap.empty := by
  refine stack_order_map oneLog firstByte (fun _ => 0) (fun _ => smallRaw) (fun _ => 0) 4096 1 1 4
    [.put (fullEntry 0), .put (fullEntry 1), .remove (fullEntry 1), .get (fullEntry 0)]
    (fun _ => rfl) le_rfl (by decide) (by decide) (by decide) ?_ ?_
  · simp only [List.mem_cons, List.not_mem_nil, or_false, forall_eq_or_imp, forall_eq]
    exact ⟨⟨fullEntry_legal (by decide), (fullEntry_reads 0 (by decide)).1.le⟩,
      ⟨fullEntry_legal (by decide), (fullEntry_reads 1 (by decide)).1.le⟩,
      ⟨(fullEntry_legal (by decide)).1, trivial⟩, (fullEntry_legal (by decide)).1, trivial⟩
  · decide

/-- A table of entries of the largest size is the finite map in whatever order keys
come, are put again and go. -/
theorem largest_map (L : Logs) (hash : List UInt8 → Nat) (log : Nat → Nat) (raw : Nat → SegregatedFits)
    (m : Mem) (bkts mainSize spareSize fuel : Nat) (calls : List KvCall)
    (selves : ∀ l, (raw l).self = (L.arena l).self) (mains : 1 ≤ mainSize)
    (size : 128 * (mainSize + spareSize) < 2 ^ 32) (mapped : bkts + 128 * (mainSize + spareSize) ≤ 2 ^ 64)
    (enough : spareSize + 1 < fuel)
    (legal : ∀ call ∈ calls, (L.setting hash log).Legal call ∧ (L.setting hash log).Bounded call)
    (order : KeepsOrder .largest hash log mainSize spareSize calls [] 0) :
    ∃ t, KvTable.create raw m bkts L.baseAddr L.logSize mainSize spareSize = .ok t ∧
      Refines ((L.setting hash log).Performs fuel) KvMap.always ((L.setting hash log).Finds fuel) calls t
        KvMap.empty :=
  Discipline.largest.created L hash log raw m bkts mainSize spareSize fuel calls selves mains size mapped enough
    legal order

theorem largest_map_one : ∃ t, KvTable.create (fun _ => smallRaw) (fun _ => 0) 4096 (2 ^ 40) 1 1 1 = .ok t ∧
    Refines (oneSetting.Performs 4) KvMap.always (oneSetting.Finds 4)
      [.put (fullEntry 0), .put (fullEntry 1), .put (fullEntry 0), .remove (fullEntry 1), .get (fullEntry 0)] t
        KvMap.empty := by
  refine largest_map oneLog firstByte (fun _ => 0) (fun _ => smallRaw) (fun _ => 0) 4096 1 1 4
    [.put (fullEntry 0), .put (fullEntry 1), .put (fullEntry 0), .remove (fullEntry 1), .get (fullEntry 0)]
    (fun _ => rfl) le_rfl (by decide) (by decide) (by decide) ?_ ?_
  · have older := And.intro (fullEntry_legal (n := 0) (by decide)) (fullEntry_reads 0 (by decide)).1.le
    have newer := And.intro (fullEntry_legal (n := 1) (by decide)) (fullEntry_reads 1 (by decide)).1.le
    simp only [List.mem_cons, List.not_mem_nil, or_false, forall_eq_or_imp, forall_eq]
    exact ⟨older, newer, older, ⟨newer.1.1, trivial⟩, older.1.1, trivial⟩
  · decide

end Fkv
