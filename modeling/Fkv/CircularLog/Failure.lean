import Fkv.CircularLog.Storage
import Fkv.MemManager.Oversized

namespace Fkv
open ByteMemory CWord Runs

/-- Every version fits its 32 bits. -/
def BucketPool.Versioned (pool : BucketPool) : Prop := ∀ bkt, (pool.cells bkt).version < 2 ^ 32

/-- A call of `put_circular_log_entry` has changed nothing a later call can see:
what gets find, which blocks are used, and that its bucket is not locked. -/
structure Unharmed (L : Logs) (hash : List UInt8 → Nat) (t t' : KvTable SegregatedFits) (entry : Mem) : Prop where
  found : ∀ asked answer fuel, entryKeyhash asked 0 = hash (entryKey asked) →
    t.getCircularLogEntry fuel asked = .ok (true, answer) → t'.getCircularLogEntry fuel asked = .ok (true, answer)
  blocks : ∀ l < L.logSize, ∀ block, InUse (L.arena l) (t.heap l) block ↔ InUse (L.arena l) (t'.heap l) block
  released : (t'.bktPool.cells (getEntryBucket t'.bktPool entry)).version % 2 = 0

/-- A call on the log it names. -/
def Logs.stepOn (L : Logs) (fuel : Nat) (t : KvTable SegregatedFits) (call : Nat × KvCall) :
    Except Fault (KvTable SegregatedFits) :=
  (L.setting (fun _ => 0) (fun _ => call.1)).step fuel t call.2

variable {σ : Type}

namespace BucketPool

theorem Versioned.setCell {pool : BucketPool} {b : Bucket} {bkt : Nat} (versioned : pool.Versioned)
    (fits : b.version < 2 ^ 32) : (pool.setCell bkt b).Versioned := by
  intro c
  by_cases here : c = bkt
  · simpa only [BucketPool.setCell, here, Function.update_self] using fits
  · simpa only [BucketPool.setCell, Function.update_of_ne here] using versioned c

theorem Versioned.setVersion {pool : BucketPool} {bkt version : Nat} (versioned : pool.Versioned)
    (fits : version < 2 ^ 32) : (pool.setVersion bkt version).Versioned :=
  versioned.setCell fits

theorem Versioned.setEntry {pool : BucketPool} {e : IndexEntry} {bkt i : Nat} (versioned : pool.Versioned) :
    (pool.setEntry bkt i e).Versioned :=
  versioned.setCell (versioned bkt)

theorem Versioned.setLink {pool : BucketPool} {bkt offset : Nat} (versioned : pool.Versioned) :
    (pool.setLink bkt offset).Versioned :=
  versioned.setCell (versioned bkt)

theorem Versioned.unlock {pool : BucketPool} {bkt : Nat} (versioned : pool.Versioned) :
    (unlockBucket pool bkt).Versioned :=
  versioned.setVersion (Nat.mod_lt _ (by decide))

theorem Versioned.nextEmptySpareLoop {pool : BucketPool} (versioned : pool.Versioned) (i n : Nat) :
    (nextEmptySpareLoop pool i n).2.Versioned := by
  induction n generalizing i with
  | zero => exact versioned
  | succ n ih =>
    rw [Fkv.nextEmptySpareLoop]
    split
    · exact ih (i + 1)
    · exact versioned.setVersion (by decide)

theorem Versioned.insert {pool : BucketPool} {bkt fuel keyhash offset : Nat} {result : Bool × BucketPool}
    (versioned : pool.Versioned) (done : insertIndexEntry keyhash offset fuel pool bkt = .ok result) :
    result.2.Versioned := by
  induction fuel generalizing pool bkt with
  | zero => cases done
  | succ fuel ih =>
    rw [insertIndexEntry] at done
    split at done
    · cases done
      exact versioned.setEntry
    · split at done
      · exact ih versioned done
      · have claimed := versioned.nextEmptySpareLoop 0 pool.spareSize
        rw [nextEmptySpareBucket] at done
        split at done
        · rename_i next pool₁ found
          rw [found] at claimed
          exact ih claimed.setLink done
        · rename_i pool₁ found
          rw [found] at claimed
          cases done
          exact claimed

end BucketPool

/-- The lock loop ends with an odd version. -/
theorem optimisticLock_odd {fuel version v : Nat} (fits : version < 2 ^ 32)
    (locked : optimisticLock fuel version = .ok v) :
    v % 2 = 1 ∧ v < 2 ^ 32 := by
  induction fuel generalizing version with
  | zero => cases locked
  | succ fuel ih =>
    rw [optimisticLock, evenVersion_eq fits] at locked
    split at locked
    · rename_i even
      rw [oddVersion_even (by omega)] at locked
      exact ih (by omega) locked
    · rename_i odd
      cases locked
      exact ⟨by omega, fits⟩

/-- A bucket just locked has an odd version. -/
theorem lockBucket_odd {pool pool' : BucketPool} {bkt fuel : Nat} (versioned : pool.Versioned)
    (locked : lockBucket fuel pool bkt = .ok pool') :
    (pool'.cells bkt).version % 2 = 1 ∧ pool'.Versioned := by
  obtain ⟨version, lock, done⟩ := bind_eq_ok.mp locked
  cases done
  obtain ⟨odd, fits⟩ := optimisticLock_odd (versioned bkt) lock
  refine ⟨?_, versioned.setVersion fits⟩
  simpa only [BucketPool.setVersion, BucketPool.setCell, Function.update_self] using odd

namespace KvTable

/-- The loop of a remove changes no version. -/
theorem removeLoop_version {alloc : Allocator σ} {t t' : KvTable σ} {entry : Mem} {res : Bool}
    {bkt n l fuel index : Nat} (done : t.removeLoop alloc fuel l entry n bkt index = .ok (res, t')) (c : Nat) :
    (t'.bktPool.cells c).version = (t.bktPool.cells c).version := by
  induction n generalizing bkt index with
  | zero => cases done
  | succ n ih =>
    rw [removeLoop] at done
    obtain ⟨found, -, done⟩ := bind_eq_ok.mp done
    cases found with
    | none =>
      cases done
      rfl
    | some p =>
      simp only at done
      split at done
      · obtain ⟨r, -, done⟩ := bind_eq_ok.mp done
        cases done
        by_cases here : c = p.1
        · simp [deleteIndexEntryWithIndex, BucketPool.setEntry, BucketPool.setCell, here]
        · simp [deleteIndexEntryWithIndex, BucketPool.setEntry, BucketPool.setCell, here]
      · exact ih done

theorem removeLoop_versioned {alloc : Allocator σ} {t t' : KvTable σ} {entry : Mem} {res : Bool}
    {bkt n l fuel index : Nat} (versioned : t.bktPool.Versioned)
    (done : t.removeLoop alloc fuel l entry n bkt index = .ok (res, t')) : t'.bktPool.Versioned :=
  fun c => removeLoop_version done c ▸ versioned c

theorem remove_versioned {alloc : Allocator σ} {t t' : KvTable σ} {entry : Mem} {res : Bool} {l fuel : Nat}
    (versioned : t.bktPool.Versioned) (done : t.removeCircularLogEntry alloc fuel l entry = .ok (res, t')) :
    t'.bktPool.Versioned := by
  rw [removeCircularLogEntry] at done
  obtain ⟨pool, lock, done⟩ := bind_eq_ok.mp done
  obtain ⟨⟨ret, t₁⟩, removal, done⟩ := bind_eq_ok.mp done
  cases done
  exact (removeLoop_versioned (lockBucket_odd versioned lock).2 removal).unlock

/-- A put keeps the versions in range. Without a block it leaves its bucket locked. -/
theorem put_versioned {alloc : Allocator σ} {t t' : KvTable σ} {entry : Mem} {res : Bool} {l fuel : Nat}
    (versioned : t.bktPool.Versioned) (done : t.putCircularLogEntry alloc fuel l entry = .ok (res, t')) :
    t'.bktPool.Versioned ∧
    (res = false → (t'.bktPool.cells (getEntryBucket t'.bktPool entry)).version % 2 = 1) := by
  rw [(put_alike done).getEntryBucket entry]
  rw [putCircularLogEntry] at done
  obtain ⟨pool, lock, done⟩ := bind_eq_ok.mp done
  obtain ⟨odd, locked⟩ := lockBucket_odd versioned lock
  obtain ⟨⟨ret, t₁⟩, removal, done⟩ := bind_eq_ok.mp done
  have removed := removeLoop_versioned locked removal
  obtain ⟨⟨newAddr, m, s⟩, -, done⟩ := bind_eq_ok.mp done
  cases newAddr with
  | none =>
    cases done
    refine ⟨removed, fun _ => ?_⟩
    simp only [removeLoop_version removal]
    exact odd
  | some x =>
    simp only at done
    obtain ⟨⟨inserted, pool'⟩, run, done⟩ := bind_eq_ok.mp done
    cases done
    exact ⟨(removed.insert run).unlock, fun never => absurd never (by decide)⟩

end KvTable

theorem Setting.step_versioned {S : Setting σ} {t t' : KvTable σ} {call : KvCall} {fuel : Nat}
    (versioned : t.bktPool.Versioned) (done : S.step fuel t call = .ok t') :
    t'.bktPool.Versioned := by
  obtain ⟨⟨res, entry', t₁⟩, performed, done⟩ := bind_eq_ok.mp done
  cases done
  cases call with
  | put entry =>
    obtain ⟨⟨res, t₁⟩, put, performed⟩ := bind_eq_ok.mp performed
    cases performed
    exact (KvTable.put_versioned versioned put).1
  | get entry =>
    obtain ⟨⟨res, entry⟩, got, performed⟩ := bind_eq_ok.mp performed
    cases performed
    exact versioned
  | remove entry =>
    obtain ⟨⟨res, t₁⟩, removed, performed⟩ := bind_eq_ok.mp performed
    cases performed
    exact KvTable.remove_versioned versioned removed

theorem Setting.Fresh.versioned {S : Setting σ} {t : KvTable σ} (fresh : S.Fresh t) : t.bktPool.Versioned := by
  intro bkt
  rw [fresh.pool]
  exact Nat.two_pow_pos 32

/-- A table where no other key has the tag. -/
theorem Setting.Holds.clear {S : Setting σ} {t : KvTable σ} {dir : Multiset Item}
    {leaked : Nat → Multiset (Nat × Nat)} {entry : Mem} (holds : S.Holds t dir leaked) (only : ∀ it ∈ dir,
      lookupKeyTagHashPortion it.keyhash = lookupKeyTagHashPortion (entryKeyhash entry 0) →
      it.key = entryKey entry) :
    t.Clear entry := by
  intro p found
  obtain ⟨slot, matching⟩ := BucketPool.firstTagged_some found
  obtain ⟨it, member, -, index, same⟩ := holds.match_item (holds.main_lt _) slot matching
  have tag := matchIndexEntryTag_iff.mp matching
  rw [← index, Item.index] at tag
  exact same.mpr (only it member tag)

/-- A put that fails for want of a block forgets its key, and frees its block. -/
theorem Logs.failed_put {dir : Multiset Item} {leaked : Nat → Multiset (Nat × Nat)} {entry : Mem} {fuel : Nat}
    {L : Logs} {hash : List UInt8 → Nat} {log : Nat → Nat} {t t' : KvTable SegregatedFits} {block : Nat}
    (holds : (L.setting hash log).Holds t dir leaked) (keyed : (L.setting hash log).Keyed entry)
    (sized : Setting.Sized entry) (bounded : initialSize entry 0 ≤ segregatedMaxDataSize)
    (put : t.putCircularLogEntry segregatedFits fuel (log (entryKeyhash entry 0)) entry = .ok (false, t')) :
    (L.setting hash log).Holds t' (dir.filter (fun it => it.key ≠ entryKey entry)) leaked ∧
      ∀ l < L.logSize, InUse (L.arena l) (t'.heap l) block ↔ InUse (L.arena l) (t.heap l) block ∧
        ∀ it ∈ dir, it.key = entryKey entry → log it.keyhash = l → L.baseAddr + it.offset ≠ block := by
  cases holds.puts keyed sized bounded put with
  | refused why held =>
    refine ⟨held, fun l inside => ?_⟩
    rw [inUse_iff held inside, inUse_iff holds inside]
    constructor
    · rintro (⟨it, member, here, rfl⟩ | lost)
      · obtain ⟨old, other⟩ := Multiset.mem_filter.mp member
        refine ⟨Or.inl ⟨it, old, here, rfl⟩, fun it' old' key _ same => ?_⟩
        obtain rfl := Multiset.inj_on_of_nodup_map holds.offsets it' old' it old (by omega)
        exact other key
      · refine ⟨Or.inr lost, fun it old _ here same => ?_⟩
        have nodup := SegregatedFits.Serving.nodup (holds.serving l inside)
        rw [Multiset.map_add] at nodup
        subst here same
        exact Multiset.disjoint_left.mp (Multiset.disjoint_of_nodup_add nodup)
          (Multiset.mem_map_of_mem Prod.fst (Setting.mem_blocks old)) lost
    · rintro ⟨⟨it, old, here, rfl⟩ | lost, kept⟩
      · exact Or.inl ⟨it, Multiset.mem_filter.mpr ⟨old, fun key => kept it old key here rfl⟩, here, rfl⟩
      · exact Or.inr lost

/-- An entry that is longer than any block. -/
theorem Logs.oversized_put {dir : Multiset Item} {leaked : Nat → Multiset (Nat × Nat)} {entry : Mem}
    {fuel : Nat} {L : Logs} {hash : List UInt8 → Nat} {log : Nat → Nat} {t : KvTable SegregatedFits}
    (holds : (L.setting hash log).Holds t dir leaked) (keyed : (L.setting hash log).Keyed entry)
    (clear : t.Clear entry) (enough : t.bktPool.spareSize + 1 < fuel) (above : 1288 < initialSize entry 0)
    (low : initialSize entry 0 < 2 ^ 31) :
    ∃ t', t.putCircularLogEntry segregatedFits fuel (log (entryKeyhash entry 0)) entry = .ok (false, t') ∧
      (L.setting hash log).Holds t' (dir.filter (fun it => it.key ≠ entryKey entry)) leaked ∧
      t.bktPool.Alike t'.bktPool := by
  have inside : log (entryKeyhash entry 0) < L.logSize := keyed.log
  have main := holds.main_lt (entryKeyhash entry 0)
  obtain ⟨placed, spares, claimed, chained⟩ := holds.pool
  obtain ⟨version, lock⟩ := lockBucket_total t.bktPool (getEntryBucket t.bktPool entry) (show 2 ≤ fuel by omega)
  have locked := holds.setVersion main version
  obtain ⟨⟨ret, t₁⟩, removal⟩ := locked.removeLoop_total keyed ((chained.clear_setVersion placed main).mpr clear)
    (L.frees hash log) (show t.bktPool.spareSize < fuel by omega) (show 0 < fuel by omega)
  obtain ⟨held, alike, -⟩ := locked.removed keyed.hash removal
  have len : (t₁.sfits (log (entryKeyhash entry 0))).len = 160 := by
    obtain ⟨lay, -, rep⟩ := SegregatedFits.Serving.wellFormed (held.serving _ inside)
    exact rep.shape.len.trans (L.len _ inside)
  have none : segregatedFits.get t₁.mem (t₁.sfits (log (entryKeyhash entry 0))) (initialSize entry 0 % 2 ^ 32) =
      .ok (none, t₁.mem, t₁.sfits (log (entryKeyhash entry 0))) := by
    rw [Nat.mod_eq_of_lt (by omega)]
    refine bind_eq_ok.mpr ⟨(none, ⟨t₁.mem, t₁.sfits (log (entryKeyhash entry 0))⟩), get_above ?_ low, rfl⟩
    simp only [len]
    exact above
  refine ⟨t₁, ?_, held, (t.bktPool.alike_setVersion _ _).trans alike⟩
  rw [KvTable.putCircularLogEntry, lock, ok_bind]
  refine bind_eq_ok.mpr ⟨_, removal, bind_eq_ok.mpr ⟨_, none, ?_⟩⟩
  simp only [Function.update_eq_self]

/-- A failing put never leaves things as they were: its bucket stays locked. -/
theorem failed_put_harms (L : Logs) (hash : List UInt8 → Nat) (log : Nat → Nat)
    (t t₁ t₂ : KvTable SegregatedFits) (fuel l : Nat) (calls : List (Nat × KvCall)) (entry : Mem)
    (fresh : (L.setting hash log).Fresh t) (reached : run (L.stepOn fuel) calls t = .ok t₁)
    (failed : t₁.putCircularLogEntry segregatedFits fuel l entry = .ok (false, t₂)) :
    ¬ Unharmed L hash t₁ t₂ entry := by
  have versioned : t₁.bktPool.Versioned :=
    run_keeps (P := fun s => s.bktPool.Versioned)
      (fun _ _ _ versioned step => Setting.step_versioned versioned step)
      fresh.versioned reached
  intro unharmed
  have odd := (KvTable.put_versioned versioned failed).2 rfl
  have even := unharmed.released
  omega

/-- The key of `fullEntry 0` with a value of 1960 bytes. -/
def hugeEntry : Mem :=
  headerEntry [208, 7, 0, 0, 0, 0, 0, 0, 1, 0, 0, 0, 0, 0, 0, 0, 8, 0, 0, 0, 168, 7, 0, 0, 0, 0, 0, 0, 0, 0,
    0, 0, 0]

theorem hugeEntry_reads : initialSize hugeEntry 0 = 2000 ∧ entryKeyhash hugeEntry 0 = 1 ∧
    entryKey hugeEntry = entryKey (fullEntry 0) := by
  decide

theorem hugeEntry_keyed : oneSetting.Keyed hugeEntry := by
  obtain ⟨-, keyhash, key⟩ := hugeEntry_reads
  refine ⟨?_, Nat.one_pos⟩
  rw [keyhash, key]
  exact (fullEntry_reads 0 (by decide)).2.2.2.2.1.symm

theorem failed_put_harms_huge :
    ∃ t t₂, KvTable.create (fun _ => smallRaw) (fun _ => 0) 4096 (2 ^ 40) 1 1 1 = .ok t ∧
    t.putCircularLogEntry segregatedFits 4 0 hugeEntry = .ok (false, t₂) ∧
    ¬ Unharmed oneLog firstByte t t₂ hugeEntry := by
  obtain ⟨t, created, fresh, pool, -⟩ := oneTable 1 (by decide)
  have size := hugeEntry_reads.1
  have enough : t.bktPool.spareSize + 1 < 4 := by
    rw [pool]
    exact (by decide : 1 + 1 < 4)
  obtain ⟨t₂, failed, -⟩ := Logs.oversized_put fresh.holds hugeEntry_keyed (fresh.holds.clear (by simp)) enough
    (by omega) (by omega)
  exact ⟨t, t₂, created, failed,
    failed_put_harms oneLog firstByte (fun _ => 0) t t t₂ 4 0 [] hugeEntry fresh rfl failed⟩

/-- The put of an entry that is too long takes the earlier one of its key with it. -/
theorem failed_put_forgets :
    ∃ t t₁ t₂ answer, KvTable.create (fun _ => smallRaw) (fun _ => 0) 4096 (2 ^ 40) 1 1 1 = .ok t ∧
    run (oneLog.stepOn 4) [(0, .put (fullEntry 0))] t = .ok t₁ ∧
    t₁.putCircularLogEntry segregatedFits 4 0 hugeEntry = .ok (false, t₂) ∧
    t₁.getCircularLogEntry 4 (fullEntry 0) = .ok (true, answer) ∧
    t₂.getCircularLogEntry 4 (fullEntry 0) = .ok (false, fullEntry 0) ∧
    ¬ Unharmed oneLog firstByte t₁ t₂ hugeEntry := by
  obtain ⟨t, t₁, offset, created, fresh, -, spares, performed, holds⟩ := onePut
  have step : oneLog.stepOn 4 t (0, .put (fullEntry 0)) = .ok t₁ := bind_eq_ok.mpr ⟨_, performed, rfl⟩
  have enough : t₁.bktPool.spareSize + 1 < 4 := by omega
  obtain ⟨size, keyhash, key⟩ := hugeEntry_reads
  have keyed := (fullEntry_legal (n := 0) (by decide)).1
  obtain ⟨t₂, failed, held, alike₂⟩ := Logs.oversized_put holds hugeEntry_keyed
    (holds.clear fun it member _ => by
      rw [Multiset.mem_cons.mp member |>.resolve_right (by simp), entryItem, key]) enough (by omega) (by omega)
  have before : ∃ answer, t₁.getCircularLogEntry 4 (fullEntry 0) = .ok (true, answer) := by
    rcases holds.gets keyed (holds.clear fun it member _ => by
        rw [Multiset.mem_cons.mp member |>.resolve_right (by simp), entryItem])
          (show t₁.bktPool.spareSize < 4 by omega) with
      ⟨absent, -⟩ | ⟨it, -, -, got⟩
    · exact absurd (by simp [entryItem]) absent
    · exact ⟨_, got⟩
  obtain ⟨answer, before⟩ := before
  have after : t₂.getCircularLogEntry 4 (fullEntry 0) = .ok (false, fullEntry 0) := by
    rw [key] at held
    rcases held.gets keyed (held.clear (by simp [entryItem]))
      (show t₂.bktPool.spareSize < 4 by have := alike₂.spareSize; omega) with
      ⟨-, got⟩ | ⟨it, member, -⟩
    · exact got
    · simp [entryItem] at member
  refine ⟨t, t₁, t₂, answer, created, by rw [run_cons step, run_nil], failed, before, after, fun unharmed => ?_⟩
  have found := unharmed.found (fullEntry 0) answer 4 keyed.hash before
  rw [after] at found
  cases found

end Fkv
