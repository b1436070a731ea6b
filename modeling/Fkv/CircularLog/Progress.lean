import Fkv.CircularLog.Perform

namespace Fkv
open ByteMemory CWord Runs

/-- The first slot of its chain with the tag of a hash. -/
def BucketPool.firstTagged (pool : BucketPool) (keyhash : Nat) : Option (Nat × Nat) :=
  (slots (pool.chain (bucketIndex pool.mainSize keyhash))).find?
    (fun p => matchIndexEntryTag (pool.entry p).tag keyhash)

/-- The first entry of its chain with the tag of the key, if there is one, is that
of the key itself. -/
def KvTable.Clear {σ : Type} (t : KvTable σ) (entry : Mem) : Prop :=
  ∀ p, t.bktPool.firstTagged (entryKeyhash entry 0) = some p →
    t.matchCircularLogEntryKey entry (t.bktPool.entry p).offset = true

/-- The allocator takes back every block it serves. -/
def Setting.Frees {σ : Type} (S : Setting σ) : Prop :=
  ∀ {l m s live x n}, l < S.logSize → S.Serving l m s ((x, n) ::ₘ live) → ∃ r, S.alloc.free m s x = .ok r

/-- What a put finds when it asks for a block: the memory and the allocator of its
log with the block of the key freed. -/
def Setting.Cleared {σ : Type} (S : Setting σ) (t : KvTable σ) (entry : Mem) (dir : Multiset Item) (m : Mem)
    (s : σ) : Prop :=
  entryKey entry ∉ dir.map Item.key ∧ m = t.mem ∧ s = t.sfits (S.log (entryKeyhash entry 0)) ∨
    ∃ it ∈ dir, it.key = entryKey entry ∧
      S.alloc.free t.mem (t.sfits (S.log (entryKeyhash entry 0))) (S.baseAddr + it.offset) = .ok (m, s)

variable {σ : Type}

theorem BucketPool.firstTagged_some {pool : BucketPool} {keyhash : Nat} {p : Nat × Nat}
    (found : pool.firstTagged keyhash = some p) :
    p ∈ slots (pool.chain (bucketIndex pool.mainSize keyhash)) ∧
    matchIndexEntryTag (pool.entry p).tag keyhash = true := by
  have matching := List.find?_some found
  exact ⟨List.mem_of_find?_eq_some found, matching⟩

theorem oddVersion_ne (version version' : Nat) : oddVersion version ≠ evenVersion version' := by
  have odd : (oddVersion version).testBit 0 = true := by simp [oddVersion]
  have even : (evenVersion version').testBit 0 = false := by simp [evenVersion]
  intro same
  rw [same, even] at odd
  cases odd

/-- Locking ends after the second round at the latest. -/
theorem lockBucket_total {fuel : Nat} (pool : BucketPool) (bkt : Nat) (enough : 2 ≤ fuel) :
    ∃ version, lockBucket fuel pool bkt = .ok (pool.setVersion bkt version) := by
  obtain ⟨fuel, rfl⟩ : ∃ k, fuel = k + 1 + 1 := ⟨fuel - 2, by omega⟩
  obtain ⟨version, locked⟩ : ∃ version, optimisticLock (fuel + 1 + 1) (pool.cells bkt).version = .ok version := by
    rw [optimisticLock]
    split
    · rw [optimisticLock, if_neg (oddVersion_ne _ _)]
      exact ⟨_, rfl⟩
    · exact ⟨_, rfl⟩
  exact ⟨version, by simp only [lockBucket, locked, ok_bind]⟩

theorem Chained.search_total {pool : BucketPool} {spares : Nat → List Nat} {claimed fuel : Nat}
    (chained : Chained pool spares claimed) (keyhash : Nat)
    (main : bucketIndex pool.mainSize keyhash < pool.mainSize) (enough : pool.spareSize < fuel) :
    searchIndexEntry pool keyhash fuel (pool.mainPtr (bucketIndex pool.mainSize keyhash)) 0 =
      .ok (pool.firstTagged keyhash) := by
  have few := chained.length_le main
  have within := chained.within
  rw [BucketPool.firstTagged, chained.chain_eq main]
  refine search_spec (chained.linked _ main) ?_
  rw [List.length_map]
  omega

/-- The version of its main bucket has no part in what the loops find. -/
theorem Chained.clear_setVersion {t : KvTable σ} {spares : Nat → List Nat} {claimed version : Nat} {entry : Mem}
    (chained : Chained t.bktPool spares claimed) (placed : t.bktPool.Placed)
    (main : bucketIndex t.bktPool.mainSize (entryKeyhash entry 0) < t.bktPool.mainSize) :
    KvTable.Clear { t with bktPool := t.bktPool.setVersion (getEntryBucket t.bktPool entry) version } entry ↔
      t.Clear entry := by
  have entries : ∀ q, (t.bktPool.setVersion (getEntryBucket t.bktPool entry) version).entry q =
    t.bktPool.entry q :=
    fun q => by rw [BucketPool.entry, BucketPool.setVersion_entries, BucketPool.entry]
  have first : (t.bktPool.setVersion (getEntryBucket t.bktPool entry) version).firstTagged (entryKeyhash entry 0) =
      t.bktPool.firstTagged (entryKeyhash entry 0) := by
    unfold BucketPool.firstTagged
    simp only [entries]
    exact congrArg (fun chain => (slots chain).find? _) (chained.setVersion_chain placed main main version)
  refine forall_congr' fun p => ?_
  simp only [first, entries]
  exact Iff.rfl

namespace Setting.Holds

/-- The item of the first slot with the tag of a key. -/
theorem first_item {S : Setting σ} {t : KvTable σ} {dir : Multiset Item} {leaked : Nat → Multiset (Nat × Nat)}
    {entry : Mem} {p : Nat × Nat} (holds : S.Holds t dir leaked)
    (found : t.bktPool.firstTagged (entryKeyhash entry 0) = some p) :
    ∃ it ∈ dir, (t.bktPool.entry p).tag = lookupKeyTagHashPortion (entryKeyhash entry 0) ∧
      add64 t.baseAddr (t.bktPool.entry p).offset = S.baseAddr + it.offset ∧
      (t.matchCircularLogEntryKey entry (t.bktPool.entry p).offset = true ↔ it.key = entryKey entry) := by
  obtain ⟨slot, matching⟩ := BucketPool.firstTagged_some found
  obtain ⟨it, member, -, index, same⟩ := holds.match_item (holds.main_lt _) slot matching
  refine ⟨it, member, matchIndexEntryTag_iff.mp matching, ?_, same⟩
  rw [← holds.address member, ← index, Item.index]

theorem missing {S : Setting σ} {t : KvTable σ} {dir : Multiset Item} {leaked : Nat → Multiset (Nat × Nat)}
    {entry : Mem} (holds : S.Holds t dir leaked) (keyed : S.Keyed entry)
    (found : t.bktPool.firstTagged (entryKeyhash entry 0) = none) : entryKey entry ∉ dir.map Item.key := by
  intro member
  obtain ⟨it, inside, same⟩ := Multiset.mem_map.mp member
  exact holds.absent keyed.hash (fun e => BucketPool.untagged found) it inside same

/-- A get of a key the loops come to. -/
theorem gets {S : Setting σ} {t : KvTable σ} {dir : Multiset Item} {leaked : Nat → Multiset (Nat × Nat)}
    {fuel : Nat} {entry : Mem} (holds : S.Holds t dir leaked) (keyed : S.Keyed entry) (clear : t.Clear entry)
    (enough : t.bktPool.spareSize < fuel) :
    (entryKey entry ∉ dir.map Item.key ∧ t.getCircularLogEntry fuel entry = .ok (false, entry)) ∨
    ∃ it ∈ dir, it.key = entryKey entry ∧
      t.getCircularLogEntry fuel entry = .ok (true, writeBytes entry 0 it.bytes) := by
  obtain ⟨placed, spares, claimed, chained⟩ := holds.pool
  obtain ⟨fuel, rfl⟩ : ∃ k, fuel = k + 1 := ⟨fuel - 1, by omega⟩
  have search := chained.search_total (entryKeyhash entry 0) (holds.main_lt _) enough
  cases found : t.bktPool.firstTagged (entryKeyhash entry 0) with
  | none =>
    rw [found] at search
    refine Or.inl ⟨holds.missing keyed found, ?_⟩
    simp only [KvTable.getCircularLogEntry, KvTable.getRetry, KvTable.getLoop, getEntryBucket, search,
      ok_bind, ne_eq, not_true_eq_false, if_false]
  | some p =>
    rw [found] at search
    obtain ⟨it, member, tag, place, same⟩ := holds.first_item found
    have stored := holds.stored it member
    have both : matchIndexEntryTag ((t.bktPool.cells p.1).entries p.2).tag (entryKeyhash entry 0) = true ∧
        t.matchCircularLogEntryKey entry ((t.bktPool.cells p.1).entries p.2).offset = true :=
      ⟨matchIndexEntryTag_iff.mpr tag, clear p found⟩
    rw [BucketPool.entry] at place
    refine Or.inr ⟨it, member, same.mp (clear p found), ?_⟩
    simp only [KvTable.getCircularLogEntry, KvTable.getRetry, KvTable.getLoop, getEntryBucket, search,
      ok_bind, ne_eq, not_true_eq_false, if_false, both, and_self, if_true, place, stored.size, stored.bytes]

/-- The loop of a remove ends where the first entry with the tag is that of the key. -/
theorem removeLoop_total {S : Setting σ} {t : KvTable σ} {dir : Multiset Item}
    {leaked : Nat → Multiset (Nat × Nat)} {n fuel : Nat} {entry : Mem} (holds : S.Holds t dir leaked)
    (keyed : S.Keyed entry) (clear : t.Clear entry) (frees : S.Frees) (enough : t.bktPool.spareSize < fuel)
    (some : 0 < n) :
    ∃ r, t.removeLoop S.alloc fuel (S.log (entryKeyhash entry 0)) entry n (getEntryBucket t.bktPool entry) 0 =
      .ok r := by
  obtain ⟨placed, spares, claimed, chained⟩ := holds.pool
  obtain ⟨n, rfl⟩ : ∃ k, n = k + 1 := ⟨n - 1, by omega⟩
  have search := chained.search_total (entryKeyhash entry 0) (holds.main_lt _) enough
  cases found : t.bktPool.firstTagged (entryKeyhash entry 0) with
  | none =>
    rw [found] at search
    exact ⟨(false, t), by simp only [KvTable.removeLoop, getEntryBucket, search, ok_bind]⟩
  | some p =>
    rw [found] at search
    obtain ⟨it, member, tag, place, same⟩ := holds.first_item found
    have hash : it.keyhash = entryKeyhash entry 0 := by
      rw [holds.hashed it member, same.mp (clear p found), keyed.hash]
    obtain ⟨rest, rfl⟩ := Multiset.exists_cons_of_mem member
    have serving := holds.serving _ (holds.logged it member)
    rw [blocks_cons, Function.update_self, Multiset.add_cons, hash] at serving
    obtain ⟨r, freed⟩ := frees keyed.log serving
    have both : matchIndexEntryTag ((t.bktPool.cells p.1).entries p.2).tag (entryKeyhash entry 0) = true ∧
        t.matchCircularLogEntryKey entry ((t.bktPool.cells p.1).entries p.2).offset = true :=
      ⟨matchIndexEntryTag_iff.mpr tag, clear p found⟩
    rw [BucketPool.entry] at place
    simp only [KvTable.removeLoop, getEntryBucket, search, ok_bind, both, and_self, if_true, place, freed]
    exact ⟨_, rfl⟩

/-- So does the remove. -/
theorem remove_total {S : Setting σ} {t : KvTable σ} {dir : Multiset Item} {leaked : Nat → Multiset (Nat × Nat)}
    {fuel : Nat} {entry : Mem} (holds : S.Holds t dir leaked) (keyed : S.Keyed entry) (clear : t.Clear entry)
    (frees : S.Frees) (enough : t.bktPool.spareSize + 1 < fuel) :
    ∃ r, t.removeCircularLogEntry S.alloc fuel (S.log (entryKeyhash entry 0)) entry = .ok r := by
  have main := holds.main_lt (entryKeyhash entry 0)
  obtain ⟨placed, spares, claimed, chained⟩ := holds.pool
  obtain ⟨version, lock⟩ := lockBucket_total t.bktPool (getEntryBucket t.bktPool entry) (show 2 ≤ fuel by omega)
  obtain ⟨r, removal⟩ := (holds.setVersion main version).removeLoop_total keyed
    ((chained.clear_setVersion placed main).mpr clear) frees
    (show t.bktPool.spareSize < fuel by omega) (show 0 < fuel by omega)
  rw [KvTable.removeCircularLogEntry, lock, ok_bind]
  exact ⟨_, bind_eq_ok.mpr ⟨r, removal, rfl⟩⟩

/-- What a finished remove loop leaves to the rest of a put. -/
theorem cleared {S : Setting σ} {t t' : KvTable σ} {dir : Multiset Item} {leaked : Nat → Multiset (Nat × Nat)}
    {n fuel version : Nat} {entry : Mem} {res : Bool} (holds : S.Holds t dir leaked) (keyed : S.Keyed entry)
    (removal : KvTable.removeLoop S.alloc fuel
      (S.log (entryKeyhash entry 0)) entry n
        { t with bktPool := t.bktPool.setVersion (getEntryBucket t.bktPool entry) version }
      (getEntryBucket t.bktPool entry) 0 = .ok (res, t')) :
    S.Cleared t entry dir t'.mem (t'.sfits (S.log (entryKeyhash entry 0))) := by
  obtain ⟨-, -, either⟩ :=
    (holds.setVersion (holds.main_lt (entryKeyhash entry 0)) version).removed keyed.hash removal
  rcases either with ⟨-, rfl, absent⟩ | ⟨-, present, -⟩
  · exact Or.inl ⟨absent, rfl, rfl⟩
  · exact Or.inr present

/-- A put returns where the loop of its remove ends and the allocator answers. -/
theorem put_total {S : Setting σ} {t : KvTable σ} {dir : Multiset Item} {leaked : Nat → Multiset (Nat × Nat)}
    {fuel : Nat} {entry : Mem} (holds : S.Holds t dir leaked) (keyed : S.Keyed entry) (clear : t.Clear entry)
    (frees : S.Frees) (enough : t.bktPool.spareSize + 1 < fuel)
    (answers : ∀ m s, S.Cleared t entry dir m s → ∃ r, S.alloc.get m s (initialSize entry 0 % 2 ^ 32) = .ok r) :
    ∃ r, t.putCircularLogEntry S.alloc fuel (S.log (entryKeyhash entry 0)) entry = .ok r := by
  have main := holds.main_lt (entryKeyhash entry 0)
  obtain ⟨placed, spares, claimed, chained⟩ := holds.pool
  obtain ⟨version, lock⟩ := lockBucket_total t.bktPool (getEntryBucket t.bktPool entry) (show 2 ≤ fuel by omega)
  have locked := holds.setVersion main version
  obtain ⟨⟨ret, t₁⟩, removal⟩ :=
    locked.removeLoop_total keyed ((chained.clear_setVersion placed main).mpr clear) frees
      (show t.bktPool.spareSize < fuel by omega) (show 0 < fuel by omega)
  obtain ⟨held, alike, -⟩ := locked.removed keyed.hash removal
  obtain ⟨⟨newAddr, m', s'⟩, got⟩ :=
    answers t₁.mem (t₁.sfits (S.log (entryKeyhash entry 0))) (holds.cleared keyed removal)
  have bucket := ((t.bktPool.alike_setVersion (getEntryBucket t.bktPool entry) version).trans
    alike).getEntryBucket entry
  have spares : t₁.bktPool.spareSize = t.bktPool.spareSize := alike.spareSize
  obtain ⟨placed₁, spares₁, claimed₁, chained₁⟩ := held.pool
  have inserts : ∀ offset, ∃ r, insertIndexEntry (entryKeyhash entry 0) offset fuel t₁.bktPool
      (getEntryBucket t.bktPool entry) = .ok r := by
    intro offset
    rw [← bucket, getEntryBucket]
    rcases chained₁.insert placed₁ (held.main_lt _) (show t₁.bktPool.spareSize < fuel by omega)
      (entryKeyhash entry 0) offset with
      ⟨pool', _, _, run, -⟩ | ⟨run, -⟩
    · exact ⟨_, run⟩
    · exact ⟨_, run⟩
  rw [KvTable.putCircularLogEntry, lock, ok_bind]
  cases newAddr with
  | none => exact ⟨_, bind_eq_ok.mpr ⟨_, removal, bind_eq_ok.mpr ⟨_, got, rfl⟩⟩⟩
  | some x =>
    obtain ⟨r, inserted⟩ := inserts (sub64 x t₁.baseAddr)
    exact ⟨_, bind_eq_ok.mpr ⟨_, removal, bind_eq_ok.mpr ⟨_, got, bind_eq_ok.mpr ⟨r, inserted, rfl⟩⟩⟩⟩

end Setting.Holds

end Fkv
