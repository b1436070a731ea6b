import Fkv.City
import Fkv.CircularLog.KeepsOrder

namespace Fkv
open ByteMemory CWord City Refinement Runs

def rssQueueHashPortion (keyhash : Nat) : Nat := (keyhash >>> 48) &&& 0xffff

/-- `thread_mask`, of 16 bits. -/
def threadMask (logSize : Nat) : Nat := (logSize % 2 ^ 16 + 0xffff) % 2 ^ 16

def logIndex (logSize keyhash : Nat) : Nat := rssQueueHashPortion keyhash &&& threadMask logSize

/-- The entry of the put loop of `test_kv_CKCV`, in the memory `malloc` returned. Key
and value are of 8 bytes. -/
def putEntry (raw : Mem) (i : Nat) : Mem :=
  let entry := writeBytes raw 16 [8, 0, 0, 0]
  let entry := writeBytes entry 20 [8, 0, 0, 0]
  let entry := write64 entry (entryData 0) i
  let entry := write64 entry (entryData 0 + 8) i
  let entry := write64 entry 8 (cityHash64 entry (entryData 0) 8).toNat
  write64 entry 0 (32 + keyLength entry 0 + valLength entry 0)

/-- The entry of its get loop: the rest is as `malloc` returned it. -/
def askEntry (raw : Mem) (i : Nat) : Mem :=
  let entry := writeBytes raw 16 [8, 0, 0, 0]
  let entry := write64 entry (entryData 0) i
  write64 entry 8 (cityHash64 entry (entryData 0) 8).toNat

/-- The body of the put loop, which ignores what the put returns. -/
def ckcvPut (fuel : Nat) (raw : Nat → Mem) (t : KvTable SegregatedFits) (i : Nat) :
    Except Fault (KvTable SegregatedFits) := do
  let entry := putEntry (raw i) i
  let (_, t) ← t.putCircularLogEntry segregatedFits fuel (logIndex t.logSize (entryKeyhash entry 0)) entry
  .ok t

/-- The body of the get loop, with its assertions. -/
def ckcvGet (fuel : Nat) (raw : Nat → Mem) (t : KvTable SegregatedFits) (i : Nat) :
    Except Fault (KvTable SegregatedFits) := do
  let asked := askEntry (raw i) i
  let (_, entry) ← t.getCircularLogEntry fuel asked
  if initialSize entry 0 = 48 ∧ keyLength entry 0 = 8 ∧ valLength entry 0 = 8 ∧
    entryKeyhash entry 0 = entryKeyhash asked 0 ∧
      read64 entry (entryData 0) = i ∧ read64 entry (entryData 0 + 8) = i then .ok t
  else .error .assertFailed

/-- `test_kv_CKCV` with `iterNum` for `ITER_NUM`. -/
def testKvCKCV (fuel iterNum : Nat) (raw raw' : Nat → Mem) (t : KvTable SegregatedFits) :
    Except Fault (KvTable SegregatedFits) := do
  let t ← run (ckcvPut fuel raw) (List.range iterNum) t
  run (ckcvGet fuel raw') (List.range iterNum) t

/-- The key of the round of `i`. -/
def ckcvKey (i : Nat) : List UInt8 := readBytes (write64 (fun _ => 0) 0 i) 0 8

/-- The hash of a key. -/
def cityKeyhash (key : List UInt8) : Nat := (cityHash64 (writeBytes (fun _ => 0) 0 key) 0 key.length).toNat

/-- Two rounds have keys of one bucket and one tag. -/
def Collide (mainSize i j : Nat) : Prop :=
  bucketIndex mainSize (cityKeyhash (ckcvKey i)) = bucketIndex mainSize (cityKeyhash (ckcvKey j)) ∧
    lookupKeyTagHashPortion (cityKeyhash (ckcvKey i)) = lookupKeyTagHashPortion (cityKeyhash (ckcvKey j))

instance (mainSize i j : Nat) : Decidable (Collide mainSize i j) := inferInstanceAs (Decidable (_ ∧ _))

theorem write64_at {m : Mem} {a v k : Nat} (bound : k < 8) :
    write64 m a v (a + k) = UInt8.ofNat (v / 256 ^ k) := by
  unfold write64
  rw [if_pos (by omega), Nat.add_sub_cancel_left]

theorem read32_write64_apart {m : Mem} {a b v : Nat} (apart : b + 4 ≤ a ∨ a + 8 ≤ b) :
    read32 (write64 m a v) b = read32 m b :=
  read32_congr fun _ _ _ => write64_apart m (by omega)

theorem read32_eight {m : Mem} {a : Nat} : read32 (writeBytes m a [8, 0, 0, 0]) a = 8 := by
  have bytes := fun (k : Nat) (bound : k < 4) => writeBytes_at m a [8, 0, 0, 0] (i := k) bound
  have first := bytes 0 (by omega)
  rw [Nat.add_zero] at first
  simp only [read32, first, bytes 1 (by omega), bytes 2 (by omega), bytes 3 (by omega)]
  rfl

theorem read32_eight_apart {m : Mem} {a b : Nat} (apart : b + 4 ≤ a ∨ a + 4 ≤ b) :
    read32 (writeBytes m a [8, 0, 0, 0]) b = read32 m b :=
  read32_congr fun _ _ _ => writeBytes_apart m (by simp only [List.length_cons, List.length_nil]; omega)

/-- A copy of `n` bytes holds the words of the original. -/
theorem read64_copy {m m' : Mem} {a n : Nat} (inside : a + 8 ≤ n) :
    read64 (writeBytes m 0 (readBytes m' 0 n)) a = read64 m' a :=
  read64_shift fun k bound => by
    have byte := writeBytes_at m 0 (readBytes m' 0 n) (i := a + k) (by rw [readBytes_length]; omega)
    simp only [Nat.zero_add] at byte
    rw [byte]
    simp [readBytes]

theorem read32_copy {m m' : Mem} {a n : Nat} (inside : a + 4 ≤ n) :
    read32 (writeBytes m 0 (readBytes m' 0 n)) a = read32 m' a :=
  read32_shift fun k bound => by
    have byte := writeBytes_at m 0 (readBytes m' 0 n) (i := a + k) (by rw [readBytes_length]; omega)
    simp only [Nat.zero_add] at byte
    rw [byte]
    simp [readBytes]

/-- The key a round writes is its key wherever it writes it. -/
theorem ckcvKey_agree (m : Mem) (a i : Nat) :
    Agree (write64 m a i) a (writeBytes (fun _ => 0) 0 (ckcvKey i)) 0 8 := by
  intro k bound
  have inside : k < (ckcvKey i).length := by
    rw [ckcvKey, readBytes_length]
    exact bound
  have byte : (ckcvKey i)[k] = write64 (fun _ => 0) 0 i (0 + k) := by simp [ckcvKey, readBytes]
  rw [write64_at bound, writeBytes_at _ _ _ inside, byte, write64_at bound]

theorem ckcvKey_hash (m : Mem) (a i : Nat) : (cityHash64 (write64 m a i) a 8).toNat = cityKeyhash (ckcvKey i) := by
  rw [cityKeyhash, show (ckcvKey i).length = 8 from readBytes_length _ _ _, (ckcvKey_agree m a i).cityHash64]

theorem ckcvKey_inj {i j : Nat} (small : i < 2 ^ 64) (small' : j < 2 ^ 64) (same : ckcvKey i = ckcvKey j) :
    i = j := by
  have words : read64 (write64 (fun _ => 0) 0 i) 0 = read64 (write64 (fun _ => 0) 0 j) 0 :=
    read64_shift fun k bound => by
      have left := readBytes_getElem? (m := write64 (fun _ => 0) 0 i) (a := 0) (n := 8) bound
      have right := readBytes_getElem? (m := write64 (fun _ => 0) 0 j) (a := 0) (n := 8) bound
      rw [← ckcvKey, same, ckcvKey, right] at left
      exact (Option.some.inj left).symm
  rwa [read64_write64_of_lt _ _ small, read64_write64_of_lt _ _ small'] at words

/-- What a put and a get of a round come with. -/
structure Rounds (entry : Mem) (i : Nat) : Prop where
  keyhash : entryKeyhash entry 0 = cityKeyhash (ckcvKey i)
  length : keyLength entry 0 = 8
  key : entryKey entry = ckcvKey i

theorem ckcvKey_read {i : Nat} {entry : Mem} (length : keyLength entry 0 = 8)
    (bytes : ∀ k < 8, entry (entryData 0 + k) = write64 (fun _ => 0) 0 i (0 + k)) :
    entryKey entry = ckcvKey i := by
  rw [entryKey, length, ckcvKey]
  exact readBytes_shift bytes

theorem askEntry_rounds (raw : Mem) (i : Nat) : Rounds (askEntry raw i) i := by
  have length : keyLength (askEntry raw i) 0 = 8 := by
    simp (disch := omega) only [keyLength, askEntry, entryData, read32_write64_apart, read32_eight]
  refine ⟨?_, length, ckcvKey_read length fun k bound => ?_⟩
  · rw [entryKeyhash, askEntry, read64_write64_of_lt _ _ (BitVec.isLt _), ckcvKey_hash]
  · simp only [askEntry]
    rw [write64_apart _ (by simp only [entryData]; omega), write64_at bound, write64_at bound]

theorem putEntry_rounds (raw : Mem) (i : Nat) : Rounds (putEntry raw i) i := by
  have length : keyLength (putEntry raw i) 0 = 8 := by
    simp (disch := omega) only [keyLength, putEntry, entryData, read32_write64_apart, read32_eight,
      read32_eight_apart]
  refine ⟨?_, length, ckcvKey_read length fun k bound => ?_⟩
  · simp only [entryKeyhash, putEntry]
    rw [read64_write64_apart _ (by omega), read64_write64_of_lt _ _ (BitVec.isLt _)]
    rw [← ckcvKey_hash (writeBytes (writeBytes raw 16 [8, 0, 0, 0]) 20 [8, 0, 0, 0]) (entryData 0) i]
    have key : Agree
        (write64 (write64 (writeBytes (writeBytes raw 16 [8, 0, 0, 0]) 20 [8, 0, 0, 0]) (entryData 0) i)
          (entryData 0 + 8) i) (entryData 0)
        (write64 (writeBytes (writeBytes raw 16 [8, 0, 0, 0]) 20 [8, 0, 0, 0]) (entryData 0) i)
        (entryData 0) 8 := fun k bound => write64_apart _ (by omega)
    rw [key.cityHash64]
  · simp only [putEntry]
    rw [write64_apart _ (by simp only [entryData]; omega), write64_apart _ (by simp only [entryData]; omega),
      write64_apart _ (by simp only [entryData]; omega), write64_at bound, write64_at bound]

theorem putEntry_reads {i : Nat} (raw : Mem) (small : i < 2 ^ 64) : initialSize (putEntry raw i) 0 = 48 ∧
    valLength (putEntry raw i) 0 = 8 ∧ read64 (putEntry raw i) (entryData 0) = i ∧
    read64 (putEntry raw i) (entryData 0 + 8) = i := by
  refine ⟨?_, ?_, ?_, ?_⟩
  · simp (disch := omega) only [initialSize, putEntry, keyLength, valLength, entryData, read32_write64_apart,
      read32_eight, read32_eight_apart, read64_write64]
    rfl
  · simp (disch := omega) only [valLength, putEntry, entryData, read32_write64_apart, read32_eight]
  · simp (disch := omega) only [putEntry, entryData, read64_write64_apart, read64_write64_of_lt]
  · simp (disch := omega) only [putEntry, entryData, read64_write64_apart, read64_write64_of_lt]

/-- A put whose key is not met first goes round forever. -/
theorem Setting.Holds.put_stuck {fuel : Nat} {σ : Type} {S : Setting σ} {u : KvTable σ} {dir : Multiset Item}
    {entry : Mem} {leaked : Nat → Multiset (Nat × Nat)} {alloc : Allocator σ} {l : Nat}
    (holds : S.Holds u dir leaked) (stuck : ¬ u.Clear entry) (enough : u.bktPool.spareSize + 1 < fuel) :
    u.putCircularLogEntry alloc fuel l entry = .error .outOfFuel := by
  have main := holds.main_lt (entryKeyhash entry 0)
  obtain ⟨placed, spares, claimed, chained⟩ := holds.pool
  obtain ⟨version, lock⟩ := lockBucket_total u.bktPool (getEntryBucket u.bktPool entry) (show 2 ≤ fuel by omega)
  have locked : ¬ KvTable.Clear
    { u with bktPool := u.bktPool.setVersion (getEntryBucket u.bktPool entry) version } entry :=
    fun clear => stuck ((chained.clear_setVersion placed main).mp clear)
  rw [KvTable.Clear] at locked
  push Not at locked
  obtain ⟨p, first, differs⟩ := locked
  obtain ⟨slot, matching⟩ := BucketPool.firstTagged_some first
  have search := (chained.setVersion placed main version).search_total (entryKeyhash entry 0) main
    (show u.bktPool.spareSize < fuel by omega)
  obtain ⟨n, rfl⟩ : ∃ n, fuel = n + 1 := ⟨fuel - 1, by omega⟩
  have removal : KvTable.removeLoop alloc (n + 1) l entry (n + 1)
      { u with bktPool := u.bktPool.setVersion (getEntryBucket u.bktPool entry) version }
        (getEntryBucket u.bktPool entry) 0 =
      .error .outOfFuel := by
    have found : searchIndexEntry (u.bktPool.setVersion (getEntryBucket u.bktPool entry) version)
      (entryKeyhash entry 0) (n + 1)
        (getEntryBucket u.bktPool entry) 0 = .ok (some p) := search.trans (congrArg Except.ok first)
    rw [KvTable.removeLoop, found, ok_bind]
    refine (if_neg fun both => differs both.2).trans ?_
    exact KvTable.removeLoop_stuck matching (mem_slots.mp slot).2 differs n
  rw [KvTable.putCircularLogEntry, lock, ok_bind, removal, error_bind]

theorem logIndex_lt {n : Nat} (some : 1 ≤ n) (keyhash : Nat) : logIndex n keyhash < n := by
  have below : logIndex n keyhash ≤ threadMask n := Nat.and_le_right
  have mask : threadMask n < n := by
    unfold threadMask
    omega
  omega

theorem Rounds.keyed {L : Logs} {i : Nat} {entry : Mem} (rounds : Rounds entry i) (some : 1 ≤ L.logSize) :
    (L.setting cityKeyhash (logIndex L.logSize)).Keyed entry := by
  refine ⟨?_, logIndex_lt some _⟩
  rw [rounds.key]
  exact rounds.keyhash

/-- What the put of a round stores. -/
def ckcvBytes (raw : Nat → Mem) (i : Nat) : List UInt8 := readBytes (putEntry (raw i) i) 0 48

/-- The table after `n` rounds of puts. -/
structure Filled (L : Logs) (raw : Nat → Mem) (t : KvTable SegregatedFits) (map : KvMap) (items : List Item)
    (n : Nat) : Prop where
  shelved : Shelved .stackOrder L cityKeyhash (logIndex L.logSize) t map items n
  keys : items.map Item.key = (List.range n).reverse.map ckcvKey
  stored : ∀ i < n, map (ckcvKey i) = some (ckcvBytes raw i)

namespace Filled

theorem mem_keys {L : Logs} {t : KvTable SegregatedFits} {map : KvMap} {items : List Item} {raw : Nat → Mem}
    {n : Nat} (filled : Filled L raw t map items n) {key : List UInt8} (member : key ∈ items.map Item.key) :
    ∃ i < n, ckcvKey i = key := by
  rw [filled.keys] at member
  obtain ⟨i, inside, same⟩ := List.mem_map.mp member
  exact ⟨i, List.mem_range.mp (List.mem_reverse.mp inside), same⟩

theorem fresh {L : Logs} {t : KvTable SegregatedFits} {raw : Nat → Mem}
    (fresh : (L.setting cityKeyhash (logIndex L.logSize)).Fresh t)
    (serving : ∀ l < L.logSize, Serves (L.arena l) ⟨t.heap l, []⟩ (L.arena l).fresh) :
    Filled L raw t KvMap.empty [] 0 :=
  ⟨Shelved.fresh fresh serving, rfl, fun _ below => absurd below (Nat.not_lt_zero _)⟩

/-- A round whose key collides with none before. -/
theorem put {L : Logs} {t : KvTable SegregatedFits} {map : KvMap} {items : List Item} {raw : Nat → Mem}
    {n fuel : Nat} (filled : Filled L raw t map items n) (some : 1 ≤ L.logSize)
    (enough : t.bktPool.spareSize + 1 < fuel) (small : n < 2 ^ 64) (room : n < logCapacity)
    (spare : n < t.bktPool.spareSize) (alone : ∀ i < n, ¬ Collide t.bktPool.mainSize i n) :
    ∃ t' map' items', ckcvPut fuel raw t n = .ok t' ∧ Filled L raw t' map' items' (n + 1) ∧
      t.bktPool.Alike t'.bktPool := by
  have rounds := putEntry_rounds (raw n) n
  obtain ⟨size, value, -, -⟩ := putEntry_reads (raw n) small
  have sized : Setting.Sized (putEntry (raw n) n) := by rw [Setting.Sized, size, value, rounds.length]
  have bounded : initialSize (putEntry (raw n) n) 0 ≤ segregatedMaxDataSize := by
    rw [size]
    decide
  have absent : entryKey (putEntry (raw n) n) ∉ items.map Item.key := by
    rw [rounds.key]
    intro member
    obtain ⟨i, below, same⟩ := filled.mem_keys member
    have equal := ckcvKey_inj (below.trans small) small same
    omega
  have order : (KvCall.put (putEntry (raw n) n)).InOrder .stackOrder cityKeyhash
    (logIndex L.logSize) t.bktPool.mainSize
      t.bktPool.spareSize (items.map Item.key) n := by
    refine ⟨fun key member main tag => ?_, fun member => absurd member absent, Nat.zero_le _, ?_,
      Or.inr (Or.inr spare)⟩
    · obtain ⟨i, below, rfl⟩ := filled.mem_keys member
      rw [rounds.keyhash] at main tag
      exact absurd ⟨main, tag⟩ (alone i below)
    · refine lt_of_le_of_lt (List.length_filter_le _ _) ?_
      rw [List.erase_of_not_mem absent, filled.keys]
      simpa using room
  obtain ⟨t', offset, put, after⟩ := filled.shelved.put (rounds.keyed some) sized bounded enough order
  have logs : t.logSize = L.logSize := filled.shelved.holds.logs
  rw [KvCall.tally, if_neg absent] at after
  refine ⟨t', _, _, ?_, ⟨after, ?_, ?_⟩, KvTable.put_alike put⟩
  · rw [ckcvPut, logs, put, ok_bind]
  · have key : (entryItem (putEntry (raw n) n) offset).key = ckcvKey n := rounds.key
    rw [List.map_cons, key, filled.shelved.erased, List.erase_of_not_mem absent, filled.keys, List.range_succ,
      List.reverse_append]
    rfl
  · intro i below
    rw [KvMap.after, rounds.key]
    rcases Nat.lt_or_eq_of_le (Nat.le_of_lt_succ below) with before | rfl
    · rw [Function.update_of_ne]
      · exact filled.stored i before
      · intro same
        have equal := ckcvKey_inj (before.trans small) small same
        omega
    · rw [Function.update_self, size, ckcvBytes]

/-- A round whose key collides with one before. -/
theorem put_never {L : Logs} {t : KvTable SegregatedFits} {map : KvMap} {items : List Item} {raw : Nat → Mem}
    {n i fuel : Nat} (filled : Filled L raw t map items n) (enough : t.bktPool.spareSize + 1 < fuel)
    (small : n < 2 ^ 64) (below : i < n) (collide : Collide t.bktPool.mainSize i n) :
    ckcvPut fuel raw t n = .error .outOfFuel := by
  have rounds := putEntry_rounds (raw n) n
  have stuck : ¬ t.Clear (putEntry (raw n) n) := by
    intro clear
    have member : ckcvKey i ∈ items.map Item.key := by
      rw [filled.keys]
      exact List.mem_map_of_mem (List.mem_reverse.mpr (List.mem_range.mpr below))
    obtain ⟨it, inside, key⟩ := List.mem_map.mp member
    have hashed := filled.shelved.hashed it inside
    rw [key] at hashed
    have main : it.main t.bktPool.mainSize =
      bucketIndex t.bktPool.mainSize (entryKeyhash (putEntry (raw n) n) 0) := by
      rw [Item.main, hashed, rounds.keyhash]
      exact collide.1
    have tag : lookupKeyTagHashPortion it.keyhash =
      lookupKeyTagHashPortion (entryKeyhash (putEntry (raw n) n) 0) := by
      rw [hashed, rounds.keyhash]
      exact collide.2
    have same := filled.shelved.holds.tagged_key filled.shelved.untied clear (Multiset.mem_coe.mpr inside) main tag
    rw [key, rounds.key] at same
    have equal := ckcvKey_inj (below.trans small) small same
    omega
  rw [ckcvPut, filled.shelved.holds.put_stuck stuck enough, error_bind]

/-- After the puts every get finds its entry as it was put. -/
theorem get {L : Logs} {t : KvTable SegregatedFits} {map : KvMap} {items : List Item} {raw raw' : Nat → Mem}
    {n i fuel : Nat} (filled : Filled L raw t map items n) (some : 1 ≤ L.logSize)
    (enough : t.bktPool.spareSize + 1 < fuel) (small : n < 2 ^ 64) (below : i < n) :
    ckcvGet fuel raw' t i = .ok t := by
  have rounds := askEntry_rounds (raw' i) i
  have found := filled.stored i below
  rw [← rounds.key] at found
  have got := (filled.shelved.represents enough).finds _ _ (rounds.keyed some) found
  have put := putEntry_rounds (raw i) i
  obtain ⟨size, value, key, data⟩ := putEntry_reads (raw i) (below.trans small)
  rw [ckcvGet, got, ok_bind]
  refine if_pos ⟨?_, ?_, ?_, ?_, ?_, ?_⟩
  · rw [← size]
    exact read64_copy (by omega)
  · rw [← put.length]
    exact read32_copy (by omega)
  · rw [← value]
    exact read32_copy (by omega)
  · rw [rounds.keyhash, ← put.keyhash]
    exact read64_copy (by omega)
  · refine Eq.trans (read64_copy ?_) key
    simp only [entryData]
    omega
  · refine Eq.trans (read64_copy ?_) data
    simp only [entryData]
    omega

/-- The put loop without a collision. -/
theorem puts {L : Logs} {t : KvTable SegregatedFits} {map : KvMap} {items : List Item} {raw : Nat → Mem}
    {n fuel : Nat} (filled : Filled L raw t map items 0) (some : 1 ≤ L.logSize)
    (enough : t.bktPool.spareSize + 1 < fuel) (room : n ≤ logCapacity) (spare : n ≤ t.bktPool.spareSize)
    (alone : ∀ j < n, ∀ i < j, ¬ Collide t.bktPool.mainSize i j) :
    ∃ t' map' items', run (ckcvPut fuel raw) (List.range n) t = .ok t' ∧ Filled L raw t' map' items' n ∧
      t.bktPool.Alike t'.bktPool := by
  induction n with
  | zero => exact ⟨t, map, items, rfl, filled, .refl _⟩
  | succ n ih =>
    obtain ⟨t₁, map₁, items₁, done, filled₁, alike⟩ := ih (by omega) (by omega) fun j below => alone j (by omega)
    have capacity : logCapacity < 2 ^ 64 := by decide
    obtain ⟨t', map', items', put, filled', alike'⟩ :=
      filled₁.put some (by rw [alike.spareSize]; exact enough) (by omega) (by omega)
        (by rw [alike.spareSize]; omega) (by rw [alike.mainSize]; exact alone n (by omega))
    refine ⟨t', map', items', ?_, filled', alike.trans alike'⟩
    rw [List.range_succ, run_append done, run_cons put, run_nil]

/-- The put loop with one. -/
theorem puts_never {L : Logs} {t : KvTable SegregatedFits} {map : KvMap} {items : List Item} {raw : Nat → Mem}
    {n fuel : Nat} (filled : Filled L raw t map items 0) (some : 1 ≤ L.logSize)
    (enough : t.bktPool.spareSize + 1 < fuel) (room : n ≤ logCapacity) (spare : n ≤ t.bktPool.spareSize)
    (collide : ∃ j < n, ∃ i < j, Collide t.bktPool.mainSize i j) :
    run (ckcvPut fuel raw) (List.range n) t = .error .outOfFuel := by
  induction n with
  | zero =>
    obtain ⟨j, below, -⟩ := collide
    exact absurd below (Nat.not_lt_zero j)
  | succ n ih =>
    rw [List.range_succ]
    by_cases before : ∃ j < n, ∃ i < j, Collide t.bktPool.mainSize i j
    · exact run_append_error (ih (by omega) (by omega) before)
    · obtain ⟨j, below, i, earlier, both⟩ := collide
      obtain rfl : j = n := by
        by_contra other
        exact before ⟨j, by omega, i, earlier, both⟩
      have capacity : logCapacity < 2 ^ 64 := by decide
      obtain ⟨t₁, map₁, items₁, done, filled₁, alike⟩ :=
        filled.puts some enough (show j ≤ logCapacity by omega) (by omega) fun k inside i earlier both =>
          before ⟨k, inside, i, earlier, both⟩
      have never := filled₁.put_never (by rw [alike.spareSize]; exact enough) (by omega) earlier
        (by rw [alike.mainSize]; exact both)
      rw [run_append done]
      exact run_cons_error never

/-- The test ends well without a collision, and never with one. -/
theorem outcome {L : Logs} {t : KvTable SegregatedFits} {map : KvMap} {items : List Item} {raw : Nat → Mem}
    {fuel iterNum : Nat} (filled : Filled L raw t map items 0) (raw' : Nat → Mem) (some : 1 ≤ L.logSize)
    (enough : t.bktPool.spareSize + 1 < fuel) (room : iterNum ≤ logCapacity)
    (spare : iterNum ≤ t.bktPool.spareSize) :
    (∀ j < iterNum, ∀ i < j, ¬ Collide t.bktPool.mainSize i j) ∧
    (∃ t', testKvCKCV fuel iterNum raw raw' t = .ok t') ∨
      (∃ j < iterNum, ∃ i < j, Collide t.bktPool.mainSize i j) ∧
      testKvCKCV fuel iterNum raw raw' t = .error .outOfFuel := by
  by_cases collide : ∃ j < iterNum, ∃ i < j, Collide t.bktPool.mainSize i j
  · refine Or.inr ⟨collide, ?_⟩
    rw [testKvCKCV, filled.puts_never some enough room spare collide, error_bind]
  · have alone : ∀ j < iterNum, ∀ i < j, ¬ Collide t.bktPool.mainSize i j :=
      fun j below i earlier both => collide ⟨j, below, i, earlier, both⟩
    have capacity : logCapacity < 2 ^ 64 := by decide
    obtain ⟨t', map', items', done, filled', alike⟩ := filled.puts some enough room spare alone
    refine Or.inl ⟨alone, t', ?_⟩
    rw [testKvCKCV, done, ok_bind]
    refine run_stays fun i inside => ?_
    exact filled'.get some (by rw [alike.spareSize]; exact enough) (by omega) (List.mem_range.mp inside)

end Filled

/-- On a table just created the test of the key-value table ends, with all its
assertions met, exactly when no two of its keys share bucket and tag. With two that
do it never ends. -/
theorem ckcv_passes_iff (L : Logs) (source : Nat → SegregatedFits) (m : Mem)
    (bkts mainSize spareSize fuel iterNum : Nat) (raw raw' : Nat → Mem)
    (selves : ∀ l, (source l).self = (L.arena l).self) (some : 1 ≤ L.logSize) (mains : 1 ≤ mainSize)
    (size : 128 * (mainSize + spareSize) < 2 ^ 32) (mapped : bkts + 128 * (mainSize + spareSize) ≤ 2 ^ 64)
    (enough : spareSize + 1 < fuel) (room : iterNum ≤ logCapacity) (spare : iterNum ≤ spareSize) :
    ∃ t, KvTable.create source m bkts L.baseAddr L.logSize mainSize spareSize = .ok t ∧
      ((∃ t', testKvCKCV fuel iterNum raw raw' t = .ok t') ↔ ∀ j < iterNum, ∀ i < j, ¬ Collide mainSize i j) ∧
      (testKvCKCV fuel iterNum raw raw' t = .error .outOfFuel ↔ ∃ j < iterNum, ∃ i < j, Collide mainSize i j) := by
  obtain ⟨t, created, fresh, pool, serving⟩ :=
    KvTable.create_fresh L cityKeyhash (logIndex L.logSize) source m bkts mainSize spareSize selves mains
      size mapped
  have mainSize : t.bktPool.mainSize = mainSize := by rw [pool]; rfl
  have spareSize : t.bktPool.spareSize = spareSize := by rw [pool]; rfl
  have filled : Filled L raw t KvMap.empty [] 0 := .fresh fresh serving
  have outcome := filled.outcome raw' some (spareSize ▸ enough) room (spareSize ▸ spare)
  rw [mainSize] at outcome
  refine ⟨t, created, ?_⟩
  rcases outcome with ⟨alone, t', passed⟩ | ⟨⟨j, below, i, earlier, both⟩, never⟩
  · refine ⟨iff_of_true ⟨t', passed⟩ alone, iff_of_false (fun never => ?_) ?_⟩
    · cases passed.symm.trans never
    · rintro ⟨j, below, i, earlier, both⟩
      exact alone j below i earlier both
  · refine ⟨iff_of_false ?_ fun alone => alone j below i earlier both,
      iff_of_true never ⟨j, below, i, earlier, both⟩⟩
    rintro ⟨t', passed⟩
    cases passed.symm.trans never

theorem ckcv_passes_iff_one : ∃ t t', KvTable.create (fun _ => smallRaw) (fun _ => 0) 4096 (2 ^ 40) 1 1 2 = .ok t ∧
    testKvCKCV 4 2 (fun _ _ => 7) (fun _ _ => 7) t = .ok t' := by
  obtain ⟨t, created, passes, -⟩ :=
    ckcv_passes_iff oneLog (fun _ => smallRaw) (fun _ => 0) 4096 1 2 4 2 (fun _ _ => 7) (fun _ _ => 7)
      (fun _ => rfl) le_rfl le_rfl (by decide) (by decide) (by decide) (by decide) le_rfl
  obtain ⟨t', passed⟩ := passes.mpr (by decide +kernel)
  exact ⟨t, t', created, passed⟩

/-- As it stands in the source, with 491520 rounds, 6 << 18 main buckets and 2 << 18
spares, the test never gets past its put loop, on any number of cores: the keys of
the rounds 105776 and 449922 share bucket and tag. -/
theorem ckcv_never_ends (L : Logs) (source : Nat → SegregatedFits) (m : Mem) (bkts fuel : Nat)
    (raw raw' : Nat → Mem) (selves : ∀ l, (source l).self = (L.arena l).self) (some : 1 ≤ L.logSize)
    (mapped : bkts + 128 * (6 <<< 18 + 2 <<< 18) ≤ 2 ^ 64) (enough : 2 <<< 18 + 1 < fuel) :
    ∃ t, KvTable.create source m bkts L.baseAddr L.logSize (6 <<< 18) (2 <<< 18) = .ok t ∧
      testKvCKCV fuel 491520 raw raw' t = .error .outOfFuel := by
  obtain ⟨t, created, fresh, pool, serving⟩ :=
    KvTable.create_fresh L cityKeyhash (logIndex L.logSize) source m bkts (6 <<< 18) (2 <<< 18) selves
      (by decide) (by decide) mapped
  have mainSize : t.bktPool.mainSize = 6 <<< 18 := by rw [pool]; rfl
  have spareSize : t.bktPool.spareSize = 2 <<< 18 := by rw [pool]; rfl
  have filled : Filled L raw t KvMap.empty [] 0 := .fresh fresh serving
  have outcome := filled.outcome raw' some (spareSize ▸ enough) (show 491520 ≤ logCapacity by decide)
    (by rw [spareSize]; decide)
  rw [mainSize] at outcome
  refine ⟨t, created, ?_⟩
  rcases outcome with ⟨alone, -⟩ | ⟨-, never⟩
  · exact absurd (by decide +kernel : Collide (6 <<< 18) 105776 449922)
      (alone 449922 (by decide) 105776 (by decide))
  · exact never

end Fkv
