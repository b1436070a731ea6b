import Fkv.Bucket.Family
import Fkv.Bucket.Search
import Fkv.CircularLog.Model

namespace Fkv
open ByteMemory CWord Runs

/-- An entry in the log: its key, its bytes and where they lie. -/
structure Item where
  key : List UInt8
  keyhash : Nat
  bytes : List UInt8
  offset : Nat
  deriving DecidableEq

def Item.index (it : Item) : IndexEntry := ⟨lookupKeyTagHashPortion it.keyhash, it.offset⟩

/-- The block of the allocator the entry lies in. -/
def Item.block (base : Nat) (it : Item) : Nat × Nat := (base + it.offset, it.bytes.length)

def Item.main (mainSize : Nat) (it : Item) : Nat := bucketIndex mainSize it.keyhash

/-- The entry at this address is the item. -/
structure Item.Stored (it : Item) (m : Mem) (entry : Nat) : Prop where
  room : 32 + it.key.length ≤ it.bytes.length
  bytes : readBytes m entry it.bytes.length = it.bytes
  size : initialSize m entry = it.bytes.length
  keyhash : entryKeyhash m entry = it.keyhash
  length : keyLength m entry = it.key.length
  key : readBytes m (entryData entry) it.key.length = it.key

def entryKey (entry : Mem) : List UInt8 := readBytes entry (entryData 0) (keyLength entry 0)

/-- The item a put of the entry leaves at an offset. -/
def entryItem (entry : Mem) (offset : Nat) : Item :=
  ⟨entryKey entry, entryKeyhash entry 0, readBytes entry 0 (initialSize entry 0), offset⟩

/-- An entry with these first bytes. -/
def headerEntry (header : List UInt8) : Mem := writeBytes (fun _ => 0) 0 header

/-- No slot for another entry of this hash: the chain is full and no spare is
unclaimed. -/
def BucketPool.Exhausted (pool : BucketPool) (keyhash : Nat) : Prop :=
  pool.Full (bucketIndex pool.mainSize keyhash) ∧ ∀ k < pool.spareSize, (pool.cells (pool.sparePtr k)).version ≠ 0

variable {σ : Type}

/-- An item moves with its bytes. -/
theorem Item.Stored.move {it : Item} {m m' : Mem} {a a' : Nat} (stored : it.Stored m a)
    (same : ∀ k < it.bytes.length, m' (a' + k) = m (a + k)) :
    it.Stored m' a' := by
  obtain ⟨room, bytes, size, keyhash, length, key⟩ := stored
  have shifted : ∀ j k, j + k < it.bytes.length → m' (a' + j + k) = m (a + j + k) := fun j k bound => by
    rw [Nat.add_assoc, Nat.add_assoc]
    exact same (j + k) bound
  refine ⟨room, (readBytes_shift same).trans bytes, ?_, ?_, ?_, ?_⟩
  · exact (read64_shift fun k bound => same k (by omega)).trans size
  · exact (read64_shift fun k bound => shifted 8 k (by omega)).trans keyhash
  · exact (read32_shift fun k bound => shifted 16 k (by omega)).trans length
  · exact (readBytes_shift fun k bound => shifted 32 k (by omega)).trans key

theorem entryItem_stored {entry : Mem} {offset : Nat} (fits : 32 + keyLength entry 0 ≤ initialSize entry 0) :
    (entryItem entry offset).Stored entry 0 := by
  constructor <;> simp [entryItem, entryKey, fits]

/-- The test for equal keys compares the keys. -/
theorem equalCircularLogEntryKey_iff {m m' : Mem} {a a' : Nat} {key key' : List UInt8}
    (length : keyLength m a = key.length) (bytes : readBytes m (entryData a) key.length = key)
    (length' : keyLength m' a' = key'.length) (bytes' : readBytes m' (entryData a') key'.length = key') :
    equalCircularLogEntryKey m a m' a' = true ↔ key = key' := by
  simp only [equalCircularLogEntryKey, Bool.and_eq_true, beq_iff_eq, length, length', bytes]
  constructor
  · rintro ⟨same, equal⟩
    rwa [same, bytes'] at equal
  · rintro rfl
    exact ⟨rfl, bytes'.symm⟩

theorem Item.Stored.match_iff {it : Item} {entry : Mem} {t : KvTable σ} {offset : Nat}
    (stored : it.Stored t.mem (add64 t.baseAddr offset)) :
    t.matchCircularLogEntryKey entry offset = true ↔ it.key = entryKey entry := by
  have length : keyLength entry 0 = (entryKey entry).length := (readBytes_length ..).symm
  have bytes : readBytes entry (entryData 0) (entryKey entry).length = entryKey entry := by rw [← length, entryKey]
  exact (equalCircularLogEntryKey_iff length bytes stored.length stored.key).trans eq_comm

theorem bucketIndex_lt {keyhash mainSize : Nat} (some : 1 ≤ mainSize) (few : mainSize < 2 ^ 32) :
    bucketIndex mainSize keyhash < mainSize := by
  have below : bucketIndex mainSize keyhash ≤ (mainSize + 0xFFFFFFFF) % 2 ^ 32 := Nat.and_le_right
  omega

/-- Locking a bucket writes its version only. -/
theorem lockBucket_ok {pool pool' : BucketPool} {fuel bkt : Nat} (locked : lockBucket fuel pool bkt = .ok pool') :
    ∃ version, pool' = pool.setVersion bkt version := by
  obtain ⟨version, -, done⟩ := bind_eq_ok.mp locked
  exact ⟨version, (Except.ok.inj done).symm⟩

@[simp] theorem BucketPool.setVersion_entries (pool : BucketPool) (bkt version c : Nat) :
    ((pool.setVersion bkt version).cells c).entries = (pool.cells c).entries := by
  by_cases here : c = bkt
  · simp [BucketPool.setVersion, BucketPool.setCell, here]
  · simp [BucketPool.setVersion, BucketPool.setCell, here]

/-- The version of a main bucket has no part in the chains. -/
theorem Chained.setVersion_chain {pool : BucketPool} {spares : Nat → List Nat} {claimed i j : Nat}
    (chained : Chained pool spares claimed) (placed : pool.Placed) (main : i < pool.mainSize)
    (other : j < pool.mainSize) (version : Nat) :
    (pool.setVersion (pool.mainPtr i) version).chain j = pool.chain j := by
  have after : Chained (pool.setVersion (pool.mainPtr i) version) spares claimed :=
    chained.setVersion placed main version
  rw [chained.chain_eq other, after.chain_eq other]
  rfl

theorem Chained.setVersion_contents {pool : BucketPool} {spares : Nat → List Nat} {claimed i j : Nat}
    (chained : Chained pool spares claimed) (placed : pool.Placed) (main : i < pool.mainSize)
    (other : j < pool.mainSize) (version : Nat) :
    (pool.setVersion (pool.mainPtr i) version).contents j = pool.contents j := by
  unfold BucketPool.contents
  rw [chained.setVersion_chain placed main other]
  exact BucketPool.held_congr fun _ _ => BucketPool.setVersion_entries ..

theorem Chained.exhausted_setVersion {pool : BucketPool} {spares : Nat → List Nat} {claimed i keyhash : Nat}
    (chained : Chained pool spares claimed) (placed : pool.Placed) (main : i < pool.mainSize) {version : Nat} :
    (pool.setVersion (pool.mainPtr i) version).Exhausted keyhash ↔ pool.Exhausted keyhash := by
  have other : bucketIndex pool.mainSize keyhash < pool.mainSize := by
    have small := placed.size_lt
    exact bucketIndex_lt (by omega) (by omega)
  have spare : ∀ k, (pool.setVersion (pool.mainPtr i) version).cells (pool.sparePtr k) =
    pool.cells (pool.sparePtr k) :=
    fun k => Function.update_of_ne (Ne.symm (placed.apart main)) _ _
  have full : (pool.setVersion (pool.mainPtr i) version).Full (bucketIndex pool.mainSize keyhash) ↔
      pool.Full (bucketIndex pool.mainSize keyhash) := by
    simp only [BucketPool.Full, chained.setVersion_chain placed main other, BucketPool.entry,
      BucketPool.setVersion_entries]
  refine and_congr full (forall₂_congr fun k _ => ?_)
  show ((pool.setVersion (pool.mainPtr i) version).cells (pool.sparePtr k)).version ≠ 0 ↔ _
  rw [spare]

/-- A search of a chain that returns has found the first entry with the tag. -/
theorem Chained.search_ok {pool : BucketPool} {spares : Nat → List Nat} {claimed i keyhash fuel : Nat}
    {r : Option (Nat × Nat)} (chained : Chained pool spares claimed) (main : i < pool.mainSize)
    (done : searchIndexEntry pool keyhash fuel (pool.mainPtr i) 0 = .ok r) :
    r = (slots (pool.chain i)).find? (fun p => matchIndexEntryTag (pool.entry p).tag keyhash) := by
  rw [chained.chain_eq main]
  exact search_eq (chained.linked i main) done

/-- No entry of the chain has the tag where a search finds none. -/
theorem BucketPool.untagged {pool : BucketPool} {i keyhash : Nat}
    (none : (slots (pool.chain i)).find? (fun p => matchIndexEntryTag (pool.entry p).tag keyhash) = none)
    {e : IndexEntry} (member : e ∈ pool.contents i) : e.tag ≠ lookupKeyTagHashPortion keyhash := by
  obtain ⟨-, p, inside, rfl⟩ := BucketPool.mem_held.mp member
  exact fun same => List.find?_eq_none.mp none p inside (matchIndexEntryTag_iff.mpr same)

/-- An insert that returns added the entry, or found the chain full and no spare
unclaimed. -/
theorem Chained.insert_ok {pool pool' : BucketPool} {spares : Nat → List Nat}
    {claimed i keyhash fuel offset : Nat} {result : Bool} (chained : Chained pool spares claimed)
    (placed : pool.Placed) (main : i < pool.mainSize)
    (done : insertIndexEntry keyhash offset fuel pool (pool.mainPtr i) = .ok (result, pool')) :
    (result = true ∧ pool.Alike pool' ∧ (∃ spares' claimed', Chained pool' spares' claimed') ∧
      pool'.contents i = ⟨lookupKeyTagHashPortion keyhash, offset % 2 ^ 48⟩ ::ₘ pool.contents i ∧
      (∀ j < pool.mainSize, j ≠ i → pool.Untouched pool' j) ∧ ¬ (pool.Full i ∧ claimed = pool.spareSize)) ∨
    (result = false ∧ pool' = pool ∧ pool.Full i ∧ claimed = pool.spareSize) := by
  have longer := insert_more done (pool.spareSize + 1)
  rcases chained.insert placed main (by omega : pool.spareSize < fuel + (pool.spareSize + 1)) keyhash offset with
    ⟨pool'', spares', claimed', run, alike, chained', adds, others, room⟩ | ⟨run, full, all⟩
  · rw [run] at longer
    cases longer
    exact Or.inl ⟨rfl, alike, ⟨spares', claimed', chained'⟩, adds, others, room⟩
  · rw [run] at longer
    cases longer
    exact Or.inr ⟨rfl, rfl, full, all⟩

theorem BucketPool.alike_setVersion (pool : BucketPool) (bkt version : Nat) :
    pool.Alike (pool.setVersion bkt version) :=
  ⟨rfl, rfl, rfl, rfl⟩

theorem BucketPool.Alike.getEntryBucket {pool pool' : BucketPool} (alike : pool.Alike pool') (entry : Mem) :
    getEntryBucket pool' entry = getEntryBucket pool entry := by
  rw [Fkv.getEntryBucket, Fkv.getEntryBucket, BucketPool.mainPtr, BucketPool.mainPtr, alike.mains, alike.mainSize]

theorem BucketPool.alike_setLink (pool : BucketPool) (bkt offset : Nat) : pool.Alike (pool.setLink bkt offset) :=
  ⟨rfl, rfl, rfl, rfl⟩

theorem nextEmptySpareLoop_alike (pool : BucketPool) (i n : Nat) : pool.Alike (nextEmptySpareLoop pool i n).2 := by
  induction n generalizing i with
  | zero => exact .refl pool
  | succ n ih =>
    rw [nextEmptySpareLoop]
    split
    · exact ih (i + 1)
    · exact ⟨rfl, rfl, rfl, rfl⟩

theorem insert_alike {pool : BucketPool} {keyhash fuel bkt offset : Nat} {result : Bool × BucketPool}
    (done : insertIndexEntry keyhash offset fuel pool bkt = .ok result) :
    pool.Alike result.2 := by
  induction fuel generalizing pool bkt with
  | zero => cases done
  | succ fuel ih =>
    rw [insertIndexEntry] at done
    split at done
    · cases done
      exact ⟨rfl, rfl, rfl, rfl⟩
    · split at done
      · exact ih done
      · have claimed := nextEmptySpareLoop_alike pool 0 pool.spareSize
        rw [nextEmptySpareBucket] at done
        split at done
        · rename_i next pool₁ found
          rw [found] at claimed
          exact claimed.trans ((pool₁.alike_setLink _ _).trans (ih done))
        · rename_i pool₁ found
          rw [found] at claimed
          cases done
          exact claimed

namespace KvTable

theorem removeLoop_alike {alloc : Allocator σ} {entry : Mem} {t t' : KvTable σ} {l n fuel bkt index : Nat}
    {res : Bool} (done : t.removeLoop alloc fuel l entry n bkt index = .ok (res, t')) :
    t.bktPool.Alike t'.bktPool := by
  induction n generalizing bkt index with
  | zero => cases done
  | succ n ih =>
    rw [removeLoop] at done
    obtain ⟨found, -, done⟩ := bind_eq_ok.mp done
    cases found with
    | none =>
      cases done
      exact .refl _
    | some p =>
      simp only at done
      split at done
      · obtain ⟨r, -, done⟩ := bind_eq_ok.mp done
        cases done
        exact ⟨rfl, rfl, rfl, rfl⟩
      · exact ih done

/-- No call changes where the buckets lie. -/
theorem remove_alike {alloc : Allocator σ} {entry : Mem} {t t' : KvTable σ} {l fuel : Nat} {res : Bool}
    (done : t.removeCircularLogEntry alloc fuel l entry = .ok (res, t')) : t.bktPool.Alike t'.bktPool := by
  rw [removeCircularLogEntry] at done
  obtain ⟨pool, lock, done⟩ := bind_eq_ok.mp done
  obtain ⟨version, rfl⟩ := lockBucket_ok lock
  obtain ⟨⟨ret, t₁⟩, removal, done⟩ := bind_eq_ok.mp done
  cases done
  exact ((t.bktPool.alike_setVersion _ _).trans (removeLoop_alike removal)).trans (t₁.bktPool.alike_setVersion _ _)

theorem put_alike {alloc : Allocator σ} {entry : Mem} {t t' : KvTable σ} {l fuel : Nat} {res : Bool}
    (done : t.putCircularLogEntry alloc fuel l entry = .ok (res, t')) : t.bktPool.Alike t'.bktPool := by
  rw [putCircularLogEntry] at done
  obtain ⟨pool, lock, done⟩ := bind_eq_ok.mp done
  obtain ⟨version, rfl⟩ := lockBucket_ok lock
  obtain ⟨⟨ret, t₁⟩, removal, done⟩ := bind_eq_ok.mp done
  have first := (t.bktPool.alike_setVersion _ _).trans (removeLoop_alike removal)
  obtain ⟨⟨newAddr, m', s'⟩, -, done⟩ := bind_eq_ok.mp done
  cases newAddr with
  | none =>
    cases done
    exact first
  | some x =>
    simp only at done
    obtain ⟨⟨inserted, pool'⟩, run, done⟩ := bind_eq_ok.mp done
    cases done
    exact (first.trans (insert_alike run)).trans (pool'.alike_setVersion _ _)

/-- At a slot with the tag of the key and another key the loop never ends. -/
theorem removeLoop_stuck {alloc : Allocator σ} {entry : Mem} {t : KvTable σ} {l fuel bkt index : Nat}
    (matching : matchIndexEntryTag (t.bktPool.entry (bkt, index)).tag (entryKeyhash entry 0) = true)
    (inside : index < bucketEntrySize)
    (differs : t.matchCircularLogEntryKey entry (t.bktPool.entry (bkt, index)).offset ≠ true) (n : Nat) :
    t.removeLoop alloc fuel l entry n bkt index = .error .outOfFuel := by
  induction n with
  | zero => rfl
  | succ n ih =>
    cases fuel with
    | zero => rfl
    | succ fuel =>
      rw [removeLoop, search_again matching inside, ok_bind]
      simp only
      rw [if_neg (fun both => differs both.2)]
      exact ih

/-- What the loop has done when it ends. -/
theorem removeLoop_ok {alloc : Allocator σ} {entry : Mem} {t t' : KvTable σ} {spares : Nat → List Nat}
    {claimed i l n fuel : Nat} {res : Bool} (chained : Chained t.bktPool spares claimed)
    (main : i < t.bktPool.mainSize)
    (done : t.removeLoop alloc fuel l entry n (t.bktPool.mainPtr i) 0 = .ok (res, t')) :
    (res = false ∧ t' = t ∧ ∀ e ∈ t.bktPool.contents i, e.tag ≠ lookupKeyTagHashPortion (entryKeyhash entry 0)) ∨
    ∃ p ∈ slots (t.bktPool.chain i), matchIndexEntryTag (t.bktPool.entry p).tag (entryKeyhash entry 0) = true ∧
      t.matchCircularLogEntryKey entry (t.bktPool.entry p).offset = true ∧ res = true ∧ ∃ mem sfits,
        alloc.free t.mem (t.sfits l) (add64 t.baseAddr (t.bktPool.entry p).offset) = .ok (mem, sfits) ∧
        t' = { t with
          mem := mem, bktPool := deleteIndexEntryWithIndex t.bktPool p.1 p.2,
          sfits := Function.update t.sfits l sfits } := by
  cases n with
  | zero => cases done
  | succ n =>
    rw [removeLoop] at done
    obtain ⟨found, search, done⟩ := bind_eq_ok.mp done
    have first := chained.search_ok main search
    cases found with
    | none =>
      obtain ⟨rfl, rfl⟩ := Prod.mk.inj (Except.ok.inj done)
      exact Or.inl ⟨rfl, rfl, fun e => BucketPool.untagged first.symm⟩
    | some p =>
      have member := List.mem_of_find?_eq_some first.symm
      have matching := List.find?_some first.symm
      simp only at done
      split at done
      · rename_i both
        obtain ⟨r, freed, done⟩ := bind_eq_ok.mp done
        obtain ⟨rfl, rfl⟩ := Prod.mk.inj (Except.ok.inj done)
        exact Or.inr ⟨p, member, matching, both.2, rfl, r.1, r.2, freed, rfl⟩
      · rename_i differs
        rw [removeLoop_stuck matching (mem_slots.mp member).2 (fun same => differs ⟨matching, same⟩)] at done
        cases done

end KvTable

end Fkv
