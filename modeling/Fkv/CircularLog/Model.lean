import Fkv.MemManager.Model
import Fkv.Bucket.Model
import Fkv.CircularLog.Lock

namespace Fkv
open ByteMemory CWord

/-- The fields of the `circular_log_entry` at an address. -/
def initialSize (m : Mem) (entry : Nat) : Nat := read64 m entry

def entryKeyhash (m : Mem) (entry : Nat) : Nat := read64 m (entry + 8)

def keyLength (m : Mem) (entry : Nat) : Nat := read32 m (entry + 16)

def valLength (m : Mem) (entry : Nat) : Nat := read32 m (entry + 20)

/-- `data`, behind a header of 32 bytes. -/
def entryData (entry : Nat) : Nat := entry + 32

def equalCircularLogEntryKey (m₁ : Mem) (entry₁ : Nat) (m₂ : Mem) (entry₂ : Nat) : Bool :=
  keyLength m₁ entry₁ == keyLength m₂ entry₂ &&
    readBytes m₁ (entryData entry₁) (keyLength m₁ entry₁) == readBytes m₂ (entryData entry₂) (keyLength m₁ entry₁)

/-- `CIRCULAR_LOG_SIZE`. -/
def circularLogSize : Nat := 2 ^ 30

/-- What a log uses of its allocator: `get_segregated_fits_block` and
`free_segregated_fits_block` on a memory and the state of an allocator. -/
structure Allocator (σ : Type) where
  get : Mem → σ → Nat → Except Fault (Option Nat × Mem × σ)
  free : Mem → σ → Nat → Except Fault (Mem × σ)

def segregatedFits : Allocator SegregatedFits where
  get m sfits dataSize := do
    let (block, h) ← getSegregatedFitsBlock ⟨m, sfits⟩ dataSize
    .ok (block, h.mem, h.sfits)
  free m sfits block := do
    let h ← freeSegregatedFitsBlock ⟨m, sfits⟩ block
    .ok (h.mem, h.sfits)

/-- A table: the index all logs share, the mapping they lie in and the allocator
of each. An entry passed to a call lies in a memory of its own, at address 0. -/
structure KvTable (σ : Type) where
  mem : Mem
  bktPool : BucketPool
  baseAddr : Nat
  logSize : Nat
  sfits : Nat → σ

def bucketIndex (mainSize keyhash : Nat) : Nat := bucketHashPortion keyhash &&& (mainSize + 0xFFFFFFFF) % 2 ^ 32

def getEntryBucket (pool : BucketPool) (entry : Mem) : Nat :=
  pool.mainPtr (bucketIndex pool.mainSize (entryKeyhash entry 0))

/-- `OPTIMISTIC_LOCK` on a version no other thread changes: the loop goes on
while the swap succeeds. -/
def optimisticLock : Nat → Nat → Except Fault Nat
  | 0, _ => .error .outOfFuel
  | fuel + 1, version =>
    if version = evenVersion version then optimisticLock fuel (oddVersion (evenVersion version)) else .ok version

def optimisticUnlock (version : Nat) : Nat := (version + 1) % 2 ^ 32

def lockBucket (fuel : Nat) (pool : BucketPool) (bkt : Nat) : Except Fault BucketPool := do
  let version ← optimisticLock fuel (pool.cells bkt).version
  .ok (pool.setVersion bkt version)

def unlockBucket (pool : BucketPool) (bkt : Nat) : BucketPool :=
  pool.setVersion bkt (optimisticUnlock (pool.cells bkt).version)

namespace KvTable
variable {σ : Type} (alloc : Allocator σ) (fuel : Nat)

def matchCircularLogEntryKey (t : KvTable σ) (entry : Mem) (offset : Nat) : Bool :=
  equalCircularLogEntryKey entry 0 t.mem (add64 t.baseAddr offset)

/-- The loop of `__remove_circular_log_entry` on log `l`. -/
def removeLoop (l : Nat) (entry : Mem) : Nat → KvTable σ → Nat → Nat → Except Fault (Bool × KvTable σ)
  | 0, _, _, _ => .error .outOfFuel
  | n + 1, t, bkt, index => do
    let found ← searchIndexEntry t.bktPool (entryKeyhash entry 0) fuel bkt index
    match found with
    | none => .ok (false, t)
    | some (bkt, index) =>
      let e := (t.bktPool.cells bkt).entries index
      if matchIndexEntryTag e.tag (entryKeyhash entry 0) ∧ t.matchCircularLogEntryKey entry e.offset then do
        let pool := deleteIndexEntryWithIndex t.bktPool bkt index
        let (mem, sfits) ← alloc.free t.mem (t.sfits l) (add64 t.baseAddr e.offset)
        .ok (true, { t with mem := mem, bktPool := pool, sfits := Function.update t.sfits l sfits })
      else removeLoop l entry n t bkt index

def removeCircularLogEntry (l : Nat) (entry : Mem) (t : KvTable σ) : Except Fault (Bool × KvTable σ) := do
  let bkt := getEntryBucket t.bktPool entry
  let pool ← lockBucket fuel t.bktPool bkt
  let (res, t) ← removeLoop alloc fuel l entry fuel { t with bktPool := pool } bkt 0
  .ok (res, { t with bktPool := unlockBucket t.bktPool bkt })

/-- The result of the insert is ignored, and a put without a block returns with
the bucket locked. -/
def putCircularLogEntry (l : Nat) (entry : Mem) (t : KvTable σ) : Except Fault (Bool × KvTable σ) := do
  let bkt := getEntryBucket t.bktPool entry
  let pool ← lockBucket fuel t.bktPool bkt
  let (_, t) ← removeLoop alloc fuel l entry fuel { t with bktPool := pool } bkt 0
  let entrySize := initialSize entry 0 % 2 ^ 32
  let (newAddr, mem, sfits) ← alloc.get t.mem (t.sfits l) entrySize
  let t := { t with mem := mem, sfits := Function.update t.sfits l sfits }
  match newAddr with
  | none => .ok (false, t)
  | some newAddr =>
    let offset := sub64 newAddr t.baseAddr
    let mem := writeBytes t.mem newAddr (readBytes entry 0 entrySize)
    let (_, pool) ← insertIndexEntry (entryKeyhash entry 0) offset fuel t.bktPool bkt
    .ok (true, { t with mem := mem, bktPool := unlockBucket pool bkt })

/-- The loop of `__get_circular_log_entry`, with the entry it leaves. -/
def getLoop (entry : Mem) : Nat → KvTable σ → Nat → Nat → Except Fault (Bool × Mem)
  | 0, _, _, _ => .error .outOfFuel
  | n + 1, t, bkt, index => do
    let found ← searchIndexEntry t.bktPool (entryKeyhash entry 0) fuel bkt index
    match found with
    | none => .ok (false, entry)
    | some (bkt, index) =>
      let e := (t.bktPool.cells bkt).entries index
      if matchIndexEntryTag e.tag (entryKeyhash entry 0) ∧ t.matchCircularLogEntryKey entry e.offset then
        let dstEntry := add64 t.baseAddr e.offset
        .ok (true, writeBytes entry 0 (readBytes t.mem dstEntry (initialSize t.mem dstEntry)))
      else getLoop entry n t bkt index

/-- The loop of `get_circular_log_entry` on a table no other thread changes. A
second round would start from the entry the first one left. -/
def getRetry (t : KvTable σ) (bkt : Nat) : Nat → Mem → Except Fault (Bool × Mem)
  | 0, _ => .error .outOfFuel
  | n + 1, entry => do
    let versionBegining := (t.bktPool.cells bkt).version
    let (ret, entry) ← getLoop fuel entry fuel t bkt 0
    let versionEnd := (t.bktPool.cells bkt).version
    if versionBegining ≠ versionEnd then getRetry t bkt n entry else .ok (ret, entry)

def getCircularLogEntry (entry : Mem) (t : KvTable σ) : Except Fault (Bool × Mem) :=
  getRetry fuel t (getEntryBucket t.bktPool entry) fuel entry

end KvTable

end Fkv
