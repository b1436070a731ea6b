import Fkv.Lib.CWord
import Fkv.Fault

namespace Fkv
open CWord

/-- A slot of the index. Tag 0 means empty. -/
structure IndexEntry where
  tag : Nat
  offset : Nat
  deriving DecidableEq, Repr

/-- A bucket of the index. `offset` is the distance to the next bucket of its
chain, 0 for none; version 0 marks an unclaimed spare. -/
structure Bucket where
  version : Nat
  offset : Nat
  entries : Nat → IndexEntry

/-- The pool: the addresses of both arrays and the buckets in memory. -/
structure BucketPool where
  mainSize : Nat
  spareSize : Nat
  mains : Nat
  spares : Nat
  cells : Nat → Bucket

def bucketEntrySize : Nat := 15

def emptyBucket : Bucket := ⟨0, 0, fun _ => ⟨0, 0⟩⟩

/-- The pool as `create_bucket_pool` leaves it in the memory at `addr`. -/
def createBucketPool (addr mainSize spareSize : Nat) : BucketPool :=
  { mainSize := mainSize, spareSize := spareSize, mains := addr, spares := addr + 128 * mainSize,
    cells := fun _ => emptyBucket }

/-- `&bkt_pool->mains[i]`. -/
def BucketPool.mainPtr (pool : BucketPool) (i : Nat) : Nat := pool.mains + 128 * i

/-- `&bkt_pool->spares[i]`. -/
def BucketPool.sparePtr (pool : BucketPool) (i : Nat) : Nat := pool.spares + 128 * i

def BucketPool.setCell (pool : BucketPool) (bkt : Nat) (b : Bucket) : BucketPool :=
  { pool with cells := Function.update pool.cells bkt b }

def BucketPool.setVersion (pool : BucketPool) (bkt version : Nat) : BucketPool :=
  pool.setCell bkt { pool.cells bkt with version := version }

def BucketPool.setLink (pool : BucketPool) (bkt offset : Nat) : BucketPool :=
  pool.setCell bkt { pool.cells bkt with offset := offset }

def BucketPool.setEntry (pool : BucketPool) (bkt i : Nat) (e : IndexEntry) : BucketPool :=
  pool.setCell bkt { pool.cells bkt with entries := Function.update (pool.cells bkt).entries i e }

def lookupKeyTagHashPortion (keyhash : Nat) : Nat :=
  let tag := keyhash &&& 0xffff
  if tag = 0 then 0xffff else tag

def bucketHashPortion (keyhash : Nat) : Nat := (keyhash >>> 16) &&& 0xffffffff

def isEmptyEntry (e : IndexEntry) : Bool := e.tag == 0

def matchIndexEntryTag (tag keyhash : Nat) : Bool := tag ^^^ lookupKeyTagHashPortion keyhash == 0

def matchIndexEntry (e : IndexEntry) (keyhash offset : Nat) : Bool :=
  matchIndexEntryTag e.tag keyhash && e.offset == offset

/-- The first of the `n` slots from `i` on that passes the test. -/
def findSlot (test : IndexEntry → Bool) (b : Bucket) : Nat → Nat → Option Nat
  | _, 0 => none
  | i, n + 1 => if test (b.entries i) then some i else findSlot test b (i + 1) n

def nextSpareBucket (pool : BucketPool) (bkt : Nat) : Option Nat :=
  if (pool.cells bkt).offset = 0 then none else some (add64 bkt (pool.cells bkt).offset)

/-- The loop of `next_empty_spare_bucket` over the `n` spares from `i` on, run by
one thread: its compare-and-swap finds the version it has just read. -/
def nextEmptySpareLoop (pool : BucketPool) : Nat → Nat → Option Nat × BucketPool
  | _, 0 => (none, pool)
  | i, n + 1 =>
    if (pool.cells (pool.sparePtr i)).version ≠ 0 then nextEmptySpareLoop pool (i + 1) n
    else (some (pool.sparePtr i), pool.setVersion (pool.sparePtr i) 2)

def nextEmptySpareBucket (pool : BucketPool) : Option Nat × BucketPool :=
  nextEmptySpareLoop pool 0 pool.spareSize

/-- The slot found, which is also where the cursor of the caller is left, or
none for NULL, which leaves the cursor at NULL and index 0. -/
def searchIndexEntry (pool : BucketPool) (keyhash : Nat) : Nat → Nat → Nat → Except Fault (Option (Nat × Nat))
  | 0, _, _ => .error .outOfFuel
  | fuel + 1, bkt, index =>
    match findSlot (fun e => matchIndexEntryTag e.tag keyhash) (pool.cells bkt) index
      (bucketEntrySize - index) with
    | some i => .ok (some (bkt, i))
    | none =>
      match nextSpareBucket pool bkt with
      | some next => searchIndexEntry pool keyhash fuel next 0
      | none => .ok none

def deleteIndexEntryWithIndex (pool : BucketPool) (bkt index : Nat) : BucketPool :=
  pool.setEntry bkt index ⟨0, 0⟩

def deleteIndexEntry (pool : BucketPool) (keyhash offset : Nat) : Nat → Nat → Except Fault BucketPool
  | 0, _ => .error .outOfFuel
  | fuel + 1, bkt =>
    match findSlot (fun e => matchIndexEntry e keyhash offset) (pool.cells bkt) 0 bucketEntrySize with
    | some i => .ok (deleteIndexEntryWithIndex pool bkt i)
    | none =>
      match nextSpareBucket pool bkt with
      | some next => deleteIndexEntry pool keyhash offset fuel next
      | none => .ok pool

/-- Offsets are kept in 48 bits and links in 32. -/
def insertIndexEntry (keyhash offset : Nat) : Nat → BucketPool → Nat → Except Fault (Bool × BucketPool)
  | 0, _, _ => .error .outOfFuel
  | fuel + 1, pool, bkt =>
    match findSlot isEmptyEntry (pool.cells bkt) 0 bucketEntrySize with
    | some i => .ok (true, pool.setEntry bkt i ⟨lookupKeyTagHashPortion keyhash, offset % 2 ^ 48⟩)
    | none =>
      match nextSpareBucket pool bkt with
      | some next => insertIndexEntry keyhash offset fuel pool next
      | none =>
        match nextEmptySpareBucket pool with
        | (some next, pool) => insertIndexEntry keyhash offset fuel
            (pool.setLink bkt (sub64 next bkt % 2 ^ 32)) next
        | (none, pool) => .ok (false, pool)

theorem BucketPool.mainPtr_inj {pool : BucketPool} {i j : Nat} : pool.mainPtr i = pool.mainPtr j ↔ i = j := by
  simp only [BucketPool.mainPtr]
  omega

theorem BucketPool.sparePtr_inj {pool : BucketPool} {i j : Nat} : pool.sparePtr i = pool.sparePtr j ↔ i = j := by
  simp only [BucketPool.sparePtr]
  omega

end Fkv
