import Fkv.Lib.Memory
import Fkv.Lib.CWord
import Fkv.Fault

namespace Fkv
open ByteMemory CWord

/-- One class of blocks. `next` is the address in `head.next`. -/
structure SegregatedFitsHead where
  next : Nat
  memSize : Nat

/-- The allocator header. `self` is the address malloc gave the struct; the
sentinels `&heads[i].head` are addresses inside it. -/
structure SegregatedFits where
  self : Nat
  addr : Nat
  addrSize : Nat
  len : Nat
  heads : Nat → SegregatedFitsHead

/-- The allocator header together with the memory its partition lies in. -/
structure Heap where
  mem : Mem
  sfits : SegregatedFits

def enomem : Int := 12

/-- `&sfits->heads[i].head`: the header takes 16 bytes and so does each head. -/
def SegregatedFits.headPtr (sfits : SegregatedFits) (i : Nat) : Nat := sfits.self + 16 + 16 * i

def SegregatedFits.setNext (sfits : SegregatedFits) (i p : Nat) : SegregatedFits :=
  { sfits with heads := Function.update sfits.heads i { sfits.heads i with next := p } }

/-- Every use of `heads[index]` passes through this bounds check. -/
def headIndex (sfits : SegregatedFits) (index : Int) : Except Fault Nat :=
  if 0 ≤ index ∧ index < sfits.len then .ok index.toNat else .error .headsOutOfRange

def segregatedFitsIsEmpty (sfits : SegregatedFits) (i : Nat) : Bool :=
  (sfits.heads i).next == sfits.headPtr i

def segregatedFitsClassSize (maxSize : Nat) : Nat :=
  if maxSize &&& 7 ≠ 0 then maxSize / 8 + 1 else maxSize / 8

def segregatedFitsClass (index : Nat) : Nat := (index + 1) % 2 ^ 32 * 8 % 2 ^ 32

def freeBit (x : Nat) : Nat := x &&& 0xFFFFFFFE

def usedBit (x : Nat) : Nat := x ||| 1

/-- The chained assignment `*outer = *inner = v`. -/
def storeBoth (m : Mem) (outer inner v : Nat) : Mem := write64 (write64 m inner v) outer v

def blockSize (m : Mem) (block : Nat) : Nat := freeBit (read64 m (sub64 block 8)) % 2 ^ 32

/-- The signed shift rounds down, as integer division by eight does. -/
def classCeilIndex (size : Nat) : Int :=
  let classIndex := toInt32 size / 8 - 1
  if size &&& 7 ≠ 0 then classIndex + 1 else if classIndex < 0 then 0 else classIndex

def maskAllocatedFlag (m : Mem) (block : Nat) : Mem :=
  let memSize := blockSize m block
  storeBoth m (sub64 block 8) (add64 (sub64 block 16) memSize) (usedBit memSize)

def maskFreeFlag (m : Mem) (block : Nat) : Mem :=
  let memSize := blockSize m block
  storeBoth m (sub64 block 8) (add64 (sub64 block 16) memSize) memSize

def maskFree8Block (m : Mem) (block : Nat) : Mem := write64 m block 8

def maskFree16Block (m : Mem) (block : Nat) : Mem := write64 (write64 m block 16) (add64 block 8) 16

def segregatedFitsInsertBlockHead (h : Heap) (i block : Nat) : Heap :=
  let dataSize := (h.sfits.heads i).memSize
  let memSize := (dataSize + 16) % 2 ^ 32
  let mem := write64 h.mem (sub64 block 8) (freeBit memSize)
  let mem := write64 mem (add64 block dataSize) (freeBit memSize)
  { mem := write64 mem block (h.sfits.heads i).next
    sfits := h.sfits.setNext i block }

/-- `pre->next = value`, where `pre` is the sentinel of class `i` or a block. -/
def Heap.setLink (h : Heap) (i pre value : Nat) : Heap :=
  if pre = h.sfits.headPtr i then { h with sfits := h.sfits.setNext i value }
  else { h with mem := write64 h.mem pre value }

/-- The traversal of `get_segregated_fits_block_with_addr`. -/
def unlinkLoop (h : Heap) (i addr : Nat) : Nat → Nat → Nat → Except Fault Heap
  | 0, _, _ => .error .outOfFuel
  | fuel + 1, pre, next =>
    if next = h.sfits.headPtr i then .error .assertFailed
    else if addr ≠ next then unlinkLoop h i addr fuel next (read64 h.mem next)
    else .ok (h.setLink i pre (read64 h.mem next))

def getSegregatedFitsBlockWithAddr (h : Heap) (i addr : Nat) : Except Fault Heap :=
  if segregatedFitsIsEmpty h.sfits i then .error .assertFailed
  else unlinkLoop h i addr h.sfits.addrSize (h.sfits.headPtr i) (h.sfits.heads i).next

/-- The class index a merge computes from a neighbour's tag. -/
def neighbourIndex (sfits : SegregatedFits) (tag : Nat) : Int :=
  let dataSize := toInt32 (sub64 tag 16)
  let index := if 0 < dataSize then classCeilIndex (toUInt32 dataSize) else -1
  if toInt32 sfits.len ≤ index then toInt32 (sfits.len + 2 ^ 32 - 1) else index

/-- Both merges remove the neighbour they absorb from its free list. -/
def removeNeighbour (h : Heap) (tag listPtr : Nat) : Except Fault Heap :=
  let index := neighbourIndex h.sfits tag
  if 0 ≤ index then do
    let i ← headIndex h.sfits index
    getSegregatedFitsBlockWithAddr h i listPtr
  else .ok h

def mergeBlockForward (h : Heap) (blockTail : Nat) : Except Fault (Bool × Heap) :=
  let maxBlockSize := segregatedFitsClass h.sfits.len
  let headAddr := h.sfits.addr
  let size := freeBit (read64 h.mem blockTail)
  let previousBlockTail := sub64 blockTail size
  if previousBlockTail < headAddr then .ok (false, h)
  else if read64 h.mem previousBlockTail &&& 1 ≠ 0 then .ok (false, h)
  else if read64 h.mem previousBlockTail = (maxBlockSize + 16) % 2 ^ 32 then .ok (false, h)
  else
    let previousHead := add64 (sub64 previousBlockTail (read64 h.mem previousBlockTail)) 8
    if previousHead < headAddr then .error .assertFailed
    else do
      let h ← removeNeighbour h (read64 h.mem previousBlockTail) (add64 previousHead 8)
      let newBlockSize := add64 size (read64 h.mem previousBlockTail)
      .ok (true, { h with mem := storeBoth h.mem previousHead blockTail newBlockSize })

def mergeBlockBackward (h : Heap) (blockHead : Nat) : Except Fault (Bool × Heap) :=
  let maxBlockSize := segregatedFitsClass h.sfits.len
  let tailAddr := add64 h.sfits.addr h.sfits.addrSize
  let size := freeBit (read64 h.mem blockHead)
  let nextBlockHead := add64 blockHead size
  if tailAddr < add64 nextBlockHead 8 then .ok (false, h)
  else if read64 h.mem nextBlockHead &&& 1 ≠ 0 then .ok (false, h)
  else if read64 h.mem nextBlockHead = (maxBlockSize + 16) % 2 ^ 32 then .ok (false, h)
  else
    let nextTail := add64 (sub64 nextBlockHead 8) (read64 h.mem nextBlockHead)
    if tailAddr < add64 nextTail 8 then .error .assertFailed
    else do
      let h ← removeNeighbour h (read64 h.mem nextBlockHead) (add64 nextBlockHead 8)
      let newBlockSize := add64 size (read64 h.mem nextBlockHead)
      .ok (true, { h with mem := storeBoth h.mem blockHead nextTail newBlockSize })

/-- `raw` is the struct as malloc returns it: `addr` and `addr_size` are the
caller's to set. -/
def createSegregatedFits (raw : SegregatedFits) (maxDataSize : Nat) : SegregatedFits :=
  let classSize := segregatedFitsClassSize maxDataSize
  { raw with
    len := classSize
    heads := fun i =>
      if i < classSize then { next := raw.headPtr i, memSize := segregatedFitsClass i } else raw.heads i }

/-- Result code, new address, new size and heap of `segregated_fits_reclassing`. -/
def segregatedFitsReclassing (h : Heap) (addr size : Nat) : Except Fault (Int × Nat × Nat × Heap) :=
  let index : Int := toInt32 (size / 8) - 2 - 1
  let classIndex := if toInt32 h.sfits.len ≤ index then toInt32 h.sfits.len - 1 else index
  let memSize := (toUInt32 classIndex + 2 + 1) % 2 ^ 32 * 8 % 2 ^ 32
  let rest := (size + 2 ^ 32 - memSize) % 2 ^ 32
  if classIndex < 0 then
    if classIndex < -3 then .error .assertFailed
    else
      let mem :=
        if classIndex = -2 then maskFree8Block h.mem addr
        else if classIndex = -1 then maskFree16Block h.mem addr else h.mem
      .ok (enomem, add64 addr memSize, rest, { h with mem := mem })
  else do
    let i ← headIndex h.sfits classIndex
    let h := segregatedFitsInsertBlockHead h i (add64 addr 8)
    if read64 h.mem addr ≠ read64 h.mem (sub64 (add64 addr memSize) 8) then .error .assertFailed
    else if read64 h.mem addr ≠ memSize then .error .assertFailed
    else .ok (if rest = 0 then enomem else 0, add64 addr memSize, rest, h)

/-- `__segregated_fits_reclassing`: the address of the remainder and the heap. -/
def segregatedFitsReclassingInner (h : Heap) (blockHead size : Nat) : Except Fault (Nat × Heap) := do
  let (res, blockHead, size, h) ← segregatedFitsReclassing h blockHead size
  if res < 0 then .ok (blockHead, h)
  else .ok (blockHead, { h with mem := storeBoth h.mem blockHead (sub64 (add64 blockHead size) 8) size })

/-- `__get_segregated_fits_block`: the first block of a class, now marked used. -/
def getSegregatedFitsBlockInner (h : Heap) (i : Nat) : Nat × Heap :=
  let block := (h.sfits.heads i).next
  let sfits := h.sfits.setNext i (read64 h.mem block)
  (block, { mem := maskAllocatedFlag h.mem block, sfits := sfits })

/-- `while (merge_block_backward(sfits, &block_B_head));` -/
def mergeAllBackward (blockHead : Nat) : Nat → Heap → Except Fault Heap
  | 0, _ => .error .outOfFuel
  | fuel + 1, h => do
    let (merged, h) ← mergeBlockBackward h blockHead
    if merged then mergeAllBackward blockHead fuel h else .ok h

/-- The first class with a block among the `n` classes from `i` on. -/
def firstNonEmpty (sfits : SegregatedFits) : Nat → Nat → Option Nat
  | _, 0 => none
  | i, n + 1 => if segregatedFitsIsEmpty sfits i then firstNonEmpty sfits (i + 1) n else some i

/-- The body of the loop in `segregated_fits_divide` for the class `i` it stops at. -/
def divideClass (h : Heap) (classIndex i : Nat) : Except Fault Heap :=
  let buddyClassIndex : Int := (i : Int) - classIndex - 3
  if buddyClassIndex < -2 then .error .assertFailed
  else
    let (block, h) := getSegregatedFitsBlockInner h i
    let size := blockSize h.mem block
    let blockASize := segregatedFitsClass classIndex + 16
    let h := segregatedFitsInsertBlockHead h classIndex block
    let blockBSize := sub64 size blockASize
    let blockBHead := add64 (sub64 block 8) blockASize
    let mem :=
      if 0 ≤ buddyClassIndex then
        storeBoth h.mem (sub64 (add64 blockBHead blockBSize) 8) blockBHead blockBSize
      else if buddyClassIndex = -2 then maskFree8Block h.mem blockBHead
      else maskFree16Block h.mem blockBHead
    do
      let h ← mergeAllBackward blockBHead h.sfits.addrSize { h with mem := mem }
      let buddyClassIndex : Int := toInt32 (read64 h.mem blockBHead / 8) - 3
      if 0 ≤ buddyClassIndex then do
        let j ← headIndex h.sfits buddyClassIndex
        .ok (segregatedFitsInsertBlockHead h j (add64 blockBHead 8))
      else .ok h

def segregatedFitsDivide (h : Heap) (classIndex : Nat) : Except Fault (Bool × Heap) :=
  match firstNonEmpty h.sfits (classIndex + 1) (h.sfits.len - (classIndex + 1)) with
  | none => .ok (false, h)
  | some i => do
    let h ← divideClass h classIndex i
    .ok (true, h)

/-- The block handed out, or none for NULL. -/
def getSegregatedFitsBlock (h : Heap) (dataSize : Nat) : Except Fault (Option Nat × Heap) :=
  let classIndex := classCeilIndex dataSize
  if h.sfits.len < toUInt32 classIndex then .ok (none, h)
  else do
    let i ← headIndex h.sfits classIndex
    let (found, h) ← if segregatedFitsIsEmpty h.sfits i then segregatedFitsDivide h i else .ok (true, h)
    if found then
      let (block, h) := getSegregatedFitsBlockInner h i
      if block = (h.sfits.heads i).next then .error .assertFailed else .ok (some block, h)
    else .ok (none, h)

/-- The first loop of `free_segregated_fits_block`. -/
def forwardLoop (blockTail maxSize : Nat) : Nat → Heap → Except Fault Heap
  | 0, _ => .error .outOfFuel
  | fuel + 1, h => do
    let (merged, h) ← mergeBlockForward h blockTail
    if merged then
      let size := read64 h.mem blockTail % 2 ^ 32
      if maxSize ≤ size then do
        let (_, h) ← segregatedFitsReclassingInner h (add64 (sub64 blockTail size) 8) size
        .ok h
      else forwardLoop blockTail maxSize fuel h
    else .ok h

/-- The second loop of `free_segregated_fits_block`, with the final `block_head`. -/
def backwardLoop (blockHead maxSize : Nat) : Nat → Heap → Except Fault (Nat × Heap)
  | 0, _ => .error .outOfFuel
  | fuel + 1, h => do
    let (merged, h) ← mergeBlockBackward h blockHead
    if merged then
      let size := read64 h.mem blockHead % 2 ^ 32
      if maxSize ≤ size then segregatedFitsReclassingInner h blockHead size
      else backwardLoop blockHead maxSize fuel h
    else .ok (blockHead, h)

def freeSegregatedFitsBlock (h : Heap) (block : Nat) : Except Fault Heap := do
  let h := { h with mem := maskFreeFlag h.mem block }
  let maxSize := (segregatedFitsClass h.sfits.len + 16) % 2 ^ 32
  let blockTail := sub64 (add64 block (blockSize h.mem block)) 16
  let h ← forwardLoop blockTail maxSize (h.sfits.addrSize + 1) h
  let size := read64 h.mem blockTail % 2 ^ 32
  let (blockHead, h) ← backwardLoop (add64 (sub64 blockTail size) 8) maxSize (h.sfits.addrSize + 1) h
  let classIndex := toInt32 (sub64 (read64 h.mem blockHead / 8) 3)
  if classIndex < 0 then .ok h
  else if h.sfits.len < toUInt32 classIndex then .ok h
  else do
    let i ← headIndex h.sfits classIndex
    .ok (segregatedFitsInsertBlockHead h i (add64 blockHead 8))

/-- The loop of `create_circular_log` that carves the partition into blocks. -/
def carveLoop : Nat → Heap → Nat → Nat → Except Fault Heap
  | 0, _, _, _ => .error .outOfFuel
  | fuel + 1, h, addr, size => do
    let (res, addr, size, h) ← segregatedFitsReclassing h addr size
    if 0 < res then .ok h else carveLoop fuel h addr size

/-- The allocator part of `create_circular_log`: a header for the partition
`[head, head + size)` with every whole word of it carved into free blocks. -/
def carve (mem : Mem) (raw : SegregatedFits) (maxDataSize head size : Nat) : Except Fault Heap :=
  let logMemSize := size % 2 ^ 32
  let sfits := { createSegregatedFits raw maxDataSize with addr := head, addrSize := logMemSize }
  carveLoop (logMemSize + 1) { mem := mem, sfits := sfits } head logMemSize

end Fkv
