import Fkv.Bucket.Threads

namespace Fkv
open CWord Runs

/-- The pool has the buckets of that chain. -/
def BucketPool.Agrees (q pool : BucketPool) (i : Nat) : Prop := ∀ bkt ∈ q.chain i, pool.cells bkt = q.cells bkt

/-- The first spares are claimed, the others as creation left them. -/
structure BucketPool.Claimed (pool : BucketPool) (claimed : Nat) : Prop where
  taken : ∀ k < claimed, (pool.cells (pool.sparePtr k)).version ≠ 0
  fresh : ∀ k < pool.spareSize, claimed ≤ k → pool.cells (pool.sparePtr k) = emptyBucket

/-- Where a call is after `n` accesses. What is settled is done in `q`. -/
inductive IndexThread.Stage (q pool : BucketPool) (claimed n : Nat) : IndexThread → Prop
  | slot {call bkt index before behind} (agrees : q.Agrees pool call.args.main)
      (chain : q.chain call.args.main = before ++ bkt :: behind) (inside : index < bucketEntrySize)
      (passed : ∀ p ∈ slots before, call.test (q.entry p) = false)
      (skipped : ∀ k < index, call.test (q.entry (bkt, k)) = false) (paced : n ≤ 17 * before.length + index) :
      Stage q pool claimed n ⟨call, false, .slot bkt index⟩
  | link {call bkt before behind} (agrees : q.Agrees pool call.args.main)
      (chain : q.chain call.args.main = before ++ bkt :: behind)
      (passed : ∀ p ∈ slots (before ++ [bkt]), call.test (q.entry p) = false)
      (paced : n ≤ 17 * before.length + 15) :
      Stage q pool claimed n ⟨call, false, .link bkt⟩
  | follow {call bkt before behind} (agrees : q.Agrees pool call.args.main)
      (chain : q.chain call.args.main = before ++ bkt :: behind)
      (passed : ∀ p ∈ slots (before ++ [bkt]), call.test (q.entry p) = false)
      (linked : (pool.cells bkt).offset ≠ 0) (paced : n ≤ 17 * before.length + 16) :
      Stage q pool claimed n ⟨call, false, .follow bkt⟩
  | spare {args bkt k before} (agrees : q.Agrees pool args.main) (chain : q.chain args.main = before ++ [bkt])
      (full : q.Full args.main) (behind : k ≤ claimed)
      (paced : n ≤ 17 * before.length + 16 + 2 * k) : Stage q pool claimed n ⟨.insert args, false, .spare bkt k⟩
  | swap {args bkt k before} (agrees : q.Agrees pool args.main) (chain : q.chain args.main = before ++ [bkt])
      (full : q.Full args.main) (behind : k ≤ claimed) (inside : k < q.spareSize)
      (paced : n ≤ 17 * before.length + 17 + 2 * k) :
      Stage q pool claimed n ⟨.insert args, false, .swap bkt k⟩
  | join {args bkt next} (member : bkt ∈ q.chain args.main) (slot : (next, 0) ∈ slots (q.chain args.main))
      (empty : isEmptyEntry (pool.entry (next, 0)) = true)
      (agrees : q.Agrees ((pool.setLink bkt (sub64 next bkt % 2 ^ 32)).setEntry next 0
        (IndexCall.insert args).leaves) args.main)
      (paced : n ≤ 19 * q.spareSize + 16) : Stage q pool claimed n ⟨.insert args, true, .join bkt next⟩
  | fresh {args bkt} (slot : (bkt, 0) ∈ slots (q.chain args.main))
      (empty : isEmptyEntry (pool.entry (bkt, 0)) = true)
      (agrees : q.Agrees (pool.setEntry bkt 0 (IndexCall.insert args).leaves) args.main)
      (paced : n ≤ 19 * q.spareSize + 17) : Stage q pool claimed n ⟨.insert args, true, .slot bkt 0⟩
  | first {call bkt index} (slot : (bkt, index) ∈ slots (q.chain call.args.main))
      (agrees : q.Agrees (pool.setEntry bkt index call.leaves) call.args.main)
      (paced : n ≤ 19 * q.spareSize + 18) :
      Stage q pool claimed n ⟨call, true, .first bkt index⟩
  | second {call bkt index} (slot : (bkt, index) ∈ slots (q.chain call.args.main))
      (agrees : q.Agrees (pool.setEntry bkt index (call.second (pool.entry (bkt, index)))) call.args.main)
      (paced : n ≤ 19 * q.spareSize + 19) : Stage q pool claimed n ⟨call, true, .second bkt index⟩

/-- The pool is as in `q`, but for what the calls under way have yet to write. -/
structure BucketPool.Tracks (fuel : Nat) (q pool : BucketPool) (spares : Nat → List Nat) (claimed : Nat) :
    Prop where
  placed : q.Placed
  chained : Chained q spares claimed
  alike : q.Alike pool
  claims : pool.Claimed claimed
  enough : q.spareSize < fuel

/-- An access of a call, and what the call does if that is settled by it. -/
structure IndexThread.Moves (fuel : Nat) (q pool : BucketPool) (claimed n : Nat) (th : IndexThread)
    (q' : BucketPool) (claimed' : Nat) (m : IndexMove) : Prop where
  decides : m.decides = [] ∧ q' = q ∨ ∃ result, m.decides = [result] ∧
    performIndex fuel q th.call = .ok (result, q')
  alike : q.Alike q'
  others : ∀ j < q.mainSize, j ≠ th.call.args.main → q.Untouched q' j
  grows : ∀ bkt ∈ q.chain th.call.args.main, bkt ∈ q'.chain th.call.args.main
  kept : ∀ bkt, bkt ∉ q'.chain th.call.args.main → m.pool.cells bkt = pool.cells bkt ∧ q'.cells bkt = q.cells bkt
  claims : claimed ≤ claimed'
  same : m.thread.call = th.call
  owes : th.owed ++ m.decides = m.returns ++ m.thread.owed
  stage : m.thread.busy = true → m.thread.Stage q' m.pool claimed' (n + 1)
  settled : m.thread.busy = false →
    q'.Agrees m.pool th.call.args.main ∧ m.thread.owed = [] ∧ n + 1 ≤ 19 * q'.spareSize + 20

namespace BucketPool

theorem Alike.sparePtr {pool pool' : BucketPool} (alike : pool.Alike pool') (k : Nat) :
    pool'.sparePtr k = pool.sparePtr k := by
  rw [BucketPool.sparePtr, BucketPool.sparePtr, alike.spares]

/-- Writes to equal buckets leave them equal. -/
theorem setEntry_congr {q pool : BucketPool} {bkt next index : Nat} {e : IndexEntry}
    (here : pool.cells bkt = q.cells bkt) (there : pool.cells next = q.cells next) :
    (pool.setEntry bkt index e).cells next = (q.setEntry bkt index e).cells next := by
  simp only [setEntry, setCell, Function.update_apply]
  split
  · rw [here]
  · exact there

theorem setLink_congr {q pool : BucketPool} {bkt next : Nat} (here : pool.cells bkt = q.cells bkt)
    (there : pool.cells next = q.cells next) (offset : Nat) :
    (pool.setLink bkt offset).cells next = (q.setLink bkt offset).cells next := by
  simp only [setLink, setCell, Function.update_apply]
  split
  · rw [here]
  · exact there

theorem setVersion_congr {q pool : BucketPool} {bkt next : Nat} (here : pool.cells bkt = q.cells bkt)
    (there : pool.cells next = q.cells next) (version : Nat) :
    (pool.setVersion bkt version).cells next = (q.setVersion bkt version).cells next := by
  simp only [setVersion, setCell, Function.update_apply]
  split
  · rw [here]
  · exact there

/-- The last write to a slot stays. -/
theorem setEntry_twice {pool : BucketPool} {bkt index : Nat} {e e' : IndexEntry} :
    (pool.setEntry bkt index e').setEntry bkt index e = pool.setEntry bkt index e := by
  simp only [setEntry, setCell, Function.update_self, Function.update_idem]

theorem setVersion_same (pool : BucketPool) (bkt version : Nat) :
    (pool.setVersion bkt version).cells bkt = { pool.cells bkt with version := version } := Function.update_self ..

theorem setVersion_other {pool : BucketPool} {bkt next : Nat} (apart : next ≠ bkt) (version : Nat) :
    (pool.setVersion bkt version).cells next = pool.cells next :=
  Function.update_of_ne apart ..

theorem Claimed.setCell {pool : BucketPool} {claimed bkt : Nat} {b : Bucket} (claims : pool.Claimed claimed)
    (version : b.version = (pool.cells bkt).version)
    (apart : ∀ k < pool.spareSize, claimed ≤ k → bkt ≠ pool.sparePtr k) :
    (pool.setCell bkt b).Claimed claimed := by
  refine ⟨fun k below => ?_, fun k inside free => ?_⟩
  · have taken := claims.taken k below
    change (Function.update pool.cells bkt b (pool.sparePtr k)).version ≠ 0
    rw [Function.update_apply]
    split
    · rename_i here
      rw [version, ← here]
      exact taken
    · exact taken
  · change Function.update pool.cells bkt b (pool.sparePtr k) = _
    rw [Function.update_of_ne (Ne.symm (apart k inside free))]
    exact claims.fresh k inside free

/-- A bucket in the middle of a chain is linked to the one behind. -/
theorem Linked.at {pool : BucketPool} {bkt : Nat} {before behind : List Nat}
    (linked : pool.Linked (before ++ bkt :: behind)) : nextSpareBucket pool bkt = behind.head? := by
  induction before with
  | nil =>
    cases behind with
    | nil => exact linked
    | cons next behind => exact linked.1
  | cons first before ih =>
    cases before with
    | nil => exact ih linked.2
    | cons second before => exact ih linked.2

end BucketPool

/-- Where all slots before fail the test, the first that passes is found. -/
theorem find_slot_at {q : BucketPool} {bkt index : Nat} {before behind : List Nat} {test : IndexEntry → Bool}
    (inside : index < bucketEntrySize) (passed : ∀ p ∈ slots before, test (q.entry p) = false)
    (skipped : ∀ k < index, test (q.entry (bkt, k)) = false) (hit : test (q.entry (bkt, index)) = true) :
    (slots (before ++ bkt :: behind)).find? (fun p => test (q.entry p)) = some (bkt, index) := by
  have none : (slots before).find? (fun p => test (q.entry p)) = none := by
    rw [List.find?_eq_none]
    intro p member
    rw [passed p member]
    decide
  rw [slots_append, List.find?_append, none, Option.none_or, slots_cons, find_slotsFrom test]
  have found : findSlot test (q.cells bkt) 0 bucketEntrySize = some index := by
    have all : ∀ n j, j + n = bucketEntrySize → j ≤ index → findSlot test (q.cells bkt) j n = some index := by
      intro n
      induction n with
      | zero => intro j total low; omega
      | succ n ih =>
        intro j total low
        rw [findSlot]
        rcases Nat.lt_or_eq_of_le low with below | rfl
        · have miss : ¬ test ((q.cells bkt).entries j) = true := by
            have skip := skipped j below
            rw [BucketPool.entry] at skip
            simp [skip]
          rw [if_neg miss]
          exact ih (j + 1) (by omega) below
        · exact if_pos hit
    exact all bucketEntrySize 0 (by omega) (Nat.zero_le _)
  rw [Nat.sub_zero, found]

namespace BucketPool.Tracks

/-- A call that comes to its slot. -/
theorem perform_at {q pool : BucketPool} {spares : Nat → List Nat} {claimed fuel bkt index : Nat}
    {call : IndexCall} {before behind : List Nat} (tracks : Tracks fuel q pool spares claimed)
    (main : call.args.main < q.mainSize) (chain : q.chain call.args.main = before ++ bkt :: behind)
    (inside : index < bucketEntrySize) (passed : ∀ p ∈ slots before, call.test (q.entry p) = false)
    (skipped : ∀ k < index, call.test (q.entry (bkt, k)) = false)
    (hit : call.test (q.entry (bkt, index)) = true) :
    performIndex fuel q call = .ok (true, q.setEntry bkt index call.leaves) := by
  have few := tracks.chained.length_le main
  have within := tracks.chained.within
  have enough := tracks.enough
  have room : ((spares call.args.main).map q.sparePtr).length < fuel := by
    rw [List.length_map]
    omega
  have found : (slots (before ++ bkt :: behind)).find? (fun p => call.test (q.entry p)) = some (bkt, index) :=
    find_slot_at inside passed skipped hit
  rw [← chain, tracks.chained.chain_eq main] at found
  cases call with
  | insert args => exact insert_found args.keyhash args.offset (tracks.chained.linked _ main) room found
  | delete args =>
    have run := delete_spec args.keyhash args.offset (tracks.chained.linked args.main main) room
    have found' : (slots (q.mainPtr args.main :: (spares args.main).map q.sparePtr)).find?
        (fun p => matchIndexEntry (q.entry p) args.keyhash args.offset) = some (bkt, index) := found
    rw [found'] at run
    rw [performIndex]
    exact bind_eq_ok.mpr ⟨_, run, rfl⟩

/-- A delete that comes to the end of its chain. -/
theorem perform_missed {q pool : BucketPool} {spares : Nat → List Nat} {claimed fuel : Nat} {args : IndexArgs}
    (tracks : Tracks fuel q pool spares claimed) (main : args.main < q.mainSize)
    (passed : ∀ p ∈ slots (q.chain args.main), (IndexCall.delete args).test (q.entry p) = false) :
    performIndex fuel q (.delete args) = .ok (true, q) := by
  have few := tracks.chained.length_le main
  have within := tracks.chained.within
  have enough := tracks.enough
  have room : ((spares args.main).map q.sparePtr).length < fuel := by
    rw [List.length_map]
    omega
  have run := delete_spec args.keyhash args.offset (tracks.chained.linked _ main) room
  have none : (slots (q.mainPtr args.main :: (spares args.main).map q.sparePtr)).find?
      (fun p => matchIndexEntry (q.entry p) args.keyhash args.offset) = none := by
    rw [← tracks.chained.chain_eq main, List.find?_eq_none]
    intro p member
    have miss : matchIndexEntry (q.entry p) args.keyhash args.offset = false := passed p member
    simp [miss]
  rw [none] at run
  rw [performIndex]
  exact bind_eq_ok.mpr ⟨_, run, rfl⟩

/-- An insert into a full chain when all spares are claimed. -/
theorem perform_fails {q pool : BucketPool} {spares : Nat → List Nat} {claimed fuel : Nat} {args : IndexArgs}
    (tracks : Tracks fuel q pool spares claimed) (main : args.main < q.mainSize) (full : q.Full args.main)
    (all : claimed = q.spareSize) :
    performIndex fuel q (.insert args) = .ok (false, q) := by
  rcases tracks.chained.insert tracks.placed main tracks.enough args.keyhash args.offset with
    ⟨_, _, _, -, -, -, -, -, room⟩ | ⟨run, -, -⟩
  · exact absurd ⟨full, all⟩ room
  · exact run

/-- An insert into a full chain when the next spare is claimed. -/
theorem perform_extends {q pool : BucketPool} {spares : Nat → List Nat} {claimed fuel bkt : Nat}
    {args : IndexArgs} {before : List Nat} (tracks : Tracks fuel q pool spares claimed)
    (main : args.main < q.mainSize) (chain : q.chain args.main = before ++ [bkt]) (full : q.Full args.main)
    (spare : claimed < q.spareSize) : performIndex fuel q (.insert args) =
      .ok (true, (q.claimNext bkt claimed).setEntry (q.sparePtr claimed) 0 (IndexCall.insert args).leaves) := by
  refine tracks.chained.insert_extends tracks.placed main tracks.enough full spare args.keyhash args.offset ?_
  have last : (q.chain args.main).getLast? = some bkt := by
    rw [chain, List.getLast?_append, List.getLast?_singleton, Option.some_or]
  rw [tracks.chained.chain_eq main, List.getLast?_eq_some_getLast (by simp)] at last
  exact Option.some.inj last

/-- A chain has no more buckets behind its first than there are spares. -/
theorem before_le {q pool : BucketPool} {spares : Nat → List Nat} {claimed fuel bkt i : Nat}
    {before behind : List Nat} (tracks : Tracks fuel q pool spares claimed) (main : i < q.mainSize)
    (chain : q.chain i = before ++ bkt :: behind) : before.length ≤ claimed := by
  have few := tracks.chained.length_le main
  have lengths := congrArg List.length (tracks.chained.chain_eq main)
  rw [chain, List.length_append, List.length_cons, List.length_cons, List.length_map] at lengths
  omega

/-- The buckets of a chain are not among the unclaimed spares. -/
theorem claimed_of_mem {q pool : BucketPool} {spares : Nat → List Nat} {claimed fuel bkt i : Nat}
    (tracks : Tracks fuel q pool spares claimed) (main : i < q.mainSize) (member : bkt ∈ q.chain i) :
    ∀ k < pool.spareSize, claimed ≤ k → bkt ≠ pool.sparePtr k := by
  intro k _ free
  have below := (tracks.chained.last_below tracks.placed main member).2
  rw [tracks.alike.sparePtr]
  simp only [BucketPool.sparePtr] at below ⊢
  omega

/-- A write within a chain. -/
theorem setCell {q pool : BucketPool} {spares : Nat → List Nat} {claimed fuel bkt i : Nat} {b : Bucket}
    (tracks : Tracks fuel q pool spares claimed) (main : i < q.mainSize) (member : bkt ∈ q.chain i)
    (version : b.version = (pool.cells bkt).version) :
    Tracks fuel q (pool.setCell bkt b) spares claimed :=
  ⟨tracks.placed, tracks.chained, tracks.alike.trans ⟨rfl, rfl, rfl, rfl⟩,
    tracks.claims.setCell version (tracks.claimed_of_mem main member), tracks.enough⟩

end BucketPool.Tracks

end Fkv
