import Mathlib.Algebra.BigOperators.Ring.Finset
import Mathlib.Algebra.Order.BigOperators.Group.Finset
import Fkv.Bucket.Trace

namespace Fkv
open CWord Runs

/-- What `dump_bucket` prints. -/
inductive BucketLine
  | entry (tag offset : Nat)
  | spare
  deriving DecidableEq, Repr

def printIndexEntry (e : IndexEntry) : List BucketLine := if isEmptyEntry e then [] else [.entry e.tag e.offset]

def dumpBucket (pool : BucketPool) : Nat → Nat → Except Fault (List BucketLine)
  | 0, _ => .error .outOfFuel
  | fuel + 1, bkt =>
    let lines := (List.range bucketEntrySize).flatMap fun i => printIndexEntry ((pool.cells bkt).entries i)
    match nextSpareBucket pool bkt with
    | some next => do
      let rest ← dumpBucket pool fuel next
      .ok (lines ++ .spare :: rest)
    | none => .ok lines

/-- The dump loop of the test. -/
def dumpMains (fuel : Nat) (pool : BucketPool) : Nat → Nat → Except Fault (List (List BucketLine))
  | _, 0 => .ok []
  | i, n + 1 => do
    let lines ← dumpBucket pool fuel (pool.mainPtr i)
    let rest ← dumpMains fuel pool (i + 1) n
    .ok (lines :: rest)

/-- The search loop of the test: false where it searches on from the NULL that a search
without a match has left. -/
def searchAll (fuel : Nat) (pool : BucketPool) : List IndexArgs → Except Fault Bool
  | [] => .ok true
  | args :: rest => do
    match ← searchIndexEntry pool args.keyhash fuel (pool.mainPtr args.main) 0 with
    | some _ => searchAll fuel pool rest
    | none => .ok false

/-- The arguments of the test's calls: the offset is the number of the round. -/
def testArgs (mainSize : Nat) (keyhashes : List Nat) : List IndexArgs :=
  keyhashes.mapIdx fun i keyhash => ⟨bucketHashPortion keyhash &&& (mainSize - 1), keyhash, i⟩

/-- The test of the index on a pool just created, with what it dumps after the inserts
and after the deletes, or none where it reads through NULL. -/
def testBucket (fuel addr mainSize spareSize : Nat) (keyhashes : List Nat) :
    Except Fault (Option (List (List BucketLine) × List (List BucketLine))) := do
  let calls := testArgs mainSize keyhashes
  let pool ← run (indexStep fuel) (calls.map .insert) (createBucketPool addr mainSize spareSize)
  let inserted ← dumpMains fuel pool 0 mainSize
  let found ← searchAll fuel pool calls
  if found then
    let pool ← run (indexStep fuel) (calls.map .delete) pool
    let deleted ← dumpMains fuel pool 0 mainSize
    .ok (some (inserted, deleted))
  else .ok none

/-- The call returns true. -/
def Inserts (fuel : Nat) (pool : BucketPool) (call : IndexCall) : Prop :=
  ∃ pool', performIndex fuel pool call = .ok (true, pool')

def BucketLine.indexEntry : BucketLine → Option IndexEntry
  | .entry tag offset => some ⟨tag, offset⟩
  | .spare => none

/-- No insert has been turned away: the chains hold `n` pairs, and every bucket with a
spare behind it was full when that was linked. -/
structure Packed (pool : BucketPool) (n : Nat) : Prop where
  placed : pool.Placed
  chained : ∃ spares claimed, Chained pool spares claimed
  dense : ∀ i < pool.mainSize, bucketEntrySize * ((pool.chain i).length - 1) ≤ (pool.contents i).card
  total : ∑ i ∈ Finset.range pool.mainSize, (pool.contents i).card = n

theorem print_entries (entries : List IndexEntry) :
    (entries.flatMap printIndexEntry).filterMap BucketLine.indexEntry =
    entries.filter fun e => isEmptyEntry e = false := by
  induction entries with
  | nil => rfl
  | cons e entries ih =>
    rw [List.flatMap_cons, List.filterMap_append, ih, printIndexEntry]
    cases empty : isEmptyEntry e <;> simp [empty, BucketLine.indexEntry]

theorem bucket_lines (pool : BucketPool) (bkt : Nat) :
    ((List.range bucketEntrySize).flatMap fun i => printIndexEntry ((pool.cells bkt).entries i)).filterMap
      BucketLine.indexEntry =
      ((slotsFrom bkt 0).map pool.entry).filter fun e => isEmptyEntry e = false := by
  rw [← print_entries, List.flatMap_map, slotsFrom, List.flatMap_map, Nat.sub_zero, ← List.range_eq_range']
  rfl

/-- A dump prints what its chain holds, in the order of the slots. -/
theorem dumpBucket_spec {pool : BucketPool} {fuel bkt : Nat} {rest : List Nat}
    (linked : pool.Linked (bkt :: rest)) (enough : rest.length < fuel) :
    ∃ lines, dumpBucket pool fuel bkt = .ok lines ∧ lines.filterMap BucketLine.indexEntry =
      ((slots (bkt :: rest)).map pool.entry).filter fun e => isEmptyEntry e = false := by
  obtain ⟨fuel, rfl⟩ : ∃ k, fuel = k + 1 := ⟨fuel - 1, by omega⟩
  induction rest generalizing bkt fuel with
  | nil =>
    have last : nextSpareBucket pool bkt = none := linked
    refine ⟨_, by rw [dumpBucket, last], ?_⟩
    rw [bucket_lines, slots_cons, slots, List.flatMap_nil, List.append_nil]
  | cons next rest ih =>
    simp only [List.length_cons] at enough
    obtain ⟨fuel, rfl⟩ : ∃ k, fuel = k + 1 := ⟨fuel - 1, by omega⟩
    obtain ⟨lines, dumped, entries⟩ := ih linked.2 fuel (by omega)
    refine ⟨_, by rw [dumpBucket, linked.1]; exact bind_eq_ok.mpr ⟨lines, dumped, rfl⟩, ?_⟩
    rw [List.filterMap_append, bucket_lines, slots_cons, List.map_append, List.filter_append, ← entries]
    rfl

theorem Chained.dump {pool : BucketPool} {spares : Nat → List Nat} {claimed i fuel : Nat}
    (chained : Chained pool spares claimed) (main : i < pool.mainSize) (enough : pool.spareSize < fuel) :
    ∃ lines, dumpBucket pool fuel (pool.mainPtr i) = .ok lines ∧
      (lines.filterMap BucketLine.indexEntry : Multiset IndexEntry) = pool.contents i := by
  have few := chained.length_le main
  have within := chained.within
  obtain ⟨lines, dumped, entries⟩ := dumpBucket_spec (chained.linked i main)
    (show ((spares i).map pool.sparePtr).length < fuel by rw [List.length_map]; omega)
  refine ⟨lines, dumped, ?_⟩
  rw [entries, BucketPool.contents, BucketPool.held, chained.chain_eq main, Multiset.map_coe, Multiset.filter_coe]

theorem Chained.dumpMains {pool : BucketPool} {spares : Nat → List Nat} {claimed i fuel n : Nat}
    (chained : Chained pool spares claimed) (bound : i + n ≤ pool.mainSize) (enough : pool.spareSize < fuel) :
    ∃ dumps, Fkv.dumpMains fuel pool i n = .ok dumps ∧ dumps.map (fun lines =>
      (lines.filterMap BucketLine.indexEntry : Multiset IndexEntry)) = (List.range' i n).map pool.contents := by
  induction n generalizing i with
  | zero => exact ⟨[], rfl, rfl⟩
  | succ n ih =>
    obtain ⟨lines, dumped, entries⟩ := chained.dump (show i < pool.mainSize by omega) enough
    obtain ⟨dumps, rest, all⟩ := ih (show i + 1 + n ≤ pool.mainSize by omega)
    refine ⟨lines :: dumps, by rw [Fkv.dumpMains, dumped, ok_bind, rest, ok_bind], ?_⟩
    rw [List.map_cons, entries, all, List.range'_succ, List.map_cons]

/-- An insert makes its chain no longer, unless it is full, and then by one spare. -/
theorem Chained.insert_chain {pool pool' : BucketPool} {spares : Nat → List Nat}
    {claimed i fuel keyhash offset : Nat} {result : Bool} (chained : Chained pool spares claimed)
    (placed : pool.Placed) (main : i < pool.mainSize)
    (done : insertIndexEntry keyhash offset fuel pool (pool.mainPtr i) = .ok (result, pool')) :
    (pool'.chain i).length = (pool.chain i).length ∨ pool.Full i ∧
    (pool'.chain i).length = (pool.chain i).length + 1 := by
  rcases chained.insert_elim placed main done with ⟨p, slot, -, rfl⟩ | ⟨full, ⟨free, last, end_, rfl⟩ | rfl⟩
  · exact Or.inl (congrArg _ (chained.setEntry_chain placed main slot))
  · have inside : last ∈ pool.chain i := by
      rw [chained.chain_eq main, ← end_]
      exact List.getLast_mem _
    obtain ⟨grown, -⟩ := chained.claimNext_contents placed main free end_
      (Nat.ne_of_lt (chained.last_below placed main inside).2)
    have slot : (pool.sparePtr claimed, 0) ∈ slots ((pool.claimNext last claimed).chain i) := by
      rw [grown, mem_slots]
      exact ⟨by simp, show 0 < bucketEntrySize by decide⟩
    have kept := (chained.claimNext placed main free end_).setEntry_chain
      (e := ⟨lookupKeyTagHashPortion keyhash, offset % 2 ^ 48⟩)
      (show (pool.claimNext last claimed).Placed from ⟨placed.behind, placed.size_lt, placed.end_le⟩) main slot
    refine Or.inr ⟨full, ?_⟩
    rw [kept, grown, List.length_append, List.length_singleton]
  · exact Or.inl rfl

/-- The chains share out the spares claimed. -/
theorem Chained.sum_length {pool : BucketPool} {spares : Nat → List Nat} {claimed : Nat}
    (chained : Chained pool spares claimed) :
    ∑ i ∈ Finset.range pool.mainSize, (spares i).length = claimed := by
  have nodup : ∀ i ∈ Finset.range pool.mainSize, (spares i).toFinset.card = (spares i).length := by
    intro i inside
    exact List.toFinset_card_of_nodup ((chained.upward i (Finset.mem_range.mp inside)).imp
      fun less => Nat.ne_of_lt less)
  rw [← Finset.sum_congr rfl nodup, ← Finset.card_biUnion]
  · have all : (Finset.range pool.mainSize).biUnion (fun i => (spares i).toFinset) = Finset.range claimed := by
      ext k
      simp only [Finset.mem_biUnion, Finset.mem_range, List.mem_toFinset]
      exact chained.owned k
    rw [all, Finset.card_range]
  · intro i inside j inside' different
    refine Finset.disjoint_left.mpr fun k mine theirs => ?_
    exact chained.apart i (by simpa using inside) j (by simpa using inside') different (List.mem_toFinset.mp mine)
      (List.mem_toFinset.mp theirs)

theorem created_contents {i addr mainSize spareSize : Nat} (main : i < mainSize) :
    (createBucketPool addr mainSize spareSize).contents i = 0 := by
  rw [BucketPool.contents, (Chained.created addr mainSize spareSize).chain_eq main]
  exact BucketPool.held_fresh fun _ => rfl

theorem Packed.created (addr mainSize spareSize : Nat) (size : 128 * (mainSize + spareSize) < 2 ^ 32)
    (end_le : addr + 128 * (mainSize + spareSize) ≤ 2 ^ 64) :
    Packed (createBucketPool addr mainSize spareSize) 0 := by
  have chained := Chained.created addr mainSize spareSize
  refine ⟨⟨rfl, size, end_le⟩, ⟨_, 0, chained⟩, fun i main => ?_, Finset.sum_eq_zero fun i inside => ?_⟩
  · rw [chained.chain_eq main]
    exact Nat.zero_le _
  · have main : i < mainSize := Finset.mem_range.mp inside
    rw [created_contents main, Multiset.card_zero]

/-- Packed chains use all spares only when they hold fifteen pairs for each and
for the main bucket of a full one. -/
theorem Packed.room {pool : BucketPool} {spares : Nat → List Nat} {i n : Nat} (packed : Packed pool n)
    (chained : Chained pool spares pool.spareSize) (main : i < pool.mainSize) (full : pool.Full i) :
    bucketEntrySize * (pool.spareSize + 1) ≤ n := by
  have inside := Finset.mem_range.mpr main
  have shares := chained.sum_length
  have total := packed.total
  rw [← Finset.add_sum_erase _ _ inside] at shares total
  have others : ∑ j ∈ (Finset.range pool.mainSize).erase i, bucketEntrySize * (spares j).length ≤
      ∑ j ∈ (Finset.range pool.mainSize).erase i, (pool.contents j).card := by
    refine Finset.sum_le_sum fun j other => ?_
    have within := Finset.mem_range.mp (Finset.mem_of_mem_erase other)
    have dense := packed.dense j within
    rwa [chained.chain_eq within, List.length_cons, List.length_map, Nat.add_sub_cancel] at dense
  have mine := Chained.full_card full
  rw [chained.chain_eq main, List.length_cons, List.length_map] at mine
  rw [← Finset.mul_sum] at others
  simp only [bucketEntrySize] at mine others ⊢
  omega

/-- While there are fewer pairs than that an insert succeeds. -/
theorem Packed.insert {pool : BucketPool} {fuel n : Nat} {args : IndexArgs} (packed : Packed pool n)
    (main : args.main < pool.mainSize) (enough : pool.spareSize < fuel)
    (few : n < bucketEntrySize * (pool.spareSize + 1)) :
    ∃ pool', performIndex fuel pool (.insert args) = .ok (true, pool') ∧
      pool.Alike pool' ∧ Packed pool' (n + 1) := by
  obtain ⟨spares, claimed, chained⟩ := packed.chained
  rcases chained.insert packed.placed main enough args.keyhash args.offset with
    ⟨pool', spares', claimed', run, alike, chained', adds, others, -⟩ | ⟨-, full, rfl⟩
  · refine ⟨pool', run, alike, alike.placed packed.placed, ⟨spares', claimed', chained'⟩, fun j within => ?_, ?_⟩
    · rw [alike.mainSize] at within
      have dense := packed.dense j within
      by_cases here : j = args.main
      · subst here
        rw [adds, Multiset.card_cons]
        rcases chained.insert_chain packed.placed main run with same | ⟨full, longer⟩
        · rw [same]
          omega
        · rw [longer, Nat.add_sub_cancel, Chained.full_card full]
          omega
      · rw [(others j within here).1, (others j within here).contents]
        exact dense
    · have inside := Finset.mem_range.mpr main
      have total := packed.total
      rw [alike.mainSize, ← Finset.add_sum_erase _ _ inside, adds, Multiset.card_cons]
      rw [← Finset.add_sum_erase _ _ inside] at total
      have same : ∑ j ∈ (Finset.range pool.mainSize).erase args.main, (pool'.contents j).card =
          ∑ j ∈ (Finset.range pool.mainSize).erase args.main, (pool.contents j).card := by
        refine Finset.sum_congr rfl fun j other => ?_
        obtain ⟨different, within⟩ := Finset.mem_erase.mp other
        rw [(others j (Finset.mem_range.mp within) different).contents]
      omega
  · exact absurd (packed.room chained main full) (by omega)

/-- So do as many in a row as there is room for. -/
theorem Packed.inserts {pool : BucketPool} {fuel n : Nat} {calls : List IndexArgs} (packed : Packed pool n)
    (main : ∀ args ∈ calls, args.main < pool.mainSize) (enough : pool.spareSize < fuel)
    (few : n + calls.length ≤ bucketEntrySize * (pool.spareSize + 1)) :
    Meets (indexStep fuel) (Inserts fuel) (calls.map .insert) pool ∧
      ∃ pool', run (indexStep fuel) (calls.map .insert) pool = .ok pool' ∧ pool.Alike pool' ∧
        Packed pool' (n + calls.length) := by
  induction calls generalizing pool n with
  | nil => exact ⟨trivial, pool, rfl, .refl pool, packed⟩
  | cons args calls ih =>
    rw [List.length_cons] at few
    obtain ⟨pool₁, perform, alike, packed'⟩ := packed.insert (main args List.mem_cons_self) enough (by omega)
    have step : indexStep fuel pool (.insert args) = .ok pool₁ := by
      simp only [indexStep, perform, ok_bind]
    obtain ⟨meets, pool', rest, alike', packed''⟩ := ih packed'
      (fun later member => by
        rw [alike.mainSize]
        exact main later (List.mem_cons_of_mem _ member))
      (by rwa [alike.spareSize]) (by
        rw [alike.spareSize]
        omega)
    refine ⟨.cons ⟨pool₁, perform⟩ step meets, pool', ?_, alike.trans alike', ?_⟩
    · rw [List.map_cons, run_cons step, rest]
    · rwa [List.length_cons, ← Nat.add_assoc, Nat.add_right_comm]

theorem ledger_inserts {pool : BucketPool} {i fuel : Nat} {calls : List IndexArgs}
    {family : Nat → Multiset IndexEntry}
    (meets : Meets (indexStep fuel) (Inserts fuel) (calls.map .insert) pool) :
    ledger fuel (calls.map .insert) pool family i = family i + pairsOn i calls := by
  induction calls generalizing pool family with
  | nil => exact (add_zero _).symm
  | cons args calls ih =>
    obtain ⟨⟨pool', perform⟩, later⟩ := meets
    have step : indexStep fuel pool (.insert args) = .ok pool' := by
      simp only [indexStep, perform, ok_bind]
    simp only [List.map_cons, ledger, perform]
    rw [ih (later pool' step)]
    by_cases here : args.main = i
    · subst here
      simp [IndexCall.book, pairsOn]
    · simp [IndexCall.book, pairsOn, here, Function.update_of_ne (Ne.symm here)]

theorem pairsOn_replicate (n : Nat) (args : IndexArgs) : (pairsOn args.main (List.replicate n args)).card = n := by
  induction n with
  | zero => rfl
  | succ n ih => rw [List.replicate_succ, pairsOn, if_pos rfl, Multiset.card_cons, ih]

theorem legal_map {calls : List IndexArgs} {mainSize : Nat} {f : IndexArgs → IndexCall}
    (same : ∀ args, (f args).args = args) (legal : ∀ args ∈ calls, args.Legal mainSize) :
    ∀ call ∈ calls.map f, call.args.Legal mainSize := by
  intro call member
  obtain ⟨args, inside, rfl⟩ := List.mem_map.mp member
  rw [same]
  exact legal args inside

/-- From creation on, any inserts that many in number succeed, whatever buckets and
hashes they are for, exactly when there are no more than fifteen for each spare and
fifteen. -/
theorem inserts_succeed_iff (addr mainSize spareSize fuel n : Nat) (mains : 0 < mainSize)
    (size : 128 * (mainSize + spareSize) < 2 ^ 32) (end_le : addr + 128 * (mainSize + spareSize) ≤ 2 ^ 64)
    (enough : spareSize < fuel) :
    (∀ inserts : List IndexArgs, inserts.length = n → (∀ args ∈ inserts, args.main < mainSize) →
      Meets (indexStep fuel) (Inserts fuel) (inserts.map .insert) (createBucketPool addr mainSize spareSize)) ↔
      n ≤ bucketEntrySize * (spareSize + 1) := by
  have packed := Packed.created addr mainSize spareSize size end_le
  constructor
  · intro all
    have legal : ∀ args ∈ List.replicate n (⟨0, 0, 0⟩ : IndexArgs), args.Legal mainSize := by
      intro args member
      rw [List.eq_of_mem_replicate member]
      exact ⟨mains, by decide⟩
    have meets := all _ List.length_replicate fun args member => (legal args member).1
    obtain ⟨-, -, pool, -, ⟨-, spares, claimed, chained⟩, alike, held⟩ :=
      run_ledger ⟨packed.placed, packed.chained⟩ (legal_map (f := .insert) (fun _ => rfl) legal) enough
        fun i inside => created_contents inside
    have same := held 0 mains
    rw [ledger_inserts meets, zero_add] at same
    have main : 0 < pool.mainSize := by
      rw [alike.mainSize]
      exact mains
    have within := chained.within
    have few := chained.length_le main
    have spare : pool.spareSize = spareSize := alike.spareSize
    have count : (pairsOn 0 (List.replicate n ⟨0, 0, 0⟩)).card = n := pairsOn_replicate n ⟨0, 0, 0⟩
    have fewer := BucketPool.contents_card_le pool 0
    rw [same, count, chained.chain_eq main, List.length_cons, List.length_map] at fewer
    exact le_trans fewer (Nat.mul_le_mul_left _ (by omega))
  · intro few inserts count main
    exact (packed.inserts main enough (by rwa [Nat.zero_add, count])).1

theorem inserts_succeed_iff_source :
    (∀ inserts : List IndexArgs, inserts.length = 65536 → (∀ args ∈ inserts, args.main < 8192) →
      Meets (indexStep 8193) (Inserts 8193) (inserts.map .insert) (createBucketPool 4096 8192 8192)) ↔
      65536 ≤ bucketEntrySize * (8192 + 1) :=
  inserts_succeed_iff 4096 8192 8192 8193 65536 (by decide) (by decide) (by decide) (by decide)

/-- A search for the hash of a pair in its chain finds something. -/
theorem Chained.searchAll {pool : BucketPool} {spares : Nat → List Nat} {claimed fuel : Nat}
    {calls : List IndexArgs} (chained : Chained pool spares claimed) (enough : pool.spareSize < fuel)
    (held : ∀ args ∈ calls, args.main < pool.mainSize ∧ args.pair ∈ pool.contents args.main) :
    Fkv.searchAll fuel pool calls = .ok true := by
  induction calls with
  | nil => rfl
  | cons args calls ih =>
    obtain ⟨main, member⟩ := held args List.mem_cons_self
    obtain ⟨-, p, slot, pair⟩ := BucketPool.mem_held.mp member
    have few := chained.length_le main
    have within := chained.within
    have search : searchIndexEntry pool args.keyhash fuel (pool.mainPtr args.main) 0 =
      .ok ((slots (pool.chain args.main)).find?
        fun p => matchIndexEntryTag (pool.entry p).tag args.keyhash) := by
      rw [chained.chain_eq main]
      exact search_spec (chained.linked args.main main) (by rw [List.length_map]; omega)
    rw [Fkv.searchAll, search, ok_bind]
    cases first : (slots (pool.chain args.main)).find?
      (fun p => matchIndexEntryTag (pool.entry p).tag args.keyhash) with
    | some q => exact ih fun later member => held later (List.mem_cons_of_mem _ member)
    | none =>
      refine absurd (matchIndexEntryTag_iff.mpr ?_) (List.find?_eq_none.mp first p slot)
      rw [pair]
      rfl

theorem mem_pairsOn {args : IndexArgs} {calls : List IndexArgs} (member : args ∈ calls) :
    args.pair ∈ pairsOn args.main calls := by
  induction calls with
  | nil => cases member
  | cons first calls ih =>
    rcases List.mem_cons.mp member with rfl | later
    · rw [pairsOn, if_pos rfl]
      exact Multiset.mem_cons_self _ _
    · rw [pairsOn]
      split
      · exact Multiset.mem_cons_of_mem (ih later)
      · exact ih later

theorem testArgs_legal {keyhashes : List Nat} {mainSize : Nat} (mains : 0 < mainSize)
    (small : keyhashes.length ≤ 2 ^ 48) :
    ∀ args ∈ testArgs mainSize keyhashes, args.Legal mainSize := by
  intro args member
  obtain ⟨i, bound, rfl⟩ := List.mem_mapIdx.mp member
  have masked := Nat.and_le_right (n := bucketHashPortion keyhashes[i]) (m := mainSize - 1)
  exact ⟨show bucketHashPortion keyhashes[i] &&& (mainSize - 1) < mainSize by omega, show i < 2 ^ 48 by omega⟩

/-- The test of the index passes, whatever it is given as hashes, if these are no more
than fifteen for each spare and fifteen. What it dumps after the inserts is what it
has inserted, each pair in the chain of its bucket, and after the deletes nothing. -/
theorem testBucket_passes (fuel addr mainSize spareSize : Nat) (keyhashes : List Nat) (mains : 0 < mainSize)
    (size : 128 * (mainSize + spareSize) < 2 ^ 32) (end_le : addr + 128 * (mainSize + spareSize) ≤ 2 ^ 64)
    (enough : spareSize < fuel) (few : keyhashes.length ≤ bucketEntrySize * (spareSize + 1)) :
    ∃ inserted deleted, testBucket fuel addr mainSize spareSize keyhashes = .ok (some (inserted, deleted)) ∧
      inserted.map (fun lines => (lines.filterMap BucketLine.indexEntry : Multiset IndexEntry)) =
        (List.range mainSize).map (pairsOn · (testArgs mainSize keyhashes)) ∧
      deleted.map (fun lines => (lines.filterMap BucketLine.indexEntry : Multiset IndexEntry)) =
        (List.range mainSize).map fun _ => 0 := by
  have packed := Packed.created addr mainSize spareSize size end_le
  have legal : ∀ args ∈ testArgs mainSize keyhashes, args.Legal mainSize :=
    testArgs_legal mains (by unfold bucketEntrySize at few; omega)
  obtain ⟨meets, -⟩ := packed.inserts (fun args member => (legal args member).1) enough
    (by rwa [Nat.zero_add, testArgs, List.length_mapIdx])
  obtain ⟨-, -, pool, filled, kept, alike, held⟩ := run_ledger ⟨packed.placed, packed.chained⟩
    (legal_map (f := .insert) (fun _ => rfl) legal) enough fun i inside => created_contents inside
  have mainSize_eq : pool.mainSize = mainSize := alike.mainSize
  have spareSize_eq : pool.spareSize = spareSize := alike.spareSize
  have holds : ∀ i < pool.mainSize, pool.contents i = pairsOn i (testArgs mainSize keyhashes) := by
    intro i inside
    rw [mainSize_eq] at inside
    rw [held i inside, ledger_inserts meets, zero_add]
  have fuels : pool.spareSize < fuel := by rwa [spareSize_eq]
  have lawful : ∀ args ∈ testArgs mainSize keyhashes, args.Legal pool.mainSize := by rwa [mainSize_eq]
  obtain ⟨placed, spares, claimed, chained⟩ := kept
  obtain ⟨inserted, dumped, entries⟩ := chained.dumpMains (i := 0) (n := mainSize) (by omega) fuels
  have found := chained.searchAll fuels fun args member => ⟨(lawful args member).1, by
    rw [holds args.main (lawful args member).1]
    exact mem_pairsOn member⟩
  obtain ⟨emptied, cleared, none⟩ := run_deletes ⟨placed, spares, claimed, chained⟩ lawful fuels holds
  obtain ⟨-, -, last, again, ⟨-, spares', claimed', chained'⟩, alike', -⟩ :=
    run_ledger ⟨placed, spares, claimed, chained⟩ (legal_map (f := .delete) (fun _ => rfl) lawful) fuels
      fun i _ => rfl
  cases again.symm.trans cleared
  have same : emptied.mainSize = mainSize := alike'.mainSize.trans mainSize_eq
  obtain ⟨deleted, redumped, nothing⟩ := chained'.dumpMains (i := 0) (n := mainSize) (by omega)
    (show emptied.spareSize < fuel by rwa [alike'.spareSize])
  refine ⟨inserted, deleted, ?_, ?_, ?_⟩
  · rw [testBucket, filled, ok_bind, dumped, ok_bind, found, ok_bind, if_pos rfl, cleared, ok_bind, redumped,
      ok_bind]
  · rw [entries, ← List.range_eq_range']
    exact List.map_congr_left fun i inside => holds i (by rw [mainSize_eq]; exact List.mem_range.mp inside)
  · rw [nothing, ← List.range_eq_range']
    exact List.map_congr_left fun i inside => none i (by rw [mainSize_eq]; exact List.mem_range.mp inside)

theorem testBucket_passes_source : ∃ inserted deleted,
    testBucket 8193 4096 8192 8192 (List.replicate 65536 7) = .ok (some (inserted, deleted)) ∧
      inserted.map (fun lines => (lines.filterMap BucketLine.indexEntry : Multiset IndexEntry)) =
        (List.range 8192).map (pairsOn · (testArgs 8192 (List.replicate 65536 7))) ∧
      deleted.map (fun lines => (lines.filterMap BucketLine.indexEntry : Multiset IndexEntry)) =
        (List.range 8192).map fun _ => 0 :=
  testBucket_passes 8193 4096 8192 8192 _ (by decide) (by decide) (by decide) (by decide) (by
    rw [List.length_replicate]
    decide)

end Fkv
