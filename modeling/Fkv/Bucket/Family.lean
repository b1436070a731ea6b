import Fkv.Bucket.Pool
import Fkv.Lib.Runs

namespace Fkv
open CWord Runs

/-- The same arrays at the same addresses. -/
structure BucketPool.Alike (pool pool' : BucketPool) : Prop where
  mainSize : pool'.mainSize = pool.mainSize
  spareSize : pool'.spareSize = pool.spareSize
  mains : pool'.mains = pool.mains
  spares : pool'.spares = pool.spares

/-- Arguments of a call on main bucket `main`. -/
structure IndexArgs where
  main : Nat
  keyhash : Nat
  offset : Nat

inductive IndexCall
  | insert (args : IndexArgs)
  | delete (args : IndexArgs)

/-- The pair a call inserts or deletes. -/
def IndexArgs.pair (args : IndexArgs) : IndexEntry := ⟨lookupKeyTagHashPortion args.keyhash, args.offset⟩

def IndexCall.args : IndexCall → IndexArgs
  | .insert args => args
  | .delete args => args

def IndexArgs.Legal (mainSize : Nat) (args : IndexArgs) : Prop := args.main < mainSize ∧ args.offset < 2 ^ 48

/-- The call with its result; a delete has none and counts as true. -/
def performIndex (fuel : Nat) (pool : BucketPool) : IndexCall → Except Fault (Bool × BucketPool)
  | .insert args => insertIndexEntry args.keyhash args.offset fuel pool (pool.mainPtr args.main)
  | .delete args => do
    let pool ← deleteIndexEntry pool args.keyhash args.offset fuel (pool.mainPtr args.main)
    .ok (true, pool)

def indexStep (fuel : Nat) (pool : BucketPool) (call : IndexCall) : Except Fault BucketPool := do
  let (_, pool) ← performIndex fuel pool call
  .ok pool

/-- What a call with its result does to a family of multisets. -/
def IndexCall.book (result : Bool) (family : Nat → Multiset IndexEntry) : IndexCall → Nat → Multiset IndexEntry
  | .insert args =>
    if result then Function.update family args.main (args.pair ::ₘ family args.main) else family
  | .delete args => Function.update family args.main ((family args.main).erase args.pair)

/-- The pairs inserted and not deleted since, for each main bucket. -/
def ledger (fuel : Nat) : List IndexCall → BucketPool → (Nat → Multiset IndexEntry) → Nat → Multiset IndexEntry
  | [], _, family => family
  | call :: rest, pool, family =>
    match performIndex fuel pool call with
    | .ok (result, pool') => ledger fuel rest pool' (call.book result family)
    | .error _ => family

/-- The pairs of the calls on one main bucket. -/
def pairsOn (main : Nat) : List IndexArgs → Multiset IndexEntry
  | [] => 0
  | args :: rest => if args.main = main then args.pair ::ₘ pairsOn main rest else pairsOn main rest

/-- The call returns, acts on its chain as on a multiset and on no other chain.
An insert fails exactly when the chain is full and no spare is unclaimed; then,
and when a delete finds no match, nothing changes. -/
structure Performs (pool : BucketPool) (call : IndexCall) (result : Bool) (pool' : BucketPool) : Prop where
  alike : pool.Alike pool'
  books : pool'.contents call.args.main = call.book result pool.contents call.args.main
  others : ∀ j < pool.mainSize, j ≠ call.args.main → pool.Untouched pool' j
  fails : ∀ args, call = .insert args → (result = false ↔
    pool.Full args.main ∧ ∀ k < pool.spareSize, (pool.cells (pool.sparePtr k)).version ≠ 0)
  failed : ∀ args, call = .insert args → result = false → pool' = pool
  missed : ∀ args, call = .delete args → args.pair ∉ pool.contents args.main → pool' = pool

def IndexCall.Works (fuel : Nat) (pool : BucketPool) (call : IndexCall) : Prop :=
  ∃ result pool', performIndex fuel pool call = .ok (result, pool') ∧ Performs pool call result pool'

theorem BucketPool.Alike.refl (pool : BucketPool) : pool.Alike pool := ⟨rfl, rfl, rfl, rfl⟩

theorem BucketPool.Alike.trans {pool pool' pool'' : BucketPool} (first : pool.Alike pool')
    (second : pool'.Alike pool'') :
    pool.Alike pool'' :=
  ⟨second.mainSize.trans first.mainSize, second.spareSize.trans first.spareSize, second.mains.trans first.mains,
    second.spares.trans first.spares⟩

theorem BucketPool.Alike.placed {pool pool' : BucketPool} (alike : pool.Alike pool') (placed : pool.Placed) :
    pool'.Placed := by
  obtain ⟨mainSize, spareSize, mains, spares⟩ := alike
  refine ⟨?_, ?_, ?_⟩
  · rw [mainSize, mains, spares]
    exact placed.behind
  · rw [mainSize, spareSize]
    exact placed.size_lt
  · rw [mainSize, spareSize, mains]
    exact placed.end_le

theorem BucketPool.Untouched.refl (pool : BucketPool) (j : Nat) : pool.Untouched pool j := ⟨rfl, fun _ _ => rfl⟩

theorem BucketPool.Untouched.trans {pool pool' : BucketPool} {j : Nat} {pool'' : BucketPool}
    (first : pool.Untouched pool' j) (second : pool'.Untouched pool'' j) :
    pool.Untouched pool'' j := by
  refine ⟨second.1.trans first.1, fun bkt member => ?_⟩
  rw [second.2 bkt (first.1 ▸ member), first.2 bkt member]

/-- Filling an empty slot of a chain. -/
theorem Chained.fill {pool : BucketPool} {spares : Nat → List Nat} {claimed i : Nat} {e : IndexEntry}
    {p : Nat × Nat} (chained : Chained pool spares claimed) (placed : pool.Placed) (main : i < pool.mainSize)
    (member : p ∈ slots (pool.chain i)) (empty : isEmptyEntry (pool.entry p) = true)
    (some : isEmptyEntry e = false) :
    (pool.setEntry p.1 p.2 e).contents i = e ::ₘ pool.contents i := by
  unfold BucketPool.contents
  rw [chained.setEntry_chain placed main member]
  exact BucketPool.held_fill (chained.nodup placed main) member empty some

/-- Emptying an occupied slot of a chain. -/
theorem Chained.clear {pool : BucketPool} {spares : Nat → List Nat} {claimed i : Nat} {p : Nat × Nat}
    (chained : Chained pool spares claimed) (placed : pool.Placed) (main : i < pool.mainSize)
    (member : p ∈ slots (pool.chain i)) (some : isEmptyEntry (pool.entry p) = false) :
    pool.contents i = pool.entry p ::ₘ (deleteIndexEntryWithIndex pool p.1 p.2).contents i := by
  unfold BucketPool.contents
  have same : (deleteIndexEntryWithIndex pool p.1 p.2).chain i = pool.chain i :=
    chained.setEntry_chain placed main member
  rw [same]
  exact BucketPool.held_clear (chained.nodup placed main) member some

/-- A spare that was claimed adds nothing to what its chain holds. -/
theorem Chained.claimNext_contents {pool : BucketPool} {spares : Nat → List Nat} {claimed i : Nat}
    (chained : Chained pool spares claimed) (placed : pool.Placed) (main : i < pool.mainSize)
    (spare : claimed < pool.spareSize) {last : Nat}
    (end_ : (pool.mainPtr i :: (spares i).map pool.sparePtr).getLast (by simp) = last)
    (apart : last ≠ pool.sparePtr claimed) :
    (pool.claimNext last claimed).chain i = pool.chain i ++ [pool.sparePtr claimed] ∧
      (pool.claimNext last claimed).contents i = pool.contents i := by
  have after := chained.claimNext placed main spare end_
  have grown : (pool.claimNext last claimed).chain i = pool.chain i ++ [pool.sparePtr claimed] := by
    rw [chained.chain_eq main, after.chain_eq main, Function.update_self, List.map_append]
    rfl
  refine ⟨grown, ?_⟩
  have fresh : (pool.claimNext last claimed).held [pool.sparePtr claimed] = 0 := by
    refine BucketPool.held_fresh fun k => ?_
    rw [BucketPool.claimNext_spare apart, chained.fresh claimed spare le_rfl]
    rfl
  unfold BucketPool.contents
  rw [grown, BucketPool.held_append, fresh, Multiset.add_zero]
  refine BucketPool.held_congr fun bkt member => ?_
  by_cases here : bkt = last
  · rw [here, BucketPool.claimNext_last apart]
  · rw [BucketPool.claimNext_other here (Nat.ne_of_lt (chained.last_below placed main member).2)]

/-- Claiming a spare for one chain leaves the others alone. -/
theorem Chained.claimNext_untouched {pool : BucketPool} {spares : Nat → List Nat} {claimed i j : Nat}
    (chained : Chained pool spares claimed) (placed : pool.Placed) (main : i < pool.mainSize)
    (spare : claimed < pool.spareSize) {last : Nat}
    (end_ : (pool.mainPtr i :: (spares i).map pool.sparePtr).getLast (by simp) = last)
    (inside : last ∈ pool.chain i) (other : j < pool.mainSize) (different : j ≠ i) :
    pool.Untouched (pool.claimNext last claimed) j := by
  refine chained.untouched (chained.claimNext placed main spare end_) other rfl rfl rfl
    (Function.update_of_ne different _ _) fun bkt member => ?_
  refine BucketPool.claimNext_other ?_ (Nat.ne_of_lt (chained.last_below placed other member).2)
  rintro rfl
  exact chained.disjoint placed main other different inside member

/-- The first unclaimed spare is the next to be claimed. -/
theorem Chained.next_some {pool : BucketPool} {spares : Nat → List Nat} {claimed : Nat}
    (chained : Chained pool spares claimed) (spare : claimed < pool.spareSize) :
    nextEmptySpareBucket pool = (some (pool.sparePtr claimed), pool.setVersion (pool.sparePtr claimed) 2) :=
  nextEmptySpareLoop_found (Nat.zero_le claimed) (show claimed < 0 + pool.spareSize by omega)
    (fun k _ below => by rw [chained.claims k below]; decide) (by rw [chained.fresh claimed spare le_rfl]; rfl)

theorem Chained.next_none {pool : BucketPool} {spares : Nat → List Nat} {claimed : Nat}
    (chained : Chained pool spares claimed) (all : claimed = pool.spareSize) :
    nextEmptySpareBucket pool = (none, pool) :=
  nextEmptySpareLoop_none fun k _ below => by rw [chained.claims k (by omega)]; decide

theorem BucketPool.full_iff {pool : BucketPool} {i : Nat} :
    pool.Full i ↔ (slots (pool.chain i)).find? (fun p => isEmptyEntry (pool.entry p)) = none := by
  simp [BucketPool.Full, List.find?_eq_none]

/-- An insert into a full chain links the next unclaimed spare to it. -/
theorem Chained.insert_extends {pool : BucketPool} {spares : Nat → List Nat} {claimed i fuel : Nat}
    (chained : Chained pool spares claimed) (placed : pool.Placed) (main : i < pool.mainSize)
    (enough : pool.spareSize < fuel) (full : pool.Full i) (spare : claimed < pool.spareSize)
    (keyhash offset : Nat) {last : Nat}
    (end_ : (pool.mainPtr i :: (spares i).map pool.sparePtr).getLast (by simp) = last) :
    insertIndexEntry keyhash offset fuel pool (pool.mainPtr i) = .ok (true, (pool.claimNext last claimed).setEntry
      (pool.sparePtr claimed) 0 ⟨lookupKeyTagHashPortion keyhash, offset % 2 ^ 48⟩) := by
  have few := chained.length_le main
  have inside : last ∈ pool.chain i := by
    rw [chained.chain_eq main, ← end_]
    exact List.getLast_mem _
  have search := BucketPool.full_iff.mp full
  rw [chained.chain_eq main] at search
  obtain ⟨left, rfl⟩ : ∃ left, fuel = left + 1 + ((spares i).map pool.sparePtr).length + 1 :=
    ⟨fuel - (spares i).length - 2, by rw [List.length_map]; omega⟩
  have run := insert_full keyhash offset (chained.linked i main) search (left + 1)
  have cell := BucketPool.claimNext_spare (Nat.ne_of_lt (chained.last_below placed main inside).2)
  rw [chained.fresh claimed spare le_rfl] at cell
  have stop : (pool.claimNext last claimed).Linked [pool.sparePtr claimed] := by
    show nextSpareBucket _ _ = none
    rw [nextSpareBucket, cell]
    rfl
  have fills := insert_found keyhash offset stop (Nat.succ_pos left) (find_fresh (by rw [cell]; rfl))
  rw [chained.next_some spare, end_] at run
  exact run.trans fills

/-- Insert, by the three ways it can go. -/
theorem Chained.insert {pool : BucketPool} {spares : Nat → List Nat} {claimed i fuel : Nat}
    (chained : Chained pool spares claimed) (placed : pool.Placed) (main : i < pool.mainSize)
    (enough : pool.spareSize < fuel) (keyhash offset : Nat) :
    (∃ pool' spares' claimed', insertIndexEntry keyhash offset fuel pool (pool.mainPtr i) = .ok (true, pool') ∧
      pool.Alike pool' ∧ Chained pool' spares' claimed' ∧
      pool'.contents i = ⟨lookupKeyTagHashPortion keyhash, offset % 2 ^ 48⟩ ::ₘ pool.contents i ∧
      (∀ j < pool.mainSize, j ≠ i → pool.Untouched pool' j) ∧ ¬ (pool.Full i ∧ claimed = pool.spareSize)) ∨
    (insertIndexEntry keyhash offset fuel pool (pool.mainPtr i) = .ok (false, pool) ∧ pool.Full i ∧
      claimed = pool.spareSize) := by
  have few := chained.length_le main
  have within := chained.within
  have occupied : isEmptyEntry ⟨lookupKeyTagHashPortion keyhash, offset % 2 ^ 48⟩ = false :=
    isEmptyEntry_eq_false.mpr (lookupKeyTagHashPortion_ne_zero keyhash)
  cases search : (slots (pool.chain i)).find? (fun p => isEmptyEntry (pool.entry p)) with
  | some p =>
    have member := List.mem_of_find?_eq_some search
    have empty := List.find?_some search
    rw [chained.chain_eq main] at search
    have room : ((spares i).map pool.sparePtr).length < fuel := by
      rw [List.length_map]
      omega
    have run := insert_found keyhash offset (chained.linked i main) room search
    refine Or.inl ⟨_, spares, claimed, run, ⟨rfl, rfl, rfl, rfl⟩, chained.setEntry placed main member,
      chained.fill placed main member empty occupied, fun j other different =>
      chained.setEntry_untouched placed main member other different, ?_⟩
    rintro ⟨full, -⟩
    exact absurd (full p member) (by simp [empty])
  | none =>
    have full : pool.Full i := BucketPool.full_iff.mpr search
    rcases Nat.lt_or_eq_of_le within with spare | all
    · obtain ⟨last, end_⟩ : ∃ last, (pool.mainPtr i :: (spares i).map pool.sparePtr).getLast (by simp) = last :=
        ⟨_, rfl⟩
      have run := chained.insert_extends placed main enough full spare keyhash offset end_
      have inside : last ∈ pool.chain i := by
        rw [chained.chain_eq main, ← end_]
        exact List.getLast_mem _
      have apart : last ≠ pool.sparePtr claimed := Nat.ne_of_lt (chained.last_below placed main inside).2
      have cell := BucketPool.claimNext_spare apart
      rw [chained.fresh claimed spare le_rfl] at cell
      have placed' : (pool.claimNext last claimed).Placed := ⟨placed.behind, placed.size_lt, placed.end_le⟩
      have chained' := chained.claimNext placed main spare end_
      obtain ⟨grown, kept⟩ := chained.claimNext_contents placed main spare end_ apart
      have member : (pool.sparePtr claimed, 0) ∈ slots ((pool.claimNext last claimed).chain i) := by
        rw [grown, mem_slots]
        exact ⟨by simp, show 0 < bucketEntrySize by decide⟩
      refine Or.inl ⟨_, _, _, run, ⟨rfl, rfl, rfl, rfl⟩, chained'.setEntry placed' main member, ?_, ?_, ?_⟩
      · rw [chained'.fill placed' main member (by rw [BucketPool.entry, cell]; rfl) occupied, kept]
      · intro j other different
        exact (chained.claimNext_untouched placed main spare end_ inside other different).trans
          (chained'.setEntry_untouched placed' main member other different)
      · rintro ⟨-, all⟩
        omega
    · rw [chained.chain_eq main] at search
      obtain ⟨left, rfl⟩ : ∃ left, fuel = left + ((spares i).map pool.sparePtr).length + 1 :=
        ⟨fuel - (spares i).length - 1, by rw [List.length_map]; omega⟩
      have run := insert_full keyhash offset (chained.linked i main) search left
      rw [chained.next_none all] at run
      exact Or.inr ⟨run, full, all⟩

/-- Delete takes one match from its chain, if there is one. -/
theorem Chained.delete {pool : BucketPool} {spares : Nat → List Nat} {claimed i fuel : Nat}
    (chained : Chained pool spares claimed) (placed : pool.Placed) (main : i < pool.mainSize)
    (enough : pool.spareSize < fuel) (keyhash offset : Nat) :
    ∃ pool', deleteIndexEntry pool keyhash offset fuel (pool.mainPtr i) = .ok pool' ∧ pool.Alike pool' ∧
      Chained pool' spares claimed ∧
      pool'.contents i = (pool.contents i).erase ⟨lookupKeyTagHashPortion keyhash, offset⟩ ∧
      (∀ j < pool.mainSize, j ≠ i → pool.Untouched pool' j) ∧
      (⟨lookupKeyTagHashPortion keyhash, offset⟩ ∉ pool.contents i → pool' = pool) := by
  have few := chained.length_le main
  have within := chained.within
  have room : ((spares i).map pool.sparePtr).length < fuel := by
    rw [List.length_map]
    omega
  have run := delete_spec keyhash offset (chained.linked i main) room
  rw [← chained.chain_eq main] at run
  cases search : (slots (pool.chain i)).find? (fun p => matchIndexEntry (pool.entry p) keyhash offset) with
  | some p =>
    have member := List.mem_of_find?_eq_some search
    have matching := List.find?_some search
    have pair := matchIndexEntry_iff.mp matching
    have occupied : isEmptyEntry (pool.entry p) = false := by
      rw [pair]
      exact isEmptyEntry_eq_false.mpr (lookupKeyTagHashPortion_ne_zero keyhash)
    have clear := chained.clear placed main member occupied
    rw [pair] at clear
    rw [search] at run
    refine ⟨_, run, ⟨rfl, rfl, rfl, rfl⟩, chained.setEntry placed main member, ?_, fun j other different =>
      chained.setEntry_untouched placed main member other different, fun missing => ?_⟩
    · rw [clear, Multiset.erase_cons_head]
    · rw [clear] at missing
      exact absurd (Multiset.mem_cons_self _ _) missing
  | none =>
    rw [search] at run
    have missing : ⟨lookupKeyTagHashPortion keyhash, offset⟩ ∉ pool.contents i := by
      intro member
      obtain ⟨-, p, inside, pair⟩ := BucketPool.mem_held.mp member
      exact List.find?_eq_none.mp search p inside (matchIndexEntry_iff.mpr pair)
    exact ⟨pool, run, .refl pool, chained, (Multiset.erase_of_notMem missing).symm, fun j _ _ => .refl pool j,
      fun _ => rfl⟩

/-- All spares are claimed when none has version 0. -/
theorem Chained.all_claimed {pool : BucketPool} {spares : Nat → List Nat} {claimed : Nat}
    (chained : Chained pool spares claimed) :
    claimed = pool.spareSize ↔ ∀ k < pool.spareSize, (pool.cells (pool.sparePtr k)).version ≠ 0 := by
  constructor
  · rintro rfl k below
    rw [chained.claims k below]
    decide
  · intro all
    by_contra fewer
    have spare := Nat.lt_of_le_of_ne chained.within fewer
    exact all claimed spare (by rw [chained.fresh claimed spare le_rfl]; rfl)

/-- Every call works and keeps the pool well formed. -/
theorem BucketPool.WellFormed.works {pool : BucketPool} {fuel : Nat} {call : IndexCall}
    (wellFormed : pool.WellFormed) (legal : call.args.Legal pool.mainSize) (enough : pool.spareSize < fuel) :
    ∃ result pool', performIndex fuel pool call = .ok (result, pool') ∧ pool'.WellFormed ∧
      Performs pool call result pool' := by
  obtain ⟨placed, spares, claimed, chained⟩ := wellFormed
  cases call with
  | insert args =>
    obtain ⟨main, small⟩ : args.main < pool.mainSize ∧ args.offset < 2 ^ 48 := legal
    have unclaimed := chained.all_claimed
    rcases chained.insert placed main enough args.keyhash args.offset with
      ⟨pool', spares', claimed', run, alike, chained', adds, others, room⟩ | ⟨run, full, all⟩
    · refine ⟨true, pool', run, ⟨alike.placed placed, spares', claimed', chained'⟩, alike, ?_, others, ?_, ?_, ?_⟩
      · rw [Nat.mod_eq_of_lt small] at adds
        simpa [IndexCall.book, IndexCall.args, IndexArgs.pair] using adds
      · rintro _ ⟨rfl⟩
        rw [← unclaimed]
        simpa using room
      · rintro _ _ ⟨⟩
      · rintro _ ⟨⟩
    · refine ⟨false, pool, run, ⟨placed, spares, claimed, chained⟩, .refl pool, ?_, fun j _ _ => .refl pool j,
        ?_, ?_, ?_⟩
      · simp [IndexCall.book]
      · rintro _ ⟨rfl⟩
        rw [← unclaimed]
        simpa using ⟨full, all⟩
      · rintro _ ⟨rfl⟩ _
        rfl
      · rintro _ ⟨⟩
  | delete args =>
    obtain ⟨main, -⟩ : args.main < pool.mainSize ∧ args.offset < 2 ^ 48 := legal
    obtain ⟨pool', run, alike, chained', erased, others, missed⟩ :=
      chained.delete placed main enough args.keyhash args.offset
    have perform : performIndex fuel pool (.delete args) = .ok (true, pool') := by
      simp only [performIndex, run, ok_bind]
    refine ⟨true, pool', perform, ⟨alike.placed placed, spares, claimed, chained'⟩, alike, ?_, others, ?_, ?_, ?_⟩
    · simpa [IndexCall.book, IndexCall.args, IndexArgs.pair] using erased
    · rintro _ ⟨⟩
    · rintro _ ⟨⟩
    · rintro _ ⟨rfl⟩
      exact missed

/-- What a call books is the change of every chain. -/
theorem Performs.contents {pool pool' : BucketPool} {j : Nat} {family : Nat → Multiset IndexEntry}
    {call : IndexCall} {result : Bool} (performs : Performs pool call result pool')
    (agree : ∀ i < pool.mainSize, pool.contents i = family i) (inside : j < pool.mainSize) :
    pool'.contents j = call.book result family j := by
  by_cases here : j = call.args.main
  · subst here
    rw [performs.books]
    cases call with
    | insert args =>
      have same : pool.contents args.main = family args.main := agree _ inside
      cases result <;> simp [IndexCall.book, IndexCall.args, same]
    | delete args =>
      have same : pool.contents args.main = family args.main := agree _ inside
      simp [IndexCall.book, IndexCall.args, same]
  · rw [(performs.others j inside here).contents, agree j inside]
    cases call with
    | insert args =>
      have other : j ≠ args.main := here
      cases result <;> simp [IndexCall.book, Function.update_of_ne other]
    | delete args =>
      have other : j ≠ args.main := here
      simp [IndexCall.book, Function.update_of_ne other]

/-- A run of calls leaves the chains with what the ledger says. -/
theorem run_ledger {pool : BucketPool} {fuel : Nat} {calls : List IndexCall}
    {family : Nat → Multiset IndexEntry} (wellFormed : pool.WellFormed)
    (legal : ∀ call ∈ calls, call.args.Legal pool.mainSize) (enough : pool.spareSize < fuel)
    (agree : ∀ i < pool.mainSize, pool.contents i = family i) :
    Throughout (indexStep fuel) BucketPool.WellFormed calls pool ∧
    Meets (indexStep fuel) (fun pool call => call.Works fuel pool) calls pool ∧
      ∃ pool', run (indexStep fuel) calls pool = .ok pool' ∧ pool'.WellFormed ∧ pool.Alike pool' ∧
        ∀ i < pool.mainSize, pool'.contents i = ledger fuel calls pool family i := by
  induction calls generalizing pool family with
  | nil => exact ⟨wellFormed, trivial, pool, rfl, wellFormed, .refl pool, agree⟩
  | cons call calls ih =>
    obtain ⟨result, pool₁, perform, kept, performs⟩ := wellFormed.works (legal call (by simp)) enough
    have step : indexStep fuel pool call = .ok pool₁ := by
      simp only [indexStep, perform, ok_bind]
    obtain ⟨mainSize, spareSize, -, -⟩ := performs.alike
    have booked : ∀ i < pool₁.mainSize, pool₁.contents i = call.book result family i := fun i inside =>
      performs.contents agree (mainSize ▸ inside)
    obtain ⟨throughout, meets, pool', rest, kept', alike, held⟩ := ih kept
      (fun later member => mainSize ▸ legal later (by simp [member])) (spareSize ▸ enough) booked
    refine ⟨⟨wellFormed, pool₁, step, throughout⟩, .cons ⟨result, pool₁, perform, performs⟩ step meets, pool',
      ?_, kept', performs.alike.trans alike, fun i inside => ?_⟩
    · rw [run_cons step, rest]
    · rw [held i (mainSize.symm ▸ inside)]
      simp only [ledger, perform]

/-- Deleting the pairs of every chain once each empties all chains. -/
theorem run_deletes {pool : BucketPool} {fuel : Nat} {deletes : List IndexArgs} (wellFormed : pool.WellFormed)
    (legal : ∀ args ∈ deletes, args.Legal pool.mainSize) (enough : pool.spareSize < fuel)
    (all : ∀ i < pool.mainSize, pool.contents i = pairsOn i deletes) :
    ∃ pool', run (indexStep fuel) (deletes.map .delete) pool = .ok pool' ∧
      ∀ i < pool.mainSize, pool'.contents i = 0 := by
  induction deletes generalizing pool with
  | nil => exact ⟨pool, rfl, all⟩
  | cons args deletes ih =>
    have lawful : (IndexCall.delete args).args.Legal pool.mainSize := legal args (by simp)
    obtain ⟨result, pool₁, perform, kept, performs⟩ := wellFormed.works lawful enough
    have step : indexStep fuel pool (.delete args) = .ok pool₁ := by
      simp only [indexStep, perform, ok_bind]
    obtain ⟨mainSize, spareSize, -, -⟩ := performs.alike
    obtain ⟨pool', rest, none⟩ :=
      ih kept (fun later member => mainSize ▸ legal later (by simp [member])) (spareSize ▸ enough)
        (fun i inside => by
          rw [performs.contents all (mainSize ▸ inside)]
          by_cases here : i = args.main
          · subst here
            simp [IndexCall.book, pairsOn]
          · simp [IndexCall.book, pairsOn, Function.update_of_ne here, Ne.symm here])
    refine ⟨pool', ?_, fun i inside => none i (mainSize.symm ▸ inside)⟩
    rw [List.map_cons, run_cons step, rest]

/-- From creation on, every sequence of calls keeps the chains well formed, and
each call acts on its chain as on a multiset of pairs and on no other chain.
Deleting each pair the calls have left once empties every chain. -/
theorem pool_is_multisets (addr mainSize spareSize fuel : Nat) (calls : List IndexCall)
    (size : 128 * (mainSize + spareSize) < 2 ^ 32) (placed : addr + 128 * (mainSize + spareSize) ≤ 2 ^ 64)
    (enough : spareSize < fuel) (legal : ∀ call ∈ calls, call.args.Legal mainSize) :
    Throughout (indexStep fuel) BucketPool.WellFormed calls (createBucketPool addr mainSize spareSize) ∧
    Meets (indexStep fuel) (fun pool call => call.Works fuel pool) calls
      (createBucketPool addr mainSize spareSize) ∧
    ∀ deletes : List IndexArgs, (∀ args ∈ deletes, args.Legal mainSize) →
      (∀ i < mainSize, pairsOn i deletes =
        ledger fuel calls (createBucketPool addr mainSize spareSize) (fun _ => 0) i) →
      ∃ pool', run (indexStep fuel) (calls ++ deletes.map .delete) (createBucketPool addr mainSize spareSize) =
        .ok pool' ∧ ∀ i < mainSize, pool'.contents i = 0 := by
  have wellFormed : (createBucketPool addr mainSize spareSize).WellFormed :=
    ⟨⟨rfl, size, placed⟩, _, 0, Chained.created addr mainSize spareSize⟩
  have empty : ∀ i < mainSize, (createBucketPool addr mainSize spareSize).contents i = 0 := by
    intro i inside
    rw [BucketPool.contents, (Chained.created addr mainSize spareSize).chain_eq inside]
    exact BucketPool.held_fresh fun _ => rfl
  obtain ⟨throughout, meets, pool', done, kept, alike, held⟩ := run_ledger wellFormed legal enough empty
  have mains : pool'.mainSize = mainSize := alike.mainSize
  have extra : pool'.spareSize = spareSize := alike.spareSize
  refine ⟨throughout, meets, fun deletes lawful each => ?_⟩
  obtain ⟨pool'', rest, none⟩ := run_deletes kept (by rwa [mains]) (by rwa [extra]) (fun i inside => by
    rw [mains] at inside
    exact (held i inside).trans (each i inside).symm)
  exact ⟨pool'', (run_append done).trans rest, by rwa [mains] at none⟩

/-- Sixteen pairs for one main bucket, one more than it has slots. -/
def sixteenPairs : List IndexArgs := (List.range 16).map fun k => ⟨0, k + 1, 40 + k⟩

theorem pool_is_multisets_sixteen :
    Throughout (indexStep 2) BucketPool.WellFormed (sixteenPairs.map .insert) (createBucketPool 4096 1 1) ∧
    Meets (indexStep 2) (fun pool call => call.Works 2 pool) (sixteenPairs.map .insert)
      (createBucketPool 4096 1 1) ∧
    ((run (indexStep 2) (sixteenPairs.map .insert) (createBucketPool 4096 1 1)).toOption.map
      fun pool => (pool.cells (pool.sparePtr 0)).version) = some 2 ∧
    ∃ pool', run (indexStep 2) (sixteenPairs.map .insert ++ sixteenPairs.map .delete)
      (createBucketPool 4096 1 1) = .ok pool' ∧
      pool'.contents 0 = 0 := by
  have legal : ∀ args ∈ sixteenPairs, args.Legal 1 := by
    simp only [sixteenPairs, List.forall_mem_map, List.mem_range]
    exact fun k few => ⟨Nat.one_pos, show 40 + k < 2 ^ 48 by omega⟩
  obtain ⟨throughout, meets, empties⟩ :=
    pool_is_multisets 4096 1 1 2 (sixteenPairs.map .insert) (by decide) (by decide) (by decide)
      (List.forall_mem_map.mpr legal)
  obtain ⟨pool', done, none⟩ := empties sixteenPairs legal (fun i inside => by
    obtain rfl : i = 0 := by omega
    decide +kernel)
  exact ⟨throughout, meets, by decide +kernel, pool', done, none 0 (by decide)⟩

end Fkv
