import Fkv.Bucket.Family
import Fkv.Bucket.Search

namespace Fkv
open CWord Runs

/-- The pools after each write of `insert_index_entry`: a slot gets its offset
before its tag, and a spare is claimed before it is linked. -/
def insertTrace (keyhash offset : Nat) : Nat → BucketPool → Nat → Except Fault (List BucketPool)
  | 0, _, _ => .error .outOfFuel
  | fuel + 1, pool, bkt =>
    match findSlot isEmptyEntry (pool.cells bkt) 0 bucketEntrySize with
    | some i => .ok [pool.setEntry bkt i ⟨((pool.cells bkt).entries i).tag, offset % 2 ^ 48⟩,
        pool.setEntry bkt i ⟨lookupKeyTagHashPortion keyhash, offset % 2 ^ 48⟩]
    | none =>
      match nextSpareBucket pool bkt with
      | some next => insertTrace keyhash offset fuel pool next
      | none =>
        match nextEmptySpareBucket pool with
        | (some next, claimed) => do
          let linked := claimed.setLink bkt (sub64 next bkt % 2 ^ 32)
          let rest ← insertTrace keyhash offset fuel linked next
          .ok (claimed :: linked :: rest)
        | (none, _) => .ok []

theorem nextEmptySpareLoop_stays {pool : BucketPool} {i n : Nat}
    (none : (nextEmptySpareLoop pool i n).1 = none) : (nextEmptySpareLoop pool i n).2 = pool := by
  induction n generalizing i with
  | zero => rfl
  | succ n ih =>
    rw [nextEmptySpareLoop] at none ⊢
    split at none
    · rename_i claimed
      rw [if_pos claimed]
      exact ih none
    · cases none

/-- The writes of an insert end where the insert does. -/
theorem insertTrace_last {pool : BucketPool} {fuel keyhash offset bkt : Nat} {trace : List BucketPool}
    (done : insertTrace keyhash offset fuel pool bkt = .ok trace) :
    ∃ result, insertIndexEntry keyhash offset fuel pool bkt = .ok (result, trace.getLastD pool) := by
  induction fuel generalizing pool bkt trace with
  | zero => cases done
  | succ fuel ih =>
    rw [insertTrace] at done
    rw [insertIndexEntry]
    cases slot : findSlot isEmptyEntry (pool.cells bkt) 0 bucketEntrySize with
    | some i =>
      simp only [slot] at done
      cases done
      exact ⟨true, rfl⟩
    | none =>
      simp only [slot] at done ⊢
      cases link : nextSpareBucket pool bkt with
      | some next =>
        simp only [link] at done ⊢
        exact ih done
      | none =>
        simp only [link] at done ⊢
        have stays : (nextEmptySpareLoop pool 0 pool.spareSize).1 = none →
          (nextEmptySpareLoop pool 0 pool.spareSize).2 = pool :=
          nextEmptySpareLoop_stays
        cases spare : nextEmptySpareBucket pool with
        | mk found after =>
          rw [← nextEmptySpareBucket, spare] at stays
          simp only [spare] at done
          cases found with
          | some next =>
            obtain ⟨more, run, same⟩ := bind_eq_ok.mp done
            cases same
            obtain ⟨result, inserted⟩ := ih run
            refine ⟨result, ?_⟩
            simp only [List.getLastD_cons]
            exact inserted
          | none =>
            cases done
            obtain rfl : after = pool := stays rfl
            exact ⟨false, rfl⟩

theorem insertTrace_total {pool : BucketPool} {fuel keyhash offset bkt : Nat} {r : Bool × BucketPool}
    (done : insertIndexEntry keyhash offset fuel pool bkt = .ok r) :
    ∃ trace, insertTrace keyhash offset fuel pool bkt = .ok trace := by
  induction fuel generalizing pool bkt with
  | zero => cases done
  | succ fuel ih =>
    rw [insertIndexEntry] at done
    rw [insertTrace]
    cases slot : findSlot isEmptyEntry (pool.cells bkt) 0 bucketEntrySize with
    | some i => exact ⟨_, rfl⟩
    | none =>
      simp only [slot] at done ⊢
      cases link : nextSpareBucket pool bkt with
      | some next =>
        simp only [link] at done ⊢
        exact ih done
      | none =>
        simp only [link] at done ⊢
        cases spare : nextEmptySpareBucket pool with
        | mk found claimed =>
          simp only [spare] at done
          cases found with
          | none => exact ⟨_, rfl⟩
          | some next =>
            obtain ⟨more, run⟩ := ih done
            exact ⟨_, bind_eq_ok.mpr ⟨more, run, rfl⟩⟩

/-- The writes of an insert along its chain. -/
theorem insertTrace_walk {pool : BucketPool} {fuel keyhash offset bkt : Nat} {rest : List Nat}
    {trace : List BucketPool} (linked : pool.Linked (bkt :: rest))
    (done : insertTrace keyhash offset fuel pool bkt = .ok trace) :
    (∃ p ∈ slots (bkt :: rest), trace = [pool.setEntry p.1 p.2 ⟨(pool.entry p).tag, offset % 2 ^ 48⟩,
      pool.setEntry p.1 p.2 ⟨lookupKeyTagHashPortion keyhash, offset % 2 ^ 48⟩]) ∨
    (slots (bkt :: rest)).find? (fun p => isEmptyEntry (pool.entry p)) = none ∧ (trace = [] ∨
      ∃ next claimed fuel' more, nextEmptySpareBucket pool = (some next, claimed) ∧
        trace = claimed :: claimed.setLink ((bkt :: rest).getLast (by simp))
          (sub64 next ((bkt :: rest).getLast (by simp)) % 2 ^ 32) :: more ∧
        insertTrace keyhash offset fuel' (claimed.setLink ((bkt :: rest).getLast (by simp))
          (sub64 next ((bkt :: rest).getLast (by simp)) % 2 ^ 32)) next = .ok more) := by
  induction fuel generalizing bkt rest with
  | zero => cases done
  | succ fuel ih =>
    rw [insertTrace] at done
    cases slot : findSlot isEmptyEntry (pool.cells bkt) 0 bucketEntrySize with
    | some i =>
      simp only [slot] at done
      cases done
      have found := find_slotsFrom isEmptyEntry pool bkt 0 (slots rest)
      rw [Nat.sub_zero, slot, ← slots_cons] at found
      exact Or.inl ⟨(bkt, i), List.mem_of_find?_eq_some found, rfl⟩
    | none =>
      simp only [slot] at done
      have onward : (slots (bkt :: rest)).find? (fun p => isEmptyEntry (pool.entry p)) =
          (slots rest).find? (fun p => isEmptyEntry (pool.entry p)) := by
        rw [slots_cons, find_slotsFrom isEmptyEntry, Nat.sub_zero, slot]
      rw [onward]
      cases rest with
      | nil =>
        have last : nextSpareBucket pool bkt = none := linked
        simp only [last] at done
        refine Or.inr ⟨rfl, ?_⟩
        cases spare : nextEmptySpareBucket pool with
        | mk found claimed =>
          simp only [spare] at done
          cases found with
          | none =>
            cases done
            exact Or.inl rfl
          | some next =>
            obtain ⟨more, run, same⟩ := bind_eq_ok.mp done
            cases same
            exact Or.inr ⟨next, claimed, fuel, more, rfl, rfl, run⟩
      | cons next rest =>
        simp only [linked.1] at done
        rcases ih linked.2 done with ⟨p, member, same⟩ | full
        · refine Or.inl ⟨p, ?_, same⟩
          rw [slots_cons]
          exact List.mem_append_right _ member
        · exact Or.inr full

theorem BucketPool.Alike.symm {pool pool' : BucketPool} (alike : pool.Alike pool') : pool'.Alike pool :=
  ⟨alike.mainSize.symm, alike.spareSize.symm, alike.mains.symm, alike.spares.symm⟩

theorem BucketPool.Alike.mainPtr {pool pool' : BucketPool} (alike : pool.Alike pool') (j : Nat) :
    pool'.mainPtr j = pool.mainPtr j := by
  rw [BucketPool.mainPtr, BucketPool.mainPtr, alike.mains]

/-- A pool that has the buckets of a chain has the chain. -/
theorem Chained.untouched_of_same {pool pool' : BucketPool} {spares : Nat → List Nat} {claimed j : Nat}
    (chained : Chained pool spares claimed) (main : j < pool.mainSize) (alike : pool.Alike pool')
    (same : ∀ bkt ∈ pool.chain j, pool'.cells bkt = pool.cells bkt) : pool.Untouched pool' j := by
  refine ⟨?_, same⟩
  have few := chained.length_le main
  have within := chained.within
  rw [chained.chain_eq main] at same ⊢
  rw [BucketPool.chain, alike.mainPtr, alike.spareSize]
  refine BucketPool.walk_eq ((chained.linked j main).congr fun bkt member => by rw [same bkt member]) ?_
  rw [List.length_map]
  omega

/-- What every write of a call on the chain of main bucket `i` leaves alone: the
arrays, the other chains and its version. -/
structure BucketPool.Aside (pool pool' : BucketPool) (i : Nat) : Prop where
  alike : pool.Alike pool'
  others : ∀ j < pool.mainSize, j ≠ i → pool.Untouched pool' j
  version : (pool'.cells (pool.mainPtr i)).version = (pool.cells (pool.mainPtr i)).version

theorem BucketPool.Aside.refl (pool : BucketPool) (i : Nat) : pool.Aside pool i :=
  ⟨.refl pool, fun j _ _ => .refl pool j, rfl⟩

theorem BucketPool.Aside.trans {pool pool' : BucketPool} {i : Nat} {pool'' : BucketPool}
    (first : pool.Aside pool' i) (second : pool'.Aside pool'' i) :
    pool.Aside pool'' i := by
  refine ⟨first.alike.trans second.alike, fun j inside different => ?_, ?_⟩
  · exact (first.others j inside different).trans (second.others j (first.alike.mainSize ▸ inside) different)
  · rw [← first.version, ← first.alike.mainPtr]
    exact second.version

theorem Chained.setEntry_aside {pool : BucketPool} {spares : Nat → List Nat} {claimed i : Nat} {p : Nat × Nat}
    {e : IndexEntry} (chained : Chained pool spares claimed) (placed : pool.Placed) (main : i < pool.mainSize)
    (member : p ∈ slots (pool.chain i)) : pool.Aside (pool.setEntry p.1 p.2 e) i :=
  ⟨⟨rfl, rfl, rfl, rfl⟩, fun _ other different => chained.setEntry_untouched placed main member other different,
    BucketPool.setEntry_version⟩

/-- Every write of an insert leaves alone what it should. -/
theorem Chained.insertTrace_aside {pool : BucketPool} {spares : Nat → List Nat}
    {claimed i fuel keyhash offset : Nat} {trace : List BucketPool} (chained : Chained pool spares claimed)
    (placed : pool.Placed) (main : i < pool.mainSize)
    (done : insertTrace keyhash offset fuel pool (pool.mainPtr i) = .ok trace) :
    ∀ pool' ∈ trace, pool.Aside pool' i := by
  have within := chained.within
  rcases insertTrace_walk (chained.linked i main) done with
    ⟨p, member, rfl⟩ | ⟨full, rfl | ⟨next, after, fuel', more, spare, rfl, run⟩⟩
  · rw [← chained.chain_eq main] at member
    simp only [List.mem_cons, List.not_mem_nil, or_false, forall_eq_or_imp, forall_eq]
    exact ⟨chained.setEntry_aside placed main member, chained.setEntry_aside placed main member⟩
  · simp
  · rcases Nat.lt_or_eq_of_le within with free | all
    · obtain ⟨last, end_⟩ : ∃ last, (pool.mainPtr i :: (spares i).map pool.sparePtr).getLast (by simp) = last :=
        ⟨_, rfl⟩
      have inside : last ∈ pool.chain i := by
        rw [chained.chain_eq main, ← end_]
        exact List.getLast_mem _
      have apart : last ≠ pool.sparePtr claimed := Nat.ne_of_lt (chained.last_below placed main inside).2
      have notMain : pool.mainPtr i ≠ pool.sparePtr claimed := placed.apart main
      rw [chained.next_some free] at spare
      obtain ⟨rfl, rfl⟩ : pool.sparePtr claimed = next ∧ pool.setVersion (pool.sparePtr claimed) 2 = after := by
        simpa using spare
      rw [end_] at run ⊢
      change insertTrace keyhash offset fuel' (pool.claimNext last claimed) (pool.sparePtr claimed) =
        .ok more at run
      have claimedAside : pool.Aside (pool.setVersion (pool.sparePtr claimed) 2) i := by
        refine ⟨⟨rfl, rfl, rfl, rfl⟩, fun j other _ => ?_, ?_⟩
        · exact chained.untouched_of_same other ⟨rfl, rfl, rfl, rfl⟩ fun bkt member =>
            Function.update_of_ne (Nat.ne_of_lt (chained.last_below placed other member).2) _ _
        · simp only [BucketPool.setVersion, BucketPool.setCell, Function.update_of_ne notMain]
      have linkedAside : pool.Aside (pool.claimNext last claimed) i := by
        refine ⟨⟨rfl, rfl, rfl, rfl⟩, fun j other different =>
          chained.claimNext_untouched placed main free end_ inside other different, ?_⟩
        by_cases here : pool.mainPtr i = last
        · rw [here, BucketPool.claimNext_last apart]
        · rw [BucketPool.claimNext_other here notMain]
      have chained' := chained.claimNext placed main free end_
      have placed' : (pool.claimNext last claimed).Placed := ⟨placed.behind, placed.size_lt, placed.end_le⟩
      obtain ⟨grown, -⟩ := chained.claimNext_contents placed main free end_ apart
      have cell := BucketPool.claimNext_spare apart
      rw [chained.fresh claimed free le_rfl] at cell
      have stop : (pool.claimNext last claimed).Linked [pool.sparePtr claimed] := by
        show nextSpareBucket _ _ = none
        rw [nextSpareBucket, cell]
        rfl
      have filled : ∀ pool' ∈ more, (pool.claimNext last claimed).Aside pool' i := by
        rcases insertTrace_walk stop run with ⟨p, member, rfl⟩ | ⟨full, -⟩
        · have slot : p ∈ slots ((pool.claimNext last claimed).chain i) := by
            rw [grown, slots_append]
            exact List.mem_append_right _ member
          simp only [List.mem_cons, List.not_mem_nil, or_false, forall_eq_or_imp, forall_eq]
          exact ⟨chained'.setEntry_aside placed' main slot, chained'.setEntry_aside placed' main slot⟩
        · rw [find_fresh (by rw [cell]; rfl)] at full
          cases full
      intro pool' member
      rcases List.mem_cons.mp member with rfl | member
      · exact claimedAside
      · rcases List.mem_cons.mp member with rfl | member
        · exact linkedAside
        · exact linkedAside.trans (filled pool' member)
    · rw [chained.next_none all] at spare
      cases spare

/-- The number of spares that have been claimed. -/
def BucketPool.claims (pool : BucketPool) : Nat :=
  ((List.range pool.spareSize).filter fun k => (pool.cells (pool.sparePtr k)).version ≠ 0).length

theorem BucketPool.claims_congr {pool pool' : BucketPool} (alike : pool.Alike pool')
    (same : ∀ k < pool.spareSize,
      (pool'.cells (pool'.sparePtr k)).version = (pool.cells (pool.sparePtr k)).version) :
    pool'.claims = pool.claims := by
  rw [BucketPool.claims, BucketPool.claims, alike.spareSize]
  congr 1
  refine List.filter_congr fun k below => ?_
  rw [same k (List.mem_range.mp below)]

theorem BucketPool.setEntry_claims {pool : BucketPool} {j bkt : Nat} {e : IndexEntry} :
    (pool.setEntry bkt j e).claims = pool.claims :=
  BucketPool.claims_congr ⟨rfl, rfl, rfl, rfl⟩ fun _ _ => BucketPool.setEntry_version (p := (bkt, j))

theorem BucketPool.Placed.setVersion_claims {pool : BucketPool} {i : Nat} (placed : pool.Placed)
    (main : i < pool.mainSize) (version : Nat) :
    (pool.setVersion (pool.mainPtr i) version).claims = pool.claims :=
  BucketPool.claims_congr ⟨rfl, rfl, rfl, rfl⟩ fun _ _ =>
    congrArg Bucket.version (Function.update_of_ne (Ne.symm (placed.apart main)) _ _)

/-- With a spare left no insert is turned away. -/
theorem BucketPool.claims_lt {pool : BucketPool} (fewer : pool.claims < pool.spareSize) :
    ∃ k < pool.spareSize, (pool.cells (pool.sparePtr k)).version = 0 := by
  by_contra none
  push Not at none
  have all : (List.range pool.spareSize).filter (fun k => (pool.cells (pool.sparePtr k)).version ≠ 0) =
      List.range pool.spareSize :=
    List.filter_eq_self.mpr fun k below => by simpa using none k (List.mem_range.mp below)
  rw [BucketPool.claims, all, List.length_range] at fewer
  exact lt_irrefl _ fewer

theorem Chained.claims_eq {pool : BucketPool} {spares : Nat → List Nat} {claimed : Nat}
    (chained : Chained pool spares claimed) : pool.claims = claimed := by
  have within := chained.within
  obtain ⟨left, size⟩ : ∃ left, pool.spareSize = claimed + left := ⟨pool.spareSize - claimed, by omega⟩
  rw [BucketPool.claims, size, List.range_add, List.filter_append, List.length_append]
  have front : (List.range claimed).filter (fun k => (pool.cells (pool.sparePtr k)).version ≠ 0) =
    List.range claimed :=
    List.filter_eq_self.mpr fun k below => by simp [chained.claims k (List.mem_range.mp below)]
  have back : ((List.range left).map (claimed + ·)).filter
      (fun k => (pool.cells (pool.sparePtr k)).version ≠ 0) = [] := by
    refine List.filter_eq_nil_iff.mpr fun k member => ?_
    obtain ⟨j, below, rfl⟩ := List.mem_map.mp member
    have inside := List.mem_range.mp below
    rw [chained.fresh (claimed + j) (by omega) (by omega)]
    simp [emptyBucket]
  rw [front, back, List.length_range, List.length_nil, Nat.add_zero]

/-- What an insert that returned has done: it has filled a slot, claimed a spare for
a full chain, or left the pool as it was. -/
theorem Chained.insert_elim {pool pool' : BucketPool} {spares : Nat → List Nat}
    {claimed i fuel keyhash offset : Nat} {result : Bool} (chained : Chained pool spares claimed)
    (placed : pool.Placed) (main : i < pool.mainSize)
    (done : insertIndexEntry keyhash offset fuel pool (pool.mainPtr i) = .ok (result, pool')) :
    (∃ p ∈ slots (pool.chain i), isEmptyEntry (pool.entry p) = true ∧
      pool' = pool.setEntry p.1 p.2 ⟨lookupKeyTagHashPortion keyhash, offset % 2 ^ 48⟩) ∨
    pool.Full i ∧ ((claimed < pool.spareSize ∧
      ∃ last, (pool.mainPtr i :: (spares i).map pool.sparePtr).getLast (by simp) = last ∧
      pool' = (pool.claimNext last claimed).setEntry (pool.sparePtr claimed) 0
        ⟨lookupKeyTagHashPortion keyhash, offset % 2 ^ 48⟩) ∨ pool' = pool) := by
  have longer := insert_more done (pool.spareSize + 1)
  have few := chained.length_le main
  have within := chained.within
  cases search : (slots (pool.chain i)).find? (fun p => isEmptyEntry (pool.entry p)) with
  | some p =>
    have member := List.mem_of_find?_eq_some search
    have empty := List.find?_some search
    rw [chained.chain_eq main] at search
    have run := insert_found keyhash offset (chained.linked i main)
      (show ((spares i).map pool.sparePtr).length <
        fuel + (pool.spareSize + 1) by rw [List.length_map]; omega) search
    cases run.symm.trans longer
    exact Or.inl ⟨p, member, empty, rfl⟩
  | none =>
    have full : pool.Full i := BucketPool.full_iff.mpr search
    refine Or.inr ⟨full, ?_⟩
    rcases Nat.lt_or_eq_of_le within with free | all
    · have run := chained.insert_extends placed main (show pool.spareSize < fuel + (pool.spareSize + 1) by omega)
        full free keyhash offset rfl
      cases run.symm.trans longer
      exact Or.inl ⟨free, _, rfl, rfl⟩
    · rw [chained.chain_eq main] at search
      have run := insert_full keyhash offset (chained.linked i main) search
        (fuel + (pool.spareSize + 1) - (spares i).length - 1)
      rw [List.length_map, show fuel + (pool.spareSize + 1) - (spares i).length - 1 + (spares i).length + 1 =
        fuel + (pool.spareSize + 1) by omega, chained.next_none all] at run
      cases run.symm.trans longer
      exact Or.inr rfl

/-- An insert claims one spare at most, and none if there is a slot left. -/
theorem Chained.insert_claims {pool pool' : BucketPool} {spares : Nat → List Nat}
    {claimed i fuel keyhash offset : Nat} {result : Bool} (chained : Chained pool spares claimed)
    (placed : pool.Placed) (main : i < pool.mainSize)
    (done : insertIndexEntry keyhash offset fuel pool (pool.mainPtr i) = .ok (result, pool')) :
    pool'.claims ≤ pool.claims + 1 ∧ (¬ pool.Full i → pool'.claims ≤ pool.claims) := by
  rcases chained.insert_elim placed main done with ⟨p, -, -, rfl⟩ | ⟨full, ⟨free, last, end_, rfl⟩ | rfl⟩
  · rw [BucketPool.setEntry_claims]
    exact ⟨Nat.le_succ _, fun _ => le_rfl⟩
  · have next := chained.claimNext placed main free end_
    rw [BucketPool.setEntry_claims, next.claims_eq, chained.claims_eq]
    exact ⟨le_rfl, fun room => absurd full room⟩
  · exact ⟨Nat.le_succ _, fun _ => le_rfl⟩

end Fkv
