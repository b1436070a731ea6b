import Fkv.Bucket.Tracks

namespace Fkv
open CWord Runs

namespace IndexThread

/-- What is settled by the access is so in a pool that the new one tracks. -/
def Goes (fuel : Nat) (q pool : BucketPool) (claimed n : Nat) (th : IndexThread) (m : IndexMove) : Prop :=
  ∃ q' spares' claimed', q'.Tracks fuel m.pool spares' claimed' ∧ th.Moves fuel q pool claimed n q' claimed' m

theorem Stage.busy {q pool : BucketPool} {claimed n : Nat} {th : IndexThread}
    (stage : th.Stage q pool claimed n) : th.busy = true := by
  cases stage <;> rfl

/-- An access that only reads. -/
theorem goes_read {q pool : BucketPool} {spares : Nat → List Nat} {claimed fuel n : Nat} {call : IndexCall}
    (tracks : q.Tracks fuel pool spares claimed) {pc pc' : IndexPc}
    (stage : Stage q pool claimed (n + 1) ⟨call, false, pc'⟩) :
    Goes fuel q pool claimed n ⟨call, false, pc⟩ ⟨pool, ⟨call, false, pc'⟩, [], []⟩ :=
  ⟨q, spares, claimed, tracks, Or.inl ⟨rfl, rfl⟩, .refl q, fun j _ _ => .refl q j, fun _ member => member,
    fun _ _ => ⟨rfl, rfl⟩, le_rfl, rfl, rfl, fun _ => stage, fun idle => absurd stage.busy (by simp [idle])⟩

/-- An access that writes what is settled. -/
theorem goes_write {q pool : BucketPool} {spares : Nat → List Nat} {claimed fuel bkt n : Nat} {th : IndexThread}
    {b : Bucket} (tracks : q.Tracks fuel pool spares claimed) {th' : IndexThread} {returns : List Bool}
    (main : th.call.args.main < q.mainSize) (member : bkt ∈ q.chain th.call.args.main)
    (version : b.version = (pool.cells bkt).version) (same : th'.call = th.call)
    (owes : th.owed = returns ++ th'.owed)
    (stage : th'.busy = true → th'.Stage q (pool.setCell bkt b) claimed (n + 1)) (settled : th'.busy = false →
      q.Agrees (pool.setCell bkt b) th.call.args.main ∧ th'.owed = [] ∧ n + 1 ≤ 19 * q.spareSize + 20) :
    Goes fuel q pool claimed n th ⟨pool.setCell bkt b, th', [], returns⟩ := by
  refine ⟨q, spares, claimed, tracks.setCell main member version, Or.inl ⟨rfl, rfl⟩, .refl q,
    fun j _ _ => .refl q j,
    fun _ inside => inside, fun c outside => ⟨Function.update_of_ne ?_ _ _, rfl⟩, le_rfl, same, ?_, stage, settled⟩
  · rintro rfl
    exact outside member
  · rw [List.append_nil]
    exact owes

/-- An access after which the call returns, with nothing to write. -/
theorem goes_return {q pool : BucketPool} {spares : Nat → List Nat} {claimed fuel n : Nat} {call : IndexCall}
    (tracks : q.Tracks fuel pool spares claimed) {pc : IndexPc} {result : Bool}
    (perform : performIndex fuel q call = .ok (result, q)) (agrees : q.Agrees pool call.args.main)
    (paced : n + 1 ≤ 19 * q.spareSize + 20) :
    Goes fuel q pool claimed n ⟨call, false, pc⟩ ⟨pool, ⟨call, false, .idle⟩, [result], [result]⟩ :=
  ⟨q, spares, claimed, tracks, Or.inr ⟨result, rfl, perform⟩, .refl q, fun j _ _ => .refl q j,
    fun _ member => member,
    fun _ _ => ⟨rfl, rfl⟩, le_rfl, rfl, rfl, fun busy => (by cases busy), fun _ => ⟨agrees, rfl, paced⟩⟩

/-- The access to a slot. -/
theorem goes_slot {q pool : BucketPool} {spares : Nat → List Nat} {claimed fuel bkt index n : Nat}
    {call : IndexCall} {before behind : List Nat} (tracks : q.Tracks fuel pool spares claimed)
    (main : call.args.main < q.mainSize) (agrees : q.Agrees pool call.args.main)
    (chain : q.chain call.args.main = before ++ bkt :: behind) (inside : index < bucketEntrySize)
    (passed : ∀ p ∈ slots before, call.test (q.entry p) = false)
    (skipped : ∀ k < index, call.test (q.entry (bkt, k)) = false) (paced : n ≤ 17 * before.length + index) :
    Goes fuel q pool claimed n ⟨call, false, .slot bkt index⟩ (move pool ⟨call, false, .slot bkt index⟩) := by
  have member : bkt ∈ q.chain call.args.main := by simp [chain]
  have few := tracks.before_le main chain
  have within := tracks.chained.within
  have room : index < 15 := inside
  have entry : pool.entry (bkt, index) = q.entry (bkt, index) := by
    rw [BucketPool.entry, BucketPool.entry, agrees bkt member]
  by_cases hit : call.test (q.entry (bkt, index)) = true
  · have slot : (bkt, index) ∈ slots (q.chain call.args.main) := mem_slots.mpr ⟨member, inside⟩
    have grown : (q.setEntry bkt index call.leaves).chain call.args.main = q.chain call.args.main :=
      tracks.chained.setEntry_chain tracks.placed main slot
    have alike : (q.setEntry bkt index call.leaves).Alike q := ⟨rfl, rfl, rfl, rfl⟩
    simp only [move, entry, hit, if_true, Bool.false_eq_true, if_false]
    refine ⟨q.setEntry bkt index call.leaves, spares, claimed, ⟨tracks.placed.setCell,
      tracks.chained.setEntry tracks.placed main slot, alike.trans tracks.alike, tracks.claims, tracks.enough⟩,
      Or.inr ⟨true, rfl, tracks.perform_at main chain inside passed skipped hit⟩, ⟨rfl, rfl, rfl, rfl⟩,
      fun j other different =>
        tracks.chained.setEntry_untouched tracks.placed main slot other different,
        fun c here => (by rw [grown]; exact here),
      fun c outside => ⟨rfl, Function.update_of_ne ?_ _ _⟩, le_rfl, rfl, rfl, fun _ => .first ?_ ?_ ?_,
      fun idle => (by cases idle)⟩
    · rintro rfl
      rw [grown] at outside
      exact outside member
    · rw [grown]
      exact slot
    · intro c here
      rw [grown] at here
      exact BucketPool.setEntry_congr (agrees bkt member) (agrees c here)
    · show n + 1 ≤ 19 * q.spareSize + 18
      omega
  · simp only [move, entry, hit]
    by_cases more : index + 1 < bucketEntrySize
    · rw [if_pos more]
      refine goes_read tracks (.slot agrees chain more passed (fun k below => ?_) (by omega))
      rcases Nat.lt_succ_iff_lt_or_eq.mp below with earlier | rfl
      · exact skipped k earlier
      · simpa using hit
    · rw [if_neg more]
      refine goes_read tracks (.link agrees chain (fun p place => ?_) (by omega))
      rw [slots_append, List.mem_append] at place
      rcases place with early | late
      · exact passed p early
      · obtain ⟨here, low⟩ := mem_slots.mp late
        obtain ⟨c, k⟩ := p
        obtain rfl : c = bkt := by simpa using here
        simp only at low
        rcases Nat.lt_or_eq_of_le (show k ≤ index by omega) with earlier | rfl
        · exact skipped k earlier
        · simpa using hit

/-- The test for a link. -/
theorem goes_link {q pool : BucketPool} {spares : Nat → List Nat} {claimed fuel bkt n : Nat} {call : IndexCall}
    {before behind : List Nat} (tracks : q.Tracks fuel pool spares claimed) (main : call.args.main < q.mainSize)
    (agrees : q.Agrees pool call.args.main) (chain : q.chain call.args.main = before ++ bkt :: behind)
    (passed : ∀ p ∈ slots (before ++ [bkt]), call.test (q.entry p) = false)
    (paced : n ≤ 17 * before.length + 15) :
    Goes fuel q pool claimed n ⟨call, false, .link bkt⟩ (move pool ⟨call, false, .link bkt⟩) := by
  have member : bkt ∈ q.chain call.args.main := by simp [chain]
  have few := tracks.before_le main chain
  have within := tracks.chained.within
  simp only [move]
  by_cases last : (pool.cells bkt).offset = 0
  · rw [if_pos last]
    have linked := tracks.chained.linked call.args.main main
    rw [← tracks.chained.chain_eq main, chain] at linked
    have stop := linked.at
    rw [agrees bkt member] at last
    rw [nextSpareBucket, if_pos last] at stop
    obtain rfl : behind = [] := List.head?_eq_none_iff.mp stop.symm
    rw [← chain] at passed
    cases call with
    | insert args => exact goes_read tracks (.spare agrees chain passed (Nat.zero_le _) (by omega))
    | delete args => exact goes_return tracks (tracks.perform_missed main passed) agrees (by omega)
  · rw [if_neg last]
    exact goes_read tracks (.follow agrees chain passed last (by omega))

/-- The link followed. -/
theorem goes_follow {q pool : BucketPool} {spares : Nat → List Nat} {claimed fuel bkt n : Nat}
    {call : IndexCall} {before behind : List Nat} (tracks : q.Tracks fuel pool spares claimed)
    (main : call.args.main < q.mainSize) (agrees : q.Agrees pool call.args.main)
    (chain : q.chain call.args.main = before ++ bkt :: behind)
    (passed : ∀ p ∈ slots (before ++ [bkt]), call.test (q.entry p) = false) (link : (pool.cells bkt).offset ≠ 0)
    (paced : n ≤ 17 * before.length + 16) :
    Goes fuel q pool claimed n ⟨call, false, .follow bkt⟩ (move pool ⟨call, false, .follow bkt⟩) := by
  have member : bkt ∈ q.chain call.args.main := by simp [chain]
  have linked := tracks.chained.linked call.args.main main
  rw [← tracks.chained.chain_eq main, chain] at linked
  have next := linked.at
  rw [agrees bkt member] at link
  rw [nextSpareBucket, if_neg link] at next
  obtain ⟨rest, rfl⟩ : ∃ rest, behind = add64 bkt (q.cells bkt).offset :: rest := by
    cases behind with
    | nil => cases next
    | cons head rest =>
      obtain rfl := Option.some.inj next
      exact ⟨rest, rfl⟩
  simp only [move, agrees bkt member]
  have split : q.chain call.args.main = (before ++ [bkt]) ++ add64 bkt (q.cells bkt).offset :: rest := by
    rw [chain, List.append_assoc, List.singleton_append]
  refine goes_read tracks (.slot agrees split (by decide) passed (fun k low => absurd low (Nat.not_lt_zero k)) ?_)
  rw [List.length_append, List.length_singleton]
  omega

/-- The version of a spare read. -/
theorem goes_spare {q pool : BucketPool} {spares : Nat → List Nat} {claimed fuel bkt k n : Nat}
    {args : IndexArgs} {before : List Nat} (tracks : q.Tracks fuel pool spares claimed)
    (main : args.main < q.mainSize) (agrees : q.Agrees pool args.main)
    (chain : q.chain args.main = before ++ [bkt]) (full : q.Full args.main) (low : k ≤ claimed)
    (paced : n ≤ 17 * before.length + 16 + 2 * k) :
    Goes fuel q pool claimed n ⟨.insert args, false, .spare bkt k⟩
      (move pool ⟨.insert args, false, .spare bkt k⟩) := by
  have few := tracks.before_le main chain
  have within := tracks.chained.within
  have spareSize := tracks.alike.spareSize
  simp only [move]
  by_cases inside : k < pool.spareSize
  · rw [if_pos inside]
    by_cases taken : (pool.cells (pool.sparePtr k)).version ≠ 0
    · rw [if_pos taken]
      refine goes_read tracks (.spare agrees chain full ?_ (by omega))
      rcases Nat.lt_or_eq_of_le low with earlier | rfl
      · exact earlier
      · rw [tracks.claims.fresh k inside le_rfl] at taken
        exact absurd rfl taken
    · rw [if_neg taken]
      exact goes_read tracks (.swap agrees chain full low (by omega) (by omega))
  · rw [if_neg inside]
    exact goes_return tracks (tracks.perform_fails main full (by omega)) agrees (by omega)

/-- The version of a spare swapped. -/
theorem goes_swap {q pool : BucketPool} {spares : Nat → List Nat} {claimed fuel bkt k n : Nat}
    {args : IndexArgs} {before : List Nat} (tracks : q.Tracks fuel pool spares claimed)
    (main : args.main < q.mainSize) (agrees : q.Agrees pool args.main)
    (chain : q.chain args.main = before ++ [bkt]) (full : q.Full args.main) (low : k ≤ claimed)
    (inside : k < q.spareSize) (paced : n ≤ 17 * before.length + 17 + 2 * k) :
    Goes fuel q pool claimed n ⟨.insert args, false, .swap bkt k⟩
      (move pool ⟨.insert args, false, .swap bkt k⟩) := by
  have spareSize := tracks.alike.spareSize
  have spare := tracks.alike.sparePtr
  have member : bkt ∈ q.chain args.main := by simp [chain]
  have few := tracks.before_le main chain
  simp only [move]
  by_cases free : (pool.cells (pool.sparePtr k)).version = 0
  · rw [if_pos free]
    obtain rfl : k = claimed := by
      refine Nat.le_antisymm low (Nat.le_of_not_lt fun earlier => ?_)
      exact tracks.claims.taken k earlier free
    have end_ : (q.mainPtr args.main :: (spares args.main).map q.sparePtr).getLast (by simp) = bkt := by
      have last : (q.chain args.main).getLast? = some bkt := by
        rw [chain, List.getLast?_append, List.getLast?_singleton, Option.some_or]
      rw [tracks.chained.chain_eq main, List.getLast?_eq_some_getLast (by simp)] at last
      exact Option.some.inj last
    have apart : bkt ≠ q.sparePtr k := Nat.ne_of_lt (tracks.chained.last_below tracks.placed main member).2
    have chained' := tracks.chained.claimNext tracks.placed main inside end_
    have placed' : (q.claimNext bkt k).Placed :=
      ⟨tracks.placed.behind, tracks.placed.size_lt, tracks.placed.end_le⟩
    obtain ⟨grown, -⟩ := tracks.chained.claimNext_contents tracks.placed main inside end_ apart
    have slot : (q.sparePtr k, 0) ∈ slots ((q.claimNext bkt k).chain args.main) := by
      rw [grown, mem_slots]
      exact ⟨by simp, show 0 < bucketEntrySize by decide⟩
    have grown' : ((q.claimNext bkt k).setEntry (q.sparePtr k) 0 (IndexCall.insert args).leaves).chain args.main =
        q.chain args.main ++ [q.sparePtr k] := (chained'.setEntry_chain placed' main slot).trans grown
    have same : ∀ c, c ∈ q.chain args.main ++ [q.sparePtr k] → pool.cells c = q.cells c := by
      intro c here
      rcases List.mem_append.mp here with early | late
      · exact agrees c early
      · obtain rfl := List.mem_singleton.mp late
        rw [tracks.chained.fresh k inside le_rfl, ← spare, tracks.claims.fresh k (by omega) le_rfl]
    have cell : (pool.setVersion (pool.sparePtr k) 2).cells (pool.sparePtr k) =
      { emptyBucket with version := 2 } := by
      rw [BucketPool.setVersion_same, tracks.claims.fresh k (by omega) le_rfl]
    have alike : ((q.claimNext bkt k).setEntry (q.sparePtr k) 0 (IndexCall.insert args).leaves).Alike q :=
      ⟨rfl, rfl, rfl, rfl⟩
    have alike' : pool.Alike (pool.setVersion (pool.sparePtr k) 2) := ⟨rfl, rfl, rfl, rfl⟩
    refine ⟨(q.claimNext bkt k).setEntry (q.sparePtr k) 0 (IndexCall.insert args).leaves, _, k + 1,
      ⟨placed'.setCell, chained'.setEntry placed' main slot, alike.trans (tracks.alike.trans alike'),
        ⟨fun l below => ?_, fun l bound later => ?_⟩, tracks.enough⟩,
      Or.inr ⟨true, rfl, tracks.perform_extends main chain full inside⟩, ⟨rfl, rfl, rfl, rfl⟩,
      fun j other different => ?_,
      fun c here => ?_, fun c outside => ?_, Nat.le_succ k, rfl, rfl, fun _ => ?_, fun idle => (by cases idle)⟩
    · change ((pool.setVersion (pool.sparePtr k) 2).cells (pool.sparePtr l)).version ≠ 0
      rcases Nat.lt_succ_iff_lt_or_eq.mp below with earlier | rfl
      · have other : pool.sparePtr l ≠ pool.sparePtr k :=
          fun equal => Nat.ne_of_lt earlier (BucketPool.sparePtr_inj.mp equal)
        rw [BucketPool.setVersion_other other]
        exact tracks.claims.taken l earlier
      · rw [cell]
        decide
    · change (pool.setVersion (pool.sparePtr k) 2).cells (pool.sparePtr l) = emptyBucket
      have other : pool.sparePtr l ≠ pool.sparePtr k :=
        fun equal => absurd (BucketPool.sparePtr_inj.mp equal) (by omega)
      rw [BucketPool.setVersion_other other]
      exact tracks.claims.fresh l bound (by omega)
    · exact (tracks.chained.claimNext_untouched tracks.placed main inside end_ member other different).trans
        (chained'.setEntry_untouched placed' main slot other different)
    · change c ∈ BucketPool.chain _ args.main
      rw [grown']
      exact List.mem_append_left _ here
    · change c ∉ BucketPool.chain _ args.main at outside
      rw [grown', List.mem_append, List.mem_singleton, not_or] at outside
      have notLast : c ≠ bkt := fun equal => outside.1 (equal ▸ member)
      refine ⟨Function.update_of_ne (by rw [spare]; exact outside.2) _ _, ?_⟩
      exact (Function.update_of_ne outside.2 _ _).trans (BucketPool.claimNext_other notLast outside.2)
    · refine .join ?_ ?_ ?_ ?_ ?_
      · rw [grown']
        exact List.mem_append_left _ member
      · rw [grown', spare, ← grown]
        exact slot
      · rw [BucketPool.entry, cell]
        rfl
      · intro c here
        rw [grown'] at here
        rw [spare]
        have versions : ∀ d ∈ q.chain args.main ++ [q.sparePtr k],
            (pool.setVersion (q.sparePtr k) 2).cells d = (q.setVersion (q.sparePtr k) 2).cells d :=
          fun d inside => BucketPool.setVersion_congr (same _ (by simp)) (same d inside) 2
        have links : ∀ d ∈ q.chain args.main ++ [q.sparePtr k],
            ((pool.setVersion (q.sparePtr k) 2).setLink bkt (sub64 (q.sparePtr k) bkt % 2 ^ 32)).cells d =
              (q.claimNext bkt k).cells d :=
          fun d inside => BucketPool.setLink_congr (versions bkt (List.mem_append_left _ member))
            (versions d inside) _
        exact BucketPool.setEntry_congr (links _ (by simp)) (links c here)
      · show n + 1 ≤ 19 * q.spareSize + 16
        omega
  · rw [if_neg free]
    refine goes_read tracks (.spare agrees chain full ?_ (by omega))
    rcases Nat.lt_or_eq_of_le low with earlier | rfl
    · exact earlier
    · rw [tracks.claims.fresh k (by omega) le_rfl] at free
      exact absurd rfl free

/-- The link to the spare claimed. -/
theorem goes_join {q pool : BucketPool} {spares : Nat → List Nat} {claimed fuel bkt next n : Nat}
    {args : IndexArgs} (tracks : q.Tracks fuel pool spares claimed) (main : args.main < q.mainSize)
    (member : bkt ∈ q.chain args.main) (slot : (next, 0) ∈ slots (q.chain args.main))
    (empty : isEmptyEntry (pool.entry (next, 0)) = true)
    (agrees : q.Agrees ((pool.setLink bkt (sub64 next bkt % 2 ^ 32)).setEntry next 0
      (IndexCall.insert args).leaves) args.main)
    (paced : n ≤ 19 * q.spareSize + 16) :
    Goes fuel q pool claimed n ⟨.insert args, true, .join bkt next⟩
      (move pool ⟨.insert args, true, .join bkt next⟩) := by
  refine goes_write tracks main member rfl rfl rfl (fun _ => .fresh slot ?_ agrees (by omega))
    fun idle => (by cases idle)
  change isEmptyEntry ((pool.setLink bkt (sub64 next bkt % 2 ^ 32)).entry (next, 0)) = true
  have entries : ((pool.setLink bkt (sub64 next bkt % 2 ^ 32)).cells next).entries =
    (pool.cells next).entries := by
    simp only [BucketPool.setLink, BucketPool.setCell, Function.update_apply]
    split
    · rename_i here
      rw [here]
    · rfl
  rw [BucketPool.entry, entries]
  exact empty

/-- The first slot of the spare claimed. -/
theorem goes_fresh {q pool : BucketPool} {spares : Nat → List Nat} {claimed fuel bkt n : Nat} {args : IndexArgs}
    (tracks : q.Tracks fuel pool spares claimed) (slot : (bkt, 0) ∈ slots (q.chain args.main))
    (empty : isEmptyEntry (pool.entry (bkt, 0)) = true)
    (agrees : q.Agrees (pool.setEntry bkt 0 (IndexCall.insert args).leaves) args.main)
    (paced : n ≤ 19 * q.spareSize + 17) :
    Goes fuel q pool claimed n ⟨.insert args, true, .slot bkt 0⟩
      (move pool ⟨.insert args, true, .slot bkt 0⟩) := by
  simp only [move, IndexCall.test, empty, if_true]
  exact ⟨q, spares, claimed, tracks, Or.inl ⟨rfl, rfl⟩, .refl q, fun j _ _ => .refl q j, fun _ member => member,
    fun _ _ => ⟨rfl, rfl⟩, le_rfl, rfl, rfl, fun _ => .first slot agrees (by omega), fun idle => (by cases idle)⟩

theorem goes_first {q pool : BucketPool} {spares : Nat → List Nat} {claimed fuel bkt index n : Nat}
    {call : IndexCall} (tracks : q.Tracks fuel pool spares claimed) (main : call.args.main < q.mainSize)
    (slot : (bkt, index) ∈ slots (q.chain call.args.main))
    (agrees : q.Agrees (pool.setEntry bkt index call.leaves) call.args.main) (paced : n ≤ 19 * q.spareSize + 18) :
    Goes fuel q pool claimed n ⟨call, true, .first bkt index⟩ (move pool ⟨call, true, .first bkt index⟩) := by
  refine goes_write tracks main (mem_slots.mp slot).1 rfl rfl rfl (fun _ => .second slot ?_ (by omega))
    fun idle => (by cases idle)
  change q.Agrees ((pool.setEntry bkt index (call.first (pool.entry (bkt, index)))).setEntry bkt index
    (call.second ((pool.setEntry bkt index (call.first (pool.entry (bkt, index)))).entry (bkt, index))))
      call.args.main
  rw [BucketPool.setEntry_twice, BucketPool.setEntry_entry_same (p := (bkt, index)), IndexCall.second_first]
  exact agrees

theorem goes_second {q pool : BucketPool} {spares : Nat → List Nat} {claimed fuel bkt index n : Nat}
    {call : IndexCall} (tracks : q.Tracks fuel pool spares claimed) (main : call.args.main < q.mainSize)
    (slot : (bkt, index) ∈ slots (q.chain call.args.main))
    (agrees : q.Agrees (pool.setEntry bkt index (call.second (pool.entry (bkt, index)))) call.args.main)
    (paced : n ≤ 19 * q.spareSize + 19) :
    Goes fuel q pool claimed n ⟨call, true, .second bkt index⟩ (move pool ⟨call, true, .second bkt index⟩) :=
  goes_write tracks main (mem_slots.mp slot).1 rfl rfl rfl (fun busy => (by cases busy))
    fun _ => ⟨agrees, rfl, by omega⟩

/-- Every access of a call. -/
theorem Stage.goes {q pool : BucketPool} {spares : Nat → List Nat} {claimed fuel n : Nat} {th : IndexThread}
    (tracks : q.Tracks fuel pool spares claimed) (stage : th.Stage q pool claimed n)
    (main : th.call.args.main < q.mainSize) :
    Goes fuel q pool claimed n th (th.move pool) := by
  cases stage with
  | slot agrees chain inside passed skipped paced =>
    exact goes_slot tracks main agrees chain inside passed skipped paced
  | link agrees chain passed paced => exact goes_link tracks main agrees chain passed paced
  | follow agrees chain passed linked paced => exact goes_follow tracks main agrees chain passed linked paced
  | spare agrees chain full low paced => exact goes_spare tracks main agrees chain full low paced
  | swap agrees chain full low inside paced => exact goes_swap tracks main agrees chain full low inside paced
  | join member slot empty agrees paced => exact goes_join tracks main member slot empty agrees paced
  | fresh slot empty agrees paced => exact goes_fresh tracks slot empty agrees paced
  | first slot agrees paced => exact goes_first tracks main slot agrees paced
  | second slot agrees paced => exact goes_second tracks main slot agrees paced

end IndexThread

end Fkv
