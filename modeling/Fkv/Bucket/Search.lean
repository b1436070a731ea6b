import Fkv.Bucket.Chain

namespace Fkv

/-- The occupied slots of a chain whose tags match, in chain order. -/
def matchingSlots (pool : BucketPool) (keyhash : Nat) (chain : List Nat) : List (Nat × Nat) :=
  (slots chain).filter (fun p => !isEmptyEntry (pool.entry p) && matchIndexEntryTag (pool.entry p).tag keyhash)

/-- Searching again and again with the cursor the last search has left, until it
returns NULL, returns these slots. -/
inductive Iterates (pool : BucketPool) (keyhash : Nat) : Nat → Nat → List (Nat × Nat) → Prop
  | done {fuel bkt index : Nat} (null : searchIndexEntry pool keyhash fuel bkt index = .ok none) :
      Iterates pool keyhash bkt index []
  | next {fuel bkt index b i : Nat} {later : List (Nat × Nat)}
      (found : searchIndexEntry pool keyhash fuel bkt index = .ok (some (b, i)))
      (rest : Iterates pool keyhash b i later) : Iterates pool keyhash bkt index ((b, i) :: later)

theorem matching_occupied {keyhash : Nat} {e : IndexEntry} (matching : matchIndexEntryTag e.tag keyhash = true) :
    isEmptyEntry e = false := by
  rw [isEmptyEntry_eq_false, matchIndexEntryTag_iff.mp matching]
  exact lookupKeyTagHashPortion_ne_zero keyhash

theorem mem_matchingSlots {pool : BucketPool} {keyhash : Nat} {chain : List Nat} {p : Nat × Nat} :
    p ∈ matchingSlots pool keyhash chain ↔ p ∈ slots chain ∧
    matchIndexEntryTag (pool.entry p).tag keyhash = true := by
  simp only [matchingSlots, List.mem_filter, Bool.and_eq_true, Bool.not_eq_true']
  constructor
  · rintro ⟨member, -, matching⟩
    exact ⟨member, matching⟩
  · rintro ⟨member, matching⟩
    exact ⟨member, matching_occupied matching, matching⟩

/-- More fuel does not change what a search returns. -/
theorem search_more {pool : BucketPool} {keyhash fuel bkt index : Nat} {r : Option (Nat × Nat)}
    (done : searchIndexEntry pool keyhash fuel bkt index = .ok r) (more : Nat) :
    searchIndexEntry pool keyhash (fuel + more) bkt index = .ok r := by
  induction fuel generalizing bkt index with
  | zero => cases done
  | succ fuel ih =>
    rw [Nat.add_right_comm, searchIndexEntry]
    rw [searchIndexEntry] at done
    split at done
    · exact done
    · split at done
      · exact ih done
      · exact done

theorem insert_more {pool : BucketPool} {keyhash fuel bkt offset : Nat} {result : Bool × BucketPool}
    (done : insertIndexEntry keyhash offset fuel pool bkt = .ok result) (more : Nat) :
    insertIndexEntry keyhash offset (fuel + more) pool bkt = .ok result := by
  induction fuel generalizing pool bkt with
  | zero => cases done
  | succ fuel ih =>
    rw [Nat.add_right_comm, insertIndexEntry]
    rw [insertIndexEntry] at done
    split at done
    · exact done
    · split at done
      · exact ih done
      · split at done
        · exact ih done
        · exact done

/-- Whatever fuel a search of a chain returns with, it returns the first match. -/
theorem search_eq {pool : BucketPool} {keyhash fuel bkt : Nat} {rest : List Nat} {r : Option (Nat × Nat)}
    (linked : pool.Linked (bkt :: rest)) (done : searchIndexEntry pool keyhash fuel bkt 0 = .ok r) :
    r = (slots (bkt :: rest)).find? (fun p => matchIndexEntryTag (pool.entry p).tag keyhash) := by
  have longer := search_more done (rest.length + 1)
  rw [search_spec linked (by omega)] at longer
  exact (Except.ok.inj longer).symm

/-- A cursor left on a matching slot finds that slot again. -/
theorem search_again {pool : BucketPool} {keyhash fuel bkt index : Nat}
    (matching : matchIndexEntryTag (pool.entry (bkt, index)).tag keyhash = true)
    (inside : index < bucketEntrySize) :
    searchIndexEntry pool keyhash (fuel + 1) bkt index = .ok (some (bkt, index)) := by
  obtain ⟨n, left⟩ : ∃ n, bucketEntrySize - index = n + 1 := ⟨bucketEntrySize - index - 1, by omega⟩
  have here : matchIndexEntryTag ((pool.cells bkt).entries index).tag keyhash = true := matching
  rw [searchIndexEntry, left, findSlot, if_pos here]

/-- So the iteration from there never ends. -/
theorem iterates_stuck {pool : BucketPool} {keyhash bkt index : Nat} {found : List (Nat × Nat)}
    (iterates : Iterates pool keyhash bkt index found) (inside : index < bucketEntrySize) :
    matchIndexEntryTag (pool.entry (bkt, index)).tag keyhash = false := by
  by_contra matching
  rw [Bool.not_eq_false] at matching
  induction iterates with
  | @done fuel bkt index null =>
    cases fuel with
    | zero => cases null
    | succ fuel =>
      rw [search_again matching inside] at null
      cases null
  | @next fuel bkt index b i later found rest ih =>
    cases fuel with
    | zero => cases found
    | succ fuel =>
      rw [search_again matching inside] at found
      obtain ⟨rfl, rfl⟩ := Prod.mk.inj (Option.some.inj (Except.ok.inj found))
      exact ih inside matching

/-- An iteration over a chain that ends has found nothing to return. -/
theorem Iterates.nothing {pool : BucketPool} {keyhash bkt : Nat} {rest : List Nat} {found : List (Nat × Nat)}
    (linked : pool.Linked (bkt :: rest)) (iterates : Iterates pool keyhash bkt 0 found) :
    matchingSlots pool keyhash (bkt :: rest) = [] := by
  cases iterates with
  | done null =>
    have none := search_eq linked null
    rw [List.eq_nil_iff_forall_not_mem]
    intro p member
    obtain ⟨inside, matching⟩ := mem_matchingSlots.mp member
    exact List.find?_eq_none.mp none.symm p inside matching
  | next here later =>
    have first := search_eq linked here
    have matching := List.find?_some first.symm
    have inside := (mem_slots.mp (List.mem_of_find?_eq_some first.symm)).2
    have stuck := iterates_stuck later inside
    exact absurd matching (by simp [stuck])

/-- Searching on from where the last search left off returns the matching slots
of a chain in order exactly when there are none. -/
theorem search_resumes_iff (pool : BucketPool) (keyhash bkt : Nat) (rest : List Nat)
    (linked : pool.Linked (bkt :: rest)) :
    Iterates pool keyhash bkt 0 (matchingSlots pool keyhash (bkt :: rest)) ↔
      matchingSlots pool keyhash (bkt :: rest) = [] := by
  constructor
  · exact Iterates.nothing linked
  · intro nothing
    rw [nothing]
    refine .done (search_spec linked (Nat.lt_succ_self rest.length) |>.trans (congrArg Except.ok ?_))
    refine List.find?_eq_none.mpr fun p member matching => ?_
    have listed := mem_matchingSlots.mpr ⟨member, matching⟩
    rw [nothing] at listed
    cases listed

/-- A main bucket and its spare with a pair in each. -/
def twoBuckets : BucketPool :=
  (((createBucketPool 4096 1 1).setLink 4096 128).setEntry 4096 0 ⟨1, 40⟩).setEntry 4224 3 ⟨2, 48⟩

theorem search_resumes_iff_two :
    Iterates twoBuckets 3 4096 0 (matchingSlots twoBuckets 3 [4096, 4224]) ∧
      ¬ Iterates twoBuckets 2 4096 0 (matchingSlots twoBuckets 2 [4096, 4224]) := by
  have linked : twoBuckets.Linked [4096, 4224] :=
    ⟨by decide, show nextSpareBucket twoBuckets 4224 = none by decide⟩
  refine ⟨(search_resumes_iff twoBuckets 3 4096 [4224] linked).mpr (by decide), fun iterates => ?_⟩
  exact absurd ((search_resumes_iff twoBuckets 2 4096 [4224] linked).mp iterates) (by decide)

/-- One matching slot is enough for the iteration to return it for ever. -/
theorem search_repeats :
    ((createBucketPool 4096 1 0).setEntry 4096 0 ⟨1, 0⟩).Linked [4096] ∧
      ¬ Iterates ((createBucketPool 4096 1 0).setEntry 4096 0 ⟨1, 0⟩) 1 4096 0
        (matchingSlots ((createBucketPool 4096 1 0).setEntry 4096 0 ⟨1, 0⟩) 1 [4096]) := by
  refine ⟨rfl, fun iterates => ?_⟩
  have unmatched := iterates_stuck iterates (by decide)
  exact absurd unmatched (by decide)

end Fkv
