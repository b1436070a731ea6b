import Fkv.Bucket.Parallel

namespace Fkv
open Schedules

/-- A call that has not returned has made few accesses. -/
theorem IndexThread.Stage.paced {q pool : BucketPool} {spares : Nat → List Nat} {claimed fuel n : Nat}
    {th : IndexThread} (tracks : q.Tracks fuel pool spares claimed) (stage : th.Stage q pool claimed n)
    (main : th.call.args.main < q.mainSize) : n ≤ 19 * q.spareSize + 20 := by
  have within := tracks.chained.within
  cases stage with
  | slot agrees chain inside passed skipped paced =>
    have few := tracks.before_le main chain
    simp only [bucketEntrySize] at inside
    omega
  | link agrees chain passed paced =>
    have few := tracks.before_le main chain
    omega
  | follow agrees chain passed linked paced =>
    have few := tracks.before_le main chain
    omega
  | spare agrees chain full low paced =>
    have few := tracks.before_le main chain
    omega
  | swap agrees chain full low inside paced =>
    have few := tracks.before_le main chain
    omega
  | join member slot empty agrees paced => omega
  | fresh slot empty agrees paced => omega
  | first slot agrees paced => omega
  | second slot agrees paced => omega

namespace IndexRace
variable {τ : Type*} [DecidableEq τ]

theorem Follows.paced {q pool : BucketPool} {spares : Nat → List Nat} {claimed fuel : Nat} {s : IndexRace τ}
    (follows : s.Follows fuel pool q spares claimed) (t : τ) : s.accesses t ≤ 19 * pool.spareSize + 20 := by
  rw [← follows.sized]
  by_cases busy : (s.threads t).busy = true
  · exact (follows.stage t busy).paced follows.tracks (follows.legal t busy).1
  · exact (follows.idle t (by simpa using busy)).2

theorem Sound.paced {pool : BucketPool} {fuel : Nat} {s : IndexRace τ} (sound : s.Sound fuel pool) (t : τ) :
    s.accesses t ≤ 19 * pool.spareSize + 20 := by
  obtain ⟨q, spares, claimed, follows⟩ := sound
  exact follows.paced t

/-- No call makes more accesses than this, whatever the other threads do. -/
theorem calls_wait_free (pool : BucketPool) (sched : List (IndexStep τ)) (wellFormed : pool.WellFormed)
    (legal : Each IndexRace.step IndexRace.Legal sched (start pool)) :
    Always IndexRace.step (fun s => ∀ t, s.accesses t ≤ 19 * pool.spareSize + 20) sched (start pool) :=
  always_of_each (fun _ => Sound.paced) (fun _ _ => Sound.step) (Sound.start wellFormed (Nat.lt_succ_self _)) legal

theorem calls_wait_free_two : Always IndexRace.step (fun s => ∀ t, s.accesses t ≤ 39) twoInserts
    (start (createBucketPool 4096 2 1)) :=
  calls_wait_free (createBucketPool 4096 2 1) twoInserts
    ⟨⟨rfl, by decide, by decide⟩, _, 0, Chained.created 4096 2 1⟩ twoInserts_legal

end IndexRace

end Fkv
