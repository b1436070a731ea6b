import Fkv.Bucket.Interleave

namespace Fkv
open Schedules

namespace IndexRace
variable {τ : Type*} [DecidableEq τ]

theorem Follows.linearized {q pool : BucketPool} {spares : Nat → List Nat} {claimed fuel : Nat}
    {s : IndexRace τ} (follows : s.Follows fuel pool q spares claimed) : s.Linearized fuel pool := by
  have alike := follows.tracks.alike
  refine ⟨q, follows.replays, ⟨follows.tracks.placed, spares, claimed, follows.tracks.chained⟩, follows.booked,
    fun i main none => ?_, fun idle => ?_, fun t => ?_⟩
  · refine follows.tracks.chained.untouched_of_same main alike fun bkt member => follows.apart bkt fun t busy => ?_
    exact follows.tracks.chained.disjoint follows.tracks.placed main (follows.legal t busy).1 (none t busy) member
  · have cells : s.pool.cells = q.cells :=
      funext fun bkt => follows.apart bkt fun t busy => (by rw [idle t] at busy; cases busy)
    obtain ⟨mainSize, spareSize, mains, spares⟩ := alike
    cases pool : s.pool
    cases q
    simp_all
  · have owes := follows.owes t
    by_cases busy : (s.threads t).busy = true
    · rw [IndexThread.owed] at owes
      split at owes
      · exact Or.inr ⟨busy, owes⟩
      · rw [List.map_nil, List.append_nil] at owes
        exact Or.inl owes
    · rw [(follows.idle t (by simpa using busy)).1, List.map_nil, List.append_nil] at owes
      exact Or.inl owes

theorem Sound.linearized {pool : BucketPool} {fuel : Nat} {s : IndexRace τ} (sound : s.Sound fuel pool) :
    s.Linearized fuel pool := by
  obtain ⟨q, spares, claimed, follows⟩ := sound
  exact follows.linearized

/-- However the accesses of inserts and deletes on different main buckets of one pool
interleave, the calls are settled one after the other: no pair is lost or kept
twice, no spare is in two chains, and each call returns what it should. -/
theorem calls_linearize (fuel : Nat) (pool : BucketPool) (sched : List (IndexStep τ))
    (wellFormed : pool.WellFormed) (enough : pool.spareSize < fuel)
    (legal : Each IndexRace.step IndexRace.Legal sched (start pool)) :
    Always IndexRace.step (IndexRace.Linearized fuel pool) sched (start pool) :=
  always_of_each (fun _ => Sound.linearized) (fun _ _ => Sound.step) (Sound.start wellFormed enough) legal

/-- Two threads that insert, one access after the other. -/
def twoInserts : List (IndexStep Bool) :=
  [.start false (.insert ⟨0, 7, 40⟩), .start true (.insert ⟨1, 7, 48⟩), .next true, .next false, .next false,
    .next true, .next true, .next false]

theorem twoInserts_legal : Each IndexRace.step IndexRace.Legal twoInserts (start (createBucketPool 4096 2 1)) := by
  refine ⟨?_, ?_, ⟨trivial, trivial, trivial, trivial, trivial, trivial, trivial⟩⟩
  · exact ⟨rfl, ⟨by decide, by decide⟩, fun u busy => (by cases busy)⟩
  · refine ⟨rfl, ⟨by decide, by decide⟩, fun u busy => ?_⟩
    cases u with
    | false => decide
    | true => cases busy

theorem calls_linearize_two : Always IndexRace.step (IndexRace.Linearized 2 (createBucketPool 4096 2 1)) twoInserts
    (start (createBucketPool 4096 2 1)) :=
  calls_linearize 2 (createBucketPool 4096 2 1) twoInserts
    ⟨⟨rfl, by decide, by decide⟩, _, 0, Chained.created 4096 2 1⟩ (by decide) twoInserts_legal

end IndexRace

end Fkv
