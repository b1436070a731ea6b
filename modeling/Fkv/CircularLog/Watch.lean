import Fkv.CircularLog.Race

namespace Fkv
open ByteMemory CWord OptimisticRead Runs

variable {σ τ : Type}

namespace Reader

theorem reading_eq {r : Reader} : r.reading = true ↔ r.pc ≠ .idle ∧ r.pc ≠ .load ∧ ∀ ret, r.pc ≠ .done ret := by
  cases pc : r.pc <;> simp [reading, pc]

theorem busy_of_reading {r : Reader} (reading : r.reading = true) : r.busy = true := by
  obtain ⟨idle, -, done⟩ := reading_eq.mp reading
  cases pc : r.pc <;> simp_all [busy]

theorem step_asked {t : KvTable σ} {r : Reader} : (r.step t).asked = r.asked ∧ (r.step t).bkt = r.bkt := by
  rw [step]
  repeat' split
  all_goals exact ⟨rfl, rfl⟩

/-- An access within an attempt that is not its last. -/
theorem step_reading {t : KvTable σ} {r : Reader} (reading : r.reading = true) (on : ∀ ret, r.pc ≠ .check ret) :
    (r.step t).reading = true ∧ (r.step t).versionBegining = r.versionBegining := by
  rw [reading_eq] at reading
  rw [step]
  split
  · rename_i pc
    exact absurd pc reading.1
  · rename_i pc
    exact absurd pc reading.2.1
  · split
    · exact ⟨rfl, rfl⟩
    · split <;> exact ⟨rfl, rfl⟩
  · split <;> exact ⟨rfl, rfl⟩
  · exact ⟨rfl, rfl⟩
  · split <;> exact ⟨rfl, rfl⟩
  · exact ⟨rfl, rfl⟩
  · split <;> exact ⟨rfl, rfl⟩
  · exact ⟨rfl, rfl⟩
  · exact ⟨rfl, rfl⟩
  · rename_i ret pc
    exact absurd pc (on ret)
  · rename_i ret pc
    exact absurd pc (reading.2.2 ret)

end Reader

/-- The attempt under way. -/
def Watch.attempt (w : Watch σ) : Attempt Reader :=
  ⟨{ w.reader with entry := w.begun, pc := .tag w.reader.bkt 0 }, w.reader, w.reader.versionBegining, w.changes⟩

/-- The attempt that was accepted. -/
def Watch.Decided (S : Setting σ) (w : Watch σ) (ret : Bool) : Prop :=
  w.changes % 2 ^ 32 = 0 ∧ (w.changes = 0 → w.reader.versionBegining % 2 = 0 → ∃ t ∈ w.seen,
    (t.bktPool.cells w.reader.bkt).version = w.reader.versionBegining ∧
    w.reader.bkt = getEntryBucket t.bktPool w.reader.asked ∧
    S.Stands t (bucketIndex t.bktPool.mainSize (entryKeyhash w.reader.asked 0)) ∧
    t.Gets w.begun w.reader.bkt 0 (ret, w.reader.entry))

/-- What holds of a thread that reads between any two steps. -/
structure Watch.Sound (S : Setting σ) (t : KvTable σ) (w : Watch σ) : Prop where
  place : w.reader.busy = true → w.reader.bkt = getEntryBucket t.bktPool w.reader.asked ∧ t ∈ w.seen
  follows : w.reader.reading = true →
    (readProtocol (bucketIndex t.bktPool.mainSize (entryKeyhash w.reader.asked 0)) w.reader.bkt).Follows t
      w.attempt
  decided : ∀ ret, w.reader.pc = .done ret → w.Decided S ret
  paced : w.reader.reading = true → w.attempts + w.changes ≤ w.altered + 1
  again : w.reader.pc = .load → w.attempts ≤ w.altered
  retries : w.attempts ≤ w.altered + 1

namespace Watch.Sound

theorem ask {S : Setting σ} {t : KvTable σ} (entry : Mem) : (Watch.ask t entry).Sound S t :=
  ⟨fun _ => ⟨rfl, List.mem_singleton_self t⟩, fun reading => (by cases reading), fun ret done => (by cases done),
    fun reading => (by cases reading), fun _ => le_rfl, Nat.zero_le _⟩

theorem wrote {S : Setting σ} {t u : KvTable σ} {w : Watch σ} {rest : List (KvTable σ)} (sound : w.Sound S t)
    (writing : S.Writing t (u :: rest)) : (w.wrote t u).Sound S u := by
  obtain ⟨-, alike, writes⟩ := writing.write
  rw [Watch.wrote]
  by_cases busy : w.reader.busy = true
  · rw [if_pos busy]
    obtain ⟨place, here⟩ := sound.place busy
    refine ⟨fun _ => ⟨by rw [alike.getEntryBucket]; exact place, List.mem_cons_self⟩, fun reading => ?_,
      fun ret done => ?_, fun reading => ?_, fun pc => ?_, ?_⟩
    · have follows := sound.follows reading
      rw [alike.mainSize]
      have change := writes _ (writing.main_lt (entryKeyhash w.reader.asked 0))
      rw [← getEntryBucket, ← place] at change
      exact follows.write change
    · rw [Reader.busy, show w.reader.pc = .done ret from done] at busy
      cases busy
    · have paced := sound.paced reading
      dsimp only
      split <;> omega
    · have again := sound.again pc
      dsimp only
      split <;> omega
    · have retries := sound.retries
      dsimp only
      split <;> omega
  · rw [if_neg busy]
    exact ⟨fun now => absurd now busy, fun reading => absurd (Reader.busy_of_reading reading) busy, sound.decided,
      sound.paced, sound.again, sound.retries⟩

theorem kept {S : Setting σ} {t : KvTable σ} {w : Watch σ} (sound : w.Sound S t) (busy : w.reader.busy = true) :
    (w.read t).reader.bkt = getEntryBucket t.bktPool (w.read t).reader.asked ∧ t ∈ (w.read t).seen := by
  obtain ⟨asked, bkt⟩ := Reader.step_asked (t := t) (r := w.reader)
  simp only [Watch.read, asked, bkt]
  exact sound.place busy

theorem read_load {S : Setting σ} {t : KvTable σ} {w : Watch σ} {pending : List (KvTable σ)}
    (sound : w.Sound S t) (writing : S.Writing t pending) (pc : w.reader.pc = .load) :
    (w.read t).Sound S t := by
  have busy : w.reader.busy = true := by rw [Reader.busy, pc]
  obtain ⟨place, here⟩ := sound.place busy
  have main := writing.main_lt (entryKeyhash w.reader.asked 0)
  obtain ⟨fits, stands⟩ := writing.stands main
  have next : w.reader.step t =
      { w.reader with versionBegining := (t.bktPool.cells w.reader.bkt).version, pc := .tag w.reader.bkt 0 } := by
    rw [Reader.step, pc]
  rw [← getEntryBucket, ← place] at fits stands
  have begins := sound.again pc
  refine ⟨fun _ => sound.kept busy, fun _ => ?_, fun ret done => ?_, fun _ => ?_, fun again => ?_, ?_⟩
  · simp only [Watch.attempt, Watch.read, pc, if_true, next]
    refine Protocol.Follows.begin (P := readProtocol _ w.reader.bkt) fits fun even => ⟨place, ?_⟩
    have first := ((stands even).closed main).1
    rw [← getEntryBucket, ← place] at first
    exact mem_slots.mpr ⟨first, show 0 < bucketEntrySize by decide⟩
  · simp only [Watch.read, next] at done
    cases done
  · simp only [Watch.read, pc, if_true]
    omega
  · simp only [Watch.read, next] at again
    cases again
  · simp only [Watch.read, pc, if_true]
    omega

/-- An access of an attempt that is not its last. -/
theorem read_on {S : Setting σ} {t : KvTable σ} {w : Watch σ} {pending : List (KvTable σ)} (sound : w.Sound S t)
    (writing : S.Writing t pending) (reading : w.reader.reading = true) (on : ∀ ret, w.reader.pc ≠ .check ret) :
    (w.read t).Sound S t := by
  have busy := Reader.busy_of_reading reading
  obtain ⟨place, here⟩ := sound.place busy
  have main := writing.main_lt (entryKeyhash w.reader.asked 0)
  obtain ⟨-, stands⟩ := writing.stands main
  rw [← getEntryBucket, ← place] at stands
  obtain ⟨asked, bkt⟩ := Reader.step_asked (t := t) (r := w.reader)
  obtain ⟨still, version⟩ := Reader.step_reading (t := t) reading on
  have loaded := (Reader.reading_eq.mp reading).2.1
  have next : w.read t = { w with reader := w.reader.step t } := by simp only [Watch.read, loaded, if_false]
  refine ⟨fun _ => sound.kept busy, fun _ => ?_, fun ret done => ?_, fun _ => ?_, fun again => ?_, ?_⟩
  · rw [next]
    simp only [Watch.attempt, asked, bkt, version]
    exact (sound.follows reading).read fun even reads => KvTable.Reads.step ((stands even).closed main) reads on
  · rw [next] at done
    exact absurd done ((Reader.reading_eq.mp still).2.2 ret)
  · rw [next]
    exact sound.paced reading
  · rw [next] at again
    exact absurd again (Reader.reading_eq.mp still).2.1
  · rw [next]
    exact sound.retries

/-- The last access of an attempt. -/
theorem read_check {S : Setting σ} {t : KvTable σ} {w : Watch σ} {pending : List (KvTable σ)} {ret : Bool}
    (sound : w.Sound S t) (writing : S.Writing t pending) (pc : w.reader.pc = .check ret) :
    (w.read t).Sound S t := by
  have busy : w.reader.busy = true := by rw [Reader.busy, pc]
  have reading : w.reader.reading = true := by rw [Reader.reading, pc]
  obtain ⟨place, here⟩ := sound.place busy
  have main := writing.main_lt (entryKeyhash w.reader.asked 0)
  obtain ⟨-, stands⟩ := writing.stands main
  rw [← getEntryBucket, ← place] at stands
  have follows := sound.follows reading
  by_cases same : w.reader.versionBegining = (t.bktPool.cells w.reader.bkt).version
  · have next : w.read t = { w with reader := { w.reader with pc := .done ret } } := by
      simp only [Watch.read, Reader.step, pc, same, ne_eq, not_true_eq_false, if_false, reduceCtorEq]
    rw [next]
    refine ⟨fun none => (by cases none), fun none => (by cases none), fun ret' done => ?_,
      fun none => (by cases none), fun none => (by cases none), sound.retries⟩
    obtain rfl : ret = ret' := by simpa using done
    refine ⟨follows.accept same.symm,
      fun none even => ⟨t, here, same.symm, place, stands (by rw [← same]; exact even), ?_⟩⟩
    exact Reader.along_gets (follows.clean none even).2 rfl pc
  · have next : (w.read t).reader = { w.reader with pc := .load } := by
      simp only [Watch.read, Reader.step, pc, ne_eq, same, not_false_eq_true, if_true]
    have paced := sound.paced reading
    have changed := follows.retry same
    have kept : (w.read t).attempts = w.attempts ∧ (w.read t).altered = w.altered := by
      simp only [Watch.read, pc, reduceCtorEq, if_false, and_self]
    refine ⟨fun _ => sound.kept busy, fun none => ?_, fun ret' done => ?_, fun none => ?_, fun _ => ?_, ?_⟩
    · rw [next] at none
      cases none
    · rw [next] at done
      cases done
    · rw [next] at none
      cases none
    · simp only [Watch.attempt] at changed
      omega
    · rw [kept.1, kept.2]
      exact sound.retries

theorem read {S : Setting σ} {t : KvTable σ} {w : Watch σ} {pending : List (KvTable σ)} (sound : w.Sound S t)
    (writing : S.Writing t pending) : (w.read t).Sound S t := by
  cases pc : w.reader.pc with
  | load => exact sound.read_load writing pc
  | check ret => exact sound.read_check writing pc
  | idle =>
    have same : w.read t = w := by simp [Watch.read, Reader.step, pc]
    rwa [same]
  | done ret =>
    have same : w.read t = w := by simp [Watch.read, Reader.step, pc]
    rwa [same]
  | _ => exact sound.read_on writing (by rw [Reader.reading, pc]) (by simp [pc])

end Watch.Sound

/-- What holds of writers and readers between any two steps. -/
structure Race.Sound [DecidableEq τ] (S : Setting σ) (s : Race σ τ) : Prop where
  writing : S.Writing s.table s.pending
  watches : ∀ i, (s.watches i).Sound S s.table

section Race
variable [DecidableEq τ]

theorem Race.Sound.start {S : Setting σ} {t : KvTable σ} (fresh : S.Fresh t) (unlocked : t.Unlocked) :
    (Race.start t : Race σ τ).Sound S :=
  ⟨.rest fresh.holds unlocked, fun _ => ⟨fun busy => (by cases busy), fun reading => (by cases reading),
    fun ret done => (by cases done),
    fun reading => (by cases reading), fun load => (by cases load), Nat.zero_le _⟩⟩

theorem Setting.Fresh.unlocked {S : Setting σ} {t : KvTable σ} (fresh : S.Fresh t) : t.Unlocked := by
  intro i main
  rw [fresh.pool]
  exact ⟨rfl, Nat.two_pow_pos 32⟩

theorem Race.Sound.step {S : Setting σ} {s s' : Race σ τ} {act : RaceAct τ} {fuel : Nat} (sound : s.Sound S)
    (legal : S.RaceLegal fuel s act) (done : S.raceStep fuel s act = .ok s') :
    s'.Sound S := by
  obtain ⟨table, pending, watches⟩ := s
  obtain ⟨writing, readers⟩ := sound
  cases act with
  | call call =>
    obtain ⟨rest, lawful, bounded, succeeds⟩ := legal
    obtain ⟨⟨res, writes⟩, trace, same⟩ := bind_eq_ok.mp done
    cases same
    simp only at rest
    subst rest
    exact ⟨writing.starts lawful bounded succeeds trace, readers⟩
  | write =>
    cases pending with
    | nil =>
      cases done
      exact ⟨writing, readers⟩
    | cons next rest =>
      cases done
      exact ⟨writing.write.1, fun i => (readers i).wrote writing⟩
  | ask i entry =>
    cases done
    refine ⟨writing, fun j => ?_⟩
    by_cases here : j = i
    · subst here
      simp only [Function.update_self]
      exact .ask entry
    · simp only [Function.update_of_ne here]
      exact readers j
  | read i =>
    cases done
    refine ⟨writing, fun j => ?_⟩
    by_cases here : j = i
    · subst here
      simp only [Function.update_self]
      exact (readers j).read writing
    · simp only [Function.update_of_ne here]
      exact readers j

/-- The writes of the call under way leave the readers where they are. -/
theorem Setting.raceWrites (S : Setting σ) (fuel : Nat) (table : KvTable σ) (pending : List (KvTable σ))
    (watches : τ → Watch σ) :
    ∃ watches', run (S.raceStep fuel) (List.replicate pending.length .write) ⟨table, pending, watches⟩ =
      .ok ⟨pending.getLastD table, [], watches'⟩ ∧ ∀ i, (watches' i).reader = (watches i).reader := by
  induction pending generalizing table watches with
  | nil => exact ⟨watches, rfl, fun _ => rfl⟩
  | cons next rest ih =>
    obtain ⟨watches', done, same⟩ := ih next fun i => (watches i).wrote table next
    have step : S.raceStep fuel ⟨table, next :: rest, watches⟩ .write =
        .ok ⟨next, rest, fun i => (watches i).wrote table next⟩ := rfl
    refine ⟨watches', ?_, fun i => (same i).trans ?_⟩
    · rw [List.length_cons, List.replicate_succ, run_cons step, done, List.getLastD_cons]
    · rw [Watch.wrote]
      split <;> rfl

/-- The accesses of one reader leave the table as it is. -/
theorem Setting.raceReads (S : Setting σ) (fuel n : Nat) (table : KvTable σ) (pending : List (KvTable σ))
    (watches : τ → Watch σ) (i : τ) :
    ∃ watches', run (S.raceStep fuel) (List.replicate n (.read i)) ⟨table, pending, watches⟩ =
      .ok ⟨table, pending, watches'⟩ ∧ (watches' i).reader = (Reader.step table)^[n] (watches i).reader := by
  induction n generalizing watches with
  | zero => exact ⟨watches, rfl, rfl⟩
  | succ n ih =>
    obtain ⟨watches', done, same⟩ := ih (Function.update watches i ((watches i).read table))
    have step : S.raceStep fuel ⟨table, pending, watches⟩ (.read i) =
        .ok ⟨table, pending, Function.update watches i ((watches i).read table)⟩ := rfl
    refine ⟨watches', ?_, ?_⟩
    · rw [List.replicate_succ, run_cons step, done]
    · rw [same, Function.update_self, Function.iterate_succ_apply]
      rfl

end Race

end Fkv
