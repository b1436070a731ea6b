import Fkv.CircularLog.Alone

namespace Fkv
open ByteMemory CWord OptimisticRead Runs

variable {σ τ : Type}

/-- The test for equal keys depends on the key of the caller only. -/
theorem KvTable.match_congr {t : KvTable σ} {entry entry' : Mem} (same : entryKey entry = entryKey entry')
    (offset : Nat) :
    t.matchCircularLogEntryKey entry offset = t.matchCircularLogEntryKey entry' offset := by
  have length : keyLength entry 0 = keyLength entry' 0 := by
    have lengths := congrArg List.length same
    simpa only [entryKey, readBytes_length] using lengths
  simp only [entryKey, length] at same
  simp only [matchCircularLogEntryKey, equalCircularLogEntryKey, length, same]

/-- What the loop of `__get_circular_log_entry` finds in such a chain. -/
theorem Setting.Stands.gets_answers {S : Setting σ} {t : KvTable σ} {begun asked entry : Mem} {ret : Bool}
    (stands : S.Stands t (bucketIndex t.bktPool.mainSize (entryKeyhash asked 0)))
    (main : bucketIndex t.bktPool.mainSize (entryKeyhash asked 0) < t.bktPool.mainSize)
    (hash : entryKeyhash begun 0 = entryKeyhash asked 0) (key : entryKey begun = entryKey asked)
    (gets : t.Gets begun (getEntryBucket t.bktPool asked) 0 (ret, entry)) :
    if ret then ∃ p, t.Present asked p ∧
        readBytes entry 0 (initialSize t.mem (add64 t.baseAddr (t.bktPool.entry p).offset)) =
          readBytes t.mem (add64 t.baseAddr (t.bktPool.entry p).offset)
            (initialSize t.mem (add64 t.baseAddr (t.bktPool.entry p).offset))
      else ∀ p, ¬ t.Present asked p := by
  obtain ⟨enough, gets⟩ := gets
  have loop := gets (enough + 1) (enough + 1) (by omega) (by omega)
  rw [KvTable.getLoop, hash] at loop
  obtain ⟨found, search, rest⟩ := bind_eq_ok.mp loop
  have first := stands.search_ok main search
  cases found with
  | none =>
    cases rest
    rintro p ⟨slot, matching, -⟩
    exact List.find?_eq_none.mp first.symm p slot matching
  | some p =>
    have slot := List.mem_of_find?_eq_some first.symm
    have matching := List.find?_some first.symm
    simp only at rest
    split at rest
    · rename_i both
      cases rest
      refine ⟨p, ⟨slot, matching, ?_⟩, ?_⟩
      · rw [← KvTable.match_congr key]
        exact both.2
      · have whole := readBytes_writeBytes begun 0 (readBytes t.mem (add64 t.baseAddr (t.bktPool.entry p).offset)
          (initialSize t.mem (add64 t.baseAddr (t.bktPool.entry p).offset)))
        rw [readBytes_length] at whole
        exact whole
    · rename_i differs
      rw [← hash] at matching differs
      rw [KvTable.getLoop_stuck matching (mem_slots.mp slot).2 fun equal => differs ⟨matching, equal⟩] at rest
      cases rest

theorem Watch.Sound.linearizes {S : Setting σ} {t : KvTable σ} {w : Watch σ} (sound : w.Sound S t) :
    w.Linearizes := by
  intro ret done
  obtain ⟨round, decided⟩ := sound.decided ret done
  refine ⟨round, fun none even => ?_⟩
  obtain ⟨u, seen, version, -, -, enough, gets⟩ := decided none even
  refine ⟨u, seen, version, enough + 1, ?_⟩
  rw [KvTable.getRetry, gets (enough + 1) (enough + 1) (by omega) (by omega), ok_bind]
  simp only [ne_eq, not_true_eq_false, if_false]

theorem Watch.Sound.answers {S : Setting σ} {t : KvTable σ} {w : Watch σ} (sound : w.Sound S t) : w.Answers := by
  intro ret done none even hash key
  obtain ⟨-, decided⟩ := sound.decided ret done
  obtain ⟨u, seen, version, place, stands, gets⟩ := decided none even
  refine ⟨u, seen, version, ?_⟩
  have main : bucketIndex u.bktPool.mainSize (entryKeyhash w.reader.asked 0) < u.bktPool.mainSize := by
    obtain ⟨q, dir, leaked, holds, sees⟩ := stands
    rw [sees.alike.mainSize]
    exact holds.main_lt _
  rw [place] at gets
  exact stands.gets_answers main hash key gets

/-- However gets interleave with puts and removes that take turns, a get that
returns does what it would have done alone at some moment of the call, if it began
its last attempt at an even version that has not changed since. -/
theorem gets_linearize [DecidableEq τ] (S : Setting σ) (fuel : Nat) (t : KvTable σ) (acts : List (RaceAct τ))
    (s : Race σ τ) (fresh : S.Fresh t) (legal : Meets (S.raceStep fuel) (S.RaceLegal fuel) acts (Race.start t))
    (done : run (S.raceStep fuel) acts (Race.start t) = .ok s) :
    Throughout (S.raceStep fuel) (fun s => ∀ i, (s.watches i).Linearizes) acts (Race.start t) :=
  throughout_of_inv (fun _ _ _ sound legal step => Race.Sound.step sound legal step)
    (fun _ sound i => (sound.watches i).linearizes) (.start fresh fresh.unlocked) legal done

theorem gets_linearize_put :
    ∃ t writes reads s, KvTable.create (fun _ => smallRaw) (fun _ => 0) 4096 (2 ^ 40) 1 1 1 = .ok t ∧
    run (oneSetting.raceStep 4) (putDuringGet writes reads) (Race.start t) = .ok s ∧
    (s.watches ()).reader.pc = .done true ∧
    Throughout (oneSetting.raceStep 4) (fun s => ∀ i, (s.watches i).Linearizes) (putDuringGet writes reads)
      (Race.start t) := by
  obtain ⟨t, writes, reads, s, created, fresh, legal, done, found⟩ := putDuringGet_runs
  exact ⟨t, writes, reads, s, created, done, found, gets_linearize oneSetting 4 t _ s fresh legal done⟩

/-- And if its buffer still held the caller's key, what it returns is the entry of
that key, whole, at some moment of the call, or that there was none. -/
theorem gets_answer [DecidableEq τ] (S : Setting σ) (fuel : Nat) (t : KvTable σ) (acts : List (RaceAct τ))
    (s : Race σ τ) (fresh : S.Fresh t) (legal : Meets (S.raceStep fuel) (S.RaceLegal fuel) acts (Race.start t))
    (done : run (S.raceStep fuel) acts (Race.start t) = .ok s) :
    Throughout (S.raceStep fuel) (fun s => ∀ i, (s.watches i).Answers) acts (Race.start t) :=
  throughout_of_inv (fun _ _ _ sound legal step => Race.Sound.step sound legal step)
    (fun _ sound i => (sound.watches i).answers) (.start fresh fresh.unlocked) legal done

theorem gets_answer_put :
    ∃ t writes reads s, KvTable.create (fun _ => smallRaw) (fun _ => 0) 4096 (2 ^ 40) 1 1 1 = .ok t ∧
    run (oneSetting.raceStep 4) (putDuringGet writes reads) (Race.start t) = .ok s ∧
    (s.watches ()).reader.pc = .done true ∧
    Throughout (oneSetting.raceStep 4) (fun s => ∀ i, (s.watches i).Answers) (putDuringGet writes reads)
      (Race.start t) := by
  obtain ⟨t, writes, reads, s, created, fresh, legal, done, found⟩ := putDuringGet_runs
  exact ⟨t, writes, reads, s, created, done, found, gets_answer oneSetting 4 t _ s fresh legal done⟩

/-- A get makes one attempt more than the version of its bucket changes, at most. -/
theorem gets_retry_bounded [DecidableEq τ] (S : Setting σ) (fuel : Nat) (t : KvTable σ) (acts : List (RaceAct τ))
    (s : Race σ τ) (fresh : S.Fresh t) (legal : Meets (S.raceStep fuel) (S.RaceLegal fuel) acts (Race.start t))
    (done : run (S.raceStep fuel) acts (Race.start t) = .ok s) :
    Throughout (S.raceStep fuel) (fun s => ∀ i, (s.watches i).attempts ≤ (s.watches i).altered + 1) acts
      (Race.start t) :=
  throughout_of_inv (fun _ _ _ sound legal step => Race.Sound.step sound legal step)
    (fun _ sound i => (sound.watches i).retries) (.start fresh fresh.unlocked) legal done

theorem gets_retry_bounded_put :
    ∃ t writes reads s, KvTable.create (fun _ => smallRaw) (fun _ => 0) 4096 (2 ^ 40) 1 1 1 = .ok t ∧
    run (oneSetting.raceStep 4) (putDuringGet writes reads) (Race.start t) = .ok s ∧
    (s.watches ()).reader.pc = .done true ∧
    Throughout (oneSetting.raceStep 4) (fun s => ∀ i, (s.watches i).attempts ≤ (s.watches i).altered + 1)
      (putDuringGet writes reads)
      (Race.start t) := by
  obtain ⟨t, writes, reads, s, created, fresh, legal, done, found⟩ := putDuringGet_runs
  exact ⟨t, writes, reads, s, created, done, found, gets_retry_bounded oneSetting 4 t _ s fresh legal done⟩

end Fkv
