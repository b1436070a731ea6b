import Fkv.CircularLog.Watch

namespace Fkv
open ByteMemory CWord OptimisticRead Runs

variable {σ τ : Type}

namespace Reader

/-- A get after `n` accesses to a table nobody writes to. -/
def alone (t : KvTable σ) (entry : Mem) (n : Nat) : Reader := (step t)^[n] (.ask t entry)

/-- Where the tags of a bucket lead. -/
def pcOfSlot (bkt : Nat) : Option Nat → ReaderPc
  | some index => .retag bkt index
  | none => .link bkt

/-- Where the tags of a chain lead. -/
def pcOfSearch : Option (Nat × Nat) → ReaderPc
  | some p => .retag p.1 p.2
  | none => .check false

theorem step_match {t : KvTable σ} {r : Reader} {bkt index : Nat} (pc : r.pc = .tag bkt index)
    (matching : matchIndexEntryTag ((t.bktPool.cells bkt).entries index).tag (entryKeyhash r.entry 0) = true) :
    r.step t = { r with pc := .retag bkt index } := by
  rw [step, pc]
  exact if_pos matching

theorem step_skip {t : KvTable σ} {r : Reader} {bkt index : Nat} (pc : r.pc = .tag bkt index)
    (differs : ¬ matchIndexEntryTag ((t.bktPool.cells bkt).entries index).tag (entryKeyhash r.entry 0) = true) :
    r.step t = { r with pc := if index + 1 < bucketEntrySize then .tag bkt (index + 1) else .link bkt } := by
  rw [step, pc]
  refine (if_neg differs).trans ?_
  split <;> rfl

/-- The accesses to the tags of one bucket. -/
theorem tag_steps {t : KvTable σ} {r : Reader} {bkt index : Nat} (inside : index < bucketEntrySize)
    (pc : r.pc = .tag bkt index) :
    ∃ n, n + index ≤ bucketEntrySize ∧ (step t)^[n] r = { r with
      pc := pcOfSlot bkt (findSlot (fun e => matchIndexEntryTag e.tag (entryKeyhash r.entry 0))
        (t.bktPool.cells bkt) index (bucketEntrySize - index)) } := by
  obtain ⟨left, more⟩ : ∃ left, bucketEntrySize - index = left + 1 := ⟨bucketEntrySize - index - 1, by omega⟩
  induction left generalizing index r with
  | zero =>
    refine ⟨1, by omega, ?_⟩
    rw [more, Function.iterate_one, findSlot, findSlot]
    by_cases matching : matchIndexEntryTag ((t.bktPool.cells bkt).entries index).tag
      (entryKeyhash r.entry 0) = true
    · rw [step_match pc matching, if_pos matching, pcOfSlot]
    · rw [step_skip pc matching, if_neg matching, if_neg (by omega), pcOfSlot]
  | succ left ih =>
    rw [more, findSlot]
    by_cases matching : matchIndexEntryTag ((t.bktPool.cells bkt).entries index).tag
      (entryKeyhash r.entry 0) = true
    · refine ⟨1, by omega, ?_⟩
      rw [Function.iterate_one, step_match pc matching, if_pos matching, pcOfSlot]
    · have next := step_skip pc matching
      rw [if_pos (by omega)] at next
      obtain ⟨n, few, run⟩ :=
        ih (r := r.step t) (show index + 1 < bucketEntrySize by omega) (by rw [next]) (by omega)
      refine ⟨n + 1, by omega, ?_⟩
      rw [Function.iterate_succ_apply, run, next, show bucketEntrySize - (index + 1) = left + 1 by omega,
        if_neg matching]

/-- At the end of a bucket. -/
theorem link_steps {t : KvTable σ} {r : Reader} {bkt : Nat} (pc : r.pc = .link bkt) :
    match nextSpareBucket t.bktPool bkt with
    | some next => (step t)^[2] r = { r with pc := .tag next 0 }
    | none => r.step t = { r with pc := .check false } := by
  rw [nextSpareBucket]
  by_cases last : (t.bktPool.cells bkt).offset = 0
  · rw [if_pos last]
    simp only [step, pc, last, if_true]
  · rw [if_neg last]
    simp only [Function.iterate_succ_apply, Function.iterate_zero_apply, step, pc, last, if_false]

/-- The accesses of a search. -/
theorem search_steps {t : KvTable σ} {r : Reader} {bkt : Nat} {rest : List Nat}
    (linked : t.bktPool.Linked (bkt :: rest)) (pc : r.pc = .tag bkt 0) :
    ∃ n ≤ 17 * rest.length + 16, (step t)^[n] r = { r with
      pc := pcOfSearch ((slots (bkt :: rest)).find?
        fun p => matchIndexEntryTag (t.bktPool.entry p).tag (entryKeyhash r.entry 0)) } := by
  induction rest generalizing bkt r with
  | nil =>
    have last : nextSpareBucket t.bktPool bkt = none := linked
    obtain ⟨n, few, run⟩ := tag_steps (t := t) (show 0 < bucketEntrySize by decide) pc
    simp only [bucketEntrySize] at few
    rw [slots_cons, find_slotsFrom (fun e => matchIndexEntryTag e.tag (entryKeyhash r.entry 0))]
    cases slot : findSlot (fun e => matchIndexEntryTag e.tag (entryKeyhash r.entry 0)) (t.bktPool.cells bkt) 0
        (bucketEntrySize - 0) with
    | some index =>
      rw [slot] at run
      exact ⟨n, by omega, run⟩
    | none =>
      rw [slot] at run
      have ends := link_steps (t := t) (r := { r with pc := .link bkt }) rfl
      simp only [last] at ends
      exact ⟨n + 1, by omega, by rw [Function.iterate_succ_apply', run, pcOfSlot, ends]; rfl⟩
  | cons next rest ih =>
    obtain ⟨n, few, run⟩ := tag_steps (t := t) (show 0 < bucketEntrySize by decide) pc
    simp only [bucketEntrySize] at few
    rw [slots_cons, find_slotsFrom (fun e => matchIndexEntryTag e.tag (entryKeyhash r.entry 0)), List.length_cons]
    cases slot : findSlot (fun e => matchIndexEntryTag e.tag (entryKeyhash r.entry 0)) (t.bktPool.cells bkt) 0
        (bucketEntrySize - 0) with
    | some index =>
      rw [slot] at run
      exact ⟨n, by omega, run⟩
    | none =>
      rw [slot] at run
      have onward := link_steps (t := t) (r := { r with pc := .link bkt }) rfl
      simp only [linked.1] at onward
      obtain ⟨m, few', run'⟩ := ih (r := { r with pc := .tag next 0 }) linked.2 rfl
      refine ⟨m + (2 + n), by omega, ?_⟩
      rw [Function.iterate_add_apply, Function.iterate_add_apply, run, pcOfSlot, onward, run']

theorem alone_done {t : KvTable σ} {r : Reader} {ret : Bool} (pc : r.pc = .done ret) (n : Nat) :
    (step t)^[n] r = r := by
  induction n with
  | zero => rfl
  | succ n ih => rw [Function.iterate_succ_apply', ih, step, pc]

theorem check_step {t : KvTable σ} {r : Reader} {ret : Bool} (pc : r.pc = .check ret)
    (version : r.versionBegining = (t.bktPool.cells r.bkt).version) :
    r.step t = { r with pc := .done ret } := by
  simp only [step, pc, version, ne_eq, not_true_eq_false, if_false]

/-- The accesses to an entry with the key, but for the last. -/
theorem entry_steps {t : KvTable σ} {r : Reader} {p : Nat × Nat} (pc : r.pc = .retag p.1 p.2)
    (matching : matchIndexEntryTag (t.bktPool.entry p).tag (entryKeyhash r.entry 0) = true)
    (equal : t.matchCircularLogEntryKey r.entry (t.bktPool.entry p).offset = true) :
    (step t)^[5] r = { r with
      entry := writeBytes r.entry 0 (readBytes t.mem (add64 t.baseAddr (t.bktPool.entry p).offset)
        (initialSize t.mem (add64 t.baseAddr (t.bktPool.entry p).offset)))
      pc := .check true } := by
  simp only [Function.iterate_succ_apply, Function.iterate_zero_apply]
  have first : r.step t = { r with pc := .offset p.1 p.2 } := by
    rw [step, pc]
    exact if_pos matching
  have third : step t { r with pc := .key p.1 p.2 (t.bktPool.entry p).offset } =
      { r with pc := .size (t.bktPool.entry p).offset } := if_pos equal
  have second : step t { r with pc := .offset p.1 p.2 } =
    { r with pc := .key p.1 p.2 (t.bktPool.entry p).offset } := rfl
  rw [first, second, third]
  simp only [step]

/-- An attempt that began at another version comes back to the load, with the entry
it has found or with the buffer it began with. -/
theorem stale_retries {t : KvTable σ} {r : Reader} {bkt : Nat} {rest : List Nat}
    (linked : t.bktPool.Linked (bkt :: rest)) (pc : r.pc = .tag bkt 0)
    (clear : ∀ p, (slots (bkt :: rest)).find?
      (fun p => matchIndexEntryTag (t.bktPool.entry p).tag (entryKeyhash r.entry 0)) =
      some p → t.matchCircularLogEntryKey r.entry (t.bktPool.entry p).offset = true)
    (changed : r.versionBegining ≠ (t.bktPool.cells r.bkt).version) :
    ∃ n left, (step t)^[n] r = { r with entry := left, pc := .load } ∧ (left = r.entry ∨ ∃ p ∈ slots (bkt :: rest),
      matchIndexEntryTag (t.bktPool.entry p).tag (entryKeyhash r.entry 0) = true ∧
      left = writeBytes r.entry 0 (readBytes t.mem (add64 t.baseAddr (t.bktPool.entry p).offset)
        (initialSize t.mem (add64 t.baseAddr (t.bktPool.entry p).offset)))) := by
  obtain ⟨n, -, run⟩ := search_steps (t := t) linked pc
  cases found : (slots (bkt :: rest)).find? fun p => matchIndexEntryTag (t.bktPool.entry p).tag
    (entryKeyhash r.entry 0) with
  | none =>
    rw [found] at run
    refine ⟨n + 1, r.entry, ?_, Or.inl rfl⟩
    rw [Function.iterate_succ_apply', run, pcOfSearch]
    simp only [step, ne_eq, changed, not_false_eq_true, if_true]
  | some p =>
    rw [found] at run
    have matching := List.find?_some found
    have ends := entry_steps (t := t) (r := { r with pc := .retag p.1 p.2 }) rfl matching (clear p found)
    refine ⟨5 + n + 1, _, ?_, Or.inr ⟨p, List.mem_of_find?_eq_some found, matching, rfl⟩⟩
    rw [Function.iterate_succ_apply', Function.iterate_add_apply, run, pcOfSearch, ends]
    simp only [step, ne_eq, changed, not_false_eq_true, if_true]

theorem alone_asked (t : KvTable σ) (entry : Mem) (n : Nat) : (alone t entry n).asked = entry := by
  induction n with
  | zero => rfl
  | succ n ih =>
    rw [alone, Function.iterate_succ_apply', step_asked.1]
    exact ih

/-- What an undisturbed get has done after its first access. -/
theorem alone_follows {t : KvTable σ} {entry : Mem} {S : Setting σ}
    (stands : S.Stands t (bucketIndex t.bktPool.mainSize (entryKeyhash entry 0)))
    (main : bucketIndex t.bktPool.mainSize (entryKeyhash entry 0) < t.bktPool.mainSize) (n : Nat) :
    (alone t entry (n + 1)).versionBegining = (t.bktPool.cells (getEntryBucket t.bktPool entry)).version ∧
    (((readProtocol (bucketIndex t.bktPool.mainSize (entryKeyhash entry 0))
      (getEntryBucket t.bktPool entry)).Along t
        (alone t entry 1) (alone t entry (n + 1)) ∧
      t.Reads (bucketIndex t.bktPool.mainSize (entryKeyhash entry 0)) (alone t entry (n + 1))) ∨
    ∃ ret, (alone t entry (n + 1)).pc = .done ret ∧
      t.Gets entry (getEntryBucket t.bktPool entry) 0 (ret, (alone t entry (n + 1)).entry)) := by
  have closed := stands.closed main
  induction n with
  | zero => exact ⟨rfl, Or.inl ⟨.refl, rfl, mem_slots.mpr ⟨closed.1, show 0 < bucketEntrySize by decide⟩⟩⟩
  | succ n ih =>
    have next : alone t entry (n + 1 + 1) = (alone t entry (n + 1)).step t := Function.iterate_succ_apply' ..
    rw [next]
    obtain ⟨version, ⟨along, reads⟩ | ⟨ret, done, gets⟩⟩ := ih
    · by_cases ends : ∃ ret, (alone t entry (n + 1)).pc = .check ret
      · obtain ⟨ret, ends⟩ := ends
        have gets := along_gets along rfl ends
        have place : (alone t entry (n + 1)).bkt = getEntryBucket t.bktPool entry := reads.1
        rw [check_step ends (by rw [place]; exact version)]
        exact ⟨version, Or.inr ⟨ret, rfl, gets⟩⟩
      · have on : ∀ ret, (alone t entry (n + 1)).pc ≠ .check ret := fun ret pc => ends ⟨ret, pc⟩
        have reading : (alone t entry (n + 1)).reading = true := by
          refine reading_eq.mpr ⟨fun pc => ?_, fun pc => ?_, fun ret pc => ?_⟩ <;>
          · have stuck := reads.2
            rw [pc] at stuck
            exact stuck
        exact ⟨by rw [(step_reading reading on).2, version], Or.inl ⟨along.next reads, reads.step closed on⟩⟩
    · have still : (alone t entry (n + 1)).step t = alone t entry (n + 1) := alone_done done 1
      rw [still]
      exact ⟨version, Or.inr ⟨ret, done, gets⟩⟩

/-- An undisturbed get that returns does what `get_circular_log_entry` does. -/
theorem alone_gets {t : KvTable σ} {n : Nat} {entry : Mem} {ret : Bool} {S : Setting σ}
    (stands : S.Stands t (bucketIndex t.bktPool.mainSize (entryKeyhash entry 0)))
    (main : bucketIndex t.bktPool.mainSize (entryKeyhash entry 0) < t.bktPool.mainSize)
    (done : (alone t entry n).pc = .done ret) :
    ∃ enough, ∀ fuel, enough ≤ fuel → t.getCircularLogEntry fuel entry = .ok (ret, (alone t entry n).entry) := by
  cases n with
  | zero => cases done
  | succ n =>
    obtain ⟨-, ⟨-, reads⟩ | ⟨ret', done', enough, gets⟩⟩ := alone_follows stands main n
    · have stuck := reads.2
      rw [done] at stuck
      exact stuck.elim
    · obtain rfl : ret' = ret := by simpa using done'.symm.trans done
      refine ⟨enough + 1, fun fuel more => ?_⟩
      obtain ⟨fuel, rfl⟩ : ∃ k, fuel = k + 1 := ⟨fuel - 1, by omega⟩
      rw [KvTable.getCircularLogEntry, KvTable.getRetry, gets (fuel + 1) (fuel + 1) (by omega) (by omega), ok_bind]
      simp only [ne_eq, not_true_eq_false, if_false]

/-- Where the first entry with the tag of the key is that of the key, it returns. -/
theorem alone_returns {t : KvTable σ} {entry : Mem} {S : Setting σ}
    (stands : S.Stands t (bucketIndex t.bktPool.mainSize (entryKeyhash entry 0)))
    (main : bucketIndex t.bktPool.mainSize (entryKeyhash entry 0) < t.bktPool.mainSize) (clear : t.Clear entry) :
    ∃ ret, (alone t entry (17 * t.bktPool.spareSize + 23)).pc = .done ret := by
  obtain ⟨rest, chain, linked, few⟩ := stands.linked main
  obtain ⟨n, steps, run⟩ := search_steps (t := t) (r := alone t entry 1) linked rfl
  rw [← chain] at run
  have version : (alone t entry 1).versionBegining = (t.bktPool.cells (alone t entry 1).bkt).version := rfl
  have reach : ∀ m ret, ((step t)^[m] ((step t)^[n] (alone t entry 1))).pc = .done ret →
    m + n + 1 ≤ 17 * t.bktPool.spareSize + 23 →
      (alone t entry (17 * t.bktPool.spareSize + 23)).pc = .done ret := by
    intro m ret done within
    have split : alone t entry (17 * t.bktPool.spareSize + 23) =
        (step t)^[17 * t.bktPool.spareSize + 23 - (m + n + 1)]
          ((step t)^[m] ((step t)^[n] (alone t entry 1))) := by
      simp only [alone, ← Function.iterate_add_apply]
      congr 1
      omega
    rw [split, alone_done done, done]
  cases found : (slots (t.bktPool.chain (bucketIndex t.bktPool.mainSize (entryKeyhash entry 0)))).find?
      fun p => matchIndexEntryTag (t.bktPool.entry p).tag (entryKeyhash entry 0) with
  | none =>
    have missed : (step t)^[n] (alone t entry 1) = { alone t entry 1 with pc := .check false } := by
      rw [run]
      exact congrArg (fun o => { alone t entry 1 with pc := pcOfSearch o }) found
    refine ⟨false, reach 1 false ?_ (by omega)⟩
    rw [missed]
    exact congrArg pc (check_step (r := { alone t entry 1 with pc := .check false }) rfl version)
  | some p =>
    have hit : (step t)^[n] (alone t entry 1) = { alone t entry 1 with pc := .retag p.1 p.2 } := by
      rw [run]
      exact congrArg (fun o => { alone t entry 1 with pc := pcOfSearch o }) found
    have ends := entry_steps (r := { alone t entry 1 with pc := .retag p.1 p.2 }) rfl
      (BucketPool.firstTagged_some found).2 (clear p found)
    refine ⟨true, reach 6 true ?_ (by omega)⟩
    rw [hit, Function.iterate_succ_apply', ends]
    simp only [step, version, ne_eq, not_true_eq_false, if_false]

end Reader

/-- A search that ends has come to the key of the caller, or to no entry with its tag. -/
theorem Setting.Stands.clear {t : KvTable σ} {entry : Mem} {ret : Bool} {S : Setting σ} {left : Mem}
    {fuel : Nat} (stands : S.Stands t (bucketIndex t.bktPool.mainSize (entryKeyhash entry 0)))
    (main : bucketIndex t.bktPool.mainSize (entryKeyhash entry 0) < t.bktPool.mainSize)
    (done : t.getCircularLogEntry fuel entry = .ok (ret, left)) : t.Clear entry := by
  intro p first
  obtain ⟨slot, matching⟩ := BucketPool.firstTagged_some first
  by_contra differs
  cases fuel with
  | zero => cases done
  | succ fuel =>
    rw [KvTable.getCircularLogEntry, KvTable.getRetry] at done
    obtain ⟨⟨ret, left⟩, loop, -⟩ := bind_eq_ok.mp done
    rw [KvTable.getLoop] at loop
    obtain ⟨found, search, loop⟩ := bind_eq_ok.mp loop
    obtain rfl : found = some p := (stands.search_ok main search).trans first
    simp only at loop
    rw [if_neg fun both => differs both.2, KvTable.getLoop_stuck matching (mem_slots.mp slot).2 differs] at loop
    cases loop

/-- A get that nobody disturbs returns within a bounded number of accesses, with what
`get_circular_log_entry` returns, if the search comes to its key or to no entry with
its tag. If the search comes to another key with that tag, it never does. -/
def KvTable.GetsAlone (t : KvTable σ) (entry : Mem) : Prop :=
  (t.Clear entry → ∃ ret, (Reader.alone t entry (17 * t.bktPool.spareSize + 23)).pc = .done ret) ∧
    ∀ n ret, (Reader.alone t entry n).pc = .done ret → t.Clear entry ∧
      ∃ enough, ∀ fuel, enough ≤ fuel →
        t.getCircularLogEntry fuel entry = .ok (ret, (Reader.alone t entry n).entry)

theorem Race.Sound.gets_alone {entry : Mem} [DecidableEq τ] {S : Setting σ} {s : Race σ τ} (sound : s.Sound S)
    (even : (s.table.bktPool.cells (getEntryBucket s.table.bktPool entry)).version % 2 = 0) :
    s.table.GetsAlone entry := by
  have main := sound.writing.main_lt (entryKeyhash entry 0)
  have stands := (sound.writing.stands main).2 even
  refine ⟨Reader.alone_returns stands main, fun n ret done => ?_⟩
  obtain ⟨enough, gets⟩ := Reader.alone_gets stands main done
  exact ⟨stands.clear main (gets enough le_rfl), enough, gets⟩

/-- The writes of the first put on the table of one log. -/
theorem onePut_writes : ∃ t t₁ offset inside,
    KvTable.create (fun _ => smallRaw) (fun _ => 0) 4096 (2 ^ 40) 1 1 1 = .ok t ∧ oneSetting.Fresh t ∧
    oneSetting.callTrace 4 t (.put (fullEntry 0)) = .ok (true, inside ++ [t₁]) ∧ inside ≠ [] ∧
    oneSetting.Traced t 0 (bucketIndex t.bktPool.mainSize (entryKeyhash (fullEntry 0) 0)) inside t₁ ∧
    t₁.bktPool.spareSize = 1 ∧ oneSetting.Holds t₁ (entryItem (fullEntry 0) offset ::ₘ 0) (fun _ => 0) := by
  obtain ⟨t, t₁, offset, created, fresh, -, spares, performed, holds⟩ := onePut
  have put : ∃ entry, oneSetting.perform 4 t (.put (fullEntry 0)) = .ok (true, entry, t₁) := ⟨_, performed⟩
  obtain ⟨writes, trace, last⟩ := (Setting.callTrace_iff (by simp)).mp put
  obtain ⟨keyed, sized⟩ := fullEntry_legal (show 0 < 31 by decide)
  obtain ⟨inside, last', rfl, some, traced⟩ :=
    fresh.holds.put_traced keyed sized (fullEntry_reads 0 (by decide)).1.le fresh.unlocked trace
  obtain rfl : t₁ = last' := by rw [last, List.getLastD_concat]
  exact ⟨t, t₁, offset, inside, created, fresh, trace, some, traced, spares, holds⟩

/-- A get that starts and loads the version, a put of its key from its start to its
last write, and the rest of the get. -/
def putDuringGet (writes reads : Nat) : List (RaceAct Unit) :=
  .ask () (fullEntry 0) :: .read () :: .call (.put (fullEntry 0)) ::
    (List.replicate writes .write ++ List.replicate reads (.read ()))

/-- Writes and reads are always legal. -/
theorem Setting.raceLegal_free (S : Setting σ) (fuel writes reads : Nat) (t : KvTable σ)
    (pending : List (KvTable σ)) (watches : Unit → Watch σ) : Meets (S.raceStep fuel) (S.RaceLegal fuel)
      (List.replicate writes .write ++ List.replicate reads (.read ())) ⟨t, pending, watches⟩ := by
  refine meets_of_forall fun act member s => ?_
  rcases List.mem_append.mp member with write | read
  · rw [List.eq_of_mem_replicate write]
    trivial
  · rw [List.eq_of_mem_replicate read]
    trivial

/-- A call that returns true may start when no other is under way. -/
theorem Setting.raceLegal_call {S : Setting σ} {fuel : Nat} {s : Race σ τ} {call : KvCall}
    {writes : List (KvTable σ)} (alone : s.pending = []) (legal : S.Legal call) (bounded : S.Bounded call)
    (trace : S.callTrace fuel s.table call = .ok (true, writes)) : S.RaceLegal fuel s (.call call) := by
  refine ⟨alone, legal, bounded, fun entry put writes failed => ?_⟩
  cases trace.symm.trans failed

/-- A get that began before the only entry of a table was put comes back to the load
and then finds it. -/
theorem Reader.retried_returns {t : KvTable σ} {entry : Mem} {S : Setting σ}
    {leaked : Nat → Multiset (Nat × Nat)} {offset version : Nat}
    (holds : S.Holds t (entryItem entry offset ::ₘ 0) leaked) (keyed : S.Keyed entry)
    (changed : version ≠ (t.bktPool.cells (getEntryBucket t.bktPool entry)).version) :
    ∃ n, ((step t)^[n] ⟨entry, entry, getEntryBucket t.bktPool entry, version,
      .tag (getEntryBucket t.bktPool entry) 0⟩).pc =
      .done true := by
  have main := holds.main_lt (entryKeyhash entry 0)
  have stands : S.Stands t (bucketIndex t.bktPool.mainSize (entryKeyhash entry 0)) :=
    ⟨t, _, _, holds, .refl holds _⟩
  obtain ⟨rest, chain, linked, -⟩ := stands.linked main
  obtain ⟨n, left, run, left_eq⟩ := stale_retries linked
    (r := ⟨entry, entry, getEntryBucket t.bktPool entry, version, .tag (getEntryBucket t.bktPool entry) 0⟩) rfl
    (by rw [← chain]; exact holds.clear_alone) changed
  have same : left = entry := by
    rcases left_eq with same | ⟨p, slot, matching, rfl⟩
    · exact same
    · rw [← chain] at slot
      obtain ⟨it, member, -, index, -⟩ := holds.match_item main slot matching
      obtain rfl : it = entryItem entry offset := Multiset.mem_cons.mp member |>.resolve_right (by simp)
      have stored := holds.stored _ (Multiset.mem_cons_self _ _)
      have place := holds.address (Multiset.mem_cons_self _ _)
      rw [← index]
      simp only [Item.index, place, stored.size, stored.bytes]
      simp only [entryItem, writeBytes_readBytes]
  obtain ⟨ret, done⟩ := alone_returns stands main holds.clear_alone
  obtain ⟨enough, gets⟩ := alone_gets stands main done
  have found : ret = true := by
    have call := gets (enough + t.bktPool.spareSize + 1) (by omega)
    rcases holds.gets keyed holds.clear_alone
      (show t.bktPool.spareSize < enough + t.bktPool.spareSize + 1 by omega) with
      ⟨absent, -⟩ | ⟨it, -, -, got⟩
    · exact absurd (Multiset.mem_map.mpr ⟨_, Multiset.mem_cons_self _ _, rfl⟩) absent
    · exact congrArg Prod.fst (Except.ok.inj (call.symm.trans got))
  obtain ⟨k, once⟩ : ∃ k, alone t entry (17 * t.bktPool.spareSize + 23) = (step t)^[k] (step t (.ask t entry)) :=
    ⟨_, Function.iterate_succ_apply ..⟩
  refine ⟨k + (1 + n), ?_⟩
  rw [Function.iterate_add_apply, Function.iterate_add_apply, run, same, Function.iterate_one, ← found,
    ← done, once]
  rfl

theorem putDuringGet_runs :
    ∃ t writes reads s, KvTable.create (fun _ => smallRaw) (fun _ => 0) 4096 (2 ^ 40) 1 1 1 = .ok t ∧
    oneSetting.Fresh t ∧
    Meets (oneSetting.raceStep 4) (oneSetting.RaceLegal 4) (putDuringGet writes reads) (Race.start t) ∧
    run (oneSetting.raceStep 4) (putDuringGet writes reads) (Race.start t) = .ok s ∧
    (s.watches ()).reader.pc = .done true := by
  obtain ⟨t, t₁, offset, inside, created, fresh, trace, some, traced, -, holds⟩ := onePut_writes
  obtain ⟨keyed, sized⟩ := fullEntry_legal (show 0 < 31 by decide)
  obtain ⟨watches, reader, s₁, first, second⟩ : ∃ watches : Unit → Watch SegregatedFits,
      (watches ()).reader = (Reader.ask t (fullEntry 0)).step t ∧ ∃ s₁,
      oneSetting.raceStep 4 (Race.start t) (.ask () (fullEntry 0)) = .ok s₁ ∧
      oneSetting.raceStep 4 s₁ (.read ()) = .ok ⟨t, [], watches⟩ := ⟨_, rfl, _, rfl, rfl⟩
  have third : oneSetting.raceStep 4 ⟨t, [], watches⟩ (.call (.put (fullEntry 0))) =
    .ok ⟨t, inside ++ [t₁], watches⟩ :=
    bind_eq_ok.mpr ⟨_, trace, rfl⟩
  obtain ⟨watches₂, writes, same⟩ := oneSetting.raceWrites 4 t (inside ++ [t₁]) watches
  rw [List.getLastD_concat] at writes
  have bucket := (traced.alike t₁ (by simp)).getEntryBucket (fullEntry 0)
  have changed : (t.bktPool.cells (getEntryBucket t.bktPool (fullEntry 0))).version ≠
      (t₁.bktPool.cells (getEntryBucket t₁.bktPool (fullEntry 0))).version := by
    obtain ⟨-, fits⟩ := fresh.unlocked _ (fresh.holds.main_lt (entryKeyhash (fullEntry 0) 0))
    rw [bucket, getEntryBucket, traced.unlocked]
    omega
  obtain ⟨n, found⟩ := Reader.retried_returns holds keyed changed
  obtain ⟨watches₃, reads, reader₃⟩ := oneSetting.raceReads 4 n t₁ [] watches₂ ()
  refine ⟨t, (inside ++ [t₁]).length, n, ⟨t₁, [], watches₃⟩, created, fresh, ?_, ?_, ?_⟩
  · have legal : oneSetting.RaceLegal 4 ⟨t, [], watches⟩ (.call (.put (fullEntry 0))) :=
      Setting.raceLegal_call rfl ⟨keyed, sized⟩ (fullEntry_reads 0 (by decide)).1.le trace
    exact .cons rfl first (.cons trivial second (.cons legal third (oneSetting.raceLegal_free ..)))
  · rw [putDuringGet, run_cons first, run_cons second, run_cons third, run_append writes, reads]
  · rw [reader₃, same, reader]
    rw [bucket] at found
    exact found

/-- However gets interleave with puts and removes that take turns, wherever no put or
remove is in a chain a get there is wait-free as soon as the others pause. -/
theorem gets_obstruction_free [DecidableEq τ] (S : Setting σ) (fuel : Nat) (t : KvTable σ)
    (acts : List (RaceAct τ)) (s : Race σ τ) (fresh : S.Fresh t)
    (legal : Meets (S.raceStep fuel) (S.RaceLegal fuel) acts (Race.start t))
    (done : run (S.raceStep fuel) acts (Race.start t) = .ok s) :
    Throughout (S.raceStep fuel) (fun s => ∀ entry, (s.table.bktPool.cells
      (getEntryBucket s.table.bktPool entry)).version % 2 = 0 → s.table.GetsAlone entry) acts (Race.start t) :=
  throughout_of_inv (fun _ _ _ sound legal step => Race.Sound.step sound legal step)
    (fun _ sound _ even => sound.gets_alone even) (.start fresh fresh.unlocked) legal done

theorem gets_obstruction_free_put :
    ∃ t writes reads, KvTable.create (fun _ => smallRaw) (fun _ => 0) 4096 (2 ^ 40) 1 1 1 = .ok t ∧
    Throughout (oneSetting.raceStep 4) (fun s => ∀ entry, (s.table.bktPool.cells
      (getEntryBucket s.table.bktPool entry)).version % 2 = 0 →
      s.table.GetsAlone entry) (putDuringGet writes reads)
      (Race.start t) := by
  obtain ⟨t, writes, reads, s, created, fresh, legal, done, -⟩ := putDuringGet_runs
  exact ⟨t, writes, reads, created, gets_obstruction_free oneSetting 4 t _ s fresh legal done⟩

end Fkv
