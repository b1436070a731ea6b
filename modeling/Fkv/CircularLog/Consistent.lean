import Fkv.CircularLog.Linearize

namespace Fkv
open ByteMemory CWord OptimisticRead Runs

variable {σ τ : Type}

/-- The buffer holds the key and the hash the caller asked for. -/
def Reader.Wants (r : Reader) (buffer : Mem) : Prop :=
  entryKeyhash buffer 0 = entryKeyhash r.asked 0 ∧ entryKey buffer = entryKey r.asked

/-- Every attempt begins with the key of the caller. No attempt is accepted that
began with a put or remove in its bucket, where the version is odd. A get that
returns true has the whole entry that was in the table under the key of the caller
at some moment of the call, with no put or remove in the bucket; one that returns
false was called when at such a moment there was none. -/
structure Watch.Consistent (w : Watch σ) : Prop where
  begins : w.reader.pc = .load → w.reader.Wants w.reader.entry
  outside : ∀ ret, w.reader.pc = .done ret → w.reader.versionBegining % 2 = 0
  answers : ∀ ret, w.reader.pc = .done ret → ∃ t ∈ w.seen, (t.bktPool.cells w.reader.bkt).version % 2 = 0 ∧
    if ret then ∃ p, t.Present w.reader.asked p ∧
      readBytes w.reader.entry 0 (initialSize t.mem (add64 t.baseAddr (t.bktPool.entry p).offset)) =
        readBytes t.mem (add64 t.baseAddr (t.bktPool.entry p).offset)
          (initialSize t.mem (add64 t.baseAddr (t.bktPool.entry p).offset))
    else ∀ p, ¬ t.Present w.reader.asked p

/-- A get copies only an entry with the key and the hash of its caller, and where it
finds the version it began with, that is even and has not changed since. -/
def Race.Careful (s : Race σ τ) : RaceAct τ → Prop
  | .read i =>
    let r := (s.watches i).reader
    match r.pc with
    | .copy offset size => r.Wants
        (writeBytes r.entry 0 (readBytes s.table.mem (add64 s.table.baseAddr offset) size))
    | .check _ => r.versionBegining = (s.table.bktPool.cells r.bkt).version →
        r.versionBegining % 2 = 0 ∧ (s.watches i).changes = 0
    | _ => True
  | _ => True

/-- What careful accesses keep of a thread that reads. -/
structure Watch.Steady (w : Watch σ) : Prop where
  entry : w.reader.busy = true → w.reader.Wants w.reader.entry
  begun : w.reader.reading = true → w.reader.Wants w.begun
  accepted : ∀ ret, w.reader.pc = .done ret →
    w.reader.versionBegining % 2 = 0 ∧ w.changes = 0 ∧ w.reader.Wants w.begun

/-- Only the copy writes to the buffer. -/
theorem Reader.step_entry {t : KvTable σ} {r : Reader} (other : ∀ offset size, r.pc ≠ .copy offset size) :
    (r.step t).entry = r.entry := by
  rw [step]
  split
  case h_10 offset size pc => exact absurd pc (other offset size)
  all_goals (repeat' split) <;> rfl

namespace Watch.Steady

theorem ask (t : KvTable σ) (entry : Mem) : (Watch.ask t entry).Steady :=
  ⟨fun _ => ⟨rfl, rfl⟩, fun reading => (by cases reading), fun ret done => (by cases done)⟩

theorem wrote {t u : KvTable σ} {w : Watch σ} (steady : w.Steady) : (w.wrote t u).Steady := by
  rw [Watch.wrote]
  by_cases busy : w.reader.busy = true
  · rw [if_pos busy]
    refine ⟨steady.entry, steady.begun, fun ret done => ?_⟩
    rw [Reader.busy, show w.reader.pc = .done ret from done] at busy
    cases busy
  · rw [if_neg busy]
    exact steady

/-- An access within an attempt that is neither the copy nor its last. -/
theorem read_on {t : KvTable σ} {w : Watch σ} (steady : w.Steady) (reading : w.reader.reading = true)
    (on : ∀ ret, w.reader.pc ≠ .check ret) (other : ∀ offset size, w.reader.pc ≠ .copy offset size) :
    (w.read t).Steady := by
  have loaded := (Reader.reading_eq.mp reading).2.1
  obtain ⟨still, -⟩ := Reader.step_reading (t := t) reading on
  have asked : (w.reader.step t).asked = w.reader.asked := Reader.step_asked.1
  have next : w.read t = { w with reader := w.reader.step t } := by simp only [Watch.read, loaded, if_false]
  rw [next]
  refine ⟨fun _ => ?_, fun _ => ?_, fun ret done => absurd done ((Reader.reading_eq.mp still).2.2 ret)⟩
  · simp only [Reader.Wants, asked, Reader.step_entry other]
    exact steady.entry (Reader.busy_of_reading reading)
  · simp only [Reader.Wants, asked]
    exact steady.begun reading

theorem read {t : KvTable σ} {w : Watch σ} (steady : w.Steady)
    (copies : ∀ offset size, w.reader.pc = .copy offset size →
      w.reader.Wants (writeBytes w.reader.entry 0 (readBytes t.mem (add64 t.baseAddr offset) size)))
    (compares : ∀ ret, w.reader.pc = .check ret →
      w.reader.versionBegining = (t.bktPool.cells w.reader.bkt).version →
      w.reader.versionBegining % 2 = 0 ∧ w.changes = 0) : (w.read t).Steady := by
  cases pc : w.reader.pc with
  | idle =>
    have same : w.read t = w := by simp [Watch.read, Reader.step, pc]
    rwa [same]
  | done ret =>
    have same : w.read t = w := by simp [Watch.read, Reader.step, pc]
    rwa [same]
  | load =>
    have wants := steady.entry (by rw [Reader.busy, pc])
    simp only [Watch.read, Reader.step, pc, if_true]
    exact ⟨fun _ => wants, fun _ => wants, fun ret done => (by cases done)⟩
  | copy offset size =>
    have begun := steady.begun (by rw [Reader.reading, pc])
    simp only [Watch.read, Reader.step, pc, reduceCtorEq, if_false]
    exact ⟨fun _ => copies offset size pc, fun _ => begun, fun ret done => (by cases done)⟩
  | check ret =>
    have begun := steady.begun (by rw [Reader.reading, pc])
    by_cases equal : w.reader.versionBegining = (t.bktPool.cells w.reader.bkt).version
    · obtain ⟨even, none⟩ := compares ret pc equal
      simp only [Watch.read, Reader.step, pc, ne_eq, equal, not_true_eq_false, if_false, reduceCtorEq]
      exact ⟨fun busy => (by cases busy), fun reading => (by cases reading),
        fun _ _ => ⟨equal ▸ even, none, begun⟩⟩
    · have wants := steady.entry (by rw [Reader.busy, pc])
      simp only [Watch.read, Reader.step, pc, ne_eq, equal, not_false_eq_true, if_true, reduceCtorEq, if_false]
      exact ⟨fun _ => wants, fun reading => (by cases reading), fun ret done => (by cases done)⟩
  | _ => exact steady.read_on (by rw [Reader.reading, pc]) (by simp [pc]) (by simp [pc])

/-- A thread of which all this holds is served consistently. -/
theorem consistent {S : Setting σ} {t : KvTable σ} {w : Watch σ} (steady : w.Steady) (sound : w.Sound S t) :
    w.Consistent := by
  refine ⟨fun pc => steady.entry (by rw [Reader.busy, pc]), fun ret done => (steady.accepted ret done).1,
    fun ret done => ?_⟩
  obtain ⟨even, none, hash, key⟩ := steady.accepted ret done
  obtain ⟨u, seen, version, answer⟩ := sound.answers ret done none even hash key
  exact ⟨u, seen, by rw [version, even], answer⟩

end Watch.Steady

/-- What holds between any two steps as long as all are careful. -/
structure Race.Steady [DecidableEq τ] (S : Setting σ) (s : Race σ τ) : Prop where
  sound : s.Sound S
  watches : ∀ i, (s.watches i).Steady

theorem Race.Steady.step [DecidableEq τ] {S : Setting σ} {s s' : Race σ τ} {act : RaceAct τ} {fuel : Nat}
    (steady : s.Steady S) (legal : S.RaceLegal fuel s act ∧ s.Careful act)
    (done : S.raceStep fuel s act = .ok s') : s'.Steady S := by
  obtain ⟨legal, careful⟩ := legal
  obtain ⟨sound, watches⟩ := steady
  refine ⟨sound.step legal done, ?_⟩
  cases act with
  | call call =>
    obtain ⟨⟨res, writes⟩, -, same⟩ := bind_eq_ok.mp done
    cases same
    exact watches
  | write =>
    cases writes : s.pending with
    | nil =>
      simp only [Setting.raceStep, writes] at done
      cases done
      exact watches
    | cons next rest =>
      simp only [Setting.raceStep, writes] at done
      cases done
      exact fun i => (watches i).wrote
  | ask i entry =>
    cases done
    intro j
    by_cases here : j = i
    · subst here
      simp only [Function.update_self]
      exact .ask _ entry
    · simp only [Function.update_of_ne here]
      exact watches j
  | read i =>
    cases done
    intro j
    by_cases here : j = i
    · subst here
      simp only [Function.update_self]
      refine (watches j).read (fun offset size pc => ?_) fun ret pc => ?_ <;>
      · simp only [Race.Careful, pc] at careful
        exact careful
    · simp only [Function.update_of_ne here]
      exact watches j

/-- A copy of the caller's own entry has its key and its hash. -/
theorem Reader.wants_own {r : Reader} {entry : Mem} {offset : Nat} (asked : r.asked = entry)
    (fits : 32 + keyLength entry 0 ≤ initialSize entry 0) (buffer : Mem) :
    r.Wants (writeBytes buffer 0 (entryItem entry offset).bytes) := by
  have own : (entryItem entry offset).Stored entry 0 := entryItem_stored fits
  have copied : (entryItem entry offset).Stored (writeBytes buffer 0 (entryItem entry offset).bytes) 0 :=
    own.move fun k bound => by
      rw [writeBytes_at _ _ _ bound]
      simp [entryItem, readBytes]
  refine ⟨by rw [asked]; exact copied.keyhash, ?_⟩
  rw [asked, entryKey, copied.length, copied.key]
  rfl

/-- Alone with the only entry of a table at an even version, the accesses of a get of
its key are careful. -/
theorem Race.careful_alone [DecidableEq τ] {S : Setting σ} {t : KvTable σ} {entry : Mem}
    {leaked : Nat → Multiset (Nat × Nat)} {offset : Nat}
    (holds : S.Holds t (entryItem entry offset ::ₘ 0) leaked)
    (even : (t.bktPool.cells (getEntryBucket t.bktPool entry)).version % 2 = 0) (fuel n m : Nat)
    (pending : List (KvTable σ)) (watches : τ → Watch σ) (i : τ) (reader : (watches i).reader = .alone t entry m)
    (changes : m ≠ 0 → (watches i).changes = 0) :
    Meets (S.raceStep fuel) Race.Careful (List.replicate n (.read i)) ⟨t, pending, watches⟩ := by
  have main := holds.main_lt (entryKeyhash entry 0)
  have stands : S.Stands t (bucketIndex t.bktPool.mainSize (entryKeyhash entry 0)) :=
    ⟨t, _, _, holds, .refl holds _⟩
  induction n generalizing m watches with
  | zero => trivial
  | succ n ih =>
    refine ⟨?_, fun s' done => ?_⟩
    · cases m with
      | zero =>
        simp only [Race.Careful, reader]
        trivial
      | succ m =>
        obtain ⟨version, place⟩ := Reader.alone_follows stands main m
        simp only [Race.Careful, reader]
        cases pc : (Reader.alone t entry (m + 1)).pc with
        | copy offset size =>
          rcases place with ⟨-, -, reads⟩ | ⟨ret, done, -⟩
          · rw [pc] at reads
            obtain ⟨p, slot, tagged, rfl, rfl⟩ := reads
            obtain ⟨it, member, here, index⟩ := holds.item main slot tagged
            obtain rfl : it = entryItem entry _ := Multiset.mem_cons.mp member |>.resolve_right (by simp)
            have stored := holds.stored _ member
            rw [← index]
            simp only [Item.index, holds.address member, stored.size, stored.bytes]
            exact Reader.wants_own (Reader.alone_asked t entry (m + 1))
              (by simpa [entryItem, entryKey] using stored.room) _
          · cases pc.symm.trans done
        | check ret => exact fun _ => ⟨by rw [version]; exact even, changes (Nat.succ_ne_zero m)⟩
        | _ => trivial
    · cases done
      refine ih (m + 1) _ ?_ fun _ => ?_
      · rw [Function.update_self, Watch.read, reader]
        exact (Function.iterate_succ_apply' (Reader.step t) m _).symm
      · rw [Function.update_self, Watch.read]
        dsimp only
        split
        · rfl
        · rename_i loaded
          refine changes fun first => loaded ?_
          rw [reader, first]
          rfl

/-- However gets interleave with puts and removes that take turns, as long as every
access of a get is careful the gets are consistent. -/
theorem gets_consistent [DecidableEq τ] (S : Setting σ) (fuel : Nat) (t : KvTable σ) (acts : List (RaceAct τ))
    (s : Race σ τ) (fresh : S.Fresh t) (legal : Meets (S.raceStep fuel) (S.RaceLegal fuel) acts (Race.start t))
    (careful : Meets (S.raceStep fuel) Race.Careful acts (Race.start t))
    (done : run (S.raceStep fuel) acts (Race.start t) = .ok s) :
    Throughout (S.raceStep fuel) (fun s => ∀ i, (s.watches i).Consistent) acts (Race.start t) := by
  have start : (Race.start t : Race σ τ).Steady S :=
    ⟨.start fresh fresh.unlocked, fun _ => ⟨fun busy => (by cases busy), fun reading => (by cases reading),
      fun ret done => (by cases done)⟩⟩
  exact throughout_of_inv (fun _ _ _ steady both step => Race.Steady.step steady both step)
    (fun _ steady i => (steady.watches i).consistent (steady.sound.watches i)) start (legal.and careful) done

/-- A get that starts, a put of its key from its start to its last write, and the
rest of the get. -/
def getAcrossPut (writes reads : Nat) : List (RaceAct Unit) :=
  .ask () (fullEntry 0) :: .call (.put (fullEntry 0)) ::
    (List.replicate writes .write ++ List.replicate reads (.read ()))

theorem gets_consistent_put :
    ∃ t writes reads s, KvTable.create (fun _ => smallRaw) (fun _ => 0) 4096 (2 ^ 40) 1 1 1 = .ok t ∧
    run (oneSetting.raceStep 4) (getAcrossPut writes reads) (Race.start t) = .ok s ∧
    (∃ ret, (s.watches ()).reader.pc = .done ret) ∧
    Throughout (oneSetting.raceStep 4) (fun s => ∀ i, (s.watches i).Consistent) (getAcrossPut writes reads)
      (Race.start t) := by
  obtain ⟨t, t₁, offset, inside, created, fresh, trace, some, traced, -, holds⟩ := onePut_writes
  obtain ⟨keyed, sized⟩ := fullEntry_legal (show 0 < 31 by decide)
  obtain ⟨watches, reader, first⟩ : ∃ watches : Unit → Watch SegregatedFits,
      (watches ()).reader = Reader.ask t (fullEntry 0) ∧
      oneSetting.raceStep 4 (Race.start t) (.ask () (fullEntry 0)) = .ok ⟨t, [], watches⟩ := ⟨_, rfl, rfl⟩
  have second : oneSetting.raceStep 4 ⟨t, [], watches⟩ (.call (.put (fullEntry 0))) =
    .ok ⟨t, inside ++ [t₁], watches⟩ :=
    bind_eq_ok.mpr ⟨_, trace, rfl⟩
  obtain ⟨watches₂, writes, same⟩ := oneSetting.raceWrites 4 t (inside ++ [t₁]) watches
  rw [List.getLastD_concat] at writes
  have asks : (watches₂ ()).reader = .ask t₁ (fullEntry 0) := by
    rw [same, reader, Reader.ask, Reader.ask, (traced.alike t₁ (by simp)).getEntryBucket]
  have even : (t₁.bktPool.cells (getEntryBucket t₁.bktPool (fullEntry 0))).version % 2 = 0 :=
    (traced.last_unlocked fresh.holds fresh.unlocked _ (holds.main_lt _)).1
  obtain ⟨ret, found⟩ := Reader.alone_returns ⟨t₁, _, _, holds, .refl holds _⟩ (holds.main_lt _) holds.clear_alone
  obtain ⟨watches₃, reads, reader₃⟩ := oneSetting.raceReads 4 (17 * t₁.bktPool.spareSize + 23) t₁ [] watches₂ ()
  have done : run (oneSetting.raceStep 4) (getAcrossPut (inside ++ [t₁]).length (17 * t₁.bktPool.spareSize + 23))
      (Race.start t) = .ok ⟨t₁, [], watches₃⟩ := by
    rw [getAcrossPut, run_cons first, run_cons second, run_append writes, reads]
  refine ⟨t, _, _, _, created, done, ⟨ret, ?_⟩, gets_consistent oneSetting 4 t _ _ fresh ?_ ?_ done⟩
  · rw [reader₃, asks]
    exact found
  · have legal : oneSetting.RaceLegal 4 ⟨t, [], watches⟩ (.call (.put (fullEntry 0))) :=
      Setting.raceLegal_call rfl ⟨keyed, sized⟩ (fullEntry_reads 0 (by decide)).1.le trace
    exact .cons rfl first (.cons legal second (oneSetting.raceLegal_free ..))
  · refine .cons trivial first (.cons trivial second ?_)
    refine Meets.append ?_ fun s' run => ?_
    · refine meets_of_forall fun act member s => ?_
      rw [List.eq_of_mem_replicate member]
      trivial
    · cases writes.symm.trans run
      exact Race.careful_alone holds even 4 _ 0 [] watches₂ () asks fun no => absurd rfl no

/-- The first write of a put takes the lock. -/
theorem KvTable.putCallTrace_head {alloc : Allocator σ} {t u : KvTable σ} {fuel l : Nat} {entry : Mem} {res : Bool}
    {rest : List (KvTable σ)} (done : t.putCallTrace alloc fuel l entry = .ok (res, u :: rest)) :
    ∃ version, u = { t with bktPool := t.bktPool.setVersion (getEntryBucket t.bktPool entry) version } := by
  rw [putCallTrace] at done
  obtain ⟨pool, lock, done⟩ := bind_eq_ok.mp done
  obtain ⟨version, rfl⟩ := lockBucket_ok lock
  refine ⟨version, ?_⟩
  obtain ⟨removes, -, done⟩ := bind_eq_ok.mp done
  obtain ⟨⟨newAddr, mem, sfits⟩, -, done⟩ := bind_eq_ok.mp done
  cases newAddr with
  | none =>
    simp only [List.cons_append, Except.ok.injEq, Prod.mk.injEq, List.cons.injEq] at done
    exact done.2.1.symm
  | some newAddr =>
    obtain ⟨inserts, -, done⟩ := bind_eq_ok.mp done
    simp only [List.cons_append, Except.ok.injEq, Prod.mk.injEq, List.cons.injEq] at done
    exact done.2.1.symm

/-- A put that starts and locks, and a get of its key. -/
def getInsidePut (reads : Nat) : List (RaceAct Unit) :=
  .call (.put (fullEntry 0)) :: .write :: .ask () (fullEntry 0) :: List.replicate reads (.read ())

/-- A get accepts an attempt that began and ended with a put in its bucket. -/
theorem get_accepts_locked :
    ∃ t reads s, KvTable.create (fun _ => smallRaw) (fun _ => 0) 4096 (2 ^ 40) 1 1 1 = .ok t ∧
    oneSetting.Fresh t ∧
    Meets (oneSetting.raceStep 4) (oneSetting.RaceLegal 4) (getInsidePut reads) (Race.start t) ∧
    run (oneSetting.raceStep 4) (getInsidePut reads) (Race.start t) = .ok s ∧ s.pending ≠ [] ∧
    (∃ ret, (s.watches ()).reader.pc = .done ret) ∧ ¬ (s.watches ()).Consistent := by
  obtain ⟨t, t₁, offset, inside, created, fresh, trace, some, traced, -, -⟩ := onePut_writes
  obtain ⟨keyed, sized⟩ := fullEntry_legal (show 0 < 31 by decide)
  obtain ⟨u, rest, rfl⟩ := List.exists_cons_of_ne_nil some
  obtain ⟨version, locked⟩ := KvTable.putCallTrace_head trace
  have main := fresh.holds.main_lt (entryKeyhash (fullEntry 0) 0)
  have holds : oneSetting.Holds u 0 (fun _ => 0) := locked ▸ fresh.holds.setVersion main version
  have odd : (u.bktPool.cells (getEntryBucket u.bktPool (fullEntry 0))).version % 2 = 1 := by
    obtain ⟨even, -⟩ := fresh.unlocked _ main
    have taken := traced.locked u List.mem_cons_self
    rw [(traced.alike u (by simp)).getEntryBucket, getEntryBucket]
    omega
  have clear : u.Clear (fullEntry 0) := fun p found => by
    obtain ⟨it, member, -⟩ := holds.first_item found
    simp at member
  have stands : oneSetting.Stands u (bucketIndex u.bktPool.mainSize (entryKeyhash (fullEntry 0) 0)) :=
    ⟨u, _, _, holds, .refl holds _⟩
  obtain ⟨ret, found⟩ := Reader.alone_returns stands (holds.main_lt _) clear
  have version : (Reader.alone u (fullEntry 0) (17 * u.bktPool.spareSize + 23)).versionBegining = _ :=
    (Reader.alone_follows stands (holds.main_lt _) (17 * u.bktPool.spareSize + 22)).1
  have first : oneSetting.raceStep 4 (Race.start t : Race SegregatedFits Unit) (.call (.put (fullEntry 0))) =
      .ok { Race.start t with pending := u :: (rest ++ [t₁]) } := bind_eq_ok.mpr ⟨_, trace, rfl⟩
  obtain ⟨watches, reader, s, second, idle, third⟩ : ∃ watches : Unit → Watch SegregatedFits,
      (watches ()).reader = .ask u (fullEntry 0) ∧ ∃ s : Race SegregatedFits Unit,
      oneSetting.raceStep 4 { Race.start t with pending := u :: (rest ++ [t₁]) } .write = .ok s ∧
      (s.watches ()).reader.busy = false ∧
      oneSetting.raceStep 4 s (.ask () (fullEntry 0)) = .ok ⟨u, rest ++ [t₁], watches⟩ :=
      ⟨_, rfl, _, rfl, rfl, rfl⟩
  obtain ⟨watches₂, reads, reader₂⟩ :=
    oneSetting.raceReads 4 (17 * u.bktPool.spareSize + 23) u (rest ++ [t₁]) watches ()
  rw [reader] at reader₂
  refine ⟨t, 17 * u.bktPool.spareSize + 23, ⟨u, rest ++ [t₁], watches₂⟩, created, fresh, ?_, ?_, by simp,
    ⟨ret, ?_⟩, fun consistent => ?_⟩
  · have legal : oneSetting.RaceLegal 4 (Race.start t : Race SegregatedFits Unit) (.call (.put (fullEntry 0))) :=
      Setting.raceLegal_call rfl ⟨keyed, sized⟩ (fullEntry_reads 0 (by decide)).1.le trace
    exact .cons legal first (.cons trivial second (.cons idle third
      (oneSetting.raceLegal_free 4 0 (17 * u.bktPool.spareSize + 23) ..)))
  · rw [getInsidePut, run_cons first, run_cons second, run_cons third, reads]
  · rw [reader₂]
    exact found
  · have even := consistent.outside ret (by rw [reader₂]; exact found)
    rw [reader₂, ← Reader.alone, version] at even
    omega

end Fkv
