import Fkv.Bucket.Trace
import Fkv.CircularLog.Progress

namespace Fkv
open ByteMemory CWord Runs

namespace KvTable
variable {σ : Type} (alloc : Allocator σ) (fuel : Nat)

/-- The tables after each write of `__remove_circular_log_entry`: the tag and the
offset of the slot, then the free. -/
def removeTrace (l : Nat) (entry : Mem) : Nat → KvTable σ → Nat → Nat → Except Fault (Bool × List (KvTable σ))
  | 0, _, _, _ => .error .outOfFuel
  | n + 1, t, bkt, index => do
    let found ← searchIndexEntry t.bktPool (entryKeyhash entry 0) fuel bkt index
    match found with
    | none => .ok (false, [])
    | some (bkt, index) =>
      let e := (t.bktPool.cells bkt).entries index
      if matchIndexEntryTag e.tag (entryKeyhash entry 0) ∧ t.matchCircularLogEntryKey entry e.offset then do
        let untagged := { t with bktPool := t.bktPool.setEntry bkt index ⟨0, e.offset⟩ }
        let deleted := { t with bktPool := deleteIndexEntryWithIndex t.bktPool bkt index }
        let (mem, sfits) ← alloc.free t.mem (t.sfits l) (add64 t.baseAddr e.offset)
        .ok (true, [untagged, deleted, { deleted with mem := mem, sfits := Function.update t.sfits l sfits }])
      else removeTrace l entry n t bkt index

/-- The tables after each write of `remove_circular_log_entry`. -/
def removeCallTrace (l : Nat) (entry : Mem) (t : KvTable σ) : Except Fault (Bool × List (KvTable σ)) := do
  let bkt := getEntryBucket t.bktPool entry
  let pool ← lockBucket fuel t.bktPool bkt
  let locked := { t with bktPool := pool }
  let (res, writes) ← removeTrace alloc fuel l entry fuel locked bkt 0
  let removed := writes.getLastD locked
  .ok (res, locked :: writes ++ [{ removed with bktPool := unlockBucket removed.bktPool bkt }])

/-- The tables after each write of `put_circular_log_entry`, with what the
allocator does to hand out a block as one write and the copy as one. -/
def putCallTrace (l : Nat) (entry : Mem) (t : KvTable σ) : Except Fault (Bool × List (KvTable σ)) := do
  let bkt := getEntryBucket t.bktPool entry
  let pool ← lockBucket fuel t.bktPool bkt
  let locked := { t with bktPool := pool }
  let (_, writes) ← removeTrace alloc fuel l entry fuel locked bkt 0
  let removed := writes.getLastD locked
  let entrySize := initialSize entry 0 % 2 ^ 32
  let (newAddr, mem, sfits) ← alloc.get removed.mem (removed.sfits l) entrySize
  let taken := { removed with mem := mem, sfits := Function.update removed.sfits l sfits }
  match newAddr with
  | none => .ok (false, locked :: writes ++ [taken])
  | some newAddr =>
    let offset := sub64 newAddr taken.baseAddr
    let copied := { taken with mem := writeBytes taken.mem newAddr (readBytes entry 0 entrySize) }
    let inserts ← insertTrace (entryKeyhash entry 0) offset fuel taken.bktPool bkt
    let indexed := inserts.getLastD taken.bktPool
    .ok (true, locked :: writes ++ taken :: copied :: inserts.map (fun pool => { copied with bktPool := pool }) ++
      [{ copied with bktPool := unlockBucket indexed bkt }])

end KvTable

/-- The writes of a call; a get has none. -/
def Setting.callTrace {σ : Type} (S : Setting σ) (fuel : Nat) (t : KvTable σ) :
    KvCall → Except Fault (Bool × List (KvTable σ))
  | .put entry => t.putCallTrace S.alloc fuel (S.log (entryKeyhash entry 0)) entry
  | .get _ => .ok (true, [])
  | .remove entry => t.removeCallTrace S.alloc fuel (S.log (entryKeyhash entry 0)) entry

/-- What every write of a call on main bucket `i` leaves alone: the other chains
and what is stored for them. -/
structure Setting.Beside {σ : Type} (S : Setting σ) (t u : KvTable σ) (dir : Multiset Item) (i : Nat) : Prop where
  pool : t.bktPool.Aside u.bktPool i
  base : u.baseAddr = t.baseAddr
  stored : ∀ it ∈ dir, it.main t.bktPool.mainSize ≠ i → it.Stored u.mem (S.baseAddr + it.offset)

variable {σ : Type}

namespace KvTable

/-- The writes of a remove loop end where the loop does. -/
theorem removeTrace_last {alloc : Allocator σ} {t : KvTable σ} {entry : Mem} {res : Bool}
    {writes : List (KvTable σ)} {l n fuel bkt index : Nat}
    (done : t.removeTrace alloc fuel l entry n bkt index = .ok (res, writes)) :
    t.removeLoop alloc fuel l entry n bkt index = .ok (res, writes.getLastD t) := by
  induction n generalizing bkt index with
  | zero => cases done
  | succ n ih =>
    rw [removeTrace] at done
    obtain ⟨found, search, done⟩ := bind_eq_ok.mp done
    rw [removeLoop, search, ok_bind]
    cases found with
    | none =>
      cases done
      rfl
    | some p =>
      simp only at done ⊢
      split at done
      · rename_i both
        obtain ⟨r, freed, done⟩ := bind_eq_ok.mp done
        cases done
        rw [if_pos both, freed, ok_bind]
        rfl
      · rename_i differs
        rw [if_neg differs]
        exact ih done

theorem removeTrace_total {alloc : Allocator σ} {t t' : KvTable σ} {entry : Mem} {res : Bool}
    {l n fuel bkt index : Nat} (done : t.removeLoop alloc fuel l entry n bkt index = .ok (res, t')) :
    ∃ writes, t.removeTrace alloc fuel l entry n bkt index = .ok (res, writes) := by
  induction n generalizing bkt index with
  | zero => cases done
  | succ n ih =>
    rw [removeLoop] at done
    obtain ⟨found, search, done⟩ := bind_eq_ok.mp done
    rw [removeTrace, search, ok_bind]
    cases found with
    | none =>
      cases done
      exact ⟨_, rfl⟩
    | some p =>
      simp only at done ⊢
      split at done
      · rename_i both
        obtain ⟨r, freed, done⟩ := bind_eq_ok.mp done
        cases done
        rw [if_pos both]
        exact ⟨_, bind_eq_ok.mpr ⟨r, freed, rfl⟩⟩
      · rename_i differs
        rw [if_neg differs]
        exact ih done

end KvTable

namespace Setting

/-- What a write to the memory of one log leaves alone. -/
theorem Holds.stored_frame {S : Setting σ} {t : KvTable σ} {dir : Multiset Item}
    {leaked : Nat → Multiset (Nat × Nat)} {it : Item} {m' : Mem} {l : Nat} (holds : S.Holds t dir leaked)
    (frame : Frame (S.baseAddr + S.logBytes * l) (S.baseAddr + S.logBytes * (l + 1))
      (S.blocks dir l + leaked l) t.mem m')
    (member : it ∈ dir) : it.Stored m' (S.baseAddr + it.offset) := by
  refine (holds.stored it member).move fun k bound => frame _ ?_
  by_cases here : S.log it.keyhash = l
  · have block := mem_blocks (S := S) member
    rw [here] at block
    exact Or.inr (Or.inr ⟨_, _, Multiset.mem_add.mpr (Or.inl block), Nat.le_add_right _ _, by omega⟩)
  · have place := holds.within member
    rcases partition_apart (S := S) here with before | behind
    · exact Or.inl (by omega)
    · exact Or.inr (Or.inl (by omega))

theorem Holds.other_key {S : Setting σ} {t : KvTable σ} {dir : Multiset Item}
    {leaked : Nat → Multiset (Nat × Nat)} {it : Item} {entry : Mem} (holds : S.Holds t dir leaked)
    (keyed : entryKeyhash entry 0 = S.hash (entryKey entry)) (member : it ∈ dir)
    (elsewhere : it.main t.bktPool.mainSize ≠ bucketIndex t.bktPool.mainSize (entryKeyhash entry 0)) :
    it.key ≠ entryKey entry := by
  intro same
  rw [Item.main, holds.hashed it member, same, ← keyed] at elsewhere
  exact elsewhere rfl

/-- The writes of the loop of a remove. -/
theorem Holds.removeTrace {S : Setting σ} {t : KvTable σ} {dir : Multiset Item}
    {leaked : Nat → Multiset (Nat × Nat)} {entry : Mem} {res : Bool} {writes : List (KvTable σ)} {n fuel : Nat}
    (holds : S.Holds t dir leaked) (keyed : entryKeyhash entry 0 = S.hash (entryKey entry))
    (done : t.removeTrace S.alloc fuel (S.log (entryKeyhash entry 0)) entry n (getEntryBucket t.bktPool entry) 0 =
      .ok (res, writes)) :
    ∀ u ∈ writes, S.Beside t u dir (bucketIndex t.bktPool.mainSize (entryKeyhash entry 0)) := by
  have main := holds.main_lt (entryKeyhash entry 0)
  obtain ⟨placed, spares, claimed, chained⟩ := holds.pool
  have loop := KvTable.removeTrace_last done
  obtain ⟨held, -, -⟩ := holds.removed keyed loop
  cases n with
  | zero => cases done
  | succ n =>
    rw [KvTable.removeTrace] at done
    obtain ⟨found, search, done⟩ := bind_eq_ok.mp done
    have first := chained.search_ok main search
    cases found with
    | none =>
      cases done
      simp
    | some p =>
      have slot := List.mem_of_find?_eq_some first.symm
      have matching := List.find?_some first.symm
      simp only at done
      split at done
      · obtain ⟨r, freed, done⟩ := bind_eq_ok.mp done
        simp only [Except.ok.injEq, Prod.mk.injEq] at done
        obtain ⟨-, rfl⟩ := done
        have pools : ∀ e, t.bktPool.Aside (t.bktPool.setEntry p.1 p.2 e)
          (bucketIndex t.bktPool.mainSize (entryKeyhash entry 0)) :=
          fun e => chained.setEntry_aside placed main slot
        simp only [List.mem_cons, List.not_mem_nil, or_false, forall_eq_or_imp, forall_eq]
        refine ⟨⟨pools _, rfl, fun it member _ => holds.stored it member⟩,
          ⟨pools _, rfl, fun it member _ => holds.stored it member⟩, ⟨pools _, rfl, fun it member elsewhere => ?_⟩⟩
        exact held.stored it (Multiset.mem_filter.mpr ⟨member, holds.other_key keyed member elsewhere⟩)
      · rename_i differs
        have stuck := KvTable.removeTrace_last done
        rw [KvTable.removeLoop_stuck matching (mem_slots.mp slot).2
          (fun same => differs ⟨matching, same⟩)] at stuck
        cases stuck

end Setting

/-- From an even version the lock loop ends one above it. -/
theorem optimisticLock_even {fuel version v : Nat} (even : version % 2 = 0) (fits : version < 2 ^ 32)
    (locked : optimisticLock fuel version = .ok v) : v = version + 1 := by
  cases fuel with
  | zero => cases locked
  | succ fuel =>
    rw [optimisticLock, evenVersion_eq fits, oddVersion_even (by omega), if_pos (by omega)] at locked
    cases fuel with
    | zero => cases locked
    | succ fuel =>
      rw [optimisticLock, evenVersion_eq (by omega), if_neg (by omega)] at locked
      cases locked
      omega

namespace KvTable

theorem removeCallTrace_last {alloc : Allocator σ} {t : KvTable σ} {entry : Mem} {res : Bool}
    {writes : List (KvTable σ)} {l fuel : Nat} (done : t.removeCallTrace alloc fuel l entry = .ok (res, writes)) :
    t.removeCircularLogEntry alloc fuel l entry = .ok (res, writes.getLastD t) := by
  rw [removeCallTrace] at done
  obtain ⟨pool, lock, done⟩ := bind_eq_ok.mp done
  obtain ⟨⟨ret, removes⟩, removal, done⟩ := bind_eq_ok.mp done
  cases done
  rw [removeCircularLogEntry, lock, ok_bind, removeTrace_last removal, ok_bind, List.getLastD_concat]

/-- The last insert is one of them, where there is any. -/
theorem indexed_mem (copied : KvTable σ) (inserts : List BucketPool) :
    { copied with bktPool := inserts.getLastD copied.bktPool } ∈
      copied :: inserts.map (fun pool => { copied with bktPool := pool }) := by
  rcases List.mem_cons.mp (List.getLastD_mem_cons (l := inserts) (a := copied.bktPool)) with same | member
  · rw [same]
    exact List.mem_cons_self
  · exact List.mem_cons_of_mem _ (List.mem_map.mpr ⟨_, member, rfl⟩)

/-- The writes of a put end where the put does. -/
theorem putCallTrace_last {alloc : Allocator σ} {t : KvTable σ} {entry : Mem} {res : Bool}
    {writes : List (KvTable σ)} {l fuel : Nat} (done : t.putCallTrace alloc fuel l entry = .ok (res, writes)) :
    t.putCircularLogEntry alloc fuel l entry = .ok (res, writes.getLastD t) := by
  rw [putCallTrace] at done
  obtain ⟨pool, lock, done⟩ := bind_eq_ok.mp done
  obtain ⟨⟨ret, removes⟩, removal, done⟩ := bind_eq_ok.mp done
  obtain ⟨⟨newAddr, m', s'⟩, got, done⟩ := bind_eq_ok.mp done
  rw [putCircularLogEntry, lock, ok_bind]
  refine bind_eq_ok.mpr ⟨_, removeTrace_last removal, bind_eq_ok.mpr ⟨_, got, ?_⟩⟩
  cases newAddr with
  | none =>
    cases done
    rw [List.getLastD_concat]
  | some x =>
    obtain ⟨inserts, run, done⟩ := bind_eq_ok.mp done
    obtain ⟨inserted, insert⟩ := insertTrace_last run
    cases done
    rw [List.getLastD_concat]
    exact bind_eq_ok.mpr ⟨_, insert, rfl⟩

end KvTable

namespace KvTable

theorem removeCallTrace_total {alloc : Allocator σ} {t t' : KvTable σ} {entry : Mem} {res : Bool} {l fuel : Nat}
    (done : t.removeCircularLogEntry alloc fuel l entry = .ok (res, t')) :
    ∃ writes, t.removeCallTrace alloc fuel l entry = .ok (res, writes) := by
  rw [removeCircularLogEntry] at done
  obtain ⟨pool, lock, done⟩ := bind_eq_ok.mp done
  obtain ⟨⟨ret, t₁⟩, removal, done⟩ := bind_eq_ok.mp done
  cases done
  obtain ⟨writes, trace⟩ := removeTrace_total removal
  exact ⟨_, bind_eq_ok.mpr ⟨pool, lock, bind_eq_ok.mpr ⟨_, trace, rfl⟩⟩⟩

theorem putCallTrace_total {alloc : Allocator σ} {t t' : KvTable σ} {entry : Mem} {res : Bool} {l fuel : Nat}
    (done : t.putCircularLogEntry alloc fuel l entry = .ok (res, t')) :
    ∃ writes, t.putCallTrace alloc fuel l entry = .ok (res, writes) := by
  rw [putCircularLogEntry] at done
  obtain ⟨pool, lock, done⟩ := bind_eq_ok.mp done
  obtain ⟨⟨ret, t₁⟩, removal, done⟩ := bind_eq_ok.mp done
  obtain ⟨writes, trace⟩ := removeTrace_total removal
  obtain rfl : writes.getLastD { t with bktPool := pool } = t₁ := by
    have again := removeTrace_last trace
    rw [removal] at again
    cases again
    rfl
  obtain ⟨⟨newAddr, m', s'⟩, got, done⟩ := bind_eq_ok.mp done
  cases newAddr with
  | none =>
    cases done
    exact ⟨_, bind_eq_ok.mpr ⟨pool, lock, bind_eq_ok.mpr ⟨_, trace, bind_eq_ok.mpr ⟨_, got, rfl⟩⟩⟩⟩
  | some x =>
    simp only at done
    obtain ⟨r, insert, done⟩ := bind_eq_ok.mp done
    cases done
    obtain ⟨inserts, run⟩ := insertTrace_total insert
    exact ⟨_, bind_eq_ok.mpr ⟨pool, lock, bind_eq_ok.mpr ⟨_, trace, bind_eq_ok.mpr ⟨_, got,
      bind_eq_ok.mpr ⟨inserts, run, rfl⟩⟩⟩⟩⟩

end KvTable

/-- A put or remove returns exactly when it has a trace, with the same result, and
leaves the last table of it. -/
theorem Setting.callTrace_iff {S : Setting σ} {t t' : KvTable σ} {res : Bool} {fuel : Nat} {call : KvCall}
    (writer : ∀ entry, call ≠ .get entry) :
    (∃ entry, S.perform fuel t call = .ok (res, entry, t')) ↔
      ∃ writes, S.callTrace fuel t call = .ok (res, writes) ∧ t' = writes.getLastD t := by
  cases call with
  | get entry => exact absurd rfl (writer entry)
  | put entry =>
    constructor
    · rintro ⟨entry', performed⟩
      obtain ⟨⟨res, t'⟩, put, performed⟩ := bind_eq_ok.mp performed
      cases performed
      obtain ⟨writes, trace⟩ := KvTable.putCallTrace_total put
      have last := KvTable.putCallTrace_last trace
      rw [put] at last
      cases last
      exact ⟨writes, trace, rfl⟩
    · rintro ⟨writes, trace, rfl⟩
      exact ⟨entry, bind_eq_ok.mpr ⟨_, KvTable.putCallTrace_last trace, rfl⟩⟩
  | remove entry =>
    constructor
    · rintro ⟨entry', performed⟩
      obtain ⟨⟨res, t'⟩, removed, performed⟩ := bind_eq_ok.mp performed
      cases performed
      obtain ⟨writes, trace⟩ := KvTable.removeCallTrace_total removed
      have last := KvTable.removeCallTrace_last trace
      rw [removed] at last
      cases last
      exact ⟨writes, trace, rfl⟩
    · rintro ⟨writes, trace, rfl⟩
      exact ⟨entry, bind_eq_ok.mpr ⟨_, KvTable.removeCallTrace_last trace, rfl⟩⟩

/-- Every main bucket is unlocked. -/
def KvTable.Unlocked (t : KvTable σ) : Prop :=
  ∀ i < t.bktPool.mainSize, (t.bktPool.cells (t.bktPool.mainPtr i)).version % 2 = 0 ∧
    (t.bktPool.cells (t.bktPool.mainPtr i)).version < 2 ^ 32

/-- What a reader of chain `j` finds in `u` is what it finds in `t`. -/
structure Setting.Sees (S : Setting σ) (t u : KvTable σ) (dir : Multiset Item) (j : Nat) : Prop where
  alike : t.bktPool.Alike u.bktPool
  base : u.baseAddr = t.baseAddr
  chain : t.bktPool.Untouched u.bktPool j
  stored : ∀ it ∈ dir, it.main t.bktPool.mainSize = j → it.Stored u.mem (S.baseAddr + it.offset)

/-- The writes of a call on main bucket `i`: locked in all tables before the last,
unlocked in that. -/
structure Setting.Traced (S : Setting σ) (t : KvTable σ) (dir : Multiset Item) (i : Nat)
    (inside : List (KvTable σ)) (last : KvTable σ) : Prop where
  alike : ∀ u ∈ inside ++ [last], t.bktPool.Alike u.bktPool
  locked : ∀ u ∈ inside, (u.bktPool.cells (t.bktPool.mainPtr i)).version =
    (t.bktPool.cells (t.bktPool.mainPtr i)).version + 1
  unlocked : (last.bktPool.cells (t.bktPool.mainPtr i)).version =
    ((t.bktPool.cells (t.bktPool.mainPtr i)).version + 2) % 2 ^ 32
  sees : ∀ u ∈ inside ++ [last], ∀ j < t.bktPool.mainSize, j ≠ i → S.Sees t u dir j
  holds : ∃ dir' leaked', S.Holds last dir' leaked'

namespace Setting

theorem Beside.sees {S : Setting σ} {t u : KvTable σ} {dir : Multiset Item} {i : Nat}
    (beside : S.Beside t u dir i) {j : Nat} (main : j < t.bktPool.mainSize) (different : j ≠ i) :
    S.Sees t u dir j :=
  ⟨beside.pool.alike, beside.base, beside.pool.others j main different,
    fun it member here => beside.stored it member (by rw [here]; exact different)⟩

theorem Beside.trans {S : Setting σ} {t u : KvTable σ} {dir : Multiset Item} {i : Nat} {w : KvTable σ}
    {rest : Multiset Item} (first : S.Beside t u dir i) (second : S.Beside u w rest i)
    (kept : ∀ it ∈ dir, it.main t.bktPool.mainSize ≠ i → it ∈ rest) : S.Beside t w dir i :=
  ⟨first.pool.trans second.pool, second.base.trans first.base, fun it member elsewhere =>
    second.stored it (kept it member elsewhere) (by rw [first.pool.alike.mainSize]; exact elsewhere)⟩

theorem Sees.refl {S : Setting σ} {t : KvTable σ} {dir : Multiset Item} {leaked : Nat → Multiset (Nat × Nat)}
    (holds : S.Holds t dir leaked) (j : Nat) : S.Sees t t dir j :=
  ⟨.refl _, rfl, .refl _ _, fun it member _ => holds.stored it member⟩

theorem Sees.trans {S : Setting σ} {t u : KvTable σ} {dir : Multiset Item} {w : KvTable σ} {j : Nat}
    (first : S.Sees t u dir j) (second : S.Sees u w dir j) : S.Sees t w dir j :=
  ⟨first.alike.trans second.alike, second.base.trans first.base, first.chain.trans second.chain,
    fun it member here => second.stored it member (by rw [first.alike.mainSize]; exact here)⟩

/-- A write of the version of main bucket `i` is no write for another chain. -/
theorem Sees.setVersion {S : Setting σ} {t u : KvTable σ} {dir : Multiset Item}
    {leaked : Nat → Multiset (Nat × Nat)} {i j : Nat} (sees : S.Sees t u dir j)
    (holds : S.Holds t dir leaked) (main : i < t.bktPool.mainSize) (other : j < t.bktPool.mainSize)
    (different : j ≠ i) (version : Nat) :
    S.Sees t { u with bktPool := u.bktPool.setVersion (t.bktPool.mainPtr i) version } dir j := by
  obtain ⟨placed, spares, claimed, chained⟩ := holds.pool
  have alike : t.bktPool.Alike (u.bktPool.setVersion (t.bktPool.mainPtr i) version) :=
    sees.alike.trans (u.bktPool.alike_setVersion _ _)
  refine ⟨alike, sees.base, chained.untouched_of_same other alike fun bkt member => ?_, sees.stored⟩
  have first : t.bktPool.mainPtr i ∈ t.bktPool.chain i := by
    rw [chained.chain_eq main]
    exact List.mem_cons_self
  have apart : bkt ≠ t.bktPool.mainPtr i := by
    rintro rfl
    exact chained.disjoint placed main other different first member
  rw [BucketPool.setVersion, BucketPool.setCell, ← sees.chain.2 bkt member]
  exact Function.update_of_ne apart _ _

/-- After the last write every main bucket is unlocked again. -/
theorem Traced.last_unlocked {S : Setting σ} {t : KvTable σ} {dir : Multiset Item}
    {leaked : Nat → Multiset (Nat × Nat)} {i : Nat} {inside : List (KvTable σ)} {last : KvTable σ}
    (traced : S.Traced t dir i inside last) (holds : S.Holds t dir leaked) (unlocked : t.Unlocked) :
    last.Unlocked := by
  obtain ⟨placed, spares, claimed, chained⟩ := holds.pool
  have member : last ∈ inside ++ [last] := List.mem_append_right _ (List.mem_singleton_self _)
  have alike := traced.alike last member
  intro j bound
  rw [alike.mainSize] at bound
  obtain ⟨even, fits⟩ := unlocked j bound
  rw [alike.mainPtr]
  by_cases here : j = i
  · subst here
    rw [traced.unlocked]
    omega
  · have sees := traced.sees last member j bound here
    rw [sees.chain.2 _ (by rw [chained.chain_eq bound]; exact List.mem_cons_self)]
    exact ⟨even, fits⟩

/-- A call whose writes between lock and unlock leave aside what they should. -/
theorem Traced.of_beside {S : Setting σ} {t : KvTable σ} {dir : Multiset Item}
    {leaked : Nat → Multiset (Nat × Nat)} {inside : List (KvTable σ)} {last removed : KvTable σ} {main v : Nat}
    (holds : S.Holds t dir leaked) (bound : main < t.bktPool.mainSize)
    (odd : v = (t.bktPool.cells (t.bktPool.mainPtr main)).version + 1)
    (beside : ∀ u ∈ inside,
      S.Beside { t with bktPool := t.bktPool.setVersion (t.bktPool.mainPtr main) v } u dir main)
    (ends : removed ∈ inside) (pool : last.bktPool = unlockBucket removed.bktPool (t.bktPool.mainPtr main))
    (mem : last.mem = removed.mem) (base : last.baseAddr = removed.baseAddr)
    (after : ∃ dir' leaked', S.Holds last dir' leaked') : S.Traced t dir main inside last := by
  have locked : ∀ u ∈ inside, (u.bktPool.cells (t.bktPool.mainPtr main)).version =
      (t.bktPool.cells (t.bktPool.mainPtr main)).version + 1 := by
    intro u member
    refine (beside u member).pool.version.trans ?_
    simp only [BucketPool.setVersion, BucketPool.setCell, BucketPool.mainPtr, Function.update_self, odd]
  have sees : ∀ u ∈ inside, ∀ j < t.bktPool.mainSize, j ≠ main → S.Sees t u dir j :=
    fun u member j other different =>
    ((Sees.refl holds j).setVersion holds bound other different _).trans ((beside u member).sees other different)
  have alike : ∀ u ∈ inside, t.bktPool.Alike u.bktPool := fun u member =>
    (t.bktPool.alike_setVersion _ _).trans (beside u member).pool.alike
  refine ⟨fun u member => ?_, locked, ?_, fun u member j other different => ?_, after⟩
  · rcases List.mem_append.mp member with earlier | final
    · exact alike u earlier
    · obtain rfl := List.mem_singleton.mp final
      rw [pool]
      exact (alike removed ends).trans (removed.bktPool.alike_setVersion _ _)
  · rw [pool]
    simp only [unlockBucket, BucketPool.setVersion, BucketPool.setCell, Function.update_self, optimisticUnlock,
      locked removed ends]
  · rcases List.mem_append.mp member with earlier | final
    · exact sees u earlier j other different
    · obtain rfl := List.mem_singleton.mp final
      obtain ⟨alike, base', chain, stored⟩ :=
        (sees removed ends j other different).setVersion holds bound other different
          (optimisticUnlock (removed.bktPool.cells (t.bktPool.mainPtr main)).version)
      refine ⟨?_, base.trans base', ?_, fun it inDir here => ?_⟩
      · rw [pool]
        exact alike
      · rw [pool]
        exact chain
      · rw [mem]
        exact stored it inDir here

/-- The writes of a remove. -/
theorem Holds.remove_traced {S : Setting σ} {t : KvTable σ} {dir : Multiset Item}
    {leaked : Nat → Multiset (Nat × Nat)} {entry : Mem} {res : Bool} {writes : List (KvTable σ)} {fuel : Nat}
    (holds : S.Holds t dir leaked) (keyed : S.Keyed entry) (unlocked : t.Unlocked)
    (done : t.removeCallTrace S.alloc fuel (S.log (entryKeyhash entry 0)) entry = .ok (res, writes)) :
    ∃ inside last, writes = inside ++ [last] ∧ inside ≠ [] ∧
      S.Traced t dir (bucketIndex t.bktPool.mainSize (entryKeyhash entry 0)) inside last := by
  have main := holds.main_lt (entryKeyhash entry 0)
  obtain ⟨even, fits⟩ := unlocked _ main
  have ends := KvTable.removeCallTrace_last done
  rw [KvTable.removeCallTrace] at done
  obtain ⟨pool, lock, done⟩ := bind_eq_ok.mp done
  obtain ⟨version, run, same⟩ := bind_eq_ok.mp lock
  obtain rfl := optimisticLock_even even fits run
  cases same
  obtain ⟨⟨ret, removes⟩, removal, done⟩ := bind_eq_ok.mp done
  have beside := (holds.setVersion main _).removeTrace keyed.hash removal
  cases done
  rw [List.getLastD_concat] at ends
  refine ⟨_, _, rfl, List.cons_ne_nil _ _, Traced.of_beside holds main rfl ?_ List.getLastD_mem_cons rfl rfl rfl
    ⟨_, _, (holds.removes keyed ends).1⟩⟩
  intro u member
  rcases List.mem_cons.mp member with rfl | write
  · exact ⟨.refl _ _, rfl, fun it inDir _ => holds.stored it inDir⟩
  · exact beside u write

/-- The writes of the second half of a put. -/
theorem Holds.put_writes {S : Setting σ} {t : KvTable σ} {dir : Multiset Item}
    {leaked : Nat → Multiset (Nat × Nat)} {entry m' : Mem} {fuel : Nat} {s' : σ} {taken copied : KvTable σ}
    {inserts : List BucketPool} {x offset : Nat} (holds : S.Holds t dir leaked) (keyed : S.Keyed entry)
    (small : initialSize entry 0 ≤ S.limit)
    (got : S.alloc.get t.mem (t.sfits (S.log (entryKeyhash entry 0))) (initialSize entry 0) = .ok (some x, m', s'))
    (isTaken : taken = { t with mem := m', sfits := Function.update t.sfits (S.log (entryKeyhash entry 0)) s' })
    (isCopied : copied = { taken with mem := writeBytes m' x (readBytes entry 0 (initialSize entry 0)) })
    (insert : insertTrace (entryKeyhash entry 0) offset fuel t.bktPool (getEntryBucket t.bktPool entry) =
      .ok inserts) :
    ∀ u ∈ taken :: copied :: inserts.map (fun pool => { copied with bktPool := pool }),
      S.Beside t u dir (bucketIndex t.bktPool.mainSize (entryKeyhash entry 0)) := by
  have length : (readBytes entry 0 (initialSize entry 0)).length = initialSize entry 0 := readBytes_length ..
  obtain ⟨placed, spares, claimed, chained⟩ := holds.pool
  obtain ⟨-, frame⟩ := (S.lawful _ keyed.log).get (holds.serving _ keyed.log) small got
  rw [← length] at got
  obtain ⟨written, -, -⟩ := holds.taken keyed.log _ (length.symm ▸ small) got
  subst isTaken isCopied
  intro u member
  rcases List.mem_cons.mp member with rfl | member
  · exact ⟨.refl _ _, rfl, fun it inDir _ => holds.stored_frame frame inDir⟩
  · rcases List.mem_cons.mp member with rfl | member
    · exact ⟨.refl _ _, rfl, fun it inDir _ => written.stored it inDir⟩
    · obtain ⟨pool, inside, rfl⟩ := List.mem_map.mp member
      exact ⟨chained.insertTrace_aside placed (holds.main_lt _) insert pool inside, rfl,
        fun it inDir _ => written.stored it inDir⟩

/-- The writes of a put that returns true. -/
theorem Holds.put_traced {S : Setting σ} {t : KvTable σ} {dir : Multiset Item}
    {leaked : Nat → Multiset (Nat × Nat)} {entry : Mem} {writes : List (KvTable σ)} {fuel : Nat}
    (holds : S.Holds t dir leaked) (keyed : S.Keyed entry) (sized : Sized entry)
    (small : initialSize entry 0 ≤ S.limit) (unlocked : t.Unlocked)
    (done : t.putCallTrace S.alloc fuel (S.log (entryKeyhash entry 0)) entry = .ok (true, writes)) :
    ∃ inside last, writes = inside ++ [last] ∧ inside ≠ [] ∧
      S.Traced t dir (bucketIndex t.bktPool.mainSize (entryKeyhash entry 0)) inside last := by
  have main := holds.main_lt (entryKeyhash entry 0)
  obtain ⟨even, fits⟩ := unlocked _ main
  have ends := KvTable.putCallTrace_last done
  have size : initialSize entry 0 % 2 ^ 32 = initialSize entry 0 := Nat.mod_eq_of_lt (small.trans_lt S.limit_lt)
  rw [KvTable.putCallTrace] at done
  simp only [size] at done
  obtain ⟨pool, lock, done⟩ := bind_eq_ok.mp done
  obtain ⟨version, run, same⟩ := bind_eq_ok.mp lock
  have odd := optimisticLock_even even fits run
  cases same
  obtain ⟨⟨ret, removes⟩, removal, done⟩ := bind_eq_ok.mp done
  obtain ⟨⟨newAddr, m', s'⟩, got, done⟩ := bind_eq_ok.mp done
  have locked := holds.setVersion main version
  have beside := locked.removeTrace keyed.hash removal
  obtain ⟨held, alike, -⟩ := locked.removed keyed.hash (KvTable.removeTrace_last removal)
  cases newAddr with
  | none => simp only [Except.ok.injEq, Prod.mk.injEq, Bool.false_eq_true, false_and] at done
  | some x =>
    simp only at done
    obtain ⟨inserts, insert, done⟩ := bind_eq_ok.mp done
    have first : ∀ u ∈ { t with
        bktPool := t.bktPool.setVersion (getEntryBucket t.bktPool entry) version } :: removes,
        S.Beside { t with bktPool := t.bktPool.setVersion (getEntryBucket t.bktPool entry) version } u dir
          (bucketIndex t.bktPool.mainSize (entryKeyhash entry 0)) := by
      intro u member
      rcases List.mem_cons.mp member with rfl | write
      · exact ⟨.refl _ _, rfl, fun it inDir _ => holds.stored it inDir⟩
      · exact beside u write
    have removed := first _ List.getLastD_mem_cons
    have later := held.put_writes keyed small got rfl rfl (by rw [alike.getEntryBucket entry]; exact insert)
    rw [alike.mainSize] at later
    have kept : ∀ it ∈ dir, it.main t.bktPool.mainSize ≠ bucketIndex t.bktPool.mainSize (entryKeyhash entry 0) →
        it ∈ dir.filter (fun it => it.key ≠ entryKey entry) := fun it member elsewhere =>
      Multiset.mem_filter.mpr ⟨member, holds.other_key keyed.hash member elsewhere⟩
    simp only [Except.ok.injEq, Prod.mk.injEq, true_and] at done
    subst done
    rw [List.getLastD_concat] at ends
    refine ⟨_, _, rfl, by simp, Traced.of_beside holds main odd (fun u member => ?_)
      (List.mem_append_right _ (List.mem_cons_of_mem _ (KvTable.indexed_mem _ inserts))) rfl rfl rfl ?_⟩
    · rcases List.mem_append.mp member with early | late
      · exact first u early
      · exact removed.trans (later u late) kept
    · cases holds.puts keyed sized small ends with
      | stored offset room takes after => exact ⟨_, _, after⟩
      | lost block exhausted absent takes after => exact ⟨_, _, after⟩

end Setting

end Fkv
