import Fkv.CircularLog.Progress
import Fkv.CircularLog.Table

namespace Fkv
open ByteMemory CWord Runs Tiling

/-- The allocator of log `l` with its partition. -/
def KvTable.heap (t : KvTable SegregatedFits) (l : Nat) : Heap := ⟨t.mem, t.sfits l⟩

/-- Log `l` has at least `k` free blocks of the largest class. -/
def KvTable.Stocked (L : Logs) (t : KvTable SegregatedFits) (l k : Nat) : Prop :=
  ∃ live lay, Serves (L.arena l) ⟨t.heap l, live⟩ lay ∧ k ≤ lay.blocks.count ⟨(L.arena l).len + 2, .free⟩

theorem segregatedFits_frees {A : Arena} {live : Multiset (Nat × Nat)} {m : Mem} {sfits : SegregatedFits}
    {n x : Nat} (serving : SegregatedFits.Serving A m sfits ((x, n) ::ₘ live)) :
    ∃ r, segregatedFits.free m sfits x = .ok r := by
  obtain ⟨blocks, split, lay, serves⟩ := serving
  have member : (x, n) ∈ blocks := by
    rw [← Multiset.mem_coe, split]
    exact Multiset.mem_cons_self _ _
  obtain ⟨f, rfl, rfl⟩ := serves.focus member
  obtain ⟨h', freed, -⟩ := serves.rep.free serves.settled
  exact ⟨_, bind_eq_ok.mpr ⟨h', freed, rfl⟩⟩

theorem Logs.frees (L : Logs) (hash : List UInt8 → Nat) (log : Nat → Nat) : (L.setting hash log).Frees :=
  fun _ serving => segregatedFits_frees serving

/-- A block of the largest class is handed out while there is one. -/
theorem Serves.get_stocked {A : Arena} {s : Client} {lay : Layout} {k : Nat} (n : Nat) (serves : Serves A s lay)
    (request : n ≤ 8 * A.len) (largest : requestClass n + 1 = A.len)
    (stocked : k + 1 ≤ lay.blocks.count ⟨A.len + 2, .free⟩) :
    ∃ x h' lay', getSegregatedFitsBlock s.heap n = .ok (some x, h') ∧ Serves A ⟨h', (x, n) :: s.live⟩ lay' ∧
      k ≤ lay'.blocks.count ⟨A.len + 2, .free⟩ := by
  have listed : lay.lists (requestClass n) ≠ [] := by
    rw [ne_eq, serves.rep.list_empty_iff (by omega), not_not, show requestClass n + 3 = A.len + 2 by omega]
    exact List.count_pos_iff.mp (by omega)
  obtain ⟨r, h', lay', run, gets, evolves⟩ := (serves.rep.get serves.settled request).1
    fun pre i post _ cuts => absurd cuts.empty listed
  have served := serves.get evolves.rep gets
  cases gets with
  | none empty _ => exact absurd empty listed
  | cut cuts _ _ => exact absurd cuts.empty listed
  | @pop _ x _ _ pops =>
    refine ⟨x, h', lay', run, served, ?_⟩
    obtain ⟨pre, post, p, rest, split, -, -, -, after⟩ := pops.elim
    rw [split, show requestClass n + 3 = A.len + 2 by omega, List.count_append, List.count_cons] at stocked
    rw [after, List.count_append, List.count_cons]
    simp only [beq_self_eq_true, if_true] at stocked
    omega

namespace Logs

/-- A put of a new key for which there is a block of the largest class. -/
theorem put_stocked {L : Logs} {hash : List UInt8 → Nat} {log : Nat → Nat} {t : KvTable SegregatedFits}
    {dir : Multiset Item} {leaked : Nat → Multiset (Nat × Nat)} {entry : Mem} {k fuel : Nat}
    (holds : (L.setting hash log).Holds t dir leaked) (keyed : (L.setting hash log).Keyed entry)
    (sized : Setting.Sized entry) (largest : requestClass (initialSize entry 0) = 159)
    (first : t.bktPool.firstTagged (entryKeyhash entry 0) = none) (enough : t.bktPool.spareSize + 1 < fuel)
    (stocked : t.Stocked L (log (entryKeyhash entry 0)) (k + 1)) :
    ∃ t', t.putCircularLogEntry segregatedFits fuel (log (entryKeyhash entry 0)) entry = .ok (true, t') ∧
      t'.Stocked L (log (entryKeyhash entry 0)) k ∧
      (¬ t.bktPool.Exhausted (entryKeyhash entry 0) ∧
          (∃ offset, (L.setting hash log).Holds t' (entryItem entry offset ::ₘ dir) leaked) ∨
        t.bktPool.Exhausted (entryKeyhash entry 0) ∧ ∃ block, (L.setting hash log).Holds t' dir
          (Function.update leaked (log (entryKeyhash entry 0))
            (block ::ₘ leaked (log (entryKeyhash entry 0))))) := by
  have inside : log (entryKeyhash entry 0) < L.logSize := keyed.log
  have len : (L.arena (log (entryKeyhash entry 0))).len = 160 := L.len _ inside
  have absent := holds.missing keyed first
  have bounded : initialSize entry 0 ≤ 1280 := by
    unfold requestClass at largest
    omega
  obtain ⟨live, lay, serves, count⟩ := stocked
  obtain ⟨x, h', lay', run, served, left⟩ := serves.get_stocked (initialSize entry 0)
    (by rw [len]; exact bounded) (by rw [len, largest]) count
  have got : segregatedFits.get t.mem (t.sfits (log (entryKeyhash entry 0))) (initialSize entry 0) =
      .ok (some x, h'.mem, h'.sfits) := bind_eq_ok.mpr ⟨_, run, rfl⟩
  obtain ⟨⟨res, t'⟩, put⟩ := holds.put_total keyed (fun p found => by rw [first] at found; cases found)
    (L.frees hash log) enough fun m s either => by
      rcases either with ⟨-, rfl, rfl⟩ | ⟨it, member, key, -⟩
      · rw [Nat.mod_eq_of_lt (by omega)]
        exact ⟨_, got⟩
      · exact absurd (Multiset.mem_map.mpr ⟨it, member, key⟩) absent
  have after : (L.setting hash log).Takes t entry t' → t'.Stocked L (log (entryKeyhash entry 0)) k := by
    rintro ⟨y, m, s, again, mem, fits⟩
    cases got.symm.trans again
    have written := served.rewrite (m := t'.mem) fun z _ _ outside => by
      rw [mem]
      exact writeBytes_apart _ (by
        rw [readBytes_length]
        exact outside x _ List.mem_cons_self)
    refine ⟨(x, initialSize entry 0) :: live, lay', ?_, left⟩
    rw [KvTable.heap, show t'.sfits (log (entryKeyhash entry 0)) = h'.sfits from fits]
    exact written
  have puts := holds.puts keyed sized bounded put
  cases puts with
  | refused why held =>
    rcases why with present | ⟨m, s, none⟩
    · exact absurd present absent
    · cases got.symm.trans none
  | stored offset room takes held =>
    have same : dir.filter (fun it => it.key ≠ entryKey entry) = dir :=
      Multiset.filter_eq_self.mpr fun it member key => absent (Multiset.mem_map.mpr ⟨it, member, key⟩)
    rw [same] at held
    exact ⟨t', put, after (takes absent), Or.inl ⟨room.resolve_left absent, offset, held⟩⟩
  | lost block exhausted absent takes held => exact ⟨t', put, after takes, Or.inr ⟨exhausted, block, held⟩⟩

end Logs

/-- A chain that holds as many entries as it can ever have slots is exhausted. -/
theorem Chained.exhausted {keyhash : Nat} {pool : BucketPool} {spares : Nat → List Nat} {claimed : Nat}
    (chained : Chained pool spares claimed) (main : bucketIndex pool.mainSize keyhash < pool.mainSize)
    (many : bucketEntrySize * (pool.spareSize + 1) ≤ (pool.contents (bucketIndex pool.mainSize keyhash)).card) :
    pool.Exhausted keyhash := by
  obtain ⟨i, atI⟩ : ∃ i, i = bucketIndex pool.mainSize keyhash := ⟨_, rfl⟩
  rw [BucketPool.Exhausted, ← chained.all_claimed, ← atI]
  rw [← atI] at main many
  have few := chained.length_le main
  have within := chained.within
  have length : (slots (pool.chain i)).length = bucketEntrySize * ((spares i).length + 1) := by
    rw [slots_length, chained.chain_eq main, List.length_cons, List.length_map]
  have le := Multiset.filter_le (fun e => isEmptyEntry e = false)
    ((slots (pool.chain i) : Multiset (Nat × Nat)).map pool.entry)
  have size : ((slots (pool.chain i) : Multiset (Nat × Nat)).map pool.entry).card =
    (slots (pool.chain i)).length := by simp
  have fewer := pool.contents_card_le i
  rw [chained.chain_eq main, List.length_cons, List.length_map] at fewer
  simp only [bucketEntrySize] at length many fewer
  have all := Multiset.eq_of_le_of_card_le le (by
    rw [size]
    exact (show (slots (pool.chain i)).length ≤ (pool.contents i).card by omega))
  refine ⟨fun p member => ?_, by omega⟩
  have occupied : pool.entry p ∈ ((slots (pool.chain i) : Multiset (Nat × Nat)).map pool.entry).filter
      (fun e => isEmptyEntry e = false) := by
    rw [all]
    exact Multiset.mem_map_of_mem _ (Multiset.mem_coe.mpr member)
  exact (Multiset.mem_filter.mp occupied).2

theorem Setting.Holds.untagged_first {dir : Multiset Item} {leaked : Nat → Multiset (Nat × Nat)} {σ : Type}
    {S : Setting σ} {t : KvTable σ} (holds : S.Holds t dir leaked) (keyhash : Nat)
    (others : ∀ it ∈ dir, lookupKeyTagHashPortion it.keyhash ≠ lookupKeyTagHashPortion keyhash) :
    t.bktPool.firstTagged keyhash = none := by
  cases found : t.bktPool.firstTagged keyhash with
  | none => rfl
  | some p =>
    obtain ⟨slot, matching⟩ := BucketPool.firstTagged_some found
    have tag := matchIndexEntryTag_iff.mp matching
    obtain ⟨it, member, -, index⟩ := holds.item (holds.main_lt keyhash) slot (by
      rw [tag]
      exact lookupKeyTagHashPortion_ne_zero keyhash)
    rw [← index, Item.index] at tag
    exact absurd tag (others it member)

/-- A partition of the size of the source at 2^40. -/
def oneArena : Arena :=
  { self := 64, addr := 2 ^ 40, addrSize := 2 ^ 30, len := 160, size_lt := by decide, end_lt := by decide,
    len_pos := by decide, len_lt := by decide, self_lt := by decide, apart := by decide, addr_ge := by decide,
    top := by decide }

/-- One log. -/
def oneLog : Logs where
  baseAddr := 2 ^ 40
  logSize := 1
  arena _ := oneArena
  addr l inside := by
    obtain rfl : l = 0 := Nat.lt_one_iff.mp inside
    rfl
  size _ _ := rfl
  len _ _ := rfl
  reach := by decide
  mapped := by decide

/-- The hash of a key is one more than its first byte. -/
def firstByte (key : List UInt8) : Nat := (key.headD 0).toNat + 1

/-- The tables of one log. -/
def oneSetting : Setting SegregatedFits := oneLog.setting firstByte (fun _ => 0)

/-- An entry of 1280 bytes whose key of 8 bytes begins with `n`. -/
def fullEntry (n : Nat) : Mem :=
  headerEntry ([0, 5, 0, 0, 0, 0, 0, 0, UInt8.ofNat (n + 1), 0, 0, 0, 0, 0, 0, 0, 8, 0, 0, 0, 216, 4, 0, 0, 0, 0,
    0, 0, 0, 0, 0, 0, UInt8.ofNat n])

theorem fullEntry_reads : ∀ n < 31, initialSize (fullEntry n) 0 = 1280 ∧ entryKeyhash (fullEntry n) 0 = n + 1 ∧
    keyLength (fullEntry n) 0 = 8 ∧ valLength (fullEntry n) 0 = 1240 ∧ firstByte (entryKey (fullEntry n)) = n + 1 ∧
    lookupKeyTagHashPortion (n + 1) = n + 1 := by
  decide

theorem fullEntry_legal {n : Nat} (few : n < 31) :
    oneSetting.Keyed (fullEntry n) ∧ Setting.Sized (fullEntry n) := by
  obtain ⟨size, keyhash, length, value, first, -⟩ := fullEntry_reads n few
  refine ⟨⟨keyhash.trans first.symm, Nat.one_pos⟩, ?_⟩
  rw [Setting.Sized, size, length, value]

/-- A fresh table of one log with one main bucket, stocked with largest blocks. -/
theorem oneTable (spareSize : Nat) (few : spareSize < 2 ^ 20) :
    ∃ t, KvTable.create (fun _ => smallRaw) (fun _ => 0) 4096 (2 ^ 40) 1 1 spareSize = .ok t ∧ oneSetting.Fresh t ∧
      t.bktPool = createBucketPool 4096 1 spareSize ∧ t.Stocked oneLog 0 31 := by
  obtain ⟨t, created, fresh, pool, serves⟩ :=
    KvTable.create_fresh oneLog firstByte (fun _ => 0) (fun _ => smallRaw) (fun _ => 0) 4096 1 spareSize
      (fun _ => rfl) le_rfl (by omega) (by omega)
  have count : 31 ≤ oneArena.fresh.blocks.count ⟨162, .free⟩ := le_trans (by decide) oneArena.fresh_count
  exact ⟨t, created, fresh, pool, [], _, serves 0 Nat.one_pos, count⟩

end Fkv
