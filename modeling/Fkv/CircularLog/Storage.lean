import Mathlib.Data.Multiset.UnionInter
import Fkv.CircularLog.Stock

namespace Fkv
open ByteMemory CWord Runs Tiling

/-- The slot `s.2` of chain `s.1` is occupied and has this offset. -/
def KvTable.Refers {σ : Type} (t : KvTable σ) (offset : Nat) (s : Nat × Nat × Nat) : Prop :=
  s.1 < t.bktPool.mainSize ∧ s.2 ∈ slots (t.bktPool.chain s.1) ∧ isEmptyEntry (t.bktPool.entry s.2) = false ∧
    (t.bktPool.entry s.2).offset = offset

/-- The block is one of the used blocks that tile the partition. -/
def InUse (A : Arena) (h : Heap) (block : Nat) : Prop :=
  ∃ lay : Layout, lay.Settled ∧ Rep A h lay ∧ ∃ q ∈ usedBlocks A.addr lay.blocks, block = q.1 + 8

/-- Every used block is referred to by exactly one slot of some chain, and every
occupied slot refers to a used block. -/
structure Corresponds (L : Logs) (t : KvTable SegregatedFits) : Prop where
  wellFormed : ∀ l < L.logSize, WellFormed (L.arena l) (t.heap l)
  once : ∀ l < L.logSize, ∀ block, InUse (L.arena l) (t.heap l) block →
    t.baseAddr ≤ block ∧ ∃! s, t.Refers (block - t.baseAddr) s
  used : ∀ offset s, t.Refers offset s → ∃ l < L.logSize, InUse (L.arena l) (t.heap l) (t.baseAddr + offset)

/-- A slot of the chain of the entry with the tag and the key of the entry. -/
def KvTable.Present {σ : Type} (t : KvTable σ) (entry : Mem) (p : Nat × Nat) : Prop :=
  p ∈ slots (t.bktPool.chain (bucketIndex t.bktPool.mainSize (entryKeyhash entry 0))) ∧
    matchIndexEntryTag (t.bktPool.entry p).tag (entryKeyhash entry 0) = true ∧
    t.matchCircularLogEntryKey entry (t.bktPool.entry p).offset = true

/-- A put finds a slot for its entry, or has no block to lose: its chain has an
empty slot or a spare is unclaimed, or the key is in the table, or no free block
is large enough. -/
def KvTable.Room (L : Logs) (log : Nat → Nat) (t : KvTable SegregatedFits) : KvCall → Prop
  | .put entry =>
    ¬ t.bktPool.Exhausted (entryKeyhash entry 0) ∨
      (∃ p ∈ slots (t.bktPool.chain (bucketIndex t.bktPool.mainSize (entryKeyhash entry 0))),
        matchIndexEntryTag (t.bktPool.entry p).tag (entryKeyhash entry 0) = true ∧
          t.matchCircularLogEntryKey entry (t.bktPool.entry p).offset = true) ∨
      ∀ lay : Layout, lay.Settled →
        Rep (L.arena (log (entryKeyhash entry 0))) (t.heap (log (entryKeyhash entry 0))) lay →
        ¬ Available (requestClass (initialSize entry 0) + 3) lay.blocks
  | _ => True

namespace SegregatedFits.Serving

/-- The blocks served are the used ones. -/
theorem inUse_iff {A : Arena} {live : Multiset (Nat × Nat)} {m : Mem} {sfits : SegregatedFits} {block : Nat}
    (serving : SegregatedFits.Serving A m sfits live) : InUse A ⟨m, sfits⟩ block ↔ block ∈ live.map Prod.fst := by
  obtain ⟨blocks, rfl, lay, serves⟩ := serving
  have served : block ∈ (blocks : Multiset (Nat × Nat)).map Prod.fst ↔ ∃ q ∈ usedBlocks A.addr lay.blocks,
    q.1 + 8 = block := by
    rw [Multiset.map_coe, Multiset.mem_coe, serves.live.mem_iff, List.mem_map]
  rw [served]
  constructor
  · rintro ⟨lay', settled, rep, q, used, rfl⟩
    rw [rep.blocks_unique serves.rep settled serves.settled] at used
    exact ⟨q, used, rfl⟩
  · rintro ⟨q, used, rfl⟩
    exact ⟨lay, serves.settled, serves.rep, q, used, rfl⟩

theorem nodup {A : Arena} {live : Multiset (Nat × Nat)} {m : Mem} {sfits : SegregatedFits}
    (serving : SegregatedFits.Serving A m sfits live) : (live.map Prod.fst).Nodup := by
  obtain ⟨blocks, rfl, lay, serves⟩ := serving
  exact Multiset.coe_nodup.mpr serves.starts_nodup

theorem wellFormed {A : Arena} {live : Multiset (Nat × Nat)} {m : Mem} {sfits : SegregatedFits}
    (serving : SegregatedFits.Serving A m sfits live) : WellFormed A ⟨m, sfits⟩ := by
  obtain ⟨blocks, rfl, lay, serves⟩ := serving
  exact ⟨lay, serves.settled, serves.rep⟩

theorem start_lt {A : Arena} {live : Multiset (Nat × Nat)} {m : Mem} {sfits : SegregatedFits} {block : Nat}
    (serving : SegregatedFits.Serving A m sfits live) (member : block ∈ live.map Prod.fst) :
    A.addr ≤ block ∧ block < A.addr + A.addrSize := by
  obtain ⟨blocks, rfl, lay, serves⟩ := serving
  obtain ⟨b, inside, rfl⟩ := Multiset.mem_map.mp member
  obtain ⟨p, w, used, start, fits⟩ := serves.room b.1 b.2 (by simpa using inside)
  have bounds := serves.rep.bounds (mem_usedBlocks.mp used)
  have sized := serves.rep.sized _ (mem_of_place (mem_usedBlocks.mp used))
  simp only at bounds
  have words : 3 ≤ w := sized.1
  omega

/-- A get that returns has no block exactly when no free block is large enough. -/
theorem get_none_iff {A : Arena} {live : Multiset (Nat × Nat)} {m m' : Mem} {sfits sfits' : SegregatedFits}
    {n : Nat} {r : Option Nat} (serving : SegregatedFits.Serving A m sfits live) (request : n ≤ 8 * A.len)
    (some : 0 < A.len) (got : segregatedFits.get m sfits n = .ok (r, m', sfits')) : r = none ↔
      ∀ lay : Layout, lay.Settled → Rep A ⟨m, sfits⟩ lay → ¬ Available (requestClass n + 3) lay.blocks := by
  obtain ⟨blocks, rfl, lay, serves⟩ := serving
  obtain ⟨⟨r', h'⟩, run, same⟩ := bind_eq_ok.mp got
  cases same
  obtain ⟨lay', gets, -⟩ := serves.rep.get_ok serves.settled request run
  have bound : requestClass n < A.len := by
    unfold requestClass
    omega
  rw [gets.none_iff serves.rep bound]
  constructor
  · intro nothing lay₂ settled rep
    rwa [rep.blocks_unique serves.rep settled serves.settled]
  · exact fun all => all lay serves.settled serves.rep

end SegregatedFits.Serving

namespace Setting.Holds
variable {σ : Type}

theorem refers_item {dir : Multiset Item} {leaked : Nat → Multiset (Nat × Nat)} {offset : Nat}
    {s : Nat × Nat × Nat} {S : Setting σ} {t : KvTable σ} (holds : S.Holds t dir leaked)
    (refers : t.Refers offset s) :
    ∃ it ∈ dir, it.main t.bktPool.mainSize = s.1 ∧ it.offset = offset := by
  obtain ⟨main, slot, occupied, rfl⟩ := refers
  obtain ⟨it, member, here, index⟩ := holds.item main slot (isEmptyEntry_eq_false.mp occupied)
  exact ⟨it, member, here, by rw [← index, Item.index]⟩

/-- Exactly one slot refers to an item. -/
theorem refers {dir : Multiset Item} {leaked : Nat → Multiset (Nat × Nat)} {it : Item} {S : Setting σ}
    {t : KvTable σ} (holds : S.Holds t dir leaked) (member : it ∈ dir) : ∃! s, t.Refers it.offset s := by
  have main : it.main t.bktPool.mainSize < t.bktPool.mainSize := holds.main_lt it.keyhash
  obtain ⟨tagged, p, slot, entry⟩ := BucketPool.mem_held.mp (holds.listed member)
  refine ⟨(it.main t.bktPool.mainSize, p), ⟨main, slot, ?_, by rw [entry, Item.index]⟩, fun s refers => ?_⟩
  · rw [isEmptyEntry_eq_false, entry]
    exact tagged
  · obtain ⟨other, inside, here, same⟩ := holds.refers_item refers
    obtain rfl := Multiset.inj_on_of_nodup_map holds.offsets other inside it member same
    obtain ⟨i, q⟩ := s
    obtain rfl : other.main t.bktPool.mainSize = i := here
    obtain ⟨-, slot', occupied, offset⟩ := refers
    have equal := BucketPool.held_inj (holds.contents_offsets main) slot' slot occupied
      (by rw [isEmptyEntry_eq_false, entry]; exact tagged) (by rw [entry, offset, Item.index])
    exact congrArg (Prod.mk _) equal

/-- The slot of an item. -/
theorem present {dir : Multiset Item} {leaked : Nat → Multiset (Nat × Nat)} {it : Item} {entry : Mem}
    {S : Setting σ} {t : KvTable σ} (holds : S.Holds t dir leaked) (keyed : S.Keyed entry) (member : it ∈ dir)
    (key : it.key = entryKey entry) :
    ∃ p, t.Present entry p ∧ (t.bktPool.entry p).offset = it.offset := by
  have hash : it.keyhash = entryKeyhash entry 0 := by rw [holds.hashed it member, key, keyed.hash]
  have listed := holds.listed member
  rw [Item.main, hash] at listed
  obtain ⟨-, p, slot, index⟩ := BucketPool.mem_held.mp listed
  refine ⟨p, ⟨slot, ?_, ?_⟩, by rw [index, Item.index]⟩
  · rw [matchIndexEntryTag_iff, index, Item.index, hash]
  · rw [index, Item.index]
    refine (Item.Stored.match_iff ?_).mpr key
    rw [holds.address member]
    exact holds.stored it member

/-- The item of a slot with the key. -/
theorem present_item {dir : Multiset Item} {leaked : Nat → Multiset (Nat × Nat)} {entry : Mem} {S : Setting σ}
    {t : KvTable σ} {p : Nat × Nat} (holds : S.Holds t dir leaked) (present : t.Present entry p) :
    ∃ it ∈ dir, it.key = entryKey entry ∧ (t.bktPool.entry p).offset = it.offset := by
  obtain ⟨slot, matching, equal⟩ := present
  obtain ⟨it, member, -, index, same⟩ := holds.match_item (holds.main_lt _) slot matching
  exact ⟨it, member, same.mp equal, by rw [← index, Item.index]⟩

/-- A key is in the table when a slot of its chain passes both tests. -/
theorem key_iff {dir : Multiset Item} {leaked : Nat → Multiset (Nat × Nat)} {entry : Mem} {S : Setting σ}
    {t : KvTable σ} (holds : S.Holds t dir leaked) (keyed : S.Keyed entry) :
    entryKey entry ∈ dir.map Item.key ↔ ∃ p, t.Present entry p := by
  constructor
  · intro present
    obtain ⟨it, member, key⟩ := Multiset.mem_map.mp present
    obtain ⟨p, here, -⟩ := holds.present keyed member key
    exact ⟨p, here⟩
  · rintro ⟨p, here⟩
    obtain ⟨it, member, key, -⟩ := holds.present_item here
    exact Multiset.mem_map.mpr ⟨it, member, key⟩

theorem mem_starts {dir : Multiset Item} {leaked : Nat → Multiset (Nat × Nat)} {l x : Nat} {S : Setting σ} :
    x ∈ (S.blocks dir l + leaked l).map Prod.fst ↔
    (∃ it ∈ dir, S.log it.keyhash = l ∧ S.baseAddr + it.offset = x) ∨ x ∈ (leaked l).map Prod.fst := by
  rw [Multiset.map_add, Multiset.mem_add, blocks, Multiset.map_map]
  refine or_congr_left ?_
  simp only [Multiset.mem_map, Multiset.mem_filter, Function.comp_apply, Item.block, and_assoc]

end Setting.Holds

namespace Logs

/-- The used blocks of a log are those of its items and the leaked ones. -/
theorem inUse_iff {L : Logs} {hash : List UInt8 → Nat} {log : Nat → Nat} {t : KvTable SegregatedFits}
    {dir : Multiset Item} {leaked : Nat → Multiset (Nat × Nat)} {block l : Nat}
    (holds : (L.setting hash log).Holds t dir leaked) (inside : l < L.logSize) :
    InUse (L.arena l) (t.heap l) block ↔
      (∃ it ∈ dir, log it.keyhash = l ∧ L.baseAddr + it.offset = block) ∨ block ∈ (leaked l).map Prod.fst :=
  (holds.serving l inside).inUse_iff.trans Setting.Holds.mem_starts

/-- Slots and used blocks correspond when nothing has leaked. -/
theorem corresponds_iff {L : Logs} {hash : List UInt8 → Nat} {log : Nat → Nat} {t : KvTable SegregatedFits}
    {dir : Multiset Item} {leaked : Nat → Multiset (Nat × Nat)}
    (holds : (L.setting hash log).Holds t dir leaked) :
    Corresponds L t ↔ ∀ l < L.logSize, leaked l = 0 := by
  constructor
  · rintro ⟨-, once, used⟩ l inside
    refine Multiset.eq_zero_of_forall_notMem fun block member => ?_
    have start : block.1 ∈ (leaked l).map Prod.fst := Multiset.mem_map_of_mem _ member
    obtain ⟨low, s, refers, -⟩ := once l inside block.1 ((inUse_iff holds inside).mpr (Or.inr start))
    obtain ⟨it, inDir, -, offset⟩ := holds.refers_item refers
    have base : t.baseAddr = L.baseAddr := holds.base
    have same : L.baseAddr + it.offset = block.1 := by omega
    have serving := holds.serving l inside
    have bounds := SegregatedFits.Serving.start_lt serving (Setting.Holds.mem_starts.mpr (Or.inr start))
    rw [L.addr l inside, L.size l inside] at bounds
    have place : L.baseAddr + circularLogSize * log it.keyhash ≤ L.baseAddr + it.offset ∧
        L.baseAddr + it.offset + it.bytes.length ≤ L.baseAddr + circularLogSize * (log it.keyhash + 1) :=
        holds.within inDir
    have room := (holds.stored it inDir).room
    have here : log it.keyhash = l := by
      by_contra elsewhere
      rcases (L.setting hash log).partition_apart elsewhere with before | behind
      · simp only [Logs.setting] at before
        omega
      · simp only [Logs.setting, Nat.mul_succ] at behind
        omega
    have nodup := SegregatedFits.Serving.nodup serving
    rw [Multiset.map_add] at nodup
    subst here
    have other : block.1 ∈ ((L.setting hash log).blocks dir (log it.keyhash)).map Prod.fst :=
      Multiset.mem_map.mpr ⟨_, Setting.mem_blocks inDir, same⟩
    exact Multiset.disjoint_left.mp (Multiset.disjoint_of_nodup_add nodup) other start
  · intro none
    refine ⟨fun l inside => (holds.serving l inside).wellFormed, fun l inside block used => ?_,
      fun offset s refers => ?_⟩
    · rw [inUse_iff holds inside, none l inside] at used
      obtain ⟨it, member, -, rfl⟩ := used.resolve_right (by simp)
      rw [holds.base]
      refine ⟨Nat.le_add_right _ _, ?_⟩
      have cancel : L.baseAddr + it.offset - (L.setting hash log).baseAddr = it.offset :=
        Nat.add_sub_cancel_left ..
      rw [cancel]
      exact holds.refers member
    · obtain ⟨it, member, -, rfl⟩ := holds.refers_item refers
      refine ⟨log it.keyhash, holds.logged it member, (inUse_iff holds (holds.logged it member)).mpr (Or.inl ?_)⟩
      exact ⟨it, member, rfl, by rw [holds.base]; rfl⟩

/-- A put that returns has had room for its entry, or has lost the block it took. -/
theorem put_outcome {L : Logs} {hash : List UInt8 → Nat} {log : Nat → Nat} {t t' : KvTable SegregatedFits}
    {dir : Multiset Item} {leaked : Nat → Multiset (Nat × Nat)} {fuel : Nat} {entry : Mem} {res : Bool}
    (holds : (L.setting hash log).Holds t dir leaked) (keyed : (L.setting hash log).Keyed entry)
    (sized : Setting.Sized entry) (bounded : initialSize entry 0 ≤ segregatedMaxDataSize)
    (put : t.putCircularLogEntry segregatedFits fuel (log (entryKeyhash entry 0)) entry = .ok (res, t')) :
    t.Room L log (.put entry) ∧
        (res = false ∧ (L.setting hash log).Holds t' (dir.filter (fun it => it.key ≠ entryKey entry)) leaked ∨
          res = true ∧ ∃ offset, (L.setting hash log).Holds t'
            (entryItem entry offset ::ₘ dir.filter (fun it => it.key ≠ entryKey entry)) leaked) ∨
      ¬ t.Room L log (.put entry) ∧ res = true ∧ entryKey entry ∉ dir.map Item.key ∧
      ∃ block, (L.setting hash log).Holds t' dir
        (Function.update leaked (log (entryKeyhash entry 0)) (block ::ₘ leaked (log (entryKeyhash entry 0)))) := by
  have inside : log (entryKeyhash entry 0) < L.logSize := keyed.log
  have serving : SegregatedFits.Serving (L.arena (log (entryKeyhash entry 0))) t.mem
    (t.sfits (log (entryKeyhash entry 0))) _ :=
    holds.serving _ inside
  have len := L.len _ inside
  have request : initialSize entry 0 ≤ 8 * (L.arena (log (entryKeyhash entry 0))).len := by
    rw [len]
    exact bounded
  have some : 0 < (L.arena (log (entryKeyhash entry 0))).len := by
    rw [len]
    decide
  cases holds.puts keyed sized bounded put with
  | refused why held =>
    refine Or.inl ⟨?_, Or.inl ⟨rfl, held⟩⟩
    rcases why with present | ⟨m, s, got⟩
    · exact Or.inr (Or.inl ((holds.key_iff keyed).mp present))
    · exact Or.inr (Or.inr ((SegregatedFits.Serving.get_none_iff serving request some got).mp rfl))
  | stored offset room takes held =>
    refine Or.inl ⟨?_, Or.inr ⟨rfl, offset, held⟩⟩
    exact room.elim (fun present => Or.inr (Or.inl ((holds.key_iff keyed).mp present))) Or.inl
  | lost block exhausted absent takes held =>
    obtain ⟨x, m, s, got, -⟩ := takes
    refine Or.inr ⟨?_, rfl, absent, block, held⟩
    rintro (room | slot | unavailable)
    · exact room exhausted
    · exact absent ((holds.key_iff keyed).mpr slot)
    · cases (SegregatedFits.Serving.get_none_iff serving request some got).mpr unavailable

/-- A put, remove or get keeps the correspondence exactly when a put has room. -/
theorem step_corresponds {L : Logs} {hash : List UInt8 → Nat} {log : Nat → Nat} {t t' : KvTable SegregatedFits}
    {dir : Multiset Item} {leaked : Nat → Multiset (Nat × Nat)} {fuel : Nat} {call : KvCall}
    (holds : (L.setting hash log).Holds t dir leaked) (corresponds : Corresponds L t)
    (legal : (L.setting hash log).Legal call) (bounded : (L.setting hash log).Bounded call)
    (done : (L.setting hash log).step fuel t call = .ok t') : Corresponds L t' ↔ t.Room L log call := by
  have none := (corresponds_iff holds).mp corresponds
  obtain ⟨⟨res, entry', t₁⟩, performed, done⟩ := bind_eq_ok.mp done
  cases done
  cases call with
  | put entry =>
    obtain ⟨⟨res, t₁⟩, put, performed⟩ := bind_eq_ok.mp performed
    simp only [Except.ok.injEq, Prod.mk.injEq] at performed
    obtain ⟨-, -, rfl⟩ := performed
    rcases put_outcome holds legal.1 legal.2 bounded put with
      ⟨room, ⟨-, held⟩ | ⟨-, offset, held⟩⟩ | ⟨exhausted, -, -, block, held⟩
    · exact iff_of_true ((corresponds_iff held).mpr none) room
    · exact iff_of_true ((corresponds_iff held).mpr none) room
    · refine iff_of_false (fun still => ?_) exhausted
      have zero := (corresponds_iff held).mp still (log (entryKeyhash entry 0)) legal.1.log
      rw [Function.update_self] at zero
      exact Multiset.cons_ne_zero zero
  | get entry =>
    obtain ⟨⟨res, entry⟩, got, performed⟩ := bind_eq_ok.mp performed
    simp only [Except.ok.injEq, Prod.mk.injEq] at performed
    obtain ⟨-, -, rfl⟩ := performed
    exact iff_of_true corresponds trivial
  | remove entry =>
    obtain ⟨⟨res, t₁⟩, removed, performed⟩ := bind_eq_ok.mp performed
    simp only [Except.ok.injEq, Prod.mk.injEq] at performed
    obtain ⟨-, -, rfl⟩ := performed
    exact iff_of_true ((corresponds_iff (holds.removes legal removed).1).mpr none) trivial

end Logs

/-- With one main bucket and one spare the chain has room for 30 entries. -/
theorem Setting.Holds.exhausted_iff {dir : Multiset Item} {leaked : Nat → Multiset (Nat × Nat)} {σ : Type}
    {S : Setting σ} {t : KvTable σ} (holds : S.Holds t dir leaked) (mains : t.bktPool.mainSize = 1)
    (spares : t.bktPool.spareSize = 1) (keyhash : Nat) :
    t.bktPool.Exhausted keyhash ↔ 30 ≤ dir.card := by
  obtain ⟨placed, lists, claimed, chained⟩ := holds.pool
  have main := holds.main_lt keyhash
  have zero : bucketIndex t.bktPool.mainSize keyhash = 0 := by omega
  have card : (t.bktPool.contents 0).card = dir.card := by
    rw [holds.chains 0 (by omega), Multiset.card_map]
    congr 1
    refine Multiset.filter_eq_self.mpr fun it _ => ?_
    have below : it.main t.bktPool.mainSize < t.bktPool.mainSize := holds.main_lt it.keyhash
    omega
  constructor
  · rintro ⟨full, versions⟩
    rw [zero] at full
    have all := chained.all_claimed.mpr versions
    obtain ⟨i, inside, member⟩ := (chained.owned 0).mpr (by omega)
    obtain rfl : i = 0 := by omega
    have length := Chained.full_card full
    rw [card, chained.chain_eq (by omega), List.length_cons, List.length_map] at length
    have some := List.length_pos_of_mem member
    simp only [bucketEntrySize] at length
    omega
  · intro many
    refine chained.exhausted main ?_
    rw [zero, card, spares]
    exact many

/-- The put of the next full entry. -/
theorem full_put {t : KvTable SegregatedFits} {dir : Multiset Item} {leaked : Nat → Multiset (Nat × Nat)}
    {n fuel k : Nat} (holds : oneSetting.Holds t dir leaked) (hashes : ∀ it ∈ dir, 1 ≤ it.keyhash ∧ it.keyhash ≤ n)
    (few : n < 31) (stocked : t.Stocked oneLog 0 (k + 1)) (enough : t.bktPool.spareSize + 1 < fuel) :
    ∃ t', oneSetting.perform fuel t (.put (fullEntry n)) = .ok (true, fullEntry n, t') ∧ t'.Stocked oneLog 0 k ∧
      (¬ t.bktPool.Exhausted (n + 1) ∧
        (∃ offset, oneSetting.Holds t' (entryItem (fullEntry n) offset ::ₘ dir) leaked) ∨
        t.bktPool.Exhausted (n + 1) ∧
        ∃ block, oneSetting.Holds t' dir (Function.update leaked 0 (block ::ₘ leaked 0))) := by
  obtain ⟨size, keyhash, -, -, -, tag⟩ := fullEntry_reads n few
  obtain ⟨keyed, sized⟩ := fullEntry_legal few
  have first : t.bktPool.firstTagged (entryKeyhash (fullEntry n) 0) = none := by
    refine holds.untagged_first _ fun it member => ?_
    obtain ⟨low, high⟩ := hashes it member
    have other := (fullEntry_reads (it.keyhash - 1) (by omega)).2.2.2.2.2
    rw [Nat.sub_add_cancel low] at other
    rw [keyhash, tag, other]
    omega
  obtain ⟨t', put, left, outcome⟩ := Logs.put_stocked holds keyed sized (by rw [size]; decide) first enough stocked
  rw [keyhash] at outcome
  have performed : oneSetting.perform fuel t (.put (fullEntry n)) = .ok (true, fullEntry n, t') :=
    bind_eq_ok.mpr ⟨(true, t'), put, rfl⟩
  exact ⟨t', performed, left, outcome⟩

/-- The first 30 puts of a table with one main bucket and one spare. -/
theorem filled {t : KvTable SegregatedFits} {n : Nat} (fresh : oneSetting.Fresh t)
    (mains : t.bktPool.mainSize = 1) (spares : t.bktPool.spareSize = 1) (stocked : t.Stocked oneLog 0 31)
    (few : n ≤ 30) :
    ∃ t' dir, run (oneSetting.step 4) ((List.range n).map (fun k => .put (fullEntry k))) t = .ok t' ∧
      oneSetting.Holds t' dir (fun _ => 0) ∧ dir.card = n ∧ (∀ it ∈ dir, 1 ≤ it.keyhash ∧ it.keyhash ≤ n) ∧
      t'.Stocked oneLog 0 (31 - n) ∧ t'.bktPool.mainSize = 1 ∧ t'.bktPool.spareSize = 1 := by
  induction n with
  | zero => exact ⟨t, 0, rfl, fresh.holds, rfl, by simp, stocked, mains, spares⟩
  | succ n ih =>
    obtain ⟨t₁, dir, earlier, holds, card, hashes, stocked₁, mains₁, spares₁⟩ := ih (by omega)
    rw [show 31 - n = 31 - (n + 1) + 1 by omega] at stocked₁
    obtain ⟨t', performed, left, outcome⟩ :=
      full_put holds hashes (by omega) stocked₁ (show t₁.bktPool.spareSize + 1 < 4 by omega)
    have step : oneSetting.step 4 t₁ (.put (fullEntry n)) = .ok t' := bind_eq_ok.mpr ⟨_, performed, rfl⟩
    have alike := oneSetting.step_alike step
    rw [holds.exhausted_iff mains₁ spares₁, card] at outcome
    rcases outcome with ⟨-, offset, held⟩ | ⟨many, -⟩
    · refine ⟨t', _, ?_, held, by rw [Multiset.card_cons, card], fun it member => ?_, left,
        alike.mainSize.trans mains₁, alike.spareSize.trans spares₁⟩
      · rw [List.range_succ, List.map_append, run_append earlier, List.map_singleton, run_cons step, run_nil]
      · rcases Multiset.mem_cons.mp member with rfl | old
        · have keyhash := (fullEntry_reads n (by omega)).2.1
          simp only [entryItem, keyhash]
          omega
        · have bounds := hashes it old
          omega
    · omega

/-- The table of one log after its first put. -/
theorem onePut : ∃ t t₁ offset, KvTable.create (fun _ => smallRaw) (fun _ => 0) 4096 (2 ^ 40) 1 1 1 = .ok t ∧
    oneSetting.Fresh t ∧ t.bktPool.spareSize = 1 ∧ t₁.bktPool.spareSize = 1 ∧
    oneSetting.perform 4 t (.put (fullEntry 0)) = .ok (true, fullEntry 0, t₁) ∧
    oneSetting.Holds t₁ (entryItem (fullEntry 0) offset ::ₘ 0) (fun _ => 0) := by
  obtain ⟨t, created, fresh, pool, stocked⟩ := oneTable 1 (by decide)
  have mains : t.bktPool.mainSize = 1 := by rw [pool]; rfl
  have spares : t.bktPool.spareSize = 1 := by rw [pool]; rfl
  obtain ⟨t₁, performed, -, outcome⟩ := full_put fresh.holds (n := 0) (by simp) (by decide) stocked
    (show t.bktPool.spareSize + 1 < 4 by omega)
  rw [fresh.holds.exhausted_iff mains spares] at outcome
  obtain ⟨-, offset, holds⟩ := outcome.resolve_right fun full => absurd full.1 (by simp)
  have step : oneSetting.step 4 t (.put (fullEntry 0)) = .ok t₁ := bind_eq_ok.mpr ⟨_, performed, rfl⟩
  have alike := oneSetting.step_alike step
  exact ⟨t, t₁, offset, created, fresh, spares, alike.spareSize.trans spares, performed, holds⟩

/-- The only key of a table is met first. -/
theorem Setting.Holds.clear_alone {leaked : Nat → Multiset (Nat × Nat)} {offset : Nat} {entry : Mem} {σ : Type}
    {S : Setting σ} {t : KvTable σ} (holds : S.Holds t (entryItem entry offset ::ₘ 0) leaked) : t.Clear entry := by
  intro p first
  obtain ⟨it, member, -, -, same⟩ := holds.first_item first
  rw [Multiset.mem_cons.mp member |>.resolve_right (by simp)] at same
  exact same.mpr rfl

/-- Puts an entry, gets it and removes it. -/
def oneCalls : List KvCall := [.put (fullEntry 0), .get (fullEntry 0), .remove (fullEntry 0)]

theorem oneCalls_legal : ∀ call ∈ oneCalls, oneSetting.Legal call ∧ oneSetting.Bounded call := by
  obtain ⟨keyed, sized⟩ := fullEntry_legal (show 0 < 31 by decide)
  simp only [oneCalls, List.forall_mem_cons]
  exact ⟨⟨⟨keyed, sized⟩, (fullEntry_reads 0 (by decide)).1.le⟩, ⟨keyed, trivial⟩, ⟨keyed, trivial⟩, by simp⟩

/-- The table of one log goes through these calls. -/
theorem oneRun : ∃ t t', KvTable.create (fun _ => smallRaw) (fun _ => 0) 4096 (2 ^ 40) 1 1 1 = .ok t ∧
    oneSetting.Fresh t ∧ run (oneSetting.step 4) oneCalls t = .ok t' := by
  obtain ⟨t, t₁, offset, created, fresh, -, spares, performed, holds⟩ := onePut
  obtain ⟨keyed, -⟩ := fullEntry_legal (show 0 < 31 by decide)
  have put : oneSetting.step 4 t (.put (fullEntry 0)) = .ok t₁ := bind_eq_ok.mpr ⟨_, performed, rfl⟩
  have get : oneSetting.step 4 t₁ (.get (fullEntry 0)) = .ok t₁ := by
    rcases holds.gets keyed holds.clear_alone (show t₁.bktPool.spareSize < 4 by omega) with
      ⟨-, got⟩ | ⟨it, -, -, got⟩ <;>
    exact bind_eq_ok.mpr ⟨_, bind_eq_ok.mpr ⟨_, got, rfl⟩, rfl⟩
  obtain ⟨⟨res, t₂⟩, removed⟩ := holds.remove_total keyed holds.clear_alone (oneLog.frees firstByte fun _ => 0)
    (show t₁.bktPool.spareSize + 1 < 4 by omega)
  have remove : oneSetting.step 4 t₁ (.remove (fullEntry 0)) = .ok t₂ :=
    bind_eq_ok.mpr ⟨_, bind_eq_ok.mpr ⟨_, removed, rfl⟩, rfl⟩
  exact ⟨t, t₂, created, fresh, by rw [oneCalls, run_cons put, run_cons get, run_cons remove, run_nil]⟩

/-- In every state of a completed run slots and used blocks correspond exactly
when every put has room. -/
theorem storage_corresponds_iff (L : Logs) (hash : List UInt8 → Nat) (log : Nat → Nat)
    (t t' : KvTable SegregatedFits) (fuel : Nat) (calls : List KvCall) (fresh : (L.setting hash log).Fresh t)
    (legal : ∀ call ∈ calls, (L.setting hash log).Legal call ∧ (L.setting hash log).Bounded call)
    (done : run ((L.setting hash log).step fuel) calls t = .ok t') :
    Throughout ((L.setting hash log).step fuel) (Corresponds L) calls t ↔
      Meets ((L.setting hash log).step fuel) (KvTable.Room L log) calls t := by
  have start : Corresponds L t := (Logs.corresponds_iff fresh.holds).mpr fun _ _ => rfl
  have keeps : ∀ (s : KvTable SegregatedFits) (call : KvCall) (s' : KvTable SegregatedFits),
      (∃ dir leaked, (L.setting hash log).Holds s dir leaked) →
      (L.setting hash log).Legal call ∧ (L.setting hash log).Bounded call →
      (L.setting hash log).step fuel s call = .ok s' →
      ∃ dir leaked, (L.setting hash log).Holds s' dir leaked := by
    rintro s call s' ⟨dir, leaked, holds⟩ lawful step
    exact holds.step lawful.1 lawful.2 step
  refine inv_iff_meets keeps (fun s call s' => ?_) ⟨0, _, fresh.holds⟩ start
    (meets_of_forall fun call member _ => legal call member)
    done
  rintro ⟨dir, leaked, holds⟩ corresponds lawful step
  exact Logs.step_corresponds holds corresponds lawful.1 lawful.2 step

theorem storage_corresponds_iff_one :
    ∃ t t', KvTable.create (fun _ => smallRaw) (fun _ => 0) 4096 (2 ^ 40) 1 1 1 = .ok t ∧
    run (oneSetting.step 4) oneCalls t = .ok t' ∧
    (Throughout (oneSetting.step 4) (Corresponds oneLog) oneCalls t ↔
      Meets (oneSetting.step 4) (KvTable.Room oneLog (fun _ => 0)) oneCalls t) := by
  obtain ⟨t, t', created, fresh, done⟩ := oneRun
  exact ⟨t, t', created, done,
    storage_corresponds_iff oneLog firstByte (fun _ => 0) t t' 4 oneCalls fresh oneCalls_legal done⟩

/-- A table with one main bucket and one spare loses the block of its 31st key. -/
theorem storage_leaks : ∃ t t' t'', KvTable.create (fun _ => smallRaw) (fun _ => 0) 4096 (2 ^ 40) 1 1 1 = .ok t ∧
    run (oneSetting.step 4) ((List.range 30).map (fun k => .put (fullEntry k))) t = .ok t' ∧
    oneSetting.perform 4 t' (.put (fullEntry 30)) = .ok (true, fullEntry 30, t'') ∧ ¬ Corresponds oneLog t'' := by
  obtain ⟨t, created, fresh, pool, stocked⟩ := oneTable 1 (by decide)
  obtain ⟨t', dir, earlier, holds, card, hashes, left, mains, spares⟩ :=
    filled fresh (by rw [pool]; rfl) (by rw [pool]; rfl) stocked (le_refl 30)
  obtain ⟨t'', performed, -, outcome⟩ :=
    full_put holds hashes (by decide) left (show t'.bktPool.spareSize + 1 < 4 by omega)
  rw [holds.exhausted_iff mains spares, card] at outcome
  rcases outcome with ⟨few, -⟩ | ⟨-, block, held⟩
  · exact absurd le_rfl few
  · refine ⟨t, t', t'', created, earlier, performed, fun corresponds => ?_⟩
    have zero := (Logs.corresponds_iff held).mp corresponds 0 Nat.one_pos
    rw [Function.update_self] at zero
    exact Multiset.cons_ne_zero zero

end Fkv
