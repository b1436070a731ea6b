import Fkv.CircularLog.Allocator
import Fkv.CircularLog.Lookup

namespace Fkv
open ByteMemory CWord Runs

/-- What all tables of a group of results share: the allocator and what it
promises in the partition of each log, where the logs lie, and which hash and
log belong to a key. -/
structure Setting (σ : Type) where
  alloc : Allocator σ
  Serving : Nat → Mem → σ → Multiset (Nat × Nat) → Prop
  limit : Nat
  baseAddr : Nat
  logBytes : Nat
  logSize : Nat
  hash : List UInt8 → Nat
  log : Nat → Nat
  limit_lt : limit < 2 ^ 32
  lawful : ∀ l < logSize, Lawful alloc limit (baseAddr + logBytes * l) (baseAddr + logBytes * (l + 1)) (Serving l)
  reach : logBytes * logSize ≤ 2 ^ 48
  mapped : baseAddr + logBytes * logSize ≤ 2 ^ 64

/-- A call on a table, with the caller's entry. -/
inductive KvCall
  | put (entry : Mem)
  | get (entry : Mem)
  | remove (entry : Mem)

/-- In every chain no two index entries refer to stored entries with equal keys,
and each has the tag of the hash stored with its entry and is in the chain that
hash selects. -/
structure KvTable.Sound {σ : Type} (t : KvTable σ) : Prop where
  distinct : ∀ i < t.bktPool.mainSize, ∀ p ∈ slots (t.bktPool.chain i), ∀ q ∈ slots (t.bktPool.chain i), p ≠ q →
    isEmptyEntry (t.bktPool.entry p) = false → isEmptyEntry (t.bktPool.entry q) = false →
    equalCircularLogEntryKey t.mem (add64 t.baseAddr (t.bktPool.entry p).offset) t.mem
      (add64 t.baseAddr (t.bktPool.entry q).offset) = false
  tagged : ∀ i < t.bktPool.mainSize, ∀ p ∈ slots (t.bktPool.chain i), isEmptyEntry (t.bktPool.entry p) = false →
    matchIndexEntryTag (t.bktPool.entry p).tag
      (entryKeyhash t.mem (add64 t.baseAddr (t.bktPool.entry p).offset)) = true ∧
    bucketIndex t.bktPool.mainSize (entryKeyhash t.mem (add64 t.baseAddr (t.bktPool.entry p).offset)) = i

namespace Setting
variable {σ : Type}

/-- The blocks of the items of log `l`. -/
def blocks (S : Setting σ) (dir : Multiset Item) (l : Nat) : Multiset (Nat × Nat) :=
  (dir.filter (fun it => S.log it.keyhash = l)).map (Item.block S.baseAddr)

/-- The table holds the items of the directory and no others. The used blocks are
those of the items and the leaked ones. -/
structure Holds (S : Setting σ) (t : KvTable σ) (dir : Multiset Item) (leaked : Nat → Multiset (Nat × Nat)) :
    Prop where
  base : t.baseAddr = S.baseAddr
  logs : t.logSize = S.logSize
  mains : 1 ≤ t.bktPool.mainSize
  pool : t.bktPool.WellFormed
  chains : ∀ i < t.bktPool.mainSize,
    t.bktPool.contents i = (dir.filter (fun it => it.main t.bktPool.mainSize = i)).map Item.index
  serving : ∀ l < S.logSize, S.Serving l t.mem (t.sfits l) (S.blocks dir l + leaked l)
  logged : ∀ it ∈ dir, S.log it.keyhash < S.logSize
  stored : ∀ it ∈ dir, it.Stored t.mem (S.baseAddr + it.offset)
  hashed : ∀ it ∈ dir, it.keyhash = S.hash it.key
  keys : (dir.map Item.key).Nodup

theorem blocks_cons {S : Setting σ} (it : Item) (dir : Multiset Item) (leaked : Nat → Multiset (Nat × Nat))
    (l : Nat) :
    S.blocks (it ::ₘ dir) l + leaked l = S.blocks dir l +
      Function.update leaked (S.log it.keyhash) (it.block S.baseAddr ::ₘ leaked (S.log it.keyhash)) l := by
  unfold blocks
  by_cases here : S.log it.keyhash = l
  · rw [Multiset.filter_cons, if_pos here, here, Function.update_self, Multiset.singleton_add, Multiset.map_cons,
      Multiset.add_cons, Multiset.cons_add]
  · rw [Multiset.filter_cons, if_neg here, Function.update_of_ne (Ne.symm here), Multiset.zero_add]

theorem mem_blocks {S : Setting σ} {dir : Multiset Item} {it : Item} (member : it ∈ dir) :
    it.block S.baseAddr ∈ S.blocks dir (S.log it.keyhash) :=
  Multiset.mem_map_of_mem _ (Multiset.mem_filter.mpr ⟨member, rfl⟩)

/-- Different logs lie apart. -/
theorem partition_apart {S : Setting σ} {l k : Nat} (different : k ≠ l) :
    S.baseAddr + S.logBytes * (k + 1) ≤ S.baseAddr + S.logBytes * l ∨
      S.baseAddr + S.logBytes * (l + 1) ≤ S.baseAddr + S.logBytes * k := by
  rcases Nat.lt_or_gt_of_ne different with before | behind
  · exact Or.inl (Nat.add_le_add_left (Nat.mul_le_mul_left _ before) _)
  · exact Or.inr (Nat.add_le_add_left (Nat.mul_le_mul_left _ behind) _)

theorem partition_le {S : Setting σ} {l : Nat} (inside : l < S.logSize) :
    S.baseAddr + S.logBytes * (l + 1) ≤ S.baseAddr + S.logBytes * S.logSize :=
  Nat.add_le_add_left (Nat.mul_le_mul_left _ inside) _

namespace Holds

/-- An item lies in the partition of its log. -/
theorem within {S : Setting σ} {t : KvTable σ} {dir : Multiset Item} {leaked : Nat → Multiset (Nat × Nat)}
    {it : Item} (holds : S.Holds t dir leaked) (member : it ∈ dir) :
    S.baseAddr + S.logBytes * S.log it.keyhash ≤ S.baseAddr + it.offset ∧
      S.baseAddr + it.offset + it.bytes.length ≤ S.baseAddr + S.logBytes * (S.log it.keyhash + 1) :=
  (S.lawful _ (holds.logged it member)).within (holds.serving _ (holds.logged it member))
    (Multiset.mem_add.mpr (Or.inl (mem_blocks member)))

theorem offset_lt {S : Setting σ} {t : KvTable σ} {dir : Multiset Item} {leaked : Nat → Multiset (Nat × Nat)}
    {it : Item} (holds : S.Holds t dir leaked) (member : it ∈ dir) :
    it.offset < 2 ^ 48 ∧ S.baseAddr + it.offset < 2 ^ 64 := by
  have inside := (holds.within member).2
  have last := S.partition_le (holds.logged it member)
  have room := (holds.stored it member).room
  have reach := S.reach
  have mapped := S.mapped
  omega

theorem address {S : Setting σ} {t : KvTable σ} {dir : Multiset Item} {leaked : Nat → Multiset (Nat × Nat)}
    {it : Item} (holds : S.Holds t dir leaked) (member : it ∈ dir) :
    add64 t.baseAddr it.offset = S.baseAddr + it.offset := by
  rw [holds.base, add64_of_lt (holds.offset_lt member).2]

theorem main_lt {S : Setting σ} {t : KvTable σ} {dir : Multiset Item} {leaked : Nat → Multiset (Nat × Nat)}
    (holds : S.Holds t dir leaked) (keyhash : Nat) :
    bucketIndex t.bktPool.mainSize keyhash < t.bktPool.mainSize := by
  have small := holds.pool.1.size_lt
  exact bucketIndex_lt holds.mains (by omega)

/-- An item has a slot in its chain. -/
theorem listed {S : Setting σ} {t : KvTable σ} {dir : Multiset Item} {leaked : Nat → Multiset (Nat × Nat)}
    {it : Item} (holds : S.Holds t dir leaked) (member : it ∈ dir) :
    it.index ∈ t.bktPool.contents (it.main t.bktPool.mainSize) := by
  have main : it.main t.bktPool.mainSize < t.bktPool.mainSize := holds.main_lt it.keyhash
  rw [holds.chains _ main]
  exact Multiset.mem_map_of_mem _ (Multiset.mem_filter.mpr ⟨member, rfl⟩)

/-- Two items lie apart. -/
theorem apart {S : Setting σ} {t : KvTable σ} {rest : Multiset Item} {leaked : Nat → Multiset (Nat × Nat)}
    {it other : Item} (holds : S.Holds t (it ::ₘ rest) leaked) (member : other ∈ rest) :
    it.offset + it.bytes.length ≤ other.offset ∨ other.offset + other.bytes.length ≤ it.offset := by
  have inside : it ∈ it ::ₘ rest := Multiset.mem_cons_self it rest
  have inside' : other ∈ it ::ₘ rest := Multiset.mem_cons_of_mem member
  by_cases same : S.log other.keyhash = S.log it.keyhash
  · have serving := holds.serving _ (holds.logged it inside)
    rw [blocks_cons, Function.update_self, Multiset.add_cons] at serving
    have blocks := mem_blocks (S := S) member
    rw [same] at blocks
    have either := (S.lawful _ (holds.logged it inside)).apart serving (Multiset.mem_add.mpr (Or.inl blocks))
    omega
  · have first := holds.within inside
    have second := holds.within inside'
    rcases partition_apart (S := S) same with before | behind <;> omega

/-- Every key lies at its own place. -/
theorem offsets {S : Setting σ} {t : KvTable σ} {dir : Multiset Item} {leaked : Nat → Multiset (Nat × Nat)}
    (holds : S.Holds t dir leaked) : (dir.map Item.offset).Nodup := by
  rw [Multiset.nodup_iff_ne_cons_cons]
  intro offset rest twice
  obtain ⟨it, member, rfl, left⟩ := (Multiset.map_eq_cons _ _ _ _).mpr twice
  obtain ⟨other, member', same⟩ := Multiset.mem_map.mp (left ▸ Multiset.mem_cons_self it.offset rest)
  have whole := Multiset.cons_erase member
  rw [← whole] at holds
  have room := (holds.stored it (Multiset.mem_cons_self _ _)).room
  have room' := (holds.stored other (Multiset.mem_cons_of_mem member')).room
  rcases holds.apart member' with before | behind <;> omega

theorem contents_offsets {S : Setting σ} {t : KvTable σ} {dir : Multiset Item}
    {leaked : Nat → Multiset (Nat × Nat)} {i : Nat} (holds : S.Holds t dir leaked)
    (main : i < t.bktPool.mainSize) :
    ((t.bktPool.contents i).map IndexEntry.offset).Nodup := by
  rw [holds.chains i main, Multiset.map_map]
  exact Multiset.nodup_of_le (Multiset.map_le_map (Multiset.filter_le _ dir)) holds.offsets

/-- A step of one allocator, or a write to its blocks. -/
theorem change {S : Setting σ} {t : KvTable σ} {dir : Multiset Item} {leaked : Nat → Multiset (Nat × Nat)}
    {m' : Mem} {sfits' : σ} {kept : Multiset (Nat × Nat)} {l : Nat} (holds : S.Holds t dir leaked)
    (inside : l < S.logSize) (serving : S.Serving l m' sfits' (S.blocks dir l + kept))
    (outside : ∀ y, y < S.baseAddr + S.logBytes * l ∨ S.baseAddr + S.logBytes * (l + 1) ≤ y → m' y = t.mem y)
    (blocks : ∀ x n, (x, n) ∈ S.blocks dir l → ∀ y, x ≤ y → y < x + n → m' y = t.mem y) :
    S.Holds { t with mem := m', sfits := Function.update t.sfits l sfits' } dir
      (Function.update leaked l kept) := by
  obtain ⟨base, logs, mains, pool, chains, served, logged, stored, hashed, keys⟩ := holds
  refine ⟨base, logs, mains, pool, chains, fun k bound => ?_, logged, fun it member => ?_, hashed, keys⟩
  · by_cases here : k = l
    · subst here
      simpa only [Function.update_self] using serving
    · simp only [Function.update_of_ne here]
      refine (S.lawful k bound).rewrite (served k bound) fun y lower upper _ => outside y ?_
      rcases partition_apart (S := S) here with before | behind <;> omega
  · refine (stored it member).move fun k bound => ?_
    have whole : S.Holds t dir leaked := ⟨base, logs, mains, pool, chains, served, logged, stored, hashed, keys⟩
    by_cases here : S.log it.keyhash = l
    · exact blocks _ _ (here ▸ mem_blocks member) _ (Nat.le_add_right _ _) (by omega)
    · have place := whole.within member
      refine outside _ ?_
      rcases partition_apart (S := S) here with before | behind <;> omega

/-- The version of a main bucket has no part in what the table holds. -/
theorem setVersion {S : Setting σ} {t : KvTable σ} {dir : Multiset Item} {leaked : Nat → Multiset (Nat × Nat)}
    {i : Nat} (holds : S.Holds t dir leaked) (main : i < t.bktPool.mainSize) (version : Nat) :
    S.Holds { t with bktPool := t.bktPool.setVersion (t.bktPool.mainPtr i) version } dir leaked := by
  obtain ⟨base, logs, mains, ⟨placed, spares, claimed, chained⟩, chains, serving, logged, stored, hashed,
    keys⟩ := holds
  refine ⟨base, logs, mains, ⟨placed.setCell, spares, claimed, chained.setVersion placed main version⟩,
    fun j other => ?_, serving, logged, stored, hashed, keys⟩
  exact (chained.setVersion_contents placed main other version).trans (chains j other)

/-- Every occupied slot of a chain is that of an item. -/
theorem item {S : Setting σ} {t : KvTable σ} {dir : Multiset Item} {leaked : Nat → Multiset (Nat × Nat)}
    {i : Nat} {p : Nat × Nat} (holds : S.Holds t dir leaked) (main : i < t.bktPool.mainSize)
    (slot : p ∈ slots (t.bktPool.chain i)) (occupied : (t.bktPool.entry p).tag ≠ 0) :
    ∃ it ∈ dir, it.main t.bktPool.mainSize = i ∧ it.index = t.bktPool.entry p := by
  have member : t.bktPool.entry p ∈ t.bktPool.contents i := BucketPool.mem_held.mpr ⟨occupied, p, slot, rfl⟩
  rw [holds.chains i main] at member
  obtain ⟨it, inside, same⟩ := Multiset.mem_map.mp member
  obtain ⟨inDir, here⟩ := Multiset.mem_filter.mp inside
  exact ⟨it, inDir, here, same⟩

/-- Clearing the slot of an item leaves its block behind. -/
theorem unindex {S : Setting σ} {t : KvTable σ} {rest : Multiset Item} {leaked : Nat → Multiset (Nat × Nat)}
    {it : Item} {p : Nat × Nat} (holds : S.Holds t (it ::ₘ rest) leaked)
    (slot : p ∈ slots (t.bktPool.chain (it.main t.bktPool.mainSize))) (entry : it.index = t.bktPool.entry p) :
    S.Holds { t with bktPool := deleteIndexEntryWithIndex t.bktPool p.1 p.2 } rest
      (Function.update leaked (S.log it.keyhash) (it.block S.baseAddr ::ₘ leaked (S.log it.keyhash))) := by
  have main : it.main t.bktPool.mainSize < t.bktPool.mainSize := holds.main_lt it.keyhash
  obtain ⟨base, logs, mains, ⟨placed, spares, claimed, chained⟩, chains, serving, logged, stored, hashed,
    keys⟩ := holds
  have occupied : isEmptyEntry (t.bktPool.entry p) = false := by
    rw [isEmptyEntry_eq_false, ← entry]
    exact lookupKeyTagHashPortion_ne_zero it.keyhash
  refine ⟨base, logs, mains, ⟨placed.setCell, spares, claimed, chained.setEntry placed main slot⟩,
    fun i inside => ?_, fun l inside => ?_, fun it member => logged it (Multiset.mem_cons_of_mem member),
    fun it member => stored it (Multiset.mem_cons_of_mem member),
    fun it member => hashed it (Multiset.mem_cons_of_mem member), ?_⟩
  · by_cases here : it.main t.bktPool.mainSize = i
    · subst here
      have clear := chained.clear placed main slot occupied
      rw [chains _ main, ← entry, Multiset.filter_cons, if_pos rfl, Multiset.singleton_add,
        Multiset.map_cons] at clear
      exact ((Multiset.cons_inj_right _).mp clear).symm
    · have kept := (chained.setEntry_untouched (e := ⟨0, 0⟩) placed main slot inside (Ne.symm here)).contents
      refine kept.trans ((chains i inside).trans ?_)
      rw [Multiset.filter_cons, if_neg here, Multiset.zero_add]
      rfl
  · rw [← blocks_cons]
    exact serving l inside
  · rw [Multiset.map_cons, Multiset.nodup_cons] at keys
    exact keys.2

/-- An index entry for a leaked block that holds an entry makes that an item. -/
theorem index {S : Setting σ} {t : KvTable σ} {dir : Multiset Item} {leaked : Nat → Multiset (Nat × Nat)}
    {it : Item} {pool' : BucketPool} (holds : S.Holds t dir
      (Function.update leaked (S.log it.keyhash) (it.block S.baseAddr ::ₘ leaked (S.log it.keyhash))))
    (alike : t.bktPool.Alike pool') (wellFormed : pool'.WellFormed)
    (adds : pool'.contents (it.main t.bktPool.mainSize) = it.index ::ₘ t.bktPool.contents
      (it.main t.bktPool.mainSize))
    (others : ∀ j < t.bktPool.mainSize, j ≠ it.main t.bktPool.mainSize → t.bktPool.Untouched pool' j)
    (inside : S.log it.keyhash < S.logSize) (stored : it.Stored t.mem (S.baseAddr + it.offset))
    (hash : it.keyhash = S.hash it.key) (fresh : it.key ∉ dir.map Item.key) :
    S.Holds { t with bktPool := pool' } (it ::ₘ dir) leaked := by
  have main : it.main t.bktPool.mainSize < t.bktPool.mainSize := holds.main_lt it.keyhash
  refine ⟨holds.base, holds.logs, alike.mainSize ▸ holds.mains, wellFormed, fun i bound => ?_, fun l bound => ?_,
    fun _ member => ?_, fun _ member => ?_, fun _ member => ?_, ?_⟩
  · simp only [alike.mainSize] at bound ⊢
    by_cases here : it.main t.bktPool.mainSize = i
    · subst here
      rw [adds, holds.chains _ bound, Multiset.filter_cons, if_pos rfl, Multiset.singleton_add, Multiset.map_cons]
    · rw [(others i bound (Ne.symm here)).contents, holds.chains i bound, Multiset.filter_cons, if_neg here,
        Multiset.zero_add]
  · rw [blocks_cons]
    exact holds.serving l bound
  · exact (Multiset.mem_cons.mp member).elim (fun same => same ▸ inside) (holds.logged _)
  · exact (Multiset.mem_cons.mp member).elim (fun same => same ▸ stored) (holds.stored _)
  · exact (Multiset.mem_cons.mp member).elim (fun same => same ▸ hash) (holds.hashed _)
  · rw [Multiset.map_cons, Multiset.nodup_cons]
    exact ⟨fresh, holds.keys⟩

/-- The block of an item goes back to its allocator. -/
theorem freed {S : Setting σ} {t : KvTable σ} {rest : Multiset Item} {leaked : Nat → Multiset (Nat × Nat)}
    {it : Item} {m' : Mem} {sfits' : σ} {p : Nat × Nat} (holds : S.Holds t (it ::ₘ rest) leaked)
    (slot : p ∈ slots (t.bktPool.chain (it.main t.bktPool.mainSize))) (entry : it.index = t.bktPool.entry p)
    (freed : S.alloc.free t.mem (t.sfits (S.log it.keyhash)) (S.baseAddr + it.offset) = .ok (m', sfits')) :
    S.Holds { t with
      mem := m', bktPool := deleteIndexEntryWithIndex t.bktPool p.1 p.2,
      sfits := Function.update t.sfits (S.log it.keyhash) sfits' } rest leaked := by
  have inside := holds.logged it (Multiset.mem_cons_self it rest)
  have unindexed := holds.unindex slot entry
  have serving := unindexed.serving _ inside
  rw [Function.update_self, Multiset.add_cons] at serving
  obtain ⟨serves, frame⟩ := (S.lawful _ inside).free serving freed
  have after := unindexed.change inside serves (fun y away => frame y (away.imp_right Or.inl))
    (fun x n block y lower upper =>
      frame y (Or.inr (Or.inr ⟨x, n, Multiset.mem_add.mpr (Or.inl block), lower, upper⟩)))
  rwa [Function.update_idem, Function.update_eq_self] at after

/-- A key whose tag is not in its chain is not in the table. -/
theorem absent {S : Setting σ} {t : KvTable σ} {dir : Multiset Item} {leaked : Nat → Multiset (Nat × Nat)}
    {entry : Mem} (holds : S.Holds t dir leaked) (keyed : entryKeyhash entry 0 = S.hash (entryKey entry))
    (untagged : ∀ e ∈ t.bktPool.contents (bucketIndex t.bktPool.mainSize (entryKeyhash entry 0)),
      e.tag ≠ lookupKeyTagHashPortion (entryKeyhash entry 0)) : ∀ it ∈ dir, it.key ≠ entryKey entry := by
  intro it member same
  have hash : it.keyhash = entryKeyhash entry 0 := by rw [holds.hashed it member, same, keyed]
  have listed := holds.listed member
  rw [Item.main, hash] at listed
  exact untagged it.index listed (by rw [Item.index, hash])

/-- The item at a slot that passes the test of the tag. -/
theorem match_item {S : Setting σ} {t : KvTable σ} {dir : Multiset Item} {leaked : Nat → Multiset (Nat × Nat)}
    {entry : Mem} {i : Nat} {p : Nat × Nat} (holds : S.Holds t dir leaked) (main : i < t.bktPool.mainSize)
    (slot : p ∈ slots (t.bktPool.chain i))
    (matching : matchIndexEntryTag (t.bktPool.entry p).tag (entryKeyhash entry 0) = true) :
    ∃ it ∈ dir, it.main t.bktPool.mainSize = i ∧ it.index = t.bktPool.entry p ∧
      (t.matchCircularLogEntryKey entry (t.bktPool.entry p).offset = true ↔ it.key = entryKey entry) := by
  obtain ⟨it, member, here, index⟩ := holds.item main slot (by
    rw [matchIndexEntryTag_iff.mp matching]
    exact lookupKeyTagHashPortion_ne_zero _)
  refine ⟨it, member, here, index, ?_⟩
  rw [← index, Item.index]
  refine Item.Stored.match_iff ?_
  rw [holds.address member]
  exact holds.stored it member

/-- What a finished remove loop leaves: the table without the key. Where it found
the key it has left a slot of its chain empty. -/
theorem removed {S : Setting σ} {t t' : KvTable σ} {dir : Multiset Item} {leaked : Nat → Multiset (Nat × Nat)}
    {entry : Mem} {n fuel : Nat} {res : Bool} (holds : S.Holds t dir leaked)
    (keyed : entryKeyhash entry 0 = S.hash (entryKey entry))
    (done : t.removeLoop S.alloc fuel (S.log (entryKeyhash entry 0)) entry n (getEntryBucket t.bktPool entry) 0 =
      .ok (res, t')) :
    S.Holds t' (dir.filter (fun it => it.key ≠ entryKey entry)) leaked ∧ t.bktPool.Alike t'.bktPool ∧
      (res = false ∧ t' = t ∧ entryKey entry ∉ dir.map Item.key ∨
        res = true ∧ (∃ it ∈ dir, it.key = entryKey entry ∧
          S.alloc.free t.mem (t.sfits (S.log (entryKeyhash entry 0))) (S.baseAddr + it.offset) =
            .ok (t'.mem, t'.sfits (S.log (entryKeyhash entry 0)))) ∧
          ¬ t'.bktPool.Full (bucketIndex t.bktPool.mainSize (entryKeyhash entry 0))) := by
  have main := holds.main_lt (entryKeyhash entry 0)
  obtain ⟨placed, spares, claimed, chained⟩ := holds.pool
  rcases KvTable.removeLoop_ok chained main done with
    ⟨rfl, rfl, untagged⟩ | ⟨p, slot, matching, equal, rfl, m', s', freed, rfl⟩
  · have absent := holds.absent keyed untagged
    rw [Multiset.filter_eq_self.mpr absent]
    refine ⟨holds, .refl _, Or.inl ⟨rfl, rfl, fun member => ?_⟩⟩
    obtain ⟨it, inside, same⟩ := Multiset.mem_map.mp member
    exact absent it inside same
  · obtain ⟨it, member, here, index, same⟩ := holds.match_item main slot matching
    have key := same.mp equal
    have hash : it.keyhash = entryKeyhash entry 0 := by rw [holds.hashed it member, key, keyed]
    obtain ⟨rest, rfl⟩ := Multiset.exists_cons_of_mem member
    have keys := holds.keys
    rw [Multiset.map_cons, Multiset.nodup_cons] at keys
    have others : ∀ other ∈ rest, other.key ≠ entryKey entry := fun other inside same =>
      keys.1 (Multiset.mem_map.mpr ⟨other, inside, same.trans key.symm⟩)
    rw [Multiset.filter_cons, if_neg (not_not.mpr key), Multiset.zero_add, Multiset.filter_eq_self.mpr others]
    rw [← index, Item.index, holds.address member] at freed
    have after := holds.freed (here ▸ slot) index (hash ▸ freed)
    rw [hash] at after
    refine ⟨after, ⟨rfl, rfl, rfl, rfl⟩, Or.inr ⟨rfl, ⟨it, member, key, ?_⟩, fun full => ?_⟩⟩
    · simpa only [Function.update_self] using freed
    have occupied := full p (by
      rw [deleteIndexEntryWithIndex, chained.setEntry_chain placed main slot]
      exact slot)
    rw [deleteIndexEntryWithIndex, BucketPool.setEntry_entry_same] at occupied
    cases occupied

/-- A block a put takes, with the entry written to it. -/
theorem taken {S : Setting σ} {t : KvTable σ} {dir : Multiset Item} {leaked : Nat → Multiset (Nat × Nat)}
    {m' : Mem} {sfits' : σ} {l x : Nat} (holds : S.Holds t dir leaked) (inside : l < S.logSize)
    (bytes : List UInt8) (small : bytes.length ≤ S.limit)
    (got : S.alloc.get t.mem (t.sfits l) bytes.length = .ok (some x, m', sfits')) :
    S.Holds { t with mem := writeBytes m' x bytes, sfits := Function.update t.sfits l sfits' } dir
        (Function.update leaked l ((x, bytes.length) ::ₘ leaked l)) ∧
      S.baseAddr + S.logBytes * l ≤ x ∧ x + bytes.length ≤ S.baseAddr + S.logBytes * (l + 1) := by
  have lawful := S.lawful l inside
  obtain ⟨serving, frame⟩ := lawful.get (holds.serving l inside) small got
  obtain ⟨low, high⟩ := lawful.within serving (Multiset.mem_cons_self _ _)
  refine ⟨holds.change inside ?_ (fun y away => ?_) (fun z n block y lower upper => ?_), low, high⟩
  · rw [Multiset.add_cons]
    refine lawful.rewrite serving fun y _ _ outside => writeBytes_apart _ ?_
    exact outside x bytes.length (Multiset.mem_cons_self _ _)
  · rw [writeBytes_apart _ (by omega)]
    exact frame y (away.imp_right Or.inl)
  · have served : (z, n) ∈ S.blocks dir l + leaked l := Multiset.mem_add.mpr (Or.inl block)
    have apart := lawful.apart serving served
    rw [writeBytes_apart _ (by omega)]
    exact frame y (Or.inr (Or.inr ⟨z, n, served, lower, upper⟩))

/-- An allocator that has no block leaves the table as it was. -/
theorem refused {S : Setting σ} {t : KvTable σ} {dir : Multiset Item} {leaked : Nat → Multiset (Nat × Nat)}
    {m' : Mem} {sfits' : σ} {l n : Nat} (holds : S.Holds t dir leaked) (inside : l < S.logSize)
    (small : n ≤ S.limit) (got : S.alloc.get t.mem (t.sfits l) n = .ok (none, m', sfits')) :
    S.Holds { t with mem := m', sfits := Function.update t.sfits l sfits' } dir leaked := by
  obtain ⟨serving, frame⟩ := (S.lawful l inside).refuse (holds.serving l inside) small got
  have after := holds.change inside serving (fun y away => frame y (away.imp_right Or.inl))
    (fun z n block y lower upper =>
      frame y (Or.inr (Or.inr ⟨z, n, Multiset.mem_add.mpr (Or.inl block), lower, upper⟩)))
  rwa [Function.update_eq_self] at after

end Holds

end Setting
end Fkv
