import Fkv.CircularLog.Directory

namespace Fkv
open ByteMemory CWord Runs

namespace Setting
variable {σ : Type}

/-- The entry of a call: its hash is that of its key, and its log exists. -/
structure Keyed (S : Setting σ) (entry : Mem) : Prop where
  hash : entryKeyhash entry 0 = S.hash (entryKey entry)
  log : S.log (entryKeyhash entry 0) < S.logSize

/-- The entry of a put has the size its lengths say. -/
def Sized (entry : Mem) : Prop := initialSize entry 0 = 32 + keyLength entry 0 + valLength entry 0

instance : DecidablePred Sized := fun entry => inferInstanceAs (Decidable (initialSize entry 0 = _))

/-- The put of a new key takes a block and copies the entry there. -/
def Takes (S : Setting σ) (t : KvTable σ) (entry : Mem) (t' : KvTable σ) : Prop :=
  ∃ x m s, S.alloc.get t.mem (t.sfits (S.log (entryKeyhash entry 0))) (initialSize entry 0) = .ok (some x, m, s) ∧
    t'.mem = writeBytes m x (readBytes entry 0 (initialSize entry 0)) ∧ t'.sfits (S.log (entryKeyhash entry 0)) = s

/-- What a put that returns has done to the directory: without a block the key is
gone; with one the entry is an item, or, where there is no slot, its block is lost. -/
inductive Puts (S : Setting σ) (t : KvTable σ) (entry : Mem) (dir : Multiset Item)
    (leaked : Nat → Multiset (Nat × Nat)) (t' : KvTable σ) : Bool → Prop
  | refused (why : entryKey entry ∈ dir.map Item.key ∨ ∃ m s,
        S.alloc.get t.mem (t.sfits (S.log (entryKeyhash entry 0))) (initialSize entry 0) = .ok (none, m, s))
      (holds : S.Holds t' (dir.filter (fun it => it.key ≠ entryKey entry)) leaked) :
      Puts S t entry dir leaked t' false
  | stored (offset : Nat) (room : entryKey entry ∈ dir.map Item.key ∨ ¬ t.bktPool.Exhausted (entryKeyhash entry 0))
      (takes : entryKey entry ∉ dir.map Item.key → S.Takes t entry t')
      (holds : S.Holds t' (entryItem entry offset ::ₘ dir.filter (fun it => it.key ≠ entryKey entry)) leaked) :
      Puts S t entry dir leaked t' true
  | lost (block : Nat × Nat) (exhausted : t.bktPool.Exhausted (entryKeyhash entry 0))
      (absent : entryKey entry ∉ dir.map Item.key)
      (takes : S.Takes t entry t')
      (holds : S.Holds t' dir (Function.update leaked (S.log (entryKeyhash entry 0))
        (block ::ₘ leaked (S.log (entryKeyhash entry 0))))) : Puts S t entry dir leaked t' true

/-- The entry in the block it was copied to. -/
theorem entryItem_written {m entry : Mem} {x offset : Nat}
    (fits : 32 + keyLength entry 0 ≤ initialSize entry 0) :
    (entryItem entry offset).Stored (writeBytes m x (readBytes entry 0 (initialSize entry 0))) x := by
  refine (entryItem_stored fits).move fun k bound => ?_
  refine (writeBytes_at m x (readBytes entry 0 (initialSize entry 0)) bound).trans ?_
  simp [readBytes]

namespace Holds

/-- The insert of a put makes its block an item or leaves the pool alone. -/
theorem insert {S : Setting σ} {t : KvTable σ} {dir : Multiset Item} {leaked : Nat → Multiset (Nat × Nat)}
    {fuel : Nat} {pool' : BucketPool} (it : Item) {inserted : Bool} (holds : S.Holds t dir
      (Function.update leaked (S.log it.keyhash) (it.block S.baseAddr ::ₘ leaked (S.log it.keyhash))))
    (inside : S.log it.keyhash < S.logSize) (stored : it.Stored t.mem (S.baseAddr + it.offset))
    (hash : it.keyhash = S.hash it.key) (fresh : it.key ∉ dir.map Item.key) (short : it.offset < 2 ^ 48)
    (done : insertIndexEntry it.keyhash it.offset fuel t.bktPool (t.bktPool.mainPtr (it.main t.bktPool.mainSize)) =
      .ok (inserted, pool')) :
    t.bktPool.Alike pool' ∧
      (¬ t.bktPool.Exhausted it.keyhash ∧ S.Holds { t with bktPool := pool' } (it ::ₘ dir) leaked ∨
        t.bktPool.Exhausted it.keyhash ∧ pool' = t.bktPool) := by
  obtain ⟨placed, spares, claimed, chained⟩ := holds.pool
  rw [BucketPool.Exhausted, ← chained.all_claimed]
  rcases chained.insert_ok placed (holds.main_lt it.keyhash) done with
    ⟨-, alike, ⟨spares', claimed', chained'⟩, adds, others, room⟩ | ⟨-, rfl, full, all⟩
  · rw [Nat.mod_eq_of_lt short] at adds
    exact ⟨alike, Or.inl ⟨room,
      holds.index alike ⟨alike.placed placed, spares', claimed', chained'⟩ adds others inside stored hash fresh⟩⟩
  · exact ⟨.refl _, Or.inr ⟨⟨full, all⟩, rfl⟩⟩

/-- The second half of a put, with a block for the entry: it becomes an item, or
finds its chain full and no spare unclaimed. -/
theorem store {S : Setting σ} {t t' : KvTable σ} {dir : Multiset Item} {leaked : Nat → Multiset (Nat × Nat)}
    {m' entry : Mem} {sfits' : σ} {x fuel : Nat} {pool' : BucketPool} {inserted : Bool}
    (holds : S.Holds t dir leaked) (keyed : S.Keyed entry) (sized : Sized entry)
    (small : initialSize entry 0 ≤ S.limit) (fresh : entryKey entry ∉ dir.map Item.key)
    (got : S.alloc.get t.mem (t.sfits (S.log (entryKeyhash entry 0))) (initialSize entry 0) =
      .ok (some x, m', sfits'))
    (run : insertIndexEntry (entryKeyhash entry 0) (sub64 x t.baseAddr) fuel t.bktPool
      (getEntryBucket t.bktPool entry) = .ok (inserted, pool'))
    (result : t' = { t with
      mem := writeBytes m' x (readBytes entry 0 (initialSize entry 0)),
      bktPool := unlockBucket pool' (getEntryBucket t.bktPool entry),
      sfits := Function.update t.sfits (S.log (entryKeyhash entry 0)) sfits' }) :
    (¬ t.bktPool.Exhausted (entryKeyhash entry 0) ∧ ∃ offset, S.Holds t' (entryItem entry offset ::ₘ dir) leaked) ∨
      t.bktPool.Exhausted (entryKeyhash entry 0) ∧
      ∃ block, S.Holds t' dir (Function.update leaked (S.log (entryKeyhash entry 0))
        (block ::ₘ leaked (S.log (entryKeyhash entry 0)))) := by
  have length : (readBytes entry 0 (initialSize entry 0)).length = initialSize entry 0 := readBytes_length ..
  rw [← length] at got
  obtain ⟨written, low, high⟩ := holds.taken keyed.log _ (length.symm ▸ small) got
  have last := S.partition_le keyed.log
  have mapped := S.mapped
  have reach := S.reach
  have room : 32 + keyLength entry 0 ≤ initialSize entry 0 := by
    rw [sized]
    omega
  have short : x - S.baseAddr < 2 ^ 48 := by omega
  have behind : S.baseAddr + (x - S.baseAddr) = x := by omega
  rw [holds.base, sub64_of_le (by omega) (by omega)] at run
  obtain ⟨it, named⟩ : ∃ it, it = entryItem entry (x - S.baseAddr) := ⟨_, rfl⟩
  have block : it.block S.baseAddr = (x, (readBytes entry 0 (initialSize entry 0)).length) := by
    rw [named, Item.block, entryItem, behind]
  have stored : it.Stored (writeBytes m' x (readBytes entry 0 (initialSize entry 0)))
    (S.baseAddr + it.offset) := by
    rw [named, entryItem, behind]
    exact entryItem_written room
  have keyhash : it.keyhash = entryKeyhash entry 0 := by rw [named, entryItem]
  rw [← block, ← keyhash] at written
  have hashed : it.keyhash = S.hash it.key := by
    rw [keyhash, named]
    exact keyed.hash
  obtain ⟨alike, ⟨room, items⟩ | ⟨exhausted, rfl⟩⟩ := written.insert it (keyhash.symm ▸ keyed.log) stored hashed
    (by rw [named]; exact fresh) (by rw [named]; exact short) (by rw [named]; exact run)
  · rw [result, ← alike.getEntryBucket entry, getEntryBucket, ← keyhash]
    exact Or.inl ⟨room, x - S.baseAddr, named ▸ items.setVersion (items.main_lt _) _⟩
  · rw [keyhash] at exhausted written
    rw [result]
    exact Or.inr ⟨exhausted, _, written.setVersion (written.main_lt _) _⟩

/-- A put that returns. -/
theorem puts {S : Setting σ} {t t' : KvTable σ} {dir : Multiset Item} {leaked : Nat → Multiset (Nat × Nat)}
    {entry : Mem} {fuel : Nat} {res : Bool} (holds : S.Holds t dir leaked) (keyed : S.Keyed entry)
    (sized : Sized entry) (small : initialSize entry 0 ≤ S.limit)
    (done : t.putCircularLogEntry S.alloc fuel (S.log (entryKeyhash entry 0)) entry = .ok (res, t')) :
    S.Puts t entry dir leaked t' res := by
  have main := holds.main_lt (entryKeyhash entry 0)
  have size : initialSize entry 0 % 2 ^ 32 = initialSize entry 0 := Nat.mod_eq_of_lt (small.trans_lt S.limit_lt)
  rw [KvTable.putCircularLogEntry] at done
  simp only [size] at done
  obtain ⟨pool, lock, done⟩ := bind_eq_ok.mp done
  obtain ⟨version, rfl⟩ := lockBucket_ok lock
  obtain ⟨⟨ret, t₁⟩, removal, done⟩ := bind_eq_ok.mp done
  obtain ⟨held, alike, either⟩ := (holds.setVersion main version).removed keyed.hash removal
  obtain ⟨⟨newAddr, m', s'⟩, got, done⟩ := bind_eq_ok.mp done
  obtain ⟨placed, spares, claims, chained⟩ := holds.pool
  cases newAddr with
  | none =>
    simp only [Except.ok.injEq, Prod.mk.injEq] at done
    obtain ⟨rfl, rfl⟩ := done
    refine .refused ?_ (held.refused keyed.log small got)
    rcases either with ⟨-, rfl, -⟩ | ⟨-, present, -⟩
    · exact Or.inr ⟨m', s', got⟩
    · obtain ⟨it, member, key, -⟩ := present
      exact Or.inl (Multiset.mem_map.mpr ⟨it, member, key⟩)
  | some x =>
    simp only at done
    obtain ⟨⟨inserted, pool'⟩, run, done⟩ := bind_eq_ok.mp done
    simp only [Except.ok.injEq, Prod.mk.injEq] at done
    obtain ⟨rfl, result⟩ := done
    have bucket : getEntryBucket t₁.bktPool entry = getEntryBucket t.bktPool entry :=
      ((t.bktPool.alike_setVersion _ _).trans alike).getEntryBucket entry
    rw [← bucket] at run result
    have stores := held.store keyed sized small (by simp) got run result.symm
    rcases either with ⟨-, rfl, absent⟩ | ⟨-, present, vacant⟩
    · have takes : S.Takes t entry t' :=
        ⟨x, m', s', got, by rw [← result], by simp only [← result, Function.update_self]⟩
      rw [chained.exhausted_setVersion placed main] at stores
      rcases stores with ⟨room, offset, items⟩ | ⟨exhausted, block, left⟩
      · exact .stored offset (Or.inr room) (fun _ => takes) items
      · have only : dir.filter (fun it => it.key ≠ entryKey entry) = dir :=
          Multiset.filter_eq_self.mpr fun it member same => absent (Multiset.mem_map.mpr ⟨it, member, same⟩)
        rw [only] at left
        exact .lost block exhausted absent takes left
    · rcases stores with ⟨-, offset, items⟩ | ⟨⟨full, -⟩, -⟩
      · obtain ⟨it, member, key, -⟩ := present
        have listed : entryKey entry ∈ dir.map Item.key := Multiset.mem_map.mpr ⟨it, member, key⟩
        exact .stored offset (Or.inl listed) (fun absent => absurd listed absent) items
      · rw [alike.mainSize] at full
        exact absurd full vacant

/-- A remove that returns. -/
theorem removes {S : Setting σ} {t t' : KvTable σ} {dir : Multiset Item} {leaked : Nat → Multiset (Nat × Nat)}
    {entry : Mem} {fuel : Nat} {res : Bool} (holds : S.Holds t dir leaked) (keyed : S.Keyed entry)
    (done : t.removeCircularLogEntry S.alloc fuel (S.log (entryKeyhash entry 0)) entry = .ok (res, t')) :
    S.Holds t' (dir.filter (fun it => it.key ≠ entryKey entry)) leaked ∧
    (res = true ↔ entryKey entry ∈ dir.map Item.key) := by
  have main := holds.main_lt (entryKeyhash entry 0)
  rw [KvTable.removeCircularLogEntry] at done
  obtain ⟨pool, lock, done⟩ := bind_eq_ok.mp done
  obtain ⟨version, rfl⟩ := lockBucket_ok lock
  obtain ⟨⟨ret, t₁⟩, removal, done⟩ := bind_eq_ok.mp done
  obtain ⟨held, alike, either⟩ := (holds.setVersion main version).removed keyed.hash removal
  simp only [Except.ok.injEq, Prod.mk.injEq] at done
  obtain ⟨rfl, rfl⟩ := done
  rw [← ((t.bktPool.alike_setVersion _ _).trans alike).getEntryBucket entry, getEntryBucket]
  refine ⟨held.setVersion (held.main_lt _) _, ?_⟩
  rcases either with ⟨rfl, -, absent⟩ | ⟨rfl, present, -⟩
  · simpa using absent
  · obtain ⟨it, member, key, -⟩ := present
    exact iff_of_true rfl (Multiset.mem_map.mpr ⟨it, member, key⟩)

/-- Each chain holds every key once, where its hash belongs. -/
theorem sound {S : Setting σ} {t : KvTable σ} {dir : Multiset Item} {leaked : Nat → Multiset (Nat × Nat)}
    (holds : S.Holds t dir leaked) : t.Sound := by
  have stored : ∀ it ∈ dir, ∀ p, it.index = t.bktPool.entry p →
      it.Stored t.mem (add64 t.baseAddr (t.bktPool.entry p).offset) := by
    intro it member p index
    rw [← index, Item.index, holds.address member]
    exact holds.stored it member
  refine ⟨fun i main p first q second different occupied occupied' => ?_, fun i main p slot occupied => ?_⟩
  · obtain ⟨it, member, -, index⟩ := holds.item main first (isEmptyEntry_eq_false.mp occupied)
    obtain ⟨it', member', -, index'⟩ := holds.item main second (isEmptyEntry_eq_false.mp occupied')
    have here := stored it member p index
    have there := stored it' member' q index'
    rw [← Bool.not_eq_true, equalCircularLogEntryKey_iff here.length here.key there.length there.key]
    intro same
    have one := Multiset.inj_on_of_nodup_map holds.keys it member it' member' same
    exact different (BucketPool.held_inj (holds.contents_offsets main) first second occupied occupied'
      (by rw [← index, ← index', one]))
  · obtain ⟨it, member, here, index⟩ := holds.item main slot (isEmptyEntry_eq_false.mp occupied)
    rw [(stored it member p index).keyhash, ← index, Item.index]
    exact ⟨matchIndexEntryTag_iff.mpr rfl, here⟩

end Holds

/-- A table as it is created: no bucket is used and no block. -/
structure Fresh (S : Setting σ) (t : KvTable σ) : Prop where
  base : t.baseAddr = S.baseAddr
  logs : t.logSize = S.logSize
  mains : 1 ≤ t.bktPool.mainSize
  pool : t.bktPool = createBucketPool t.bktPool.mains t.bktPool.mainSize t.bktPool.spareSize
  size : 128 * (t.bktPool.mainSize + t.bktPool.spareSize) < 2 ^ 32
  mapped : t.bktPool.mains + 128 * (t.bktPool.mainSize + t.bktPool.spareSize) ≤ 2 ^ 64
  serving : ∀ l < S.logSize, S.Serving l t.mem (t.sfits l) 0

theorem Fresh.holds {S : Setting σ} {t : KvTable σ} (fresh : S.Fresh t) : S.Holds t 0 (fun _ => 0) := by
  have placed : t.bktPool.Placed := ⟨by rw [fresh.pool]; rfl, fresh.size, fresh.mapped⟩
  have chained : Chained t.bktPool (fun _ => []) 0 := by
    have created := Chained.created t.bktPool.mains t.bktPool.mainSize t.bktPool.spareSize
    rwa [← fresh.pool] at created
  refine ⟨fresh.base, fresh.logs, fresh.mains, ⟨placed, _, _, chained⟩, fun i main => ?_,
    fun l inside => ?_, by simp, by simp, by simp, by simp⟩
  · rw [Multiset.filter_zero, Multiset.map_zero, BucketPool.contents, chained.chain_eq main]
    refine BucketPool.held_fresh fun k => ?_
    rw [fresh.pool]
    rfl
  · have serving := fresh.serving l inside
    rwa [← Multiset.add_zero (0 : Multiset (Nat × Nat))] at serving

/-- A call on the table; the log is that of the hash. -/
def perform (S : Setting σ) (fuel : Nat) (t : KvTable σ) : KvCall → Except Fault (Bool × Mem × KvTable σ)
  | .put entry => do
    let (res, t) ← t.putCircularLogEntry S.alloc fuel (S.log (entryKeyhash entry 0)) entry
    .ok (res, entry, t)
  | .get entry => do
    let (res, entry) ← t.getCircularLogEntry fuel entry
    .ok (res, entry, t)
  | .remove entry => do
    let (res, t) ← t.removeCircularLogEntry S.alloc fuel (S.log (entryKeyhash entry 0)) entry
    .ok (res, entry, t)

def step (S : Setting σ) (fuel : Nat) (t : KvTable σ) (call : KvCall) : Except Fault (KvTable σ) := do
  let (_, _, t) ← S.perform fuel t call
  .ok t

theorem step_alike {S : Setting σ} {t t' : KvTable σ} {fuel : Nat} {call : KvCall}
    (done : S.step fuel t call = .ok t') : t.bktPool.Alike t'.bktPool := by
  obtain ⟨⟨res, entry', t₁⟩, performed, done⟩ := bind_eq_ok.mp done
  cases done
  cases call with
  | put entry =>
    obtain ⟨⟨res, t₁⟩, put, performed⟩ := bind_eq_ok.mp performed
    cases performed
    exact KvTable.put_alike put
  | get entry =>
    obtain ⟨⟨res, entry⟩, got, performed⟩ := bind_eq_ok.mp performed
    cases performed
    exact .refl _
  | remove entry =>
    obtain ⟨⟨res, t₁⟩, removed, performed⟩ := bind_eq_ok.mp performed
    cases performed
    exact KvTable.remove_alike removed

/-- What the calls come with. -/
def Legal (S : Setting σ) : KvCall → Prop
  | .put entry => S.Keyed entry ∧ Sized entry
  | .get entry => S.Keyed entry
  | .remove entry => S.Keyed entry

/-- The entry of a put is not longer than the allocator serves. -/
def Bounded (S : Setting σ) : KvCall → Prop
  | .put entry => initialSize entry 0 ≤ S.limit
  | _ => True

/-- Every call keeps a directory. -/
theorem Holds.step {S : Setting σ} {t t' : KvTable σ} {dir : Multiset Item}
    {leaked : Nat → Multiset (Nat × Nat)} {fuel : Nat} {call : KvCall} (holds : S.Holds t dir leaked)
    (legal : S.Legal call) (bounded : S.Bounded call) (done : S.step fuel t call = .ok t') :
    ∃ dir' leaked', S.Holds t' dir' leaked' := by
  obtain ⟨⟨res, entry', t₁⟩, performed, done⟩ := bind_eq_ok.mp done
  cases done
  cases call with
  | put entry =>
    obtain ⟨⟨res, t₁⟩, put, performed⟩ := bind_eq_ok.mp performed
    cases performed
    cases holds.puts legal.1 legal.2 bounded put with
    | refused why held => exact ⟨_, _, held⟩
    | stored offset room takes held => exact ⟨_, _, held⟩
    | lost block exhausted absent takes held => exact ⟨_, _, held⟩
  | get entry =>
    obtain ⟨⟨res, entry⟩, got, performed⟩ := bind_eq_ok.mp performed
    cases performed
    exact ⟨_, _, holds⟩
  | remove entry =>
    obtain ⟨⟨res, t₁⟩, removed, performed⟩ := bind_eq_ok.mp performed
    cases performed
    exact ⟨_, _, (holds.removes legal removed).1⟩

theorem Holds.throughout {S : Setting σ} {t t' : KvTable σ} {dir : Multiset Item}
    {leaked : Nat → Multiset (Nat × Nat)} {fuel : Nat} {calls : List KvCall} (holds : S.Holds t dir leaked)
    (legal : ∀ call ∈ calls, S.Legal call) (bounded : ∀ call ∈ calls, S.Bounded call)
    (done : run (S.step fuel) calls t = .ok t') :
    Throughout (S.step fuel) KvTable.Sound calls t := by
  induction calls generalizing t dir leaked with
  | nil => exact holds.sound
  | cons call calls ih =>
    obtain ⟨t₁, first, done⟩ := run_cons_ok.mp done
    obtain ⟨dir', leaked', held⟩ := holds.step (legal call (by simp)) (bounded call (by simp)) first
    exact ⟨holds.sound, t₁, first, ih held (fun later member => legal later (by simp [member]))
      (fun later member => bounded later (by simp [member])) done⟩

end Setting
end Fkv
