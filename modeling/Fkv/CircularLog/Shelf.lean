import Fkv.Bucket.Trace
import Fkv.CircularLog.Failure
import Fkv.CircularLog.Semantics
import Fkv.MemManager.Discipline

namespace Fkv
open ByteMemory CWord Refinement Runs

/-- The largest blocks a log is carved into. -/
def logCapacity : Nat := circularLogSize / 8 / (segregatedFitsClassSize segregatedMaxDataSize + 2)

section Order
variable (D : Discipline) (hash : List UInt8 → Nat) (log : Nat → Nat) (mainSize spareSize : Nat)

/-- The keys of the log of a hash. -/
def keysOfLog (keyhash : Nat) (keys : List (List UInt8)) : List (List UInt8) :=
  keys.filter fun key => log (hash key) = log keyhash

/-- The keys of the bucket of a hash. -/
def keysOfMain (keyhash : Nat) (keys : List (List UInt8)) : List (List UInt8) :=
  keys.filter fun key => bucketIndex mainSize (hash key) = bucketIndex mainSize keyhash

/-- No key of the table but its own has the bucket and the tag of the hash. -/
def ApartFrom (keys : List (List UInt8)) (entry : Mem) : Prop :=
  ∀ key ∈ keys, bucketIndex mainSize (hash key) = bucketIndex mainSize (entryKeyhash entry 0) →
    lookupKeyTagHashPortion (hash key) = lookupKeyTagHashPortion (entryKeyhash entry 0) → key = entryKey entry

/-- The key of the entry is not in the table, or it is the latest of its log, or the
discipline lets any go. -/
def MayGo (keys : List (List UInt8)) (entry : Mem) : Prop :=
  entryKey entry ∈ keys → D.lastOnly = true →
  (keysOfLog hash log (entryKeyhash entry 0) keys).head? = some (entryKey entry)

/-- The keys in the table after a call, latest first. -/
def KvCall.shelve (keys : List (List UInt8)) : KvCall → List (List UInt8)
  | .put entry => entryKey entry :: keys.erase (entryKey entry)
  | .get _ => keys
  | .remove entry => keys.erase (entryKey entry)

/-- The puts of new keys among the calls so far, after one more. -/
def KvCall.tally (keys : List (List UInt8)) (puts : Nat) : KvCall → Nat
  | .put entry => if entryKey entry ∈ keys then puts else puts + 1
  | _ => puts

/-- A call that meets no other key with its bucket and tag, takes keys away as the
discipline has it, and puts no key into a log that is full, or a new one into a bucket
that is full and may get no spare. -/
def KvCall.InOrder (keys : List (List UInt8)) (puts : Nat) : KvCall → Prop
  | .put entry => ApartFrom hash mainSize keys entry ∧ MayGo D hash log keys entry ∧
      D.least (segregatedFitsClassSize segregatedMaxDataSize) ≤ initialSize entry 0 ∧
      (keysOfLog hash log (entryKeyhash entry 0) (keys.erase (entryKey entry))).length < logCapacity ∧
      (entryKey entry ∈ keys ∨ (keysOfMain hash mainSize (entryKeyhash entry 0) keys).length < bucketEntrySize ∨
        puts < spareSize)
  | .get entry => ApartFrom hash mainSize keys entry
  | .remove entry => ApartFrom hash mainSize keys entry ∧ MayGo D hash log keys entry

/-- So are all calls of a sequence. -/
def KeepsOrder : List KvCall → List (List UInt8) → Nat → Prop
  | [], _, _ => True
  | call :: rest, keys, puts =>
    call.InOrder D hash log mainSize spareSize keys puts ∧
    KeepsOrder rest (call.shelve keys) (call.tally keys puts)

instance (keys : List (List UInt8)) (entry : Mem) : Decidable (ApartFrom hash mainSize keys entry) :=
  inferInstanceAs (Decidable (∀ key ∈ keys, _ → _ → _))

instance (keys : List (List UInt8)) (entry : Mem) : Decidable (MayGo D hash log keys entry) :=
  inferInstanceAs (Decidable (_ → _ → _))

instance (keys : List (List UInt8)) (puts : Nat) :
    DecidablePred (KvCall.InOrder D hash log mainSize spareSize keys puts)
  | .put _ => inferInstanceAs (Decidable (_ ∧ _ ∧ _ ∧ _ ∧ (_ ∨ _ ∨ _)))
  | .get entry => inferInstanceAs (Decidable (ApartFrom hash mainSize keys entry))
  | .remove _ => inferInstanceAs (Decidable (_ ∧ _))

instance KeepsOrder.decide : (calls : List KvCall) → (keys : List (List UInt8)) → (puts : Nat) →
    Decidable (KeepsOrder D hash log mainSize spareSize calls keys puts)
  | [], _, _ => isTrue trivial
  | call :: rest, keys, puts =>
    have := KeepsOrder.decide rest (call.shelve keys) (call.tally keys puts)
    inferInstanceAs (Decidable (_ ∧ _))

end Order

/-- The items of log `l`, latest first. -/
def itemsOfLog (log : Nat → Nat) (l : Nat) (items : List Item) : List Item :=
  items.filter fun it => log it.keyhash = l

variable {σ : Type}

theorem BucketPool.Placed.unlock_claims {entry : Mem} {pool pool' : BucketPool} (placed : pool.Placed)
    (main : bucketIndex pool.mainSize (entryKeyhash entry 0) < pool.mainSize) (alike : pool.Alike pool') :
    (unlockBucket pool' (getEntryBucket pool entry)).claims = pool'.claims := by
  rw [← alike.getEntryBucket entry, unlockBucket, getEntryBucket]
  refine (alike.placed placed).setVersion_claims ?_ _
  rw [alike.mainSize]
  exact main

namespace Setting.Holds

/-- The remove loop behind a lock claims no spare and touches no other allocator. -/
theorem removal {entry : Mem} {res : Bool} {l n fuel version : Nat} {S : Setting σ} {u u' : KvTable σ}
    {dir : Multiset Item} {leaked : Nat → Multiset (Nat × Nat)} {alloc : Allocator σ}
    (holds : S.Holds u dir leaked) (done : KvTable.removeLoop alloc fuel l entry n
      { u with bktPool := u.bktPool.setVersion (getEntryBucket u.bktPool entry) version }
      (getEntryBucket u.bktPool entry) 0 =
        .ok (res, u')) :
    u'.bktPool.claims = u.bktPool.claims ∧ u'.sfits = Function.update u.sfits l (u'.sfits l) := by
  have main := holds.main_lt (entryKeyhash entry 0)
  obtain ⟨placed, spares, claimed, chained⟩ := (holds.setVersion main version).pool
  have alike := KvTable.removeLoop_alike done
  have place : ∀ k, u'.bktPool.sparePtr k = u.bktPool.sparePtr k := fun k => congrArg (· + 128 * k) alike.spares
  constructor
  · refine (BucketPool.claims_congr alike fun k _ => ?_).trans (holds.pool.1.setVersion_claims main version)
    rw [place]
    exact KvTable.removeLoop_version done _
  · rcases KvTable.removeLoop_ok chained main done with ⟨-, rfl, -⟩ | ⟨p, -, -, -, -, m, s, -, rfl⟩
    · exact (Function.update_eq_self _ _).symm
    · simp only [Function.update_self]

/-- What a put that returns has done to memory, the allocator of its log and the
spares. -/
theorem put_heap {entry : Mem} {res : Bool} {fuel : Nat} {S : Setting σ} {u u' : KvTable σ}
    {dir : Multiset Item} {leaked : Nat → Multiset (Nat × Nat)} (holds : S.Holds u dir leaked)
    (keyed : S.Keyed entry) (small : initialSize entry 0 < 2 ^ 32)
    (done : u.putCircularLogEntry S.alloc fuel (S.log (entryKeyhash entry 0)) entry = .ok (res, u')) :
    ∃ m s r m' s', S.Cleared u entry dir m s ∧ S.alloc.get m s (initialSize entry 0) = .ok (r, m', s') ∧
      u'.sfits = Function.update u.sfits (S.log (entryKeyhash entry 0)) s' ∧
      (r = none ∧ res = false ∨ ∃ x, r = some x ∧ res = true ∧
        u'.mem = writeBytes m' x (readBytes entry 0 (initialSize entry 0)) ∧
        u'.bktPool.claims ≤ u.bktPool.claims + 1 ∧
        (entryKey entry ∈ dir.map Item.key → u'.bktPool.claims ≤ u.bktPool.claims)) := by
  have main := holds.main_lt (entryKeyhash entry 0)
  rw [KvTable.putCircularLogEntry] at done
  simp only [Nat.mod_eq_of_lt small] at done
  obtain ⟨pool, lock, done⟩ := bind_eq_ok.mp done
  obtain ⟨version, rfl⟩ := lockBucket_ok lock
  obtain ⟨⟨ret, u₁⟩, removal, done⟩ := bind_eq_ok.mp done
  obtain ⟨held, alike, either⟩ := (holds.setVersion main version).removed keyed.hash removal
  obtain ⟨claims, sfits⟩ := holds.removal removal
  obtain ⟨⟨r, m', s'⟩, got, done⟩ := bind_eq_ok.mp done
  refine ⟨u₁.mem, u₁.sfits (S.log (entryKeyhash entry 0)), r, m', s', holds.cleared keyed removal, got, ?_⟩
  have update : Function.update u₁.sfits (S.log (entryKeyhash entry 0)) s' =
      Function.update u.sfits (S.log (entryKeyhash entry 0)) s' := by rw [sfits, Function.update_idem]
  cases r with
  | none =>
    simp only [Except.ok.injEq, Prod.mk.injEq] at done
    obtain ⟨rfl, rfl⟩ := done
    exact ⟨update, Or.inl ⟨rfl, rfl⟩⟩
  | some x =>
    simp only at done
    obtain ⟨⟨inserted, pool'⟩, run, done⟩ := bind_eq_ok.mp done
    simp only [Except.ok.injEq, Prod.mk.injEq] at done
    obtain ⟨rfl, rfl⟩ := done
    obtain ⟨placed₁, spares₁, claimed₁, chained₁⟩ := held.pool
    have main₁ := held.main_lt (entryKeyhash entry 0)
    have bucket := ((u.bktPool.alike_setVersion (getEntryBucket u.bktPool entry) version).trans
      alike).getEntryBucket entry
    rw [← bucket] at run
    have insert := chained₁.insert_claims placed₁ main₁ run
    have unlock := placed₁.unlock_claims main₁ (insert_alike run)
    rw [bucket] at unlock
    rw [← claims]
    refine ⟨update, Or.inr ⟨x, rfl, rfl, rfl, unlock.trans_le insert.1,
      fun present => unlock.trans_le (insert.2 ?_)⟩⟩
    rw [alike.mainSize]
    exact (either.resolve_left fun absent => absent.2.2 present).2.2

/-- What a remove that returns has done to them. -/
theorem remove_heap {entry : Mem} {res : Bool} {fuel : Nat} {S : Setting σ} {u u' : KvTable σ}
    {dir : Multiset Item} {leaked : Nat → Multiset (Nat × Nat)} (holds : S.Holds u dir leaked)
    (keyed : S.Keyed entry)
    (done : u.removeCircularLogEntry S.alloc fuel (S.log (entryKeyhash entry 0)) entry = .ok (res, u')) :
    ∃ s, S.Cleared u entry dir u'.mem s ∧ u'.sfits = Function.update u.sfits (S.log (entryKeyhash entry 0)) s ∧
      u'.bktPool.claims = u.bktPool.claims := by
  have main := holds.main_lt (entryKeyhash entry 0)
  rw [KvTable.removeCircularLogEntry] at done
  obtain ⟨pool, lock, done⟩ := bind_eq_ok.mp done
  obtain ⟨version, rfl⟩ := lockBucket_ok lock
  obtain ⟨⟨ret, u₁⟩, removal, done⟩ := bind_eq_ok.mp done
  obtain ⟨held, alike, -⟩ := (holds.setVersion main version).removed keyed.hash removal
  obtain ⟨claims, sfits⟩ := holds.removal removal
  have cleared := holds.cleared keyed removal
  have bucket := ((u.bktPool.alike_setVersion (getEntryBucket u.bktPool entry) version).trans
    alike).getEntryBucket entry
  have unlock := held.pool.1.unlock_claims (held.main_lt (entryKeyhash entry 0)) (.refl u₁.bktPool)
  rw [bucket] at unlock
  simp only [Except.ok.injEq, Prod.mk.injEq] at done
  obtain ⟨rfl, rfl⟩ := done
  exact ⟨_, cleared, sfits, unlock.trans claims⟩

/-- A key no other one of the table shares bucket and tag with is met first. -/
theorem clear_of_apart {entry : Mem} {S : Setting σ} {u : KvTable σ} {dir : Multiset Item}
    {leaked : Nat → Multiset (Nat × Nat)} (holds : S.Holds u dir leaked) (apart : ∀ it ∈ dir,
      it.main u.bktPool.mainSize = bucketIndex u.bktPool.mainSize (entryKeyhash entry 0) →
      lookupKeyTagHashPortion it.keyhash = lookupKeyTagHashPortion (entryKeyhash entry 0) →
      it.key = entryKey entry) :
    u.Clear entry := by
  intro p found
  obtain ⟨slot, matching⟩ := BucketPool.firstTagged_some found
  obtain ⟨it, member, main, index, same⟩ := holds.match_item (holds.main_lt _) slot matching
  have tag := matchIndexEntryTag_iff.mp matching
  rw [← index, Item.index] at tag
  exact same.mpr (apart it member main tag)

/-- A bucket with fewer than fifteen keys has a slot left, and a pool with an
unclaimed spare one for any bucket. -/
theorem not_exhausted {S : Setting σ} {u : KvTable σ} {dir : Multiset Item}
    {leaked : Nat → Multiset (Nat × Nat)} (holds : S.Holds u dir leaked) (keyhash : Nat)
    (few : (dir.filter fun it =>
      it.main u.bktPool.mainSize = bucketIndex u.bktPool.mainSize keyhash).card < bucketEntrySize ∨
        u.bktPool.claims < u.bktPool.spareSize) : ¬ u.bktPool.Exhausted keyhash := by
  rintro ⟨full, versions⟩
  rcases few with few | spare
  case inr =>
    obtain ⟨k, below, free⟩ := BucketPool.claims_lt spare
    exact versions k below free
  have main := holds.main_lt keyhash
  obtain ⟨placed, spares, claimed, chained⟩ := holds.pool
  have card := Chained.full_card full
  rw [holds.chains _ main, Multiset.card_map, chained.chain_eq main, List.length_cons] at card
  rw [card] at few
  simp only [bucketEntrySize] at few
  omega

end Setting.Holds

theorem logCapacity_eq {L : Logs} {l : Nat} (inside : l < L.logSize) :
    (L.arena l).addrSize / 8 / ((L.arena l).len + 2) = logCapacity := by
  rw [L.size l inside, L.len l inside, logCapacity]

/-- The items of a log have its keys. -/
theorem itemsOfLog_keys {hash : List UInt8 → Nat} {log : Nat → Nat} {items : List Item}
    (hashed : ∀ it ∈ items, it.keyhash = hash it.key) (keyhash : Nat) :
    (itemsOfLog log (log keyhash) items).map Item.key = keysOfLog hash log keyhash (items.map Item.key) := by
  rw [itemsOfLog, keysOfLog, List.filter_map]
  congr 1
  refine List.filter_congr fun it member => ?_
  simp only [Function.comp, hashed it member]

theorem itemsOfMain_card {hash : List UInt8 → Nat} {items : List Item} {mainSize : Nat}
    (hashed : ∀ it ∈ items, it.keyhash = hash it.key) (keyhash : Nat) :
    ((items : Multiset Item).filter fun it => it.main mainSize = bucketIndex mainSize keyhash).card =
      (keysOfMain hash mainSize keyhash (items.map Item.key)).length := by
  rw [keysOfMain, List.filter_map, List.length_map, Multiset.filter_coe, Multiset.coe_card]
  congr 1
  refine List.filter_congr fun it member => ?_
  simp only [Function.comp, Item.main, hashed it member]

theorem itemsOfLog_cons_self {log : Nat → Nat} {items : List Item} {l : Nat} {it : Item}
    (here : log it.keyhash = l) : itemsOfLog log l (it :: items) = it :: itemsOfLog log l items := by
  rw [itemsOfLog, List.filter_cons_of_pos (by simpa using here), itemsOfLog]

theorem itemsOfLog_cons_other {log : Nat → Nat} {items : List Item} {l : Nat} {it : Item}
    (other : log it.keyhash ≠ l) : itemsOfLog log l (it :: items) = itemsOfLog log l items := by
  rw [itemsOfLog, List.filter_cons_of_neg (by simpa using other), itemsOfLog]

/-- The blocks of a log without that of one key. -/
theorem itemsOfLog_without {log : Nat → Nat} {items : List Item} {l x base : Nat} {key : List UInt8}
    (same : ∀ it ∈ items, base + it.offset = x ↔ it.key = key) :
    ((itemsOfLog log l items).map (Item.block base)).filter (fun q => q.1 ≠ x) =
      (itemsOfLog log l (items.filter fun it => it.key ≠ key)).map (Item.block base) := by
  rw [List.filter_map, itemsOfLog, itemsOfLog, List.filter_filter, List.filter_filter]
  congr 1
  refine List.filter_congr fun it member => ?_
  simp only [Function.comp, Item.block, ne_eq, same it member, Bool.and_comm]

theorem Discipline.serving {D : Discipline} {A : Arena} {live : List (Nat × Nat)} {h : Heap}
    (kept : D.Kept A ⟨h, live⟩) : SegregatedFits.Serving A h.mem h.sfits live := by
  obtain ⟨lay, serves⟩ := D.serves kept
  exact ⟨live, rfl, lay, serves⟩

/-- A change in the partition of one log leaves the others as they are. -/
theorem Discipline.other {L : Logs} {t t' : KvTable SegregatedFits} {D : Discipline} {k l : Nat}
    {live : List (Nat × Nat)} (kept : D.Kept (L.arena k) ⟨t.heap k, live⟩) (inside : k < L.logSize)
    (different : k ≠ l) (sfits : t'.sfits k = t.sfits k) (outside : ∀ y, y < L.baseAddr + circularLogSize * l ∨
      L.baseAddr + circularLogSize * (l + 1) ≤ y → t'.mem y = t.mem y) :
    D.Kept (L.arena k) ⟨t'.heap k, live⟩ := by
  have same : t'.heap k = { t.heap k with mem := t'.mem } := by rw [KvTable.heap, KvTable.heap, sfits]
  rw [same]
  refine D.rewrite kept fun y lower upper _ => outside y ?_
  rw [L.addr k inside] at lower upper
  rw [L.size k inside] at upper
  have whole : 8 * (circularLogSize / 8) = circularLogSize := rfl
  rcases (L.setting (fun _ => 0) (fun _ => 0)).partition_apart different with before | behind
  · simp only [Logs.setting] at before
    rw [Nat.mul_succ] at before
    omega
  · simp only [Logs.setting] at behind
    omega

end Fkv
