import Fkv.Lib.OptimisticRead
import Fkv.CircularLog.Trace

namespace Fkv
open ByteMemory CWord OptimisticRead Runs

/-- The next access to the table a call of `get_circular_log_entry` makes: the
version an attempt begins with, the tag at a slot the search has come to, the
link of a bucket it has gone through, tested and then followed, the tag of the
slot found, its offset, the key there, the size of the entry, its bytes, and the
version at the end. -/
inductive ReaderPc
  | idle
  | load
  | tag (bkt index : Nat)
  | link (bkt : Nat)
  | follow (bkt : Nat)
  | retag (bkt index : Nat)
  | offset (bkt index : Nat)
  | key (bkt index offset : Nat)
  | size (offset : Nat)
  | copy (offset size : Nat)
  | check (ret : Bool)
  | done (ret : Bool)
  deriving DecidableEq

/-- A call of `get_circular_log_entry`: what the caller's buffer held and what it
holds now, and the local variables. -/
structure Reader where
  asked : Mem
  entry : Mem
  bkt : Nat
  versionBegining : Nat
  pc : ReaderPc

variable {σ : Type}

/-- A call of `get_circular_log_entry` before its first access. -/
def Reader.ask (t : KvTable σ) (entry : Mem) : Reader := ⟨entry, entry, getEntryBucket t.bktPool entry, 0, .load⟩

/-- One access. The buffer is also the key of the search. -/
def Reader.step (t : KvTable σ) (r : Reader) : Reader :=
  match r.pc with
  | .idle => r
  | .load => { r with versionBegining := (t.bktPool.cells r.bkt).version, pc := .tag r.bkt 0 }
  | .tag bkt index =>
    if matchIndexEntryTag (t.bktPool.entry (bkt, index)).tag (entryKeyhash r.entry 0) then
      { r with pc := .retag bkt index }
    else if index + 1 < bucketEntrySize then { r with pc := .tag bkt (index + 1) }
    else { r with pc := .link bkt }
  | .link bkt => { r with pc := if (t.bktPool.cells bkt).offset = 0 then .check false else .follow bkt }
  | .follow bkt => { r with pc := .tag (add64 bkt (t.bktPool.cells bkt).offset) 0 }
  | .retag bkt index =>
    if matchIndexEntryTag (t.bktPool.entry (bkt, index)).tag (entryKeyhash r.entry 0) then
      { r with pc := .offset bkt index }
    else { r with pc := .tag bkt index }
  | .offset bkt index => { r with pc := .key bkt index (t.bktPool.entry (bkt, index)).offset }
  | .key bkt index offset =>
    if t.matchCircularLogEntryKey r.entry offset then { r with pc := .size offset }
      else { r with pc := .tag bkt index }
  | .size offset => { r with pc := .copy offset (initialSize t.mem (add64 t.baseAddr offset)) }
  | .copy offset size =>
    { r with entry := writeBytes r.entry 0 (readBytes t.mem (add64 t.baseAddr offset) size), pc := .check true }
  | .check ret => { r with pc := if r.versionBegining ≠ (t.bktPool.cells r.bkt).version then .load else .done ret }
  | .done _ => r

/-- What an attempt in chain `i` may be about to read. -/
def KvTable.Reads (t : KvTable σ) (i : Nat) (r : Reader) : Prop :=
  r.bkt = t.bktPool.mainPtr i ∧ match r.pc with
  | .tag bkt index => (bkt, index) ∈ slots (t.bktPool.chain i)
  | .link bkt => bkt ∈ t.bktPool.chain i
  | .follow bkt => bkt ∈ t.bktPool.chain i ∧ (t.bktPool.cells bkt).offset ≠ 0
  | .retag bkt index => (bkt, index) ∈ slots (t.bktPool.chain i)
  | .offset bkt index => (bkt, index) ∈ slots (t.bktPool.chain i) ∧
      matchIndexEntryTag (t.bktPool.entry (bkt, index)).tag (entryKeyhash r.entry 0) = true
  | .key bkt index offset => (bkt, index) ∈ slots (t.bktPool.chain i) ∧
      matchIndexEntryTag (t.bktPool.entry (bkt, index)).tag (entryKeyhash r.entry 0) = true ∧
      offset = (t.bktPool.entry (bkt, index)).offset
  | .size offset => ∃ p ∈ slots (t.bktPool.chain i), (t.bktPool.entry p).tag ≠ 0 ∧
      offset = (t.bktPool.entry p).offset
  | .copy offset size => ∃ p ∈ slots (t.bktPool.chain i), (t.bktPool.entry p).tag ≠ 0 ∧
      offset = (t.bktPool.entry p).offset ∧ size = initialSize t.mem (add64 t.baseAddr offset)
  | .check _ => True
  | _ => False

/-- The attempts in chain `i`. -/
def readProtocol (i bkt : Nat) : Protocol (KvTable σ) Reader where
  step t r := r.step t
  Reads t r := t.Reads i r
  stamp t := (t.bktPool.cells bkt).version
  modulus := 2 ^ 32

/-- With enough fuel the loop of `__get_circular_log_entry` ends so. -/
def KvTable.Gets (t : KvTable σ) (entry : Mem) (bkt index : Nat) (out : Bool × Mem) : Prop :=
  ∃ enough, ∀ fuel n, enough ≤ fuel → enough ≤ n → t.getLoop fuel entry n bkt index = .ok out

/-- What an attempt that stands here comes to if the table stays as it is. -/
def Reader.Yields (t : KvTable σ) (r : Reader) (out : Bool × Mem) : Prop :=
  match r.pc with
  | .tag bkt index => t.Gets r.entry bkt index out
  | .link bkt =>
    match nextSpareBucket t.bktPool bkt with
    | some next => t.Gets r.entry next 0 out
    | none => out = (false, r.entry)
  | .follow bkt => t.Gets r.entry (add64 bkt (t.bktPool.cells bkt).offset) 0 out
  | .retag bkt index => t.Gets r.entry bkt index out
  | .offset bkt index => t.Gets r.entry bkt index out
  | .key bkt index _ => t.Gets r.entry bkt index out
  | .size offset => out = (true, writeBytes r.entry 0 (readBytes t.mem (add64 t.baseAddr offset)
      (initialSize t.mem (add64 t.baseAddr offset))))
  | .copy offset size => out = (true, writeBytes r.entry 0 (readBytes t.mem (add64 t.baseAddr offset) size))
  | .check ret => out = (ret, r.entry)
  | _ => False

namespace KvTable

theorem Gets.match {t : KvTable σ} {entry : Mem} {bkt index : Nat} (inside : index < bucketEntrySize)
    (matching : matchIndexEntryTag (t.bktPool.entry (bkt, index)).tag (entryKeyhash entry 0) = true)
    (equal : t.matchCircularLogEntryKey entry (t.bktPool.entry (bkt, index)).offset = true) :
    t.Gets entry bkt index (true, writeBytes entry 0
      (readBytes t.mem (add64 t.baseAddr (t.bktPool.entry (bkt, index)).offset)
      (initialSize t.mem (add64 t.baseAddr (t.bktPool.entry (bkt, index)).offset)))) := by
  refine ⟨1, fun fuel n enough enough' => ?_⟩
  obtain ⟨fuel, rfl⟩ : ∃ k, fuel = k + 1 := ⟨fuel - 1, by omega⟩
  obtain ⟨n, rfl⟩ : ∃ k, n = k + 1 := ⟨n - 1, by omega⟩
  rw [getLoop, search_again matching inside, ok_bind]
  exact if_pos ⟨matching, equal⟩

/-- A search goes on from the next slot. -/
theorem Gets.skip {t : KvTable σ} {entry : Mem} {bkt index : Nat} {out : Bool × Mem}
    (room : index + 1 < bucketEntrySize)
    (differs : matchIndexEntryTag (t.bktPool.entry (bkt, index)).tag (entryKeyhash entry 0) ≠ true)
    (gets : t.Gets entry bkt (index + 1) out) : t.Gets entry bkt index out := by
  obtain ⟨enough, gets⟩ := gets
  refine ⟨enough + 1, fun fuel n more more' => ?_⟩
  obtain ⟨fuel, rfl⟩ : ∃ k, fuel = k + 1 := ⟨fuel - 1, by omega⟩
  obtain ⟨n, rfl⟩ : ∃ k, n = k + 1 := ⟨n - 1, by omega⟩
  have later := gets (fuel + 1) (n + 1) (by omega) (by omega)
  have same : searchIndexEntry t.bktPool (entryKeyhash entry 0) (fuel + 1) bkt index =
      searchIndexEntry t.bktPool (entryKeyhash entry 0) (fuel + 1) bkt (index + 1) := by
    rw [searchIndexEntry, searchIndexEntry,
      show bucketEntrySize - index = bucketEntrySize - (index + 1) + 1 by omega, findSlot]
    simp only [show ¬ matchIndexEntryTag ((t.bktPool.cells bkt).entries index).tag (entryKeyhash entry 0) =
      true from differs, Bool.false_eq_true, if_false]
  rw [getLoop] at later ⊢
  rw [same]
  exact later

/-- Behind the last slot of a bucket a search follows its link. -/
theorem search_link {t : KvTable σ} {entry : Mem} {bkt index : Nat} (fuel : Nat)
    (last : index + 1 = bucketEntrySize)
    (differs : matchIndexEntryTag (t.bktPool.entry (bkt, index)).tag (entryKeyhash entry 0) ≠ true) :
    searchIndexEntry t.bktPool (entryKeyhash entry 0) (fuel + 1) bkt index =
      match nextSpareBucket t.bktPool bkt with
      | some next => searchIndexEntry t.bktPool (entryKeyhash entry 0) fuel next 0
      | none => .ok none := by
  have passed : findSlot (fun e => matchIndexEntryTag e.tag (entryKeyhash entry 0)) (t.bktPool.cells bkt) index
      (bucketEntrySize - index) = none := by
    rw [show bucketEntrySize - index = 0 + 1 by omega, findSlot, findSlot]
    exact if_neg differs
  cases link : nextSpareBucket t.bktPool bkt with
  | some next => simp only [searchIndexEntry, passed, link]
  | none => simp only [searchIndexEntry, passed, link]

theorem Gets.follow {t : KvTable σ} {entry : Mem} {bkt index next : Nat} {out : Bool × Mem}
    (last : index + 1 = bucketEntrySize)
    (differs : matchIndexEntryTag (t.bktPool.entry (bkt, index)).tag (entryKeyhash entry 0) ≠ true)
    (link : nextSpareBucket t.bktPool bkt = some next) (gets : t.Gets entry next 0 out) :
    t.Gets entry bkt index out := by
  obtain ⟨enough, gets⟩ := gets
  refine ⟨enough + 1, fun fuel n more more' => ?_⟩
  obtain ⟨fuel, rfl⟩ : ∃ k, fuel = k + 1 := ⟨fuel - 1, by omega⟩
  obtain ⟨n, rfl⟩ : ∃ k, n = k + 1 := ⟨n - 1, by omega⟩
  have search := search_link fuel last differs
  have later := gets fuel (n + 1) (by omega) (by omega)
  have longer := gets (fuel + 1) (n + 1) (by omega) (by omega)
  simp only [link] at search
  rw [getLoop] at later longer ⊢
  obtain ⟨found, first, -⟩ := bind_eq_ok.mp later
  rw [search, first, ← search_more first 1]
  exact longer

theorem Gets.end {t : KvTable σ} {entry : Mem} {bkt index : Nat} (last : index + 1 = bucketEntrySize)
    (differs : matchIndexEntryTag (t.bktPool.entry (bkt, index)).tag (entryKeyhash entry 0) ≠ true)
    (link : nextSpareBucket t.bktPool bkt = none) : t.Gets entry bkt index (false, entry) := by
  refine ⟨1, fun fuel n enough enough' => ?_⟩
  obtain ⟨fuel, rfl⟩ : ∃ k, fuel = k + 1 := ⟨fuel - 1, by omega⟩
  obtain ⟨n, rfl⟩ : ∃ k, n = k + 1 := ⟨n - 1, by omega⟩
  have search := search_link fuel last differs
  simp only [link] at search
  rw [getLoop, search, ok_bind]

end KvTable

namespace Reader

/-- An access brings an attempt nearer to what it comes to. -/
theorem yields_step {t : KvTable σ} {r : Reader} {i : Nat} {out : Bool × Mem} (reads : t.Reads i r)
    (yields : (r.step t).Yields t out) : r.Yields t out := by
  obtain ⟨asked, entry, main, version, pc⟩ := r
  obtain ⟨-, reads⟩ := reads
  cases pc with
  | idle => exact reads.elim
  | load => exact reads.elim
  | done ret => exact reads.elim
  | tag bkt index =>
    have inside := (mem_slots.mp reads).2
    simp only [step] at yields
    split at yields
    · exact yields
    · rename_i differs
      split at yields
      · rename_i room
        exact KvTable.Gets.skip room differs yields
      · have last : index + 1 = bucketEntrySize := by omega
        simp only [Yields] at yields ⊢
        cases link : nextSpareBucket t.bktPool bkt with
        | some next =>
          rw [link] at yields
          exact KvTable.Gets.follow last differs link yields
        | none =>
          rw [link] at yields
          rw [yields]
          exact KvTable.Gets.end last differs link
  | link bkt =>
    simp only [Yields, step, nextSpareBucket] at yields ⊢
    split
    · rename_i next link
      split at link
      · cases link
      · rename_i linked
        cases link
        simpa only [linked, if_false] using yields
    · rename_i link
      split at link
      · rename_i none
        simpa only [none, if_true] using yields
      · cases link
  | follow bkt => exact yields
  | retag bkt index =>
    simp only [step] at yields
    split at yields
    · exact yields
    · exact yields
  | offset bkt index => exact yields
  | key bkt index offset =>
    obtain ⟨slot, matching, rfl⟩ := reads
    simp only [step] at yields
    split at yields
    · rename_i equal
      simp only [Yields] at yields ⊢
      rw [yields]
      exact KvTable.Gets.match (mem_slots.mp slot).2 matching equal
    · exact yields
  | size offset => exact yields
  | copy offset size => exact yields
  | check ret =>
    simp only [step] at yields
    split at yields
    · exact yields.elim
    · exact yields.elim

theorem along_yields {t : KvTable σ} {r : Reader} {i : Nat} {r' : Reader} {ret : Bool} {b : Nat}
    (along : (readProtocol i b).Along t r r') (ends : r'.pc = .check ret) : r.Yields t (ret, r'.entry) := by
  induction along using Relation.ReflTransGen.head_induction_on with
  | refl => simp only [Yields, ends]
  | head step _ ih =>
    obtain ⟨reads, rfl⟩ := step
    exact yields_step reads ih

/-- An attempt that has come to its end while the table stayed the same has done
what the loop of `__get_circular_log_entry` does there. -/
theorem along_gets {t : KvTable σ} {r : Reader} {bkt index i : Nat} {r' : Reader} {ret : Bool} {b : Nat}
    (along : (readProtocol i b).Along t r r') (pc : r.pc = .tag bkt index) (ends : r'.pc = .check ret) :
    t.Gets r.entry bkt index (ret, r'.entry) := by
  have yields := along_yields along ends
  simpa only [Yields, pc] using yields

end Reader

/-- Following links does not leave the chain. -/
def BucketPool.Closed (pool : BucketPool) (i : Nat) : Prop :=
  pool.mainPtr i ∈ pool.chain i ∧
    ∀ bkt ∈ pool.chain i, ∀ next, nextSpareBucket pool bkt = some next → next ∈ pool.chain i

theorem BucketPool.Linked.closed {pool : BucketPool} {chain : List Nat} (linked : pool.Linked chain) :
    ∀ bkt ∈ chain, ∀ next, nextSpareBucket pool bkt = some next → next ∈ chain := by
  induction chain with
  | nil => exact linked.elim
  | cons first rest ih =>
    intro bkt member next link
    cases rest with
    | nil =>
      obtain rfl := List.mem_singleton.mp member
      have last : nextSpareBucket pool bkt = none := linked
      rw [last] at link
      cases link
    | cons second rest =>
      rcases List.mem_cons.mp member with rfl | later
      · obtain rfl := Option.some.inj (linked.1.symm.trans link)
        exact List.mem_cons_of_mem _ List.mem_cons_self
      · exact List.mem_cons_of_mem _ (ih linked.2 bkt later next link)

theorem Chained.closed {i : Nat} {pool : BucketPool} {spares : Nat → List Nat} {claimed : Nat}
    (chained : Chained pool spares claimed) (main : i < pool.mainSize) : pool.Closed i := by
  rw [BucketPool.Closed, chained.chain_eq main]
  exact ⟨List.mem_cons_self, (chained.linked i main).closed⟩

/-- An access of an attempt in a closed chain leads to another, until the end. -/
theorem KvTable.Reads.step {t : KvTable σ} {r : Reader} {i : Nat} (closed : t.bktPool.Closed i)
    (reads : t.Reads i r) (on : ∀ ret, r.pc ≠ .check ret) :
    t.Reads i (r.step t) := by
  obtain ⟨asked, entry, main, version, pc⟩ := r
  obtain ⟨same, reads⟩ := reads
  cases pc with
  | idle => exact reads.elim
  | load => exact reads.elim
  | done ret => exact reads.elim
  | check ret => exact absurd rfl (on ret)
  | tag bkt index =>
    simp only [Reader.step]
    split
    · exact ⟨same, reads⟩
    · split
      · rename_i room
        exact ⟨same, mem_slots.mpr ⟨(mem_slots.mp reads).1, room⟩⟩
      · exact ⟨same, (mem_slots.mp reads).1⟩
  | link bkt =>
    simp only [Reader.step]
    split
    · exact ⟨same, trivial⟩
    · rename_i linked
      exact ⟨same, reads, linked⟩
  | follow bkt =>
    refine ⟨same, mem_slots.mpr ⟨closed.2 bkt reads.1 _ ?_, show 0 < bucketEntrySize by decide⟩⟩
    rw [nextSpareBucket, if_neg reads.2]
  | retag bkt index =>
    simp only [Reader.step]
    split
    · rename_i matching
      exact ⟨same, reads, matching⟩
    · exact ⟨same, reads⟩
  | offset bkt index => exact ⟨same, reads.1, reads.2, rfl⟩
  | key bkt index offset =>
    obtain ⟨slot, matching, rfl⟩ := reads
    simp only [Reader.step]
    split
    · refine ⟨same, (bkt, index), slot, ?_, rfl⟩
      rw [matchIndexEntryTag_iff.mp matching]
      exact lookupKeyTagHashPortion_ne_zero _
    · exact ⟨same, slot⟩
  | size offset =>
    obtain ⟨p, slot, tagged, rfl⟩ := reads
    exact ⟨same, p, slot, tagged, rfl, rfl⟩
  | copy offset size => exact ⟨same, trivial⟩

namespace Setting

theorem Sees.closed {t : KvTable σ} {i : Nat} {S : Setting σ} {q : KvTable σ} {dir : Multiset Item}
    (sees : S.Sees q t dir i) (closed : q.bktPool.Closed i) : t.bktPool.Closed i := by
  obtain ⟨alike, -, ⟨chain, cells⟩, -⟩ := sees
  rw [BucketPool.Closed, chain, alike.mainPtr]
  refine ⟨closed.1, fun bkt member next link => closed.2 bkt member next ?_⟩
  rw [nextSpareBucket, cells bkt member] at link
  exact link

/-- An occupied slot of the chain refers to an item that is stored. -/
theorem Sees.item {t : KvTable σ} {i : Nat} {S : Setting σ} {q : KvTable σ} {dir : Multiset Item}
    {leaked : Nat → Multiset (Nat × Nat)} {p : Nat × Nat} (holds : S.Holds q dir leaked)
    (sees : S.Sees q t dir i) (main : i < q.bktPool.mainSize) (slot : p ∈ slots (q.bktPool.chain i))
    (tagged : (q.bktPool.entry p).tag ≠ 0) :
    ∃ it ∈ dir, it.main q.bktPool.mainSize = i ∧ it.index = q.bktPool.entry p ∧
      it.Stored t.mem (add64 t.baseAddr (q.bktPool.entry p).offset) := by
  obtain ⟨it, member, here, index⟩ := holds.item main slot tagged
  refine ⟨it, member, here, index, ?_⟩
  rw [sees.base, ← index, Item.index, holds.address member]
  exact sees.stored it member here

/-- So it refers to the same item in both tables. -/
theorem Sees.items {t : KvTable σ} {i : Nat} {S : Setting σ} {q t' : KvTable σ} {dir : Multiset Item}
    {leaked : Nat → Multiset (Nat × Nat)} {p : Nat × Nat} (holds : S.Holds q dir leaked)
    (main : i < q.bktPool.mainSize) (sees : S.Sees q t dir i) (sees' : S.Sees q t' dir i)
    (slot : p ∈ slots (t.bktPool.chain i)) (tagged : (t.bktPool.entry p).tag ≠ 0) :
    ∃ it : Item, it.Stored t.mem (add64 t.baseAddr (t.bktPool.entry p).offset) ∧
      it.Stored t'.mem (add64 t'.baseAddr (t.bktPool.entry p).offset) := by
  rw [sees.chain.1] at slot
  have same : t.bktPool.entry p = q.bktPool.entry p := by
    rw [BucketPool.entry, BucketPool.entry, sees.chain.2 p.1 (mem_slots.mp slot).1]
  rw [same] at tagged ⊢
  obtain ⟨it, member, -, index, stored⟩ := sees.item holds main slot tagged
  obtain ⟨it', member', -, index', stored'⟩ := sees'.item holds main slot tagged
  have offset := congrArg IndexEntry.offset (index.trans index'.symm)
  obtain rfl := Multiset.inj_on_of_nodup_map holds.offsets it member it' member' offset
  exact ⟨it, stored, stored'⟩

/-- Readers of the chain do not tell such tables apart. -/
theorem Sees.alike_reads {t : KvTable σ} {i : Nat} {S : Setting σ} {q t' : KvTable σ} {dir : Multiset Item}
    {leaked : Nat → Multiset (Nat × Nat)} {b : Nat} (holds : S.Holds q dir leaked) (closed : q.bktPool.Closed i)
    (main : i < q.bktPool.mainSize) (sees : S.Sees q t dir i) (sees' : S.Sees q t' dir i) :
    (readProtocol i b).Alike t t' := by
  rintro ⟨asked, entry, bucket, version, pc⟩ ⟨same, reads⟩
  have closed' := sees.closed closed
  have chain : t'.bktPool.chain i = t.bktPool.chain i := sees'.chain.1.trans sees.chain.1.symm
  have first : t'.bktPool.mainPtr i = t.bktPool.mainPtr i := by rw [sees.alike.mainPtr, sees'.alike.mainPtr]
  have cells : ∀ bkt ∈ t.bktPool.chain i, t'.bktPool.cells bkt = t.bktPool.cells bkt := fun bkt member => by
    rw [sees.chain.1] at member
    rw [sees.chain.2 bkt member, sees'.chain.2 bkt member]
  have entries : ∀ p ∈ slots (t.bktPool.chain i), t'.bktPool.entry p = t.bktPool.entry p := fun p slot => by
    rw [BucketPool.entry, BucketPool.entry, cells p.1 (mem_slots.mp slot).1]
  have items := fun p => sees.items (p := p) holds main sees'
  simp only at same
  have same' : bucket = t'.bktPool.mainPtr i := same.trans first.symm
  refine ⟨⟨same', ?_⟩, ?_⟩
  · cases pc with
    | idle => exact reads
    | load => exact reads
    | done ret => exact reads
    | check ret => exact reads
    | tag bkt index => simpa only [chain] using reads
    | link bkt => simpa only [chain] using reads
    | follow bkt => simpa only [chain, cells bkt reads.1] using reads
    | retag bkt index => simpa only [chain] using reads
    | offset bkt index => simpa only [chain, entries _ reads.1] using reads
    | key bkt index offset => simpa only [chain, entries _ reads.1] using reads
    | size offset =>
      obtain ⟨p, slot, tagged, rfl⟩ := reads
      exact ⟨p, by rw [chain]; exact slot, by rw [entries p slot]; exact tagged, by rw [entries p slot]⟩
    | copy offset size =>
      obtain ⟨p, slot, tagged, rfl, rfl⟩ := reads
      obtain ⟨it, stored, stored'⟩ := items p slot tagged
      exact ⟨p, by rw [chain]; exact slot, by rw [entries p slot]; exact tagged, by rw [entries p slot],
        stored.size.trans stored'.size.symm⟩
  · simp only [readProtocol]
    cases pc with
    | idle => rfl
    | load => exact reads.elim
    | done ret => rfl
    | check ret => simp only [Reader.step, same, cells _ closed'.1]
    | tag bkt index => simp only [Reader.step, entries _ reads]
    | link bkt => simp only [Reader.step, cells _ reads]
    | follow bkt => simp only [Reader.step, cells _ reads.1]
    | retag bkt index => simp only [Reader.step, entries _ reads]
    | offset bkt index => simp only [Reader.step, entries _ reads.1]
    | key bkt index offset =>
      obtain ⟨slot, matching, rfl⟩ := reads
      have tagged : (t.bktPool.entry (bkt, index)).tag ≠ 0 := by
        rw [matchIndexEntryTag_iff.mp matching]
        exact lookupKeyTagHashPortion_ne_zero _
      obtain ⟨it, stored, stored'⟩ := items _ slot tagged
      have equal : t'.matchCircularLogEntryKey entry (t.bktPool.entry (bkt, index)).offset =
          t.matchCircularLogEntryKey entry (t.bktPool.entry (bkt, index)).offset := by
        rw [Bool.eq_iff_iff, stored.match_iff, stored'.match_iff]
      simp only [Reader.step, equal]
    | size offset =>
      obtain ⟨p, slot, tagged, rfl⟩ := reads
      obtain ⟨it, stored, stored'⟩ := items p slot tagged
      simp only [Reader.step, stored.size, stored'.size]
    | copy offset size =>
      obtain ⟨p, slot, tagged, rfl, rfl⟩ := reads
      obtain ⟨it, stored, stored'⟩ := items p slot tagged
      simp only [Reader.step, stored.size, stored.bytes, stored'.bytes]

end Setting

end Fkv
