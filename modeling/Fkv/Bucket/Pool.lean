import Mathlib.Data.List.Perm.Subperm
import Fkv.Bucket.Chain

namespace Fkv
open CWord

/-- Where the pool lies: links of 32 bits reach every bucket from every other. -/
structure BucketPool.Placed (pool : BucketPool) : Prop where
  behind : pool.spares = pool.mains + 128 * pool.mainSize
  size_lt : 128 * (pool.mainSize + pool.spareSize) < 2 ^ 32
  end_le : pool.mains + 128 * (pool.mainSize + pool.spareSize) ≤ 2 ^ 64

/-- The bucket and those behind it, as far as the fuel goes. -/
def BucketPool.walk (pool : BucketPool) : Nat → Nat → List Nat
  | 0, _ => []
  | fuel + 1, bkt =>
    bkt :: match nextSpareBucket pool bkt with
      | some next => pool.walk fuel next
      | none => []

/-- The chain of main bucket `i`. -/
def BucketPool.chain (pool : BucketPool) (i : Nat) : List Nat := pool.walk (pool.spareSize + 1) (pool.mainPtr i)

/-- The pairs in the chain of main bucket `i`. -/
def BucketPool.contents (pool : BucketPool) (i : Nat) : Multiset IndexEntry := pool.held (pool.chain i)

/-- The chains: each main bucket is followed by spares of its own in upward
order, together they are the first `claimed` ones, which have version 2, and the
other spares are as creation left them. -/
structure Chained (pool : BucketPool) (spares : Nat → List Nat) (claimed : Nat) : Prop where
  linked : ∀ i < pool.mainSize, pool.Linked (pool.mainPtr i :: (spares i).map pool.sparePtr)
  upward : ∀ i < pool.mainSize, (spares i).Pairwise (· < ·)
  apart : ∀ i < pool.mainSize, ∀ j < pool.mainSize, i ≠ j → (spares i).Disjoint (spares j)
  owned : ∀ k, (∃ i < pool.mainSize, k ∈ spares i) ↔ k < claimed
  within : claimed ≤ pool.spareSize
  claims : ∀ k < claimed, (pool.cells (pool.sparePtr k)).version = 2
  fresh : ∀ k < pool.spareSize, claimed ≤ k → pool.cells (pool.sparePtr k) = emptyBucket

def BucketPool.WellFormed (pool : BucketPool) : Prop := pool.Placed ∧ ∃ spares claimed, Chained pool spares claimed

/-- Every slot of the chain is occupied. -/
def BucketPool.Full (pool : BucketPool) (i : Nat) : Prop :=
  ∀ p ∈ slots (pool.chain i), isEmptyEntry (pool.entry p) = false

/-- The chain has the same buckets as before, and they are the same. -/
def BucketPool.Untouched (pool pool' : BucketPool) (j : Nat) : Prop :=
  pool'.chain j = pool.chain j ∧ ∀ bkt ∈ pool.chain j, pool'.cells bkt = pool.cells bkt

theorem BucketPool.walk_eq {pool : BucketPool} {fuel bkt : Nat} {rest : List Nat}
    (linked : pool.Linked (bkt :: rest)) (enough : rest.length < fuel) :
    pool.walk fuel bkt = bkt :: rest := by
  induction rest generalizing bkt fuel with
  | nil =>
    obtain ⟨fuel, rfl⟩ : ∃ k, fuel = k + 1 := ⟨fuel - 1, by omega⟩
    have last : nextSpareBucket pool bkt = none := linked
    rw [BucketPool.walk, last]
  | cons next rest ih =>
    obtain ⟨fuel, rfl⟩ : ∃ k, fuel = k + 1 := ⟨fuel - 1, by omega⟩
    simp only [List.length_cons] at enough
    rw [BucketPool.walk, linked.1]
    exact congrArg _ (ih linked.2 (by omega))

theorem BucketPool.Placed.apart {pool : BucketPool} {i k : Nat} (placed : pool.Placed)
    (main : i < pool.mainSize) : pool.mainPtr i ≠ pool.sparePtr k := by
  have behind := placed.behind
  simp only [BucketPool.mainPtr, BucketPool.sparePtr]
  omega

theorem BucketPool.Placed.setCell {pool : BucketPool} {bkt : Nat} {b : Bucket} (placed : pool.Placed) :
    (pool.setCell bkt b).Placed :=
  ⟨placed.behind, placed.size_lt, placed.end_le⟩

theorem Chained.length_le {pool : BucketPool} {spares : Nat → List Nat} {claimed i : Nat}
    (chained : Chained pool spares claimed) (main : i < pool.mainSize) :
    (spares i).length ≤ claimed := by
  have nodup : (spares i).Nodup := (chained.upward i main).imp fun less => Nat.ne_of_lt less
  have below : spares i ⊆ List.range claimed :=
    fun k member => List.mem_range.mpr ((chained.owned k).mp ⟨i, main, member⟩)
  simpa using (List.subperm_of_subset nodup below).length_le

theorem Chained.chain_eq {pool : BucketPool} {spares : Nat → List Nat} {claimed i : Nat}
    (chained : Chained pool spares claimed) (main : i < pool.mainSize) :
    pool.chain i = pool.mainPtr i :: (spares i).map pool.sparePtr := by
  have few := chained.length_le main
  have within := chained.within
  refine BucketPool.walk_eq (chained.linked i main) ?_
  rw [List.length_map]
  omega

theorem Chained.mem_chain {pool : BucketPool} {spares : Nat → List Nat} {claimed i bkt : Nat}
    (chained : Chained pool spares claimed) (main : i < pool.mainSize) (member : bkt ∈ pool.chain i) :
    bkt = pool.mainPtr i ∨ ∃ k ∈ spares i, k < claimed ∧ bkt = pool.sparePtr k := by
  rw [chained.chain_eq main, List.mem_cons, List.mem_map] at member
  rcases member with head | ⟨k, spare, rfl⟩
  · exact Or.inl head
  · exact Or.inr ⟨k, spare, (chained.owned k).mp ⟨i, main, spare⟩, rfl⟩

/-- A chain visits no bucket twice. -/
theorem Chained.nodup {pool : BucketPool} {spares : Nat → List Nat} {claimed i : Nat}
    (chained : Chained pool spares claimed) (placed : pool.Placed) (main : i < pool.mainSize) :
    (pool.chain i).Nodup := by
  rw [chained.chain_eq main, List.nodup_cons]
  constructor
  · intro member
    obtain ⟨k, -, same⟩ := List.mem_map.mp member
    exact placed.apart main same.symm
  · have nodup : (spares i).Nodup := (chained.upward i main).imp fun less => Nat.ne_of_lt less
    exact nodup.map fun k l same => BucketPool.sparePtr_inj.mp same

/-- Chains of different main buckets share no bucket. -/
theorem Chained.disjoint {pool : BucketPool} {spares : Nat → List Nat} {claimed i j bkt : Nat}
    (chained : Chained pool spares claimed) (placed : pool.Placed) (main : i < pool.mainSize)
    (other : j < pool.mainSize) (different : j ≠ i) (member : bkt ∈ pool.chain i) : bkt ∉ pool.chain j := by
  intro both
  rcases chained.mem_chain main member with rfl | ⟨k, mine, -, rfl⟩
  · rcases chained.mem_chain other both with same | ⟨l, -, -, same⟩
    · exact different (BucketPool.mainPtr_inj.mp same).symm
    · exact placed.apart main same
  · rcases chained.mem_chain other both with same | ⟨l, theirs, -, same⟩
    · exact placed.apart other same.symm
    · rw [BucketPool.sparePtr_inj.mp same] at mine
      exact chained.apart i main j other (Ne.symm different) mine theirs

/-- A chain with the same links and spares is the same chain. -/
theorem Chained.untouched {pool pool' : BucketPool} {spares : Nat → List Nat} {claimed j : Nat}
    {spares' : Nat → List Nat} {claimed' : Nat} (chained : Chained pool spares claimed)
    (chained' : Chained pool' spares' claimed') (main : j < pool.mainSize) (mains : pool'.mains = pool.mains)
    (mainSize : pool'.mainSize = pool.mainSize) (addresses : pool'.spares = pool.spares)
    (kept : spares' j = spares j) (same : ∀ bkt ∈ pool.chain j, pool'.cells bkt = pool.cells bkt) :
    pool.Untouched pool' j := by
  refine ⟨?_, same⟩
  rw [chained.chain_eq main, chained'.chain_eq (mainSize ▸ main), kept]
  have spare : pool'.sparePtr = pool.sparePtr := by
    funext k
    simp only [BucketPool.sparePtr, addresses]
  simp only [BucketPool.mainPtr, mains, spare]

theorem BucketPool.Untouched.contents {pool pool' : BucketPool} {j : Nat} (untouched : pool.Untouched pool' j) :
    pool'.contents j = pool.contents j := by
  unfold BucketPool.contents
  rw [untouched.1]
  exact BucketPool.held_congr fun bkt member => by rw [untouched.2 bkt member]

/-- Creation leaves every chain with its main bucket only. -/
theorem Chained.created (addr mainSize spareSize : Nat) :
    Chained (createBucketPool addr mainSize spareSize) (fun _ => []) 0 := by
  refine ⟨fun _ _ => rfl, fun _ _ => .nil, fun _ _ _ _ _ => List.disjoint_nil_left [], ?_, Nat.zero_le _, ?_,
    fun _ _ _ => rfl⟩
  · simp
  · simp

/-- Writing an entry of a chain, or the version of a main bucket, keeps the chains. -/
theorem Chained.setCell {pool : BucketPool} {spares : Nat → List Nat} {claimed i bkt : Nat} {b : Bucket}
    (chained : Chained pool spares claimed) (placed : pool.Placed) (main : i < pool.mainSize)
    (member : bkt ∈ pool.chain i) (link : b.offset = (pool.cells bkt).offset)
    (version : bkt = pool.mainPtr i ∨ b.version = (pool.cells bkt).version) :
    Chained (pool.setCell bkt b) spares claimed := by
  refine ⟨fun j other => (chained.linked j other).congr fun c _ => ?_, chained.upward, chained.apart,
    chained.owned, chained.within, fun k below => ?_, fun k inside free => ?_⟩
  · simp only [BucketPool.setCell, Function.update_apply]
    split
    · rename_i here
      rw [here, link]
    · rfl
  · refine Eq.trans ?_ (chained.claims k below)
    change (Function.update pool.cells bkt b (pool.sparePtr k)).version = _
    rw [Function.update_apply]
    split
    · rename_i here
      rcases version with head | same
      · exact absurd (head.symm.trans here.symm) (placed.apart main)
      · rw [here, same]
    · rfl
  · refine Eq.trans ?_ (chained.fresh k inside free)
    change Function.update pool.cells bkt b (pool.sparePtr k) = _
    refine Function.update_of_ne ?_ _ _
    rintro rfl
    rcases chained.mem_chain main member with head | ⟨l, -, below, same⟩
    · exact placed.apart main head.symm
    · have equal := BucketPool.sparePtr_inj.mp same
      omega

/-- Locking and unlocking keep the chains. -/
theorem Chained.setVersion {pool : BucketPool} {spares : Nat → List Nat} {claimed i : Nat}
    (chained : Chained pool spares claimed) (placed : pool.Placed) (main : i < pool.mainSize) (version : Nat) :
    Chained (pool.setVersion (pool.mainPtr i) version) spares claimed :=
  chained.setCell placed main (by rw [chained.chain_eq main]; exact List.mem_cons_self) rfl (Or.inl rfl)

/-- An entry written to one chain leaves the others alone. -/
theorem Chained.setCell_untouched {pool : BucketPool} {spares : Nat → List Nat} {claimed i j bkt : Nat}
    {b : Bucket} (chained : Chained pool spares claimed) (placed : pool.Placed) (main : i < pool.mainSize)
    (member : bkt ∈ pool.chain i) (after : Chained (pool.setCell bkt b) spares claimed)
    (other : j < pool.mainSize) (different : j ≠ i) : pool.Untouched (pool.setCell bkt b) j := by
  refine chained.untouched after other rfl rfl rfl rfl fun c inside => ?_
  refine Function.update_of_ne ?_ _ _
  rintro rfl
  exact chained.disjoint placed main other different member inside

theorem Chained.setEntry {pool : BucketPool} {spares : Nat → List Nat} {claimed i : Nat} {e : IndexEntry}
    {p : Nat × Nat} (chained : Chained pool spares claimed) (placed : pool.Placed) (main : i < pool.mainSize)
    (member : p ∈ slots (pool.chain i)) : Chained (pool.setEntry p.1 p.2 e) spares claimed :=
  chained.setCell placed main (mem_slots.mp member).1 rfl (Or.inr rfl)

theorem Chained.setEntry_untouched {pool : BucketPool} {spares : Nat → List Nat} {claimed i j : Nat}
    {e : IndexEntry} {p : Nat × Nat} (chained : Chained pool spares claimed) (placed : pool.Placed)
    (main : i < pool.mainSize) (member : p ∈ slots (pool.chain i)) (other : j < pool.mainSize)
    (different : j ≠ i) :
    pool.Untouched (pool.setEntry p.1 p.2 e) j :=
  chained.setCell_untouched placed main (mem_slots.mp member).1 (chained.setEntry placed main member) other
    different

theorem Chained.setEntry_chain {pool : BucketPool} {spares : Nat → List Nat} {claimed i : Nat} {e : IndexEntry}
    {p : Nat × Nat} (chained : Chained pool spares claimed) (placed : pool.Placed) (main : i < pool.mainSize)
    (member : p ∈ slots (pool.chain i)) : (pool.setEntry p.1 p.2 e).chain i = pool.chain i := by
  have after : Chained (pool.setEntry p.1 p.2 e) spares claimed := chained.setEntry placed main member
  rw [chained.chain_eq main, after.chain_eq main]
  rfl

/-- A chain grows by a bucket that its last bucket is linked to. -/
theorem BucketPool.Linked.extend {pool pool' : BucketPool} {bkt next : Nat} {rest : List Nat} {last : Nat}
    (linked : pool.Linked (bkt :: rest)) (nodup : (bkt :: rest).Nodup)
    (end_ : (bkt :: rest).getLast (by simp) = last)
    (same : ∀ c ∈ bkt :: rest, c ≠ last → (pool'.cells c).offset = (pool.cells c).offset)
    (link : nextSpareBucket pool' last = some next) (stop : nextSpareBucket pool' next = none) :
    pool'.Linked (bkt :: (rest ++ [next])) := by
  induction rest generalizing bkt with
  | nil =>
    obtain rfl : bkt = last := end_
    exact ⟨link, stop⟩
  | cons following rest ih =>
    have inner : (following :: rest).getLast (by simp) = last := by simpa using end_
    have inside : last ∈ following :: rest := inner ▸ List.getLast_mem (by simp)
    have away : bkt ≠ last := fun here => (List.nodup_cons.mp nodup).1 (here ▸ inside)
    refine ⟨?_, ih linked.2 (List.nodup_cons.mp nodup).2 inner
      fun c member => same c (List.mem_cons_of_mem _ member)⟩
    have kept := same bkt (by simp) away
    have before := linked.1
    simp only [nextSpareBucket] at before ⊢
    rw [kept]
    exact before

/-- The link to a spare that lies behind the bucket leads there. -/
theorem BucketPool.Placed.link {pool pool' : BucketPool} {k bkt : Nat} (placed : pool.Placed)
    (spare : k < pool.spareSize) (low : pool.mains ≤ bkt) (before : bkt < pool.sparePtr k)
    (cell : (pool'.cells bkt).offset = sub64 (pool.sparePtr k) bkt % 2 ^ 32) :
    nextSpareBucket pool' bkt = some (pool.sparePtr k) := by
  have behind := placed.behind
  have size := placed.size_lt
  have end_le := placed.end_le
  have far : pool.sparePtr k + 128 ≤ pool.mains + 128 * (pool.mainSize + pool.spareSize) := by
    simp only [BucketPool.sparePtr]
    omega
  have offset : sub64 (pool.sparePtr k) bkt % 2 ^ 32 = pool.sparePtr k - bkt := by
    rw [sub64_of_le (by omega) (by omega), Nat.mod_eq_of_lt (by omega)]
  rw [nextSpareBucket, cell, offset, if_neg (by omega), add64_of_lt (by omega)]
  congr 1
  omega

/-- The pool after the next unclaimed spare is claimed and linked to a chain. -/
def BucketPool.claimNext (pool : BucketPool) (last claimed : Nat) : BucketPool :=
  (pool.setVersion (pool.sparePtr claimed) 2).setLink last (sub64 (pool.sparePtr claimed) last % 2 ^ 32)

theorem BucketPool.claimNext_other {pool : BucketPool} {claimed bkt last : Nat} (notLast : bkt ≠ last)
    (notSpare : bkt ≠ pool.sparePtr claimed) :
    (pool.claimNext last claimed).cells bkt = pool.cells bkt := by
  simp only [BucketPool.claimNext, BucketPool.setLink, BucketPool.setVersion, BucketPool.setCell]
  rw [Function.update_of_ne notLast, Function.update_of_ne notSpare]

theorem BucketPool.claimNext_spare {pool : BucketPool} {claimed last : Nat}
    (apart : last ≠ pool.sparePtr claimed) :
    (pool.claimNext last claimed).cells (pool.sparePtr claimed) =
      { pool.cells (pool.sparePtr claimed) with version := 2 } := by
  simp only [BucketPool.claimNext, BucketPool.setLink, BucketPool.setVersion, BucketPool.setCell]
  rw [Function.update_of_ne (Ne.symm apart), Function.update_self]

theorem BucketPool.claimNext_last {pool : BucketPool} {claimed last : Nat}
    (apart : last ≠ pool.sparePtr claimed) :
    (pool.claimNext last claimed).cells last =
      { pool.cells last with offset := sub64 (pool.sparePtr claimed) last % 2 ^ 32 } := by
  simp only [BucketPool.claimNext, BucketPool.setLink, BucketPool.setVersion, BucketPool.setCell]
  rw [Function.update_self, Function.update_of_ne apart]

/-- The last bucket of a chain lies below every unclaimed spare. -/
theorem Chained.last_below {pool : BucketPool} {spares : Nat → List Nat} {claimed i bkt : Nat}
    (chained : Chained pool spares claimed) (placed : pool.Placed) (main : i < pool.mainSize)
    (member : bkt ∈ pool.chain i) : pool.mains ≤ bkt ∧ bkt < pool.sparePtr claimed := by
  have behind := placed.behind
  rcases chained.mem_chain main member with rfl | ⟨k, -, below, rfl⟩ <;>
    simp only [BucketPool.mainPtr, BucketPool.sparePtr] <;> omega

/-- Claiming the next spare for a chain keeps the chains and appends it. -/
theorem Chained.claimNext {pool : BucketPool} {spares : Nat → List Nat} {claimed i : Nat}
    (chained : Chained pool spares claimed) (placed : pool.Placed) (main : i < pool.mainSize)
    (spare : claimed < pool.spareSize) {last : Nat}
    (end_ : (pool.mainPtr i :: (spares i).map pool.sparePtr).getLast (by simp) = last) :
    Chained (pool.claimNext last claimed) (Function.update spares i (spares i ++ [claimed])) (claimed + 1) := by
  have inside : last ∈ pool.chain i := by
    rw [chained.chain_eq main, ← end_]
    exact List.getLast_mem _
  obtain ⟨low, below⟩ := chained.last_below placed main inside
  have apart : last ≠ pool.sparePtr claimed := Nat.ne_of_lt below
  have unclaimed : ∀ j < pool.mainSize, claimed ∉ spares j := fun j other member =>
    Nat.lt_irrefl _ ((chained.owned claimed).mp ⟨j, other, member⟩)
  have fresh := chained.fresh claimed spare le_rfl
  refine ⟨fun j other => ?_, fun j other => ?_, fun j other k third different => ?_, fun k => ?_, spare,
    fun k earlier => ?_, fun k bound later => ?_⟩
  · by_cases here : j = i
    · subst here
      rw [Function.update_self, List.map_append, List.map_singleton]
      refine BucketPool.Linked.extend (chained.linked j main) (chained.chain_eq main ▸ chained.nodup placed main)
        end_ ?_ ?_ ?_
      · intro c member away
        have under := (chained.last_below placed main (chained.chain_eq main ▸ member)).2
        rw [BucketPool.claimNext_other away (Nat.ne_of_lt under)]
      · refine placed.link spare low below ?_
        rw [BucketPool.claimNext_last apart]
      · have cell := BucketPool.claimNext_spare apart
        rw [fresh] at cell
        simp only [nextSpareBucket]
        change (if ((pool.claimNext last claimed).cells (pool.sparePtr claimed)).offset = 0 then _ else _) = _
        rw [cell]
        rfl
    · rw [Function.update_of_ne here]
      refine (chained.linked j other).congr fun c member => ?_
      rw [← chained.chain_eq other] at member
      have under := (chained.last_below placed other member).2
      have elsewhere : c ≠ last := by
        rintro rfl
        exact chained.disjoint placed main other here inside member
      rw [BucketPool.claimNext_other elsewhere (Nat.ne_of_lt under)]
  · by_cases here : j = i
    · subst here
      rw [Function.update_self, List.pairwise_append]
      refine ⟨chained.upward j main, List.pairwise_singleton _ _, fun k member l single => ?_⟩
      rw [List.mem_singleton.mp single]
      exact (chained.owned k).mp ⟨j, main, member⟩
    · rw [Function.update_of_ne here]
      exact chained.upward j other
  · have both := chained.apart j other k third different
    by_cases here : j = i
    · subst here
      rw [Function.update_self, Function.update_of_ne (Ne.symm different), List.disjoint_append_left]
      exact ⟨both, List.singleton_disjoint.mpr (unclaimed k third)⟩
    · rw [Function.update_of_ne here]
      by_cases there : k = i
      · subst there
        rw [Function.update_self, List.disjoint_append_right]
        exact ⟨both, List.disjoint_singleton.mpr (unclaimed j other)⟩
      · rw [Function.update_of_ne there]
        exact both
  · rw [Nat.lt_succ_iff_lt_or_eq, ← chained.owned k]
    constructor
    · rintro ⟨j, other, member⟩
      by_cases here : j = i
      · subst here
        rw [Function.update_self, List.mem_append, List.mem_singleton] at member
        exact member.imp_left fun old => ⟨j, main, old⟩
      · rw [Function.update_of_ne here] at member
        exact Or.inl ⟨j, other, member⟩
    · rintro (⟨j, other, member⟩ | rfl)
      · refine ⟨j, other, ?_⟩
        by_cases here : j = i
        · subst here
          rw [Function.update_self]
          exact List.mem_append_left _ member
        · rwa [Function.update_of_ne here]
      · exact ⟨i, main, by simp⟩
  · change ((pool.claimNext last claimed).cells (pool.sparePtr k)).version = 2
    rcases Nat.lt_succ_iff_lt_or_eq.mp earlier with old | rfl
    · by_cases here : pool.sparePtr k = last
      · rw [here, BucketPool.claimNext_last apart, ← here]
        exact chained.claims k old
      · rw [BucketPool.claimNext_other here fun same => Nat.ne_of_lt old (BucketPool.sparePtr_inj.mp same)]
        exact chained.claims k old
    · rw [BucketPool.claimNext_spare apart]
  · change (pool.claimNext last claimed).cells (pool.sparePtr k) = emptyBucket
    have higher : pool.sparePtr claimed < pool.sparePtr k := by
      simp only [BucketPool.sparePtr]
      omega
    rw [BucketPool.claimNext_other (by omega) (by omega)]
    exact chained.fresh k bound (by omega)

/-- A full chain holds as many entries as it has slots. -/
theorem Chained.full_card {pool : BucketPool} {i : Nat} (full : pool.Full i) :
    (pool.contents i).card = bucketEntrySize * (pool.chain i).length := by
  have all : pool.contents i = (slots (pool.chain i) : Multiset (Nat × Nat)).map pool.entry := by
    rw [BucketPool.contents, BucketPool.held]
    refine Multiset.filter_eq_self.mpr fun e member => ?_
    obtain ⟨p, slot, rfl⟩ := Multiset.mem_map.mp member
    exact full p (Multiset.mem_coe.mp slot)
  rw [all, Multiset.card_map, Multiset.coe_card, slots_length]

/-- A chain holds no more entries than it has slots. -/
theorem BucketPool.contents_card_le (pool : BucketPool) (i : Nat) :
    (pool.contents i).card ≤ bucketEntrySize * (pool.chain i).length := by
  rw [BucketPool.contents, BucketPool.held]
  refine le_trans (Multiset.card_le_card (Multiset.filter_le _ _)) ?_
  rw [Multiset.card_map, Multiset.coe_card, slots_length]

end Fkv
