import Fkv.Bucket.Family

namespace Fkv
open CWord Runs

/-- `BUCKET_MEM_SIZE` of a 32-bit count. -/
def bucketMemSize (x : Nat) : Nat := (x <<< 7) % 2 ^ 32

/-- `create_bucket_pool` in a memory that held the buckets `before`, with the
length of the mapping. Only the mapping is set to zero. -/
def mapBucketPool (mmap : Nat → Option Nat) (before : Nat → Bucket) (mainSize spareSize : Nat) :
    Option (Nat × BucketPool) :=
  let totalSize := (mainSize + spareSize) % 2 ^ 32
  let memSize := bucketMemSize totalSize
  match mmap memSize with
  | none => none
  | some addr => some (memSize, { createBucketPool addr mainSize spareSize with
      cells := fun bkt => if addr ≤ bkt ∧ bkt + 128 ≤ addr + memSize then emptyBucket else before bkt })

def BucketPool.buckets (pool : BucketPool) : List Nat :=
  (List.range pool.mainSize).map pool.mainPtr ++ (List.range pool.spareSize).map pool.sparePtr

/-- The buckets lie apart in the mapping and are zero. -/
structure BucketPool.Inside (pool : BucketPool) (size : Nat) : Prop where
  within : ∀ bkt ∈ pool.buckets, pool.mains ≤ bkt ∧ bkt + 128 ≤ pool.mains + size
  zeroed : ∀ bkt ∈ pool.buckets, pool.cells bkt = emptyBucket
  apart : pool.buckets.Pairwise (fun b c => b + 128 ≤ c)

/-- An insert on main bucket `i` would find its chain full, with `bkt` the last
bucket, and link the spare `next` to it. -/
def BucketPool.Extends (pool : BucketPool) (i bkt next : Nat) : Prop :=
  pool.Full i ∧ (pool.chain i).getLast? = some bkt ∧ (nextEmptySpareBucket pool).1 = some next

/-- What an insert stores as a link leads to the spare it has claimed. -/
def BucketPool.Decodes (pool : BucketPool) : Prop :=
  ∀ i < pool.mainSize, ∀ bkt next, pool.Extends i bkt next → ∀ keyhash offset fuel, pool.spareSize < fuel →
    ∃ pool', insertIndexEntry keyhash offset fuel pool (pool.mainPtr i) = .ok (true, pool') ∧
      (pool'.cells bkt).offset ≠ 0 ∧ nextSpareBucket pool' bkt = some next

theorem bucketMemSize_eq {mainSize spareSize : Nat} :
    bucketMemSize ((mainSize + spareSize) % 2 ^ 32) = 128 * (mainSize + spareSize) % 2 ^ 32 := by
  rw [bucketMemSize, Nat.shiftLeft_eq]
  omega

theorem BucketPool.mem_buckets {pool : BucketPool} {bkt : Nat} : bkt ∈ pool.buckets ↔
    (∃ i < pool.mainSize, pool.mainPtr i = bkt) ∨ ∃ k < pool.spareSize, pool.sparePtr k = bkt := by
  simp [BucketPool.buckets]

/-- Where the pool is placed, every bucket lies in the space the sizes ask for. -/
theorem BucketPool.Placed.bounds {pool : BucketPool} {bkt : Nat} (placed : pool.Placed)
    (member : bkt ∈ pool.buckets) :
    pool.mains ≤ bkt ∧ bkt + 128 ≤ pool.mains + 128 * (pool.mainSize + pool.spareSize) := by
  have behind := placed.behind
  rcases BucketPool.mem_buckets.mp member with ⟨i, inside, rfl⟩ | ⟨k, inside, rfl⟩
  · simp only [BucketPool.mainPtr]
    omega
  · simp only [BucketPool.sparePtr]
    omega

theorem BucketPool.Placed.buckets_apart {pool : BucketPool} (placed : pool.Placed) :
    pool.buckets.Pairwise (fun b c => b + 128 ≤ c) := by
  have behind := placed.behind
  rw [BucketPool.buckets, List.pairwise_append, List.pairwise_map, List.pairwise_map]
  refine ⟨List.pairwise_lt_range.imp fun less => ?_, List.pairwise_lt_range.imp fun less => ?_,
    fun b main c spare => ?_⟩
  · simp only [BucketPool.mainPtr]
    omega
  · simp only [BucketPool.sparePtr]
    omega
  · obtain ⟨i, inside, rfl⟩ := List.mem_map.mp main
    obtain ⟨k, -, rfl⟩ := List.mem_map.mp spare
    have below := List.mem_range.mp inside
    simp only [BucketPool.mainPtr, BucketPool.sparePtr]
    omega

/-- Zeroed buckets are chains of their own. -/
theorem Chained.zeroed {pool : BucketPool} (zeroed : ∀ bkt ∈ pool.buckets, pool.cells bkt = emptyBucket) :
    Chained pool (fun _ => []) 0 := by
  refine ⟨fun i main => ?_, fun _ _ => .nil, fun _ _ _ _ _ => List.disjoint_nil_left [], by simp,
    Nat.zero_le _, by simp, fun k inside _ => zeroed _ (BucketPool.mem_buckets.mpr (Or.inr ⟨k, inside, rfl⟩))⟩
  show nextSpareBucket pool (pool.mainPtr i) = none
  rw [nextSpareBucket, zeroed _ (BucketPool.mem_buckets.mpr (Or.inl ⟨i, main, rfl⟩))]
  rfl

theorem Chained.decodes {pool : BucketPool} {spares : Nat → List Nat} {claimed : Nat}
    (chained : Chained pool spares claimed) (placed : pool.Placed) : pool.Decodes := by
  rintro i main bkt next ⟨full, last, claims⟩ keyhash offset fuel enough
  have spare : claimed < pool.spareSize := by
    rcases Nat.lt_or_eq_of_le chained.within with spare | all
    · exact spare
    · rw [chained.next_none all] at claims
      cases claims
  rw [chained.next_some spare] at claims
  cases claims
  rw [chained.chain_eq main, List.getLast?_eq_some_getLast (by simp), Option.some.injEq] at last
  have member : bkt ∈ pool.chain i := by
    rw [chained.chain_eq main, ← last]
    exact List.getLast_mem _
  obtain ⟨low, below⟩ := chained.last_below placed main member
  have apart : bkt ≠ pool.sparePtr claimed := Nat.ne_of_lt below
  refine ⟨_, chained.insert_extends placed main enough full spare keyhash offset last, ?_⟩
  have cell : ∀ e, (((pool.claimNext bkt claimed).setEntry (pool.sparePtr claimed) 0 e).cells bkt).offset =
      sub64 (pool.sparePtr claimed) bkt % 2 ^ 32 := by
    intro e
    rw [BucketPool.setEntry, BucketPool.setCell]
    simp only
    rw [Function.update_of_ne apart, BucketPool.claimNext_last apart]
  have link := placed.link spare low below (cell ⟨lookupKeyTagHashPortion keyhash, offset % 2 ^ 48⟩)
  refine ⟨fun none => ?_, link⟩
  rw [nextSpareBucket, if_pos none] at link
  cases link

/-- A call keeps the chains, whatever offset it comes with. -/
theorem BucketPool.WellFormed.step {pool : BucketPool} {fuel : Nat} (wellFormed : pool.WellFormed)
    (call : IndexCall) (main : call.args.main < pool.mainSize) (enough : pool.spareSize < fuel) :
    ∃ pool', indexStep fuel pool call = .ok pool' ∧ pool'.WellFormed ∧ pool.Alike pool' := by
  obtain ⟨placed, spares, claimed, chained⟩ := wellFormed
  cases call with
  | insert args =>
    have inside : args.main < pool.mainSize := main
    rcases chained.insert placed inside enough args.keyhash args.offset with
      ⟨pool', spares', claimed', run, alike, chained', -⟩ | ⟨run, -⟩
    · exact ⟨pool', by simp only [indexStep, performIndex, run, ok_bind],
        ⟨alike.placed placed, _, _, chained'⟩, alike⟩
    · exact ⟨pool, by simp only [indexStep, performIndex, run, ok_bind], ⟨placed, _, _, chained⟩, .refl pool⟩
  | delete args =>
    have inside : args.main < pool.mainSize := main
    obtain ⟨pool', run, alike, chained', -⟩ := chained.delete placed inside enough args.keyhash args.offset
    exact ⟨pool', by simp only [indexStep, performIndex, run, ok_bind],
      ⟨alike.placed placed, _, _, chained'⟩, alike⟩

theorem BucketPool.WellFormed.throughout {pool : BucketPool} {fuel : Nat} {calls : List IndexCall}
    (wellFormed : pool.WellFormed) (enough : pool.spareSize < fuel)
    (mains : ∀ call ∈ calls, call.args.main < pool.mainSize) :
    Throughout (indexStep fuel) BucketPool.Decodes calls pool := by
  induction calls generalizing pool with
  | nil =>
    obtain ⟨placed, spares, claimed, chained⟩ := wellFormed
    exact chained.decodes placed
  | cons call calls ih =>
    obtain ⟨pool', step, kept, alike⟩ := wellFormed.step call (mains call (by simp)) enough
    obtain ⟨placed, spares, claimed, chained⟩ := wellFormed
    refine ⟨chained.decodes placed, pool', step, ih kept (alike.spareSize ▸ enough) fun later member => ?_⟩
    rw [alike.mainSize]
    exact mains later (by simp [member])

/-- A pool that was created has all its buckets in the mapping, and all its links
lead back, exactly when the bytes of the buckets can be counted in 32 bits. -/
theorem pool_sound_iff (mmap : Nat → Option Nat) (before : Nat → Bucket) (mainSize spareSize size : Nat)
    (pool : BucketPool) (empty : mmap 0 = none) (within : ∀ n a, mmap n = some a → a + n ≤ 2 ^ 64)
    (created : mapBucketPool mmap before mainSize spareSize = some (size, pool)) :
    (pool.Inside size ∧ ∀ fuel calls, spareSize < fuel → (∀ call ∈ calls, call.args.main < mainSize) →
      Throughout (indexStep fuel) BucketPool.Decodes calls pool) ↔ 128 * (mainSize + spareSize) < 2 ^ 32 := by
  rw [mapBucketPool, bucketMemSize_eq] at created
  simp only at created
  cases mapped : mmap (128 * (mainSize + spareSize) % 2 ^ 32) with
  | none =>
    rw [mapped] at created
    cases created
  | some addr =>
    rw [mapped] at created
    cases created
    have some : 0 < mainSize + spareSize := by
      by_contra none
      have zero : 128 * (mainSize + spareSize) % 2 ^ 32 = 0 := by omega
      rw [zero, empty] at mapped
      cases mapped
    constructor
    · rintro ⟨inside, -⟩
      by_contra large
      rcases Nat.eq_zero_or_pos spareSize with rfl | spare
      · have last := (inside.within _
          (BucketPool.mem_buckets.mpr (Or.inl ⟨mainSize - 1, Nat.sub_lt some Nat.one_pos, rfl⟩))).2
        simp only [createBucketPool, BucketPool.mainPtr] at last
        omega
      · have last := (inside.within _
          (BucketPool.mem_buckets.mpr (Or.inr ⟨spareSize - 1, Nat.sub_lt spare Nat.one_pos, rfl⟩))).2
        simp only [createBucketPool, BucketPool.sparePtr] at last
        omega
    · intro small
      rw [Nat.mod_eq_of_lt small] at mapped ⊢
      obtain ⟨made, named⟩ : ∃ made, made = { createBucketPool addr mainSize spareSize with
        cells := fun bkt =>
          if addr ≤ bkt ∧ bkt + 128 ≤ addr + 128 * (mainSize + spareSize) then emptyBucket else before bkt } :=
        ⟨_, rfl⟩
      have placed : made.Placed := by
        rw [named]
        exact ⟨rfl, small, within _ _ mapped⟩
      have zeroed : ∀ bkt ∈ made.buckets, made.cells bkt = emptyBucket := by
        intro bkt member
        have bounds := placed.bounds member
        rw [named] at bounds ⊢
        exact if_pos bounds
      have inside : made.Inside (128 * (mainSize + spareSize)) := by
        refine ⟨fun bkt member => ?_, zeroed, placed.buckets_apart⟩
        have bounds := placed.bounds member
        rw [named] at bounds ⊢
        exact bounds
      have wellFormed : made.WellFormed := ⟨placed, _, _, Chained.zeroed zeroed⟩
      rw [← named]
      refine ⟨inside, fun fuel calls enough mains => wellFormed.throughout ?_ ?_⟩
      · rw [named]
        exact enough
      · rw [named]
        exact mains

/-- An `mmap` that maps up to 4 GB at one place. -/
def mapLow (n : Nat) : Option Nat := if n = 0 ∨ 2 ^ 32 < n then none else some 4096

theorem pool_sound_iff_small : ∃ pool, mapBucketPool mapLow (fun _ => emptyBucket) 1 1 = some (256, pool) ∧
    ((pool.Inside 256 ∧ ∀ fuel calls, 1 < fuel → (∀ call ∈ calls, call.args.main < 1) →
      Throughout (indexStep fuel) BucketPool.Decodes calls pool) ↔ 128 * (1 + 1) < 2 ^ 32) := by
  refine ⟨_, rfl, pool_sound_iff mapLow (fun _ => emptyBucket) 1 1 256 _ rfl (fun n a mapped => ?_) rfl⟩
  unfold mapLow at mapped
  split at mapped
  · cases mapped
  · cases mapped
    omega

/-- With 2^25 main buckets and one spare the mapping is one bucket long. -/
theorem pool_outgrows_mapping : ∃ pool, mapBucketPool mapLow (fun _ => emptyBucket) (2 ^ 25) 1 = some (128, pool) ∧
    ¬ pool.Inside 128 := by
  refine ⟨_, rfl, fun inside => ?_⟩
  have second := (inside.within _ (BucketPool.mem_buckets.mpr (Or.inl ⟨1, by decide, rfl⟩))).2
  simp [createBucketPool, BucketPool.mainPtr] at second

end Fkv
