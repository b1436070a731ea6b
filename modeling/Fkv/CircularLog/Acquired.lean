import Fkv.CircularLog.Lifetime
import Fkv.CircularLog.Table

namespace Fkv.Table
open ByteMemory Host Runs

/-- An allocator that was made holds its mapping. -/
theorem createMemAllocator_maps {failAt memSize : Nat} {file : Path} {host host' : Host Path}
    {allocator : MemAllocator} (run : createMemAllocator failAt file memSize host = .ok (some allocator, host')) :
    host'.maps = allocator.addr ::ₘ host.maps := by
  obtain ⟨tries, heap, fds, maps, files⟩ := host
  by_cases opening : failAt = tries
  · subst opening
    rw [createMemAllocator_open_fails] at run
    cases run
  by_cases mapping : tries + 1 = failAt ∨ memSize = 0
  · rw [createMemAllocator_mmap_fails (Ne.symm opening) mapping] at run
    cases run
  obtain ⟨mapped, sized⟩ := not_or.mp mapping
  by_cases last : tries + 2 = failAt
  · rw [createMemAllocator_malloc_fails sized last] at run
    cases run
  · rw [createMemAllocator_succeeds sized (by omega)] at run
    cases run
    rfl

/-- `create_bucket_pool` returns a pool at the address of its mapping, where there are
the buckets of `mapBucketPool`; or it returns none and keeps no mapping. -/
theorem createBucketPool_maps (failAt : Nat) (file : Path) (mainSize spareSize : Nat) (host : Host Path)
    (place : Nat → Nat) (before : Nat → Bucket) :
    (∃ pool host', createBucketPool failAt file mainSize spareSize host = .ok (some pool, host') ∧
      host'.tries = host.tries + 4 ∧ host'.maps = pool.allocator.addr ::ₘ host.maps ∧
      ∃ buckets, mapBucketPool
        (fun length => (mmap failAt length { host with tries := host.tries + 2 }).1.map place) before
          mainSize spareSize = some (bucketMemSize ((mainSize + spareSize) % 2 ^ 32), buckets) ∧
        buckets.mains = place pool.allocator.addr) ∨
    ∃ host', createBucketPool failAt file mainSize spareSize host = .ok (none, host') ∧
      host'.maps = host.maps := by
  obtain ⟨tries, heap, fds, maps, files⟩ := host
  by_cases fails : (tries ≤ failAt ∧ failAt < tries + 4) ∨ bucketMemSize ((mainSize + spareSize) % 2 ^ 32) = 0
  · obtain ⟨tries', files', run⟩ := createBucketPool_none file heap fds maps files fails
    exact Or.inr ⟨_, run, rfl⟩
  · obtain ⟨within, sized⟩ := not_or.mp fails
    refine Or.inl ⟨_, _, createBucketPool_succeeds sized (by omega), rfl, rfl, ?_⟩
    simp only [mapBucketPool, mmap_some (show tries + 2 ≠ failAt by omega) sized, Option.map_some]
    exact ⟨_, rfl, rfl⟩

theorem createCircularLog_maps {failAt : Nat} {host host' : Host Path} {log : Option LogBlocks}
    (run : createCircularLog failAt host = .ok (log, host')) :
    host'.maps = host.maps := by
  obtain ⟨tries, heap, fds, maps, files⟩ := host
  by_cases first : tries = failAt
  · subst first
    rw [createCircularLog, malloc_none] at run
    cases run
    rfl
  by_cases second : tries + 1 = failAt
  · subst second
    rw [createCircularLog, malloc_some first] at run
    simp only [malloc_none, free_held, ok_bind] at run
    cases run
    rfl
  · rw [createCircularLog, malloc_some first] at run
    simp only [malloc_some second] at run
    cases run
    rfl

/-- The loop over the logs makes as many as are asked for, and maps nothing. -/
theorem createLogs_makes {failAt : Nat} {host host' : Host Path} {n : Nat} {logs logs' : List LogBlocks}
    (run : createLogs failAt n logs host = .ok (true, logs', host')) :
    logs'.length = logs.length + n ∧ host'.maps = host.maps := by
  induction n generalizing logs host with
  | zero =>
    cases run
    exact ⟨rfl, rfl⟩
  | succ n ih =>
    rw [createLogs] at run
    obtain ⟨⟨log, host₁⟩, made, rest⟩ := bind_eq_ok.mp run
    cases log with
    | none => cases rest
    | some log =>
      obtain ⟨length, maps⟩ := ih rest
      rw [List.length_append, List.length_singleton] at length
      exact ⟨by omega, maps.trans (createCircularLog_maps made)⟩

/-- A table that `create_kv_table` returns has its logs and holds the two mappings. -/
theorem createKvTable_maps {failAt nthread mainSize spareSize : Nat} {file : Path} {host host' : Host Path}
    {table : KvTableBlocks}
    (run : createKvTable failAt file nthread mainSize spareSize host = .ok (some table, host')) :
    table.logs.length = nthread ∧
    host'.maps = table.allocator.addr ::ₘ table.pool.allocator.addr ::ₘ host.maps := by
  obtain ⟨tries, heap, fds, maps, files⟩ := host
  by_cases first : tries = failAt
  · subst first
    rw [createKvTable, malloc_none] at run
    cases run
  rw [createKvTable, malloc_some first] at run
  obtain ⟨⟨pool, host₁⟩, pooled, run⟩ := bind_eq_ok.mp run
  rcases createBucketPool_maps failAt file mainSize spareSize ⟨tries + 1, tries ::ₘ heap, fds, maps, files⟩ id
      (fun _ => emptyBucket) with ⟨pool', host₁', pooled', -, maps₁, -⟩ | ⟨host₁', none, -⟩
  · cases pooled.symm.trans pooled'
    obtain ⟨⟨allocator, host₂⟩, allocated, run⟩ := bind_eq_ok.mp run
    cases allocator with
    | none =>
      obtain ⟨host₃, -, run⟩ := bind_eq_ok.mp run
      obtain ⟨host₄, -, run⟩ := bind_eq_ok.mp run
      cases run
    | some allocator =>
      have maps₂ := createMemAllocator_maps allocated
      obtain ⟨⟨made, logs, host₃⟩, loop, run⟩ := bind_eq_ok.mp run
      cases made with
      | false =>
        simp only [Bool.false_eq_true, if_false] at run
        obtain ⟨host₄, -, run⟩ := bind_eq_ok.mp run
        obtain ⟨host₅, -, run⟩ := bind_eq_ok.mp run
        obtain ⟨host₆, -, run⟩ := bind_eq_ok.mp run
        obtain ⟨host₇, -, run⟩ := bind_eq_ok.mp run
        cases run
      | true =>
        simp only [if_true] at run
        cases run
        obtain ⟨length, maps₃⟩ := createLogs_makes loop
        rw [List.length_nil, Nat.zero_add] at length
        exact ⟨length, by rw [maps₃, maps₂, maps₁]⟩
  · cases pooled.symm.trans none
    obtain ⟨host₂, -, run⟩ := bind_eq_ok.mp run
    cases run

/-- At the addresses of these mappings the contents of the table are created, as many
logs as it has blocks for, and the table is fresh. -/
theorem createKvTable_fresh {failAt mainSize spareSize : Nat} {file : Path} {host host' : Host Path} (L : Logs)
    (hash : List UInt8 → Nat) (log : Nat → Nat) (raw : Nat → SegregatedFits) (m : Mem) (place : Nat → Nat)
    {table : KvTableBlocks}
    (run : createKvTable failAt file L.logSize mainSize spareSize host = .ok (some table, host'))
    (base : L.baseAddr = place table.allocator.addr) (selves : ∀ l, (raw l).self = (L.arena l).self)
    (mains : 1 ≤ mainSize) (size : 128 * (mainSize + spareSize) < 2 ^ 32)
    (mapped : place table.pool.allocator.addr + 128 * (mainSize + spareSize) ≤ 2 ^ 64) :
    table.allocator.addr ∈ host'.maps ∧ table.pool.allocator.addr ∈ host'.maps ∧
      ∃ t, KvTable.create raw m (place table.pool.allocator.addr) (place table.allocator.addr) table.logs.length
        mainSize spareSize = .ok t ∧ (L.setting hash log).Fresh t := by
  obtain ⟨length, maps⟩ := createKvTable_maps run
  obtain ⟨t, created, fresh, -⟩ :=
    KvTable.create_fresh L hash log raw m (place table.pool.allocator.addr) mainSize spareSize selves mains
      size mapped
  rw [maps, length, ← base]
  exact ⟨by simp, by simp, t, created, fresh⟩

end Fkv.Table
