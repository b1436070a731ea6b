import Fkv.Lib.Host
import Fkv.Lib.Runs
import Fkv.Bucket.Create
import Fkv.CircularLog.Model

namespace Fkv.Table
open Host Runs

/-- A file name as the bytes in front of its terminator. -/
abbrev Path := List Char

/-- What `snprintf` leaves of a name in a buffer of `PATH_MAX` bytes. -/
def clip (name : Path) : Path := name.take 4095

def hugepagePath (file : Path) : Path := clip ("/mnt/hugetlbfs".toList ++ "/".toList ++ file ++ "_file".toList)

def bucketPath (file : Path) : Path := clip (file ++ "_bucket".toList)

structure MemAllocator where
  self : Nat
  fd : Nat
  addr : Nat
  filename : Path

structure PoolBlocks where
  self : Nat
  allocator : MemAllocator

structure LogBlocks where
  self : Nat
  sfits : Nat

structure KvTableBlocks where
  self : Nat
  pool : PoolBlocks
  allocator : MemAllocator
  logs : List LogBlocks

section Functions
variable (failAt : Nat)

def createMemAllocator (file : Path) (memSize : Nat) (host : Host Path) :
    Except Misuse (Option MemAllocator × Host Path) :=
  let path := hugepagePath file
  match openFile failAt path host with
  | (none, host) => .ok (none, host)
  | (some fd, host) =>
    match mmap failAt memSize host with
    | (none, host) => do
      let host ← close fd host
      .ok (none, unlink file host)
    | (some addr, host) =>
      match malloc failAt host with
      | (none, host) => do
        let host ← munmap addr host
        let host ← close fd host
        .ok (none, unlink file host)
      | (some self, host) => .ok (some ⟨self, fd, addr, path⟩, host)

def destroyMemAllocator (allocator : MemAllocator) (host : Host Path) : Except Misuse (Host Path) := do
  let host ← munmap allocator.addr host
  let host ← close allocator.fd host
  .ok (unlink allocator.filename host)

def createBucketPool (file : Path) (mainSize spareSize : Nat) (host : Host Path) :
    Except Misuse (Option PoolBlocks × Host Path) :=
  let path := bucketPath file
  match malloc failAt host with
  | (none, host) => .ok (none, host)
  | (some self, host) => do
    let memSize := bucketMemSize ((mainSize + spareSize) % 2 ^ 32)
    let (allocator, host) ← createMemAllocator failAt path memSize host
    match allocator with
    | none =>
      let host ← free self host
      .ok (none, host)
    | some allocator => .ok (some ⟨self, allocator⟩, host)

def destroyBucketPool (pool : PoolBlocks) (host : Host Path) : Except Misuse (Host Path) := do
  let host ← destroyMemAllocator pool.allocator host
  free pool.self host

/-- `create_segregated_fits` acquires one block. -/
def createCircularLog (host : Host Path) : Except Misuse (Option LogBlocks × Host Path) :=
  match malloc failAt host with
  | (none, host) => .ok (none, host)
  | (some self, host) =>
    match malloc failAt host with
    | (none, host) => do
      let host ← free self host
      .ok (none, host)
    | (some sfits, host) => .ok (some ⟨self, sfits⟩, host)

def destroyCircularLog (log : LogBlocks) (host : Host Path) : Except Misuse (Host Path) := do
  let host ← free log.sfits host
  free log.self host

/-- The loop of `create_kv_table` for the last `n` logs. -/
def createLogs : Nat → List LogBlocks → Host Path → Except Misuse (Bool × List LogBlocks × Host Path)
  | 0, logs, host => .ok (true, logs, host)
  | n + 1, logs, host => do
    let (log, host) ← createCircularLog failAt host
    match log with
    | none => .ok (false, logs, host)
    | some log => createLogs n (logs ++ [log]) host

def destroyLogs : List LogBlocks → Host Path → Except Misuse (Host Path)
  | [], host => .ok host
  | log :: logs, host => do
    let host ← destroyCircularLog log host
    destroyLogs logs host

def createKvTable (file : Path) (nthread mainSize spareSize : Nat) (host : Host Path) :
    Except Misuse (Option KvTableBlocks × Host Path) :=
  match malloc failAt host with
  | (none, host) => .ok (none, host)
  | (some self, host) => do
    let (pool, host) ← createBucketPool failAt file mainSize spareSize host
    match pool with
    | none =>
      let host ← free self host
      .ok (none, host)
    | some pool =>
      let (allocator, host) ← createMemAllocator failAt file (circularLogSize * nthread) host
      match allocator with
      | none =>
        let host ← destroyBucketPool pool host
        let host ← free self host
        .ok (none, host)
      | some allocator =>
        let (made, logs, host) ← createLogs failAt nthread [] host
        if made then .ok (some ⟨self, pool, allocator, logs⟩, host)
        else
          let host ← destroyLogs logs host
          let host ← destroyMemAllocator allocator host
          let host ← destroyBucketPool pool host
          let host ← free self host
          .ok (none, host)

end Functions

/-- The call returns NULL and holds what it held before, and all files it has
created are gone. -/
def LeavesNothing (failAt : Nat) (file : Path) (nthread mainSize spareSize : Nat) (host : Host Path) : Prop :=
  ∃ host', createKvTable failAt file nthread mainSize spareSize host = .ok (none, host') ∧
    host'.heap = host.heap ∧ host'.fds = host.fds ∧ host'.maps = host.maps ∧ host'.files ⊆ host.files

/-- The blocks of the logs. -/
def held : List LogBlocks → Multiset Nat
  | [] => 0
  | log :: logs => log.sfits ::ₘ log.self ::ₘ held logs

theorem held_append (logs : List LogBlocks) (log : LogBlocks) :
    held (logs ++ [log]) = log.sfits ::ₘ log.self ::ₘ held logs := by
  induction logs with
  | nil => rfl
  | cons first logs ih =>
    rw [List.cons_append, held, ih, held, Multiset.cons_swap first.self log.sfits,
      Multiset.cons_swap first.sfits log.sfits, Multiset.cons_swap first.self log.self,
      Multiset.cons_swap first.sfits log.self]

theorem createMemAllocator_open_fails {failAt memSize : Nat} {file : Path} {heap fds maps : Multiset Nat}
    {files : Finset Path} :
    createMemAllocator failAt file memSize ⟨failAt, heap, fds, maps, files⟩ =
      .ok (none, ⟨failAt + 1, heap, fds, maps, files⟩) := by
  rw [createMemAllocator, openFile_none]

/-- A failure behind the open leaves the file, unless it is the one that was named. -/
theorem createMemAllocator_mmap_fails {failAt tries memSize : Nat} {file : Path} {heap fds maps : Multiset Nat}
    {files : Finset Path} (opened : tries ≠ failAt) (fails : tries + 1 = failAt ∨ memSize = 0) :
    createMemAllocator failAt file memSize ⟨tries, heap, fds, maps, files⟩ =
      .ok (none, ⟨tries + 2, heap, fds, maps, (insert (hugepagePath file) files).erase file⟩) := by
  rw [createMemAllocator, openFile_some opened]
  simp only [mmap_none fails, close_held, ok_bind, unlink_eq]

theorem createMemAllocator_malloc_fails {failAt tries memSize : Nat} {file : Path}
    {heap fds maps : Multiset Nat} {files : Finset Path} (sized : memSize ≠ 0) (fails : tries + 2 = failAt) :
    createMemAllocator failAt file memSize ⟨tries, heap, fds, maps, files⟩ =
      .ok (none, ⟨tries + 3, heap, fds, maps, (insert (hugepagePath file) files).erase file⟩) := by
  subst fails
  rw [createMemAllocator, openFile_some (by omega)]
  simp only [mmap_some (show tries + 1 ≠ tries + 1 + 1 by omega) sized, malloc_none, close_held, munmap_held,
    ok_bind, unlink_eq]

theorem createMemAllocator_succeeds {failAt tries memSize : Nat} {file : Path} {heap fds maps : Multiset Nat}
    {files : Finset Path} (sized : memSize ≠ 0) (succeeds : failAt < tries ∨ tries + 3 ≤ failAt) :
    createMemAllocator failAt file memSize ⟨tries, heap, fds, maps, files⟩ =
      .ok (some ⟨tries + 2, tries, tries + 1, hugepagePath file⟩,
        ⟨tries + 3, (tries + 2) ::ₘ heap, tries ::ₘ fds, (tries + 1) ::ₘ maps,
        insert (hugepagePath file) files⟩) := by
  rw [createMemAllocator, openFile_some (by omega)]
  simp only [mmap_some (show tries + 1 ≠ failAt by omega) sized,
    malloc_some (show tries + 1 + 1 ≠ failAt by omega)]

theorem destroyMemAllocator_held {tries : Nat} {file : Path} {heap fds maps : Multiset Nat}
    {files : Finset Path} {self fd addr : Nat} :
    destroyMemAllocator ⟨self, fd, addr, file⟩ ⟨tries, heap, fd ::ₘ fds, addr ::ₘ maps, files⟩ =
      .ok ⟨tries, heap, fds, maps, files.erase file⟩ := by
  simp only [destroyMemAllocator, munmap_held, close_held, ok_bind, unlink_eq]

theorem destroyLogs_held {tries : Nat} {heap fds maps : Multiset Nat} {files : Finset Path}
    (logs : List LogBlocks) :
    destroyLogs logs ⟨tries, held logs + heap, fds, maps, files⟩ = .ok ⟨tries, heap, fds, maps, files⟩ := by
  induction logs with
  | nil => rw [destroyLogs, held, Multiset.zero_add]
  | cons log logs ih =>
    simp only [destroyLogs, destroyCircularLog, held, Multiset.cons_add, free_held, ok_bind, ih]

/-- The loop ends at a failure with the blocks of the logs made so far. -/
theorem createLogs_fails {failAt tries n : Nat} (logs : List LogBlocks) (reached : tries ≤ failAt)
    (within : failAt < tries + 2 * n) :
    ∃ logs' tries', ∀ heap fds maps files, createLogs failAt n logs ⟨tries, held logs + heap, fds, maps, files⟩ =
      .ok (false, logs', ⟨tries', held logs' + heap, fds, maps, files⟩) := by
  induction n generalizing tries logs with
  | zero => omega
  | succ n ih =>
    rcases Nat.eq_or_lt_of_le reached with rfl | first
    · refine ⟨logs, tries + 1, fun heap fds maps files => ?_⟩
      simp only [createLogs, createCircularLog, malloc_none, ok_bind]
    · rcases Nat.eq_or_lt_of_le first with rfl | second
      · refine ⟨logs, tries + 2, fun heap fds maps files => ?_⟩
        simp only [createLogs, createCircularLog, malloc_some (show tries ≠ tries + 1 by omega), malloc_none,
          free_held, ok_bind]
      · obtain ⟨logs', tries', next⟩ :=
          ih (logs ++ [⟨tries, tries + 1⟩]) (show tries + 2 ≤ failAt by omega) (by omega)
        refine ⟨logs', tries', fun heap fds maps files => ?_⟩
        have rest := next heap fds maps files
        rw [held_append, Multiset.cons_add, Multiset.cons_add] at rest
        simp only [createLogs, createCircularLog, malloc_some (show tries ≠ failAt by omega),
          malloc_some (show tries + 1 ≠ failAt by omega), ok_bind]
        exact rest

theorem createBucketPool_malloc_fails {failAt mainSize spareSize : Nat} {file : Path}
    {heap fds maps : Multiset Nat} {files : Finset Path} :
    createBucketPool failAt file mainSize spareSize ⟨failAt, heap, fds, maps, files⟩ =
      .ok (none, ⟨failAt + 1, heap, fds, maps, files⟩) := by
  rw [createBucketPool, malloc_none]

theorem createBucketPool_fails {failAt tries mainSize spareSize : Nat} {file : Path}
    {heap fds maps : Multiset Nat} {files files' : Finset Path} {tries' : Nat}
    (allocated : tries ≠ failAt)
    (fails : createMemAllocator failAt (bucketPath file) (bucketMemSize ((mainSize + spareSize) % 2 ^ 32))
      ⟨tries + 1, tries ::ₘ heap, fds, maps, files⟩ = .ok (none, ⟨tries', tries ::ₘ heap, fds, maps, files'⟩)) :
    createBucketPool failAt file mainSize spareSize ⟨tries, heap, fds, maps, files⟩ =
      .ok (none, ⟨tries', heap, fds, maps, files'⟩) := by
  rw [createBucketPool, malloc_some allocated]
  simp only [fails, ok_bind, free_held]

theorem createBucketPool_succeeds {failAt tries mainSize spareSize : Nat} {file : Path}
    {heap fds maps : Multiset Nat} {files : Finset Path}
    (sized : bucketMemSize ((mainSize + spareSize) % 2 ^ 32) ≠ 0)
    (succeeds : failAt < tries ∨ tries + 4 ≤ failAt) :
    createBucketPool failAt file mainSize spareSize ⟨tries, heap, fds, maps, files⟩ =
      .ok (some ⟨tries, ⟨tries + 3, tries + 1, tries + 2, hugepagePath (bucketPath file)⟩⟩,
        ⟨tries + 4, (tries + 3) ::ₘ tries ::ₘ heap, (tries + 1) ::ₘ fds, (tries + 2) ::ₘ maps,
          insert (hugepagePath (bucketPath file)) files⟩) := by
  rw [createBucketPool, malloc_some (by omega)]
  simp only [createMemAllocator_succeeds sized (show failAt < tries + 1 ∨ tries + 1 + 3 ≤ failAt by omega),
    ok_bind]

/-- The block of the allocator stays. -/
theorem destroyBucketPool_leaks {tries : Nat} {file : Path} {heap fds maps : Multiset Nat} {files : Finset Path}
    {self block fd addr : Nat} :
    destroyBucketPool ⟨self, ⟨block, fd, addr, file⟩⟩
        ⟨tries, block ::ₘ self ::ₘ heap, fd ::ₘ fds, addr ::ₘ maps, files⟩ =
      .ok ⟨tries, block ::ₘ heap, fds, maps, files.erase file⟩ := by
  rw [destroyBucketPool, destroyMemAllocator_held, ok_bind, Multiset.cons_swap, free_held]

theorem createKvTable_pool_fails {failAt tries nthread mainSize spareSize : Nat} {file : Path}
    {heap fds maps : Multiset Nat} {files : Finset Path} {tries' : Nat} {files' : Finset Path}
    (allocated : tries ≠ failAt)
    (fails : createBucketPool failAt file mainSize spareSize ⟨tries + 1, tries ::ₘ heap, fds, maps, files⟩ =
      .ok (none, ⟨tries', tries ::ₘ heap, fds, maps, files'⟩)) :
    createKvTable failAt file nthread mainSize spareSize ⟨tries, heap, fds, maps, files⟩ =
      .ok (none, ⟨tries', heap, fds, maps, files'⟩) := by
  rw [createKvTable, malloc_some allocated]
  simp only [fails, ok_bind, free_held]

/-- A failure up to the open of the bucket file leaves everything as it was. -/
theorem createKvTable_early {failAt tries nthread mainSize spareSize : Nat} {file : Path}
    {heap fds maps : Multiset Nat} {files : Finset Path} (reached : tries ≤ failAt) (early : failAt ≤ tries + 2) :
    createKvTable failAt file nthread mainSize spareSize ⟨tries, heap, fds, maps, files⟩ =
      .ok (none, ⟨failAt + 1, heap, fds, maps, files⟩) := by
  obtain rfl | rfl | rfl : failAt = tries ∨ failAt = tries + 1 ∨ failAt = tries + 2 := by omega
  · rw [createKvTable, malloc_none]
  · exact createKvTable_pool_fails (by omega) createBucketPool_malloc_fails
  · exact createKvTable_pool_fails (by omega) (createBucketPool_fails (by omega) createMemAllocator_open_fails)

/-- A failure while the bucket file is mapped leaves the file. -/
theorem createKvTable_middle {failAt tries mainSize spareSize : Nat} (file : Path) (nthread : Nat)
    (heap fds maps : Multiset Nat) (files : Finset Path) (opened : tries + 3 ≤ failAt)
    (fails : failAt ≤ tries + 4 ∨ bucketMemSize ((mainSize + spareSize) % 2 ^ 32) = 0) :
    ∃ tries', createKvTable failAt file nthread mainSize spareSize ⟨tries, heap, fds, maps, files⟩ =
      .ok (none, ⟨tries', heap, fds, maps,
        (insert (hugepagePath (bucketPath file)) files).erase (bucketPath file)⟩) := by
  by_cases mapping : tries + 3 = failAt ∨ bucketMemSize ((mainSize + spareSize) % 2 ^ 32) = 0
  · exact ⟨_, createKvTable_pool_fails (by omega) (createBucketPool_fails (by omega)
      (createMemAllocator_mmap_fails (by omega) mapping))⟩
  · rw [not_or] at mapping
    exact ⟨_, createKvTable_pool_fails (by omega) (createBucketPool_fails (by omega)
      (createMemAllocator_malloc_fails mapping.2 (by omega)))⟩

/-- Without the second allocator the call leaves the block of the first. -/
theorem createKvTable_unwinds {failAt tries nthread mainSize spareSize : Nat} {file : Path}
    {heap fds maps : Multiset Nat} {files : Finset Path}
    (sized : bucketMemSize ((mainSize + spareSize) % 2 ^ 32) ≠ 0) (later : tries + 5 ≤ failAt) {tries' : Nat}
    {files' : Finset Path} (fails : ∀ heap fds maps, createMemAllocator failAt file (circularLogSize * nthread)
      ⟨tries + 5, heap, fds, maps, insert (hugepagePath (bucketPath file)) files⟩ =
        .ok (none, ⟨tries', heap, fds, maps, files'⟩)) :
    createKvTable failAt file nthread mainSize spareSize ⟨tries, heap, fds, maps, files⟩ =
      .ok (none, ⟨tries', (tries + 4) ::ₘ heap, fds, maps, files'.erase (hugepagePath (bucketPath file))⟩) := by
  rw [createKvTable, malloc_some (by omega)]
  simp only [createBucketPool_succeeds sized (Or.inr (show tries + 1 + 4 ≤ failAt by omega)), fails, ok_bind,
    destroyBucketPool_leaks]
  rw [Multiset.cons_swap, free_held, ok_bind]

/-- With the second allocator a failure among the logs leaves both blocks. -/
theorem createKvTable_logs_fail {failAt tries nthread mainSize spareSize : Nat} {file : Path}
    {heap fds maps : Multiset Nat} {files : Finset Path}
    (sized : bucketMemSize ((mainSize + spareSize) % 2 ^ 32) ≠ 0) (later : tries + 5 ≤ failAt)
    (behind : tries + 8 ≤ failAt) (reached : failAt < tries + 8 + 2 * nthread) :
    ∃ tries', createKvTable failAt file nthread mainSize spareSize ⟨tries, heap, fds, maps, files⟩ =
      .ok (none, ⟨tries', (tries + 4) ::ₘ (tries + 7) ::ₘ heap, fds, maps,
        ((insert (hugepagePath file) (insert (hugepagePath (bucketPath file)) files)).erase
          (hugepagePath file)).erase (hugepagePath (bucketPath file))⟩) := by
  have length : circularLogSize * nthread ≠ 0 := by
    rw [circularLogSize]
    omega
  obtain ⟨logs, tries', stops⟩ := createLogs_fails [] behind reached
  simp only [held, Multiset.zero_add] at stops
  refine ⟨tries', ?_⟩
  rw [createKvTable, malloc_some (by omega)]
  simp only [createBucketPool_succeeds sized (Or.inr (show tries + 1 + 4 ≤ failAt by omega)), ok_bind,
    createMemAllocator_succeeds length (Or.inr (show tries + 1 + 4 + 3 ≤ failAt by omega)), stops,
    Bool.false_eq_true, if_false, destroyLogs_held, destroyMemAllocator_held]
  rw [Multiset.cons_swap (tries + 1 + 4 + 2), Multiset.cons_swap (tries + 1 + 4 + 2), destroyBucketPool_leaks,
    ok_bind, Multiset.cons_swap _ tries, Multiset.cons_swap _ tries, free_held, ok_bind]

/-- A later failure leaves a block of an allocator behind. -/
theorem createKvTable_late {failAt tries nthread mainSize spareSize : Nat}
    (sized : bucketMemSize ((mainSize + spareSize) % 2 ^ 32) ≠ 0) (later : tries + 5 ≤ failAt) (file : Path)
    (heap fds maps : Multiset Nat) (files : Finset Path) (reached : failAt < tries + 8 + 2 * nthread) :
    ∃ host', createKvTable failAt file nthread mainSize spareSize ⟨tries, heap, fds, maps, files⟩ =
      .ok (none, host') ∧ heap < host'.heap := by
  by_cases logs : tries + 8 ≤ failAt
  · obtain ⟨tries', run⟩ := createKvTable_logs_fail sized later logs reached
    exact ⟨_, run, (Multiset.lt_cons_self _ _).trans (Multiset.lt_cons_self _ _)⟩
  · by_cases opening : failAt = tries + 5
    · subst opening
      exact ⟨_, createKvTable_unwinds sized later fun heap fds maps => createMemAllocator_open_fails,
        Multiset.lt_cons_self _ _⟩
    · by_cases mapping : tries + 5 + 1 = failAt ∨ circularLogSize * nthread = 0
      · exact ⟨_, createKvTable_unwinds sized later fun heap fds maps => createMemAllocator_mmap_fails
          (by omega) mapping, Multiset.lt_cons_self _ _⟩
      · rw [not_or] at mapping
        exact ⟨_, createKvTable_unwinds sized later fun heap fds maps =>
          createMemAllocator_malloc_fails mapping.2 (by omega), Multiset.lt_cons_self _ _⟩

/-- The failure of one acquisition leaves nothing behind exactly when it comes
before the bucket file is opened, or before the second allocator and with the
bucket file there already. -/
theorem create_leaves_nothing_iff (failAt : Nat) (file : Path) (nthread mainSize spareSize : Nat)
    (host : Host Path) (single : failAt < 8 + 2 * nthread) :
    LeavesNothing (host.tries + failAt) file nthread mainSize spareSize host ↔
      failAt ≤ 2 ∨ (failAt ≤ 4 ∨ bucketMemSize ((mainSize + spareSize) % 2 ^ 32) = 0) ∧
        (hugepagePath (bucketPath file) ∈ host.files ∨ bucketPath file = hugepagePath (bucketPath file)) := by
  obtain ⟨tries, heap, fds, maps, files⟩ := host
  by_cases early : failAt ≤ 2
  · simp only [early, true_or, iff_true]
    exact ⟨_, createKvTable_early (Nat.le_add_right _ _) (Nat.add_le_add_left early _), rfl, rfl, rfl, subset_rfl⟩
  · by_cases middle : failAt ≤ 4 ∨ bucketMemSize ((mainSize + spareSize) % 2 ^ 32) = 0
    · obtain ⟨tries', run⟩ :=
        createKvTable_middle file nthread heap fds maps files (show tries + 3 ≤ tries + failAt by omega)
          (middle.imp_left fun below => Nat.add_le_add_left below tries)
      simp only [early, middle, false_or, true_and]
      constructor
      · rintro ⟨host', run', -, -, -, none⟩
        rw [run] at run'
        cases run'
        by_cases same : bucketPath file = hugepagePath (bucketPath file)
        · exact Or.inr same
        · exact Or.inl (none (Finset.mem_erase.mpr ⟨Ne.symm same, Finset.mem_insert_self _ _⟩))
      · intro none
        refine ⟨_, run, rfl, rfl, rfl, fun path member => ?_⟩
        obtain ⟨other, inserted⟩ := Finset.mem_erase.mp member
        rcases Finset.mem_insert.mp inserted with rfl | old
        · exact none.resolve_right fun same => other same.symm
        · exact old
    · have failing : ¬ (failAt ≤ 2 ∨ (failAt ≤ 4 ∨ bucketMemSize ((mainSize + spareSize) % 2 ^ 32) = 0) ∧
          (hugepagePath (bucketPath file) ∈ files ∨ bucketPath file = hugepagePath (bucketPath file))) :=
        fun holds => holds.elim early fun both => middle both.1
      rw [not_or] at middle
      obtain ⟨host', run, leaked⟩ :=
        createKvTable_late middle.2 (show tries + 5 ≤ tries + failAt by omega) file heap fds maps files
          (show tries + failAt < tries + 8 + 2 * nthread by omega)
      refine iff_of_false ?_ failing
      rintro ⟨host'', run', same, -⟩
      rw [run] at run'
      cases run'
      exact leaked.ne' same

/-- Nothing is held and there are no files. -/
def bareHost : Host Path := ⟨0, 0, 0, 0, ∅⟩

theorem create_leaves_nothing_iff_bare : LeavesNothing (0 + 2) "kv".toList 1 1 1 bareHost ↔
    2 ≤ 2 ∨ (2 ≤ 4 ∨ bucketMemSize ((1 + 1) % 2 ^ 32) = 0) ∧
      (hugepagePath (bucketPath "kv".toList) ∈ bareHost.files ∨
        bucketPath "kv".toList = hugepagePath (bucketPath "kv".toList)) :=
  create_leaves_nothing_iff 2 "kv".toList 1 1 1 bareHost (by decide)

/-- The bucket file stays when it cannot be mapped: it is not the file that is
unlinked. -/
theorem create_leaves_file : ¬ LeavesNothing 3 "kv".toList 1 1 1 bareHost := by
  rintro ⟨host', run', -, -, -, none⟩
  obtain ⟨tries', run⟩ := createKvTable_middle "kv".toList 1 0 0 0 ∅ (show 0 + 3 ≤ 3 by decide)
    (Or.inl (by decide))
  rw [bareHost, run] at run'
  cases run'
  have other : bucketPath "kv".toList ≠ hugepagePath (bucketPath "kv".toList) := by decide +kernel
  exact Finset.notMem_empty _ (none (Finset.mem_erase.mpr ⟨Ne.symm other, Finset.mem_insert_self _ _⟩))

end Fkv.Table
