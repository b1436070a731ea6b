import Mathlib.Algebra.BigOperators.Group.List.Basic
import Mathlib.Algebra.Order.Group.Multiset
import Mathlib.Tactic.Abel
import Fkv.CircularLog.Create

namespace Fkv.Table
open Host Runs

def destroyKvTable (table : KvTableBlocks) (host : Host Path) : Except Misuse (Host Path) := do
  let host ← destroyLogs table.logs host
  let host ← destroyMemAllocator table.allocator host
  let host ← destroyBucketPool table.pool host
  free table.self host

/-- A program that makes and destroys tables. Its `create` calls meet a failing
acquisition after `fail` others, if they come so far. -/
inductive TableCall
  | create (fail : Nat) (file : Path) (nthread mainSize spareSize : Nat)
  | destroy (i : Nat)

structure Tables where
  host : Host Path
  live : List KvTableBlocks

/-- The pointer that a failing `create` returns is never used. -/
def Tables.step (s : Tables) : TableCall → Except Misuse Tables
  | .create fail file nthread mainSize spareSize => do
    let (table, host) ← createKvTable (s.host.tries + fail) file nthread mainSize spareSize s.host
    .ok ⟨host, table.toList ++ s.live⟩
  | .destroy i =>
    match s.live[i]? with
    | none => .ok s
    | some table => do
      let host ← destroyKvTable table s.host
      .ok ⟨host, s.live.eraseIdx i⟩

namespace KvTableBlocks

/-- The heap blocks of a table without those of its two allocators. -/
def blocks (table : KvTableBlocks) : Multiset Nat := held table.logs + {table.pool.self, table.self}

def fds (table : KvTableBlocks) : Multiset Nat := {table.allocator.fd, table.pool.allocator.fd}

def maps (table : KvTableBlocks) : Multiset Nat := {table.allocator.addr, table.pool.allocator.addr}

end KvTableBlocks

namespace TableCall

/-- How many allocators a call makes. -/
def allocators : TableCall → Nat
  | .create fail _ nthread mainSize spareSize =>
    if fail ≤ 4 ∨ bucketMemSize ((mainSize + spareSize) % 2 ^ 32) = 0 then 0 else if fail ≤ 7 ∨
    nthread = 0 then 1 else 2
  | .destroy _ => 0

/-- The names under which a call may make files or take them away. -/
def paths : TableCall → List Path
  | .create _ file _ _ _ => [hugepagePath file, hugepagePath (bucketPath file), file, bucketPath file]
  | .destroy _ => []

end TableCall

/-- The allocators that the calls of `create_mem_allocator` within a call of
`create_kv_table` return. -/
def madeAllocators (failAt : Nat) (file : Path) (nthread mainSize spareSize : Nat) (host : Host Path) :
    List MemAllocator :=
  match malloc failAt host with
  | (none, _) => []
  | (some _, host) =>
    match createBucketPool failAt file mainSize spareSize host with
    | .ok (some pool, host) =>
      match createMemAllocator failAt file (circularLogSize * nthread) host with
      | .ok (some allocator, _) => [pool.allocator, allocator]
      | _ => [pool.allocator]
    | _ => []

theorem createMemAllocator_fails {failAt tries memSize : Nat} (file : Path) (files : Finset Path)
    (fails : (tries ≤ failAt ∧ failAt < tries + 3) ∨ memSize = 0) :
    ∃ tries' files', (∀ heap fds maps, createMemAllocator failAt file memSize ⟨tries, heap, fds, maps, files⟩ =
      .ok (none, ⟨tries', heap, fds, maps, files'⟩)) ∧
      ∀ path, path ≠ hugepagePath file → path ≠ file → (path ∈ files' ↔ path ∈ files) := by
  by_cases opening : failAt = tries
  · subst opening
    exact ⟨_, _, fun heap fds maps => createMemAllocator_open_fails, fun path _ _ => Iff.rfl⟩
  · by_cases mapping : tries + 1 = failAt ∨ memSize = 0
    · exact ⟨_, _, fun heap fds maps => createMemAllocator_mmap_fails (Ne.symm opening) mapping,
        fun path _ _ => by simp [*]⟩
    · obtain ⟨mapped, sized⟩ := not_or.mp mapping
      exact ⟨_, _, fun heap fds maps => createMemAllocator_malloc_fails sized (by omega),
        fun path _ _ => by simp [*]⟩

theorem createBucketPool_none {failAt tries mainSize spareSize : Nat} (file : Path)
    (heap fds maps : Multiset Nat) (files : Finset Path)
    (fails : (tries ≤ failAt ∧ failAt < tries + 4) ∨ bucketMemSize ((mainSize + spareSize) % 2 ^ 32) = 0) :
    ∃ tries' files', createBucketPool failAt file mainSize spareSize ⟨tries, heap, fds, maps, files⟩ =
      .ok (none, ⟨tries', heap, fds, maps, files'⟩) := by
  by_cases first : failAt = tries
  · subst first
    exact ⟨_, _, createBucketPool_malloc_fails⟩
  · obtain ⟨tries', files', none, -⟩ := createMemAllocator_fails (bucketPath file) files
      (fails.imp_left fun within => (show tries + 1 ≤ failAt ∧ failAt < tries + 1 + 3 by omega))
    exact ⟨_, _, createBucketPool_fails (Ne.symm first) (none ..)⟩

/-- They are as many as the numbers of acquisitions say. -/
theorem madeAllocators_length (fail : Nat) (file : Path) (nthread mainSize spareSize : Nat) (host : Host Path) :
    (madeAllocators (host.tries + fail) file nthread mainSize spareSize host).length =
      (TableCall.create fail file nthread mainSize spareSize).allocators := by
  obtain ⟨tries, heap, fds, maps, files⟩ := host
  show (madeAllocators (tries + fail) file nthread mainSize spareSize ⟨tries, heap, fds, maps, files⟩).length = _
  rw [madeAllocators, TableCall.allocators]
  by_cases early : fail = 0
  · rw [if_pos (Or.inl (by omega)), early, Nat.add_zero, malloc_none]
    rfl
  rw [malloc_some (by omega)]
  by_cases middle : fail ≤ 4 ∨ bucketMemSize ((mainSize + spareSize) % 2 ^ 32) = 0
  · obtain ⟨tries', files', none⟩ := createBucketPool_none file (tries ::ₘ heap) fds maps files
      (middle.imp_left fun below => (show tries + 1 ≤ tries + fail ∧ tries + fail < tries + 1 + 4 by omega))
    simp only [if_pos middle, none, List.length_nil]
  · obtain ⟨opened, sized⟩ := not_or.mp middle
    simp only [if_neg middle,
      createBucketPool_succeeds sized (Or.inr (show tries + 1 + 4 ≤ tries + fail by omega))]
    by_cases second : fail ≤ 7 ∨ nthread = 0
    · have failing : (tries + 1 + 4 ≤ tries + fail ∧ tries + fail < tries + 1 + 4 + 3) ∨
        circularLogSize * nthread = 0 :=
        second.imp (fun below => by omega) fun none => by rw [none, Nat.mul_zero]
      obtain ⟨tries', files', none, -⟩ :=
        createMemAllocator_fails file (insert (hugepagePath (bucketPath file)) files) failing
      simp only [if_pos second, none, List.length_singleton]
    · obtain ⟨behind, some⟩ := not_or.mp second
      have length : circularLogSize * nthread ≠ 0 := by
        rw [circularLogSize]
        omega
      simp only [if_neg second,
        createMemAllocator_succeeds length (Or.inr (show tries + 1 + 4 + 3 ≤ tries + fail by omega)),
        List.length_cons, List.length_nil]

theorem createLogs_succeeds {failAt tries n : Nat} (logs : List LogBlocks)
    (later : tries + 2 * n ≤ failAt) :
    ∃ logs' tries', ∀ heap fds maps files, createLogs failAt n logs ⟨tries, held logs + heap, fds, maps, files⟩ =
      .ok (true, logs', ⟨tries', held logs' + heap, fds, maps, files⟩) := by
  induction n generalizing tries logs with
  | zero => exact ⟨logs, tries, fun heap fds maps files => rfl⟩
  | succ n ih =>
    obtain ⟨logs', tries', next⟩ := ih (logs ++ [⟨tries, tries + 1⟩]) (show tries + 2 + 2 * n ≤ failAt by omega)
    refine ⟨logs', tries', fun heap fds maps files => ?_⟩
    have rest := next heap fds maps files
    rw [held_append, Multiset.cons_add, Multiset.cons_add] at rest
    simp only [createLogs, createCircularLog, malloc_some (show tries ≠ failAt by omega),
      malloc_some (show tries + 1 ≠ failAt by omega), ok_bind]
    exact rest

theorem createKvTable_succeeds {failAt tries nthread mainSize spareSize : Nat} (file : Path)
    (heap fds maps : Multiset Nat) (files : Finset Path)
    (sized : bucketMemSize ((mainSize + spareSize) % 2 ^ 32) ≠ 0) (some : nthread ≠ 0)
    (later : tries + 8 + 2 * nthread ≤ failAt) :
    ∃ table tries' lost, createKvTable failAt file nthread mainSize spareSize ⟨tries, heap, fds, maps, files⟩ =
      .ok (Option.some table, ⟨tries', table.blocks + lost + heap, table.fds + fds, table.maps + maps,
        insert (hugepagePath file) (insert (hugepagePath (bucketPath file)) files)⟩) ∧ lost.card = 2 ∧
      table.allocator.filename = hugepagePath file ∧
      table.pool.allocator.filename = hugepagePath (bucketPath file) := by
  have length : circularLogSize * nthread ≠ 0 := by
    rw [circularLogSize]
    omega
  obtain ⟨logs, tries', makes⟩ := createLogs_succeeds [] later
  simp only [held, Multiset.zero_add] at makes
  refine ⟨⟨tries, ⟨tries + 1, ⟨tries + 4, tries + 2, tries + 3, hugepagePath (bucketPath file)⟩⟩,
    ⟨tries + 7, tries + 5, tries + 6, hugepagePath file⟩, logs⟩, tries', {tries + 4, tries + 7}, ?_, rfl, rfl, rfl⟩
  rw [createKvTable, malloc_some (by omega)]
  simp only [createBucketPool_succeeds sized (Or.inr (show tries + 1 + 4 ≤ failAt by omega)), ok_bind,
    createMemAllocator_succeeds length (Or.inr (show tries + 1 + 4 + 3 ≤ failAt by omega)), makes, if_true,
    KvTableBlocks.blocks, KvTableBlocks.fds, KvTableBlocks.maps, Multiset.insert_eq_cons,
    ← Multiset.singleton_add, add_assoc]
  congr 4
  abel

theorem destroyKvTable_held (table : KvTableBlocks) (tries : Nat) (heap fds maps : Multiset Nat)
    (files : Finset Path) :
    destroyKvTable table ⟨tries, table.blocks + heap, table.fds + fds, table.maps + maps, files⟩ =
      .ok ⟨tries, heap, fds, maps,
        (files.erase table.allocator.filename).erase table.pool.allocator.filename⟩ := by
  obtain ⟨self, ⟨pool, block, fd, addr, name⟩, ⟨block', fd', addr', name'⟩, logs⟩ := table
  simp only [destroyKvTable, KvTableBlocks.blocks, KvTableBlocks.fds, KvTableBlocks.maps,
    Multiset.insert_eq_cons, add_assoc, Multiset.cons_add, Multiset.singleton_add, destroyLogs_held, ok_bind,
    destroyMemAllocator_held, destroyBucketPool, free_held]

theorem Tables.step_destroy {s : Tables} {i : Nat} {table : KvTableBlocks} {host : Host Path}
    (at_i : s.live[i]? = some table) (run : destroyKvTable table s.host = .ok host) :
    s.step (.destroy i) = .ok ⟨host, s.live.eraseIdx i⟩ := by
  simp only [Tables.step, at_i, run, ok_bind]

/-- What a call of `create` has made of a host, all but the files as multisets. -/
structure Makes (lost : Nat) (names : List Path) (host host' : Host Path) (made : Option KvTableBlocks) :
    Prop where
  heap : ∃ leaked : Multiset Nat, leaked.card = lost ∧
    host'.heap = (made.toList.map KvTableBlocks.blocks).sum + leaked + host.heap
  fds : host'.fds = (made.toList.map KvTableBlocks.fds).sum + host.fds
  maps : host'.maps = (made.toList.map KvTableBlocks.maps).sum + host.maps
  files : ∀ path, path ∉ names → (path ∈ host'.files ↔ path ∈ host.files)
  names : ∀ table ∈ made, table.allocator.filename ∈ names ∧ table.pool.allocator.filename ∈ names

/-- A call that fails leaves the blocks of the allocators it has made. -/
theorem Makes.none {lost : Nat} {names : List Path} {host host' : Host Path} (leaked : Multiset Nat)
    (card : leaked.card = lost) (heap : host'.heap = leaked + host.heap) (fds : host'.fds = host.fds)
    (maps : host'.maps = host.maps) (files : ∀ path, path ∉ names → (path ∈ host'.files ↔ path ∈ host.files)) :
    Makes lost names host host' Option.none where
  heap := ⟨leaked, card, by simpa using heap⟩
  fds := by simpa using fds
  maps := by simpa using maps
  files := files
  names := fun table none => by cases none

/-- However many acquisitions succeed, a call of `create` loses the blocks of the
allocators it makes and no other. -/
theorem createKvTable_makes (fail : Nat) (file : Path) (nthread mainSize spareSize : Nat) (host : Host Path) :
    ∃ made host', createKvTable (host.tries + fail) file nthread mainSize spareSize host = .ok (made, host') ∧
      Makes (TableCall.create fail file nthread mainSize spareSize).allocators
        (TableCall.create fail file nthread mainSize spareSize).paths host host' made := by
  obtain ⟨tries, heap, fds, maps, files⟩ := host
  simp only [TableCall.paths]
  by_cases early : fail ≤ 2
  · refine ⟨_, _, createKvTable_early (Nat.le_add_right _ _) (Nat.add_le_add_left early _),
      .none 0 ?_ (Multiset.zero_add _).symm rfl rfl fun path _ => Iff.rfl⟩
    rw [TableCall.allocators, if_pos (Or.inl (by omega)), Multiset.card_zero]
  · by_cases middle : fail ≤ 4 ∨ bucketMemSize ((mainSize + spareSize) % 2 ^ 32) = 0
    · obtain ⟨tries', run⟩ :=
        createKvTable_middle file nthread heap fds maps files (show tries + 3 ≤ tries + fail by omega)
          (middle.imp_left fun below => Nat.add_le_add_left below tries)
      refine ⟨_, _, run, .none 0 ?_ (Multiset.zero_add _).symm rfl rfl fun path other => ?_⟩
      · rw [TableCall.allocators, if_pos middle, Multiset.card_zero]
      · simp only [List.mem_cons, not_or] at other
        simp [other]
    · obtain ⟨opened, sized⟩ := not_or.mp middle
      have later : tries + 5 ≤ tries + fail := by omega
      rw [TableCall.allocators, if_neg middle]
      by_cases second : fail ≤ 7 ∨ nthread = 0
      · have failing : (tries + 5 ≤ tries + fail ∧ tries + fail < tries + 5 + 3) ∨ circularLogSize * nthread = 0 :=
          second.imp (fun below => by omega) fun none => by rw [none, Nat.mul_zero]
        obtain ⟨tries', files', fails, spared⟩ :=
          createMemAllocator_fails file (insert (hugepagePath (bucketPath file)) files) failing
        refine ⟨_, _, createKvTable_unwinds sized later fails,
          .none {tries + 4} ?_ (Multiset.singleton_add _ _).symm rfl rfl fun path other => ?_⟩
        · rw [if_pos second, Multiset.card_singleton]
        · simp only [List.mem_cons, not_or] at other
          simp [other, spared path other.1 other.2.2.1]
      · rw [if_neg second]
        obtain ⟨behind, some⟩ := not_or.mp second
        by_cases logs : fail < 8 + 2 * nthread
        · obtain ⟨tries', run⟩ := createKvTable_logs_fail sized later (show tries + 8 ≤ tries + fail by omega)
            (show tries + fail < tries + 8 + 2 * nthread by omega)
          refine ⟨_, _, run, .none {tries + 4, tries + 7} rfl ?_ rfl rfl fun path other => ?_⟩
          · simp only [Multiset.insert_eq_cons, Multiset.cons_add, Multiset.singleton_add]
          · simp only [List.mem_cons, not_or] at other
            simp [other]
        · obtain ⟨table, tries', lost, run, card, data, bucket⟩ :=
            createKvTable_succeeds file heap fds maps files sized some
              (show tries + 8 + 2 * nthread ≤ tries + fail by omega)
          refine ⟨_, _, run, ⟨lost, card, ?_⟩, ?_, ?_, fun path other => ?_, fun made this => ?_⟩
          · simp
          · simp
          · simp
          · simp only [List.mem_cons, not_or] at other
            simp [other]
          · cases this
            simp [data, bucket]

/-- A run has left of a host, and holds for the live tables, these blocks,
descriptors and mappings. -/
structure Accounted (host : Host Path) (lost : Nat) (s : Tables) : Prop where
  heap : ∃ leaked : Multiset Nat, leaked.card = lost ∧
    s.host.heap = (s.live.map KvTableBlocks.blocks).sum + leaked + host.heap
  fds : s.host.fds = (s.live.map KvTableBlocks.fds).sum + host.fds
  maps : s.host.maps = (s.live.map KvTableBlocks.maps).sum + host.maps

/-- A path that no call has named. -/
structure Spared (path : Path) (host : Host Path) (s : Tables) : Prop where
  file : path ∈ s.host.files ↔ path ∈ host.files
  names : ∀ table ∈ s.live, path ≠ table.allocator.filename ∧ path ≠ table.pool.allocator.filename

theorem Accounted.create {host : Host Path} {lost : Nat} {s : Tables} (accounted : Accounted host lost s)
    (fail : Nat) (file : Path) (nthread mainSize spareSize : Nat) :
    ∃ s', s.step (.create fail file nthread mainSize spareSize) = .ok s' ∧
      Accounted host ((TableCall.create fail file nthread mainSize spareSize).allocators + lost) s' ∧
      ∀ path, path ∉ (TableCall.create fail file nthread mainSize spareSize).paths →
        Spared path host s → Spared path host s' := by
  obtain ⟨⟨leaked, card, heap⟩, fds, maps⟩ := accounted
  obtain ⟨made, host', run, ⟨more, card', heap'⟩, fds', maps', files, names⟩ :=
    createKvTable_makes fail file nthread mainSize spareSize s.host
  refine ⟨⟨host', made.toList ++ s.live⟩, ?_, ⟨⟨more + leaked, ?_, ?_⟩, ?_, ?_⟩, fun path other spared => ⟨?_, ?_⟩⟩
  · rw [Tables.step, run, ok_bind]
  · rw [Multiset.card_add, card, card']
  · simp only [heap', heap, List.map_append, List.sum_append]
    abel
  · simp only [fds', fds, List.map_append, List.sum_append, add_assoc]
  · simp only [maps', maps, List.map_append, List.sum_append, add_assoc]
  · exact (files path other).trans spared.file
  · intro table live
    rcases List.mem_append.mp live with new | old
    · obtain ⟨data, bucket⟩ := names table (Option.mem_toList.mp new)
      exact ⟨fun same => other (same ▸ data), fun same => other (same ▸ bucket)⟩
    · exact spared.names table old

theorem Accounted.destroy {host : Host Path} {lost : Nat} {s : Tables} (accounted : Accounted host lost s)
    (i : Nat) :
    ∃ s', s.step (.destroy i) = .ok s' ∧ Accounted host lost s' ∧ ∀ path, Spared path host s →
      Spared path host s' := by
  obtain ⟨⟨tries, heap, fds, maps, files⟩, live⟩ := s
  rcases at_i : live[i]? with _ | table
  · exact ⟨_, by simp only [Tables.step, at_i], accounted, fun path => id⟩
  · obtain ⟨below, this⟩ := List.getElem?_eq_some_iff.mp at_i
    have taken : ∀ f : KvTableBlocks → Multiset Nat, (live.map f).sum = f table +
      ((live.eraseIdx i).map f).sum := by
      intro f
      have bound : i < (live.map f).length := by rwa [List.length_map]
      rw [← List.add_sum_eraseIdx bound fun _ _ => AddCommute.all _ _, List.getElem_map, this, List.eraseIdx_map]
    obtain ⟨⟨leaked, card, heap⟩, fds, maps⟩ := accounted
    simp only [taken, add_assoc] at heap fds maps
    have run := destroyKvTable_held table tries
      (((live.eraseIdx i).map KvTableBlocks.blocks).sum + (leaked + host.heap))
      (((live.eraseIdx i).map KvTableBlocks.fds).sum + host.fds)
        (((live.eraseIdx i).map KvTableBlocks.maps).sum + host.maps) files
    rw [← heap, ← fds, ← maps] at run
    refine ⟨_, Tables.step_destroy at_i run, ⟨⟨leaked, card, (add_assoc _ _ _).symm⟩, rfl, rfl⟩,
      fun path spared => ⟨?_, fun other member => ?_⟩⟩
    · obtain ⟨data, bucket⟩ := spared.names table (List.mem_of_getElem? at_i)
      simpa [data, bucket] using spared.file
    · exact spared.names other (List.mem_of_mem_eraseIdx member)

theorem Accounted.run {host : Host Path} {lost : Nat} {s : Tables} (calls : List TableCall)
    (accounted : Accounted host lost s) :
    ∃ s', run Tables.step calls s = .ok s' ∧ Accounted host ((calls.map TableCall.allocators).sum + lost) s' ∧
      ∀ path, (∀ call ∈ calls, path ∉ call.paths) → Spared path host s → Spared path host s' := by
  induction calls generalizing s lost with
  | nil => exact ⟨s, rfl, by simpa using accounted, fun path _ spared => spared⟩
  | cons call calls ih =>
    have first : ∃ s', s.step call = .ok s' ∧ Accounted host (call.allocators + lost) s' ∧
        ∀ path, path ∉ call.paths → Spared path host s → Spared path host s' := by
      cases call with
      | create fail file nthread mainSize spareSize =>
        obtain ⟨s', step, accounted', spares⟩ := accounted.create fail file nthread mainSize spareSize
        exact ⟨s', step, accounted', spares⟩
      | destroy i =>
        obtain ⟨s', step, accounted', spares⟩ := accounted.destroy i
        exact ⟨s', step, by rwa [TableCall.allocators, Nat.zero_add], fun path _ => spares path⟩
    obtain ⟨s', step, accounted', spares⟩ := first
    obtain ⟨s'', rest, accounted'', spares'⟩ := ih accounted'
    refine ⟨s'', (run_cons step).trans rest, ?_, fun path others spared => ?_⟩
    · rwa [List.map_cons, List.sum_cons, Nat.add_comm call.allocators, Nat.add_assoc]
    · exact spares' path (fun call member => others call (List.mem_cons_of_mem _ member))
        (spares path (others call List.mem_cons_self) spared)

/-- However a program makes and destroys tables and whichever acquisitions fail,
nothing is released that is not held. What is held at the end belongs to the tables
still alive, but for one heap block of each allocator ever made. No other files are
touched than those of the names in the calls. -/
theorem tables_accounted (host : Host Path) (calls : List TableCall) :
    ∃ s, run Tables.step calls ⟨host, []⟩ = .ok s ∧ Accounted host (calls.map TableCall.allocators).sum s ∧
      ∀ path, (∀ call ∈ calls, path ∉ call.paths) → (path ∈ s.host.files ↔ path ∈ host.files) := by
  have start : Accounted host 0 ⟨host, []⟩ := ⟨⟨0, rfl, by simp⟩, by simp, by simp⟩
  obtain ⟨s, done, accounted, spares⟩ := start.run calls
  refine ⟨s, done, accounted, fun path others => (spares path others ⟨Iff.rfl, fun table none => ?_⟩).file⟩
  cases none

end Fkv.Table
