import Fkv.CircularLog.Shelf

namespace Fkv
open ByteMemory CWord Refinement Runs

/-- The finite map with every put true. -/
def KvMap.always : Spec KvMap KvCall (Bool × Mem) := ⟨KvMap.answer, KvMap.after, fun _ _ => False⟩

/-- The table holds these items, the allocator of each log is kept to the discipline
with their blocks, and so many puts have claimed no more spares. -/
structure Shelved (D : Discipline) (L : Logs) (hash : List UInt8 → Nat) (log : Nat → Nat)
    (t : KvTable SegregatedFits) (map : KvMap) (items : List Item) (puts : Nat) : Prop where
  holds : (L.setting hash log).Holds t (items : Multiset Item) (fun _ => 0)
  lists : map.Lists (items : Multiset Item)
  untied : Untied t.bktPool.mainSize (items : Multiset Item)
  spared : t.bktPool.claims ≤ puts
  kept : ∀ l < L.logSize, D.Kept (L.arena l) ⟨t.heap l, (itemsOfLog log l items).map (Item.block L.baseAddr)⟩

namespace Shelved

theorem hashed {L : Logs} {hash : List UInt8 → Nat} {log : Nat → Nat} {t : KvTable SegregatedFits} {map : KvMap}
    {D : Discipline} {items : List Item} {puts : Nat} (shelved : Shelved D L hash log t map items puts) :
    ∀ it ∈ items, it.keyhash = hash it.key := shelved.holds.hashed

theorem represents {L : Logs} {hash : List UInt8 → Nat} {log : Nat → Nat} {t : KvTable SegregatedFits}
    {map : KvMap} {D : Discipline} {items : List Item} {puts fuel : Nat}
    (shelved : Shelved D L hash log t map items puts) (enough : t.bktPool.spareSize + 1 < fuel) :
    Represents L hash log fuel t map :=
  ⟨⟨items, _, shelved.holds, shelved.lists, shelved.untied⟩, enough⟩

theorem clear {L : Logs} {hash : List UInt8 → Nat} {log : Nat → Nat} {t : KvTable SegregatedFits} {map : KvMap}
    {D : Discipline} {items : List Item} {entry : Mem} {puts : Nat}
    (shelved : Shelved D L hash log t map items puts)
    (apart : ApartFrom hash t.bktPool.mainSize (items.map Item.key) entry) : t.Clear entry := by
  refine shelved.holds.clear_of_apart fun it member main tag => ?_
  have hashed := shelved.holds.hashed it member
  rw [Item.main, hashed] at main
  rw [hashed] at tag
  exact apart it.key (List.mem_map_of_mem member) main tag

theorem present_iff {items : List Item} {entry : Mem} :
    entryKey entry ∈ (items : Multiset Item).map Item.key ↔ entryKey entry ∈ items.map Item.key := by
  rw [Multiset.map_coe, Multiset.mem_coe]

theorem nodup {L : Logs} {hash : List UInt8 → Nat} {log : Nat → Nat} {t : KvTable SegregatedFits} {map : KvMap}
    {D : Discipline} {items : List Item} {puts : Nat} (shelved : Shelved D L hash log t map items puts) :
    (items.map Item.key).Nodup := by
  have nodup := shelved.holds.keys
  rwa [Multiset.map_coe, Multiset.coe_nodup] at nodup

/-- The keys of the items without that of the entry. -/
theorem erased {L : Logs} {hash : List UInt8 → Nat} {log : Nat → Nat} {t : KvTable SegregatedFits} {map : KvMap}
    {D : Discipline} {items : List Item} {puts : Nat} (shelved : Shelved D L hash log t map items puts)
    (entry : Mem) :
    (items.filter fun it => it.key ≠ entryKey entry).map Item.key =
      (items.map Item.key).erase (entryKey entry) := by
  rw [shelved.nodup.erase_eq_filter, List.filter_map]
  congr 1
  refine List.filter_congr fun it _ => ?_
  rw [Bool.eq_iff_iff]
  simp

/-- The item of a key, on top of its log if it is the latest there. -/
theorem top {L : Logs} {hash : List UInt8 → Nat} {log : Nat → Nat} {t : KvTable SegregatedFits} {map : KvMap}
    {D : Discipline} {items : List Item} {entry : Mem} {puts : Nat} {it : Item}
    (shelved : Shelved D L hash log t map items puts) (may : MayGo D hash log (items.map Item.key) entry)
    (member : it ∈ items) (key : it.key = entryKey entry) (last : D.lastOnly = true) :
    (itemsOfLog log (log (entryKeyhash entry 0)) items).head? = some it := by
  have head := may (key ▸ List.mem_map_of_mem member) last
  rw [← itemsOfLog_keys shelved.hashed, List.head?_map, Option.map_eq_some_iff] at head
  obtain ⟨first, head, same⟩ := head
  have among : first ∈ items := List.mem_of_mem_filter (List.mem_of_head? head)
  obtain rfl := List.inj_on_of_nodup_map shelved.nodup among member (same.trans key.symm)
  exact head

/-- With the block of its key given back, the allocator of a log is still kept to the
discipline, and no byte outside the log has changed. -/
theorem cleared {L : Logs} {hash : List UInt8 → Nat} {log : Nat → Nat} {t : KvTable SegregatedFits}
    {map : KvMap} {D : Discipline} {items : List Item} {entry m : Mem} {puts : Nat} {sfits : SegregatedFits}
    (shelved : Shelved D L hash log t map items puts) (keyed : (L.setting hash log).Keyed entry)
    (may : MayGo D hash log (items.map Item.key) entry)
    (cleared : (L.setting hash log).Cleared t entry items m sfits) :
    D.Kept (L.arena (log (entryKeyhash entry 0))) ⟨⟨m, sfits⟩, (itemsOfLog log (log (entryKeyhash entry 0))
        (items.filter fun it => it.key ≠ entryKey entry)).map (Item.block L.baseAddr)⟩ ∧
      ∀ y, y < L.baseAddr + circularLogSize * log (entryKeyhash entry 0) ∨
        L.baseAddr + circularLogSize * (log (entryKeyhash entry 0) + 1) ≤ y → m y = t.mem y := by
  have inside : log (entryKeyhash entry 0) < L.logSize := keyed.log
  have kept := shelved.kept _ inside
  rcases cleared with ⟨absent, rfl, rfl⟩ | ⟨it, member, key, freed⟩
  · have same : items.filter (fun it => it.key ≠ entryKey entry) = items :=
      List.filter_eq_self.mpr fun it member => by
        simpa using fun key => absent (Multiset.mem_map.mpr ⟨it, member, key⟩)
    rw [same]
    exact ⟨kept, fun _ _ => rfl⟩
  · have inItems : it ∈ items := Multiset.mem_coe.mp member
    have here : log it.keyhash = log (entryKeyhash entry 0) := by
      rw [shelved.hashed it inItems, key, ← show entryKeyhash entry 0 = hash (entryKey entry) from keyed.hash]
    have block : it.block L.baseAddr ∈ (itemsOfLog log (log (entryKeyhash entry 0)) items).map
      (Item.block L.baseAddr) :=
      List.mem_map_of_mem (List.mem_filter.mpr ⟨inItems, by simpa using here⟩)
    obtain ⟨h, run, kept'⟩ := D.free kept block fun last => by
      rw [List.head?_map, shelved.top may inItems key last]
      rfl
    have again : segregatedFits.free t.mem (t.sfits (log (entryKeyhash entry 0))) (L.baseAddr + it.offset) =
        .ok (h.mem, h.sfits) := bind_eq_ok.mpr ⟨h, run, rfl⟩
    have after := Except.ok.inj (again.symm.trans freed)
    rw [Prod.mk.injEq] at after
    obtain ⟨rfl, rfl⟩ := after
    have same : ∀ other ∈ items, L.baseAddr + other.offset = L.baseAddr + it.offset ↔
      other.key = entryKey entry := by
      intro other inItems'
      constructor
      · intro same
        rw [Multiset.inj_on_of_nodup_map shelved.holds.offsets other (Multiset.mem_coe.mpr inItems') it member
          (by omega), key]
      · intro same
        rw [List.inj_on_of_nodup_map shelved.nodup inItems' inItems (same.trans key.symm)]
    simp only [itemsOfLog_without same] at kept'
    refine ⟨kept', fun y away => ?_⟩
    obtain ⟨rest, split⟩ := Multiset.exists_cons_of_mem (Multiset.mem_coe.mpr block)
    have serving := D.serving kept
    rw [split] at serving
    exact (((L.setting hash log).lawful _ inside).free serving freed).2 y (away.imp_right Or.inl)

/-- The allocator of its log has a block for a key. -/
theorem block {L : Logs} {hash : List UInt8 → Nat} {log : Nat → Nat} {t : KvTable SegregatedFits} {map : KvMap}
    {D : Discipline} {items : List Item} {entry m : Mem} {puts : Nat} {sfits : SegregatedFits}
    (shelved : Shelved D L hash log t map items puts) (keyed : (L.setting hash log).Keyed entry)
    (bounded : initialSize entry 0 ≤ segregatedMaxDataSize)
    (least : D.least (segregatedFitsClassSize segregatedMaxDataSize) ≤ initialSize entry 0)
    (room : (keysOfLog hash log (entryKeyhash entry 0) ((items.map Item.key).erase (entryKey entry))).length <
      logCapacity)
    (kept : D.Kept (L.arena (log (entryKeyhash entry 0))) ⟨⟨m, sfits⟩, (itemsOfLog log (log (entryKeyhash entry 0))
        (items.filter fun it => it.key ≠ entryKey entry)).map (Item.block L.baseAddr)⟩) :
    ∃ x h, segregatedFits.get m sfits (initialSize entry 0) = .ok (some x, h.mem, h.sfits) ∧
      D.Kept (L.arena (log (entryKeyhash entry 0)))
        ⟨h, (x, initialSize entry 0) :: (itemsOfLog log (log (entryKeyhash entry 0))
        (items.filter fun it => it.key ≠ entryKey entry)).map (Item.block L.baseAddr)⟩ := by
  have inside : log (entryKeyhash entry 0) < L.logSize := keyed.log
  obtain ⟨x, h, got, kept'⟩ := D.get (n := initialSize entry 0) kept (by rw [L.len _ inside]; exact least)
    (by rw [L.len _ inside]; exact bounded) (by
      rw [logCapacity_eq inside, List.length_map, ← List.length_map Item.key,
        itemsOfLog_keys (fun it among => shelved.hashed it (List.mem_of_mem_filter among)), shelved.erased]
      exact room)
  exact ⟨x, h, bind_eq_ok.mpr ⟨(some x, h), got, rfl⟩, kept'⟩

/-- The allocator and the memory of the logs a call leaves alone. -/
theorem others {L : Logs} {hash : List UInt8 → Nat} {log : Nat → Nat} {t t' : KvTable SegregatedFits}
    {map : KvMap} {D : Discipline} {items : List Item} {entry : Mem} {l puts : Nat}
    (shelved : Shelved D L hash log t map items puts) (hash' : log (entryKeyhash entry 0) ≠ l)
    (below : l < L.logSize) (keyed : (L.setting hash log).Keyed entry) (sfits' : t'.sfits l = t.sfits l)
    (outside : ∀ y, y < L.baseAddr + circularLogSize * log (entryKeyhash entry 0) ∨
      L.baseAddr + circularLogSize * (log (entryKeyhash entry 0) + 1) ≤ y → t'.mem y = t.mem y) :
    D.Kept (L.arena l) ⟨t'.heap l, (itemsOfLog log l (items.filter fun it => it.key ≠ entryKey entry)).map
      (Item.block L.baseAddr)⟩ := by
  have keep : itemsOfLog log l (items.filter fun it => it.key ≠ entryKey entry) = itemsOfLog log l items := by
    rw [itemsOfLog, itemsOfLog, List.filter_comm]
    refine List.filter_eq_self.mpr fun other among => ?_
    obtain ⟨member, here⟩ := List.mem_filter.mp among
    simp only [decide_eq_true_eq] at here ⊢
    rintro same
    rw [shelved.hashed other member, same,
      ← show entryKeyhash entry 0 = hash (entryKey entry) from keyed.hash] at here
    exact hash' here
  rw [keep]
  exact D.other (shelved.kept l below) below (Ne.symm hash') sfits' outside

/-- A put in order goes on top of its log, in the place of its key if there is one. -/
theorem put {L : Logs} {hash : List UInt8 → Nat} {log : Nat → Nat} {t : KvTable SegregatedFits} {map : KvMap}
    {D : Discipline} {items : List Item} {entry : Mem} {puts fuel : Nat}
    (shelved : Shelved D L hash log t map items puts) (keyed : (L.setting hash log).Keyed entry)
    (sized : Setting.Sized entry) (bounded : initialSize entry 0 ≤ segregatedMaxDataSize)
    (enough : t.bktPool.spareSize + 1 < fuel)
    (order : (KvCall.put entry).InOrder D hash log t.bktPool.mainSize t.bktPool.spareSize
      (items.map Item.key) puts) :
    ∃ t' offset, t.putCircularLogEntry segregatedFits fuel (log (entryKeyhash entry 0)) entry = .ok (true, t') ∧
      Shelved D L hash log t' (map.after (.put entry))
        (entryItem entry offset :: items.filter fun it => it.key ≠ entryKey entry)
        ((KvCall.put entry).tally (items.map Item.key) puts) := by
  obtain ⟨apart, may, least, room, free⟩ := order
  have inside : log (entryKeyhash entry 0) < L.logSize := keyed.log
  have clear := shelved.clear apart
  have small : initialSize entry 0 < 2 ^ 32 := bounded.trans_lt (by decide)
  obtain ⟨⟨res, t'⟩, put⟩ := shelved.holds.put_total keyed clear (L.frees hash log) enough fun m s cleared => by
    obtain ⟨x, h, got, -⟩ := shelved.block keyed bounded least room (shelved.cleared keyed may cleared).1
    rw [Nat.mod_eq_of_lt small]
    exact ⟨_, got⟩
  obtain ⟨m, s, r, m', s', cleared, got, sfits, outcome⟩ := shelved.holds.put_heap keyed small put
  obtain ⟨kept, quiet⟩ := shelved.cleared keyed may cleared
  obtain ⟨x, h, again, kept'⟩ := shelved.block keyed bounded least room kept
  cases again.symm.trans got
  rcases outcome with ⟨none, -⟩ | ⟨y, some, rfl, mem, claims, same⟩
  · cases none
  cases some
  have alike := KvTable.put_alike put
  -- What the copy has done to the heap of the log.
  have copied : D.Kept (L.arena (log (entryKeyhash entry 0))) ⟨t'.heap (log (entryKeyhash entry 0)),
    (x, initialSize entry 0) ::
      (itemsOfLog log (log (entryKeyhash entry 0)) (items.filter fun it => it.key ≠ entryKey entry)).map
        (Item.block L.baseAddr)⟩ := by
    have heap : t'.heap (log (entryKeyhash entry 0)) = { h with mem := t'.mem } := by
      rw [KvTable.heap, sfits]
      exact congrArg (Heap.mk t'.mem) (Function.update_self ..)
    rw [heap]
    refine D.rewrite kept' fun y _ _ outside => ?_
    rw [mem]
    refine writeBytes_apart _ ?_
    rw [readBytes_length]
    exact outside x _ List.mem_cons_self
  cases shelved.holds.puts keyed sized bounded put with
  | lost block exhausted absent =>
    rw [← itemsOfMain_card shelved.hashed] at free
    have spared := shelved.spared
    have slot := free.resolve_left fun present => absent (present_iff.mpr present)
    exact absurd exhausted (shelved.holds.not_exhausted _ (slot.imp_right fun puts => by omega))
  | stored offset _ _ held =>
    rw [Multiset.filter_coe] at held
    -- The block taken is that of the new item.
    have place : L.baseAddr + offset = x := by
      have used := (SegregatedFits.Serving.inUse_iff (D.serving copied)).mpr
        (Multiset.mem_map_of_mem _ (Multiset.mem_coe.mpr List.mem_cons_self))
      obtain ⟨it, member, here, address⟩ := ((Logs.inUse_iff held inside).mp used).resolve_right (by simp)
      rcases Multiset.mem_cons.mp member with rfl | old
      · exact address
      · have nodup := SegregatedFits.Serving.nodup (D.serving copied)
        rw [Multiset.map_coe, Multiset.coe_nodup, List.map_cons, List.nodup_cons] at nodup
        refine absurd (List.mem_map.mpr ⟨it.block L.baseAddr, List.mem_map_of_mem ?_, address⟩) nodup.1
        exact List.mem_filter.mpr ⟨old, by simpa using here⟩
    refine ⟨t', offset, put, held, ?_, ?_, ?_, fun l below => ?_⟩
    · have lists := shelved.lists.after_put entry offset
      rwa [Multiset.filter_coe] at lists
    · rw [alike.mainSize]
      rw [← Multiset.cons_coe, ← Multiset.filter_coe]
      exact shelved.untied.put shelved.holds clear
    · have spared := shelved.spared
      rw [KvCall.tally]
      split
      · rename_i present
        exact (same (present_iff.mpr present)).trans spared
      · omega
    · by_cases here : log (entryKeyhash entry 0) = l
      · subst here
        have top : itemsOfLog log (log (entryKeyhash entry 0)) (entryItem entry offset :: items.filter
          fun it => it.key ≠ entryKey entry) =
            entryItem entry offset :: itemsOfLog log (log (entryKeyhash entry 0))
              (items.filter fun it => it.key ≠ entryKey entry) :=
          itemsOfLog_cons_self rfl
        have block : (entryItem entry offset).block L.baseAddr = (x, initialSize entry 0) := by
          rw [Item.block, ← place]
          simp only [entryItem, readBytes_length]
        rw [top, List.map_cons, block]
        exact copied
      · rw [itemsOfLog_cons_other (show log (entryItem entry offset).keyhash ≠ l from here)]
        refine shelved.others here below keyed ?_ fun y away => ?_
        · rw [sfits]
          exact Function.update_of_ne (Ne.symm here) _ _
        · have lawful := (L.setting hash log).lawful _ inside
          obtain ⟨serving, frame⟩ := lawful.get (D.serving kept) bounded got
          have within := lawful.within serving (Multiset.mem_cons_self _ _)
          simp only [Logs.setting] at within
          rw [mem, writeBytes_apart _ (by rw [readBytes_length]; omega), frame y (away.imp_right Or.inl)]
          exact quiet y away

/-- A remove in order takes its key away, or nothing. -/
theorem remove {L : Logs} {hash : List UInt8 → Nat} {log : Nat → Nat} {t : KvTable SegregatedFits} {map : KvMap}
    {D : Discipline} {items : List Item} {entry : Mem} {puts fuel : Nat}
    (shelved : Shelved D L hash log t map items puts) (keyed : (L.setting hash log).Keyed entry)
    (enough : t.bktPool.spareSize + 1 < fuel)
    (order : (KvCall.remove entry).InOrder D hash log t.bktPool.mainSize t.bktPool.spareSize
      (items.map Item.key) puts) :
    ∃ t', t.removeCircularLogEntry segregatedFits fuel (log (entryKeyhash entry 0)) entry =
        .ok ((map (entryKey entry)).isSome, t') ∧
      Shelved D L hash log t' (map.after (.remove entry)) (items.filter fun it => it.key ≠ entryKey entry)
        puts := by
  obtain ⟨apart, may⟩ := order
  obtain ⟨⟨res, t'⟩, removed⟩ := shelved.holds.remove_total keyed (shelved.clear apart) (L.frees hash log) enough
  obtain ⟨held, result⟩ := shelved.holds.removes keyed removed
  rw [Multiset.filter_coe] at held
  have answer : (map (entryKey entry)).isSome = res := by
    rw [Bool.eq_iff_iff, result, Option.isSome_iff_ne_none, ne_eq, shelved.lists.none_iff, not_not]
  have lists := shelved.lists.remove (entryKey entry)
  rw [Multiset.filter_coe] at lists
  have untied : Untied t.bktPool.mainSize ((items : Multiset Item).filter fun it => it.key ≠ entryKey entry) :=
    shelved.untied.filter
  rw [Multiset.filter_coe, ← (KvTable.remove_alike removed).mainSize] at untied
  obtain ⟨s, cleared, sfits, claims⟩ := shelved.holds.remove_heap keyed removed
  obtain ⟨kept, quiet⟩ := shelved.cleared keyed may cleared
  refine ⟨t', by rw [answer]; exact removed, held, lists, untied, claims.trans_le shelved.spared,
    fun l below => ?_⟩
  by_cases here : log (entryKeyhash entry 0) = l
  · subst here
    have heap : t'.heap (log (entryKeyhash entry 0)) = ⟨t'.mem, s⟩ := by
      rw [KvTable.heap, sfits]
      exact congrArg (Heap.mk t'.mem) (Function.update_self ..)
    rw [heap]
    exact kept
  · refine shelved.others here below keyed ?_ quiet
    rw [sfits]
    exact Function.update_of_ne (Ne.symm here) _ _

/-- A call in order has the answer of the map, and leaves the next in order. -/
theorem serves {L : Logs} {hash : List UInt8 → Nat} {log : Nat → Nat} {t : KvTable SegregatedFits} {map : KvMap}
    {D : Discipline} {items : List Item} {call : KvCall} {puts fuel : Nat}
    (shelved : Shelved D L hash log t map items puts) (enough : t.bktPool.spareSize + 1 < fuel)
    (legal : (L.setting hash log).Legal call ∧ (L.setting hash log).Bounded call)
    (order : call.InOrder D hash log t.bktPool.mainSize t.bktPool.spareSize (items.map Item.key) puts) :
    ∃ t' items', (L.setting hash log).Performs fuel t call (map.answer call) t' ∧
      Shelved D L hash log t' (map.after call) items' (call.tally (items.map Item.key) puts) ∧
      t.bktPool.Alike t'.bktPool ∧
      items'.map Item.key = call.shelve (items.map Item.key) := by
  cases call with
  | put entry =>
    obtain ⟨t', offset, put, after⟩ := shelved.put legal.1.1 legal.1.2 legal.2 enough order
    refine ⟨t', _, bind_eq_ok.mpr ⟨(true, t'), put, rfl⟩, after, KvTable.put_alike put, ?_⟩
    rw [List.map_cons, shelved.erased]
    rfl
  | get entry =>
    refine ⟨t, items, ?_, shelved, .refl _, rfl⟩
    rcases shelved.holds.gets legal.1 (shelved.clear order) (show t.bktPool.spareSize < fuel by omega) with
      ⟨absent, got⟩ | ⟨it, member, key, got⟩
    · refine bind_eq_ok.mpr ⟨(false, entry), got, ?_⟩
      simp only [KvMap.answer, shelved.lists.none_iff.mpr absent]
    · refine bind_eq_ok.mpr ⟨(true, writeBytes entry 0 it.bytes), got, ?_⟩
      simp only [KvMap.answer, (shelved.lists _ _).mpr ⟨it, member, key, rfl⟩]
  | remove entry =>
    obtain ⟨t', removed, after⟩ := shelved.remove legal.1 enough order
    exact ⟨t', _, bind_eq_ok.mpr ⟨(_, t'), removed, rfl⟩, after, KvTable.remove_alike removed,
      shelved.erased entry⟩

/-- Calls in order refine the map. -/
theorem refines {L : Logs} {hash : List UInt8 → Nat} {log : Nat → Nat} {t : KvTable SegregatedFits}
    {map : KvMap} {D : Discipline} {items : List Item} {puts fuel : Nat} {calls : List KvCall}
    (shelved : Shelved D L hash log t map items puts) (enough : t.bktPool.spareSize + 1 < fuel)
    (legal : ∀ call ∈ calls, (L.setting hash log).Legal call ∧ (L.setting hash log).Bounded call)
    (order : KeepsOrder D hash log t.bktPool.mainSize t.bktPool.spareSize calls (items.map Item.key) puts) :
    Refines ((L.setting hash log).Performs fuel) KvMap.always ((L.setting hash log).Finds fuel) calls t map := by
  induction calls generalizing t map items puts with
  | nil => exact (shelved.represents enough).finds
  | cons call rest ih =>
    obtain ⟨t', items', done, after, alike, keys⟩ := shelved.serves enough (legal call List.mem_cons_self) order.1
    refine ⟨(shelved.represents enough).finds, _, t', done, Or.inr ⟨rfl, ih after ?_ ?_ ?_⟩⟩
    · rw [alike.spareSize]
      exact enough
    · exact fun later member => legal later (List.mem_cons_of_mem call member)
    · rw [keys, alike.mainSize, alike.spareSize]
      exact order.2

theorem fresh {L : Logs} {hash : List UInt8 → Nat} {log : Nat → Nat} {t : KvTable SegregatedFits}
    {D : Discipline} (fresh : (L.setting hash log).Fresh t)
    (serving : ∀ l < L.logSize, Serves (L.arena l) ⟨t.heap l, []⟩ (L.arena l).fresh) :
    Shelved D L hash log t KvMap.empty [] 0 :=
  ⟨fresh.holds, fun key bytes => by simp [KvMap.empty], fun it member => by simp at member, by
    rw [fresh.pool]
    exact (Chained.created _ _ _).claims_eq.le, fun l below => D.fresh (serving l below).rep⟩

end Shelved

end Fkv
