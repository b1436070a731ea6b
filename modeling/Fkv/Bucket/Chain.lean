import Mathlib.Data.List.Nodup
import Mathlib.Data.Multiset.Filter
import Fkv.Bucket.Model

namespace Fkv
open CWord

/-- The buckets are linked in this order, and the last one links to none. -/
def BucketPool.Linked (pool : BucketPool) : List Nat → Prop
  | [] => False
  | [bkt] => nextSpareBucket pool bkt = none
  | bkt :: next :: rest => nextSpareBucket pool bkt = some next ∧ pool.Linked (next :: rest)

/-- The slots of a bucket from `index` on. -/
def slotsFrom (bkt index : Nat) : List (Nat × Nat) :=
  (List.range' index (bucketEntrySize - index)).map (fun i => (bkt, i))

/-- The slots of a chain in the order the loops visit them. -/
def slots (chain : List Nat) : List (Nat × Nat) := chain.flatMap (fun bkt => slotsFrom bkt 0)

def BucketPool.entry (pool : BucketPool) (slot : Nat × Nat) : IndexEntry := (pool.cells slot.1).entries slot.2

/-- The entries of the occupied slots, in any order. -/
def BucketPool.held (pool : BucketPool) (chain : List Nat) : Multiset IndexEntry :=
  ((slots chain : Multiset (Nat × Nat)).map pool.entry).filter (fun e => isEmptyEntry e = false)

theorem lookupKeyTagHashPortion_ne_zero (keyhash : Nat) : lookupKeyTagHashPortion keyhash ≠ 0 := by
  simp only [lookupKeyTagHashPortion]
  split <;> omega

theorem matchIndexEntryTag_iff {keyhash tag : Nat} :
    matchIndexEntryTag tag keyhash = true ↔ tag = lookupKeyTagHashPortion keyhash := by
  simp [matchIndexEntryTag]

theorem matchIndexEntry_iff {keyhash offset : Nat} {e : IndexEntry} :
    matchIndexEntry e keyhash offset = true ↔ e = ⟨lookupKeyTagHashPortion keyhash, offset⟩ := by
  obtain ⟨tag, off⟩ := e
  simp [matchIndexEntry, matchIndexEntryTag_iff]

theorem isEmptyEntry_eq_false {e : IndexEntry} : isEmptyEntry e = false ↔ e.tag ≠ 0 := by
  simp [isEmptyEntry]

@[simp] theorem slots_cons {bkt : Nat} {rest : List Nat} :
    slots (bkt :: rest) = slotsFrom bkt 0 ++ slots rest := rfl

theorem slots_append (chain rest : List Nat) : slots (chain ++ rest) = slots chain ++ slots rest :=
  List.flatMap_append

theorem mem_slotsFrom {bkt index : Nat} {slot : Nat × Nat} :
    slot ∈ slotsFrom bkt index ↔ slot.1 = bkt ∧ index ≤ slot.2 ∧ slot.2 < bucketEntrySize := by
  obtain ⟨b, i⟩ := slot
  simp only [slotsFrom, List.mem_map, List.mem_range'_1, Prod.mk.injEq]
  constructor
  · rintro ⟨j, bounds, rfl, rfl⟩
    exact ⟨rfl, bounds.1, by omega⟩
  · rintro ⟨rfl, lower, upper⟩
    exact ⟨i, by omega, rfl, rfl⟩

theorem mem_slots {chain : List Nat} {slot : Nat × Nat} :
    slot ∈ slots chain ↔ slot.1 ∈ chain ∧ slot.2 < bucketEntrySize := by
  simp only [slots, List.mem_flatMap, mem_slotsFrom, Nat.zero_le, true_and]
  constructor
  · rintro ⟨_, member, rfl, bound⟩
    exact ⟨member, bound⟩
  · rintro ⟨member, bound⟩
    exact ⟨slot.1, member, rfl, bound⟩

theorem slots_nodup {chain : List Nat} (nodup : chain.Nodup) : (slots chain).Nodup := by
  refine List.nodup_flatMap.mpr ⟨fun bkt _ => ?_, nodup.imp fun {a b} apart slot first second => ?_⟩
  · exact List.Nodup.map (fun i j same => (Prod.mk.inj same).2) List.nodup_range'
  · exact apart ((mem_slotsFrom.mp first).1.symm.trans (mem_slotsFrom.mp second).1)

theorem slots_length (chain : List Nat) : (slots chain).length = bucketEntrySize * chain.length := by
  induction chain with
  | nil => rfl
  | cons bkt rest ih =>
    rw [slots_cons, List.length_append, ih, slotsFrom, List.length_map, List.length_range', List.length_cons,
      Nat.mul_succ]
    omega

/-- The loops over the slots of one bucket. -/
theorem findSlot_eq (test : IndexEntry → Bool) (pool : BucketPool) (bkt index n : Nat) :
    ((List.range' index n).map (fun i => (bkt, i))).find? (fun p => test (pool.entry p)) =
      (findSlot test (pool.cells bkt) index n).map (fun i => (bkt, i)) := by
  induction n generalizing index with
  | zero => rfl
  | succ n ih =>
    rw [List.range'_succ, List.map_cons, List.find?_cons, findSlot]
    by_cases found : test ((pool.cells bkt).entries index) = true
    · simp [BucketPool.entry, found]
    · rw [if_neg found, ← ih]
      simp [BucketPool.entry, found]

theorem find_slotsFrom (test : IndexEntry → Bool) (pool : BucketPool) (bkt index : Nat) (rest : List (Nat × Nat)) :
    (slotsFrom bkt index ++ rest).find? (fun p => test (pool.entry p)) =
      match findSlot test (pool.cells bkt) index (bucketEntrySize - index) with
      | some i => some (bkt, i)
      | none => rest.find? (fun p => test (pool.entry p)) := by
  rw [List.find?_append, slotsFrom, findSlot_eq]
  cases findSlot test (pool.cells bkt) index (bucketEntrySize - index) <;> rfl

/-- In a fresh bucket the first slot is empty. -/
theorem find_fresh {pool : BucketPool} {bkt : Nat} (empty : isEmptyEntry ((pool.cells bkt).entries 0) = true) :
    (slots [bkt]).find? (fun p => isEmptyEntry (pool.entry p)) = some (bkt, 0) := by
  rw [slots_cons, find_slotsFrom isEmptyEntry, show bucketEntrySize - 0 = 14 + 1 from rfl, findSlot, if_pos empty]

/-- A search returns the first slot from the cursor on that matches. -/
theorem search_from {pool : BucketPool} {bkt keyhash fuel : Nat} {rest : List Nat}
    (linked : pool.Linked (bkt :: rest)) (enough : rest.length < fuel) (index : Nat) :
    searchIndexEntry pool keyhash fuel bkt index =
      .ok ((slotsFrom bkt index ++ slots rest).find?
        (fun p => matchIndexEntryTag (pool.entry p).tag keyhash)) := by
  induction rest generalizing bkt fuel index with
  | nil =>
    obtain ⟨fuel, rfl⟩ : ∃ k, fuel = k + 1 := ⟨fuel - 1, by omega⟩
    rw [find_slotsFrom (fun e => matchIndexEntryTag e.tag keyhash), searchIndexEntry]
    have last : nextSpareBucket pool bkt = none := linked
    rw [last]
    cases findSlot (fun e => matchIndexEntryTag e.tag keyhash) (pool.cells bkt) index
      (bucketEntrySize - index) <;> rfl
  | cons next rest ih =>
    obtain ⟨fuel, rfl⟩ : ∃ k, fuel = k + 1 := ⟨fuel - 1, by omega⟩
    simp only [List.length_cons] at enough
    rw [find_slotsFrom (fun e => matchIndexEntryTag e.tag keyhash), searchIndexEntry, linked.1, slots_cons]
    have later : searchIndexEntry pool keyhash fuel next 0 = _ := ih linked.2 (by omega) 0
    cases findSlot (fun e => matchIndexEntryTag e.tag keyhash) (pool.cells bkt) index
      (bucketEntrySize - index) with
    | some i => rfl
    | none => exact later

/-- A search from the start of a chain. -/
theorem search_spec {pool : BucketPool} {bkt keyhash fuel : Nat} {rest : List Nat}
    (linked : pool.Linked (bkt :: rest)) (enough : rest.length < fuel) :
    searchIndexEntry pool keyhash fuel bkt 0 =
      .ok ((slots (bkt :: rest)).find? (fun p => matchIndexEntryTag (pool.entry p).tag keyhash)) :=
  search_from linked enough 0

/-- A delete empties the first slot that matches. -/
theorem delete_spec {pool : BucketPool} {bkt fuel : Nat} {rest : List Nat} (keyhash offset : Nat)
    (linked : pool.Linked (bkt :: rest)) (enough : rest.length < fuel) :
    deleteIndexEntry pool keyhash offset fuel bkt =
      .ok (match (slots (bkt :: rest)).find? (fun p => matchIndexEntry (pool.entry p) keyhash offset) with
        | some p => deleteIndexEntryWithIndex pool p.1 p.2
        | none => pool) := by
  induction rest generalizing bkt fuel with
  | nil =>
    obtain ⟨fuel, rfl⟩ : ∃ k, fuel = k + 1 := ⟨fuel - 1, by omega⟩
    have last : nextSpareBucket pool bkt = none := linked
    rw [slots_cons, find_slotsFrom (fun e => matchIndexEntry e keyhash offset), deleteIndexEntry, last]
    cases findSlot (fun e => matchIndexEntry e keyhash offset) (pool.cells bkt) 0 bucketEntrySize <;> rfl
  | cons next rest ih =>
    obtain ⟨fuel, rfl⟩ : ∃ k, fuel = k + 1 := ⟨fuel - 1, by omega⟩
    simp only [List.length_cons] at enough
    rw [slots_cons, find_slotsFrom (fun e => matchIndexEntry e keyhash offset), deleteIndexEntry, linked.1]
    have later : deleteIndexEntry pool keyhash offset fuel next = _ := ih linked.2 (by omega)
    simp only [Nat.sub_zero]
    cases findSlot (fun e => matchIndexEntry e keyhash offset) (pool.cells bkt) 0 bucketEntrySize with
    | some i => rfl
    | none => exact later

/-- An insert fills the first empty slot of the chain, if there is one. -/
theorem insert_found {pool : BucketPool} {bkt fuel : Nat} {rest : List Nat} {p : Nat × Nat}
    (keyhash offset : Nat) (linked : pool.Linked (bkt :: rest)) (enough : rest.length < fuel)
    (found : (slots (bkt :: rest)).find? (fun p => isEmptyEntry (pool.entry p)) = some p) :
    insertIndexEntry keyhash offset fuel pool bkt =
      .ok (true, pool.setEntry p.1 p.2 ⟨lookupKeyTagHashPortion keyhash, offset % 2 ^ 48⟩) := by
  induction rest generalizing bkt fuel with
  | nil =>
    obtain ⟨fuel, rfl⟩ : ∃ k, fuel = k + 1 := ⟨fuel - 1, by omega⟩
    rw [slots_cons, find_slotsFrom isEmptyEntry] at found
    rw [insertIndexEntry]
    cases slot : findSlot isEmptyEntry (pool.cells bkt) 0 bucketEntrySize with
    | some i =>
      simp only [Nat.sub_zero, slot, Option.some.injEq] at found
      rw [← found]
    | none =>
      simp only [Nat.sub_zero, slot] at found
      cases found
  | cons next rest ih =>
    obtain ⟨fuel, rfl⟩ : ∃ k, fuel = k + 1 := ⟨fuel - 1, by omega⟩
    simp only [List.length_cons] at enough
    rw [slots_cons, find_slotsFrom isEmptyEntry] at found
    rw [insertIndexEntry, linked.1]
    cases slot : findSlot isEmptyEntry (pool.cells bkt) 0 bucketEntrySize with
    | some i =>
      simp only [Nat.sub_zero, slot, Option.some.injEq] at found
      rw [← found]
    | none =>
      simp only [Nat.sub_zero, slot] at found
      exact ih linked.2 (by omega) found

/-- An insert into a full chain comes to its last bucket. -/
theorem insert_full {pool : BucketPool} {bkt : Nat} {rest : List Nat} (keyhash offset : Nat)
    (linked : pool.Linked (bkt :: rest))
    (full : (slots (bkt :: rest)).find? (fun p => isEmptyEntry (pool.entry p)) = none) (fuel : Nat) :
    insertIndexEntry keyhash offset (fuel + rest.length + 1) pool bkt =
      match nextEmptySpareBucket pool with
      | (some next, pool') => insertIndexEntry keyhash offset fuel
          (pool'.setLink ((bkt :: rest).getLast (by simp))
            (sub64 next ((bkt :: rest).getLast (by simp)) % 2 ^ 32)) next
      | (none, pool') => .ok (false, pool') := by
  induction rest generalizing bkt with
  | nil =>
    have last : nextSpareBucket pool bkt = none := linked
    rw [slots_cons, find_slotsFrom isEmptyEntry] at full
    rw [List.length_nil, Nat.add_zero, insertIndexEntry, last]
    cases slot : findSlot isEmptyEntry (pool.cells bkt) 0 bucketEntrySize with
    | some i =>
      simp only [Nat.sub_zero, slot] at full
      cases full
    | none => rfl
  | cons next rest ih =>
    rw [slots_cons, find_slotsFrom isEmptyEntry] at full
    rw [insertIndexEntry, linked.1]
    cases slot : findSlot isEmptyEntry (pool.cells bkt) 0 bucketEntrySize with
    | some i =>
      simp only [Nat.sub_zero, slot] at full
      cases full
    | none =>
      simp only [Nat.sub_zero, slot] at full
      exact ih linked.2 full

/-- The first spare with version 0 among those a scan looks at is claimed. -/
theorem nextEmptySpareLoop_found {pool : BucketPool} {i n a : Nat} (here : i ≤ a) (there : a < i + n)
    (busy : ∀ j, i ≤ j → j < a → (pool.cells (pool.sparePtr j)).version ≠ 0)
    (free : (pool.cells (pool.sparePtr a)).version = 0) :
    nextEmptySpareLoop pool i n = (some (pool.sparePtr a), pool.setVersion (pool.sparePtr a) 2) := by
  induction n generalizing i with
  | zero => omega
  | succ n ih =>
    rw [nextEmptySpareLoop]
    rcases Nat.lt_or_eq_of_le here with before | rfl
    · rw [if_pos (busy i le_rfl before)]
      exact ih before (by omega) (fun j lower upper => busy j (by omega) upper)
    · rw [if_neg (by simpa using free)]

theorem nextEmptySpareLoop_none {pool : BucketPool} {i n : Nat}
    (busy : ∀ j, i ≤ j → j < i + n → (pool.cells (pool.sparePtr j)).version ≠ 0) :
    nextEmptySpareLoop pool i n = (none, pool) := by
  induction n generalizing i with
  | zero => rfl
  | succ n ih =>
    rw [nextEmptySpareLoop, if_pos (busy i le_rfl (by omega))]
    exact ih (fun j lower upper => busy j (by omega) (by omega))

@[simp] theorem BucketPool.setEntry_entry_same {pool : BucketPool} {e : IndexEntry} {p : Nat × Nat} :
    (pool.setEntry p.1 p.2 e).entry p = e := by
  simp [BucketPool.entry, BucketPool.setEntry, BucketPool.setCell]

theorem BucketPool.setEntry_entry_other {pool : BucketPool} {e : IndexEntry} {p q : Nat × Nat} (apart : q ≠ p) :
    (pool.setEntry p.1 p.2 e).entry q = pool.entry q := by
  obtain ⟨b, i⟩ := p
  obtain ⟨c, j⟩ := q
  simp only [BucketPool.entry, BucketPool.setEntry, BucketPool.setCell]
  by_cases here : c = b
  · subst here
    have different : j ≠ i := fun same => apart (by rw [same])
    simp [different]
  · rw [Function.update_of_ne here]

theorem BucketPool.setEntry_version {pool : BucketPool} {bkt : Nat} {e : IndexEntry} {p : Nat × Nat} :
    ((pool.setEntry p.1 p.2 e).cells bkt).version = (pool.cells bkt).version := by
  simp only [BucketPool.setEntry, BucketPool.setCell, Function.update_apply]
  split
  · rename_i here
    rw [here]
  · rfl

/-- A chain depends on the links of its buckets only. -/
theorem BucketPool.Linked.congr {pool : BucketPool} {chain : List Nat} {pool' : BucketPool}
    (linked : pool.Linked chain) (same : ∀ bkt ∈ chain, (pool'.cells bkt).offset = (pool.cells bkt).offset) :
    pool'.Linked chain := by
  have next : ∀ bkt ∈ chain, nextSpareBucket pool' bkt = nextSpareBucket pool bkt := by
    intro bkt member
    simp only [nextSpareBucket, same bkt member]
  induction chain with
  | nil => exact linked
  | cons bkt rest ih =>
    cases rest with
    | nil => exact (next bkt (by simp)).trans linked
    | cons following rest =>
      exact ⟨(next bkt (by simp)).trans linked.1,
        ih linked.2 (fun c member => same c (List.mem_cons_of_mem _ member))
        (fun c member => next c (List.mem_cons_of_mem _ member))⟩

/-- The slot apart, the rest of what a chain holds. -/
def BucketPool.heldOther (pool : BucketPool) (chain : List Nat) (p : Nat × Nat) : Multiset IndexEntry :=
  (((slots chain : Multiset (Nat × Nat)).erase p).map pool.entry).filter (fun e => isEmptyEntry e = false)

theorem BucketPool.held_split {pool : BucketPool} {chain : List Nat} {p : Nat × Nat} (member : p ∈ slots chain) :
    pool.held chain = (if isEmptyEntry (pool.entry p) = false then {pool.entry p} else 0) +
      pool.heldOther chain p := by
  have whole : (slots chain : Multiset (Nat × Nat)) = p ::ₘ (slots chain : Multiset (Nat × Nat)).erase p :=
    (Multiset.cons_erase (Multiset.mem_coe.mpr member)).symm
  unfold BucketPool.held BucketPool.heldOther
  nth_rewrite 1 [whole]
  rw [Multiset.map_cons, Multiset.filter_cons]

/-- Setting one slot of a chain leaves the rest of the chain as it was. -/
theorem BucketPool.heldOther_setEntry {pool : BucketPool} {chain : List Nat} {e : IndexEntry} {p : Nat × Nat}
    (nodup : chain.Nodup) :
    (pool.setEntry p.1 p.2 e).heldOther chain p = pool.heldOther chain p := by
  unfold BucketPool.heldOther
  congr 1
  refine Multiset.map_congr rfl ?_
  intro q member
  refine BucketPool.setEntry_entry_other ?_
  rintro rfl
  exact absurd rfl ((Multiset.Nodup.mem_erase_iff (Multiset.coe_nodup.mpr (slots_nodup nodup))).mp member).1

/-- Filling an empty slot of a chain adds the entry to what the chain holds. -/
theorem BucketPool.held_fill {pool : BucketPool} {chain : List Nat} {e : IndexEntry} {p : Nat × Nat}
    (nodup : chain.Nodup) (member : p ∈ slots chain) (empty : isEmptyEntry (pool.entry p) = true)
    (some : isEmptyEntry e = false) :
    (pool.setEntry p.1 p.2 e).held chain = e ::ₘ pool.held chain := by
  rw [BucketPool.held_split member, BucketPool.held_split member, BucketPool.heldOther_setEntry nodup]
  simp [empty, some]

/-- Emptying a slot of a chain takes its entry from what the chain holds. -/
theorem BucketPool.held_clear {pool : BucketPool} {chain : List Nat} {p : Nat × Nat} (nodup : chain.Nodup)
    (member : p ∈ slots chain) (some : isEmptyEntry (pool.entry p) = false) :
    pool.held chain = pool.entry p ::ₘ (deleteIndexEntryWithIndex pool p.1 p.2).held chain := by
  rw [BucketPool.held_split member, BucketPool.held_split member, deleteIndexEntryWithIndex,
    BucketPool.heldOther_setEntry nodup, if_pos some, BucketPool.setEntry_entry_same,
    if_neg (by simp [isEmptyEntry]), Multiset.zero_add, Multiset.singleton_add]

/-- What is held in a chain depends on the entries of its buckets only. -/
theorem BucketPool.held_congr {pool : BucketPool} {chain : List Nat} {pool' : BucketPool}
    (same : ∀ bkt ∈ chain, (pool'.cells bkt).entries = (pool.cells bkt).entries) :
    pool'.held chain = pool.held chain := by
  unfold BucketPool.held
  congr 1
  refine Multiset.map_congr rfl ?_
  intro p member
  simp only [BucketPool.entry, same p.1 (mem_slots.mp (Multiset.mem_coe.mp member)).1]

theorem BucketPool.held_append (pool : BucketPool) (chain rest : List Nat) :
    pool.held (chain ++ rest) = pool.held chain + pool.held rest := by
  simp only [BucketPool.held, slots_append, ← Multiset.coe_add, Multiset.map_add, Multiset.filter_add]

/-- A fresh bucket holds nothing. -/
theorem BucketPool.held_fresh {pool : BucketPool} {bkt : Nat}
    (empty : ∀ i, isEmptyEntry ((pool.cells bkt).entries i) = true) : pool.held [bkt] = 0 := by
  refine Multiset.filter_eq_nil.mpr fun e member => ?_
  obtain ⟨p, inside, rfl⟩ := Multiset.mem_map.mp member
  obtain ⟨here, -⟩ := mem_slots.mp (Multiset.mem_coe.mp inside)
  rw [List.mem_singleton] at here
  simp [BucketPool.entry, here, empty p.2]

theorem BucketPool.mem_held {pool : BucketPool} {chain : List Nat} {e : IndexEntry} :
    e ∈ pool.held chain ↔ e.tag ≠ 0 ∧ ∃ p ∈ slots chain, pool.entry p = e := by
  simp only [BucketPool.held, Multiset.mem_filter, Multiset.mem_map, Multiset.mem_coe, isEmptyEntry_eq_false]
  exact and_comm

/-- Where the offsets of a chain differ, no two of its occupied slots have the same. -/
theorem BucketPool.held_inj {pool : BucketPool} {chain : List Nat} {p q : Nat × Nat}
    (nodup : ((pool.held chain).map IndexEntry.offset).Nodup) (first : p ∈ slots chain)
    (second : q ∈ slots chain) (occupied : isEmptyEntry (pool.entry p) = false)
    (occupied' : isEmptyEntry (pool.entry q) = false) (same : (pool.entry p).offset = (pool.entry q).offset) :
    p = q := by
  rw [BucketPool.held, Multiset.filter_map, Multiset.map_map] at nodup
  exact Multiset.inj_on_of_nodup_map nodup p (Multiset.mem_filter.mpr ⟨first, occupied⟩) q
    (Multiset.mem_filter.mpr ⟨second, occupied'⟩) same

end Fkv
