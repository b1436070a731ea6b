import Fkv.CircularLog.Storage
import Fkv.Lib.Refinement

namespace Fkv
open ByteMemory CWord Refinement Runs

/-- A finite map from keys to the bytes of their entries. -/
abbrev KvMap := List UInt8 → Option (List UInt8)

namespace KvMap

def empty : KvMap := fun _ => none

def answer (map : KvMap) : KvCall → Bool × Mem
  | .put entry => (true, entry)
  | .get entry =>
    match map (entryKey entry) with
    | some bytes => (true, writeBytes entry 0 bytes)
    | none => (false, entry)
  | .remove entry => ((map (entryKey entry)).isSome, entry)

def after (map : KvMap) : KvCall → KvMap
  | .put entry => Function.update map (entryKey entry) (some (readBytes entry 0 (initialSize entry 0)))
  | .get _ => map
  | .remove entry => Function.update map (entryKey entry) none

/-- A put that returns false. -/
def Fails : KvCall → Bool × Mem → Prop
  | .put _, (res, _) => res = false
  | _, _ => False

/-- What the calls on a table mean. -/
def spec : Spec KvMap KvCall (Bool × Mem) := ⟨answer, after, Fails⟩

end KvMap

/-- The call ends with this answer: its result and the caller's entry after it. -/
def Setting.Performs {σ : Type} (S : Setting σ) (fuel : Nat) (t : KvTable σ) (call : KvCall) (answer : Bool × Mem)
    (t' : KvTable σ) : Prop :=
  S.perform fuel t call = .ok (answer.1, answer.2, t')

/-- A get of any key of the map finds its bytes. -/
def Setting.Finds {σ : Type} (S : Setting σ) (fuel : Nat) (t : KvTable σ) (map : KvMap) : Prop :=
  ∀ asked bytes, S.Keyed asked → map (entryKey asked) = some bytes →
    t.getCircularLogEntry fuel asked = .ok (true, writeBytes asked 0 bytes)

/-- The allocator of log `l` once the block of the key, if there is one, has been
freed. -/
def KvTable.Vacated (t : KvTable SegregatedFits) (l : Nat) (entry : Mem) (h : Heap) : Prop :=
  (∀ p, ¬ t.Present entry p) ∧ h = t.heap l ∨
    ∃ p, t.Present entry p ∧
      freeSegregatedFitsBlock (t.heap l) (add64 t.baseAddr (t.bktPool.entry p).offset) = .ok h

/-- The cut a get of a block makes for this size, if it makes one, leaves a
remainder that together with the free run behind it is of some class. -/
def CutFits (A : Arena) (h : Heap) (dataSize : Nat) : Prop :=
  ∀ lay : Layout, lay.Settled → Rep A h lay → lay.CutFits A (requestClass dataSize)

/-- The first entry of the chain with the tag of the key, if there is one, is that
of the key; for a put there is room, and the block it takes is cut well. -/
def KvTable.Ready (L : Logs) (log : Nat → Nat) (t : KvTable SegregatedFits) : KvCall → Prop
  | .put entry => t.Clear entry ∧ t.Room L log (.put entry) ∧
      ∀ h, t.Vacated (log (entryKeyhash entry 0)) entry h →
        CutFits (L.arena (log (entryKeyhash entry 0))) h (initialSize entry 0)
  | .get entry => t.Clear entry
  | .remove entry => t.Clear entry

/-- The map holds the bytes of the items, and nothing else. -/
def KvMap.Lists (map : KvMap) (dir : Multiset Item) : Prop :=
  ∀ key bytes, map key = some bytes ↔ ∃ it ∈ dir, it.key = key ∧ it.bytes = bytes

/-- No two keys of one chain have the same tag. -/
def Untied (mainSize : Nat) (dir : Multiset Item) : Prop :=
  ∀ it ∈ dir, ∀ other ∈ dir, it.main mainSize = other.main mainSize →
    lookupKeyTagHashPortion it.keyhash = lookupKeyTagHashPortion other.keyhash → it.key = other.key

variable {σ : Type}

namespace KvTable

/-- At a slot with the tag of the key and another key a get never ends. -/
theorem getLoop_stuck {t : KvTable σ} {entry : Mem} {fuel bkt index : Nat}
    (matching : matchIndexEntryTag (t.bktPool.entry (bkt, index)).tag (entryKeyhash entry 0) = true)
    (inside : index < bucketEntrySize)
    (differs : t.matchCircularLogEntryKey entry (t.bktPool.entry (bkt, index)).offset ≠ true) (n : Nat) :
    getLoop fuel entry n t bkt index = .error .outOfFuel := by
  induction n with
  | zero => rfl
  | succ n ih =>
    cases fuel with
    | zero => rfl
    | succ fuel =>
      rw [getLoop, search_again matching inside, ok_bind]
      simp only
      rw [if_neg (fun both => differs both.2)]
      exact ih

/-- A loop that ends has met no other key first. -/
theorem removeLoop_clear {alloc : Allocator σ} {t t' : KvTable σ} {entry : Mem} {res : Bool}
    {spares : Nat → List Nat} {claimed fuel l n : Nat} (chained : Chained t.bktPool spares claimed)
    (main : bucketIndex t.bktPool.mainSize (entryKeyhash entry 0) < t.bktPool.mainSize)
    (done : t.removeLoop alloc fuel l entry n (getEntryBucket t.bktPool entry) 0 = .ok (res, t')) :
    t.Clear entry := by
  intro p first
  obtain ⟨slot, matching⟩ := BucketPool.firstTagged_some first
  by_contra differs
  cases n with
  | zero => cases done
  | succ n =>
    rw [removeLoop] at done
    obtain ⟨found, search, done⟩ := bind_eq_ok.mp done
    obtain rfl : found = some p := (chained.search_ok main search).trans first
    simp only at done
    rw [if_neg (fun both => differs both.2),
      removeLoop_stuck matching (mem_slots.mp slot).2 differs] at done
    cases done

theorem get_clear {t : KvTable σ} {entry entry' : Mem} {res : Bool} {spares : Nat → List Nat}
    {claimed fuel : Nat} (chained : Chained t.bktPool spares claimed)
    (main : bucketIndex t.bktPool.mainSize (entryKeyhash entry 0) < t.bktPool.mainSize)
    (done : t.getCircularLogEntry fuel entry = .ok (res, entry')) : t.Clear entry := by
  intro p first
  obtain ⟨slot, matching⟩ := BucketPool.firstTagged_some first
  by_contra differs
  cases fuel with
  | zero => cases done
  | succ fuel =>
    rw [getCircularLogEntry, getRetry] at done
    obtain ⟨⟨ret, left⟩, loop, -⟩ := bind_eq_ok.mp done
    rw [getLoop] at loop
    obtain ⟨found, search, loop⟩ := bind_eq_ok.mp loop
    obtain rfl : found = some p := (chained.search_ok main search).trans first
    simp only at loop
    rw [if_neg (fun both => differs both.2), getLoop_stuck matching (mem_slots.mp slot).2 differs] at loop
    cases loop

end KvTable

namespace Setting.Holds

/-- The call that ends has met no other key first. -/
theorem remove_clear {alloc : Allocator σ} {S : Setting σ} {t t' : KvTable σ} {dir : Multiset Item}
    {leaked : Nat → Multiset (Nat × Nat)} {entry : Mem} {res : Bool} {fuel l : Nat}
    (holds : S.Holds t dir leaked) (done : t.removeCircularLogEntry alloc fuel l entry = .ok (res, t')) :
    t.Clear entry := by
  obtain ⟨placed, spares, claimed, chained⟩ := holds.pool
  have main := holds.main_lt (entryKeyhash entry 0)
  rw [KvTable.removeCircularLogEntry] at done
  obtain ⟨pool, lock, done⟩ := bind_eq_ok.mp done
  obtain ⟨version, rfl⟩ := lockBucket_ok lock
  obtain ⟨⟨ret, t₁⟩, removal, -⟩ := bind_eq_ok.mp done
  exact (chained.clear_setVersion placed main).mp
    (KvTable.removeLoop_clear (chained.setVersion placed main version) main removal)

theorem put_clear {alloc : Allocator σ} {S : Setting σ} {t t' : KvTable σ} {dir : Multiset Item}
    {leaked : Nat → Multiset (Nat × Nat)} {entry : Mem} {res : Bool} {fuel l : Nat}
    (holds : S.Holds t dir leaked) (done : t.putCircularLogEntry alloc fuel l entry = .ok (res, t')) :
    t.Clear entry := by
  obtain ⟨placed, spares, claimed, chained⟩ := holds.pool
  have main := holds.main_lt (entryKeyhash entry 0)
  rw [KvTable.putCircularLogEntry] at done
  obtain ⟨pool, lock, done⟩ := bind_eq_ok.mp done
  obtain ⟨version, rfl⟩ := lockBucket_ok lock
  obtain ⟨⟨ret, t₁⟩, removal, -⟩ := bind_eq_ok.mp done
  exact (chained.clear_setVersion placed main).mp
    (KvTable.removeLoop_clear (chained.setVersion placed main version) main removal)

/-- A put that returns has asked the allocator. -/
theorem put_asks {S : Setting σ} {t t' : KvTable σ} {dir : Multiset Item} {leaked : Nat → Multiset (Nat × Nat)}
    {entry : Mem} {res : Bool} {fuel : Nat} (holds : S.Holds t dir leaked) (keyed : S.Keyed entry)
    (done : t.putCircularLogEntry S.alloc fuel (S.log (entryKeyhash entry 0)) entry = .ok (res, t')) :
    ∃ m s r, S.Cleared t entry dir m s ∧ S.alloc.get m s (initialSize entry 0 % 2 ^ 32) = .ok r := by
  rw [KvTable.putCircularLogEntry] at done
  obtain ⟨pool, lock, done⟩ := bind_eq_ok.mp done
  obtain ⟨version, rfl⟩ := lockBucket_ok lock
  obtain ⟨⟨ret, t₁⟩, removal, done⟩ := bind_eq_ok.mp done
  obtain ⟨r, got, -⟩ := bind_eq_ok.mp done
  exact ⟨_, _, r, holds.cleared keyed removal, got⟩

/-- An item with the chain and the tag of a key that is met first has that key. -/
theorem tagged_key {S : Setting σ} {t : KvTable σ} {dir : Multiset Item} {leaked : Nat → Multiset (Nat × Nat)}
    {it : Item} {entry : Mem} (holds : S.Holds t dir leaked) (untied : Untied t.bktPool.mainSize dir)
    (clear : t.Clear entry) (member : it ∈ dir)
    (main : it.main t.bktPool.mainSize = bucketIndex t.bktPool.mainSize (entryKeyhash entry 0))
    (tag : lookupKeyTagHashPortion it.keyhash = lookupKeyTagHashPortion (entryKeyhash entry 0)) :
    it.key = entryKey entry := by
  have listed := holds.listed member
  rw [main] at listed
  cases first : t.bktPool.firstTagged (entryKeyhash entry 0) with
  | none => exact absurd (by rw [Item.index, tag]) (BucketPool.untagged first listed)
  | some p =>
    obtain ⟨slot, matching⟩ := BucketPool.firstTagged_some first
    obtain ⟨other, inside, here, index, same⟩ := holds.match_item (holds.main_lt _) slot matching
    have tagged := matchIndexEntryTag_iff.mp matching
    rw [← index, Item.index] at tagged
    rw [untied it member other inside (main.trans here.symm) (tag.trans tagged.symm)]
    exact same.mp (clear p first)

/-- A key of the table is met first in its chain. -/
theorem clear_of_mem {S : Setting σ} {t : KvTable σ} {dir : Multiset Item} {leaked : Nat → Multiset (Nat × Nat)}
    {it : Item} {entry : Mem} (holds : S.Holds t dir leaked) (untied : Untied t.bktPool.mainSize dir)
    (keyed : S.Keyed entry) (member : it ∈ dir) (key : it.key = entryKey entry) : t.Clear entry := by
  intro p first
  obtain ⟨slot, matching⟩ := BucketPool.firstTagged_some first
  obtain ⟨other, inside, here, index, same⟩ := holds.match_item (holds.main_lt _) slot matching
  have tagged := matchIndexEntryTag_iff.mp matching
  rw [← index, Item.index] at tagged
  have hash : it.keyhash = entryKeyhash entry 0 := by rw [holds.hashed it member, key, keyed.hash]
  refine same.mpr ((untied other inside it member ?_ ?_).trans key)
  · rw [here, Item.main, hash]
  · rw [hash]
    exact tagged

end Setting.Holds

theorem Untied.alone (mainSize : Nat) (it : Item) : Untied mainSize (it ::ₘ 0) :=
  fun other member other' member' _ _ => by
  rw [Multiset.mem_cons.mp member |>.resolve_right (by simp),
    Multiset.mem_cons.mp member' |>.resolve_right (by simp)]

theorem Untied.filter {dir : Multiset Item} {mainSize : Nat} {p : Item → Prop} [DecidablePred p]
    (untied : Untied mainSize dir) :
    Untied mainSize (dir.filter p) := fun it member other member' =>
  untied it (Multiset.mem_of_mem_filter member) other (Multiset.mem_of_mem_filter member')

/-- The key of a put that ends shares its tag with no other key of its chain. -/
theorem Untied.put {S : Setting σ} {t : KvTable σ} {dir : Multiset Item} {leaked : Nat → Multiset (Nat × Nat)}
    {entry : Mem} {offset : Nat} (untied : Untied t.bktPool.mainSize dir) (holds : S.Holds t dir leaked)
    (clear : t.Clear entry) :
    Untied t.bktPool.mainSize (entryItem entry offset ::ₘ dir.filter (fun it => it.key ≠ entryKey entry)) := by
  have alone : ∀ it ∈ dir.filter (fun it => it.key ≠ entryKey entry),
      it.main t.bktPool.mainSize = (entryItem entry offset).main t.bktPool.mainSize →
      lookupKeyTagHashPortion it.keyhash ≠ lookupKeyTagHashPortion (entryItem entry offset).keyhash := by
    intro it member main tag
    obtain ⟨old, other⟩ := Multiset.mem_filter.mp member
    exact other (holds.tagged_key untied clear old main tag)
  intro it member other member' main tag
  rcases Multiset.mem_cons.mp member with rfl | old
  · rcases Multiset.mem_cons.mp member' with rfl | old'
    · rfl
    · exact absurd tag.symm (alone other old' main.symm)
  · rcases Multiset.mem_cons.mp member' with rfl | old'
    · exact absurd tag (alone it old main)
    · exact untied.filter it old other old' main tag

namespace KvMap.Lists

theorem none_iff {dir : Multiset Item} {map : KvMap} (lists : map.Lists dir) {key : List UInt8} :
    map key = none ↔ key ∉ dir.map Item.key := by
  rw [Option.eq_none_iff_forall_ne_some]
  constructor
  · intro nothing member
    obtain ⟨it, inside, rfl⟩ := Multiset.mem_map.mp member
    exact nothing it.bytes ((lists it.key it.bytes).mpr ⟨it, inside, rfl, rfl⟩)
  · intro absent bytes found
    obtain ⟨it, inside, rfl, -⟩ := (lists key bytes).mp found
    exact absent (Multiset.mem_map_of_mem _ inside)

theorem remove {dir : Multiset Item} {map : KvMap} (lists : map.Lists dir) (gone : List UInt8) :
    KvMap.Lists (Function.update map gone none) (dir.filter (fun it => it.key ≠ gone)) := by
  intro key bytes
  by_cases here : key = gone
  · subst here
    rw [Function.update_self]
    refine iff_of_false (by simp) ?_
    rintro ⟨it, member, same, -⟩
    exact (Multiset.mem_filter.mp member).2 same
  · rw [Function.update_of_ne here, lists key bytes]
    constructor
    · rintro ⟨it, member, rfl, rfl⟩
      exact ⟨it, Multiset.mem_filter.mpr ⟨member, here⟩, rfl, rfl⟩
    · rintro ⟨it, member, rest⟩
      exact ⟨it, Multiset.mem_of_mem_filter member, rest⟩

theorem put {dir : Multiset Item} {map : KvMap} (lists : map.Lists dir) (it : Item) :
    KvMap.Lists (Function.update map it.key (some it.bytes))
      (it ::ₘ dir.filter (fun other => other.key ≠ it.key)) := by
  intro key bytes
  have others := lists.remove it.key key bytes
  by_cases here : key = it.key
  · subst here
    rw [Function.update_self, Option.some.injEq]
    constructor
    · rintro rfl
      exact ⟨it, Multiset.mem_cons_self _ _, rfl, rfl⟩
    · rintro ⟨other, member, same, rfl⟩
      rcases Multiset.mem_cons.mp member with rfl | old
      · rfl
      · exact absurd same (Multiset.mem_filter.mp old).2
  · rw [Function.update_of_ne here] at others ⊢
    rw [others]
    constructor
    · rintro ⟨other, member, rest⟩
      exact ⟨other, Multiset.mem_cons_of_mem member, rest⟩
    · rintro ⟨other, member, rfl, rfl⟩
      rcases Multiset.mem_cons.mp member with rfl | old
      · exact absurd rfl here
      · exact ⟨other, old, rfl, rfl⟩

theorem after_put {dir : Multiset Item} {map : KvMap} (lists : map.Lists dir) (entry : Mem) (offset : Nat) :
    (map.after (.put entry)).Lists (entryItem entry offset ::ₘ dir.filter (fun it => it.key ≠ entryKey entry)) :=
  lists.put (entryItem entry offset)

end KvMap.Lists

/-- Where the cut fits the allocator answers, and only there. -/
theorem SegregatedFits.Serving.get_iff {n : Nat} {A : Arena} {live : Multiset (Nat × Nat)} {h : Heap}
    (serving : SegregatedFits.Serving A h.mem h.sfits live) (request : n ≤ 8 * A.len) :
    (∃ r, segregatedFits.get h.mem h.sfits n = .ok r) ↔ CutFits A h n := by
  constructor
  · rintro ⟨r, got⟩ lay settled rep
    obtain ⟨⟨x, h'⟩, run, -⟩ := bind_eq_ok.mp got
    by_contra beyond
    rw [(rep.get settled request).2 beyond] at run
    cases run
  · intro fits
    obtain ⟨blocks, -, lay, serves⟩ := serving
    obtain ⟨x, h', lay', run, -⟩ := (serves.rep.get serves.settled request).1 (fits lay serves.settled serves.rep)
    exact ⟨_, bind_eq_ok.mpr ⟨(x, h'), run, rfl⟩⟩

namespace Logs

/-- The state of the allocator in which a put asks for a block. -/
theorem vacated {dir : Multiset Item} {leaked : Nat → Multiset (Nat × Nat)} {entry : Mem} {L : Logs}
    {hash : List UInt8 → Nat} {log : Nat → Nat} {t : KvTable SegregatedFits} {h : Heap}
    (holds : (L.setting hash log).Holds t dir leaked) (keyed : (L.setting hash log).Keyed entry)
    (cleared : (L.setting hash log).Cleared t entry dir h.mem h.sfits) :
    t.Vacated (log (entryKeyhash entry 0)) entry h ∧
      ∃ live, SegregatedFits.Serving (L.arena (log (entryKeyhash entry 0))) h.mem h.sfits live := by
  rcases cleared with ⟨absent, mem, sfits⟩ | ⟨it, member, key, freed⟩
  · have serving : SegregatedFits.Serving (L.arena (log (entryKeyhash entry 0))) t.mem
      (t.sfits (log (entryKeyhash entry 0))) _ :=
      holds.serving (log (entryKeyhash entry 0)) keyed.log
    rw [← mem, ← show h.sfits = t.sfits (log (entryKeyhash entry 0)) from sfits] at serving
    refine ⟨Or.inl ⟨fun p present => ?_, ?_⟩, _, serving⟩
    · obtain ⟨it, member, key, -⟩ := holds.present_item present
      exact absent (Multiset.mem_map.mpr ⟨it, member, key⟩)
    · rw [KvTable.heap, ← mem]
      exact congrArg (Heap.mk h.mem) sfits
  · have same : it.keyhash = entryKeyhash entry 0 := by rw [holds.hashed it member, key, keyed.hash]
    obtain ⟨p, present, offset⟩ := holds.present keyed member key
    refine ⟨Or.inr ⟨p, present, ?_⟩, ?_⟩
    · obtain ⟨h₁, run, result⟩ := bind_eq_ok.mp freed
      rw [Except.ok.injEq, Prod.mk.injEq, ← Heap.mk.injEq] at result
      obtain rfl : h₁ = h := result
      rw [offset, holds.address member]
      exact run
    · obtain ⟨rest, rfl⟩ := Multiset.exists_cons_of_mem member
      have serving := holds.serving _ keyed.log
      rw [Setting.blocks_cons, same, Function.update_self, Multiset.add_cons] at serving
      exact ⟨_, (((L.setting hash log).lawful _ keyed.log).free serving freed).1⟩

/-- There is one such state. -/
theorem vacated_unique {dir : Multiset Item} {leaked : Nat → Multiset (Nat × Nat)} {entry : Mem} {l : Nat}
    {L : Logs} {hash : List UInt8 → Nat} {log : Nat → Nat} {t : KvTable SegregatedFits} {h h' : Heap}
    (holds : (L.setting hash log).Holds t dir leaked) (first : t.Vacated l entry h)
    (second : t.Vacated l entry h') : h = h' := by
  rcases first with ⟨absent, rfl⟩ | ⟨p, present, freed⟩
  · rcases second with ⟨-, rfl⟩ | ⟨p, present, -⟩
    · rfl
    · exact absurd present (absent p)
  · rcases second with ⟨absent, -⟩ | ⟨q, present', freed'⟩
    · exact absurd present (absent p)
    · obtain ⟨it, member, key, offset⟩ := holds.present_item present
      obtain ⟨other, member', key', offset'⟩ := holds.present_item present'
      obtain rfl := Multiset.inj_on_of_nodup_map holds.keys it member other member' (key.trans key'.symm)
      rw [offset] at freed
      rw [offset', freed] at freed'
      exact Except.ok.inj freed'

/-- A put returns exactly where its key is met first and its cut fits. -/
theorem put_returns_iff {dir : Multiset Item} {leaked : Nat → Multiset (Nat × Nat)} {entry : Mem} {fuel : Nat}
    {L : Logs} {hash : List UInt8 → Nat} {log : Nat → Nat} {t : KvTable SegregatedFits}
    (holds : (L.setting hash log).Holds t dir leaked) (keyed : (L.setting hash log).Keyed entry)
    (bounded : initialSize entry 0 ≤ segregatedMaxDataSize) (enough : t.bktPool.spareSize + 1 < fuel) :
    (∃ r, t.putCircularLogEntry segregatedFits fuel (log (entryKeyhash entry 0)) entry = .ok r) ↔
      t.Clear entry ∧ ∀ h, t.Vacated (log (entryKeyhash entry 0)) entry h →
        CutFits (L.arena (log (entryKeyhash entry 0))) h (initialSize entry 0) := by
  have size : initialSize entry 0 % 2 ^ 32 = initialSize entry 0 :=
    Nat.mod_eq_of_lt (bounded.trans_lt (by decide))
  have request : initialSize entry 0 ≤ 8 * (L.arena (log (entryKeyhash entry 0))).len := by
    have len := L.len (log (entryKeyhash entry 0)) keyed.log
    rw [len]
    exact bounded
  constructor
  · rintro ⟨⟨res, t'⟩, put⟩
    refine ⟨holds.put_clear put, fun h vacant => ?_⟩
    obtain ⟨m, s, r, cleared, got⟩ := holds.put_asks keyed put
    obtain ⟨here, live, serving⟩ := vacated (h := ⟨m, s⟩) holds keyed cleared
    obtain rfl := vacated_unique holds here vacant
    rw [size] at got
    exact (SegregatedFits.Serving.get_iff serving request).mp ⟨r, got⟩
  · rintro ⟨clear, fits⟩
    refine holds.put_total keyed clear (L.frees hash log) enough fun m s cleared => ?_
    obtain ⟨here, live, serving⟩ := vacated (h := ⟨m, s⟩) holds keyed cleared
    rw [size]
    exact (SegregatedFits.Serving.get_iff serving request).mpr (fits _ here)

end Logs

end Fkv
