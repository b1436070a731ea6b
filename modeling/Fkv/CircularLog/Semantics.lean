import Fkv.CircularLog.KvMap

namespace Fkv
open ByteMemory CWord Refinement Runs

/-- The table stands for the map. -/
structure Represents (L : Logs) (hash : List UInt8 → Nat) (log : Nat → Nat) (fuel : Nat)
    (t : KvTable SegregatedFits) (map : KvMap) : Prop where
  holds : ∃ dir leaked, (L.setting hash log).Holds t dir leaked ∧ map.Lists dir ∧ Untied t.bktPool.mainSize dir
  enough : t.bktPool.spareSize + 1 < fuel

namespace Represents

/-- A key of the map is met first in its chain. -/
theorem clear {map : KvMap} {entry : Mem} {fuel : Nat} {L : Logs} {hash : List UInt8 → Nat} {log : Nat → Nat}
    {t : KvTable SegregatedFits} {bytes : List UInt8} (represents : Represents L hash log fuel t map)
    (keyed : (L.setting hash log).Keyed entry) (found : map (entryKey entry) = some bytes) : t.Clear entry := by
  obtain ⟨⟨dir, leaked, holds, lists, untied⟩, -⟩ := represents
  obtain ⟨it, member, key, -⟩ := (lists _ _).mp found
  exact holds.clear_of_mem untied keyed member key

theorem finds {map : KvMap} {fuel : Nat} {L : Logs} {hash : List UInt8 → Nat} {log : Nat → Nat}
    {t : KvTable SegregatedFits} (represents : Represents L hash log fuel t map) :
    (L.setting hash log).Finds fuel t map := by
  intro asked bytes keyed found
  have clear := represents.clear keyed found
  obtain ⟨⟨dir, leaked, holds, lists, untied⟩, enough⟩ := represents
  obtain ⟨it, member, key, rfl⟩ := (lists _ _).mp found
  rcases holds.gets keyed clear (show t.bktPool.spareSize < fuel by omega) with
    ⟨absent, -⟩ | ⟨other, inside, same, got⟩
  · exact absurd (Multiset.mem_map.mpr ⟨it, member, key⟩) absent
  · obtain rfl := Multiset.inj_on_of_nodup_map holds.keys it member other inside (key.trans same.symm)
    exact got

/-- A call that is ready has the answer of the map. -/
theorem serves {map : KvMap} {fuel : Nat} {call : KvCall} {L : Logs} {hash : List UInt8 → Nat} {log : Nat → Nat}
    {t : KvTable SegregatedFits} (represents : Represents L hash log fuel t map)
    (legal : (L.setting hash log).Legal call ∧ (L.setting hash log).Bounded call) (ready : t.Ready L log call) :
    ∃ answer t', (L.setting hash log).Performs fuel t call answer t' ∧
      (KvMap.Fails call answer ∨ answer = map.answer call ∧ Represents L hash log fuel t' (map.after call)) := by
  obtain ⟨⟨dir, leaked, holds, lists, untied⟩, enough⟩ := represents
  obtain ⟨legal, bounded⟩ := legal
  cases call with
  | put entry =>
    obtain ⟨clear, room, fits⟩ := ready
    obtain ⟨⟨res, t'⟩, put⟩ := (Logs.put_returns_iff holds legal.1 bounded enough).mpr ⟨clear, fits⟩
    have alike := KvTable.put_alike put
    refine ⟨(res, entry), t', bind_eq_ok.mpr ⟨(res, t'), put, rfl⟩, ?_⟩
    rcases Logs.put_outcome holds legal.1 legal.2 bounded put with
      ⟨-, ⟨rfl, -⟩ | ⟨rfl, offset, held⟩⟩ | ⟨noRoom, -⟩
    · exact Or.inl rfl
    · refine Or.inr ⟨rfl, ⟨_, leaked, held, lists.after_put entry offset, ?_⟩, alike.spareSize ▸ enough⟩
      rw [alike.mainSize]
      exact untied.put holds clear
    · exact absurd room noRoom
  | get entry =>
    rcases holds.gets legal ready (show t.bktPool.spareSize < fuel by omega) with
      ⟨absent, got⟩ | ⟨it, member, key, got⟩
    · have nothing := lists.none_iff.mpr absent
      refine ⟨(false, entry), t, bind_eq_ok.mpr ⟨(false, entry), got, rfl⟩,
        Or.inr ⟨?_, ⟨dir, leaked, holds, lists, untied⟩, enough⟩⟩
      simp only [KvMap.answer, nothing]
    · have found := (lists _ _).mpr ⟨it, member, key, rfl⟩
      refine ⟨(true, writeBytes entry 0 it.bytes), t, bind_eq_ok.mpr ⟨(true, _), got, rfl⟩,
        Or.inr ⟨?_, ⟨dir, leaked, holds, lists, untied⟩, enough⟩⟩
      simp only [KvMap.answer, found]
  | remove entry =>
    obtain ⟨⟨res, t'⟩, removed⟩ := holds.remove_total legal ready (L.frees hash log) enough
    have alike := KvTable.remove_alike removed
    obtain ⟨held, result⟩ := holds.removes legal removed
    refine ⟨(res, entry), t', bind_eq_ok.mpr ⟨(res, t'), removed, rfl⟩,
      Or.inr ⟨?_, ⟨_, leaked, held, lists.remove _, ?_⟩, alike.spareSize ▸ enough⟩⟩
    · rw [KvMap.answer, Prod.mk.injEq, Bool.eq_iff_iff, result, Option.isSome_iff_ne_none, ne_eq, lists.none_iff,
        not_not]
      exact ⟨Iff.rfl, rfl⟩
    · rw [alike.mainSize]
      exact untied.filter

/-- A call that has the answer of the map, and leaves every key of the map to be
found, was ready. -/
theorem needs {map : KvMap} {fuel : Nat} {call : KvCall} {answer : Bool × Mem} {L : Logs}
    {hash : List UInt8 → Nat} {log : Nat → Nat} {t t' : KvTable SegregatedFits}
    (represents : Represents L hash log fuel t map)
    (legal : (L.setting hash log).Legal call ∧ (L.setting hash log).Bounded call)
    (done : (L.setting hash log).Performs fuel t call answer t')
    (outcome : KvMap.Fails call answer ∨ answer = map.answer call ∧
      (L.setting hash log).Finds fuel t' (map.after call)) :
    t.Ready L log call := by
  obtain ⟨⟨dir, leaked, holds, lists, untied⟩, enough⟩ := represents
  obtain ⟨legal, bounded⟩ := legal
  cases call with
  | put entry =>
    obtain ⟨⟨res, t₁⟩, put, performed⟩ := bind_eq_ok.mp done
    simp only [Except.ok.injEq, Prod.mk.injEq] at performed
    obtain ⟨result, -, rfl⟩ := performed
    obtain ⟨clear, fits⟩ := (Logs.put_returns_iff holds legal.1 bounded enough).mp ⟨_, put⟩
    refine ⟨clear, ?_, fits⟩
    rcases Logs.put_outcome holds legal.1 legal.2 bounded put with ⟨room, -⟩ | ⟨-, rfl, absent, block, held⟩
    · exact room
    · have lost : ¬ KvMap.Fails (.put entry) answer := by
        simp only [KvMap.Fails, ← result, Bool.true_eq_false, not_false_eq_true]
      have found := (outcome.resolve_left lost).2 entry _ legal.1 (Function.update_self ..)
      obtain ⟨placed, spares, claimed, chained⟩ := held.pool
      have clear' := KvTable.get_clear chained (held.main_lt _) found
      have alike := KvTable.put_alike put
      rcases held.gets legal.1 clear' (show t₁.bktPool.spareSize < fuel by have := alike.spareSize; omega) with
        ⟨-, got⟩ | ⟨it, member, key, -⟩
      · cases found.symm.trans got
      · exact absurd (Multiset.mem_map.mpr ⟨it, member, key⟩) absent
  | get entry =>
    obtain ⟨⟨res, left⟩, got, -⟩ := bind_eq_ok.mp done
    obtain ⟨placed, spares, claimed, chained⟩ := holds.pool
    exact KvTable.get_clear chained (holds.main_lt _) got
  | remove entry =>
    obtain ⟨⟨res, t₁⟩, removed, -⟩ := bind_eq_ok.mp done
    exact holds.remove_clear removed

end Represents

/-- A run on a fresh table answers as a finite map, and every key of the map is
found after each call, exactly when every call is ready in the state it meets. -/
theorem map_semantics_iff (L : Logs) (hash : List UInt8 → Nat) (log : Nat → Nat) (t : KvTable SegregatedFits)
    (fuel : Nat) (calls : List KvCall) (fresh : (L.setting hash log).Fresh t)
    (enough : t.bktPool.spareSize + 1 < fuel)
    (legal : ∀ call ∈ calls, (L.setting hash log).Legal call ∧ (L.setting hash log).Bounded call) :
    Refines ((L.setting hash log).Performs fuel) KvMap.spec ((L.setting hash log).Finds fuel) calls t KvMap.empty ↔
      Guarded ((L.setting hash log).Performs fuel) KvMap.spec (KvTable.Ready L log) calls t := by
  have start : Represents L hash log fuel t KvMap.empty :=
    ⟨⟨0, _, fresh.holds, fun key bytes => by simp [KvMap.empty], fun it member => by simp at member⟩, enough⟩
  refine refines_iff_guarded (fun s call b s' b' s'' first second => ?_) (fun s map => Represents.finds)
    (fun s map call => Represents.serves) (fun s map call b s' => Represents.needs) start legal
  have same := Except.ok.inj (first.symm.trans second)
  simp only [Prod.mk.injEq] at same
  exact ⟨Prod.ext same.1 same.2.1, same.2.2⟩

/-- The hash of `fullEntry 0`, and another key. -/
def twinEntry : Mem :=
  headerEntry [0, 5, 0, 0, 0, 0, 0, 0, 1, 0, 0, 0, 0, 0, 0, 0, 8, 0, 0, 0, 216, 4, 0, 0, 0, 0, 0, 0, 0, 0, 0,
    0, 0, 1]

theorem twinEntry_reads : initialSize twinEntry 0 = 1280 ∧ entryKeyhash twinEntry 0 = 1 ∧
    firstByte (entryKey twinEntry) = 1 ∧ Setting.Sized twinEntry ∧
    entryKey twinEntry ≠ entryKey (fullEntry 0) := by
  decide

theorem twinEntry_legal : oneSetting.Legal (.put twinEntry) ∧ oneSetting.Bounded (.put twinEntry) := by
  obtain ⟨size, keyhash, first, sized, -⟩ := twinEntry_reads
  refine ⟨⟨⟨?_, Nat.one_pos⟩, sized⟩, size.le⟩
  rw [keyhash]
  exact first.symm

theorem map_semantics_iff_one : ∃ t, KvTable.create (fun _ => smallRaw) (fun _ => 0) 4096 (2 ^ 40) 1 1 1 = .ok t ∧
    Refines (oneSetting.Performs 4) KvMap.spec (oneSetting.Finds 4) oneCalls t KvMap.empty ∧
    Guarded (oneSetting.Performs 4) KvMap.spec (KvTable.Ready oneLog (fun _ => 0)) oneCalls t := by
  obtain ⟨t, t₁, offset, created, fresh, spares, spares₁, performed, holds⟩ := onePut
  have empty : KvMap.Lists KvMap.empty 0 := fun key bytes => by simp [KvMap.empty]
  have before : Represents oneLog firstByte (fun _ => 0) 4 t KvMap.empty :=
    ⟨⟨0, _, fresh.holds, empty, fun it member => by simp at member⟩, by omega⟩
  have lists := empty.after_put (fullEntry 0) offset
  rw [Multiset.filter_zero] at lists
  have after : Represents oneLog firstByte (fun _ => 0) 4 t₁ (KvMap.empty.after (.put (fullEntry 0))) :=
    ⟨⟨_, _, holds, lists, Untied.alone _ _⟩, by omega⟩
  obtain ⟨keyed, -⟩ := fullEntry_legal (show 0 < 31 by decide)
  have known := Function.update_self (entryKey (fullEntry 0))
    (some (readBytes (fullEntry 0) 0 (initialSize (fullEntry 0) 0))) KvMap.empty
  obtain ⟨got, t₂, get, outcome₂⟩ :=
    after.serves (oneCalls_legal (.get (fullEntry 0)) (by simp [oneCalls])) (after.clear keyed known)
  obtain ⟨answer₂, after₂⟩ := outcome₂.resolve_left id
  obtain ⟨removed, t₃, remove, outcome₃⟩ :=
    after₂.serves (oneCalls_legal (.remove (fullEntry 0)) (by simp [oneCalls])) (after₂.clear keyed known)
  obtain ⟨answer₃, after₃⟩ := outcome₃.resolve_left id
  have refines : Refines (oneSetting.Performs 4) KvMap.spec (oneSetting.Finds 4) oneCalls t KvMap.empty :=
    ⟨before.finds, (true, fullEntry 0), t₁, performed, Or.inr ⟨rfl,
      after.finds, got, t₂, get, Or.inr ⟨answer₂,
        after₂.finds, removed, t₃, remove, Or.inr ⟨answer₃, after₃.finds⟩⟩⟩⟩
  exact ⟨t, created, refines,
    (map_semantics_iff oneLog firstByte (fun _ => 0) t 4 oneCalls fresh (by omega) oneCalls_legal).mp refines⟩

/-- A put of a key whose tag the first entry of the chain has never returns. -/
theorem put_hangs : ∃ t t₁, KvTable.create (fun _ => smallRaw) (fun _ => 0) 4096 (2 ^ 40) 1 1 1 = .ok t ∧
    (∀ call ∈ [.put (fullEntry 0), .put twinEntry], oneSetting.Legal call ∧ oneSetting.Bounded call) ∧
    oneSetting.Performs 4 t (.put (fullEntry 0)) (true, fullEntry 0) t₁ ∧
    (∀ fuel r, oneSetting.perform fuel t₁ (.put twinEntry) ≠ .ok r) ∧
    ¬ Refines (oneSetting.Performs 4) KvMap.spec (oneSetting.Finds 4) [.put (fullEntry 0),
      .put twinEntry] t KvMap.empty := by
  obtain ⟨t, t₁, offset, created, fresh, spares, spares₁, performed, holds⟩ := onePut
  obtain ⟨-, keyhash, -, -, different⟩ := twinEntry_reads
  have hangs : ∀ fuel r, oneSetting.perform fuel t₁ (.put twinEntry) ≠ .ok r := by
    intro fuel r performed
    obtain ⟨⟨res, t₂⟩, put, -⟩ := bind_eq_ok.mp performed
    have same : (entryItem (fullEntry 0) offset).keyhash = entryKeyhash twinEntry 0 :=
      (fullEntry_reads 0 (by decide)).2.1.trans keyhash.symm
    have key := holds.tagged_key (Untied.alone _ _) (holds.put_clear put) (Multiset.mem_cons_self _ _)
      (congrArg (bucketIndex t₁.bktPool.mainSize) same) (congrArg lookupKeyTagHashPortion same)
    exact different key.symm
  refine ⟨t, t₁, created, ?_, performed, hangs, ?_⟩
  · simp only [List.mem_cons, List.not_mem_nil, or_false, forall_eq_or_imp, forall_eq]
    exact ⟨⟨fullEntry_legal (by decide), (fullEntry_reads 0 (by decide)).1.le⟩, twinEntry_legal⟩
  · rintro ⟨-, answer, t₂, again, outcome⟩
    have same := Except.ok.inj (performed.symm.trans again)
    simp only [Prod.mk.injEq] at same
    obtain ⟨result, -, rfl⟩ := same
    have stored : ¬ KvMap.Fails (.put (fullEntry 0)) answer := by
      simp only [KvMap.Fails, ← result, Bool.true_eq_false, not_false_eq_true]
    obtain ⟨-, -, answer', t₃, second, -⟩ := outcome.resolve_left stored
    exact hangs 4 _ second

end Fkv
