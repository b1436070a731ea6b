import Fkv.CircularLog.Reader
import Fkv.CircularLog.Semantics

namespace Fkv
open ByteMemory CWord OptimisticRead Runs

/-- A thread that calls `get_circular_log_entry`: where the call is, what the buffer
held when its last attempt began, how often the version of its bucket has changed
since then, how many attempts there have been and how often that version has
changed since the call, and the tables there have been since the call. -/
structure Watch (σ : Type) where
  reader : Reader
  begun : Mem
  changes : Nat
  attempts : Nat
  altered : Nat
  seen : List (KvTable σ)

/-- A table, the writes the put or remove under way has yet to make, and the
threads that read. -/
structure Race (σ τ : Type) where
  table : KvTable σ
  pending : List (KvTable σ)
  watches : τ → Watch σ

/-- A put or remove starts, its next write happens, a thread calls get, or it makes
its next access. -/
inductive RaceAct (τ : Type)
  | call (call : KvCall)
  | write
  | ask (i : τ) (entry : Mem)
  | read (i : τ)

/-- Within a call. -/
def Reader.busy (r : Reader) : Bool :=
  match r.pc with
  | .idle | .done _ => false
  | _ => true

/-- Within an attempt. -/
def Reader.reading (r : Reader) : Bool :=
  match r.pc with
  | .idle | .load | .done _ => false
  | _ => true

variable {σ τ : Type}

def Watch.ask (t : KvTable σ) (entry : Mem) : Watch σ := ⟨.ask t entry, entry, 0, 0, 0, [t]⟩

def Watch.read (t : KvTable σ) (w : Watch σ) : Watch σ :=
  { w with
    reader := w.reader.step t
    begun := if w.reader.pc = .load then w.reader.entry else w.begun
    changes := if w.reader.pc = .load then 0 else w.changes
    attempts := if w.reader.pc = .load then w.attempts + 1 else w.attempts }

def Watch.wrote (t u : KvTable σ) (w : Watch σ) : Watch σ :=
  if w.reader.busy then
    { w with
      changes := if (u.bktPool.cells w.reader.bkt).version = (t.bktPool.cells w.reader.bkt).version then w.changes
        else w.changes + 1
      altered := if (u.bktPool.cells w.reader.bkt).version = (t.bktPool.cells w.reader.bkt).version then w.altered
        else w.altered + 1
      seen := u :: w.seen }
  else w

def Race.start (t : KvTable σ) : Race σ τ :=
  ⟨t, [], fun _ => ⟨⟨fun _ => 0, fun _ => 0, 0, 0, .idle⟩, fun _ => 0, 0, 0, 0, []⟩⟩

def Setting.raceStep [DecidableEq τ] (S : Setting σ) (fuel : Nat) (s : Race σ τ) :
    RaceAct τ → Except Fault (Race σ τ)
  | .call call => do
    let (_, writes) ← S.callTrace fuel s.table call
    .ok { s with pending := writes }
  | .write =>
    match s.pending with
    | [] => .ok s
    | next :: rest => .ok ⟨next, rest, fun i => (s.watches i).wrote s.table next⟩
  | .ask i entry => .ok { s with watches := Function.update s.watches i (.ask s.table entry) }
  | .read i => .ok { s with watches := Function.update s.watches i ((s.watches i).read s.table) }

/-- Writers take turns and their puts succeed; a thread makes one call at a time. -/
def Setting.RaceLegal (S : Setting σ) (fuel : Nat) (s : Race σ τ) : RaceAct τ → Prop
  | .call call => s.pending = [] ∧ S.Legal call ∧ S.Bounded call ∧ ∀ entry, call = .put entry → ∀ writes,
      S.callTrace fuel s.table call ≠ .ok (false, writes)
  | .write => True
  | .ask i _ => (s.watches i).reader.busy = false
  | .read _ => True

/-- The get that has returned did so from an attempt that the version of its bucket
did not change in, or changed in often enough to come round. In the first case,
if the version was even, the attempt did what it does alone in a table there was
during the call, with the buffer it began with. -/
def Watch.Linearizes (w : Watch σ) : Prop :=
  ∀ ret, w.reader.pc = .done ret → w.changes % 2 ^ 32 = 0 ∧
    (w.changes = 0 → w.reader.versionBegining % 2 = 0 → ∃ t ∈ w.seen,
      (t.bktPool.cells w.reader.bkt).version = w.reader.versionBegining ∧
      ∃ fuel, t.getRetry fuel w.reader.bkt fuel w.begun = .ok (ret, w.reader.entry))

/-- If moreover the buffer held the key and the hash of the caller, the get returned
true with the whole entry that was in the table under that key, or false when
there was none. -/
def Watch.Answers (w : Watch σ) : Prop :=
  ∀ ret, w.reader.pc = .done ret → w.changes = 0 → w.reader.versionBegining % 2 = 0 →
    entryKeyhash w.begun 0 = entryKeyhash w.reader.asked 0 → entryKey w.begun = entryKey w.reader.asked →
    ∃ t ∈ w.seen, (t.bktPool.cells w.reader.bkt).version = w.reader.versionBegining ∧
      if ret then ∃ p, t.Present w.reader.asked p ∧
        readBytes w.reader.entry 0 (initialSize t.mem (add64 t.baseAddr (t.bktPool.entry p).offset)) =
          readBytes t.mem (add64 t.baseAddr (t.bktPool.entry p).offset)
            (initialSize t.mem (add64 t.baseAddr (t.bktPool.entry p).offset))
      else ∀ p, ¬ t.Present w.reader.asked p

namespace Setting

/-- Between two writes: the table, and what the call under way has yet to write. -/
inductive Writing (S : Setting σ) : KvTable σ → List (KvTable σ) → Prop
  | rest {t dir leaked} (holds : S.Holds t dir leaked) (unlocked : t.Unlocked) : Writing S t []
  | within {q t dir leaked i inside last left} (holds : S.Holds q dir leaked) (unlocked : q.Unlocked)
      (main : i < q.bktPool.mainSize) (traced : S.Traced q dir i inside last)
      (left_inside : ∀ u ∈ left, u ∈ inside)
      (place : t = q ∧ left ≠ [] ∨ t ∈ inside) : Writing S t (left ++ [last])

/-- What the table looks like to the readers of chain `i`. -/
def Stands (S : Setting σ) (t : KvTable σ) (i : Nat) : Prop :=
  ∃ q dir leaked, S.Holds q dir leaked ∧ S.Sees q t dir i

/-- A write of the call leaves each version as it was, and then no reader of that
chain notices, unless it takes or gives back the lock. -/
theorem Traced.write {S : Setting σ} {t u q last : KvTable σ} {dir : Multiset Item}
    {leaked : Nat → Multiset (Nat × Nat)} {inside : List (KvTable σ)} {i j : Nat}
    (traced : S.Traced q dir i inside last) (holds : S.Holds q dir leaked) (unlocked : q.Unlocked)
    (main : i < q.bktPool.mainSize) (place : t = q ∧ u ∈ inside ∨ t ∈ inside ∧ u ∈ inside ++ [last])
    (other : j < q.bktPool.mainSize) : (readProtocol j (q.bktPool.mainPtr j)).Writes t u := by
  obtain ⟨placed, spares, claimed, chained⟩ := holds.pool
  obtain ⟨even, fits⟩ := unlocked i main
  by_cases here : j = i
  · subst here
    simp only [Protocol.Writes, readProtocol]
    rcases place with ⟨rfl, member⟩ | ⟨member, later⟩
    · have locked := traced.locked u member
      exact Or.inr ⟨by omega, by rw [locked, Nat.mod_eq_of_lt (by omega)]⟩
    · have locked := traced.locked t member
      rcases List.mem_append.mp later with still | final
      · have same := traced.locked u still
        exact Or.inl ⟨by omega, fun even' => by omega⟩
      · obtain rfl := List.mem_singleton.mp final
        have unlocks := traced.unlocked
        exact Or.inr ⟨by omega, by omega⟩
  · have before : S.Sees q t dir j := by
      rcases place with ⟨rfl, -⟩ | ⟨member, -⟩
      · exact .refl holds j
      · exact traced.sees t (List.mem_append_left _ member) j other here
    have after : S.Sees q u dir j := by
      rcases place with ⟨-, member⟩ | ⟨-, member⟩
      · exact traced.sees u (List.mem_append_left _ member) j other here
      · exact traced.sees u member j other here
    have first := (chained.closed other).1
    refine Or.inl ⟨?_, fun _ => before.alike_reads holds (chained.closed other) other after⟩
    simp only [readProtocol, before.chain.2 _ first, after.chain.2 _ first]

/-- The next write. -/
theorem Writing.write {S : Setting σ} {t u : KvTable σ} {rest : List (KvTable σ)}
    (writing : S.Writing t (u :: rest)) : S.Writing u rest ∧ t.bktPool.Alike u.bktPool ∧
    ∀ j < t.bktPool.mainSize, (readProtocol j (t.bktPool.mainPtr j)).Writes t u := by
  generalize same : u :: rest = pending at writing
  cases writing with
  | rest holds unlocked => cases same
  | @within q _ dir leaked i inside last left holds unlocked main traced left_inside place =>
    have alike : q.bktPool.Alike t.bktPool := by
      rcases place with ⟨rfl, -⟩ | member
      · exact .refl _
      · exact traced.alike t (List.mem_append_left _ member)
    have pair : (t = q ∧ u ∈ inside ∨ t ∈ inside ∧ u ∈ inside ++ [last]) ∧ S.Writing u rest := by
      cases left with
      | nil =>
        obtain ⟨rfl, rfl⟩ : u = last ∧ rest = [] := by simpa using same
        refine ⟨Or.inr ⟨place.resolve_left fun no => no.2 rfl, by simp⟩, ?_⟩
        obtain ⟨dir', leaked', held⟩ := traced.holds
        exact .rest held (traced.last_unlocked holds unlocked)
      | cons next left =>
        obtain ⟨rfl, rfl⟩ : u = next ∧ rest = left ++ [last] := by simpa using same
        have inside' := left_inside u List.mem_cons_self
        exact ⟨place.imp (fun start => ⟨start.1, inside'⟩) fun member => ⟨member, List.mem_append_left _ inside'⟩,
          .within holds unlocked main traced
            (fun v member => left_inside v (List.mem_cons_of_mem _ member)) (Or.inr inside')⟩
    have alike' : q.bktPool.Alike u.bktPool := by
      rcases pair.1 with ⟨-, member⟩ | ⟨-, member⟩
      · exact traced.alike u (List.mem_append_left _ member)
      · exact traced.alike u member
    refine ⟨pair.2, alike.symm.trans alike', fun j other => ?_⟩
    rw [alike.mainPtr]
    exact traced.write holds unlocked main pair.1 (alike.mainSize ▸ other)

/-- Where the version is even the chain looks as in a table no call is under way in. -/
theorem Writing.stands {S : Setting σ} {t : KvTable σ} {pending : List (KvTable σ)} {j : Nat}
    (writing : S.Writing t pending) (other : j < t.bktPool.mainSize) :
    (t.bktPool.cells (t.bktPool.mainPtr j)).version < 2 ^ 32 ∧
      ((t.bktPool.cells (t.bktPool.mainPtr j)).version % 2 = 0 → S.Stands t j) := by
  cases writing with
  | rest holds unlocked => exact ⟨(unlocked j other).2, fun _ => ⟨t, _, _, holds, .refl holds j⟩⟩
  | @within q _ dir leaked i inside last left holds unlocked main traced left_inside place =>
    rcases place with ⟨rfl, -⟩ | member
    · exact ⟨(unlocked j other).2, fun _ => ⟨t, _, _, holds, .refl holds j⟩⟩
    · have alike := traced.alike t (List.mem_append_left _ member)
      rw [alike.mainSize] at other
      rw [alike.mainPtr]
      obtain ⟨even, fits⟩ := unlocked j other
      by_cases here : j = i
      · subst here
        have locked := traced.locked t member
        exact ⟨by omega, fun even' => by omega⟩
      · have sees := traced.sees t (List.mem_append_left _ member) j other here
        refine ⟨?_, fun _ => ⟨q, _, _, holds, sees⟩⟩
        obtain ⟨placed, spares, claimed, chained⟩ := holds.pool
        rw [sees.chain.2 _ (chained.closed other).1]
        exact fits

/-- A call starts. -/
theorem Writing.starts {S : Setting σ} {t : KvTable σ} {call : KvCall} {writes : List (KvTable σ)} {fuel : Nat}
    {res : Bool} (writing : S.Writing t []) (legal : S.Legal call) (bounded : S.Bounded call)
    (succeeds : ∀ entry, call = .put entry → ∀ writes, S.callTrace fuel t call ≠ .ok (false, writes))
    (done : S.callTrace fuel t call = .ok (res, writes)) : S.Writing t writes := by
  generalize none : [] = pending at writing
  cases writing with
  | within holds unlocked main traced left_inside place => simp at none
  | rest holds unlocked =>
    cases call with
    | put entry =>
      cases res with
      | false => exact absurd done (succeeds entry rfl writes)
      | true =>
        obtain ⟨inside, last, rfl, some, traced⟩ := holds.put_traced legal.1 legal.2 bounded unlocked done
        exact .within holds unlocked (holds.main_lt _) traced (fun u member => member) (Or.inl ⟨rfl, some⟩)
    | get entry =>
      cases done
      exact .rest holds unlocked
    | remove entry =>
      obtain ⟨inside, last, rfl, some, traced⟩ := holds.remove_traced legal unlocked done
      exact .within holds unlocked (holds.main_lt _) traced (fun u member => member) (Or.inl ⟨rfl, some⟩)

theorem Writing.main_lt {S : Setting σ} {t : KvTable σ} {pending : List (KvTable σ)}
    (writing : S.Writing t pending) (keyhash : Nat) :
    bucketIndex t.bktPool.mainSize keyhash < t.bktPool.mainSize := by
  cases writing with
  | rest holds unlocked => exact holds.main_lt keyhash
  | @within q _ dir leaked i inside last left holds unlocked main traced left_inside place =>
    rcases place with ⟨rfl, -⟩ | member
    · exact holds.main_lt keyhash
    · rw [(traced.alike t (List.mem_append_left _ member)).mainSize]
      exact holds.main_lt keyhash

theorem Stands.closed {S : Setting σ} {t : KvTable σ} {i : Nat} (stands : S.Stands t i)
    (main : i < t.bktPool.mainSize) : t.bktPool.Closed i := by
  obtain ⟨q, dir, leaked, holds, sees⟩ := stands
  obtain ⟨placed, spares, claimed, chained⟩ := holds.pool
  exact sees.closed (chained.closed (sees.alike.mainSize ▸ main))

theorem Stands.linked {S : Setting σ} {t : KvTable σ} {i : Nat} (stands : S.Stands t i)
    (main : i < t.bktPool.mainSize) :
    ∃ rest, t.bktPool.chain i = t.bktPool.mainPtr i :: rest ∧ t.bktPool.Linked (t.bktPool.mainPtr i :: rest) ∧
      rest.length ≤ t.bktPool.spareSize := by
  obtain ⟨q, dir, leaked, holds, sees⟩ := stands
  obtain ⟨placed, spares, claimed, chained⟩ := holds.pool
  rw [sees.alike.mainSize] at main
  obtain ⟨chain, cells⟩ := sees.chain
  rw [chain, sees.alike.mainPtr, sees.alike.spareSize, chained.chain_eq main]
  refine ⟨_, rfl, (chained.linked i main).congr fun bkt member => ?_, ?_⟩
  · rw [← chained.chain_eq main] at member
    rw [cells bkt member]
  · rw [List.length_map]
    exact (chained.length_le main).trans chained.within

theorem Stands.search_ok {S : Setting σ} {t : KvTable σ} {fuel i keyhash : Nat} {r : Option (Nat × Nat)}
    (stands : S.Stands t i) (main : i < t.bktPool.mainSize)
    (done : searchIndexEntry t.bktPool keyhash fuel (t.bktPool.mainPtr i) 0 = .ok r) :
    r = (slots (t.bktPool.chain i)).find? (fun p => matchIndexEntryTag (t.bktPool.entry p).tag keyhash) := by
  obtain ⟨rest, chain, linked, -⟩ := stands.linked main
  rw [chain]
  exact search_eq linked done

end Setting

end Fkv
