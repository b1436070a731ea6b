import Fkv.CircularLog.Perform
import Fkv.MemManager.Capacity

namespace Fkv
open ByteMemory CWord Runs

/-- `SEGREGATED_MAX_DATA_SIZE`. -/
def segregatedMaxDataSize : Nat := 1280

/-- `create_circular_log`, given the memory of the allocator's header. -/
def createCircularLog (m : Mem) (raw : SegregatedFits) (head : Nat) : Except Fault Heap :=
  carve m raw segregatedMaxDataSize head circularLogSize

/-- The loop of `create_kv_table` over the logs. -/
def createLogs (raw : Nat → SegregatedFits) (addr : Nat) : Nat → Mem → Except Fault (Mem × (Nat → SegregatedFits))
  | 0, m => .ok (m, raw)
  | n + 1, m => do
    let (m, sfits) ← createLogs raw addr n m
    let h ← createCircularLog m (raw n) (addr + circularLogSize * n)
    .ok (h.mem, Function.update sfits n h.sfits)

/-- `create_kv_table` with the buckets mapped at `bkts` and the logs at `addr`. -/
def KvTable.create (raw : Nat → SegregatedFits) (m : Mem) (bkts addr nthread mainSize spareSize : Nat) :
    Except Fault (KvTable SegregatedFits) := do
  let (m, sfits) ← createLogs raw addr nthread m
  .ok {
    mem := m, bktPool := createBucketPool bkts mainSize spareSize, baseAddr := addr, logSize := nthread,
    sfits := sfits }

/-- Where the logs of a table and the headers of their allocators lie. -/
structure Logs where
  baseAddr : Nat
  logSize : Nat
  arena : Nat → Arena
  addr : ∀ l < logSize, (arena l).addr = baseAddr + circularLogSize * l
  size : ∀ l < logSize, (arena l).addrSize = circularLogSize
  len : ∀ l < logSize, (arena l).len = segregatedFitsClassSize segregatedMaxDataSize
  reach : circularLogSize * logSize ≤ 2 ^ 48
  mapped : baseAddr + circularLogSize * logSize ≤ 2 ^ 64

/-- The tables with these logs. -/
def Logs.setting (L : Logs) (hash : List UInt8 → Nat) (log : Nat → Nat) : Setting SegregatedFits where
  alloc := segregatedFits
  Serving l := SegregatedFits.Serving (L.arena l)
  limit := segregatedMaxDataSize
  baseAddr := L.baseAddr
  logBytes := circularLogSize
  logSize := L.logSize
  hash := hash
  log := log
  limit_lt := by decide
  lawful l inside := by
    have lawful := segregatedFits_lawful (L.arena l)
    rw [L.addr l inside, L.size l inside, L.len l inside, Nat.add_assoc] at lawful
    exact lawful
  reach := L.reach
  mapped := L.mapped

/-- A partition just carved serves no block. -/
theorem createCircularLog_serves {A : Arena} {raw : SegregatedFits} (m : Mem) (self : raw.self = A.self)
    (size : A.addrSize = circularLogSize) (len : A.len = segregatedFitsClassSize segregatedMaxDataSize) :
    ∃ h, createCircularLog m raw A.addr = .ok h ∧ Serves A ⟨h, []⟩ A.fresh ∧
      ∀ x, x < A.addr ∨ A.addr + circularLogSize ≤ x → h.mem x = m x := by
  obtain ⟨h, run, rep, outside⟩ := carve_spec m raw self len.symm
  rw [size] at run outside
  exact ⟨h, run, Serves.fresh rep, outside⟩

theorem createLogs_serves {L : Logs} {raw : Nat → SegregatedFits} {n : Nat}
    (selves : ∀ l, (raw l).self = (L.arena l).self) (m : Mem) (few : n ≤ L.logSize) :
    ∃ m' sfits, createLogs raw L.baseAddr n m = .ok (m', sfits) ∧
      ∀ l < n, Serves (L.arena l) ⟨⟨m', sfits l⟩, []⟩ (L.arena l).fresh := by
  induction n with
  | zero => exact ⟨m, raw, rfl, fun _ none => absurd none (Nat.not_lt_zero _)⟩
  | succ n ih =>
    obtain ⟨m₁, sfits, run, serving⟩ := ih (by omega)
    obtain ⟨h, carved, serves, outside⟩ := createCircularLog_serves m₁ (selves n) (L.size n few) (L.len n few)
    rw [L.addr n few] at carved outside
    refine ⟨h.mem, Function.update sfits n h.sfits, by simp only [createLogs, run, carved, ok_bind],
      fun l below => ?_⟩
    by_cases here : l = n
    · subst here
      rwa [Function.update_self]
    · rw [Function.update_of_ne here]
      have earlier : l < n := by omega
      refine (serving l earlier).rewrite fun y lower upper _ => outside y (Or.inl ?_)
      rw [L.addr l (by omega), L.size l (by omega)] at upper
      have apart := Nat.mul_le_mul_left circularLogSize earlier
      rw [Nat.mul_succ] at apart
      have whole : 8 * (circularLogSize / 8) = circularLogSize := rfl
      omega

/-- A table that was created is fresh, and so are its logs. -/
theorem KvTable.create_fresh (L : Logs) (hash : List UInt8 → Nat) (log : Nat → Nat) (raw : Nat → SegregatedFits)
    (m : Mem) (bkts mainSize spareSize : Nat) (selves : ∀ l, (raw l).self = (L.arena l).self)
    (mains : 1 ≤ mainSize) (size : 128 * (mainSize + spareSize) < 2 ^ 32)
    (mapped : bkts + 128 * (mainSize + spareSize) ≤ 2 ^ 64) :
    ∃ t, KvTable.create raw m bkts L.baseAddr L.logSize mainSize spareSize = .ok t ∧ (L.setting hash log).Fresh t ∧
      t.bktPool = createBucketPool bkts mainSize spareSize ∧
      ∀ l < L.logSize, Serves (L.arena l) ⟨⟨t.mem, t.sfits l⟩, []⟩ (L.arena l).fresh := by
  obtain ⟨m', sfits, run, serving⟩ := createLogs_serves selves m (le_refl L.logSize)
  refine ⟨⟨m', createBucketPool bkts mainSize spareSize, L.baseAddr, L.logSize, sfits⟩, ?_,
    ⟨rfl, rfl, mains, rfl, size, mapped, fun l inside => ⟨[], rfl, _, serving l inside⟩⟩, rfl, serving⟩
  simp only [KvTable.create, run, ok_bind]

end Fkv
