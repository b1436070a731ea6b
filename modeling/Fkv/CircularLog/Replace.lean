import Fkv.CircularLog.Perform

namespace Fkv
open ByteMemory CWord Runs

/-- An allocator that hands out the rest of its region in turn and reuses nothing. -/
def bump (hi : Nat) : Allocator Nat where
  get m s n := if s + n ≤ hi then .ok (some s, m, s + n) else .ok (none, m, s)
  free m s _ := .ok (m, s)

def BumpServing (lo hi : Nat) (_ : Mem) (s : Nat) (live : Multiset (Nat × Nat)) : Prop :=
  lo ≤ s ∧ s ≤ hi ∧ (∀ b ∈ live, lo ≤ b.1 ∧ b.1 + b.2 ≤ s) ∧
    ∀ b rest, live = b ::ₘ rest → ∀ c ∈ rest, b.1 + b.2 ≤ c.1 ∨ c.1 + c.2 ≤ b.1

theorem bump_lawful (limit lo hi : Nat) : Lawful (bump hi) limit lo hi (BumpServing lo hi) := by
  constructor
  case within =>
    rintro m s live x n ⟨low, high, within, apart⟩ member
    have bounds := within _ member
    exact ⟨bounds.1, bounds.2.trans high⟩
  case apart =>
    rintro m s live x n y k ⟨low, high, within, apart⟩ member
    exact apart _ _ rfl _ member
  case get =>
    rintro m s live n x m' s' ⟨low, high, within, apart⟩ - got
    simp only [bump] at got
    split at got
    · cases got
      refine ⟨⟨by omega, by assumption, fun b member => ?_, fun b rest split c member => ?_⟩, fun _ _ => rfl⟩
      · rcases Multiset.mem_cons.mp member with rfl | old
        · exact ⟨low, le_rfl⟩
        · have bounds := within b old
          exact ⟨bounds.1, by omega⟩
      · rcases Multiset.cons_eq_cons.mp split with ⟨rfl, rfl⟩ | ⟨-, others, rfl, rfl⟩
        · exact Or.inr (within c member).2
        · rcases Multiset.mem_cons.mp member with rfl | old
          · exact Or.inl (within b (Multiset.mem_cons_self b others)).2
          · exact apart b others rfl c old
    · cases got
  case refuse =>
    rintro m s live n m' s' serving - got
    simp only [bump] at got
    split at got
    · cases got
    · cases got
      exact ⟨serving, fun _ _ => rfl⟩
  case free =>
    rintro m s live x n m' s' ⟨low, high, within, apart⟩ freed
    cases freed
    refine ⟨⟨low, high, fun b member => within b (Multiset.mem_cons_of_mem member),
      fun b rest split c member => ?_⟩, fun _ _ => rfl⟩
    refine apart b ((x, n) ::ₘ rest) ?_ c (Multiset.mem_cons_of_mem member)
    rw [split, Multiset.cons_swap]
  case rewrite =>
    rintro m m' s live serving -
    exact serving

/-- In every run whose puts all come with entries the allocator serves, every
chain holds every key once, under the tag and in the chain of its hash. -/
theorem put_replaces {σ : Type} (S : Setting σ) (t t' : KvTable σ) (fuel : Nat) (calls : List KvCall)
    (fresh : S.Fresh t) (legal : ∀ call ∈ calls, S.Legal call) (bounded : ∀ call ∈ calls, S.Bounded call)
    (done : run (S.step fuel) calls t = .ok t') : Throughout (S.step fuel) KvTable.Sound calls t :=
  fresh.holds.throughout legal bounded done

/-- One log of 8 GB at 2^40 in which every key has hash 1. -/
def bumpSetting : Setting Nat where
  alloc := bump (2 ^ 40 + 2 ^ 33)
  Serving _ := BumpServing (2 ^ 40) (2 ^ 40 + 2 ^ 33)
  limit := 2 ^ 32 - 1
  baseAddr := 2 ^ 40
  logBytes := 2 ^ 33
  logSize := 1
  hash _ := 1
  log _ := 0
  limit_lt := by decide
  lawful l inside := by
    obtain rfl : l = 0 := by omega
    exact bump_lawful _ _ _
  reach := by decide
  mapped := by decide

def bumpTable : KvTable Nat where
  mem _ := 0
  bktPool := createBucketPool 4096 1 0
  baseAddr := 2 ^ 40
  logSize := 1
  sfits _ := 2 ^ 40

theorem bumpTable_fresh : bumpSetting.Fresh bumpTable :=
  ⟨rfl, rfl, le_rfl, rfl, by decide, by decide, fun _ _ => ⟨le_rfl, Nat.le_add_right _ _, by simp, fun _ _ split =>
    absurd split.symm Multiset.cons_ne_zero⟩⟩

/-- A key of 8 bytes and no value. -/
def shortEntry : Mem := headerEntry [40, 0, 0, 0, 0, 0, 0, 0, 1, 0, 0, 0, 0, 0, 0, 0, 8, 0, 0, 0, 0, 0, 0, 0]

/-- A key of 4 GB less 32 bytes with a value of 8 bytes. -/
def longEntry : Mem := headerEntry [8, 0, 0, 0, 1, 0, 0, 0, 1, 0, 0, 0, 0, 0, 0, 0, 224, 255, 255, 255, 8, 0, 0, 0]

/-- The same key with a value of 8 bytes. -/
def valuedEntry : Mem := headerEntry [48, 0, 0, 0, 0, 0, 0, 0, 1, 0, 0, 0, 0, 0, 0, 0, 8, 0, 0, 0, 8, 0, 0, 0]

/-- Puts a key, replaces it, removes it. -/
def shortCalls : List KvCall := [.put shortEntry, .put valuedEntry, .remove shortEntry]

theorem put_replaces_short : ∃ t', run (bumpSetting.step 2) shortCalls bumpTable = .ok t' ∧
    Throughout (bumpSetting.step 2) KvTable.Sound shortCalls bumpTable := by
  have legal : ∀ call ∈ shortCalls, bumpSetting.Legal call := by
    simp only [shortCalls, List.forall_mem_cons]
    refine ⟨⟨⟨by decide, by decide⟩, by decide⟩, ⟨⟨by decide, by decide⟩, by decide⟩,
      ⟨by decide, by decide⟩, by simp⟩
  have bounded : ∀ call ∈ shortCalls, bumpSetting.Bounded call := by
    simp only [shortCalls, List.forall_mem_cons]
    exact ⟨(by decide : initialSize shortEntry 0 ≤ 2 ^ 32 - 1),
      (by decide : initialSize valuedEntry 0 ≤ 2 ^ 32 - 1), trivial, by simp⟩
  obtain ⟨t', done⟩ := isOk_iff.mp (show (run (bumpSetting.step 2) shortCalls bumpTable).isOk =
    true by decide +kernel)
  exact ⟨t', done, put_replaces bumpSetting bumpTable t' 2 shortCalls bumpTable_fresh legal bounded done⟩

/-- Of an entry of 4 GB and 8 bytes a put stores 8 bytes, without the hash. -/
theorem put_truncates : bumpSetting.Fresh bumpTable ∧ bumpSetting.Legal (.put longEntry) ∧
    ∃ t', run (bumpSetting.step 2) [.put longEntry] bumpTable = .ok t' ∧ ¬ t'.Sound := by
  refine ⟨bumpTable_fresh, ⟨⟨by decide, by decide⟩, by decide⟩, _, rfl, fun sound => ?_⟩
  have tagged := (sound.tagged 0 Nat.one_pos (4096, 0) (by decide) (by decide)).1
  exact absurd tagged (by decide)

end Fkv
