import Mathlib.Data.Multiset.AddSub
import Fkv.CircularLog.Model
import Fkv.MemManager.Client
import Fkv.MemManager.Release

namespace Fkv
open ByteMemory CWord Tiling Runs

/-- What an allocator that serves these blocks in a region must leave alone: the
blocks and everything outside the region. -/
def Frame (lo hi : Nat) (live : Multiset (Nat × Nat)) (m m' : Mem) : Prop :=
  ∀ y, y < lo ∨ hi ≤ y ∨ (∃ x n, (x, n) ∈ live ∧ x ≤ y ∧ y < x + n) → m' y = m y

/-- An allocator that hands out blocks of up to `limit` bytes in the region from
`lo` to `hi`, disjoint from all blocks not yet freed. `Serving` says which blocks
these are. -/
structure Lawful {σ : Type} (alloc : Allocator σ) (limit lo hi : Nat)
    (Serving : Mem → σ → Multiset (Nat × Nat) → Prop) : Prop where
  within : ∀ {m s live x n}, Serving m s live → (x, n) ∈ live → lo ≤ x ∧ x + n ≤ hi
  apart : ∀ {m s live x n y k}, Serving m s ((x, n) ::ₘ live) → (y, k) ∈ live → x + n ≤ y ∨ y + k ≤ x
  get : ∀ {m s live n x m' s'}, Serving m s live → n ≤ limit → alloc.get m s n = .ok (some x, m', s') →
    Serving m' s' ((x, n) ::ₘ live) ∧ Frame lo hi live m m'
  refuse : ∀ {m s live n m' s'}, Serving m s live → n ≤ limit → alloc.get m s n = .ok (none, m', s') →
    Serving m' s' live ∧ Frame lo hi live m m'
  free : ∀ {m s live x n m' s'}, Serving m s ((x, n) ::ₘ live) → alloc.free m s x = .ok (m', s') →
    Serving m' s' live ∧ Frame lo hi live m m'
  rewrite : ∀ {m m' s live}, Serving m s live →
    (∀ y, lo ≤ y → y < hi → (∀ x n, (x, n) ∈ live → y < x ∨ x + n ≤ y) → m' y = m y) → Serving m' s live

/-- The segregated fits of an arena serve these blocks. -/
def SegregatedFits.Serving (A : Arena) (m : Mem) (sfits : SegregatedFits) (live : Multiset (Nat × Nat)) : Prop :=
  ∃ blocks : List (Nat × Nat), (blocks : Multiset (Nat × Nat)) = live ∧ ∃ lay, Serves A ⟨⟨m, sfits⟩, blocks⟩ lay

/-- The served blocks lie between the tags of used blocks of the layout. -/
theorem Serves.bounds {A : Arena} {x n : Nat} {s : Client} {lay : Layout} (serves : Serves A s lay)
    (member : (x, n) ∈ s.live) : A.addr ≤ x ∧ x + n ≤ A.addr + A.addrSize := by
  obtain ⟨p, w, used, rfl, fits⟩ := serves.room x n member
  have bounds := serves.rep.bounds (mem_usedBlocks.mp used)
  have positive := serves.rep.pos _ (mem_of_place (mem_usedBlocks.mp used)) (by simp)
  simp only at bounds positive
  omega

theorem Serves.disjoint {A : Arena} {x n y k : Nat} {s : Client} {lay : Layout} {rest : List (Nat × Nat)}
    (serves : Serves A s lay) (split : s.live = (x, n) :: rest) (member : (y, k) ∈ rest) :
    x + n ≤ y ∨ y + k ≤ x := by
  obtain ⟨p, v, used, rfl, fits⟩ := serves.room x n (by simp [split])
  obtain ⟨q, w, used', rfl, fits'⟩ := serves.room y k (by simp [split, member])
  have nodup := serves.starts_nodup
  rw [split, List.map_cons, List.nodup_cons] at nodup
  have different : p + 8 ≠ q + 8 := fun same => nodup.1 (same ▸ List.mem_map.mpr ⟨(q + 8, k), member, rfl⟩)
  rcases place_apart (mem_usedBlocks.mp used) (mem_usedBlocks.mp used') with equal | before | behind
  · simp only [Prod.mk.injEq] at equal
    omega
  · simp only [Block.size_mk] at before
    omega
  · simp only [Block.size_mk] at behind
    omega

theorem Serves.perm {A : Arena} {s : Client} {lay : Layout} {blocks : List (Nat × Nat)}
    (serves : Serves A s lay) (same : s.live.Perm blocks) :
    Serves A ⟨s.heap, blocks⟩ lay :=
  ⟨serves.settled, serves.rep, (same.map Prod.fst).symm.trans serves.live, fun x n member =>
    serves.room x n (same.mem_iff.mpr member)⟩

/-- No call writes to the served blocks or outside the region. -/
theorem Serves.frame {A : Arena} {y : Nat} {s : Client} {lay : Layout} {live : Multiset (Nat × Nat)}
    (serves : Serves A s lay) (within : ∀ b ∈ live, b ∈ s.live)
    (away : y < A.addr ∨ A.addr + A.addrSize ≤ y ∨ ∃ x n, (x, n) ∈ live ∧ x ≤ y ∧ y < x + n) :
    ¬ Vacant A.addr lay.blocks y := by
  intro vacant
  have bounds := vacant_bounds vacant
  rw [serves.rep.total] at bounds
  rcases away with below | above | ⟨x, n, member, lower, upper⟩
  · omega
  · omega
  · obtain ⟨p, w, used, rfl, fits⟩ := serves.room x n (within _ member)
    exact not_vacant_of_used used (by omega) (by omega) vacant

/-- The segregated fits of an arena are an allocator for requests up to the
largest class. -/
theorem segregatedFits_lawful (A : Arena) :
    Lawful segregatedFits (8 * A.len) A.addr (A.addr + A.addrSize) (SegregatedFits.Serving A) := by
  constructor
  case within =>
    rintro m sfits live x n ⟨blocks, rfl, lay, serves⟩ member
    exact serves.bounds (by simpa using member)
  case apart =>
    rintro m sfits live x n y k ⟨blocks, split, lay, serves⟩ member
    obtain ⟨rest, rfl⟩ := Quot.exists_rep live
    have same : blocks.Perm ((x, n) :: rest) := Multiset.coe_eq_coe.mp split
    exact (serves.perm same).disjoint rfl (by simpa using member)
  case get =>
    rintro m sfits live n x m' sfits' ⟨blocks, rfl, lay, serves⟩ request run
    obtain ⟨⟨r, h'⟩, got, same⟩ := bind_eq_ok.mp run
    cases same
    obtain ⟨lay', gets, evolves⟩ := serves.rep.get_ok serves.settled request got
    refine ⟨⟨(x, n) :: blocks, rfl, lay', serves.get evolves.rep gets⟩, fun y away => ?_⟩
    exact evolves.frame y (serves.frame (by simp) away)
  case refuse =>
    rintro m sfits live n m' sfits' ⟨blocks, rfl, lay, serves⟩ request run
    obtain ⟨⟨r, h'⟩, got, same⟩ := bind_eq_ok.mp run
    cases same
    obtain ⟨lay', gets, evolves⟩ := serves.rep.get_ok serves.settled request got
    refine ⟨⟨blocks, rfl, lay', serves.get evolves.rep gets⟩, fun y away => ?_⟩
    exact evolves.frame y (serves.frame (by simp) away)
  case free =>
    rintro m sfits live x n m' sfits' ⟨blocks, split, lay, serves⟩ run
    obtain ⟨rest, rfl⟩ := Quot.exists_rep live
    have same : blocks.Perm ((x, n) :: rest) := Multiset.coe_eq_coe.mp split
    have served := serves.perm same
    obtain ⟨h', freed, done⟩ := bind_eq_ok.mp run
    cases done
    obtain ⟨f, rfl, rfl⟩ := served.focus List.mem_cons_self
    obtain ⟨h₁, again, rep, kept⟩ := served.rep.free served.settled
    rw [freed] at again
    cases again
    have others : ∀ q ∈ rest, q.1 ≠ f.head A.addr + 8 := fun q member equal =>
      (List.nodup_cons.mp served.starts_nodup).1 (List.mem_map.mpr ⟨q, member, equal⟩)
    have left : ((f.head A.addr + 8, n) :: rest).filter (fun q => decide (q.1 ≠ f.head A.addr + 8)) = rest := by
      rw [List.filter_cons_of_neg (by simp)]
      exact List.filter_eq_self.mpr fun q member => by simpa using others q member
    have serves' := served.free rep
    rw [left] at serves'
    refine ⟨⟨rest, rfl, _, serves'⟩, fun y away => kept y fun vacant => ?_⟩
    have bounds := vacant_bounds vacant
    have total := served.rep.total
    simp only [Focus.layout, span_append, span_cons, Block.size_mk] at total bounds
    rcases away with below | above | ⟨x, k, member, lower, upper⟩
    · omega
    · omega
    · have inRest : (x, k) ∈ rest := by simpa using member
      obtain ⟨p, w, used, rfl, fits⟩ := served.room x k (List.mem_cons_of_mem _ inRest)
      have hand : (p, w) ∈ usedBlocks A.addr (f.layout .hand).blocks := by
        refine (List.mem_cons.mp ((f.used_perm A.addr).mem_iff.mp used)).resolve_left fun equal => ?_
        have apart := others _ inRest
        simp only [Prod.mk.injEq] at equal
        omega
      exact not_vacant_of_used hand (by omega) (by omega) vacant
  case rewrite =>
    rintro m m' sfits live ⟨blocks, rfl, lay, serves⟩ same
    refine ⟨blocks, rfl, lay, serves.rewrite fun y lower upper outside =>
      same y lower (by omega) fun x n member => ?_⟩
    exact outside x n (by simpa using member)

end Fkv
