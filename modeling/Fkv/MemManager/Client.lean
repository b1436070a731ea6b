import Mathlib.Data.List.Nodup
import Fkv.MemManager.Carve

namespace Fkv
open ByteMemory CWord Tiling LinkedRing Runs

/-- A call to the allocator, or a client storing a byte into a block it holds. -/
inductive Call
  | get (dataSize : Nat)
  | free (block : Nat)
  | write (block offset : Nat) (byte : UInt8)

/-- The allocator together with what its client holds: the blocks handed out
and not yet freed, with the sizes asked for. -/
structure Client where
  heap : Heap
  live : List (Nat × Nat)

def Client.step (s : Client) : Call → Except Fault Client
  | .get dataSize => do
    let (block, h) ← getSegregatedFitsBlock s.heap dataSize
    match block with
    | some x => .ok ⟨h, (x, dataSize) :: s.live⟩
    | none => .ok ⟨h, s.live⟩
  | .free block => do
    let h ← freeSegregatedFitsBlock s.heap block
    .ok ⟨h, s.live.filter (fun q => q.1 ≠ block)⟩
  | .write block offset byte =>
    .ok ⟨{ s.heap with mem := Function.update s.heap.mem (block + offset) byte }, s.live⟩

/-- Requests fit the largest class, only live blocks are freed, and a client
stays inside the bytes it asked for. -/
def Client.Legal (A : Arena) (s : Client) : Call → Prop
  | .get dataSize => dataSize ≤ 8 * A.len
  | .free block => ∃ dataSize, (block, dataSize) ∈ s.live
  | .write block offset _ => ∃ dataSize, (block, dataSize) ∈ s.live ∧ offset < dataSize

/-- The layout is settled, and its used blocks are those the client holds, each
with room for what was asked. -/
structure Serves (A : Arena) (s : Client) (lay : Layout) : Prop where
  settled : lay.Settled
  rep : Rep A s.heap lay
  live : (s.live.map Prod.fst).Perm ((usedBlocks A.addr lay.blocks).map (fun q => q.1 + 8))
  room : ∀ x dataSize, (x, dataSize) ∈ s.live →
    ∃ p w, (p, w) ∈ usedBlocks A.addr lay.blocks ∧ x = p + 8 ∧ dataSize ≤ 8 * (w - 2)

def Client.WellFormed (A : Arena) (s : Client) : Prop := ∃ lay, Serves A s lay

/-- A call that does not leave `heads[]`: a get that cuts a block leaves a
remainder that together with the free run behind it is of some class. -/
def Client.CutFits (A : Arena) (s : Client) : Call → Prop
  | .get dataSize => ∀ lay : Layout, lay.Settled → Rep A s.heap lay → lay.CutFits A (requestClass dataSize)
  | _ => True

/-- A byte the client may write: inside a used block, between its tags. -/
def Held (a : Nat) (blocks : List Block) (x : Nat) : Prop :=
  ∃ p w, (p, w) ∈ usedBlocks a blocks ∧ p + 8 ≤ x ∧ x + 8 < p + 8 * w

/-- What clients write disturbs neither tags nor lists. -/
theorem Rep.held {A : Arena} {h : Heap} {lay : Layout} {m : Mem} (rep : Rep A h lay)
    (same : ∀ x, A.addr ≤ x → x < A.addr + 8 * (A.addrSize / 8) → ¬ Held A.addr lay.blocks x → m x = h.mem x) :
    Rep A { h with mem := m } lay := by
  have apart : ∀ q c, (q, c) ∈ place Block.size A.addr lay.blocks → ∀ x, q ≤ x → x < q + c.size →
      c.state ≠ .used ∨ x < q + 8 ∨ q + c.size ≤ x + 8 → m x = h.mem x := by
    intro q c placed x lower upper tagOrFree
    have bounds := rep.bounds placed
    refine same x (by omega) (by simp only [Block.size] at upper; omega) ?_
    rintro ⟨p, w, held, above, below⟩
    rcases place_apart placed (mem_usedBlocks.mp held) with equal | before | behind
    · obtain ⟨rfl, rfl⟩ := Prod.mk.inj equal
      simp only [Block.size_mk, ne_eq, not_true_eq_false, false_or] at tagOrFree
      omega
    · omega
    · simp only [Block.size_mk] at behind
      omega
  refine ⟨rep.shape, rep.total, rep.sized, ?_, ?_, rep.members⟩
  · intro q c placed notRaw
    have positive := rep.pos c (mem_of_place placed) notRaw
    have size : 8 ≤ c.size := by simp only [Block.size]; omega
    rw [read64_congr (fun x lower upper => apart q c placed x lower (by omega) (by omega)),
      read64_congr (fun x lower upper => apart q c placed x (by omega) (by omega) (by omega))]
    exact rep.tagged q c placed notRaw
  · intro i bound
    have shape : Shape A (Heap.mk m h.sfits).sfits := rep.shape
    refine rep.ring_keep shape bound rfl ?_
    intro x member
    obtain ⟨p, placed, rfl⟩ := rep.listed bound member
    exact read64_congr (fun y lower upper => apart p _ placed y (by omega) (by simp only [Block.size_mk]; omega)
      (Or.inl (by simp)))

theorem Rep.used_nodup {A : Arena} {h : Heap} {lay : Layout} (rep : Rep A h lay) :
    ((usedBlocks A.addr lay.blocks).map Prod.fst).Nodup :=
  usedBlocks_nodup (fun b member used => rep.pos b member (by simp [used]))

theorem Serves.starts_nodup {A : Arena} {lay : Layout} {s : Client} (serves : Serves A s lay) :
    (s.live.map Prod.fst).Nodup := by
  rw [serves.live.nodup_iff]
  have starts := serves.rep.used_nodup.map fun a b (same : a + 8 = b + 8) => Nat.add_right_cancel same
  rwa [List.map_map] at starts

/-- The focus on a live block. -/
theorem Serves.focus {A : Arena} {lay : Layout} {x : Nat} {s : Client} {dataSize : Nat}
    (serves : Serves A s lay) (member : (x, dataSize) ∈ s.live) :
    ∃ f : Focus, f.layout .used = lay ∧ x = f.head A.addr + 8 := by
  obtain ⟨p, w, used, rfl, -⟩ := serves.room x dataSize member
  obtain ⟨f, whole, rfl, -⟩ := lay.focus used
  exact ⟨f, whole, rfl⟩

/-- A get adds the block it hands out to those the client holds. -/
theorem Serves.get {A : Arena} {h' : Heap} {lay lay' : Layout} {s : Client} {dataSize : Nat} {r : Option Nat}
    (serves : Serves A s lay) (rep : Rep A h' lay') (gets : Gets A (requestClass dataSize) lay r lay') :
    Serves A ⟨h', (r.map (fun x => (x, dataSize))).toList ++ s.live⟩ lay' := by
  rcases gets.used with ⟨p, rfl, used⟩ | ⟨rfl, rfl⟩
  · refine ⟨gets.settled serves.settled, rep, ?_, ?_⟩
    · have handed := used.map (fun q => q.1 + 8)
      simpa using (serves.live.cons (p + 8)).trans handed.symm
    · intro x size member
      simp only [Option.map_some, Option.toList_some, List.singleton_append, List.mem_cons,
        Prod.mk.injEq] at member
      rcases member with ⟨rfl, rfl⟩ | old
      · refine ⟨p, requestClass size + 3, used.mem_iff.mpr (by simp), rfl, ?_⟩
        unfold requestClass
        omega
      · obtain ⟨q, w, held, rest⟩ := serves.room x size old
        exact ⟨q, w, used.mem_iff.mpr (by simp [held]), rest⟩
  · exact ⟨serves.settled, rep, serves.live, serves.room⟩

/-- A free takes the block from those the client holds. -/
theorem Serves.free {A : Arena} {h' : Heap} {f : Focus} {s : Client} (serves : Serves A s (f.layout .used))
    (rep : Rep A h' (release (A.len + 2) A.addr f)) :
    Serves A ⟨h', s.live.filter (fun q => q.1 ≠ f.head A.addr + 8)⟩ (release (A.len + 2) A.addr f) := by
  obtain ⟨least, most⟩ : 3 ≤ f.words ∧ f.words ≤ A.len + 2 :=
    serves.rep.sized ⟨f.words, .used⟩ (by simp [Focus.layout])
  obtain ⟨settled, sized⟩ := serves.rep.around serves.settled
  have kept := release_used (a := A.addr) sized (by omega) most
  have taken := f.used_perm A.addr
  have nodup := (taken.map Prod.fst).nodup_iff.mp serves.rep.used_nodup
  rw [← kept] at taken nodup
  have fresh : ∀ q ∈ usedBlocks A.addr (release (A.len + 2) A.addr f).blocks, q.1 ≠ f.head A.addr := by
    intro q member same
    exact (List.nodup_cons.mp nodup).1 (List.mem_map.mpr ⟨q, member, same⟩)
  refine ⟨release_settled sized (by omega) most settled, rep, ?_, ?_⟩
  · have kept : ((usedBlocks A.addr (release (A.len + 2) A.addr f).blocks).map (fun q => q.1 + 8)).filter
        (fun x => decide (x ≠ f.head A.addr + 8)) = (usedBlocks A.addr (release (A.len + 2) A.addr f).blocks).map
        (fun q => q.1 + 8) := by
      refine List.filter_eq_self.mpr ?_
      intro x member
      obtain ⟨q, used, rfl⟩ := List.mem_map.mp member
      have apart := fresh q used
      simpa using apart
    have live := (serves.live.trans (taken.map _)).filter (fun x => decide (x ≠ f.head A.addr + 8))
    rw [List.map_cons, List.filter_cons_of_neg (by simp), kept, List.filter_map] at live
    exact live
  · intro x size member
    obtain ⟨old, other⟩ := List.mem_filter.mp member
    obtain ⟨p, w, used, rfl, fits⟩ := serves.room x size old
    refine ⟨p, w, ?_, rfl, fits⟩
    rcases List.mem_cons.mp (taken.mem_iff.mp used) with equal | rest
    · obtain ⟨rfl, rfl⟩ := Prod.mk.inj equal
      simp at other
    · exact rest

/-- A client that changes nothing but its own blocks and what lies outside the
partition stays served. -/
theorem Serves.rewrite {A : Arena} {lay : Layout} {m : Mem} {s : Client} (serves : Serves A s lay)
    (same : ∀ y, A.addr ≤ y → y < A.addr + 8 * (A.addrSize / 8) →
      (∀ x n, (x, n) ∈ s.live → y < x ∨ x + n ≤ y) → m y = s.heap.mem y) :
    Serves A ⟨{ s.heap with mem := m }, s.live⟩ lay := by
  refine ⟨serves.settled, serves.rep.held fun y lower upper outside => same y lower upper ?_, serves.live,
    serves.room⟩
  intro x n member
  obtain ⟨p, w, used, rfl, fits⟩ := serves.room x n member
  by_contra inside
  exact outside ⟨p, w, used, by omega, by omega⟩

/-- A client that writes where it may stays served. -/
theorem Serves.write {A : Arena} {lay : Layout} {x : Nat} {s : Client} {offset dataSize : Nat} {byte : UInt8}
    (serves : Serves A s lay) (member : (x, dataSize) ∈ s.live) (inside : offset < dataSize) :
    Serves A ⟨{ s.heap with mem := Function.update s.heap.mem (x + offset) byte }, s.live⟩ lay := by
  refine serves.rewrite fun y _ _ outside => Function.update_of_ne ?_ _ _
  rintro rfl
  have apart := outside x dataSize member
  omega

/-- Every legal call keeps a well formed allocator well formed. -/
theorem Client.step_keeps {A : Arena} {s s' : Client} {call : Call} (wellFormed : s.WellFormed A)
    (legal : s.Legal A call) (done : s.step call = .ok s') :
    s'.WellFormed A := by
  obtain ⟨lay, serves⟩ := wellFormed
  cases call with
  | get dataSize =>
    obtain ⟨⟨r, h'⟩, run, rest⟩ := bind_eq_ok.mp done
    obtain ⟨lay', gets, evolves⟩ := serves.rep.get_ok serves.settled legal run
    have served := serves.get evolves.rep gets
    refine ⟨lay', ?_⟩
    cases r <;> cases rest <;> exact served
  | free block =>
    obtain ⟨dataSize, live⟩ := legal
    obtain ⟨f, rfl, rfl⟩ := serves.focus live
    obtain ⟨h', run, rep, -⟩ := serves.rep.free serves.settled
    simp only [Client.step, run, ok_bind] at done
    cases done
    exact ⟨_, serves.free rep⟩
  | write block offset byte =>
    obtain ⟨dataSize, live, inside⟩ := legal
    cases done
    exact ⟨lay, serves.write live inside⟩

/-- A legal call succeeds exactly when no cut overruns the largest class. -/
theorem Client.step_succeeds {A : Arena} {s : Client} {call : Call} (wellFormed : s.WellFormed A)
    (legal : s.Legal A call) :
    (∃ s', s.step call = .ok s') ↔ s.CutFits A call := by
  obtain ⟨lay, serves⟩ := wellFormed
  cases call with
  | get dataSize =>
    constructor
    · rintro ⟨s', done⟩ lay' settled rep
      by_contra above
      simp only [Client.step, (rep.get settled legal).2 above, error_bind] at done
      cases done
    · intro fits
      obtain ⟨r, h', lay', run, -⟩ := (serves.rep.get serves.settled legal).1 (fits lay serves.settled serves.rep)
      simp only [Client.step, run, ok_bind]
      cases r <;> exact ⟨_, rfl⟩
  | free block =>
    obtain ⟨dataSize, live⟩ := legal
    obtain ⟨f, rfl, rfl⟩ := serves.focus live
    obtain ⟨h', run, -⟩ := serves.rep.free serves.settled
    simp only [Client.step, run, ok_bind]
    exact ⟨fun _ => trivial, fun _ => ⟨_, rfl⟩⟩
  | write block offset byte => exact ⟨fun _ => trivial, fun _ => ⟨_, rfl⟩⟩

/-- A freshly carved allocator with no blocks handed out. -/
theorem Serves.fresh {A : Arena} {h : Heap} (rep : Rep A h A.fresh) : Serves A ⟨h, []⟩ A.fresh := by
  refine ⟨fun b member => Or.inr (A.fresh_free b member), rep, ?_, by simp⟩
  rw [usedBlocks_unused (fun b member => by simp [A.fresh_free b member])]
  simp

theorem Client.fresh_wellFormed {A : Arena} {h : Heap} (rep : Rep A h A.fresh) :
    Client.WellFormed A ⟨h, []⟩ := ⟨A.fresh, Serves.fresh rep⟩

/-- From carving on, a legal sequence of calls meets no fault and leaves a well
formed allocator after every call exactly when each of its cuts fits. -/
theorem Client.safe_iff_cuts_fit {M : Nat} (A : Arena) (m : Mem) (raw : SegregatedFits) (calls : List Call)
    (self : raw.self = A.self) (classes : segregatedFitsClassSize M = A.len) :
    ∃ h, carve m raw M A.addr A.addrSize = .ok h ∧ (Meets Client.step (Client.Legal A) calls ⟨h, []⟩ →
      (Throughout Client.step (Client.WellFormed A) calls ⟨h, []⟩ ↔
        Meets Client.step (Client.CutFits A) calls ⟨h, []⟩)) := by
  obtain ⟨h, run, rep, -⟩ := carve_spec m raw self classes
  refine ⟨h, run, fun legal => ?_⟩
  exact throughout_iff_meets (fun s call s' => Client.step_keeps) (fun s call => Client.step_succeeds)
    (Client.fresh_wellFormed rep) legal

theorem Client.safe_iff_cuts_fit_small :
    ∃ h, carve (fun _ => 0) smallRaw 16 4096 96 = .ok h ∧
      (Throughout Client.step (Client.WellFormed smallArena) [.get 8, .get 16] ⟨h, []⟩ ↔
        Meets Client.step (Client.CutFits smallArena) [.get 8, .get 16] ⟨h, []⟩) := by
  obtain ⟨h, run, safe⟩ := Client.safe_iff_cuts_fit smallArena (fun _ => 0) smallRaw [.get 8, .get 16]
    (M := 16) rfl rfl
  exact ⟨h, run, safe ⟨show 8 ≤ 16 by decide, fun _ _ => ⟨show 16 ≤ 16 by decide, fun _ _ => trivial⟩⟩⟩

/-- Three blocks taken and given back from the highest to the lowest make a get
of eight bytes cut a block in front of a free one: the remainder of five words
has class 2, and there are two classes. -/
theorem Client.cut_overruns :
    ∃ h, carve (fun _ => 0) smallRaw 16 4096 96 = .ok h ∧
      Meets Client.step (Client.Legal smallArena)
        [.get 16, .get 16, .get 16, .free 4168, .free 4136, .free 4104, .get 8] ⟨h, []⟩ ∧
      run Client.step [.get 16, .get 16, .get 16, .free 4168, .free 4136, .free 4104, .get 8] ⟨h, []⟩ =
        .error .headsOutOfRange := by
  obtain ⟨h₀, carved, rep₀, -⟩ := carve_spec (A := smallArena) (M := 16) (fun _ => 0) smallRaw rfl rfl
  have request : 16 ≤ 8 * smallArena.len := by decide
  obtain ⟨h₁, get₁, ev₁⟩ := Rep.getFirst (p := 4160) request rfl [⟨4, .free⟩, ⟨4, .free⟩] [] rep₀ rfl rfl
  obtain ⟨h₂, get₂, ev₂⟩ := Rep.getFirst (p := 4128) request rfl [⟨4, .free⟩] [⟨4, .used⟩] ev₁.rep rfl rfl
  obtain ⟨h₃, get₃, ev₃⟩ := Rep.getFirst (p := 4096) request rfl [] [⟨4, .used⟩, ⟨4, .used⟩] ev₂.rep rfl rfl
  obtain ⟨h₄, free₄, rep₄, -⟩ := Rep.free (f := ⟨[⟨4, .used⟩, ⟨4, .used⟩], 4, [], _⟩) ev₃.rep
    (by simp [Focus.layout, Layout.Settled, Block.Settled])
  obtain ⟨h₅, free₅, rep₅, -⟩ := Rep.free (f := ⟨[⟨4, .used⟩], 4, [⟨4, .free⟩], _⟩) rep₄
    (by simp [Focus.layout, Layout.Settled, Block.Settled])
  obtain ⟨h₆, free₆, rep₆, -⟩ := Rep.free (f := ⟨[], 4, [⟨4, .free⟩, ⟨4, .free⟩], _⟩) rep₅
    (by simp [Focus.layout, Layout.Settled, Block.Settled])
  have overrun : getSegregatedFitsBlock h₆ 8 = .error .headsOutOfRange := by
    refine (rep₆.get ?_ (show 8 ≤ 8 * smallArena.len by decide)).2 ?_
    · intro b member
      change b ∈ [⟨4, .free⟩, ⟨4, .free⟩, ⟨4, .free⟩] at member
      refine Or.inr ?_
      simp only [List.mem_cons, List.not_mem_nil, or_false, or_self] at member
      rw [member]
    · intro fits
      exact absurd (fits [⟨4, .free⟩] 1 [⟨4, .free⟩] rfl ⟨rfl, rfl, rfl⟩) (by decide)
  have step₁ : Client.step ⟨h₀, []⟩ (.get 16) = .ok ⟨h₁, [(4168, 16)]⟩ := by
    simp only [Client.step, get₁, ok_bind]
  have step₂ : Client.step ⟨h₁, [(4168, 16)]⟩ (.get 16) = .ok ⟨h₂, [(4136, 16), (4168, 16)]⟩ := by
    simp only [Client.step, get₂, ok_bind]
  have step₃ : Client.step ⟨h₂, [(4136, 16), (4168, 16)]⟩ (.get 16) =
      .ok ⟨h₃, [(4104, 16), (4136, 16), (4168, 16)]⟩ := by
    simp only [Client.step, get₃, ok_bind]
  have step₄ : Client.step ⟨h₃, [(4104, 16), (4136, 16), (4168, 16)]⟩ (.free 4168) =
      .ok ⟨h₄, [(4104, 16), (4136, 16)]⟩ := by
    have freed : freeSegregatedFitsBlock h₃ 4168 = .ok h₄ := free₄
    simp only [Client.step, freed, ok_bind]
    rfl
  have step₅ : Client.step ⟨h₄, [(4104, 16), (4136, 16)]⟩ (.free 4136) = .ok ⟨h₅, [(4104, 16)]⟩ := by
    have freed : freeSegregatedFitsBlock h₄ 4136 = .ok h₅ := free₅
    simp only [Client.step, freed, ok_bind]
    rfl
  have step₆ : Client.step ⟨h₅, [(4104, 16)]⟩ (.free 4104) = .ok ⟨h₆, []⟩ := by
    have freed : freeSegregatedFitsBlock h₅ 4104 = .ok h₆ := free₆
    simp only [Client.step, freed, ok_bind]
    rfl
  refine ⟨h₀, carved, ?_, ?_⟩
  · refine .cons (show 16 ≤ 16 by decide) step₁ (.cons (show 16 ≤ 16 by decide) step₂
      (.cons (show 16 ≤ 16 by decide) step₃ (.cons ⟨16, by simp⟩ step₄ (.cons ⟨16, by simp⟩ step₅
      (.cons ⟨16, by simp⟩ step₆ ⟨show 8 ≤ 16 by decide, fun _ _ => trivial⟩)))))
  · rw [run_cons step₁, run_cons step₂, run_cons step₃, run_cons step₄, run_cons step₅, run_cons step₆]
    exact run_cons_error (by simp only [Client.step, overrun, error_bind])

end Fkv
