import Fkv.MemManager.Takes

namespace Fkv
open ByteMemory CWord Tiling LinkedRing Runs

/-- The blocks after gets in stack order, with the blocks they handed out. -/
inductive Piled (A : Region) : List (Nat × Nat) → List Block → Prop
  | carved : Piled A [] A.fresh.blocks
  | taken {live blocks p blocks' dataSize} : Piled A live blocks → Takes (A.len + 2) A.addr blocks p blocks' →
      Piled A ((p + 8, dataSize) :: live) blocks'

/-- A client frees, of all the blocks it holds, the one it got last. -/
def Client.InStackOrder (s : Client) : Call → Prop
  | .free block => ∃ dataSize live, s.live = (block, dataSize) :: live
  | _ => True

/-- The layout of a client that keeps to stack order. -/
structure Stacks (A : Arena) (s : Client) (lay : Layout) : Prop where
  serves : Serves A s lay
  piled : Piled A s.live lay.blocks
  descends : lay.Descends A

/-- A get returns whatever size is asked for, and refuses only when as many blocks
are held as there were of the largest class. The free of what it hands out brings
back the blocks as they were; once all are given back, they are as carved. -/
structure Client.Stacked (A : Arena) (s : Client) : Prop where
  wellFormed : s.WellFormed A
  serves : ∀ dataSize, dataSize ≤ 8 * A.len → ∃ r h, getSegregatedFitsBlock s.heap dataSize = .ok (r, h) ∧
    (r = none → A.addrSize / 8 / (A.len + 2) ≤ s.live.length)
  restores : ∀ dataSize x h, dataSize ≤ 8 * A.len → getSegregatedFitsBlock s.heap dataSize = .ok (some x, h) →
    ∃ h' blocks F F', freeSegregatedFitsBlock h x = .ok h' ∧ (∀ b ∈ blocks, b.Settled) ∧ Rep A s.heap ⟨blocks, F⟩ ∧
      Rep A h' ⟨blocks, F'⟩
  returns : s.live = [] → ∃ F, Rep A s.heap ⟨A.fresh.blocks, F⟩

theorem Piled.fronted {A : Arena} {blocks : List Block} {live : List (Nat × Nat)} (piled : Piled A live blocks) :
    ∃ n, A.addrSize / 8 / (A.len + 2) ≤ n + live.length ∧ Fronted (A.len + 2) n blocks := by
  induction piled with
  | carved => exact ⟨_, le_rfl, A.fresh_fronted⟩
  | taken _ takes ih =>
    obtain ⟨n, enough, fronted⟩ := ih
    obtain ⟨n', less, fronted'⟩ := takes.fronted fronted
    exact ⟨n', by simp only [List.length_cons]; omega, fronted'⟩

theorem Stacks.fresh {A : Arena} {h : Heap} (rep : Rep A h A.fresh) : Stacks A ⟨h, []⟩ A.fresh :=
  ⟨Serves.fresh rep, .carved, carved_descends rfl⟩

theorem Serves.left_of_last {A : Arena} {lay : Layout} {x dataSize : Nat} {s : Client} {live : List (Nat × Nat)}
    (serves : Serves A s lay) (last : s.live = (x, dataSize) :: live) :
    s.live.filter (fun q => q.1 ≠ x) = live := by
  have nodup := serves.starts_nodup
  rw [last, List.map_cons, List.nodup_cons] at nodup
  rw [last, List.filter_cons_of_neg (by simp)]
  refine List.filter_eq_self.mpr fun q member => ?_
  simpa using fun same => nodup.1 (List.mem_map.mpr ⟨q, member, same⟩)

/-- A free in stack order brings back the blocks before the get it belongs to. -/
theorem Stacks.free {A : Arena} {p dataSize : Nat} {blocks blocks' : List Block} {F : Nat → List Nat}
    {s : Client} {live : List (Nat × Nat)} (serves : Serves A s ⟨blocks', F⟩)
    (descends : Layout.Descends A ⟨blocks', F⟩) (before : Piled A live blocks)
    (takes : Takes (A.len + 2) A.addr blocks p blocks') (last : s.live = (p + 8, dataSize) :: live) :
    ∃ h' F', freeSegregatedFitsBlock s.heap (p + 8) = .ok h' ∧ s.step (.free (p + 8)) = .ok ⟨h', live⟩ ∧
      Stacks A ⟨h', live⟩ ⟨blocks, F'⟩ := by
  have top : A.len + 2 = A.len - 1 + 3 := by have := A.len_pos; omega
  rw [top] at takes
  obtain ⟨f, whole, rfl, rfl, list⟩ := takes.undone descends
  rw [← top] at before list
  rw [← whole] at serves
  obtain ⟨h', freed, rep, -⟩ := serves.rep.free serves.settled
  have served := serves.free rep
  rw [serves.left_of_last last] at served
  refine ⟨h', (release (A.len + 2) A.addr f).lists, freed, ?_, ?_⟩
  · simp only [Client.step, freed, ok_bind, serves.left_of_last last]
  · rw [← top]
    exact ⟨served, before, list⟩

theorem Stacks.frees {A : Arena} {lay : Layout} {x dataSize : Nat} {s : Client} {live : List (Nat × Nat)}
    (ordered : Stacks A s lay) (last : s.live = (x, dataSize) :: live) :
    ∃ h' lay', freeSegregatedFitsBlock s.heap x = .ok h' ∧ s.step (.free x) = .ok ⟨h', live⟩ ∧
      Stacks A ⟨h', live⟩ lay' := by
  obtain ⟨serves, piled, descends⟩ := ordered
  obtain ⟨blocks', F⟩ := lay
  rw [last] at piled
  cases piled with
  | taken before takes =>
    obtain ⟨h', F', freed, step, ordered⟩ := Stacks.free serves descends before takes last
    exact ⟨h', _, freed, step, ordered⟩

theorem Stacks.got {A : Arena} {h : Heap} {lay : Layout} {x dataSize : Nat} {s : Client}
    (ordered : Stacks A s lay) (request : dataSize ≤ 8 * A.len)
    (got : getSegregatedFitsBlock s.heap dataSize = .ok (some x, h)) :
    ∃ lay', Gets A (requestClass dataSize) lay (some x) lay' ∧ Stacks A ⟨h, (x, dataSize) :: s.live⟩ lay' := by
  obtain ⟨serves, piled, descends⟩ := ordered
  obtain ⟨n, -, fronted⟩ := piled.fronted
  have bound := (getSegregatedFitsBlock_eq serves.rep.shape request rfl).1
  obtain ⟨lay', gets, evolves⟩ := serves.rep.get_ok serves.settled request got
  obtain ⟨p, rfl, takes, descends'⟩ := gets.takes serves.rep serves.settled fronted descends bound
  exact ⟨lay', gets, serves.get evolves.rep gets, piled.taken takes, descends'⟩

/-- Every call in stack order leaves a layout of stack order. -/
theorem Stacks.step {A : Arena} {lay : Layout} {s : Client} {call : Call} (ordered : Stacks A s lay)
    (legal : s.Legal A call) (order : s.InStackOrder call) :
    ∃ s' lay', s.step call = .ok s' ∧ Stacks A s' lay' := by
  obtain ⟨serves, piled, descends⟩ := ordered
  obtain ⟨n, -, fronted⟩ := piled.fronted
  cases call with
  | get dataSize =>
    have bound := (getSegregatedFitsBlock_eq serves.rep.shape legal rfl).1
    obtain ⟨r, h', lay', got, gets, evolves⟩ :=
      (serves.rep.get serves.settled legal).1 (fronted.cutFits serves.rep serves.settled descends)
    have served := serves.get evolves.rep gets
    cases r with
    | none =>
      obtain rfl : lay' = lay := by
        rcases gets.used with ⟨_, some, -⟩ | ⟨-, same⟩
        · cases some
        · exact same
      exact ⟨⟨h', s.live⟩, lay', by simp only [Client.step, got, ok_bind], served, piled, descends⟩
    | some x =>
      obtain ⟨lay', -, ordered⟩ := Stacks.got ⟨serves, piled, descends⟩ legal got
      exact ⟨⟨h', (x, dataSize) :: s.live⟩, lay', by simp only [Client.step, got, ok_bind], ordered⟩
  | free block =>
    obtain ⟨dataSize, live, last⟩ := order
    obtain ⟨h', lay', -, done, ordered⟩ := Stacks.frees ⟨serves, piled, descends⟩ last
    exact ⟨_, lay', done, ordered⟩
  | write block offset byte =>
    obtain ⟨dataSize, live, inside⟩ := legal
    exact ⟨_, lay, rfl, serves.write live inside, piled, descends⟩

theorem Stacks.stacked {A : Arena} {lay : Layout} {s : Client} (ordered : Stacks A s lay) : s.Stacked A := by
  obtain ⟨serves, piled, descends⟩ := ordered
  obtain ⟨n, enough, fronted⟩ := piled.fronted
  refine ⟨⟨lay, serves⟩, fun dataSize request => ?_, fun dataSize x h request got => ?_, fun none => ?_⟩
  · have bound := (getSegregatedFitsBlock_eq serves.rep.shape request rfl).1
    obtain ⟨r, h', lay', got, gets, -⟩ :=
      (serves.rep.get serves.settled request).1 (fronted.cutFits serves.rep serves.settled descends)
    refine ⟨r, h', got, fun nothing => ?_⟩
    have unavailable := (gets.none_iff serves.rep bound).mp nothing
    obtain ⟨rest, blocks, -, -⟩ := fronted
    cases n with
    | zero => omega
    | succ n =>
      refine absurd ⟨⟨A.len + 2, .free⟩, ?_, rfl, by simp only; omega⟩ unavailable
      rw [blocks, List.replicate_succ]
      simp
  · have bound := (getSegregatedFitsBlock_eq serves.rep.shape request rfl).1
    obtain ⟨⟨blocks', F'⟩, gets, evolves⟩ := serves.rep.get_ok serves.settled request got
    obtain ⟨p, rfl, takes, descends'⟩ := gets.takes serves.rep serves.settled fronted descends bound
    obtain ⟨h', F'', freed, -, after⟩ :=
      Stacks.free (s := ⟨h, (p + 8, dataSize) :: s.live⟩) (serves.get evolves.rep gets) descends' piled takes rfl
    exact ⟨h', lay.blocks, lay.lists, F'', freed, serves.settled, serves.rep, after.serves.rep⟩
  · rw [none] at piled
    obtain ⟨blocks, F⟩ := lay
    cases piled with
    | carved => exact ⟨F, serves.rep⟩

/-- From carving on, a client that gives blocks back in stack order meets no fault,
whatever sizes it asks for, and finds free space after every free as it was before
the get of that block. -/
theorem Client.stack_order_serves {M : Nat} (A : Arena) (m : Mem) (raw : SegregatedFits) (calls : List Call)
    (self : raw.self = A.self) (classes : segregatedFitsClassSize M = A.len) :
    ∃ h, carve m raw M A.addr A.addrSize = .ok h ∧
      (Meets Client.step (fun s call => s.Legal A call ∧ s.InStackOrder call) calls ⟨h, []⟩ →
        Throughout Client.step (Client.Stacked A) calls ⟨h, []⟩) := by
  obtain ⟨h, carving, rep, -⟩ := carve_spec m raw self classes
  refine ⟨h, carving, fun legal => ?_⟩
  have advances : ∀ (s : Client) (call : Call), (∃ lay, Stacks A s lay) → s.Legal A call ∧ s.InStackOrder call →
      ∃ s', s.step call = .ok s' ∧ ∃ lay, Stacks A s' lay := by
    rintro s call ⟨lay, ordered⟩ ⟨legal, order⟩
    obtain ⟨s', lay', done, ordered'⟩ := ordered.step legal order
    exact ⟨s', done, lay', ordered'⟩
  refine throughout_of_total advances (fun s inv => ?_) ⟨A.fresh, .fresh rep⟩ legal
  obtain ⟨lay, ordered⟩ := inv
  exact ordered.stacked

theorem Client.stack_order_serves_small :
    ∃ h, carve (fun _ => 0) smallRaw 16 4096 96 = .ok h ∧
      Throughout Client.step (Client.Stacked smallArena) [.get 16, .free 4168, .get 8] ⟨h, []⟩ := by
  obtain ⟨h, carving, rep, -⟩ := carve_spec (A := smallArena) (M := 16) (fun _ => 0) smallRaw rfl rfl
  obtain ⟨h', carving', serves⟩ :=
    Client.stack_order_serves smallArena (fun _ => 0) smallRaw [.get 16, .free 4168, .get 8] (M := 16) rfl rfl
  cases carving.symm.trans carving'
  obtain ⟨h₁, get₁, -⟩ :=
    Rep.getFirst (p := 4160) (show 16 ≤ 8 * smallArena.len by decide) rfl [⟨4, .free⟩, ⟨4, .free⟩] []
      rep rfl rfl
  have step₁ : Client.step ⟨h, []⟩ (.get 16) = .ok ⟨h₁, [(4168, 16)]⟩ := by
    simp only [Client.step, get₁, ok_bind]
  refine ⟨h, carving, serves
    (.cons ⟨show 16 ≤ 16 by decide, trivial⟩ step₁ ⟨⟨⟨16, by simp⟩, 16, [], rfl⟩, fun s _ => ?_⟩)⟩
  exact ⟨⟨show 8 ≤ 16 by decide, trivial⟩, fun _ _ => trivial⟩

end Fkv
