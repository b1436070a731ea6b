import Fkv.MemManager.StackOrder

namespace Fkv
open ByteMemory CWord Tiling LinkedRing Runs

/-- A row of blocks of `M` words, and a smaller free one behind it, if any. -/
def Rowed (M : Nat) (blocks : List Block) : Prop :=
  ∃ cells v, blocks = cells ++ few v ∧ (∀ b ∈ cells, b.words = M) ∧ v < M

/-- A client asks for blocks of the largest class only. -/
def Client.AsksLargest (A : Arena) : Call → Prop
  | .get dataSize => 8 * (A.len - 1) < dataSize
  | _ => True

/-- The layout of such a client. -/
structure Rows (A : Arena) (s : Client) (lay : Layout) : Prop where
  serves : Serves A s lay
  rowed : Rowed (A.len + 2) lay.blocks

/-- The partition is still cut into the blocks it was carved into. A get of the
largest class returns, and refuses exactly when all blocks of that class are held. -/
structure Client.Uncut (A : Arena) (s : Client) : Prop where
  carved : ∃ lay, Serves A s lay ∧ lay.blocks.map Block.words = A.fresh.blocks.map Block.words
  serves : ∀ dataSize, 8 * (A.len - 1) < dataSize → dataSize ≤ 8 * A.len → ∃ r h,
    getSegregatedFitsBlock s.heap dataSize = .ok (r, h) ∧ (r = none ↔ s.live.length = A.addrSize / 8 / (A.len + 2))

theorem few_words {v : Nat} {b : Block} (member : b ∈ few v) : b = ⟨v, .free⟩ := by
  unfold few at member
  split at member
  · cases member
  · simpa using member

/-- A block of `M` words in a row, with what is in front of it and behind it. -/
theorem Rowed.split {M : Nat} {pre post : List Block} {state : BlockState}
    (rowed : Rowed M (pre ++ ⟨M, state⟩ :: post)) :
    ∃ rest v, post = rest ++ few v ∧ (∀ b ∈ pre ++ rest, b.words = M) ∧ v < M := by
  obtain ⟨cells, v, whole, large, small⟩ := rowed
  rcases List.append_eq_append_iff.mp whole with ⟨gone, front, behind⟩ | ⟨gone, -, behind⟩
  · cases gone with
    | nil =>
      have last := few_words (v := v) (b := ⟨M, state⟩)
        (by rw [← List.nil_append (few v), ← behind]; exact List.mem_cons_self)
      simp only [Block.mk.injEq] at last
      omega
    | cons c rest =>
      rw [List.cons_append, List.cons.injEq] at behind
      refine ⟨rest, v, behind.2, fun b member => large b ?_, small⟩
      rw [front]
      rcases List.mem_append.mp member with left | right
      · simp [left]
      · simp [right]
  · have last := few_words (v := v) (b := ⟨M, state⟩) (by rw [behind]; simp)
    simp only [Block.mk.injEq] at last
    omega

/-- A block of a row may be taken or given back. -/
theorem Rowed.replace {M : Nat} {pre post : List Block} {state : BlockState}
    (rowed : Rowed M (pre ++ ⟨M, state⟩ :: post)) (other : BlockState) : Rowed M (pre ++ ⟨M, other⟩ :: post) := by
  obtain ⟨rest, v, rfl, large, small⟩ := rowed.split
  refine ⟨pre ++ ⟨M, other⟩ :: rest, v, by simp, fun b member => ?_, small⟩
  simp only [List.mem_append, List.mem_cons] at member large
  rcases member with left | rfl | right
  · exact large b (Or.inl left)
  · rfl
  · exact large b (Or.inr right)

/-- The used blocks of a row have `M` words. -/
theorem Rowed.used {M : Nat} {b : Block} {blocks : List Block} (rowed : Rowed M blocks) (member : b ∈ blocks)
    (used : b.state = .used) : b.words = M := by
  obtain ⟨cells, v, rfl, large, -⟩ := rowed
  rcases List.mem_append.mp member with inside | last
  · exact large b inside
  · rw [few_words last] at used
    cases used

/-- Where blocks of `M` words are freed beside others of `M` words, and smaller ones
are behind them only, no block moves. -/
theorem release_in_place {M a : Nat} {f : Focus} (positive : 1 ≤ M) (full : f.words = M)
    (settled : ∀ b ∈ f.before ++ f.after, b.Settled) (before : ∀ b ∈ f.before, b.words = M)
    (after : ∀ b ∈ f.after, 1 ≤ b.words) :
    (release M a f).blocks = (f.layout .free).blocks := by
  obtain ⟨front, w, behind, F⟩ := f
  simp only at full settled before after
  subst full
  have left : ∃ F', mergeLeft w a behind front w F = ⟨front, w, behind, F'⟩ := by
    cases front with
    | nil => exact ⟨F, rfl⟩
    | cons b rest =>
      rw [mergeLeft]
      rcases settled b (by simp) with used | free
      · exact ⟨F, if_pos used⟩
      · have words := before b (by simp)
        obtain ⟨u, state⟩ := b
        obtain rfl : state = .free := free
        obtain rfl : u = w := words
        rw [if_neg (by simp), if_pos (by simp only; omega)]
        exact ⟨_, by rw [Nat.add_sub_cancel]⟩
  obtain ⟨F', left⟩ := left
  simp only [release, coalesce, left]
  cases behind with
  | nil => rfl
  | cons b rest =>
    rw [mergeRight]
    rcases settled b (by simp) with used | free
    · rw [if_pos used]
      rfl
    · have words := after b (by simp)
      obtain ⟨u, state⟩ := b
      obtain rfl : state = .free := free
      simp only at words
      rw [if_neg (by simp), if_pos (by simp only; omega)]
      simp [Focus.layout]

/-- The blocks of a row are as many as its words make. -/
theorem Rowed.cells {M w : Nat} {blocks : List Block} (rowed : Rowed M blocks)
    (total : span Block.size blocks = 8 * w) :
    ∃ cells, blocks = cells ++ few (w % M) ∧ (∀ b ∈ cells, b.words = M) ∧ cells.length = w / M := by
  obtain ⟨cells, v, rfl, large, small⟩ := rowed
  have length : span Block.size cells = 8 * (M * cells.length) := by
    clear total
    induction cells with
    | nil => rfl
    | cons b cells ih =>
      rw [span_cons, ih fun c member => large c (List.mem_cons_of_mem b member), Block.size,
        large b List.mem_cons_self, List.length_cons, Nat.mul_succ]
      omega
  have last : span Block.size (few v) = 8 * v := by
    unfold few
    split
    · simp [*]
    · simp
  rw [span_append, length, last] at total
  obtain rfl : w = M * cells.length + v := by omega
  rw [Nat.mul_add_div (by omega), Nat.div_eq_of_lt small, Nat.add_zero, Nat.mul_add_mod, Nat.mod_eq_of_lt small]
  exact ⟨cells, rfl, large, rfl⟩

/-- All rows of one length are cut alike. -/
theorem Rowed.alike {M w : Nat} {blocks blocks' : List Block} (rowed : Rowed M blocks)
    (rowed' : Rowed M blocks') (total : span Block.size blocks = 8 * w)
    (total' : span Block.size blocks' = 8 * w) :
    blocks.map Block.words = blocks'.map Block.words := by
  have row : ∀ {cells : List Block}, (∀ b ∈ cells, b.words = M) → cells.length = w / M →
      cells.map Block.words = List.replicate (w / M) M := by
    intro cells large length
    refine List.eq_replicate_iff.mpr ⟨by rw [List.length_map, length], fun u member => ?_⟩
    obtain ⟨b, inside, rfl⟩ := List.mem_map.mp member
    exact large b inside
  obtain ⟨cells, rfl, large, length⟩ := rowed.cells total
  obtain ⟨cells', rfl, large', length'⟩ := rowed'.cells total'
  rw [List.map_append, List.map_append, row large length, row large' length']

theorem Region.fresh_rowed (A : Region) : Rowed (A.len + 2) A.fresh.blocks := by
  have blocks := carved_blocks A.addr [] (fun _ => []) (show 1 ≤ A.len + 2 by omega) (le_refl (A.addrSize / 8))
  refine ⟨_, A.addrSize / 8 % (A.len + 2), by rw [Region.fresh, blocks, List.nil_append]; rfl, fun b member => ?_,
    Nat.mod_lt _ (by omega)⟩
  rw [List.eq_of_mem_replicate member]

theorem usedBlocks_length {a : Nat} {blocks : List Block} :
    (usedBlocks a blocks).length = blocks.countP fun b => b.state = .used := by
  induction blocks generalizing a with
  | nil => rfl
  | cons b blocks ih =>
    rw [usedBlocks_cons, List.length_append, ih, List.countP_cons, Nat.add_comm]
    by_cases used : b.state = .used <;> simp [used]

namespace Rows

/-- No block of the largest class is free when as many are held as there are. -/
theorem unavailable_iff {A : Arena} {lay : Layout} {s : Client} (rows : Rows A s lay) :
    ¬ Available (A.len + 2) lay.blocks ↔ s.live.length = A.addrSize / 8 / (A.len + 2) := by
  obtain ⟨serves, rowed⟩ := rows
  obtain ⟨cells, whole, large, count⟩ := rowed.cells serves.rep.total
  have held : s.live.length = cells.countP fun b => b.state = .used := by
    have length := serves.live.length_eq
    rw [List.length_map, List.length_map, usedBlocks_length, whole, List.countP_append] at length
    rw [length, Nat.add_eq_left, List.countP_eq_zero]
    intro b member
    simp [few_words member]
  have settled : ∀ b ∈ cells, b.Settled := fun b member => serves.settled b (by simp [whole, member])
  rw [held, ← count, List.countP_eq_length, whole]
  constructor
  · intro none b member
    refine decide_eq_true ((settled b member).resolve_right fun free => none ⟨b, by simp [member], free, ?_⟩)
    exact (large b member).ge
  · rintro all ⟨b, member, free, enough⟩
    rcases List.mem_append.mp member with inside | last
    · have used := of_decide_eq_true (all b inside)
      rw [free] at used
      cases used
    · have less := Nat.mod_lt (A.addrSize / 8) (show 0 < A.len + 2 by omega)
      rw [few_words last] at enough
      simp only at enough
      omega

/-- A get of the largest class takes a block of the row, or there is none. -/
theorem get {A : Arena} {lay lay' : Layout} {s : Client} {r : Option Nat} (rows : Rows A s lay)
    (gets : Gets A (A.len - 1) lay r lay') : Rowed (A.len + 2) lay'.blocks := by
  have len := A.len_pos
  have rowed := rows.rowed
  cases gets with
  | pop _ pops =>
    obtain ⟨pre, post, p, rest, blocks, -, -, -, blocks'⟩ := pops.elim
    rw [show A.len - 1 + 3 = A.len + 2 by omega] at blocks blocks'
    rw [blocks] at rowed
    rw [blocks']
    exact rowed.replace _
  | cut cuts _ _ =>
    obtain ⟨lower, upper, -⟩ := firstListed_some cuts.first
    omega
  | none => exact rowed

/-- The free of a block leaves it where it is. -/
theorem free {A : Arena} {lay : Layout} {x dataSize : Nat} {s : Client} (rows : Rows A s lay)
    (live : (x, dataSize) ∈ s.live) : ∃ h' lay', freeSegregatedFitsBlock s.heap x = .ok h' ∧
    Rows A ⟨h', s.live.filter fun q => q.1 ≠ x⟩ lay' := by
  obtain ⟨serves, rowed⟩ := rows
  obtain ⟨f, rfl, rfl⟩ := serves.focus live
  obtain ⟨h', freed, rep, -⟩ := serves.rep.free serves.settled
  obtain ⟨settled, sized⟩ := serves.rep.around serves.settled
  have full : f.words = A.len + 2 := rowed.used (b := ⟨f.words, .used⟩) (by simp [Focus.layout]) rfl
  have row : Rowed (A.len + 2) (f.before.reverse ++ ⟨A.len + 2, .used⟩ :: f.after) := by
    rwa [Focus.layout, full] at rowed
  obtain ⟨rest, v, -, large, -⟩ := row.split
  have same := release_in_place (a := A.addr) (by omega) full settled (fun b member => large b (by simp [member]))
    fun b member => (sized b (List.mem_append_right _ member)).1
  refine ⟨h', _, freed, serves.free rep, ?_⟩
  rw [same, Focus.layout, full]
  exact row.replace _

theorem gets {A : Arena} {lay : Layout} {dataSize : Nat} {s : Client} (rows : Rows A s lay)
    (least : 8 * (A.len - 1) < dataSize) (most : dataSize ≤ 8 * A.len) :
    ∃ r h lay', getSegregatedFitsBlock s.heap dataSize = .ok (r, h) ∧
      Rows A ⟨h, (r.map fun x => (x, dataSize)).toList ++ s.live⟩ lay' ∧
      (r = none ↔ s.live.length = A.addrSize / 8 / (A.len + 2)) := by
  have len := A.len_pos
  have largest : requestClass dataSize = A.len - 1 := by
    unfold requestClass
    omega
  obtain ⟨served, -⟩ := rows.serves.rep.get rows.serves.settled most
  rw [largest] at served
  obtain ⟨r, h, lay', got, gets, evolves⟩ := served fun pre i post _ cuts => by
    obtain ⟨lower, upper, -⟩ := firstListed_some cuts.first
    omega
  refine ⟨r, h, lay', got, ⟨rows.serves.get evolves.rep (by rwa [largest]), rows.get gets⟩, ?_⟩
  rw [gets.none_iff rows.serves.rep (by omega), show A.len - 1 + 3 = A.len + 2 by omega]
  exact rows.unavailable_iff

theorem fresh {A : Arena} {h : Heap} (rep : Rep A h A.fresh) :
    Rows A ⟨h, []⟩ A.fresh := ⟨Serves.fresh rep, A.fresh_rowed⟩

/-- Every call of such a client leaves such a layout. -/
theorem step {A : Arena} {lay : Layout} {s : Client} {call : Call} (rows : Rows A s lay)
    (legal : s.Legal A call) (asks : Client.AsksLargest A call) :
    ∃ s' lay', s.step call = .ok s' ∧ Rows A s' lay' := by
  cases call with
  | get dataSize =>
    obtain ⟨r, h, lay', got, rows', -⟩ := rows.gets asks legal
    refine ⟨_, lay', ?_, rows'⟩
    simp only [Client.step, got, ok_bind]
    cases r <;> rfl
  | free block =>
    obtain ⟨dataSize, live⟩ := legal
    obtain ⟨h', lay', freed, rows'⟩ := rows.free live
    exact ⟨_, lay', by simp only [Client.step, freed, ok_bind], rows'⟩
  | write block offset byte =>
    obtain ⟨dataSize, live, inside⟩ := legal
    exact ⟨_, lay, rfl, rows.serves.write live inside, rows.rowed⟩

theorem uncut {A : Arena} {h : Heap} {lay : Layout} {s : Client} (rows : Rows A s lay) (rep : Rep A h A.fresh) :
    s.Uncut A :=
  ⟨⟨lay, rows.serves, rows.rowed.alike A.fresh_rowed rows.serves.rep.total rep.total⟩,
    fun dataSize least most => by
      obtain ⟨r, h, -, got, -, none⟩ := rows.gets least most
      exact ⟨r, h, got, none⟩⟩

end Rows

/-- From carving on, a client that asks for blocks of the largest class only meets no
fault, in whatever order it gives them back, and the partition is never cut otherwise
than it was carved. -/
theorem Client.largest_serves {M : Nat} (A : Arena) (m : Mem) (raw : SegregatedFits) (calls : List Call)
    (self : raw.self = A.self) (classes : segregatedFitsClassSize M = A.len) :
    ∃ h, carve m raw M A.addr A.addrSize = .ok h ∧
      (Meets Client.step (fun s call => s.Legal A call ∧ Client.AsksLargest A call) calls ⟨h, []⟩ →
        Throughout Client.step (Client.Uncut A) calls ⟨h, []⟩) := by
  obtain ⟨h, carving, rep, -⟩ := carve_spec m raw self classes
  refine ⟨h, carving, fun legal => ?_⟩
  have advances : ∀ (s : Client) (call : Call), (∃ lay, Rows A s lay) → s.Legal A call ∧
    Client.AsksLargest A call →
      ∃ s', s.step call = .ok s' ∧ ∃ lay, Rows A s' lay := by
    rintro s call ⟨lay, rows⟩ ⟨legal, asks⟩
    obtain ⟨s', lay', done, rows'⟩ := rows.step legal asks
    exact ⟨s', done, lay', rows'⟩
  refine throughout_of_total advances (fun s inv => ?_) ⟨A.fresh, .fresh rep⟩ legal
  obtain ⟨lay, rows⟩ := inv
  exact rows.uncut rep

theorem Client.largest_serves_small :
    ∃ h, carve (fun _ => 0) smallRaw 16 4096 96 = .ok h ∧
      Throughout Client.step (Client.Uncut smallArena) [.get 16, .get 9, .free 4168, .get 16] ⟨h, []⟩ := by
  obtain ⟨h, carving, rep, -⟩ := carve_spec (A := smallArena) (M := 16) (fun _ => 0) smallRaw rfl rfl
  obtain ⟨h', carving', serves⟩ :=
    Client.largest_serves smallArena (fun _ => 0) smallRaw [.get 16, .get 9, .free 4168, .get 16]
      (M := 16) rfl rfl
  cases carving.symm.trans carving'
  obtain ⟨h₁, get₁, ev₁⟩ :=
    Rep.getFirst (p := 4160) (show 16 ≤ 8 * smallArena.len by decide) rfl [⟨4, .free⟩, ⟨4, .free⟩] [] rep rfl rfl
  obtain ⟨h₂, get₂, -⟩ :=
    Rep.getFirst (p := 4128) (show 9 ≤ 8 * smallArena.len by decide) rfl [⟨4, .free⟩] [⟨4, .used⟩]
      ev₁.rep rfl rfl
  have step₁ : Client.step ⟨h, []⟩ (.get 16) = .ok ⟨h₁, [(4168, 16)]⟩ := by
    simp only [Client.step, get₁, ok_bind]
  have step₂ : Client.step ⟨h₁, [(4168, 16)]⟩ (.get 9) = .ok ⟨h₂, [(4136, 9), (4168, 16)]⟩ := by
    simp only [Client.step, get₂, ok_bind]
  refine ⟨h, carving, serves (.cons ⟨show 16 ≤ 16 by decide, show 8 < 16 by decide⟩ step₁
    (.cons ⟨show 9 ≤ 16 by decide, show 8 < 9 by decide⟩ step₂ ⟨⟨⟨16, by simp⟩, trivial⟩, fun s _ => ?_⟩))⟩
  exact ⟨⟨show 16 ≤ 16 by decide, show 8 < 16 by decide⟩, fun _ _ => trivial⟩

end Fkv
