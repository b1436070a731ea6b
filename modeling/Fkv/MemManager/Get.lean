import Fkv.MemManager.Divide

namespace Fkv
open ByteMemory CWord Tiling LinkedRing Runs

/-- Handing out the first block of class `c`. -/
inductive Pops (A : Region) (c : Nat) : Layout → Nat → Layout → Prop
  | intro {pre post F p rest} : p = A.addr + span Block.size pre → F c = (p + 8) :: rest →
      Pops A c ⟨pre ++ ⟨c + 3, .free⟩ :: post, F⟩ (p + 8)
        ⟨pre ++ ⟨c + 3, .used⟩ :: post, Function.update F c rest⟩

/-- The block a division for class `c` cuts: the first one of the first larger
class that has any. -/
structure Cuts (A : Region) (c : Nat) (F : Nat → List Nat) (pre : List Block) (i : Nat) : Prop where
  empty : F c = []
  first : firstListed F (c + 1) (A.len - (c + 1)) = some i
  head : (F i).head? = some (A.addr + span Block.size pre + 8)

/-- What a get for class `c` may do: hand out a listed block, or cut a larger
one first, or find nothing. -/
inductive Gets (A : Region) (c : Nat) : Layout → Option Nat → Layout → Prop
  | pop {lay x lay'} : lay.lists c ≠ [] → Pops A c lay x lay' → Gets A c lay (some x) lay'
  | cut {pre i post F x lay'} : Cuts A c F pre i → i - c + freeRun post ≤ A.len + 2 →
      Pops A c (divide A.addr c i pre post F) x lay' →
      Gets A c ⟨pre ++ ⟨i + 3, .free⟩ :: post, F⟩ (some x) lay'
  | none {lay} : lay.lists c = [] → firstListed lay.lists (c + 1) (A.len - (c + 1)) = none →
      Gets A c lay Option.none lay

/-- The remainder of a cut and the free run behind it make no block above the
largest class. -/
def Layout.CutFits (A : Region) (c : Nat) (lay : Layout) : Prop :=
  ∀ pre i post, lay.blocks = pre ++ ⟨i + 3, .free⟩ :: post → Cuts A c lay.lists pre i →
    i - c + freeRun post ≤ A.len + 2

/-- What the class of a request is. -/
def requestClass (dataSize : Nat) : Nat := (dataSize + 7) / 8 - 1

theorem classCeilIndex_request {len dataSize : Nat} (request : dataSize ≤ 8 * len) (small : 8 * len < 2 ^ 30)
    (positive : 1 ≤ len) :
    classCeilIndex dataSize = (requestClass dataSize : Int) ∧ requestClass dataSize < len := by
  unfold classCeilIndex requestClass
  rw [toInt32_of_lt (by omega), and_seven]
  refine ⟨?_, by omega⟩
  simp only
  split
  · omega
  · split <;> omega

/-- The last lines of a get: class `i` hands out its first block. -/
def handOut (h : Heap) (i : Nat) : Except Fault (Option Nat × Heap) :=
  let (block, h) := getSegregatedFitsBlockInner h i
  if block = (h.sfits.heads i).next then .error .assertFailed else .ok (some block, h)

/-- A get once it has its class. -/
def getFrom (h : Heap) (i : Nat) : Except Fault (Option Nat × Heap) := do
  let (found, h) ← if segregatedFitsIsEmpty h.sfits i then segregatedFitsDivide h i else .ok (true, h)
  if found then handOut h i else .ok (none, h)

/-- The first block of a list can be handed out. -/
theorem Rep.handOutAt {A : Arena} {h : Heap} {p c : Nat} {F : Nat → List Nat} {rest : List Nat}
    (pre post : List Block) (rep : Rep A h ⟨pre ++ ⟨c + 3, .free⟩ :: post, F⟩) (bound : c < A.len)
    (atP : p = A.addr + span Block.size pre) (list : F c = (p + 8) :: rest) :
    ∃ h', handOut h c = .ok (some (p + 8), h') ∧ Evolves A h ⟨pre ++ ⟨c + 3, .free⟩ :: post, F⟩ h'
      ⟨pre ++ ⟨c + 3, .used⟩ :: post, Function.update F c rest⟩ := by
  obtain ⟨h', popped, taken⟩ := rep.pop bound list (by rw [atP])
  refine ⟨h', ?_, taken⟩
  have nodup := rep.nodup bound
  have ring := taken.rep.rings c bound
  simp only [list, Function.update_self] at nodup ring
  have fresh : p + 8 ≠ (h'.sfits.heads c).next := by
    rw [← Heap.link_headPtr taken.rep.shape]
    intro same
    cases rest with
    | nil =>
      rw [circular_nil] at ring
      exact rep.not_sentinel bound (show p + 8 ∈ F c by simp [list]) bound (same.trans ring)
    | cons y rest =>
      rw [circular_cons] at ring
      exact (List.nodup_cons.mp nodup).1 (by rw [same, ring.1]; simp)
  simp only [handOut, popped, if_neg fresh]

/-- A class with listed blocks hands out its first one. -/
theorem Rep.handOut {A : Arena} {h : Heap} {lay : Layout} {c : Nat} (rep : Rep A h lay) (bound : c < A.len)
    (listed : lay.lists c ≠ []) :
    ∃ x h' lay', Pops A c lay x lay' ∧ handOut h c = .ok (some x, h') ∧ Evolves A h lay h' lay' := by
  obtain ⟨blocks, F⟩ := lay
  obtain ⟨x, rest, list⟩ : ∃ x rest, F c = x :: rest := List.exists_cons_of_ne_nil listed
  obtain ⟨p, placed, rfl⟩ := rep.listed bound (show x ∈ F c by simp [list])
  obtain ⟨pre, post, rfl, atP⟩ := place_split placed
  obtain ⟨h', handed, taken⟩ := Rep.handOutAt _ _ rep bound atP list
  exact ⟨p + 8, h', _, .intro atP list, handed, taken⟩

/-- The front of a cut is on the list it was made for. -/
theorem Rep.cut_listed {A : Arena} {h : Heap} {i c : Nat} {pre post : List Block} {F : Nat → List Nat}
    (rep : Rep A h (divide A.addr c i pre post F)) (bound : c < A.len) :
    (divide A.addr c i pre post F).lists c ≠ [] := by
  intro none
  have members := rep.members c bound
  rw [none] at members
  have empty := members.symm.eq_nil
  simp [divide] at empty

/-- There is at most one block to cut. -/
theorem Cuts.unique {A : Arena} {i j c : Nat} {pre post : List Block} {F : Nat → List Nat}
    {pre' post' : List Block} (cuts : Cuts A c F pre i) (cuts' : Cuts A c F pre' j)
    (positive : ∀ b ∈ pre ++ ⟨i + 3, .free⟩ :: post, 1 ≤ b.words)
    (same : pre ++ ⟨i + 3, .free⟩ :: post = pre' ++ ⟨j + 3, .free⟩ :: post') :
    i = j ∧ pre = pre' ∧ post = post' := by
  obtain rfl : i = j := Option.some.inj (cuts.first.symm.trans cuts'.first)
  have spans := Option.some.inj (cuts.head.symm.trans cuts'.head)
  have sizes : ∀ b ∈ pre ++ ⟨i + 3, .free⟩ :: post, 1 ≤ Block.size b := by
    intro b member
    have words := positive b member
    simp only [Block.size]
    omega
  obtain ⟨front, -, behind⟩ :=
    split_unique sizes same (show span Block.size pre = span Block.size pre' by omega)
  exact ⟨rfl, front, behind⟩

/-- Where a larger class has to be cut, there is a block of it to cut. -/
theorem Rep.cuts {A : Arena} {h : Heap} {lay : Layout} {i c : Nat} (rep : Rep A h lay)
    (empty : lay.lists c = []) (first : firstListed lay.lists (c + 1) (A.len - (c + 1)) = some i) :
    ∃ pre post, lay.blocks = pre ++ ⟨i + 3, .free⟩ :: post ∧ Cuts A c lay.lists pre i := by
  obtain ⟨lower, upper, listed⟩ := firstListed_some first
  obtain ⟨x, rest, list⟩ := List.exists_cons_of_ne_nil listed
  obtain ⟨p, placed, rfl⟩ := rep.listed (show i < A.len by omega) (show x ∈ lay.lists i by simp [list])
  obtain ⟨pre, post, split, rfl⟩ := place_split placed
  exact ⟨pre, post, split, empty, first, by simp [list]⟩

/-- A get of a valid size looks at the list of its class. -/
theorem getSegregatedFitsBlock_eq {A : Arena} {h : Heap} {c dataSize : Nat} (shape : Shape A h.sfits)
    (request : dataSize ≤ 8 * A.len) (ofClass : c = requestClass dataSize) :
    c < A.len ∧ getSegregatedFitsBlock h dataSize = getFrom h c := by
  have len := A.len_lt
  subst ofClass
  obtain ⟨index, bound⟩ := classCeilIndex_request request (by omega) A.len_pos
  have unsigned : toUInt32 (requestClass dataSize : Int) = requestClass dataSize := toUInt32_of_nonneg (by omega)
  have inside : (0 : Int) ≤ (requestClass dataSize : Int) ∧ (requestClass dataSize : Int) < A.len := by omega
  refine ⟨bound, ?_⟩
  rw [getSegregatedFitsBlock]
  simp only [index, unsigned, shape.len, headIndex, inside, and_self, if_true, ok_bind, Int.toNat_natCast, getFrom,
    Fkv.handOut]
  rw [if_neg (by omega)]

theorem Rep.get_listed {A : Arena} {h : Heap} {lay : Layout} {c dataSize : Nat} (request : dataSize ≤ 8 * A.len)
    (ofClass : c = requestClass dataSize) (rep : Rep A h lay) (listed : lay.lists c ≠ []) :
    getSegregatedFitsBlock h dataSize = Fkv.handOut h c := by
  obtain ⟨bound, opened⟩ := getSegregatedFitsBlock_eq rep.shape request ofClass
  have nonempty : segregatedFitsIsEmpty h.sfits c = false := by
    simpa using (not_congr (rep.isEmpty_iff bound)).mpr listed
  rw [opened, getFrom]
  simp only [nonempty, Bool.false_eq_true, if_false, ok_bind, if_true]

theorem Rep.get_none {A : Arena} {h : Heap} {lay : Layout} {c dataSize : Nat} (request : dataSize ≤ 8 * A.len)
    (ofClass : c = requestClass dataSize) (rep : Rep A h lay) (empty : lay.lists c = [])
    (none : firstListed lay.lists (c + 1) (A.len - (c + 1)) = none) :
    getSegregatedFitsBlock h dataSize = .ok (Option.none, h) := by
  obtain ⟨bound, opened⟩ := getSegregatedFitsBlock_eq rep.shape request ofClass
  have divides := firstNonEmpty_eq rep (show c + 1 + (A.len - (c + 1)) ≤ A.len by omega)
  rw [opened, getFrom]
  simp only [(rep.isEmpty_iff bound).mpr empty, if_true, segregatedFitsDivide, rep.shape.len, divides, none,
    ok_bind, Bool.false_eq_true, if_false]

/-- A get that has to cut a block hands out from what the division leaves, or
leaves `heads[]`. -/
theorem Rep.get_cut {A : Arena} {h : Heap} {i c : Nat} {F : Nat → List Nat} {dataSize : Nat}
    (request : dataSize ≤ 8 * A.len) (ofClass : c = requestClass dataSize) (pre post : List Block)
    (rep : Rep A h ⟨pre ++ ⟨i + 3, .free⟩ :: post, F⟩)
    (settled : Layout.Settled ⟨pre ++ ⟨i + 3, .free⟩ :: post, F⟩) (cuts : Cuts A c F pre i) :
    if i - c + freeRun post ≤ A.len + 2 then
      ∃ h₁, getSegregatedFitsBlock h dataSize = Fkv.handOut h₁ c ∧
        Evolves A h ⟨pre ++ ⟨i + 3, .free⟩ :: post, F⟩ h₁ (divide A.addr c i pre post F)
    else getSegregatedFitsBlock h dataSize = .error .headsOutOfRange := by
  obtain ⟨bound, opened⟩ := getSegregatedFitsBlock_eq rep.shape request ofClass
  obtain ⟨lower, upper, -⟩ := firstListed_some cuts.first
  have count := rep.count settled
  simp only [List.length_append, List.length_cons] at count
  have divides := firstNonEmpty_eq rep (show c + 1 + (A.len - (c + 1)) ≤ A.len by omega)
  have division := divideClass_spec rep (fun b member => settled b (by simp [member])) (by omega)
    (by omega : c < i) (by omega) cuts.head
  rw [opened, getFrom]
  simp only [(rep.isEmpty_iff bound).mpr cuts.empty, if_true, segregatedFitsDivide, rep.shape.len, divides,
    cuts.first]
  by_cases fits : i - c + freeRun post ≤ A.len + 2
  · rw [if_pos fits] at division ⊢
    obtain ⟨h₁, divided, evolved⟩ := division
    exact ⟨h₁, by simp only [divided, ok_bind, if_true], evolved⟩
  · rw [if_neg fits] at division ⊢
    simp only [division, error_bind]

/-- A get whose class has listed blocks hands out the first of them. -/
theorem Rep.getFirst {A : Arena} {h : Heap} {p c : Nat} {F : Nat → List Nat} {rest : List Nat} {dataSize : Nat}
    (request : dataSize ≤ 8 * A.len) (ofClass : c = requestClass dataSize) (pre post : List Block)
    (rep : Rep A h ⟨pre ++ ⟨c + 3, .free⟩ :: post, F⟩) (atP : p = A.addr + span Block.size pre)
    (list : F c = (p + 8) :: rest) :
    ∃ h', getSegregatedFitsBlock h dataSize = .ok (some (p + 8), h') ∧
      Evolves A h ⟨pre ++ ⟨c + 3, .free⟩ :: post, F⟩ h'
        ⟨pre ++ ⟨c + 3, .used⟩ :: post, Function.update F c rest⟩ := by
  rw [rep.get_listed request ofClass (by simp [list])]
  exact Rep.handOutAt _ _ rep (getSegregatedFitsBlock_eq rep.shape request ofClass).1 atP list

/-- A get succeeds exactly when it has nothing to cut or the cut fits. -/
theorem Rep.get {A : Arena} {h : Heap} {lay : Layout} {dataSize : Nat} (rep : Rep A h lay)
    (settled : lay.Settled) (request : dataSize ≤ 8 * A.len) :
    (lay.CutFits A (requestClass dataSize) → ∃ r h' lay', getSegregatedFitsBlock h dataSize = .ok (r, h') ∧
        Gets A (requestClass dataSize) lay r lay' ∧ Evolves A h lay h' lay') ∧
      (¬ lay.CutFits A (requestClass dataSize) → getSegregatedFitsBlock h dataSize = .error .headsOutOfRange) := by
  obtain ⟨c, ofClass⟩ : ∃ c, c = requestClass dataSize := ⟨_, rfl⟩
  have bound := (getSegregatedFitsBlock_eq rep.shape request ofClass).1
  rw [← ofClass]
  by_cases empty : lay.lists c = []
  · cases first : firstListed lay.lists (c + 1) (A.len - (c + 1)) with
    | none =>
      refine ⟨fun _ => ⟨none, h, lay, rep.get_none request ofClass empty first, .none empty first, .refl rep⟩,
        fun overrun => absurd ?_ overrun⟩
      intro pre i post _ cuts
      cases first.symm.trans cuts.first
    | some i =>
      obtain ⟨pre, post, split, cuts⟩ := rep.cuts empty first
      obtain ⟨blocks, F⟩ := lay
      subst split
      have positive : ∀ b ∈ pre ++ ⟨i + 3, .free⟩ :: post, 1 ≤ b.words := fun b member =>
        rep.pos b member (by rcases settled b member with used | free <;> simp [*])
      have unique : Layout.CutFits A c ⟨pre ++ ⟨i + 3, .free⟩ :: post, F⟩ ↔ i - c + freeRun post ≤ A.len + 2 := by
        constructor
        · exact fun fits => fits pre i post rfl cuts
        · intro fits pre' j post' same cuts'
          obtain ⟨rfl, -, rfl⟩ := cuts.unique cuts' positive same
          exact fits
      have division := Rep.get_cut request ofClass _ _ rep settled cuts
      rw [unique]
      by_cases fits : i - c + freeRun post ≤ A.len + 2
      · rw [if_pos fits] at division
        obtain ⟨h₁, divided, evolved⟩ := division
        obtain ⟨x, h', lay', pops, handed, taken⟩ := evolved.rep.handOut bound (evolved.rep.cut_listed bound)
        exact ⟨fun _ => ⟨some x, h', lay', divided.trans handed, .cut cuts fits pops, evolved.trans taken⟩,
          fun beyond => absurd fits beyond⟩
      · rw [if_neg fits] at division
        exact ⟨fun fits' => absurd fits' fits, fun _ => division⟩
  · obtain ⟨x, h', lay', pops, handed, taken⟩ := rep.handOut bound empty
    refine ⟨fun _ => ⟨some x, h', lay', (rep.get_listed request ofClass empty).trans handed,
      .pop empty pops, taken⟩, fun overrun => absurd ?_ overrun⟩
    intro pre i post _ cuts
    exact absurd cuts.empty empty

/-- A get that returns has done what a get may do. -/
theorem Rep.get_ok {A : Arena} {h h' : Heap} {lay : Layout} {dataSize : Nat} {r : Option Nat}
    (rep : Rep A h lay) (settled : lay.Settled) (request : dataSize ≤ 8 * A.len)
    (run : getSegregatedFitsBlock h dataSize = .ok (r, h')) :
    ∃ lay', Gets A (requestClass dataSize) lay r lay' ∧ Evolves A h lay h' lay' := by
  obtain ⟨served, overrun⟩ := rep.get settled request
  by_cases fits : lay.CutFits A (requestClass dataSize)
  · obtain ⟨r', h₁, lay', run', gets, evolves⟩ := served fits
    rw [run] at run'
    cases run'
    exact ⟨lay', gets, evolves⟩
  · rw [overrun fits] at run
    cases run

/-- Cutting a block hands none out. -/
theorem divide_used {a i c : Nat} {pre post : List Block} {F : Nat → List Nat} (below : c ≤ i) :
    usedBlocks a (divide a c i pre post F).blocks = usedBlocks a (pre ++ ⟨i + 3, .free⟩ :: post) := by
  obtain ⟨gone, whole, unused, length⟩ := absorb_cut (a + span Block.size pre + 8 * (c + 3)) post (i - c)
    (cutLists F c i (a + span Block.size pre))
  have none : ∀ q, usedBlocks q gone = [] := fun q => usedBlocks_unused unused
  have behind : ∀ q, usedBlocks q post = usedBlocks (q + 8 * freeRun post) (absorb (a + span Block.size pre +
      8 * (c + 3)) post (i - c) (cutLists F c i (a + span Block.size pre))).2.1 := by
    intro q
    conv_lhs => rw [whole]
    rw [usedBlocks_append, none, List.nil_append, length]
  simp only [divide, usedBlocks_append, usedBlocks_cons, reduceCtorEq, if_false, List.nil_append, Block.size_mk,
    absorb_words, behind]
  rw [show a + span Block.size pre + 8 * (c + 3) + 8 * (i - c + freeRun post) =
    a + span Block.size pre + 8 * (i + 3) + 8 * freeRun post by omega]

theorem divide_settled {a i c : Nat} {pre post : List Block} {F : Nat → List Nat}
    (settled : ∀ b ∈ pre ++ post, b.Settled) : (divide a c i pre post F).Settled := by
  obtain ⟨gone, whole, -, -⟩ := absorb_cut (a + span Block.size pre + 8 * (c + 3)) post (i - c)
    (cutLists F c i (a + span Block.size pre))
  intro b member
  simp only [divide, List.mem_append, List.mem_cons] at member
  rcases member with left | rfl | rfl | right
  · exact settled b (by simp [left])
  · exact Or.inr rfl
  · exact Or.inr rfl
  · refine settled b (List.mem_append_right _ ?_)
    rw [whole]
    exact List.mem_append_right _ right

theorem Pops.used {A : Arena} {lay lay' : Layout} {x c : Nat} (pops : Pops A c lay x lay') : ∃ p, x = p + 8 ∧
    (usedBlocks A.addr lay'.blocks).Perm ((p, c + 3) :: usedBlocks A.addr lay.blocks) := by
  obtain ⟨rfl, -⟩ := pops
  refine ⟨_, rfl, ?_⟩
  simp only [usedBlocks_append, usedBlocks_cons, if_true, reduceCtorEq, if_false, List.nil_append, Block.size_mk]
  exact List.perm_middle

/-- Behind the free run a division absorbs there is a used block or the end. -/
theorem absorb_head (q : Nat) (post : List Block) (w : Nat) (F : Nat → List Nat) :
    ∀ b ∈ (absorb q post w F).2.1.head?, b.state = .used := by
  induction post generalizing w F with
  | nil => simp [absorb]
  | cons b post ih =>
    rw [absorb]
    split
    · simpa
    · exact ih _ _

/-- Absorbing what lies behind an address leaves lists of lower addresses alone. -/
theorem absorb_keeps {c : Nat} {F : Nat → List Nat} (q : Nat) (post : List Block) (w : Nat)
    (lower : ∀ y ∈ F c, y < q + 8) : (absorb q post w F).2.2 c = F c := by
  induction post generalizing w F with
  | nil => rfl
  | cons b post ih =>
    have same : delist F b.words (q + 8 * w) c = F c := by
      have absent : q + 8 * w + 8 ∉ F c := fun member => by
        have := lower _ member
        omega
      unfold delist
      split
      · by_cases here : c = b.words - 3
        · rw [← here, Function.update_self, List.erase_of_not_mem absent]
        · rw [Function.update_of_ne here]
      · rfl
    have kept : ∀ y ∈ delist F b.words (q + 8 * w) c, y < q + 8 := by rwa [same]
    rw [absorb]
    split
    · rfl
    · rw [ih _ kept, same]

/-- After a division its class lists the front of the cut, and before that the
remainder if it is of the same class. -/
theorem divide_first {a i c : Nat} {pre post : List Block} {F : Nat → List Nat} (empty : F c = []) :
    (divide a c i pre post F).lists c =
    if i - c + freeRun post = c + 3 then [a + span Block.size pre + 8 * (c + 3) + 8, a + span Block.size pre + 8]
    else [a + span Block.size pre + 8] := by
  have front : cutLists F c i (a + span Block.size pre) c = [a + span Block.size pre + 8] := by
    simp [cutLists, empty]
  have kept := absorb_keeps (c := c) (F := cutLists F c i (a + span Block.size pre))
    (a + span Block.size pre + 8 * (c + 3)) post (i - c) (by simp [front])
  rw [front] at kept
  simp only [divide, enlist, absorb_words]
  by_cases same : i - c + freeRun post = c + 3
  · simp [same, kept]
  · rw [if_neg same]
    split
    · rw [Function.update_of_ne (by omega), kept]
    · exact kept

theorem Pops.elim {A : Arena} {lay lay' : Layout} {x c : Nat} (pops : Pops A c lay x lay') : ∃ pre post p rest,
    lay.blocks = pre ++ ⟨c + 3, .free⟩ :: post ∧ p = A.addr + span Block.size pre ∧
      lay.lists c = (p + 8) :: rest ∧ x = p + 8 ∧ lay'.blocks = pre ++ ⟨c + 3, .used⟩ :: post := by
  obtain ⟨atP, list⟩ := pops
  exact ⟨_, _, _, _, rfl, atP, list, rfl, rfl⟩

/-- What a get hands out after a cut: the remainder if it is of the class asked
for, and the front of the cut otherwise. -/
theorem Pops.cut {A : Arena} {lay' : Layout} {i x c : Nat} {pre post : List Block} {F : Nat → List Nat}
    (pops : Pops A c (divide A.addr c i pre post F) x lay') (sized : ∀ b ∈ pre ++ post, 1 ≤ b.words)
    (cuts : Cuts A c F pre i) :
    ∃ gone rest, post = gone ++ rest ∧ (∀ b ∈ gone, b.state ≠ .used) ∧ span Block.size gone = 8 * freeRun post ∧
      (∀ b ∈ rest.head?, b.state = .used) ∧
      (i - c + freeRun post ≠ c + 3 ∧ x = A.addr + span Block.size pre + 8 ∧
          lay'.blocks = pre ++ ⟨c + 3, .used⟩ :: ⟨i - c + freeRun post, .free⟩ :: rest ∨
        i - c + freeRun post = c + 3 ∧ x = A.addr + span Block.size pre + 8 * (c + 3) + 8 ∧
          lay'.blocks = (pre ++ [⟨c + 3, .free⟩]) ++ ⟨c + 3, .used⟩ :: rest) := by
  obtain ⟨lower, upper, -⟩ := firstListed_some cuts.first
  obtain ⟨pre', post', p, tail, split, atP, list, atX, after⟩ := pops.elim
  rw [divide_first cuts.empty] at list
  obtain ⟨gone, whole, unused, length⟩ := absorb_cut (A.addr + span Block.size pre + 8 * (c + 3)) post (i - c)
    (cutLists F c i (A.addr + span Block.size pre))
  have quiet := absorb_head (A.addr + span Block.size pre + 8 * (c + 3)) post (i - c)
    (cutLists F c i (A.addr + span Block.size pre))
  simp only [divide, absorb_words] at split
  generalize (absorb (A.addr + span Block.size pre + 8 * (c + 3)) post (i - c)
    (cutLists F c i (A.addr + span Block.size pre))).2.1 = rest at *
  refine ⟨gone, rest, whole, unused, length, quiet, ?_⟩
  have positive : ∀ d ∈ pre ++ ⟨c + 3, .free⟩ :: ⟨i - c + freeRun post, .free⟩ :: rest, 1 ≤ Block.size d := by
    intro d member
    have words : 1 ≤ d.words := by
      simp only [List.mem_append, List.mem_cons] at member
      rcases member with left | rfl | rfl | right
      · exact sized d (by simp [left])
      · simp only; omega
      · simp only; omega
      · exact sized d (by rw [whole]; simp [right])
    simp only [Block.size]
    omega
  by_cases same : i - c + freeRun post = c + 3
  · rw [if_pos same] at list
    obtain ⟨first, -⟩ := List.cons.inj list
    have regroup : pre ++ ⟨c + 3, .free⟩ :: ⟨i - c + freeRun post, .free⟩ :: rest =
        (pre ++ [⟨c + 3, .free⟩]) ++ ⟨i - c + freeRun post, .free⟩ :: rest := by simp
    rw [regroup] at split positive
    obtain ⟨rfl, -, rfl⟩ := split_unique positive split
      (show span Block.size (pre ++ [⟨c + 3, .free⟩]) = span Block.size pre' by simp; omega)
    exact Or.inr ⟨same, by omega, after⟩
  · rw [if_neg same] at list
    obtain ⟨first, -⟩ := List.cons.inj list
    obtain ⟨rfl, -, rfl⟩ := split_unique positive split (by omega)
    exact Or.inl ⟨same, by omega, after⟩

theorem Pops.settled {A : Arena} {lay lay' : Layout} {x c : Nat} (pops : Pops A c lay x lay')
    (settled : lay.Settled) : lay'.Settled := by
  obtain ⟨rfl, -⟩ := pops
  intro b member
  simp only [List.mem_append, List.mem_cons] at member
  rcases member with left | rfl | right
  · exact settled b (by simp [left])
  · exact Or.inl rfl
  · exact settled b (by simp [right])

/-- A get hands out one block of its class, or leaves the layout as it was. -/
theorem Gets.used {A : Arena} {lay lay' : Layout} {c : Nat} {r : Option Nat} (gets : Gets A c lay r lay') :
    (∃ p, r = some (p + 8) ∧ (usedBlocks A.addr lay'.blocks).Perm ((p, c + 3) :: usedBlocks A.addr lay.blocks)) ∨
      r = Option.none ∧ lay' = lay := by
  cases gets with
  | pop _ pops =>
    obtain ⟨p, rfl, used⟩ := pops.used
    exact Or.inl ⟨p, rfl, used⟩
  | cut cuts _ pops =>
    obtain ⟨lower, -, -⟩ := firstListed_some cuts.first
    obtain ⟨p, rfl, used⟩ := pops.used
    rw [divide_used (by omega)] at used
    exact Or.inl ⟨p, rfl, used⟩
  | none => exact Or.inr ⟨by rfl, by rfl⟩

theorem Gets.settled {A : Arena} {lay lay' : Layout} {c : Nat} {r : Option Nat} (gets : Gets A c lay r lay')
    (settled : lay.Settled) : lay'.Settled := by
  cases gets with
  | pop _ pops => exact pops.settled settled
  | cut _ _ pops =>
    refine pops.settled (divide_settled ?_)
    intro b member
    rcases List.mem_append.mp member with left | right
    · exact settled b (by simp [left])
    · exact settled b (by simp [right])
  | none => exact settled

end Fkv
