import Fkv.MemManager.Dump

namespace Fkv
open ByteMemory CWord Tiling LinkedRing Runs

/-- What a partition has left for gets: the largest blocks no get has touched, the words
of the free block behind the last of these, and those of all other free blocks. -/
structure Supply where
  whole : Nat
  tail : Nat
  parts : List Nat
  deriving DecidableEq, Repr

def leave (r : Nat) (parts : List Nat) : List Nat := if r = 0 then parts else r :: parts

/-- With `k` words taken of the block behind the whole ones, `r` are left. A rest of `k`
words too is taken in their place. -/
def Supply.cut (whole k r : Nat) (parts : List Nat) : Supply :=
  if r = k then ⟨whole, k, parts⟩ else ⟨whole, 0, leave r parts⟩

/-- Taking `k` words from the shortest block that has them, where `M` is the largest.
A whole block that is cut leaves its rest together with the block behind it. -/
def Supply.take (M k : Nat) (s : Supply) : Option Supply :=
  match ((s.tail :: s.parts).filter (k ≤ ·)).min? with
  | some w =>
    if w ∈ s.parts then some ⟨s.whole, s.tail, leave (w - k) (s.parts.erase w)⟩
    else some (.cut s.whole k (w - k) s.parts)
  | none =>
    match s.whole with
    | 0 => none
    | n + 1 => some (if k = M then ⟨n, 0, leave s.tail s.parts⟩ else .cut n k (M - k + s.tail) s.parts)

/-- Taking for one request after the other. -/
def Supply.takeAll (M : Nat) : List Nat → Supply → Option Supply
  | [], s => some s
  | dataSize :: rest, s => (s.take M (requestClass dataSize + 3)).bind (takeAll M rest)

/-- The supply of a partition just carved. -/
def Region.supply (A : Region) : Supply := ⟨A.addrSize / 8 / (A.len + 2), A.addrSize / 8 % (A.len + 2), []⟩

/-- The words of the free blocks. -/
def freeWords (blocks : List Block) : List Nat := (blocks.filter (·.state = .free)).map Block.words

/-- The supply is that of the layout, whose blocks behind the whole ones and the one
behind these are `rest`. -/
structure Supply.Backs (A : Region) (s : Supply) (lay : Layout) (rest : List Block) : Prop where
  blocks : lay.blocks = List.replicate s.whole ⟨A.len + 2, .free⟩ ++ (few s.tail ++ rest)
  quiet : ∀ b ∈ rest.head?, b.state = .used
  absent : ⟨A.len + 2, .free⟩ ∉ rest
  parts : (freeWords rest).Perm s.parts
  small : s.tail < A.len + 2
  last : 3 ≤ s.tail → (lay.lists (s.tail - 3)).getLast? =
    some (A.addr + span Block.size (List.replicate s.whole ⟨A.len + 2, .free⟩) + 8)

@[simp] theorem freeWords_append {pre post : List Block} :
    freeWords (pre ++ post) = freeWords pre ++ freeWords post := by simp [freeWords]

@[simp] theorem freeWords_used {w : Nat} {post : List Block} :
    freeWords (⟨w, .used⟩ :: post) = freeWords post := by simp [freeWords]

@[simp] theorem freeWords_free {w : Nat} {post : List Block} :
    freeWords (⟨w, .free⟩ :: post) = w :: freeWords post := by simp [freeWords]

theorem freeWords_few {v : Nat} : freeWords (few v) = leave v [] := by
  unfold few leave
  split <;> simp [freeWords]

theorem mem_freeWords {w : Nat} {rest : List Block} : w ∈ freeWords rest ↔ ⟨w, .free⟩ ∈ rest := by
  simp only [freeWords, List.mem_map, List.mem_filter, decide_eq_true_eq]
  constructor
  · rintro ⟨⟨v, state⟩, ⟨member, rfl⟩, rfl⟩
    exact member
  · exact fun member => ⟨_, ⟨member, rfl⟩, rfl⟩

theorem leave_append {r : Nat} {parts : List Nat} : leave r [] ++ parts = leave r parts := by
  unfold leave
  split <;> rfl

theorem leave_perm {r : Nat} {parts others : List Nat} (perm : others.Perm parts) :
    (leave r others).Perm (leave r parts) := by
  unfold leave
  split
  · exact perm
  · exact perm.cons r

theorem mem_few {v : Nat} {b : Block} : b ∈ few v ↔ v ≠ 0 ∧ b = ⟨v, .free⟩ := by
  unfold few
  split <;> simp [*]

theorem span_few (v : Nat) : span Block.size (few v) = 8 * v := by
  unfold few
  split <;> simp [*]

theorem erase_part {w : Nat} {parts xs ys : List Nat} (perm : (xs ++ w :: ys).Perm parts) :
    (xs ++ ys).Perm (parts.erase w) := by
  have erased := (List.perm_middle.symm.trans perm).erase w
  rwa [List.erase_cons_head] at erased

/-- The shortest fitting length. -/
theorem min_fit {k w : Nat} {lengths : List Nat} (member : w ∈ lengths) (fits : k ≤ w)
    (least : ∀ v ∈ lengths, k ≤ v → w ≤ v) :
    (lengths.filter (k ≤ ·)).min? = some w := by
  rw [List.min?_eq_some_iff]
  simp only [List.mem_filter, decide_eq_true_eq]
  exact ⟨⟨member, fits⟩, fun v fitting => least v fitting.1 fitting.2⟩

theorem no_fit {k : Nat} {lengths : List Nat} (short : ∀ v ∈ lengths, v < k) :
    (lengths.filter (k ≤ ·)).min? = none := by
  rw [List.min?_eq_none_iff, List.filter_eq_nil_iff]
  intro v member
  have below := short v member
  simp only [decide_eq_true_eq]
  omega

namespace Supply.Backs

/-- Where a free block of such a layout may be: the last whole one, the one behind it, or
among the rest. -/
theorem place {A : Arena} {lay : Layout} {w : Nat} {s : Supply} {pre post rest : List Block}
    (backs : s.Backs A lay rest) (split : lay.blocks = pre ++ ⟨w, .free⟩ :: post)
    (highest : w = A.len + 2 → ⟨A.len + 2, .free⟩ ∉ post) :
    (∃ n, w = A.len + 2 ∧ s.whole = n + 1 ∧ pre = List.replicate n ⟨A.len + 2, .free⟩ ∧
      post = few s.tail ++ rest) ∨
      (w = s.tail ∧ pre = List.replicate s.whole ⟨A.len + 2, .free⟩ ∧ post = rest) ∨
      ∃ near, rest = near ++ ⟨w, .free⟩ :: post ∧ pre = List.replicate s.whole ⟨A.len + 2, .free⟩ ++
        (few s.tail ++ near) ∧
        w ≠ A.len + 2 := by
  have whole := backs.blocks.symm.trans split
  have behind : ∀ gone, pre = List.replicate s.whole ⟨A.len + 2, .free⟩ ++ gone →
    few s.tail ++ rest = gone ++ ⟨w, .free⟩ :: post →
      (w = s.tail ∧ pre = List.replicate s.whole ⟨A.len + 2, .free⟩ ∧ post = rest) ∨
        ∃ near, rest = near ++ ⟨w, .free⟩ :: post ∧ pre = List.replicate s.whole ⟨A.len + 2, .free⟩ ++
          (few s.tail ++ near) ∧
          w ≠ A.len + 2 := by
    intro gone front same
    have other : ∀ near, rest = near ++ ⟨w, .free⟩ :: post → w ≠ A.len + 2 := by
      rintro near among rfl
      exact backs.absent (by simp [among])
    by_cases none : s.tail = 0
    · rw [none, few_zero, List.nil_append] at same
      exact Or.inr ⟨gone, same, by rw [none]; exact front, other gone same⟩
    · rw [few_pos none, List.singleton_append] at same
      cases gone with
      | nil =>
        rw [List.nil_append, List.cons.injEq, Block.mk.injEq] at same
        exact Or.inl ⟨same.1.1.symm, by simpa using front, same.2.symm⟩
      | cons b gone =>
        rw [List.cons_append, List.cons.injEq] at same
        obtain ⟨rfl, same⟩ := same
        exact Or.inr ⟨gone, same, by rw [few_pos none]; exact front, other gone same⟩
  rcases List.append_eq_append_iff.mp whole with ⟨gone, front, same⟩ | ⟨gone, front, same⟩
  · exact Or.inr (behind gone front same)
  · cases gone with
    | nil => exact Or.inr (behind [] (by simpa using front.symm) (by simpa using same.symm))
    | cons b gone =>
      rw [List.cons_append, List.cons.injEq] at same
      obtain ⟨rfl, rfl⟩ := same
      have largest : ∀ b ∈ pre ++ ⟨w, .free⟩ :: gone, b = ⟨A.len + 2, .free⟩ := by
        rw [← front]
        exact fun b member => List.eq_of_mem_replicate member
      obtain rfl : w = A.len + 2 := by simpa using largest ⟨w, .free⟩ (by simp)
      have none : gone = [] := by
        refine List.eq_nil_iff_forall_not_mem.mpr fun b member => highest rfl ?_
        rw [← largest b (by simp [member])]
        exact List.mem_append_left _ member
      subst none
      have length := congrArg List.length front
      rw [List.length_replicate, List.length_append, List.length_singleton] at length
      refine Or.inl ⟨pre.length, rfl, length, ?_, rfl⟩
      exact List.eq_replicate_of_mem fun b member => largest b (List.mem_append_left _ member)

/-- The words of the blocks behind the whole ones are those of the tail and of the parts. -/
theorem mem_short {A : Arena} {lay : Layout} {w : Nat} {s : Supply} {rest : List Block}
    (backs : s.Backs A lay rest) (some : 1 ≤ w) :
    w ∈ s.tail :: s.parts ↔ ⟨w, .free⟩ ∈ few s.tail ++ rest := by
  rw [List.mem_cons, List.mem_append, mem_few, ← mem_freeWords, backs.parts.mem_iff, Block.mk.injEq]
  constructor
  · rintro (rfl | part)
    · exact Or.inl ⟨by omega, rfl, rfl⟩
    · exact Or.inr part
  · rintro (⟨-, same, -⟩ | part)
    · exact Or.inl same
    · exact Or.inr part

/-- Such a block is in the partition, and none is as long as the whole ones. -/
theorem short {A : Arena} {h : Heap} {lay : Layout} {w : Nat} {s : Supply} {rest : List Block}
    (backs : s.Backs A lay rest) (rep : Rep A h lay) (some : 1 ≤ w) (member : w ∈ s.tail :: s.parts) :
    ⟨w, .free⟩ ∈ lay.blocks ∧ w < A.len + 2 := by
  have among := (backs.mem_short some).mp member
  have inside : ⟨w, .free⟩ ∈ lay.blocks := by
    rw [backs.blocks]
    exact List.mem_append_right _ among
  have fits : w ≤ A.len + 2 := (rep.sized _ inside).le (Or.inr rfl)
  refine ⟨inside, lt_of_le_of_ne fits ?_⟩
  rintro rfl
  rcases List.mem_append.mp among with tail | other
  · have same := (mem_few.mp tail).2
    rw [Block.mk.injEq] at same
    exact absurd backs.small (by omega)
  · exact backs.absent other

/-- Of two free blocks of the length of the one behind the whole ones, the other is
handed out first. -/
theorem alone {A : Arena} {h : Heap} {lay : Layout} {s : Supply} {rest : List Block}
    (backs : s.Backs A lay rest) (rep : Rep A h lay) (long : 3 ≤ s.tail)
    (first : (lay.lists (s.tail - 3)).head? =
      some (A.addr + span Block.size (List.replicate s.whole ⟨A.len + 2, .free⟩) + 8)) :
    s.tail ∉ s.parts := by
  have small := backs.small
  obtain ⟨i, tail⟩ : ∃ i, s.tail = i + 3 := ⟨s.tail - 3, by omega⟩
  have last := backs.last long
  rw [tail, Nat.add_sub_cancel] at first last
  have bound : i < A.len := by omega
  obtain ⟨ys, list⟩ := List.head?_eq_some_iff.mp first
  have nodup := rep.nodup bound
  have members := (rep.members i bound).length_eq
  have only : ys = [] := by
    rw [list, List.getLast?_cons, Option.some.injEq] at last
    cases final : ys.getLast? with
    | none => exact List.getLast?_eq_none_iff.mp final
    | some z =>
      rw [final, Option.getD_some] at last
      rw [list, List.nodup_cons, ← last] at nodup
      exact absurd (List.mem_of_getLast? final) nodup.1
  intro part
  have count : 2 ≤ (freeOfClass A.addr i lay.blocks).length := by
    have other := mem_freeWords.mp (backs.parts.mem_iff.mpr part)
    obtain ⟨front, behind, split⟩ := List.append_of_mem other
    rw [backs.blocks, tail, few_pos (by omega), split, tail]
    simp only [freeOfClass_append, freeOfClass_cons, and_self, if_true, List.length_append, List.length_singleton]
    omega
  rw [list, only] at members
  simp only [List.length_singleton] at members
  omega

/-- No block is shorter than the first class with a listed one, from the class asked
for on. -/
theorem least {A : Arena} {h : Heap} {lay : Layout} {c i : Nat} {s : Supply} {rest : List Block}
    (backs : s.Backs A lay rest) (rep : Rep A h lay) (unlisted : ∀ j, c ≤ j → j < i → lay.lists j = []) :
    ∀ v ∈ s.tail :: s.parts, c + 3 ≤ v → i + 3 ≤ v := by
  intro v member fits
  by_contra less
  obtain ⟨inside, small⟩ := backs.short rep (by omega) member
  obtain ⟨j, rfl⟩ : ∃ j, v = j + 3 := ⟨v - 3, by omega⟩
  exact (rep.list_empty_iff (by omega)).mp (unlisted j (by omega) (by omega)) inside

/-- No block is left behind the whole ones. -/
theorem ofRest {A : Arena} {lay' : Layout} {n : Nat} {rest : List Block} {parts : List Nat}
    (blocks : lay'.blocks = List.replicate n ⟨A.len + 2, .free⟩ ++ rest)
    (quiet : ∀ b ∈ rest.head?, b.state = .used) (absent : ⟨A.len + 2, .free⟩ ∉ rest)
    (perm : (freeWords rest).Perm parts) : Supply.Backs A ⟨n, 0, parts⟩ lay' rest :=
  ⟨blocks, quiet, absent, perm, by simp, fun long => by simp at long⟩

/-- What taking from the block behind the whole ones leaves. -/
theorem ofCut {A : Arena} {lay' : Layout} {c n r : Nat} {rest : List Block} {parts : List Nat}
    (absent : ⟨A.len + 2, .free⟩ ∉ rest) (perm : (freeWords rest).Perm parts) (less : c + 3 < A.len + 2)
    (small : r < A.len + 2)
    (either : (r ≠ c + 3 ∧ lay'.blocks = List.replicate n ⟨A.len + 2, .free⟩ ++ ⟨c + 3,
      .used⟩ :: (few r ++ rest)) ∨
      (r = c + 3 ∧ lay'.blocks = List.replicate n ⟨A.len + 2, .free⟩ ++ ⟨c + 3, .free⟩ :: ⟨c + 3, .used⟩ :: rest ∧
        lay'.lists c = [A.addr + span Block.size (List.replicate n ⟨A.len + 2, .free⟩) + 8])) :
    ∃ rest', (Supply.cut n (c + 3) r parts).Backs A lay' rest' := by
  rcases either with ⟨other, blocks⟩ | ⟨same, blocks, list⟩
  · rw [Supply.cut, if_neg other]
    refine ⟨_, ofRest blocks (by simp) ?_ ?_⟩
    · simpa using ⟨few_absent small, absent⟩
    · rw [freeWords_used, freeWords_append, freeWords_few, leave_append]
      exact leave_perm perm
  · rw [Supply.cut, if_pos same]
    refine ⟨⟨c + 3, .used⟩ :: rest, ?_, by simp, by simpa using absent, by simpa using perm, less, fun _ => ?_⟩
    · rw [blocks]
      exact congrArg _ (congrArg (· ++ _) (few_pos (Nat.succ_ne_zero _)).symm)
    · rw [Nat.add_sub_cancel, list]
      rfl

end Supply.Backs

theorem take_whole {M k n : Nat} {s : Supply} (short : ∀ v ∈ s.tail :: s.parts, v < k) (whole : s.whole = n + 1) :
    s.take M k =
    some (if k = M then ⟨n, 0, leave s.tail s.parts⟩ else .cut n k (M - k + s.tail) s.parts) := by
  rw [Supply.take, no_fit short, whole]

theorem take_tail {M k : Nat} {s : Supply} (fits : k ≤ s.tail)
    (least : ∀ v ∈ s.tail :: s.parts, k ≤ v → s.tail ≤ v) (alone : s.tail ∉ s.parts) :
    s.take M k = some (.cut s.whole k (s.tail - k) s.parts) := by
  rw [Supply.take, min_fit List.mem_cons_self fits least]
  exact if_neg alone

theorem take_part {M k w : Nat} {s : Supply} (part : w ∈ s.parts) (fits : k ≤ w)
    (least : ∀ v ∈ s.tail :: s.parts, k ≤ v → w ≤ v) :
    s.take M k = some ⟨s.whole, s.tail, leave (w - k) (s.parts.erase w)⟩ := by
  rw [Supply.take, min_fit (List.mem_cons_of_mem _ part) fits least]
  exact if_pos part

theorem take_none {M k : Nat} {s : Supply} (short : ∀ v ∈ s.tail :: s.parts, v < k) (whole : s.whole = 0) :
    s.take M k = none := by
  rw [Supply.take, no_fit short, whole]

/-- The last of a list stays the last when another one in front is taken. -/
theorem getLast_tail {xs : List Nat} {x y : Nat} (head : xs.head? = some x) (last : xs.getLast? = some y)
    (other : x ≠ y) : xs.tail.getLast? = some y := by
  obtain ⟨ys, rfl⟩ := List.head?_eq_some_iff.mp head
  rw [List.getLast?_cons, Option.some.injEq] at last
  rw [List.tail_cons]
  cases final : ys.getLast? with
  | none =>
    rw [final] at last
    exact absurd last other
  | some z =>
    rw [final, Option.getD_some] at last
    rw [last]

theorem absorb_quiet {q w : Nat} {post : List Block} {F : Nat → List Nat}
    (quiet : ∀ b ∈ post.head?, b.state = .used) : absorb q post w F = (w, post, F) := by
  cases post with
  | nil => rfl
  | cons b post => simp only [absorb, quiet b (by simp), if_true]

/-- So does it through a cut with a used block behind. -/
theorem divide_last {c i j x : Nat} {pre post : List Block} {F : Nat → List Nat} {y a : Nat}
    (quiet : ∀ b ∈ post.head?, b.state = .used) (different : j ≠ c) (head : (F i).head? = some x)
    (last : (F j).getLast? = some y) (other : x ≠ y) :
    ((divide a c i pre post F).lists j).getLast? = some y := by
  have lists : (cutLists F c i (a + span Block.size pre) j).getLast? = some y := by
    rw [cutLists, Function.update_of_ne different]
    by_cases here : j = i
    · subst here
      rw [Function.update_self]
      exact getLast_tail head last other
    · rw [Function.update_of_ne here]
      exact last
  simp only [divide, absorb_quiet quiet, enlist]
  split
  · rw [Function.update_apply]
    split
    · rename_i here
      rw [← here, List.getLast?_cons, lists, Option.getD_some]
    · exact lists
  · exact lists

theorem Pops.listed {A : Arena} {lay lay' : Layout} {c x : Nat} (pops : Pops A c lay x lay') :
    lay.lists c = x :: lay'.lists c := by
  obtain ⟨-, list⟩ := pops
  simp only [list, Function.update_self]

/-- What a cut leaves where behind the block is at most one free one. -/
theorem Pops.cut_behind {A : Arena} {lay' : Layout} {c i v x : Nat} {pre post rest : List Block}
    {F : Nat → List Nat} (pops : Pops A c (divide A.addr c i pre post F) x lay')
    (sized : ∀ b ∈ pre ++ post, 1 ≤ b.words) (cuts : Cuts A c F pre i) (split : post = few v ++ rest)
    (quiet : ∀ b ∈ rest.head?, b.state = .used) :
    (i - c + v ≠ c + 3 ∧ lay'.blocks = pre ++ ⟨c + 3, .used⟩ :: (few (i - c + v) ++ rest)) ∨
      (i - c + v = c + 3 ∧ lay'.blocks = pre ++ ⟨c + 3, .free⟩ :: ⟨c + 3, .used⟩ :: rest ∧
        lay'.lists c = [A.addr + span Block.size pre + 8]) := by
  obtain ⟨lower, -, -⟩ := firstListed_some cuts.first
  obtain ⟨gone, rest', same, unused, -, quiet', handed⟩ := pops.cut sized cuts
  obtain rfl := few_unique quiet quiet' unused (split.symm.trans same)
  have run : freeRun post = v := by rw [split, few_run quiet]
  rw [run] at handed
  rcases handed with ⟨other, -, blocks⟩ | ⟨equal, atX, blocks⟩
  · refine Or.inl ⟨other, ?_⟩
    rw [blocks, few_pos (by omega), List.singleton_append]
  · refine Or.inr ⟨equal, by rw [blocks, List.append_assoc, List.singleton_append], ?_⟩
    have list := pops.listed
    rw [divide_first cuts.empty, run, if_pos equal, List.cons.injEq] at list
    exact list.2.symm

namespace Supply.Backs

theorem all_short {A : Arena} {h : Heap} {lay : Layout} {s : Supply} {rest : List Block}
    (backs : s.Backs A lay rest) (rep : Rep A h lay) : ∀ v ∈ s.tail :: s.parts, v < A.len + 2 := by
  intro v member
  by_cases none : v = 0
  · omega
  · exact (backs.short rep (by omega) member).2

/-- A part is behind the block behind the whole ones. -/
theorem behind_tail {A : Arena} {s : Supply} {near : List Block} (long : 3 ≤ s.tail) :
    A.addr + span Block.size (List.replicate s.whole ⟨A.len + 2, .free⟩ ++ (few s.tail ++ near)) + 8 ≠
      A.addr + span Block.size (List.replicate s.whole ⟨A.len + 2, .free⟩) + 8 := by
  rw [span_append, span_append, span_few]
  omega

/-- Handing out a block of the class asked for. -/
theorem pop {A : Arena} {h : Heap} {lay lay' : Layout} {c x : Nat} {s : Supply} {rest : List Block}
    (backs : s.Backs A lay rest) (rep : Rep A h lay) (descends : lay.Descends A) (bound : c < A.len)
    (pops : Pops A c lay x lay') : ∃ s' rest', s.take (A.len + 2) (c + 3) = some s' ∧ s'.Backs A lay' rest' := by
  obtain @⟨pre, post, F, p, listed, rfl, list⟩ := pops
  have head : (F c).head? = some (A.addr + span Block.size pre + 8) := by rw [list, List.head?_cons]
  have highest : c + 3 = A.len + 2 → ⟨A.len + 2, .free⟩ ∉ post := by
    intro largest
    obtain rfl : c = A.len - 1 := by omega
    rw [← largest]
    exact Layout.Descends.highest descends head rfl
  rcases backs.place rfl highest with ⟨n, largest, whole, rfl, rfl⟩ | ⟨same, rfl, rfl⟩ | ⟨near, rfl, rfl, other⟩
  · have short := backs.all_short rep
    rw [← largest] at short
    refine ⟨_, ⟨c + 3, .used⟩ :: (few s.tail ++ rest), take_whole short whole, ?_⟩
    rw [if_pos largest]
    refine ofRest rfl (by simp) ?_ ?_
    · simpa using ⟨few_absent backs.small, backs.absent⟩
    · rw [freeWords_used, freeWords_append, freeWords_few, leave_append]
      exact leave_perm backs.parts
  · have alone := backs.alone rep (by omega) (by rw [← same, Nat.add_sub_cancel]; exact head)
    obtain ⟨rest', backs'⟩ : ∃ rest', (Supply.cut s.whole (c + 3) (s.tail - (c + 3)) s.parts).Backs A
        ⟨List.replicate s.whole ⟨A.len + 2, .free⟩ ++ ⟨c + 3, .used⟩ :: post, Function.update F c listed⟩ rest' :=
      ofCut backs.absent backs.parts (same ▸ backs.small) (by omega)
        (Or.inl ⟨by omega, by rw [← same, Nat.sub_self]; rfl⟩)
    exact ⟨_, rest', take_tail same.le (fun v _ fits => same ▸ fits) alone, backs'⟩
  · have part : c + 3 ∈ s.parts := backs.parts.mem_iff.mp (mem_freeWords.mpr (by simp))
    have perm := backs.parts
    rw [freeWords_append, freeWords_free] at perm
    refine ⟨_, near ++ ⟨c + 3, .used⟩ :: post, take_part part le_rfl fun v _ fits => fits, ?_, ?_, ?_, ?_,
      backs.small, fun long => ?_⟩
    · simp
    · intro b first
      cases near with
      | nil =>
        obtain rfl := Option.some.inj first
        rfl
      | cons d near => exact backs.quiet b first
    · have absent := backs.absent
      simp only [List.mem_append, List.mem_cons, not_or] at absent ⊢
      exact ⟨absent.1, by simp, absent.2.2⟩
    · rw [freeWords_append, freeWords_used, Nat.sub_self]
      exact erase_part perm
    · have last := backs.last long
      by_cases here : s.tail - 3 = c
      · simp only [here, list, Function.update_self] at last ⊢
        exact getLast_tail rfl last (behind_tail long)
      · simp only [Function.update_of_ne here]
        exact last

/-- Cutting one for the class asked for. -/
theorem cut {A : Arena} {h : Heap} {lay' : Layout} {c i n x : Nat} {s : Supply} {pre post rest : List Block}
    {F : Nat → List Nat} (backs : s.Backs A ⟨pre ++ ⟨i + 3, .free⟩ :: post, F⟩ rest)
    (rep : Rep A h ⟨pre ++ ⟨i + 3, .free⟩ :: post, F⟩)
    (settled : Layout.Settled ⟨pre ++ ⟨i + 3, .free⟩ :: post, F⟩)
    (fronted : Fronted (A.len + 2) n (pre ++ ⟨i + 3, .free⟩ :: post))
    (descends : Layout.Descends A ⟨pre ++ ⟨i + 3, .free⟩ :: post, F⟩) (cuts : Cuts A c F pre i)
    (pops : Pops A c (divide A.addr c i pre post F) x lay') :
    ∃ s' rest', s.take (A.len + 2) (c + 3) = some s' ∧ s'.Backs A lay' rest' := by
  obtain ⟨lower, upper, -⟩ := firstListed_some cuts.first
  have least := backs.least rep (c := c) (i := i) fun j above below => by
    rcases Nat.eq_or_lt_of_le above with rfl | after
    · exact cuts.empty
    · exact firstListed_first cuts.first (by omega) below
  have sized : ∀ b ∈ pre ++ post, 1 ≤ b.words := fun b member => by
    have inside : b ∈ pre ++ ⟨i + 3, .free⟩ :: post := by
      simp only [List.mem_append, List.mem_cons] at member ⊢
      tauto
    exact rep.pos b inside (by rcases settled b inside with used | free <;> simp [*])
  have short := backs.all_short rep
  have highest : i + 3 = A.len + 2 → ⟨A.len + 2, .free⟩ ∉ post := by
    intro largest
    obtain rfl : i = A.len - 1 := by omega
    rw [← largest]
    exact Layout.Descends.highest descends cuts.head rfl
  obtain ⟨v, site_rest, behind, site, -⟩ := listed_site rep settled fronted descends (by omega) cuts.head
  rcases backs.place rfl highest with ⟨m, largest, whole, rfl, rfl⟩ | ⟨same, rfl, rfl⟩ | ⟨near, rfl, rfl, other⟩
  · have none : ∀ v ∈ s.tail :: s.parts, v < c + 3 := by
      intro v member
      by_contra fits
      have long := least v member (by omega)
      have less := short v member
      omega
    have few := none s.tail List.mem_cons_self
    have rest_words : A.len + 2 - (c + 3) + s.tail = i - c + s.tail := by omega
    obtain ⟨rest', backs'⟩ := ofCut (c := c) (n := m) (r := i - c + s.tail) backs.absent backs.parts (by omega)
      (by omega) (pops.cut_behind sized cuts rfl backs.quiet)
    refine ⟨_, rest', take_whole none whole, ?_⟩
    rw [if_neg (by omega), rest_words]
    exact backs'
  · have alone := backs.alone rep (by omega) (by rw [← same, Nat.add_sub_cancel]; exact cuts.head)
    have rest_words : s.tail - (c + 3) = i - c + 0 := by omega
    obtain ⟨rest', backs'⟩ := ofCut (c := c) (n := s.whole) (r := i - c + 0) backs.absent backs.parts (by omega)
      (by omega) (pops.cut_behind sized cuts rfl backs.quiet)
    refine ⟨_, rest', take_tail (by omega) (same ▸ least) alone, ?_⟩
    rw [rest_words]
    exact backs'
  · have part : i + 3 ∈ s.parts := backs.parts.mem_iff.mp (mem_freeWords.mpr (by simp))
    obtain rfl : v = 0 := site.behind.resolve_right fun largest => other largest.1
    have absent := backs.absent
    simp only [List.mem_append, List.mem_cons, not_or] at absent
    have perm := backs.parts
    rw [freeWords_append, freeWords_free] at perm
    have last : 3 ≤ s.tail → (lay'.lists (s.tail - 3)).getLast? =
        some (A.addr + span Block.size (List.replicate s.whole ⟨A.len + 2, .free⟩) + 8) := by
      intro long
      have last := backs.last long
      have different : s.tail - 3 ≠ c := by
        intro here
        simp only [here, cuts.empty, List.getLast?_nil, reduceCtorEq] at last
      rw [pops.lists different]
      rw [few_zero, List.nil_append] at behind
      exact divide_last (behind ▸ site.quiet) different cuts.head last (behind_tail long)
    have taken : s.take (A.len + 2) (c + 3) =
      some ⟨s.whole, s.tail, leave (i + 3 - (c + 3)) (s.parts.erase (i + 3))⟩ :=
      take_part part (by omega) least
    have made : ∀ more, lay'.blocks = List.replicate s.whole ⟨A.len + 2, .free⟩ ++ (few s.tail ++ near) ++ more →
        ⟨A.len + 2, .free⟩ ∉ more → freeWords more = (i - c) :: freeWords post →
        Supply.Backs A ⟨s.whole, s.tail, leave (i + 3 - (c + 3)) (s.parts.erase (i + 3))⟩ lay' (near ++ more) := by
      intro more blocks absent' words
      refine ⟨by simpa using blocks, ?_, by simpa using ⟨absent.1, absent'⟩, ?_, backs.small, last⟩
      · cases near with
        | nil => exact absurd (backs.quiet _ rfl) (by simp)
        | cons d near => exact backs.quiet
      · rw [freeWords_append, words, show i + 3 - (c + 3) = i - c by omega, leave, if_neg (by omega)]
        exact List.perm_middle.trans ((erase_part perm).cons _)
    rcases pops.cut_behind sized cuts behind site.quiet with ⟨-, blocks⟩ | ⟨same, blocks, -⟩
    · rw [Nat.add_zero (i - c), few_pos (v := i - c) (by omega), List.singleton_append] at blocks
      rw [few_zero, List.nil_append] at behind
      rw [← behind] at blocks
      exact ⟨_, _, taken, made _ blocks (by simpa using ⟨by omega, absent.2.2⟩) (by simp)⟩
    · rw [few_zero, List.nil_append] at behind
      rw [← behind] at blocks
      exact ⟨_, _, taken, made _ blocks (by simpa using ⟨by omega, absent.2.2⟩) (by simp; omega)⟩

/-- A get takes from the supply, and refuses where that has nothing left. -/
theorem gets {A : Arena} {lay : Layout} {dataSize : Nat} {s : Supply} {t : Client} {rest : List Block}
    (backs : s.Backs A lay rest) (ordered : Stacks A t lay) (request : dataSize ≤ 8 * A.len) :
    (getSegregatedFitsBlock t.heap dataSize = .ok (none, t.heap) ∧
      s.take (A.len + 2) (requestClass dataSize + 3) = none) ∨
      ∃ x h s' lay' rest', getSegregatedFitsBlock t.heap dataSize = .ok (some x, h) ∧
        s.take (A.len + 2) (requestClass dataSize + 3) = some s' ∧ Stacks A ⟨h, (x, dataSize) :: t.live⟩ lay' ∧
        s'.Backs A lay' rest' := by
  have serves := ordered.serves
  have bound := (getSegregatedFitsBlock_eq serves.rep.shape request rfl).1
  obtain ⟨n, -, fronted⟩ := ordered.piled.fronted
  obtain ⟨r, h', lay', got, gets, -⟩ :=
    (serves.rep.get serves.settled request).1 (fronted.cutFits serves.rep serves.settled ordered.descends)
  cases r with
  | none =>
    have unavailable := (gets.none_iff serves.rep bound).mp rfl
    obtain rfl : h' = t.heap := by
      cases gets with
      | none empty first =>
        have nothing := serves.rep.get_none request rfl empty first
        exact (Prod.mk.inj (Except.ok.inj (got.symm.trans nothing))).2
    refine Or.inl ⟨got, take_none (fun v member => ?_) ?_⟩
    · by_contra fits
      exact unavailable ⟨_, (backs.short serves.rep (show 1 ≤ v by omega) member).1, rfl, by simp only; omega⟩
    · by_contra whole
      obtain ⟨m, whole⟩ := Nat.exists_eq_succ_of_ne_zero whole
      refine unavailable ⟨⟨A.len + 2, .free⟩, ?_, rfl, by simp only; omega⟩
      rw [backs.blocks, whole, List.replicate_succ]
      simp
  | some x =>
    obtain ⟨lay', gets, ordered'⟩ := ordered.got request got
    refine Or.inr ⟨x, h', ?_⟩
    cases gets with
    | pop _ pops =>
      obtain ⟨s', rest', taken, backs'⟩ := backs.pop serves.rep ordered.descends bound pops
      exact ⟨s', lay', rest', got, taken, ordered', backs'⟩
    | cut cuts _ pops =>
      obtain ⟨s', rest', taken, backs'⟩ := backs.cut serves.rep serves.settled fronted ordered.descends cuts pops
      exact ⟨s', lay', rest', got, taken, ordered', backs'⟩

/-- The supply of a partition just carved is that of its layout. -/
theorem fresh {A : Arena} {h : Heap} (rep : Rep A h A.fresh) : A.supply.Backs A A.fresh [] := by
  have blocks := carved_blocks A.addr [] (fun _ => []) (show 1 ≤ A.len + 2 by omega) (le_refl (A.addrSize / 8))
  have small := Nat.mod_lt (A.addrSize / 8) (show 0 < A.len + 2 by omega)
  rw [List.nil_append] at blocks
  refine ⟨by rw [List.append_nil]; exact blocks, by simp, by simp, by simp [freeWords, Region.supply], small,
    fun long => ?_⟩
  simp only [Region.supply] at long ⊢
  generalize A.addrSize / 8 % (A.len + 2) = v at *
  obtain ⟨i, rfl⟩ : ∃ i, v = i + 3 := ⟨v - 3, by omega⟩
  have members := rep.members i (by omega)
  have other : ⟨i + 3, .free⟩ ∉ List.replicate (A.addrSize / 8 / (A.len + 2)) (⟨A.len + 2, .free⟩ : Block) := by
    intro member
    have same := List.eq_of_mem_replicate member
    rw [Block.mk.injEq] at same
    omega
  have alone : freeOfClass A.addr i A.fresh.blocks =
      [A.addr + span Block.size (List.replicate (A.addrSize / 8 / (A.len + 2)) ⟨A.len + 2, .free⟩) + 8] := by
    rw [Region.fresh, blocks, if_neg (by omega), freeOfClass_append, freeOfClass_absent other]
    simp
  rw [alone, List.perm_singleton] at members
  rw [Nat.add_sub_cancel, members]
  rfl

end Supply.Backs

end Fkv
