import Fkv.MemManager.Capacity
import Fkv.MemManager.Coalesced

namespace Fkv
open ByteMemory CWord Tiling LinkedRing Runs

/-- No block, or one free block. -/
def few (v : Nat) : List Block := if v = 0 then [] else [⟨v, .free⟩]

/-- `n` free blocks of the largest class, and then none and no two free neighbours. -/
def Fronted (M n : Nat) (blocks : List Block) : Prop :=
  ∃ rest, blocks = List.replicate n ⟨M, .free⟩ ++ rest ∧ ⟨M, .free⟩ ∉ rest ∧ Coalesced M rest

/-- The surroundings of a free block in such a layout: a used block or one of the
largest class in front, and behind it a used block, with one smaller free block
in between only if it is itself of the largest class. -/
structure Site (M : Nat) (pre : List Block) (w v : Nat) (rest : List Block) : Prop where
  front : ∀ b ∈ pre.getLast?, b.state = .used ∨ b = ⟨M, .free⟩
  positive : 1 ≤ w
  fits : w ≤ M
  behind : v = 0 ∨ w = M ∧ v < M
  quiet : ∀ b ∈ rest.head?, b.state = .used
  last : ⟨M, .free⟩ ∉ rest

/-- What a get makes of such a layout: it takes a free block whole, or the front of
one, or the back if both parts are of one class. The address is that of the block
taken. -/
inductive Takes (M a : Nat) : List Block → Nat → List Block → Prop
  | whole {pre w v rest} : Site M pre w v rest →
      Takes M a (pre ++ ⟨w, .free⟩ :: (few v ++ rest)) (a + span Block.size pre)
        (pre ++ ⟨w, .used⟩ :: (few v ++ rest))
  | front {pre w v rest k} : Site M pre w v rest → k < w → v < k →
      Takes M a (pre ++ ⟨w, .free⟩ :: (few v ++ rest)) (a + span Block.size pre)
        (pre ++ ⟨k, .used⟩ :: ⟨w - k + v, .free⟩ :: rest)
  | back {pre w v rest k} : Site M pre w v rest → k < w → v < k → w - k + v = k →
      Takes M a (pre ++ ⟨w, .free⟩ :: (few v ++ rest)) (a + span Block.size pre + 8 * k)
        (pre ++ ⟨k, .free⟩ :: ⟨k, .used⟩ :: rest)

theorem few_zero : few 0 = [] := rfl

theorem few_pos {v : Nat} (positive : v ≠ 0) : few v = [⟨v, .free⟩] := if_neg positive

theorem delist_other {K p w : Nat} {F : Nat → List Nat} (other : w ≠ K + 3) : delist F w p K = F K := by
  unfold delist
  split
  · exact Function.update_of_ne (by omega) _ _
  · rfl

theorem enlist_other {K p w : Nat} {F : Nat → List Nat} (other : w ≠ K + 3) : enlist F w p K = F K := by
  unfold enlist
  split
  · exact Function.update_of_ne (by omega) _ _
  · rfl

theorem enlist_self {K p : Nat} {F : Nat → List Nat} : enlist F (K + 3) p K = (p + 8) :: F K := by simp [enlist]

/-- Taking the first block off its list and putting it back changes nothing. -/
theorem enlist_delist {K p : Nat} {F : Nat → List Nat} {rest : List Nat} (list : F K = (p + 8) :: rest) :
    enlist (delist F (K + 3) p) (K + 3) p = F := by
  simp only [enlist, delist, show 3 ≤ K + 3 by omega, if_true, Nat.add_sub_cancel, Function.update_self,
    Function.update_idem, list, List.erase_cons_head]
  rw [← list, Function.update_eq_self]

/-- Blocks below the largest class do not show in its list. -/
theorem freeOfClass_absent {K a : Nat} {tail : List Block} (absent : ⟨K + 3, .free⟩ ∉ tail) :
    freeOfClass a K tail = [] := by
  refine List.eq_nil_iff_forall_not_mem.mpr fun x member => ?_
  obtain ⟨p, placed, -⟩ := mem_freeOfClass.mp member
  exact absent (mem_of_place placed)

theorem freeOfClass_front {K a : Nat} {pre tail : List Block} (absent : ⟨K + 3, .free⟩ ∉ tail) :
    freeOfClass a K (pre ++ tail) = freeOfClass a K pre := by
  rw [freeOfClass_append, freeOfClass_absent absent, List.append_nil]

theorem few_absent {M v : Nat} (small : v < M) : (⟨M, .free⟩ : Block) ∉ few v := by
  unfold few
  split
  · simp
  · simpa using small.ne'

theorem Site.behind_absent {M v w : Nat} {pre rest : List Block} (site : Site M pre w v rest) :
    (⟨M, .free⟩ : Block) ∉ few v ++ rest := by
  rw [List.mem_append, not_or]
  refine ⟨few_absent ?_, site.last⟩
  have positive := site.positive
  have fits := site.fits
  rcases site.behind with none | ⟨-, small⟩
  · omega
  · exact small

/-- Where the freed block has a used block or one of the largest class in front, the
first loop changes nothing. -/
theorem mergeLeft_quiet {K a w : Nat} {before after : List Block} {F : Nat → List Nat}
    (front : ∀ b ∈ before.head?, b.state = .used ∨ b = ⟨K + 3, .free⟩) (positive : 1 ≤ w)
    (descends : F K = (freeOfClass a K before.reverse).reverse) :
    mergeLeft (K + 3) a after before w F = ⟨before, w, after, F⟩ := by
  cases before with
  | nil => rfl
  | cons b before =>
    rcases front b (by simp) with used | rfl
    · simp only [mergeLeft, used, if_true]
    · simp only [List.reverse_cons, freeOfClass_append, freeOfClass_cons, freeOfClass_nil, and_self, if_true,
        span_reverse, List.append_nil, List.reverse_append] at descends
      simp only [mergeLeft, reduceCtorEq, if_false, show K + 3 < K + 3 + w by omega, if_true,
        Nat.add_sub_cancel_left, enlist_delist descends]

/-- Where a used block is behind, neither does the second. -/
theorem mergeRight_quiet {M a w : Nat} {before rest : List Block} {F : Nat → List Nat}
    (quiet : ∀ b ∈ rest.head?, b.state = .used) :
    mergeRight M a before rest w F = ⟨before, w, rest, F⟩ := by
  cases rest with
  | nil => rfl
  | cons b rest => simp only [mergeRight, quiet b (by simp), if_true]

/-- What the loops of a free come to when a site is whole again: one block in hand,
or the largest class given back and the smaller block behind it in hand. -/
def Site.Regained (K a : Nat) (pre : List Block) (w v : Nat) (rest : List Block) (F : Nat → List Nat)
    (f : Focus) : Prop :=
  ∃ F', (v = 0 ∧ f = ⟨pre.reverse, w, rest, F'⟩ ∧ F' K = F K) ∨
    (v ≠ 0 ∧ w = K + 3 ∧ f = ⟨⟨K + 3, .free⟩ :: pre.reverse, v, rest, F'⟩ ∧
      F' K = (a + span Block.size pre + 8) :: F K)

theorem Site.Regained.one {K a v w : Nat} {pre rest : List Block} {F : Nat → List Nat} {u : Nat}
    {F' : Nat → List Nat} (none : v = 0) (words : u = w) (list : F' K = F K) :
    Site.Regained K a pre w v rest F ⟨pre.reverse, u, rest, F'⟩ :=
  ⟨F', Or.inl ⟨none, by rw [words], list⟩⟩

theorem Site.Regained.two {K a v w : Nat} {pre rest : List Block} {F : Nat → List Nat} {u : Nat}
    {F' : Nat → List Nat} (some : v ≠ 0) (largest : w = K + 3) (words : u = v)
    (list : F' K = (a + span Block.size pre + 8) :: F K) :
    Site.Regained K a pre w v rest F ⟨⟨K + 3, .free⟩ :: pre.reverse, u, rest, F'⟩ :=
  ⟨F', Or.inr ⟨some, largest, by rw [words], list⟩⟩

/-- The largest blocks before a site, and the site if it is one of them. -/
theorem Site.listed {K a v w : Nat} {pre rest : List Block} (site : Site (K + 3) pre w v rest) :
    freeOfClass a K (pre ++ ⟨w, .free⟩ :: (few v ++ rest)) =
    freeOfClass a K pre ++ if w = K + 3 then [a + span Block.size pre + 8] else [] := by
  rw [freeOfClass_append, freeOfClass_cons, freeOfClass_absent site.behind_absent, List.append_nil]
  simp only [true_and]

theorem Site.release {K a v w : Nat} {pre rest : List Block} {F : Nat → List Nat} {f : Focus}
    (site : Site (K + 3) pre w v rest) (descends : F K = (freeOfClass a K pre).reverse)
    (regained : Site.Regained K a pre w v rest F (coalesce (K + 3) a f)) :
    (release (K + 3) a f).blocks = pre ++ ⟨w, .free⟩ :: (few v ++ rest) ∧
      (release (K + 3) a f).lists K = (freeOfClass a K (pre ++ ⟨w, .free⟩ :: (few v ++ rest))).reverse := by
  rw [site.listed]
  obtain ⟨F', ⟨rfl, whole, list⟩ | ⟨some, rfl, whole, list⟩⟩ := regained
  · simp only [Fkv.release, whole, few_zero, List.nil_append, List.reverse_reverse, Focus.head, span_reverse,
      true_and]
    rw [List.reverse_append, ← descends, ← list]
    by_cases largest : w = K + 3
    · subst largest
      rw [enlist_self]
      simp
    · rw [enlist_other largest]
      simp [largest]
  · have small : v < K + 3 := by
      rcases site.behind with none | ⟨-, small⟩
      · exact absurd none some
      · exact small
    simp only [Fkv.release, whole, few_pos some, List.reverse_cons, List.reverse_reverse, Focus.head, span_cons,
      span_reverse]
    refine ⟨by simp, ?_⟩
    rw [enlist_other small.ne, list, descends]
    simp

/-- A free undoes what the get before it made of the blocks. -/
theorem Takes.undone {K a p : Nat} {blocks blocks' : List Block} {F : Nat → List Nat}
    (takes : Takes (K + 3) a blocks p blocks') (descends : F K = (freeOfClass a K blocks').reverse) :
    ∃ f : Focus, f.layout .used = ⟨blocks', F⟩ ∧ f.head a = p ∧ (release (K + 3) a f).blocks = blocks ∧
      (release (K + 3) a f).lists K = (freeOfClass a K blocks).reverse := by
  have quietly : ∀ {pre w v rest} (_ : Site (K + 3) pre w v rest) (k : Nat) (after : List Block)
      (F : Nat → List Nat),
      F K = (freeOfClass a K pre).reverse → 1 ≤ k →
      mergeLeft (K + 3) a after pre.reverse k F = ⟨pre.reverse, k, after, F⟩ := by
    intro pre w v rest site k after F list positive
    refine mergeLeft_quiet ?_ positive (by rwa [List.reverse_reverse])
    rw [List.head?_reverse]
    exact site.front
  cases takes with
  | @whole pre w v rest site =>
    have list : F K = (freeOfClass a K pre).reverse := by
      rw [descends, freeOfClass_front]
      simpa using site.behind_absent
    refine ⟨⟨pre.reverse, w, few v ++ rest, F⟩, by simp [Focus.layout], by simp [Focus.head], ?_⟩
    refine site.release list ?_
    simp only [coalesce, quietly site w _ F list site.positive]
    by_cases none : v = 0
    · subst none
      rw [few_zero, List.nil_append, mergeRight_quiet site.quiet]
      exact .one rfl rfl rfl
    · obtain ⟨rfl, small⟩ := site.behind.resolve_left none
      rw [few_pos none, List.singleton_append, mergeRight, if_neg (by simp), if_pos (by simp only; omega)]
      refine .two none rfl (Nat.add_sub_cancel_left _ _) ?_
      rw [enlist_self, delist_other small.ne, span_reverse]
  | @front pre w v rest k site part less =>
    have fits := site.fits
    have small : w - k + v ≠ K + 3 := by
      rcases site.behind with none | ⟨largest, -⟩ <;> omega
    have list : F K = (freeOfClass a K pre).reverse := by
      rw [descends, freeOfClass_front]
      simpa using ⟨small.symm, site.last⟩
    refine ⟨⟨pre.reverse, k, ⟨w - k + v, .free⟩ :: rest, F⟩, by simp [Focus.layout], by simp [Focus.head], ?_⟩
    refine site.release list ?_
    simp only [coalesce, quietly site k _ F list (by omega)]
    rw [mergeRight, if_neg (by simp)]
    by_cases none : v = 0
    · subst none
      rw [if_neg (by simp only; omega), mergeRight_quiet site.quiet]
      exact .one rfl (by simp only; omega) (delist_other small)
    · obtain ⟨rfl, -⟩ := site.behind.resolve_left none
      rw [if_pos (by simp only; omega)]
      refine .two none rfl (by simp only; omega) ?_
      rw [enlist_self, delist_other small, span_reverse]
  | @back pre w v rest k site part less same =>
    have fits := site.fits
    have list : F K = (freeOfClass a K pre).reverse := by
      rw [descends, freeOfClass_front]
      simpa using ⟨by omega, site.last⟩
    refine ⟨⟨⟨k, .free⟩ :: pre.reverse, k, rest, F⟩, by simp [Focus.layout], by simp [Focus.head]; omega, ?_⟩
    refine site.release list ?_
    simp only [coalesce]
    rw [mergeLeft, if_neg (by simp)]
    by_cases none : v = 0
    · subst none
      have kept : delist F k (a + span Block.size pre.reverse) K = F K := delist_other (by omega)
      rw [if_neg (by simp only; omega), quietly site _ _ _ (kept.trans list) (by omega)]
      simp only [mergeRight_quiet site.quiet]
      exact .one rfl (by omega) kept
    · obtain ⟨rfl, -⟩ := site.behind.resolve_left none
      rw [if_pos (by simp only; omega)]
      simp only [mergeRight_quiet site.quiet]
      refine .two none rfl (by omega) ?_
      rw [enlist_self, delist_other (by omega), span_reverse]

/-- Such a layout around a free block that none of the largest class is behind, if it
is of that class itself. -/
theorem Fronted.split {M n w : Nat} {pre post : List Block} (fronted : Fronted M n (pre ++ ⟨w, .free⟩ :: post))
    (highest : w = M → ⟨M, .free⟩ ∉ post) :
    ∃ m near, pre = List.replicate m ⟨M, .free⟩ ++ near ∧ n ≤ m + 1 ∧ (w = M → near = []) ∧ ⟨M, .free⟩ ∉ near ∧
      ⟨M, .free⟩ ∉ post ∧ Coalesced M (near ++ ⟨w, .free⟩ :: post) := by
  obtain ⟨rest, whole, absent, coalesced⟩ := fronted
  have inside : ∀ near, pre = List.replicate n ⟨M, .free⟩ ++ near → rest = near ++ ⟨w, .free⟩ :: post →
      ∃ m near, pre = List.replicate m ⟨M, .free⟩ ++ near ∧ n ≤ m + 1 ∧ (w = M → near = []) ∧ ⟨M, .free⟩ ∉ near ∧
        ⟨M, .free⟩ ∉ post ∧ Coalesced M (near ++ ⟨w, .free⟩ :: post) := by
    rintro near split rfl
    simp only [List.mem_append, List.mem_cons, Block.mk.injEq, and_true, not_or] at absent
    exact ⟨n, near, split, by omega, fun largest => absurd largest.symm absent.2.1, absent.1, absent.2.2,
      coalesced⟩
  rcases List.append_eq_append_iff.mp whole with ⟨gone, front, behind⟩ | ⟨near, front, behind⟩
  · cases gone with
    | nil => exact inside [] (by simpa using front.symm) (by simpa using behind.symm)
    | cons b gone =>
      have largest : ∀ c ∈ pre ++ b :: gone, c = ⟨M, .free⟩ := by
        rw [← front]
        exact fun c member => List.eq_of_mem_replicate member
      rw [List.cons_append, List.cons.injEq] at behind
      obtain ⟨rfl, rfl⟩ := behind
      obtain rfl : w = M := by simpa using largest ⟨w, .free⟩ (by simp)
      have none : gone = [] := by
        refine List.eq_nil_iff_forall_not_mem.mpr fun c member => highest rfl ?_
        rw [← largest c (by simp [member])]
        exact List.mem_append_left _ member
      subst none
      have length := congrArg List.length front
      simp only [List.length_replicate, List.length_append, List.length_cons, List.length_nil] at length
      refine ⟨pre.length, [], ?_, by omega, fun _ => rfl, by simp, absent, ?_⟩
      · rw [List.append_nil]
        exact List.eq_replicate_of_mem fun c member => largest c (List.mem_append_left _ member)
      · refine List.isChain_cons.mpr ⟨fun c _ both => ?_, coalesced⟩
        exact absurd both.1 (by simp [Block.small_free])
  · exact inside near front behind

/-- The site of a block in such a layout. -/
theorem Fronted.site {M n w : Nat} {pre post : List Block} (fronted : Fronted M n (pre ++ ⟨w, .free⟩ :: post))
    (highest : w = M → ⟨M, .free⟩ ∉ post) (settled : ∀ b ∈ pre ++ post, b.Settled ∧ 1 ≤ b.words ∧ b.words ≤ M)
    (positive : 1 ≤ w) (fits : w ≤ M) :
    ∃ v rest, post = few v ++ rest ∧ Site M pre w v rest ∧ (v ≠ 0 → ⟨v, .free⟩ ∈ post) := by
  obtain ⟨m, near, rfl, -, alone, absent, absent', coalesced⟩ := fronted.split highest
  have used : ∀ b ∈ (List.replicate m ⟨M, .free⟩ ++ near) ++ post, ¬ b.Small M → b ≠ ⟨M, .free⟩ →
    b.state = .used := by
    intro b member large other
    by_contra free
    exact other (Block.large (settled b member).1 (settled b member).2.2 large free)
  have around := (Coalesced.around_pre _ _ _).mp coalesced
  have front : ∀ b ∈ (List.replicate m (⟨M, .free⟩ : Block) ++ near).getLast?,
      b.state = .used ∨ b = ⟨M, .free⟩ := by
    intro b last
    rw [List.getLast?_append] at last
    cases tail : near.getLast? with
    | none =>
      rw [tail, Option.none_or] at last
      exact Or.inr (List.eq_of_mem_replicate (List.mem_of_getLast? last))
    | some c =>
      rw [tail, Option.some_or, Option.mem_some_iff] at last
      subst last
      have member := List.mem_of_getLast? tail
      have small : (⟨w, .free⟩ : Block).Small M := by
        rw [Block.small_free]
        have other : w ≠ M := fun largest => by simp [alone largest] at member
        omega
      exact Or.inl (used c (by simp [member]) ((around.2.2 small).1 c tail) fun same => absent (same ▸ member))
  cases post with
  | nil => exact ⟨0, [], rfl, ⟨front, positive, fits, Or.inl rfl, by simp, by simp⟩, fun some => absurd rfl some⟩
  | cons b post =>
    by_cases taken : b.state = .used
    · exact ⟨0, b :: post, rfl, ⟨front, positive, fits, Or.inl rfl, by simpa using taken, absent'⟩,
        fun some => absurd rfl some⟩
    · obtain ⟨v, s⟩ := b
      obtain ⟨settledB, someB, fitsB⟩ := settled ⟨v, s⟩ (by simp)
      simp only at someB fitsB
      obtain rfl : s = .free := settledB.resolve_left taken
      have small : v < M := by
        have other : v ≠ M := fun largest => absent' (by simp [largest])
        omega
      have largest : w = M := by
        by_contra other
        exact (around.2.2 (Block.small_free.mpr (by omega))).2 _ rfl (Block.small_free.mpr small)
      have behind := (List.isChain_cons.mp around.2.1).1
      rw [List.mem_cons, not_or] at absent'
      refine ⟨v, post, by rw [few_pos (by omega), List.singleton_append],
        ⟨front, positive, fits, Or.inr ⟨largest, small⟩, ?_, absent'.2⟩, fun _ => by simp⟩
      intro c head
      refine used c ?_ (fun small' => behind c head ⟨Block.small_free.mpr small, small'⟩) fun same => ?_
      · have member := List.mem_of_head? head
        simp [member]
      · exact absent'.2 (same ▸ List.mem_of_head? head)

theorem few_run {v : Nat} {rest : List Block} (quiet : ∀ b ∈ rest.head?, b.state = .used) :
    freeRun (few v ++ rest) = v := by
  have none : freeRun rest = 0 := by
    cases rest with
    | nil => rfl
    | cons b rest => simp only [freeRun, quiet b (by simp), if_true]
  unfold few
  split
  · rename_i zero
    rw [List.nil_append, none, zero]
  · simp only [List.singleton_append, freeRun, reduceCtorEq, if_false, none, Nat.add_zero]

/-- The free run behind a site is determined. -/
theorem few_unique {v : Nat} {rest gone behind : List Block}
    (quiet : ∀ b ∈ rest.head?, b.state = .used) (quiet' : ∀ b ∈ behind.head?, b.state = .used)
    (unused : ∀ b ∈ gone, b.state ≠ .used) (same : few v ++ rest = gone ++ behind) : rest = behind := by
  have start : ∀ {gone rest : List Block}, (∀ b ∈ rest.head?, b.state = .used) → (∀ b ∈ gone, b.state ≠ .used) →
      rest = gone ++ behind → rest = behind := by
    intro gone rest quiet unused same
    cases gone with
    | nil => exact same
    | cons b gone => exact absurd (quiet b (by simp [same])) (unused b (by simp))
  by_cases none : v = 0
  · subst none
    exact start quiet unused same
  · rw [few_pos none, List.singleton_append] at same
    cases gone with
    | nil =>
      have used := quiet' ⟨v, .free⟩ (by rw [List.nil_append] at same; simp [← same])
      cases used
    | cons b gone =>
      rw [List.cons_append, List.cons.injEq] at same
      exact start quiet (fun c member => unused c (by simp [member])) same.2

end Fkv
