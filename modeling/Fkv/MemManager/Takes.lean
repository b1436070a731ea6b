import Fkv.MemManager.Fronted

namespace Fkv
open ByteMemory CWord Tiling LinkedRing Runs

/-- The list of the largest class runs from the highest block down. -/
def Layout.Descends (A : Region) (lay : Layout) : Prop :=
  lay.lists (A.len - 1) = (freeOfClass A.addr (A.len - 1) lay.blocks).reverse

/-- The highest of the largest blocks has none behind it. -/
theorem Layout.Descends.highest {K a w : Nat} {pre post : List Block} {F : Nat → List Nat}
    (descends : F K = (freeOfClass a K (pre ++ ⟨w, .free⟩ :: post)).reverse)
    (head : (F K).head? = some (a + span Block.size pre + 8)) (largest : w = K + 3) : ⟨w, .free⟩ ∉ post := by
  subst largest
  intro member
  obtain ⟨q, placed⟩ := exists_place Block.size (a + span Block.size pre + 8 * (K + 3)) member
  have listed : q + 8 ∈ freeOfClass (a + span Block.size pre + 8 * (K + 3)) K post :=
    mem_freeOfClass.mpr ⟨q, placed, rfl⟩
  rw [descends, List.head?_reverse, freeOfClass_append, freeOfClass_cons, List.getLast?_append,
    List.getLast?_append] at head
  cases last : (freeOfClass (a + span Block.size pre + 8 * (K + 3)) K post).getLast? with
  | none => simp [List.getLast?_eq_none_iff.mp last] at listed
  | some y =>
    rw [Block.size_mk, last, Option.some_or, Option.some_or, Option.some.injEq] at head
    have bounds := freeOfClass_bounds (List.mem_of_getLast? last)
    omega

/-- The classes before the first one with a listed block have none. -/
theorem firstListed_first {i k n : Nat} {F : Nat → List Nat} (first : firstListed F i n = some k) {j : Nat}
    (lower : i ≤ j) (upper : j < k) : F j = [] := by
  induction n generalizing i with
  | zero => cases first
  | succ n ih =>
    rw [firstListed] at first
    split at first
    · rename_i empty
      rcases Nat.eq_or_lt_of_le lower with rfl | above
      · exact empty
      · exact ih first above
    · cases first
      omega

/-- The first block of a list of such a layout has a site. -/
theorem listed_site {A : Arena} {h : Heap} {i n : Nat} {pre post : List Block} {F : Nat → List Nat}
    (rep : Rep A h ⟨pre ++ ⟨i + 3, .free⟩ :: post, F⟩)
    (settled : Layout.Settled ⟨pre ++ ⟨i + 3, .free⟩ :: post, F⟩)
    (fronted : Fronted (A.len + 2) n (pre ++ ⟨i + 3, .free⟩ :: post))
    (descends : Layout.Descends A ⟨pre ++ ⟨i + 3, .free⟩ :: post, F⟩) (bound : i < A.len)
    (head : (F i).head? = some (A.addr + span Block.size pre + 8)) :
    ∃ v rest, post = few v ++ rest ∧ Site (A.len + 2) pre (i + 3) v rest ∧ (v ≠ 0 → ⟨v, .free⟩ ∈ post) := by
  refine fronted.site (fun largest => ?_) (fun b member => ?_) (by omega) (by omega)
  · rw [← largest]
    obtain rfl : i = A.len - 1 := by omega
    exact Layout.Descends.highest descends head rfl
  · have inside : b ∈ pre ++ ⟨i + 3, .free⟩ :: post := by
      simp only [List.mem_append, List.mem_cons] at member ⊢
      tauto
    have kind := settled b inside
    exact ⟨kind, rep.pos b inside (by rcases kind with used | free <;> simp [*]), (rep.sized b inside).le kind⟩

/-- What lies behind a block to be cut is too small to have been handed out. -/
theorem cut_site {A : Arena} {h : Heap} {c i n : Nat} {pre post : List Block} {F : Nat → List Nat}
    (rep : Rep A h ⟨pre ++ ⟨i + 3, .free⟩ :: post, F⟩)
    (settled : Layout.Settled ⟨pre ++ ⟨i + 3, .free⟩ :: post, F⟩)
    (fronted : Fronted (A.len + 2) n (pre ++ ⟨i + 3, .free⟩ :: post))
    (descends : Layout.Descends A ⟨pre ++ ⟨i + 3, .free⟩ :: post, F⟩) (cuts : Cuts A c F pre i) :
    ∃ v rest, post = few v ++ rest ∧ Site (A.len + 2) pre (i + 3) v rest ∧
    v < c + 3 ∧ freeRun post = v := by
  obtain ⟨lower, upper, -⟩ := firstListed_some cuts.first
  obtain ⟨v, rest, split, site, member⟩ := listed_site rep settled fronted descends (by omega) cuts.head
  refine ⟨v, rest, split, site, ?_, by rw [split, few_run site.quiet]⟩
  by_contra large
  obtain ⟨j, rfl⟩ : ∃ j, v = j + 3 := ⟨v - 3, by omega⟩
  have behind := site.behind
  have listed : F j = [] := by
    rcases Nat.eq_or_lt_of_le (show c ≤ j by omega) with rfl | above
    · exact cuts.empty
    · exact firstListed_first cuts.first (by omega) (by omega)
  refine (rep.list_empty_iff (by omega)).mp listed ?_
  have inPost := member (by omega)
  simp [inPost]

/-- No cut in such a layout leaves `heads[]`. -/
theorem Fronted.cutFits {A : Arena} {h : Heap} {lay : Layout} {c n : Nat}
    (fronted : Fronted (A.len + 2) n lay.blocks) (rep : Rep A h lay) (settled : lay.Settled)
    (descends : lay.Descends A) : lay.CutFits A c := by
  intro pre i post split cuts
  obtain ⟨blocks, F⟩ := lay
  simp only at split cuts
  subst split
  obtain ⟨lower, upper, -⟩ := firstListed_some cuts.first
  obtain ⟨v, rest, -, site, small, run⟩ := cut_site rep settled fronted descends cuts
  rw [run]
  rcases site.behind with none | ⟨largest, -⟩ <;> omega

/-- Handing out the first block of a list takes it whole. -/
theorem Pops.takes {A : Arena} {h : Heap} {lay lay' : Layout} {c n x : Nat} (rep : Rep A h lay)
    (settled : lay.Settled) (fronted : Fronted (A.len + 2) n lay.blocks) (descends : lay.Descends A)
    (bound : c < A.len) (pops : Pops A c lay x lay') :
    ∃ p, x = p + 8 ∧ Takes (A.len + 2) A.addr lay.blocks p lay'.blocks ∧ lay'.Descends A := by
  obtain @⟨pre, post, F, p, listed, rfl, list⟩ := pops
  obtain ⟨v, rest, rfl, site, -⟩ := listed_site rep settled fronted descends bound (by rw [list, List.head?_cons])
  refine ⟨_, rfl, .whole site, ?_⟩
  simp only [Layout.Descends] at descends ⊢
  have top : A.len + 2 = A.len - 1 + 3 := by omega
  rw [top] at site
  have absent := site.behind_absent
  rw [freeOfClass_front (by simpa using absent)]
  rw [site.listed] at descends
  by_cases same : c = A.len - 1
  · subst same
    rw [if_pos (by omega), list, List.reverse_append, List.reverse_singleton, List.singleton_append,
      List.cons.injEq] at descends
    rw [Function.update_self, descends.2]
  · rw [if_neg (by omega), List.append_nil] at descends
    rw [Function.update_of_ne (fun equal => same equal.symm), descends]

theorem Pops.lists {A : Arena} {lay lay' : Layout} {c k x : Nat} (pops : Pops A c lay x lay') (other : k ≠ c) :
    lay'.lists k = lay.lists k := by
  obtain ⟨-, -⟩ := pops
  exact Function.update_of_ne other _ _

/-- A cut takes the front or the back of its block. -/
theorem cut_takes {A : Arena} {h : Heap} {lay' : Layout} {c i n x : Nat} {pre post : List Block}
    {F : Nat → List Nat} (rep : Rep A h ⟨pre ++ ⟨i + 3, .free⟩ :: post, F⟩)
    (settled : Layout.Settled ⟨pre ++ ⟨i + 3, .free⟩ :: post, F⟩)
    (fronted : Fronted (A.len + 2) n (pre ++ ⟨i + 3, .free⟩ :: post))
    (descends : Layout.Descends A ⟨pre ++ ⟨i + 3, .free⟩ :: post, F⟩) (cuts : Cuts A c F pre i)
    (pops : Pops A c (divide A.addr c i pre post F) x lay') :
    ∃ p, x = p + 8 ∧ Takes (A.len + 2) A.addr (pre ++ ⟨i + 3, .free⟩ :: post) p lay'.blocks ∧ lay'.Descends A := by
  obtain ⟨lower, upper, -⟩ := firstListed_some cuts.first
  obtain ⟨v, rest, rfl, site, small, run⟩ := cut_site rep settled fronted descends cuts
  have behind := site.behind
  have words : i + 3 - (c + 3) + v = i - c + v := by omega
  have positive : ∀ b ∈ pre ++ (few v ++ rest), 1 ≤ b.words := fun b member => by
    have inside : b ∈ pre ++ ⟨i + 3, .free⟩ :: (few v ++ rest) := by
      simp only [List.mem_append, List.mem_cons] at member ⊢
      tauto
    exact rep.pos b inside (by rcases settled b inside with used | free <;> simp [*])
  obtain ⟨gone, rest', same, unused, -, quiet, handed⟩ := pops.cut positive cuts
  obtain rfl := few_unique site.quiet quiet unused same
  rw [run] at handed
  -- The list of the largest class has lost the block that was cut, if that was one of it.
  have top : A.len + 2 = A.len - 1 + 3 := by omega
  have site' := site
  rw [top] at site'
  simp only [Layout.Descends] at descends
  rw [site'.listed] at descends
  have front : cutLists F c i (A.addr + span Block.size pre) (A.len - 1) =
    (freeOfClass A.addr (A.len - 1) pre).reverse := by
    rw [cutLists, Function.update_of_ne (by omega)]
    by_cases largest : i = A.len - 1
    · rw [largest, Function.update_self, descends, if_pos (by omega)]
      simp
    · rw [Function.update_of_ne (fun equal => largest equal.symm), descends, if_neg (by omega), List.append_nil]
  have kept : lay'.lists (A.len - 1) = (freeOfClass A.addr (A.len - 1) pre).reverse := by
    rw [pops.lists (by omega), divide, ← front]
    simp only [absorb_words, run]
    rw [enlist_other (by omega), absorb_keeps]
    intro y member
    rw [front, List.mem_reverse] at member
    have bounds := freeOfClass_bounds member
    omega
  rcases handed with ⟨-, rfl, after⟩ | ⟨equal, rfl, after⟩
  · refine ⟨_, rfl, ?_, ?_⟩
    · rw [after, ← words]
      exact .front site (by omega) small
    · rw [Layout.Descends, kept, after, freeOfClass_front]
      have other : ¬ A.len - 1 + 3 = i - c + v := by omega
      simpa [other] using site'.last
  · refine ⟨_, rfl, ?_, ?_⟩
    · rw [after, List.append_assoc, List.singleton_append]
      exact .back site (by omega) small (by omega)
    · rw [Layout.Descends, kept, after, List.append_assoc, freeOfClass_front]
      have other : ¬ A.len - 1 = c := by omega
      simpa [other] using site'.last

/-- What a get makes of such a layout. -/
theorem Gets.takes {A : Arena} {h : Heap} {lay lay' : Layout} {c n x : Nat} (gets : Gets A c lay (some x) lay')
    (rep : Rep A h lay) (settled : lay.Settled) (fronted : Fronted (A.len + 2) n lay.blocks)
    (descends : lay.Descends A) (bound : c < A.len) :
    ∃ p, x = p + 8 ∧ Takes (A.len + 2) A.addr lay.blocks p lay'.blocks ∧ lay'.Descends A := by
  cases gets with
  | pop _ pops => exact pops.takes rep settled fronted descends bound
  | cut cuts _ pops => exact cut_takes rep settled fronted descends cuts pops

/-- A get leaves such a layout, with at most one block of the largest class less. -/
theorem Takes.fronted {M a n p : Nat} {blocks blocks' : List Block} (takes : Takes M a blocks p blocks')
    (fronted : Fronted M n blocks) :
    ∃ n', n ≤ n' + 1 ∧ Fronted M n' blocks' := by
  have around : ∀ {pre w v rest} {tail : List Block}, Site M pre w v rest →
    Fronted M n (pre ++ ⟨w, .free⟩ :: (few v ++ rest)) →
      ⟨M, .free⟩ ∉ tail → (∀ near, (∀ b ∈ near.getLast?, b ≠ ⟨M, .free⟩ → b.state = .used) → Coalesced M near →
        Coalesced M (few v ++ rest) → Coalesced M (near ++ tail)) →
      ∃ n', n ≤ n' + 1 ∧ Fronted M n' (pre ++ tail) := by
    intro pre w v rest tail site fronted absent chain
    obtain ⟨m, near, rfl, enough, -, absent', -, coalesced⟩ := fronted.split fun _ => site.behind_absent
    obtain ⟨left, right, -⟩ := (Coalesced.around_pre _ _ _).mp coalesced
    refine ⟨m, enough, near ++ tail, by rw [List.append_assoc], by simp [absent, absent'],
      chain near ?_ left right⟩
    intro b last other
    refine (site.front b ?_).resolve_right other
    rw [List.getLast?_append, last, Option.some_or]
    rfl
  cases takes with
  | @whole pre w v rest site =>
    refine around site fronted (by simpa using site.behind_absent) fun near _ left right => ?_
    exact (Coalesced.around_pre _ _ _).mpr ⟨left, right, fun small => absurd small Block.not_small_used⟩
  | @front pre w v rest k site part less =>
    have fits := site.fits
    have other : ¬ M = w - k + v := by rcases site.behind with none | ⟨largest, -⟩ <;> omega
    refine around site fronted (by simpa [other] using site.last) fun near _ left right => ?_
    refine (Coalesced.around_pre _ _ _).mpr
      ⟨left, List.isChain_cons.mpr ⟨fun b head both => ?_, right.right_of_append⟩,
      fun small => absurd small Block.not_small_used⟩
    have used := site.quiet b head
    rw [both.2.1] at used
    cases used
  | @back pre w v rest k site part less same =>
    have fits := site.fits
    have other : ¬ M = k := by omega
    refine around site fronted (by simpa [other] using site.last) fun near last left right => ?_
    refine (Coalesced.around_pre _ _ _).mpr
      ⟨left, List.isChain_cons.mpr ⟨fun b _ both => ?_, right.right_of_append⟩,
      fun _ => ⟨fun b head small => ?_, ?_⟩⟩
    · exact Block.not_small_used both.1
    · have used := last b head fun largest => by simp [largest, Block.small_free] at small
      rw [small.1] at used
      cases used
    · simp [Block.not_small_used]

/-- A fresh partition is such a layout, with all its largest blocks in front. -/
theorem Region.fresh_fronted (A : Region) : Fronted (A.len + 2) (A.addrSize / 8 / (A.len + 2)) A.fresh.blocks := by
  have blocks := carved_blocks A.addr [] (fun _ => []) (show 1 ≤ A.len + 2 by omega) (le_refl (A.addrSize / 8))
  have less := Nat.mod_lt (A.addrSize / 8) (show 0 < A.len + 2 by omega)
  refine ⟨_, by rw [Region.fresh, blocks, List.nil_append], ?_, ?_⟩
  · split
    · simp
    · simp only [List.mem_singleton, Block.mk.injEq, and_true]
      omega
  · split
    · exact List.isChain_nil
    · exact List.isChain_singleton _

/-- Carving lists the largest blocks from the highest down. -/
theorem carved_descends {M K a w : Nat} {pre : List Block} {F : Nat → List Nat} {fuel : Nat}
    (list : F K = (freeOfClass a K pre).reverse) :
    (carved M a fuel pre w F).lists K = (freeOfClass a K (carved M a fuel pre w F).blocks).reverse := by
  induction fuel generalizing pre w F with
  | zero => exact list
  | succ fuel ih =>
    rw [carved]
    split
    · exact list
    · refine ih ?_
      rw [freeOfClass_append, List.reverse_append, ← list]
      by_cases largest : min w M = K + 3
      · rw [largest, enlist_self]
        simp
      · rw [enlist_other largest]
        simp [largest]

end Fkv
