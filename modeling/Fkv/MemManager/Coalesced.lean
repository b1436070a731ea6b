import Fkv.MemManager.Client

namespace Fkv
open ByteMemory CWord Tiling LinkedRing Runs

/-- Free, and shorter than the largest class. -/
def Block.Small (M : Nat) (b : Block) : Prop := b.state = .free ∧ b.words < M

instance (M : Nat) (b : Block) : Decidable (b.Small M) := by unfold Block.Small; infer_instance

/-- No two neighbours are both small free blocks. -/
def Coalesced (M : Nat) (blocks : List Block) : Prop :=
  blocks.IsChain (fun b c => ¬ (b.Small M ∧ c.Small M))

/-- The words of the first block of a list, if that is a small free one. -/
def smallWords (M : Nat) : List Block → Nat
  | [] => 0
  | b :: _ => if b.Small M then b.words else 0

/-- The list behind its first block, if that is a small free one. -/
def dropSmall (M : Nat) : List Block → List Block
  | [] => []
  | b :: blocks => if b.Small M then blocks else b :: blocks

/-- What a block and a small neighbour leave above the last multiple of `M`. -/
def leftover (M w : Nat) : Nat := if M < w then w - M else w

/-- A free that leaves its leftover in front of a small free block: together
with its small neighbours the freed block is smaller than the largest class,
and behind it a free block of the largest class hides a small one. -/
def Focus.Strands (M : Nat) (f : Focus) : Prop :=
  leftover M (f.words + smallWords M f.before) + smallWords M f.after < M ∧
    ∃ b rest, dropSmall M f.after = ⟨M, .free⟩ :: b :: rest ∧ b.Small M

/-- The only cut that may spoil coalescing is one whose remainder is of the class
asked for: the remainder is handed out, and the front of the cut stays free. -/
def Layout.CutCoalesces (A : Arena) (c : Nat) (lay : Layout) : Prop :=
  ∀ pre i post, lay.blocks = pre ++ ⟨i + 3, .free⟩ :: post → Cuts A c lay.lists pre i →
    i - c + freeRun post = c + 3 → ∀ b ∈ pre.getLast?, ¬ b.Small (A.len + 2)

theorem Block.small_free {M v : Nat} : (Block.mk v .free).Small M ↔ v < M := by simp [Block.Small]

theorem Block.not_small_used {M v : Nat} : ¬ (Block.mk v .used).Small M := by simp [Block.Small]

/-- A settled block that is not small is used or of the largest class. -/
theorem Block.large {M : Nat} {b : Block} (settled : b.Settled) (fits : b.words ≤ M) (large : ¬ b.Small M)
    (free : b.state ≠ .used) :
    b = ⟨M, .free⟩ := by
  obtain ⟨v, s⟩ := b
  obtain rfl : s = .free := settled.resolve_left free
  rw [Block.small_free] at large
  obtain rfl : v = M := by simp only at fits; omega
  rfl

theorem coalesced_reverse {M : Nat} {xs : List Block} : Coalesced M xs.reverse ↔ Coalesced M xs := by
  unfold Coalesced
  rw [List.isChain_reverse]
  simp only [and_comm]

/-- A list is coalesced around a block when both sides are and it does not sit
small beside a small neighbour. -/
theorem coalesced_around {M : Nat} (xs ys : List Block) (b : Block) :
    Coalesced M (xs.reverse ++ b :: ys) ↔ Coalesced M xs ∧ Coalesced M ys ∧
    (b.Small M → (∀ c ∈ xs.head?, ¬ c.Small M) ∧ ∀ c ∈ ys.head?, ¬ c.Small M) := by
  have left : Coalesced M (xs.reverse ++ b :: ys) ↔ Coalesced M xs.reverse ∧ Coalesced M (b :: ys) ∧
      ∀ c ∈ xs.head?, ¬ (c.Small M ∧ b.Small M) := by
    unfold Coalesced
    rw [List.isChain_append]
    simp
  have right : Coalesced M (b :: ys) ↔ (∀ c ∈ ys.head?, ¬ (b.Small M ∧ c.Small M)) ∧ Coalesced M ys :=
    List.isChain_cons
  rw [left, right, coalesced_reverse]
  by_cases small : b.Small M
  · simp only [small, and_true, true_and, forall_const]
    tauto
  · simp [small]

/-- After the first loop the block in hand has no small neighbour in front. -/
theorem mergeLeft_coalesced {M w : Nat} {before : List Block} (a : Nat) (after : List Block)
    (F : Nat → List Nat) (coalesced : Coalesced M before) (settled : ∀ b ∈ before, b.Settled)
    (sized : ∀ b ∈ before, 1 ≤ b.words ∧ b.words ≤ M) (positive : 1 ≤ w) (fits : w ≤ M) :
    Coalesced M (mergeLeft M a after before w F).before ∧
      (∀ b ∈ (mergeLeft M a after before w F).before.head?, ¬ b.Small M) ∧
      (mergeLeft M a after before w F).words = leftover M (w + smallWords M before) := by
  have whole : ∀ {v : Nat} {rest : List Block}, Coalesced M rest → M ≤ v →
      Coalesced M (⟨v, .free⟩ :: rest) ∧ ∀ b ∈ (Block.mk v .free :: rest).head?, ¬ b.Small M := by
    intro v rest chain large
    have notSmall : ¬ (Block.mk v .free).Small M := by rw [Block.small_free]; omega
    refine ⟨List.isChain_cons.mpr ⟨fun c _ both => notSmall both.1, chain⟩, ?_⟩
    intro b member
    cases member
    exact notSmall
  cases before with
  | nil => simp [mergeLeft, Coalesced, smallWords, leftover]; omega
  | cons b before =>
    obtain ⟨near, chain⟩ := List.isChain_cons.mp coalesced
    obtain ⟨low, high⟩ := sized b (by simp)
    rcases settled b (by simp) with used | free
    · have notSmall : ¬ b.Small M := by simp [Block.Small, used]
      refine ⟨by simpa only [mergeLeft, used, if_true] using coalesced, ?_, ?_⟩
      · simpa only [mergeLeft, used, if_true, List.head?_cons, Option.mem_some_iff, forall_eq'] using notSmall
      · simp only [mergeLeft, used, if_true, smallWords, notSmall, if_false, leftover]
        rw [if_neg (by omega)]
        rfl
    · obtain ⟨v, s⟩ := b
      simp only at free low high
      subst free
      by_cases above : M < v + w
      · simp only [mergeLeft, reduceCtorEq, if_false, above, if_true, smallWords, Block.small_free, leftover]
        refine ⟨(whole chain le_rfl).1, (whole chain le_rfl).2, ?_⟩
        split <;> split <;> omega
      · have small : v < M := by omega
        simp only [mergeLeft, reduceCtorEq, if_false, above, smallWords, Block.small_free, small, if_true]
        cases before with
        | nil =>
          refine ⟨List.isChain_nil, by simp [mergeLeft], ?_⟩
          simp only [mergeLeft, leftover]
          rw [if_neg (by omega)]
          omega
        | cons c before =>
          have chain' := (List.isChain_cons.mp chain).2
          rcases settled c (by simp) with used | free
          · have notSmall : ¬ c.Small M := by simp [Block.Small, used]
            simp only [mergeLeft, used, if_true, leftover]
            refine ⟨chain, by simpa using notSmall, ?_⟩
            rw [if_neg (by omega)]
            omega
          · obtain ⟨u, s⟩ := c
            simp only at free
            subst free
            have large : ¬ u < M := fun smaller =>
              near ⟨u, .free⟩ (by simp) ⟨Block.small_free.mpr small, Block.small_free.mpr smaller⟩
            have fitting := (sized ⟨u, .free⟩ (by simp)).2
            have beyond : M < u + (v + w) := by simp only at fitting; omega
            simp only [mergeLeft, reduceCtorEq, if_false, beyond, if_true, leftover]
            refine ⟨(whole chain' le_rfl).1, (whole chain' le_rfl).2, ?_⟩
            simp only at fitting
            rw [if_neg (by omega)]
            omega

/-- After the second loop the block in hand is small and has a small neighbour
behind exactly when the freed block strands it. -/
theorem mergeRight_coalesced {M w : Nat} {after : List Block} (a : Nat) (before : List Block)
    (F : Nat → List Nat) (coalesced : Coalesced M after) (settled : ∀ b ∈ after, b.Settled)
    (sized : ∀ b ∈ after, 1 ≤ b.words ∧ b.words ≤ M) (positive : 1 ≤ w) (fits : w ≤ M) :
    ((mergeRight M a before after w F).words < M ∧
      ∃ b ∈ (mergeRight M a before after w F).after.head?, b.Small M) ↔
    w + smallWords M after < M ∧ ∃ b rest, dropSmall M after = ⟨M, .free⟩ :: b :: rest ∧ b.Small M := by
  cases after with
  | nil => simp [mergeRight, dropSmall]
  | cons b after =>
    obtain ⟨near, chain⟩ := List.isChain_cons.mp coalesced
    obtain ⟨low, high⟩ := sized b (by simp)
    rcases settled b (by simp) with used | free
    · have notSmall : ¬ b.Small M := by simp [Block.Small, used]
      have other : b ≠ ⟨M, .free⟩ := by rintro rfl; simp at used
      simp [mergeRight, used, dropSmall, notSmall, other]
    · obtain ⟨v, s⟩ := b
      simp only at free low high
      subst free
      by_cases small : v < M
      · by_cases above : M < w + v
        · have quiet : ∀ c ∈ after.head?, ¬ c.Small M :=
            fun c member both => near c member ⟨Block.small_free.mpr small, both⟩
          have sum : ¬ w + v < M := by omega
          simp only [mergeRight, reduceCtorEq, if_false, above, if_true, smallWords, Block.small_free, small, sum,
            false_and, iff_false, not_and, not_exists]
          exact fun _ c => quiet c
        · simp only [mergeRight, reduceCtorEq, if_false, above, smallWords, Block.small_free, small, if_true,
            dropSmall]
          cases after with
          | nil => simp [mergeRight]
          | cons c after =>
            rcases settled c (by simp) with used | free
            · have notSmall : ¬ c.Small M := by simp [Block.Small, used]
              have other : c ≠ ⟨M, .free⟩ := by rintro rfl; simp at used
              simp [mergeRight, used, notSmall, other]
            · obtain ⟨u, s⟩ := c
              simp only at free
              subst free
              have large : ¬ u < M := fun smaller =>
                near ⟨u, .free⟩ (by simp) ⟨Block.small_free.mpr small, Block.small_free.mpr smaller⟩
              obtain rfl : u = M := by
                have fitting := (sized ⟨u, .free⟩ (by simp)).2
                simp only at fitting
                omega
              have beyond : u < w + v + u := by omega
              simp only [mergeRight, reduceCtorEq, if_false, beyond, if_true, Nat.add_sub_cancel]
              cases after <;> simp
      · obtain rfl : v = M := by omega
        have above : v < w + v := by omega
        simp only [mergeRight, reduceCtorEq, if_false, above, if_true, smallWords, Block.small_free, small,
          dropSmall, Nat.add_sub_cancel, Nat.add_zero]
        cases after <;> simp

/-- A free keeps free space coalesced exactly when it strands nothing. -/
theorem release_coalesced {M a : Nat} {f : Focus} (coalesced : Coalesced M (f.layout .used).blocks)
    (settled : ∀ b ∈ f.before ++ f.after, b.Settled)
    (sized : ∀ b ∈ f.before ++ f.after, 1 ≤ b.words ∧ b.words ≤ M) (positive : 1 ≤ f.words) (fits : f.words ≤ M) :
    Coalesced M (release M a f).blocks ↔ ¬ f.Strands M := by
  obtain ⟨before, w, after, F⟩ := f
  simp only [List.mem_append] at settled sized positive fits
  obtain ⟨chain, chain', -⟩ := (coalesced_around _ _ _).mp coalesced
  obtain ⟨inFront, quiet, words⟩ := mergeLeft_coalesced a after F chain
    (fun b member => settled b (Or.inl member)) (fun b member => sized b (Or.inl member)) positive fits
  obtain ⟨gone, rest, emitted, -, -, -, -, -, positive', fits', kept⟩ :=
    mergeLeft_cut a after F (fun b member => sized b (Or.inl member)) positive fits
  have stranded : (Focus.Strands M ⟨before, w, after, F⟩) = (leftover M (w + smallWords M before) +
      smallWords M after < M ∧ ∃ b rest, dropSmall M after = ⟨M, .free⟩ :: b :: rest ∧ b.Small M) := rfl
  rw [stranded, ← words]
  simp only [release, coalesce]
  generalize mergeLeft M a after before w F = g at *
  obtain ⟨before', w', after', G⟩ := g
  simp only at inFront quiet positive' fits' kept ⊢
  subst kept
  have behind := mergeRight_coalesced a before' G chain'
    (fun b member => settled b (Or.inr member)) (fun b member => sized b (Or.inr member)) positive' fits'
  obtain ⟨gone', emitted', whole, -, cut, shape, -, -, -⟩ :=
    mergeRight_cut a before' G (fun b member => sized b (Or.inr member)) positive' fits'
  rw [← behind, coalesced_around, Block.small_free]
  have suffix : Coalesced M (mergeRight M a before' after' w' G).after := by
    rw [whole] at chain'
    exact chain'.right_of_append
  have front : Coalesced M (mergeRight M a before' after' w' G).before ∧
      ∀ b ∈ (mergeRight M a before' after' w' G).before.head?, ¬ b.Small M := by
    rw [cut]
    rcases shape with rfl | rfl
    · exact ⟨inFront, quiet⟩
    · have large : ¬ (Block.mk M .free).Small M := by simp [Block.small_free]
      exact ⟨List.isChain_cons.mpr ⟨fun c _ both => large both.1, inFront⟩, by simpa using large⟩
  simp only [suffix, front.1, true_and, not_and, not_exists]
  exact ⟨fun quiet' small => (quiet' small).2, fun quiet' small => ⟨front.2, quiet' small⟩⟩

theorem Coalesced.around_pre {M : Nat} (xs ys : List Block) (b : Block) : Coalesced M (xs ++ b :: ys) ↔
    Coalesced M xs ∧ Coalesced M ys ∧
      (b.Small M → (∀ c ∈ xs.getLast?, ¬ c.Small M) ∧ ∀ c ∈ ys.head?, ¬ c.Small M) := by
  have around := coalesced_around (M := M) xs.reverse ys b
  rw [List.reverse_reverse, coalesced_reverse, List.head?_reverse] at around
  exact around

/-- Handing out a listed block keeps free space coalesced. -/
theorem Pops.coalesced {A : Arena} {lay lay' : Layout} {M c x : Nat} (pops : Pops A c lay x lay')
    (coalesced : Coalesced M lay.blocks) :
    Coalesced M lay'.blocks := by
  obtain ⟨pre, post, p, rest, before, -, -, -, after⟩ := pops.elim
  rw [before, Coalesced.around_pre] at coalesced
  rw [after, Coalesced.around_pre]
  exact ⟨coalesced.1, coalesced.2.1, fun small => absurd small Block.not_small_used⟩

/-- A get that cuts a block keeps free space coalesced unless the remainder is
of the class asked for, so that it and not the front is handed out, and the
block in front of the cut is small and free. -/
theorem cut_coalesced {A : Arena} {lay' : Layout} {c i x : Nat} {pre post : List Block} {F : Nat → List Nat}
    (coalesced : Coalesced (A.len + 2) (pre ++ ⟨i + 3, .free⟩ :: post)) (sized : ∀ b ∈ pre ++ post, 1 ≤ b.words)
    (cuts : Cuts A c F pre i) (pops : Pops A c (divide A.addr c i pre post F) x lay') :
    Coalesced (A.len + 2) lay'.blocks ↔
      (i - c + freeRun post = c + 3 → ∀ b ∈ pre.getLast?, ¬ b.Small (A.len + 2)) := by
  obtain ⟨lower, upper, -⟩ := firstListed_some cuts.first
  obtain ⟨inFront, behind, -⟩ := (Coalesced.around_pre _ _ _).mp coalesced
  obtain ⟨gone, rest, whole, -, -, quiet, handed⟩ := pops.cut sized cuts
  have behind' : Coalesced (A.len + 2) rest := by
    rw [whole] at behind
    exact behind.right_of_append
  have calm : ∀ d ∈ rest.head?, ¬ d.Small (A.len + 2) := fun d member small => by
    have used := quiet d member
    rw [small.1] at used
    cases used
  rcases handed with ⟨other, -, after⟩ | ⟨same, -, after⟩
  · have remainder : Coalesced (A.len + 2) (⟨i - c + freeRun post, .free⟩ :: rest) :=
      List.isChain_cons.mpr ⟨fun d member both => calm d member both.2, behind'⟩
    rw [after, Coalesced.around_pre]
    simp only [inFront, remainder, Block.not_small_used, true_and, false_implies, other]
  · have front : Coalesced (A.len + 2) (pre ++ [⟨c + 3, .free⟩]) ↔
        ∀ b ∈ pre.getLast?, ¬ b.Small (A.len + 2) := by
      rw [Coalesced.around_pre]
      have small : (Block.mk (c + 3) .free).Small (A.len + 2) := Block.small_free.mpr (by omega)
      have none : Coalesced (A.len + 2) [] := List.isChain_nil
      simp [inFront, small, none]
    rw [after, Coalesced.around_pre]
    simp only [front, behind', Block.not_small_used, false_implies, and_true, same, forall_const]

/-- The free space of the partition is coalesced. -/
def Client.Coalesced (A : Arena) (s : Client) : Prop :=
  ∃ lay, Serves A s lay ∧ Fkv.Coalesced (A.len + 2) lay.blocks

/-- A call that leaves no small free block beside another one: no cut hands out
its remainder behind a small free block, and no freed block is stranded. -/
def Client.Coalesces (A : Arena) (s : Client) : Call → Prop
  | .get dataSize => ∀ lay : Layout, lay.Settled → Rep A s.heap lay → lay.CutCoalesces A (requestClass dataSize)
  | .free block => ∀ f : Focus, (f.layout .used).Settled → Rep A s.heap (f.layout .used) →
      block = f.head A.addr + 8 → ¬ f.Strands (A.len + 2)
  | .write _ _ _ => True

theorem Gets.coalesced_iff {A : Arena} {lay lay' : Layout} {c : Nat} {r : Option Nat}
    (gets : Gets A c lay r lay') (coalesced : Fkv.Coalesced (A.len + 2) lay.blocks)
    (positive : ∀ b ∈ lay.blocks, 1 ≤ b.words) :
    Fkv.Coalesced (A.len + 2) lay'.blocks ↔ lay.CutCoalesces A c := by
  cases gets with
  | pop listed pops =>
    refine ⟨fun _ pre i post _ cuts => absurd cuts.empty listed, fun _ => pops.coalesced coalesced⟩
  | @cut pre i post F x _ cuts _ pops =>
    rw [cut_coalesced coalesced (fun b member => positive b (by simp at member ⊢; tauto)) cuts pops]
    constructor
    · intro quiet pre' j post' same cuts'
      obtain ⟨rfl, rfl, rfl⟩ := cuts.unique cuts' positive same
      exact quiet
    · exact fun quiet => quiet pre i post rfl cuts
  | none _ first =>
    refine ⟨fun _ pre i post _ cuts => ?_, fun _ => coalesced⟩
    cases first.symm.trans cuts.first

/-- Whatever settled layout the heap has, the client is served from it. -/
theorem Serves.of_rep {A : Arena} {lay lay' : Layout} {s : Client} (serves : Serves A s lay)
    (settled : lay'.Settled) (rep : Rep A s.heap lay') :
    Serves A s lay' := by
  have same := serves.rep.blocks_unique rep serves.settled settled
  exact ⟨settled, rep, same ▸ serves.live, same ▸ serves.room⟩

/-- A call that succeeds keeps free space coalesced exactly when it coalesces. -/
theorem Client.step_coalesced {A : Arena} {s s' : Client} {call : Call} (coalesced : s.Coalesced A)
    (legal : s.Legal A call) (done : s.step call = .ok s') :
    s'.Coalesced A ↔ s.Coalesces A call := by
  obtain ⟨lay, serves, chain⟩ := coalesced
  have positive : ∀ {lay : Layout}, lay.Settled → Rep A s.heap lay → ∀ b ∈ lay.blocks, 1 ≤ b.words :=
    fun settled rep b member => rep.pos b member (by rcases settled b member with used | free <;> simp [*])
  have determined : ∀ {lay : Layout}, Serves A s' lay →
    (s'.Coalesced A ↔ Fkv.Coalesced (A.len + 2) lay.blocks) := by
    intro lay serves
    constructor
    · rintro ⟨lay', serves', chain'⟩
      rwa [serves.rep.blocks_unique serves'.rep serves.settled serves'.settled]
    · exact fun chain => ⟨lay, serves, chain⟩
  have same : ∀ {lay' : Layout}, lay'.Settled → Rep A s.heap lay' → Fkv.Coalesced (A.len + 2) lay'.blocks := by
    intro lay' settled rep
    rwa [rep.blocks_unique serves.rep settled serves.settled]
  cases call with
  | get dataSize =>
    have each : ∀ lay : Layout, Serves A s lay →
      (s'.Coalesced A ↔ lay.CutCoalesces A (requestClass dataSize)) := by
      intro lay serves
      obtain ⟨succeeds, overruns⟩ := serves.rep.get serves.settled legal
      by_cases fits : lay.CutFits A (requestClass dataSize)
      · obtain ⟨r, h', lay', run, gets, evolves⟩ := succeeds fits
        have served := serves.get evolves.rep gets
        rw [← gets.coalesced_iff (same serves.settled serves.rep) (positive serves.settled serves.rep)]
        simp only [Client.step, run, ok_bind] at done
        cases r <;> cases done <;> exact determined served
      · simp only [Client.step, overruns fits, error_bind] at done
        cases done
    exact ⟨fun coalesced lay settled rep => (each lay (serves.of_rep settled rep)).mp coalesced,
      fun quiet => (each lay serves).mpr (quiet lay serves.settled serves.rep)⟩
  | free block =>
    have each : ∀ f : Focus, Serves A s (f.layout .used) → block = f.head A.addr + 8 →
        (s'.Coalesced A ↔ ¬ f.Strands (A.len + 2)) := by
      rintro f serves rfl
      obtain ⟨h', run, rep, -⟩ := serves.rep.free serves.settled
      obtain ⟨settled, sized⟩ := serves.rep.around serves.settled
      obtain ⟨least, most⟩ : 3 ≤ f.words ∧ f.words ≤ A.len + 2 :=
        serves.rep.sized ⟨f.words, .used⟩ (by simp [Focus.layout])
      rw [← release_coalesced (a := A.addr) (same serves.settled serves.rep) settled sized (by omega) most]
      simp only [Client.step, run, ok_bind] at done
      cases done
      exact determined (serves.free rep)
    obtain ⟨dataSize, live⟩ := legal
    obtain ⟨f, atF, here⟩ := serves.focus live
    refine ⟨fun coalesced g settled rep atG => (each g (serves.of_rep settled rep) atG).mp coalesced,
      fun quiet => ?_⟩
    exact (each f (atF ▸ serves) here).mpr (quiet f (atF ▸ serves.settled) (atF ▸ serves.rep) here)
  | write block offset byte =>
    obtain ⟨dataSize, live, inside⟩ := legal
    cases done
    exact ⟨fun _ => trivial, fun _ => (determined (serves.write live inside)).mpr chain⟩

/-- Carving leaves at most one block below the largest class, at the end. -/
theorem carved_coalesced {M a : Nat} {pre : List Block} {F : Nat → List Nat} {fuel : Nat}
    (large : ∀ b ∈ pre, ¬ b.Small M) (w : Nat) :
    Coalesced M (carved M a fuel pre w F).blocks := by
  have plain : ∀ {xs : List Block}, (∀ b ∈ xs, ¬ b.Small M) → Coalesced M xs := by
    intro xs none
    induction xs with
    | nil => exact List.isChain_nil
    | cons b xs ih =>
      exact List.isChain_cons.mpr ⟨fun c _ both => none b (by simp) both.1,
        ih (fun c member => none c (by simp [member]))⟩
  induction fuel generalizing pre w F with
  | zero => exact plain large
  | succ fuel ih =>
    rw [carved]
    split
    · exact plain large
    · by_cases last : w < M
      · rw [show w - min w M = 0 by omega, carved_zero, Coalesced.around_pre]
        have near : ∀ c ∈ pre.getLast?, ¬ c.Small M := fun c member => large c (List.mem_of_getLast? member)
        exact ⟨plain large, List.isChain_nil, fun _ => ⟨near, by simp⟩⟩
      · refine ih ?_ _
        intro b member
        rcases List.mem_append.mp member with old | new
        · exact large b old
        · rw [List.mem_singleton.mp new, Block.small_free]
          omega

/-- Of two largest blocks the second is taken whole and the first is cut for
eight bytes. Giving back the second moves the single word left of the cut behind
it, and giving back the three words in front then leaves them beside that word. -/
theorem Client.strandedRun :
    ∃ h s, carve (fun _ => 0) smallRaw 16 4096 64 = .ok h ∧
      Meets Client.step (Client.Legal pairArena) [.get 16, .get 8, .free 4136, .free 4104] ⟨h, []⟩ ∧
      run Client.step [.get 16, .get 8, .free 4136, .free 4104] ⟨h, []⟩ = .ok s ∧
      ∃ F, Rep pairArena s.heap ⟨[⟨4, .free⟩, ⟨3, .free⟩, ⟨1, .free⟩], F⟩ := by
  obtain ⟨h₀, carving, rep₀, -⟩ := carve_spec (A := pairArena) (M := 16) (fun _ => 0) smallRaw rfl rfl
  obtain ⟨h₁, get₁, ev₁⟩ := Rep.getFirst (p := 4128) (show 16 ≤ 8 * pairArena.len by decide) rfl [⟨4, .free⟩] []
    rep₀ rfl rfl
  obtain ⟨h, divided, cut⟩ := Rep.get_cut (c := 0) (show 8 ≤ 8 * pairArena.len by decide) rfl [] [⟨4, .used⟩]
    (i := 1) ev₁.rep (by simp [Layout.Settled, Block.Settled]) ⟨rfl, rfl, rfl⟩
  obtain ⟨h₂, handed, ev₂⟩ := Rep.handOutAt (c := 0) (p := 4096) [] [⟨1, .free⟩, ⟨4, .used⟩] cut.rep
    (by decide) rfl rfl
  have get₂ : getSegregatedFitsBlock h₁ 8 = .ok (some 4104, h₂) := divided.trans handed
  obtain ⟨h₃, free₃, rep₃, -⟩ := Rep.free (f := ⟨[⟨1, .free⟩, ⟨3, .used⟩], 4, [], _⟩) ev₂.rep
    (by simp [Focus.layout, Layout.Settled, Block.Settled])
  obtain ⟨h₄, free₄, rep₄, -⟩ := Rep.free (f := ⟨[], 3, [⟨4, .free⟩, ⟨1, .free⟩], _⟩) rep₃
    (by simp [Focus.layout, Layout.Settled, Block.Settled])
  have step₁ : Client.step ⟨h₀, []⟩ (.get 16) = .ok ⟨h₁, [(4136, 16)]⟩ := by
    simp only [Client.step, get₁, ok_bind]
  have step₂ : Client.step ⟨h₁, [(4136, 16)]⟩ (.get 8) = .ok ⟨h₂, [(4104, 8), (4136, 16)]⟩ := by
    simp only [Client.step, get₂, ok_bind]
  have step₃ : Client.step ⟨h₂, [(4104, 8), (4136, 16)]⟩ (.free 4136) = .ok ⟨h₃, [(4104, 8)]⟩ := by
    have freed : freeSegregatedFitsBlock h₂ 4136 = .ok h₃ := free₃
    simp only [Client.step, freed, ok_bind]
    rfl
  have step₄ : Client.step ⟨h₃, [(4104, 8)]⟩ (.free 4104) = .ok ⟨h₄, []⟩ := by
    have freed : freeSegregatedFitsBlock h₃ 4104 = .ok h₄ := free₄
    simp only [Client.step, freed, ok_bind]
    rfl
  refine ⟨h₀, ⟨h₄, []⟩, carving, ?_, ?_, ⟨_, rep₄⟩⟩
  · exact .cons (show 16 ≤ 16 by decide) step₁ (.cons (show 8 ≤ 16 by decide) step₂
      (.cons ⟨16, by simp⟩ step₃ (.cons ⟨8, by simp⟩ step₄ trivial)))
  · rw [run_cons step₁, run_cons step₂, run_cons step₃, run_cons step₄, run_nil]

/-- From carving on, a completed legal sequence of calls keeps free space
coalesced throughout exactly when each of its calls coalesces. -/
theorem Client.coalesced_iff_coalesces {M : Nat} (A : Arena) (m : Mem) (raw : SegregatedFits)
    (calls : List Call) (self : raw.self = A.self) (classes : segregatedFitsClassSize M = A.len) :
    ∃ h, carve m raw M A.addr A.addrSize = .ok h ∧
      ∀ s, Meets Client.step (Client.Legal A) calls ⟨h, []⟩ → run Client.step calls ⟨h, []⟩ = .ok s →
        (Throughout Client.step (Client.Coalesced A) calls ⟨h, []⟩ ↔
          Meets Client.step (Client.Coalesces A) calls ⟨h, []⟩) := by
  obtain ⟨h, carving, rep, -⟩ := carve_spec m raw self classes
  refine ⟨h, carving, fun s legal done => ?_⟩
  have start : Client.Coalesced A ⟨h, []⟩ := by
    obtain ⟨lay, serves⟩ := Client.fresh_wellFormed rep
    have settled : A.fresh.Settled := fun b member => Or.inr (A.fresh_free b member)
    exact ⟨A.fresh, serves.of_rep settled rep, carved_coalesced (by simp) _⟩
  exact holds_iff_meets (fun s call s' => Client.step_coalesced) start legal done

theorem Client.coalesced_iff_coalesces_stranded :
    ∃ h s, carve (fun _ => 0) smallRaw 16 4096 64 = .ok h ∧
      run Client.step [.get 16, .get 8, .free 4136, .free 4104] ⟨h, []⟩ = .ok s ∧
      (Throughout Client.step (Client.Coalesced pairArena) [.get 16, .get 8, .free 4136, .free 4104] ⟨h, []⟩ ↔
        Meets Client.step (Client.Coalesces pairArena) [.get 16, .get 8, .free 4136, .free 4104] ⟨h, []⟩) := by
  obtain ⟨h, s, carving, legal, done, -⟩ := Client.strandedRun
  obtain ⟨h', carving', exact⟩ := Client.coalesced_iff_coalesces pairArena (fun _ => 0) smallRaw
    [.get 16, .get 8, .free 4136, .free 4104] (M := 16) rfl rfl
  cases carving.symm.trans carving'
  exact ⟨h, s, carving, done, exact s legal done⟩

/-- A legal run after which two blocks smaller than the largest class lie side by
side. -/
theorem Client.free_strands :
    ∃ h s, carve (fun _ => 0) smallRaw 16 4096 64 = .ok h ∧
      Meets Client.step (Client.Legal pairArena) [.get 16, .get 8, .free 4136, .free 4104] ⟨h, []⟩ ∧
      run Client.step [.get 16, .get 8, .free 4136, .free 4104] ⟨h, []⟩ = .ok s ∧ ¬ s.Coalesced pairArena := by
  obtain ⟨h, s, carving, legal, done, F, rep⟩ := Client.strandedRun
  refine ⟨h, s, carving, legal, done, ?_⟩
  rintro ⟨lay, serves, chain⟩
  have final : lay.blocks = [⟨4, .free⟩, ⟨3, .free⟩, ⟨1, .free⟩] := by
    refine serves.rep.blocks_unique rep serves.settled ?_
    intro b member
    simp only [List.mem_cons, List.not_mem_nil, or_false] at member
    rcases member with rfl | rfl | rfl <;> exact Or.inr rfl
  rw [final] at chain
  simp [Fkv.Coalesced, Block.Small, pairArena] at chain

end Fkv
