import Fkv.Bucket.Accesses

namespace Fkv
open CWord Runs

/-- What others do on other chains does not change where a call is. -/
theorem IndexThread.Stage.frame {q q' pool pool' : BucketPool} {claimed claimed' n : Nat} {th : IndexThread}
    (stage : th.Stage q pool claimed n) (untouched : q.Untouched q' th.call.args.main) (alike : q.Alike q')
    (kept : ∀ bkt ∈ q.chain th.call.args.main, pool'.cells bkt = pool.cells bkt) (claims : claimed ≤ claimed') :
    th.Stage q' pool' claimed' n := by
  have agree : ∀ {a a' : BucketPool}, q.Agrees a th.call.args.main →
      (∀ bkt ∈ q.chain th.call.args.main, a'.cells bkt = a.cells bkt) → q'.Agrees a' th.call.args.main := by
    intro a a' agrees same bkt member
    rw [untouched.1] at member
    rw [same bkt member, agrees bkt member, untouched.2 bkt member]
  have entry : ∀ bkt ∈ q.chain th.call.args.main, ∀ k, q'.entry (bkt, k) = q.entry (bkt, k) := by
    intro bkt member k
    rw [BucketPool.entry, BucketPool.entry, untouched.2 bkt member]
  have entry' : ∀ bkt ∈ q.chain th.call.args.main, ∀ k, pool'.entry (bkt, k) = pool.entry (bkt, k) := by
    intro bkt member k
    rw [BucketPool.entry, BucketPool.entry, kept bkt member]
  have pass : ∀ part, (∀ c ∈ part, c ∈ q.chain th.call.args.main) →
    (∀ p ∈ slots part, th.call.test (q.entry p) = false) →
      ∀ p ∈ slots part, th.call.test (q'.entry p) = false := by
    intro part inside passed p slot
    rw [entry p.1 (inside _ (mem_slots.mp slot).1)]
    exact passed p slot
  have fills : q.Full th.call.args.main → q'.Full th.call.args.main := by
    intro full p slot
    rw [untouched.1] at slot
    rw [entry p.1 (mem_slots.mp slot).1]
    exact full p slot
  cases stage with
  | slot agrees chain inside passed skipped paced =>
    refine .slot (agree agrees kept) (untouched.1.trans chain) inside (pass _ (by simp +contextual [chain]) passed)
      (fun k low => ?_) paced
    rw [entry _ (by simp [chain])]
    exact skipped k low
  | link agrees chain passed paced =>
    exact .link (agree agrees kept) (untouched.1.trans chain)
      (pass _ (by simp +contextual [chain, or_imp]) passed) paced
  | follow agrees chain passed linked paced =>
    refine .follow (agree agrees kept) (untouched.1.trans chain)
      (pass _ (by simp +contextual [chain, or_imp]) passed) ?_ paced
    rw [kept _ (by simp [chain])]
    exact linked
  | spare agrees chain full low paced =>
    exact .spare (agree agrees kept) (untouched.1.trans chain) (fills full) (low.trans claims) paced
  | swap agrees chain full low inside paced =>
    exact .swap (agree agrees kept) (untouched.1.trans chain) (fills full) (low.trans claims)
      (alike.spareSize ▸ inside) paced
  | join member slot empty agrees paced =>
    refine .join (untouched.1 ▸ member) (untouched.1 ▸ slot) ?_ (agree agrees fun c inside => ?_)
      (alike.spareSize ▸ paced)
    · rw [entry' _ (mem_slots.mp slot).1]
      exact empty
    · exact BucketPool.setEntry_congr (BucketPool.setLink_congr (kept _ member) (kept _ (mem_slots.mp slot).1) _)
        (BucketPool.setLink_congr (kept _ member) (kept c inside) _)
  | fresh slot empty agrees paced =>
    refine .fresh (untouched.1 ▸ slot) ?_ (agree agrees fun c inside => ?_) (alike.spareSize ▸ paced)
    · rw [entry' _ (mem_slots.mp slot).1]
      exact empty
    · exact BucketPool.setEntry_congr (kept _ (mem_slots.mp slot).1) (kept c inside)
  | first slot agrees paced =>
    exact .first (untouched.1 ▸ slot) (agree agrees fun c inside =>
      BucketPool.setEntry_congr (kept _ (mem_slots.mp slot).1) (kept c inside)) (alike.spareSize ▸ paced)
  | second slot agrees paced =>
    refine .second (untouched.1 ▸ slot) (agree agrees fun c inside => ?_) (alike.spareSize ▸ paced)
    rw [entry' _ (mem_slots.mp slot).1]
    exact BucketPool.setEntry_congr (kept _ (mem_slots.mp slot).1) (kept c inside)

namespace IndexRace
variable {τ : Type*} [DecidableEq τ]

theorem of_append {t : τ} (results more : List (τ × IndexCall × Bool)) :
    of t (results ++ more) = of t results ++ of t more := by
  simp only [of, List.filter_append, List.map_append]

theorem of_same {t : τ} (call : IndexCall) (answers : List Bool) :
    of t (answers.map fun result => (t, call, result)) = answers.map fun result => (call, result) := by
  induction answers with
  | nil => rfl
  | cons answer answers ih => simpa [of] using ih

theorem of_other {t u : τ} (other : u ≠ t) (call : IndexCall) (answers : List Bool) :
    of t (answers.map fun result => (u, call, result)) = [] := by
  induction answers with
  | nil => rfl
  | cons answer answers ih => simpa [of, other] using ih

omit [DecidableEq τ] in
theorem replays_append {q q' pool : BucketPool} {fuel : Nat} {call : IndexCall} {t : τ}
    {results : List (τ × IndexCall × Bool)} {result : Bool} (replays : Replays fuel results pool q)
    (perform : performIndex fuel q call = .ok (result, q')) :
    Replays fuel (results ++ [(t, call, result)]) pool q' := by
  induction results generalizing pool with
  | nil =>
    obtain rfl : q = pool := replays
    exact ⟨q', perform, rfl⟩
  | cons first rest ih =>
    obtain ⟨pool₁, one, later⟩ := replays
    exact ⟨pool₁, one, ih later⟩

/-- What holds between any two accesses. -/
structure Follows (fuel : Nat) (pool : BucketPool) (s : IndexRace τ) (q : BucketPool) (spares : Nat → List Nat)
    (claimed : Nat) : Prop where
  replays : Replays fuel s.order pool q
  tracks : q.Tracks fuel s.pool spares claimed
  booked : ∀ i < q.mainSize, q.contents i = booked s.order pool.contents i
  lone : ∀ t u, (s.threads t).busy = true → (s.threads u).busy = true →
    (s.threads t).call.args.main = (s.threads u).call.args.main → t = u
  legal : ∀ t, (s.threads t).busy = true → (s.threads t).call.args.Legal q.mainSize
  apart : ∀ bkt, (∀ t, (s.threads t).busy = true → bkt ∉ q.chain (s.threads t).call.args.main) →
    s.pool.cells bkt = q.cells bkt
  stage : ∀ t, (s.threads t).busy = true → (s.threads t).Stage q s.pool claimed (s.accesses t)
  owes : ∀ t, of t s.order = of t s.returned ++ (s.threads t).owed.map fun result => ((s.threads t).call, result)
  idle : ∀ t, (s.threads t).busy = false → (s.threads t).owed = [] ∧ s.accesses t ≤ 19 * q.spareSize + 20
  sized : q.spareSize = pool.spareSize

def Sound (fuel : Nat) (pool : BucketPool) (s : IndexRace τ) : Prop :=
  ∃ q spares claimed, s.Follows fuel pool q spares claimed

/-- What is settled is booked. -/
theorem Follows.books {q q' pool : BucketPool} {spares : Nat → List Nat} {claimed claimed' fuel : Nat}
    {s : IndexRace τ} {t : τ} {m : IndexMove} (follows : s.Follows fuel pool q spares claimed)
    (busy : (s.threads t).busy = true)
    (moves : (s.threads t).Moves fuel q s.pool claimed (s.accesses t) q' claimed' m) :
    Replays fuel (s.order ++ m.decides.map fun result => (t, (s.threads t).call, result)) pool q' ∧
    ∀ i < q'.mainSize,
      q'.contents i = Fkv.booked (s.order ++ m.decides.map fun result => (t, (s.threads t).call, result))
        pool.contents i := by
  rcases moves.decides with ⟨none, rfl⟩ | ⟨result, one, perform⟩
  · rw [none, List.map_nil, List.append_nil]
    exact ⟨follows.replays, follows.booked⟩
  · have wellFormed : q.WellFormed := ⟨follows.tracks.placed, spares, claimed, follows.tracks.chained⟩
    obtain ⟨result', pool₁, run, -, performs⟩ := wellFormed.works (follows.legal t busy) follows.tracks.enough
    cases run.symm.trans perform
    rw [one, List.map_singleton]
    refine ⟨replays_append follows.replays perform, fun i inside => ?_⟩
    rw [Fkv.booked, List.foldl_append, List.foldl_cons, List.foldl_nil]
    exact performs.contents follows.booked (moves.alike.mainSize ▸ inside)

/-- An access. -/
theorem Follows.access {q pool : BucketPool} {spares : Nat → List Nat} {claimed fuel : Nat} {s : IndexRace τ}
    {t : τ} (follows : s.Follows fuel pool q spares claimed) (busy : (s.threads t).busy = true) :
    (s.step (.next t)).Sound fuel pool := by
  obtain ⟨q', spares', claimed', tracks, moves⟩ :=
    (follows.stage t busy).goes follows.tracks (follows.legal t busy).1
  obtain ⟨replays, books⟩ := follows.books busy moves
  have mainSize := moves.alike.mainSize
  have away : ∀ u, u ≠ t → (s.threads u).busy = true →
    (s.threads u).call.args.main ≠ (s.threads t).call.args.main :=
    fun u other active same => other (follows.lone u t active busy same)
  have apart : ∀ bkt, bkt ∉ q'.chain (s.threads t).call.args.main →
      (∀ u, u ≠ t → (s.threads u).busy = true → bkt ∉ q'.chain (s.threads u).call.args.main) →
      ((s.threads t).move s.pool).pool.cells bkt = q'.cells bkt := by
    intro bkt outside none
    obtain ⟨kept, kept'⟩ := moves.kept bkt outside
    rw [kept, kept']
    refine follows.apart bkt fun u active member => ?_
    by_cases here : u = t
    · subst here
      exact outside (moves.grows bkt member)
    · refine none u here active ?_
      rw [(moves.others _ (follows.legal u active).1 (away u here active)).1]
      exact member
  refine ⟨q', spares', claimed', replays, tracks, books, fun u v active active' same => ?_, fun u active => ?_,
    fun bkt none => ?_, fun u active => ?_, fun u => ?_, fun u rest => ?_, ?_⟩
  · simp only [step, Function.update_apply] at active active' same
    split at active <;> split at active'
    · rename_i first second
      rw [first, second]
    · rename_i first second
      rw [if_pos first, if_neg second, moves.same] at same
      exact absurd same.symm (away v second active')
    · rename_i first second
      rw [if_neg first, if_pos second, moves.same] at same
      exact absurd same (away u first active)
    · rename_i first second
      rw [if_neg first, if_neg second] at same
      exact follows.lone u v active active' same
  · simp only [step, Function.update_apply] at active ⊢
    split
    · rw [moves.same, mainSize]
      exact follows.legal t busy
    · rename_i other
      rw [if_neg other] at active
      rw [mainSize]
      exact follows.legal u active
  · have others : ∀ u, u ≠ t → (s.threads u).busy = true → bkt ∉ q'.chain (s.threads u).call.args.main := by
      intro u other active
      have away := none u
      simp only [step, Function.update_of_ne other] at away
      exact away active
    have mine := none t
    simp only [step, Function.update_self] at mine
    by_cases still : ((s.threads t).move s.pool).thread.busy = true
    · have outside := mine still
      rw [moves.same] at outside
      exact apart bkt outside others
    · by_cases inside : bkt ∈ q'.chain (s.threads t).call.args.main
      · exact (moves.settled (by simpa using still)).1 bkt inside
      · exact apart bkt inside others
  · by_cases here : u = t
    · subst here
      simp only [step, Function.update_self, busy, if_true] at active ⊢
      exact moves.stage active
    · simp only [step, Function.update_of_ne here, busy, if_true] at active ⊢
      have untouched := moves.others _ (follows.legal u active).1 (away u here active)
      refine (follows.stage u active).frame untouched moves.alike (fun bkt member => (moves.kept bkt ?_).1)
        moves.claims
      rw [← untouched.1] at member
      exact tracks.chained.disjoint tracks.placed (mainSize ▸ (follows.legal u active).1)
        (mainSize ▸ (follows.legal t busy).1) (Ne.symm (away u here active)) member
  · by_cases here : u = t
    · subst here
      simp only [step, Function.update_self, of_append, of_same, moves.same]
      have owes := congrArg (List.map fun result => ((s.threads u).call, result)) moves.owes
      rw [List.map_append, List.map_append] at owes
      rw [follows.owes u, List.append_assoc, owes, List.append_assoc]
    · simp only [step, Function.update_of_ne here, of_append, of_other (Ne.symm here), List.append_nil]
      exact follows.owes u
  · by_cases here : u = t
    · subst here
      simp only [step, Function.update_self, busy, if_true] at rest ⊢
      exact (moves.settled rest).2
    · simp only [step, Function.update_of_ne here, busy, if_true] at rest ⊢
      rw [moves.alike.spareSize]
      exact follows.idle u rest
  · rw [moves.alike.spareSize, follows.sized]

theorem step_idle {s : IndexRace τ} {t : τ} (idle : (s.threads t).busy = false) : s.step (.next t) = s := by
  obtain ⟨pool, threads, accesses, order, returned⟩ := s
  have pc : (threads t).pc = .idle := by simpa [IndexThread.busy] using idle
  simp only at idle
  simp only [step, IndexThread.move, pc, idle, Bool.false_eq_true, if_false, List.map_nil, List.append_nil,
    Function.update_eq_self]

/-- A call starts. -/
theorem Follows.starts {q pool : BucketPool} {spares : Nat → List Nat} {claimed fuel : Nat} {call : IndexCall}
    {s : IndexRace τ} {t : τ} (follows : s.Follows fuel pool q spares claimed) (legal : s.Legal (.start t call)) :
    (s.step (.start t call)).Follows fuel pool q spares claimed := by
  obtain ⟨idle, lawful, alone⟩ := legal
  rw [follows.tracks.alike.mainSize] at lawful
  have agrees : q.Agrees s.pool call.args.main := by
    intro bkt member
    refine follows.apart bkt fun u active => ?_
    exact follows.tracks.chained.disjoint follows.tracks.placed lawful.1 (follows.legal u active).1
      (alone u active) member
  have chain : q.chain call.args.main =
    [] ++ s.pool.mainPtr call.args.main :: (spares call.args.main).map q.sparePtr := by
    rw [follows.tracks.chained.chain_eq lawful.1, follows.tracks.alike.mainPtr]
    rfl
  refine ⟨follows.replays, follows.tracks, follows.booked, fun u v active active' same => ?_, fun u active => ?_,
    fun bkt none => ?_, fun u active => ?_, fun u => ?_, fun u rest => ?_, ?_⟩
  · simp only [step, Function.update_apply] at active active' same
    split at active <;> split at active'
    · rename_i first second
      rw [first, second]
    · rename_i first second
      rw [if_pos first, if_neg second] at same
      exact absurd same.symm (alone v active')
    · rename_i first second
      rw [if_neg first, if_pos second] at same
      exact absurd same (alone u active)
    · rename_i first second
      rw [if_neg first, if_neg second] at same
      exact follows.lone u v active active' same
  · by_cases here : u = t
    · subst here
      simp only [step, Function.update_self]
      exact lawful
    · simp only [step, Function.update_of_ne here] at active ⊢
      exact follows.legal u active
  · refine follows.apart bkt fun u active => ?_
    have away := none u
    by_cases here : u = t
    · subst here
      rw [idle] at active
      cases active
    · simp only [step, Function.update_of_ne here] at away
      exact away active
  · by_cases here : u = t
    · subst here
      simp only [step, Function.update_self]
      exact .slot agrees chain (by decide) (fun p slot => (by cases slot))
        (fun k low => absurd low (Nat.not_lt_zero k))
        (Nat.zero_le _)
    · simp only [step, Function.update_of_ne here] at active ⊢
      exact follows.stage u active
  · have owes := follows.owes u
    by_cases here : u = t
    · subst here
      rw [(follows.idle u idle).1] at owes
      simp only [step, Function.update_self]
      exact owes
    · simp only [step, Function.update_of_ne here]
      exact owes
  · by_cases here : u = t
    · subst here
      simp only [step, Function.update_self]
      exact ⟨rfl, Nat.zero_le _⟩
    · simp only [step, Function.update_of_ne here] at rest ⊢
      exact follows.idle u rest
  · exact follows.sized

theorem Sound.start {pool : BucketPool} {fuel : Nat} (wellFormed : pool.WellFormed)
    (enough : pool.spareSize < fuel) :
    (start pool : IndexRace τ).Sound fuel pool := by
  obtain ⟨placed, spares, claimed, chained⟩ := wellFormed
  refine ⟨pool, spares, claimed, rfl, ⟨placed, chained, .refl pool, ⟨fun k below => ?_, chained.fresh⟩, enough⟩,
    fun _ _ => rfl, fun t u busy => (by cases busy), fun t busy => (by cases busy), fun _ _ => rfl,
    fun t busy => (by cases busy), fun _ => rfl, fun _ _ => ⟨rfl, Nat.zero_le _⟩, rfl⟩
  change (pool.cells (pool.sparePtr k)).version ≠ 0
  rw [chained.claims k below]
  decide

/-- Every step. -/
theorem Sound.step {pool : BucketPool} {fuel : Nat} {s : IndexRace τ} {a : IndexStep τ}
    (sound : s.Sound fuel pool) (legal : s.Legal a) : (s.step a).Sound fuel pool := by
  obtain ⟨q, spares, claimed, follows⟩ := sound
  cases a with
  | start t call => exact ⟨q, spares, claimed, follows.starts legal⟩
  | next t =>
    by_cases busy : (s.threads t).busy = true
    · exact follows.access busy
    · rw [step_idle (by simpa using busy)]
      exact ⟨q, spares, claimed, follows⟩

end IndexRace

end Fkv
