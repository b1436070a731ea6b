import Mathlib.Data.List.Nodup
import Fkv.Bucket.Model
import Fkv.Lib.Schedules

namespace Fkv
open Schedules

/-- Where a thread is: outside, about to read the version of the spare the loop
has come to, or about to swap that version from 0 to 2. -/
inductive ClaimPc
  | idle
  | read (i : Nat)
  | swap (i : Nat)
  deriving DecidableEq, Repr

/-- The threads inside `next_empty_spare_bucket`. `returned` remembers what the
finished calls have returned, the latest first. -/
structure ClaimState (τ : Type*) where
  pool : BucketPool
  pc : τ → ClaimPc
  returned : List (τ × Option Nat)

/-- A thread takes its next step, or somebody writes a bucket. No write but the
swap changes the version of a spare. -/
inductive ClaimStep (τ : Type*)
  | next (t : τ)
  | write (bkt : Nat) (b : Bucket)

variable {τ : Type*}

def BucketPool.IsSpare (pool : BucketPool) (bkt : Nat) : Prop := ∃ i < pool.spareSize, bkt = pool.sparePtr i

instance (pool : BucketPool) (bkt : Nat) : Decidable (pool.IsSpare bkt) :=
  inferInstanceAs (Decidable (∃ i < pool.spareSize, bkt = pool.sparePtr i))

def ClaimState.moveTo [DecidableEq τ] (s : ClaimState τ) (t : τ) (pc : ClaimPc) : ClaimState τ :=
  { s with pc := Function.update s.pc t pc }

def ClaimState.finish [DecidableEq τ] (s : ClaimState τ) (t : τ) (result : Option Nat) : ClaimState τ :=
  { s with pc := Function.update s.pc t .idle, returned := (t, result) :: s.returned }

def ClaimState.claim (s : ClaimState τ) (i : Nat) : ClaimState τ :=
  { s with pool := s.pool.setVersion (s.pool.sparePtr i) 2 }

def ClaimState.write (s : ClaimState τ) (bkt : Nat) (b : Bucket) : ClaimState τ :=
  let kept := if s.pool.IsSpare bkt then { b with version := (s.pool.cells bkt).version } else b
  { s with pool := s.pool.setCell bkt kept }

def claimStep [DecidableEq τ] (s : ClaimState τ) : ClaimStep τ → ClaimState τ
  | .next t =>
    match s.pc t with
    | .idle => s.moveTo t (.read 0)
    | .read i =>
      if i < s.pool.spareSize then
        if (s.pool.cells (s.pool.sparePtr i)).version ≠ 0 then s.moveTo t (.read (i + 1)) else s.moveTo t (.swap i)
      else s.finish t none
    | .swap i =>
      if (s.pool.cells (s.pool.sparePtr i)).version = 0 then (s.claim i).finish t (some (s.pool.sparePtr i))
      else s.moveTo t (.read (i + 1))
  | .write bkt b => s.write bkt b

def ClaimState.initial (pool : BucketPool) : ClaimState τ := ⟨pool, fun _ => .idle, []⟩

/-- The spares returned so far, one item for each call. -/
def ClaimState.claims (s : ClaimState τ) : List Nat := s.returned.filterMap Prod.snd

/-- No spare is returned twice, each that is not unclaimed was returned by one
call, and a call has returned NULL only when all were. -/
structure ClaimState.Exclusive (s : ClaimState τ) : Prop where
  once : s.claims.Nodup
  claimed : ∀ i < s.pool.spareSize, (s.pool.cells (s.pool.sparePtr i)).version ≠ 0 →
    s.claims.count (s.pool.sparePtr i) = 1
  exhausted : ∀ t, (t, none) ∈ s.returned → ∀ i < s.pool.spareSize, s.pool.sparePtr i ∈ s.claims

/-- Claimed spares stay claimed, and a scan has passed claimed ones only. -/
structure ClaimState.Inv (s : ClaimState τ) : Prop where
  once : s.claims.Nodup
  claimed : ∀ i < s.pool.spareSize, (s.pool.cells (s.pool.sparePtr i)).version ≠ 0 ↔ s.pool.sparePtr i ∈ s.claims
  passed : ∀ t i, s.pc t = .read i ∨ s.pc t = .swap i → ∀ j < i, j < s.pool.spareSize →
    s.pool.sparePtr j ∈ s.claims
  within : ∀ t i, s.pc t = .swap i → i < s.pool.spareSize
  exhausted : ∀ t, (t, none) ∈ s.returned → ∀ i < s.pool.spareSize, s.pool.sparePtr i ∈ s.claims

theorem ClaimState.Inv.exclusive {s : ClaimState τ} (inv : s.Inv) : s.Exclusive :=
  ⟨inv.once, fun i inside moved => List.count_eq_one_of_mem inv.once ((inv.claimed i inside).mp moved),
    inv.exhausted⟩

theorem ClaimState.Inv.initial {pool : BucketPool}
    (fresh : ∀ i < pool.spareSize, (pool.cells (pool.sparePtr i)).version = 0) :
    (ClaimState.initial pool : ClaimState τ).Inv := by
  refine ⟨by simp [ClaimState.initial, ClaimState.claims], fun i inside => ?_, ?_, ?_, ?_⟩
  · simpa [ClaimState.initial, ClaimState.claims] using fresh i inside
  all_goals simp [ClaimState.initial]

/-- Somebody else's write leaves the versions of the spares alone. -/
theorem ClaimState.write_version {s : ClaimState τ} {i : Nat} (inside : i < s.pool.spareSize) (bkt : Nat)
    (b : Bucket) :
    ((s.write bkt b).pool.cells (s.pool.sparePtr i)).version = (s.pool.cells (s.pool.sparePtr i)).version := by
  unfold ClaimState.write BucketPool.setCell
  by_cases here : s.pool.sparePtr i = bkt
  · have spare : s.pool.IsSpare bkt := ⟨i, inside, here.symm⟩
    simp [here, spare]
  · simp [Function.update_of_ne here]

theorem ClaimState.Inv.write {s : ClaimState τ} (inv : s.Inv) (bkt : Nat) (b : Bucket) : (s.write bkt b).Inv := by
  refine ⟨inv.once, fun i inside => ?_, inv.passed, inv.within, inv.exhausted⟩
  change ((s.write bkt b).pool.cells (s.pool.sparePtr i)).version ≠ 0 ↔ _
  rw [ClaimState.write_version (s := s) inside bkt b]
  exact inv.claimed i inside

variable [DecidableEq τ]

theorem ClaimState.Inv.moveTo {s : ClaimState τ} {t : τ} (inv : s.Inv) {pc : ClaimPc}
    (passed : ∀ i, pc = .read i ∨ pc = .swap i → ∀ j < i, j < s.pool.spareSize → s.pool.sparePtr j ∈ s.claims)
    (within : ∀ i, pc = .swap i → i < s.pool.spareSize) : (s.moveTo t pc).Inv := by
  refine ⟨inv.once, inv.claimed, fun u i place => ?_, fun u i place => ?_, inv.exhausted⟩
  · by_cases here : u = t
    · subst here
      exact passed i (by simpa [ClaimState.moveTo] using place)
    · exact inv.passed u i (by simpa [ClaimState.moveTo, Function.update_of_ne here] using place)
  · by_cases here : u = t
    · subst here
      exact within i (by simpa [ClaimState.moveTo] using place)
    · exact inv.within u i (by simpa [ClaimState.moveTo, Function.update_of_ne here] using place)

/-- A scan that has passed every spare returns NULL. -/
theorem ClaimState.Inv.finish_none {s : ClaimState τ} {t : τ} (inv : s.Inv)
    (all : ∀ i < s.pool.spareSize, s.pool.sparePtr i ∈ s.claims) :
    (s.finish t none).Inv := by
  have same : (s.finish t none).claims = s.claims := by simp [ClaimState.finish, ClaimState.claims]
  have moved : (s.moveTo t .idle).Inv := inv.moveTo (by simp) (by simp)
  refine ⟨same ▸ moved.once, fun i inside => ?_, fun u i place j before inside => ?_, moved.within,
    fun u _ i inside => ?_⟩
  · rw [same]
    exact moved.claimed i inside
  · rw [same]
    exact moved.passed u i place j before inside
  · rw [same]
    exact all i inside

/-- A successful swap claims a spare that no call has returned. -/
theorem ClaimState.Inv.finish_some {s : ClaimState τ} {t : τ} {i : Nat} (inv : s.Inv)
    (inside : i < s.pool.spareSize) (free : (s.pool.cells (s.pool.sparePtr i)).version = 0) :
    ((s.claim i).finish t (some (s.pool.sparePtr i))).Inv := by
  have grown : ((s.claim i).finish t (some (s.pool.sparePtr i))).claims = s.pool.sparePtr i :: s.claims := by
    simp [ClaimState.finish, ClaimState.claim, ClaimState.claims]
  have unclaimed : s.pool.sparePtr i ∉ s.claims := fun member => (inv.claimed i inside).mpr member free
  have moved : (s.moveTo t .idle).Inv := inv.moveTo (by simp) (by simp)
  refine ⟨?_, fun j below => ?_, fun u k place j before below => ?_, moved.within, fun u member j below => ?_⟩
  · rw [grown]
    exact List.nodup_cons.mpr ⟨unclaimed, inv.once⟩
  · rw [grown, List.mem_cons]
    change (Function.update s.pool.cells (s.pool.sparePtr i) _ (s.pool.sparePtr j)).version ≠ 0 ↔
      s.pool.sparePtr j = s.pool.sparePtr i ∨ s.pool.sparePtr j ∈ s.claims
    rw [BucketPool.sparePtr_inj]
    by_cases here : j = i
    · subst here
      simp
    · have apart : s.pool.sparePtr j ≠ s.pool.sparePtr i := fun same => here (BucketPool.sparePtr_inj.mp same)
      rw [Function.update_of_ne apart]
      exact (inv.claimed j below).trans (by simp [here])
  · rw [grown]
    exact List.mem_cons_of_mem _ (moved.passed u k place j before below)
  · rw [grown]
    have earlier : (u, none) ∈ s.returned := by simpa [ClaimState.finish, ClaimState.claim] using member
    exact List.mem_cons_of_mem _ (inv.exhausted u earlier j below)

/-- Every step keeps the invariant, whatever the other threads have done since
the version was read. -/
theorem ClaimState.Inv.step {s : ClaimState τ} (inv : s.Inv) (a : ClaimStep τ) : (claimStep s a).Inv := by
  cases a with
  | write bkt b => exact inv.write bkt b
  | next t =>
    simp only [claimStep]
    cases place : s.pc t with
    | idle => exact inv.moveTo (by simp) (by simp)
    | read i =>
      have passed := inv.passed t i (.inl place)
      simp only
      split
      · rename_i inside
        split
        · rename_i moved
          refine inv.moveTo (fun k next j before below => ?_) (by simp)
          obtain rfl : i + 1 = k := by simpa using next
          rcases Nat.lt_succ_iff_lt_or_eq.mp before with earlier | rfl
          · exact passed j earlier below
          · exact (inv.claimed j inside).mp moved
        · refine inv.moveTo (fun k next j before below => ?_) (fun k next => ?_)
          · obtain rfl : i = k := by simpa using next
            exact passed j before below
          · obtain rfl : i = k := by simpa using next
            exact inside
      · rename_i outside
        exact inv.finish_none fun j below => passed j (by omega) below
    | swap i =>
      have inside := inv.within t i place
      simp only
      split
      · rename_i free
        exact inv.finish_some inside free
      · rename_i lost
        refine inv.moveTo (fun k next j before below => ?_) (by simp)
        obtain rfl : i + 1 = k := by simpa using next
        rcases Nat.lt_succ_iff_lt_or_eq.mp before with earlier | rfl
        · exact inv.passed t i (.inr place) j earlier below
        · exact (inv.claimed j inside).mp lost

/-- In every state of every schedule each claimed spare was returned by one call,
and NULL only after all were. -/
theorem spares_claimed_once (pool : BucketPool) (sched : List (ClaimStep τ))
    (fresh : ∀ i < pool.spareSize, (pool.cells (pool.sparePtr i)).version = 0) :
    Always claimStep ClaimState.Exclusive sched (ClaimState.initial pool) :=
  (always_of_step (fun _ a inv => inv.step a) (ClaimState.Inv.initial fresh)).mono
    fun _ => ClaimState.Inv.exclusive

theorem spares_claimed_once_created :
    Always claimStep ClaimState.Exclusive
      [.next true, .next false, .next true, .next false, .next true, .next false]
      (ClaimState.initial (createBucketPool 4096 1 1)) :=
  spares_claimed_once (createBucketPool 4096 1 1) _ fun _ _ => rfl

/-- A thread that is left alone scans as the sequential loop does. -/
theorem exec_scan (n i : Nat) (s : ClaimState τ) (t : τ) (place : s.pc t = .read i)
    (rest : i + n = s.pool.spareSize) :
    ∃ steps, (exec claimStep (List.replicate steps (.next t)) s).pool = (nextEmptySpareLoop s.pool i n).2 ∧
      (exec claimStep (List.replicate steps (.next t)) s).returned =
        (t, (nextEmptySpareLoop s.pool i n).1) :: s.returned := by
  induction n generalizing s i with
  | zero =>
    have stepped : claimStep s (.next t) = s.finish t none := by
      simp only [claimStep, place]
      rw [if_neg (by omega)]
    exact ⟨1, by simp [stepped, nextEmptySpareLoop, ClaimState.finish]⟩
  | succ n ih =>
    have inside : i < s.pool.spareSize := by omega
    by_cases free : (s.pool.cells (s.pool.sparePtr i)).version = 0
    · have first : claimStep s (.next t) = s.moveTo t (.swap i) := by
        simp [claimStep, place, inside, free]
      have second : claimStep (s.moveTo t (.swap i)) (.next t) =
          ((s.moveTo t (.swap i)).claim i).finish t (some (s.pool.sparePtr i)) := by
        simp [claimStep, ClaimState.moveTo, free]
      refine ⟨2, ?_⟩
      simp only [List.replicate, exec_cons, exec_nil, first, second, nextEmptySpareLoop, free, ne_eq,
        not_true_eq_false, if_false]
      exact ⟨rfl, rfl⟩
    · have stepped : claimStep s (.next t) = s.moveTo t (.read (i + 1)) := by
        simp [claimStep, place, inside, free]
      obtain ⟨steps, pool, returned⟩ := ih (i + 1) (s.moveTo t (.read (i + 1))) (by simp [ClaimState.moveTo])
        (by simp only [ClaimState.moveTo]; omega)
      refine ⟨steps + 1, ?_, ?_⟩
      · rw [List.replicate_succ, exec_cons, stepped, pool, nextEmptySpareLoop, if_pos free]
        rfl
      · rw [List.replicate_succ, exec_cons, stepped, returned, nextEmptySpareLoop, if_pos free]
        rfl

/-- A call of one thread alone is `next_empty_spare_bucket` of the model. -/
theorem exec_nextEmptySpareBucket (s : ClaimState τ) (t : τ) (place : s.pc t = .idle) :
    ∃ steps, (exec claimStep (List.replicate steps (.next t)) s).pool = (nextEmptySpareBucket s.pool).2 ∧
      (exec claimStep (List.replicate steps (.next t)) s).returned =
        (t, (nextEmptySpareBucket s.pool).1) :: s.returned := by
  have stepped : claimStep s (.next t) = s.moveTo t (.read 0) := by
    simp [claimStep, place]
  obtain ⟨steps, pool, returned⟩ := exec_scan s.pool.spareSize 0 (s.moveTo t (.read 0)) t
    (by simp [ClaimState.moveTo]) (by simp [ClaimState.moveTo])
  refine ⟨steps + 1, ?_, ?_⟩
  · rw [List.replicate_succ, exec_cons, stepped, pool]
    rfl
  · rw [List.replicate_succ, exec_cons, stepped, returned]
    rfl

end Fkv
