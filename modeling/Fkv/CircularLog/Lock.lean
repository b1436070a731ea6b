import Fkv.Lib.CWord
import Fkv.Lib.Schedules

namespace Fkv
open CWord Schedules

/-- `v = x->version & (~0x1UL)`. -/
def evenVersion (version : Nat) : Nat := version &&& 0xFFFFFFFFFFFFFFFE

/-- `vv = version | 0x1UL`. -/
def oddVersion (version : Nat) : Nat := version ||| 1

/-- Where a thread is: about to load the version, about to swap with the value
it loaded, or between leaving the lock loop and its unlock. -/
inductive LockPc
  | load
  | swap (version : Nat)
  | critical
  deriving DecidableEq, Repr

/-- One bucket's version and the threads that lock it. `holder` remembers whose
successful swap made the version odd, until an unlock undoes that. -/
structure LockState (τ : Type*) where
  version : Nat
  pc : τ → LockPc
  holder : Option τ

variable {τ : Type*}

/-- The next step of thread `t`. The loop of `OPTIMISTIC_LOCK` goes on while the
swap succeeds, and its body starts with a load again. -/
def lockStep [DecidableEq τ] (s : LockState τ) (t : τ) : LockState τ :=
  match s.pc t with
  | .load => { s with pc := Function.update s.pc t (.swap (evenVersion s.version)) }
  | .swap v =>
    if s.version = v then
      { version := oddVersion v, pc := Function.update s.pc t .load, holder := some t }
    else { s with pc := Function.update s.pc t .critical }
  | .critical =>
    { version := (s.version + 1) % 2 ^ 32, pc := Function.update s.pc t .load, holder := none }

def LockState.initial (version : Nat) : LockState τ := ⟨version, fun _ => .load, none⟩

/-- One thread at most is inside, it is there with a swap of its own, and the
version is even whenever nobody is. -/
structure LockState.Exclusive (s : LockState τ) : Prop where
  one : ∀ t u, s.pc t = .critical → s.pc u = .critical → t = u
  own : ∀ t, s.pc t = .critical → s.holder = some t
  even : (∀ t, s.pc t ≠ .critical) → s.version % 2 = 0

/-- The same with a thread counted inside from its swap on. -/
structure LockState.Guarded (s : LockState τ) : Prop where
  one : ∀ t u, s.pc t = .critical → s.pc u = .critical → t = u
  own : ∀ t, s.pc t = .critical → s.holder = some t
  even : s.holder = none → s.version % 2 = 0

/-- The step of `t` is no swap. -/
def LockState.NoSwap (s : LockState τ) (t : τ) : Prop := ∀ v, s.pc t ≠ .swap v

/-- If the step of `t` is a swap, the version is what it loaded, unless the
change is its own. -/
def LockState.Undisturbed (s : LockState τ) (t : τ) : Prop :=
  ∀ v, s.pc t = .swap v → s.holder = some t ∨ s.version = v

/-- What holds until the first swap. -/
structure LockState.Quiet (s : LockState τ) : Prop where
  outside : ∀ t, s.pc t ≠ .critical
  loaded : ∀ t v, s.pc t = .swap v → v = s.version
  even : s.version % 2 = 0
  bound : s.version < 2 ^ 32

/-- What holds while all swaps are undisturbed. -/
structure LockState.Orderly (s : LockState τ) : Prop where
  own : ∀ t, s.pc t = .critical → s.holder = some t
  loaded : ∀ t v, s.pc t = .swap v → v % 2 = 0
  parity : s.version % 2 = if s.holder = none then 0 else 1
  bound : s.version < 2 ^ 32

theorem evenVersion_eq {v : Nat} (bound : v < 2 ^ 32) : evenVersion v = v / 2 * 2 := and_even64 (by omega)

theorem oddVersion_even {v : Nat} (even : v % 2 = 0) : oddVersion v = v + 1 := by
  obtain ⟨w, rfl⟩ : ∃ w, v = 2 * w := ⟨v / 2, by omega⟩
  exact (Nat.two_pow_add_eq_or_of_lt (i := 1) (b := 1) (by decide) w).symm

theorem LockState.Quiet.exclusive {s : LockState τ} (quiet : s.Quiet) : s.Exclusive :=
  ⟨fun t _ inside => absurd inside (quiet.outside t), fun t inside => absurd inside (quiet.outside t),
    fun _ => quiet.even⟩

theorem LockState.Orderly.guarded {s : LockState τ} (orderly : s.Orderly) : s.Guarded := by
  refine ⟨fun t u first second => ?_, orderly.own, fun free => ?_⟩
  · exact Option.some.inj ((orderly.own t first).symm.trans (orderly.own u second))
  · simpa [free] using orderly.parity

variable [DecidableEq τ]

/-- Another thread's place is not changed by a step. -/
theorem lockStep_other {s : LockState τ} {t u : τ} (different : u ≠ t) : (lockStep s t).pc u = s.pc u := by
  unfold lockStep
  split
  · exact Function.update_of_ne different _ _
  · split <;> exact Function.update_of_ne different _ _
  · exact Function.update_of_ne different _ _

/-- Until the first swap only loads happen, and they load the version itself. -/
theorem LockState.Quiet.step {s : LockState τ} {t : τ} (quiet : s.Quiet) (noSwap : s.NoSwap t) :
    (lockStep s t).Quiet := by
  cases place : s.pc t with
  | load =>
    have stepped : lockStep s t = { s with pc := Function.update s.pc t (.swap (evenVersion s.version)) } := by
      simp [lockStep, place]
    have same : evenVersion s.version = s.version := by
      rw [evenVersion_eq quiet.bound]
      have even := quiet.even
      omega
    rw [stepped, same]
    refine ⟨fun u => ?_, fun u v loaded => ?_, quiet.even, quiet.bound⟩
    · by_cases here : u = t
      · subst here
        simp
      · simpa [Function.update_of_ne here] using quiet.outside u
    · by_cases here : u = t
      · subst here
        simpa using loaded.symm
      · exact quiet.loaded u v (by simpa [Function.update_of_ne here] using loaded)
  | swap v => exact absurd place (noSwap v)
  | critical => exact absurd place (quiet.outside t)

/-- The first swap succeeds, and its thread goes round the loop again. -/
theorem LockState.Quiet.swap {s : LockState τ} {t : τ} (quiet : s.Quiet) (swaps : ¬ s.NoSwap t) :
    ¬ (lockStep s t).Exclusive := by
  obtain ⟨v, place⟩ : ∃ v, s.pc t = .swap v := by simpa [LockState.NoSwap] using swaps
  have loaded := quiet.loaded t v place
  have even := quiet.even
  have stepped : lockStep s t =
      { version := oddVersion s.version, pc := Function.update s.pc t .load, holder := some t } := by
    simp [lockStep, place, loaded]
  intro exclusive
  have outside : ∀ u, (lockStep s t).pc u ≠ .critical := by
    intro u
    by_cases here : u = t
    · subst here
      simp [stepped]
    · rw [lockStep_other here]
      exact quiet.outside u
  have odd := exclusive.even outside
  rw [stepped] at odd
  simp only [oddVersion_even even] at odd
  omega

/-- Undisturbed swaps keep the version odd exactly while a thread holds it. -/
theorem LockState.Orderly.step {s : LockState τ} {t : τ} (orderly : s.Orderly) (undisturbed : s.Undisturbed t) :
    (lockStep s t).Orderly := by
  have bound := orderly.bound
  have parity := orderly.parity
  cases place : s.pc t with
  | load =>
    have stepped : lockStep s t = { s with pc := Function.update s.pc t (.swap (evenVersion s.version)) } := by
      simp [lockStep, place]
    rw [stepped]
    refine ⟨fun u inside => ?_, fun u v loaded => ?_, parity, bound⟩
    · by_cases here : u = t
      · subst here
        simp at inside
      · exact orderly.own u (by simpa [Function.update_of_ne here] using inside)
    · by_cases here : u = t
      · subst here
        obtain rfl : evenVersion s.version = v := by simpa using loaded
        rw [evenVersion_eq bound]
        omega
      · exact orderly.loaded u v (by simpa [Function.update_of_ne here] using loaded)
  | swap v =>
    have even := orderly.loaded t v place
    by_cases same : s.version = v
    · have stepped : lockStep s t =
          { version := oddVersion v, pc := Function.update s.pc t .load, holder := some t } := by
        simp [lockStep, place, same]
      have free : s.holder = none := by
        by_contra held
        rw [if_neg held, same] at parity
        omega
      rw [stepped, oddVersion_even even]
      refine ⟨fun u inside => ?_, fun u w loaded => ?_, ?_, by simp only; omega⟩
      · have other : u ≠ t := by
          rintro rfl
          simp at inside
        have held := orderly.own u (by simpa [Function.update_of_ne other] using inside)
        cases free.symm.trans held
      · have other : u ≠ t := by
          rintro rfl
          simp at loaded
        exact orderly.loaded u w (by simpa [Function.update_of_ne other] using loaded)
      · simp only [reduceCtorEq, if_false]
        omega
    · have stepped : lockStep s t = { s with pc := Function.update s.pc t .critical } := by
        simp [lockStep, place, same]
      have held : s.holder = some t := (undisturbed v place).resolve_right same
      rw [stepped]
      refine ⟨fun u inside => ?_, fun u w loaded => ?_, parity, bound⟩
      · by_cases here : u = t
        · rw [here]
          exact held
        · exact orderly.own u (by simpa [Function.update_of_ne here] using inside)
      · have other : u ≠ t := by
          rintro rfl
          simp at loaded
        exact orderly.loaded u w (by simpa [Function.update_of_ne other] using loaded)
  | critical =>
    have held := orderly.own t place
    have stepped : lockStep s t =
        { version := (s.version + 1) % 2 ^ 32, pc := Function.update s.pc t .load, holder := none } := by
      simp [lockStep, place]
    rw [stepped]
    rw [held, if_neg (by simp)] at parity
    refine ⟨fun u inside => ?_, fun u w loaded => ?_, ?_, by simp only; omega⟩
    · have other : u ≠ t := by
        rintro rfl
        simp at inside
      have held' := orderly.own u (by simpa [Function.update_of_ne other] using inside)
      exact absurd (Option.some.inj (held'.symm.trans held)) other
    · have other : u ≠ t := by
        rintro rfl
        simp at loaded
      exact orderly.loaded u w (by simpa [Function.update_of_ne other] using loaded)
    · simp only [if_true]
      omega

/-- A disturbed swap lets its thread in without a swap of its own. -/
theorem LockState.disturbed {s : LockState τ} {t : τ} (disturbs : ¬ s.Undisturbed t) :
    ¬ (lockStep s t).Guarded := by
  obtain ⟨v, place, foreign, moved⟩ : ∃ v, s.pc t = .swap v ∧ s.holder ≠ some t ∧ s.version ≠ v := by
    simpa [LockState.Undisturbed] using disturbs
  have stepped : lockStep s t = { s with pc := Function.update s.pc t .critical } := by
    simp [lockStep, place, moved]
  intro guarded
  have held := guarded.own t (by simp [stepped])
  rw [stepped] at held
  exact foreign held

/-- Locking is exclusive in every state of a schedule exactly when the schedule
has no swap in it. With a thread counted inside from its swap on, it is exclusive
exactly when no swap finds the version changed by another thread. -/
theorem lock_exclusive_iff (version : Nat) (sched : List τ) (even : version % 2 = 0) (bound : version < 2 ^ 32) :
    (Always lockStep LockState.Exclusive sched (LockState.initial version) ↔
      Each lockStep LockState.NoSwap sched (LockState.initial version)) ∧
    (Always lockStep LockState.Guarded sched (LockState.initial version) ↔
      Each lockStep LockState.Undisturbed sched (LockState.initial version)) := by
  have quiet : (LockState.initial version : LockState τ).Quiet :=
    ⟨by simp [LockState.initial], by simp [LockState.initial], even, bound⟩
  have orderly : (LockState.initial version : LockState τ).Orderly :=
    ⟨by simp [LockState.initial], by simp [LockState.initial], by simpa [LockState.initial] using even, bound⟩
  constructor
  · exact always_iff_each (fun s => LockState.Quiet.exclusive) (fun s t => LockState.Quiet.step)
      (fun s t quiet => not_imp_not.mp quiet.swap) quiet
  · exact always_iff_each (fun s => LockState.Orderly.guarded) (fun s t => LockState.Orderly.step)
      (fun s t _ => not_imp_not.mp LockState.disturbed) orderly

/-- One thread locks and unlocks, and then another. -/
def takingTurns : List Bool := [true, true, true, true, true, false, false, false, false, false]

theorem lock_exclusive_iff_turns :
    Always lockStep LockState.Guarded takingTurns (LockState.initial 0) ∧
      ¬ Always lockStep LockState.Exclusive takingTurns (LockState.initial 0) := by
  obtain ⟨quiet, guarded⟩ := lock_exclusive_iff 0 takingTurns (by decide) (by decide)
  refine ⟨guarded.mpr ?_, fun always => ?_⟩
  · simp [Each, takingTurns, LockState.Undisturbed, LockState.initial, lockStep, evenVersion, oddVersion]
  · exact (quiet.mp always).2.1 0 (by decide)

/-- Two threads load the same version. The second swap fails because the first
succeeded, so the second thread is inside; the first joins it in its next round. -/
theorem lock_admits_both :
    ¬ Always lockStep LockState.Exclusive [true, false, true, false, true, true] (LockState.initial 0) := by
  intro always
  have both := always.last.one true false (by decide) (by decide)
  cases both

end Fkv
