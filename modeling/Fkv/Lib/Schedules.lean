import Mathlib.Data.List.Basic

namespace Schedules

variable {σ α : Type*}

/-- The state after taking the scheduled steps in order. -/
def exec (step : σ → α → σ) (sched : List α) (s : σ) : σ := sched.foldl step s

/-- The property holds in every state of the schedule, first and last included. -/
def Always (step : σ → α → σ) (P : σ → Prop) : List α → σ → Prop
  | [], s => P s
  | a :: rest, s => P s ∧ Always step P rest (step s a)

/-- Every scheduled step meets the condition in the state it is taken in. -/
def Each (step : σ → α → σ) (condition : σ → α → Prop) : List α → σ → Prop
  | [], _ => True
  | a :: rest, s => condition s a ∧ Each step condition rest (step s a)

@[simp] theorem exec_nil {step : σ → α → σ} {s : σ} : exec step [] s = s := rfl

@[simp] theorem exec_cons {step : σ → α → σ} {s : σ} {sched : List α} (a : α) :
    exec step (a :: sched) s = exec step sched (step s a) := rfl

theorem Always.first {step : σ → α → σ} {P : σ → Prop} {s : σ} {sched : List α} (always : Always step P sched s) :
    P s := by
  cases sched with
  | nil => exact always
  | cons => exact always.1

theorem Always.last {step : σ → α → σ} {P : σ → Prop} {s : σ} {sched : List α} (always : Always step P sched s) :
    P (exec step sched s) := by
  induction sched generalizing s with
  | nil => exact always
  | cons a rest ih => exact ih always.2

/-- What every step keeps holds in every state of every schedule. -/
theorem always_of_step {step : σ → α → σ} {P : σ → Prop} {s : σ} {sched : List α}
    (keeps : ∀ s a, P s → P (step s a)) (start : P s) : Always step P sched s := by
  induction sched generalizing s with
  | nil => exact start
  | cons a rest ih => exact ⟨start, ih (keeps s a start)⟩

theorem Always.mono {step : σ → α → σ} {P : σ → Prop} {s : σ} {sched : List α} {Q : σ → Prop}
    (weaker : ∀ s, P s → Q s) (always : Always step P sched s) :
    Always step Q sched s := by
  induction sched generalizing s with
  | nil => exact weaker s always
  | cons a rest ih => exact ⟨weaker s always.1, ih always.2⟩

/-- What every step under a condition keeps holds in every state of a schedule that meets it. -/
theorem always_of_each {step : σ → α → σ} {condition : σ → α → Prop} {Inv P : σ → Prop} {s : σ} {sched : List α}
    (holds : ∀ s, Inv s → P s) (keeps : ∀ s a, Inv s → condition s a → Inv (step s a)) (start : Inv s)
    (each : Each step condition sched s) : Always step P sched s := by
  induction sched generalizing s with
  | nil => exact holds s start
  | cons a rest ih => exact ⟨holds s start, ih (keeps s a start each.1) each.2⟩

/-- Where steps under a condition keep an invariant that implies the property,
and a step outside of it ends the property, the property holds in every state of
a schedule exactly when every step meets the condition. -/
theorem always_iff_each {step : σ → α → σ} {condition : σ → α → Prop} {Inv P : σ → Prop} {s : σ}
    {sched : List α} (holds : ∀ s, Inv s → P s) (keeps : ∀ s a, Inv s → condition s a → Inv (step s a))
    (breaks : ∀ s a, Inv s → P (step s a) → condition s a) (start : Inv s) :
    Always step P sched s ↔ Each step condition sched s := by
  induction sched generalizing s with
  | nil => exact ⟨fun _ => trivial, fun _ => holds s start⟩
  | cons a rest ih =>
    constructor
    · rintro ⟨-, always⟩
      have meets := breaks s a start always.first
      exact ⟨meets, (ih (keeps s a start meets)).mp always⟩
    · rintro ⟨meets, each⟩
      exact ⟨holds s start, (ih (keeps s a start meets)).mpr each⟩

end Schedules
