import Mathlib.Data.List.Basic

namespace Runs

universe u v
variable {ε α β σ : Type*}

section Bind
variable {ε : Type v} {α β : Type u}

-- Not by rfl: the kernel would have to unfold the rest of the computation to check each use.
theorem ok_bind (a : α) (f : α → Except ε β) : (Except.ok a >>= f) = f a := by
  simp only [bind, Except.bind]

theorem error_bind (e : ε) (f : α → Except ε β) : (Except.error e >>= f) = .error e := by
  simp only [bind, Except.bind]

/-- A sequence succeeds exactly when both of its halves do. -/
theorem bind_eq_ok {x : Except ε α} {f : α → Except ε β} {b : β} :
    (x >>= f) = .ok b ↔ ∃ a, x = .ok a ∧ f a = .ok b := by
  cases x with
  | error e => simp [error_bind]
  | ok a => simp [ok_bind]

theorem isOk_iff {x : Except ε α} : x.isOk = true ↔ ∃ a, x = .ok a := by
  cases x <;> simp [Except.isOk, Except.toBool]

end Bind

/-- Performing a sequence of actions, up to the first that fails. -/
def run (step : σ → α → Except ε σ) (acts : List α) (s : σ) : Except ε σ := acts.foldlM step s

/-- Every action meets its condition in the state it is performed in. -/
def Meets (step : σ → α → Except ε σ) (condition : σ → α → Prop) : List α → σ → Prop
  | [], _ => True
  | a :: rest, s => condition s a ∧ ∀ s', step s a = .ok s' → Meets step condition rest s'

/-- Every action succeeds, and the property holds before and after each. -/
def Throughout (step : σ → α → Except ε σ) (P : σ → Prop) : List α → σ → Prop
  | [], s => P s
  | a :: rest, s => P s ∧ ∃ s', step s a = .ok s' ∧ Throughout step P rest s'

@[simp] theorem run_nil {step : σ → α → Except ε σ} {s : σ} : run step [] s = .ok s := rfl

theorem run_cons {step : σ → α → Except ε σ} {s s' : σ} {a : α} {acts : List α} (first : step s a = .ok s') :
    run step (a :: acts) s = run step acts s' := by
  rw [run, List.foldlM_cons, first, ok_bind, run]

theorem run_cons_error {step : σ → α → Except ε σ} {s : σ} {a : α} {acts : List α} {e : ε}
    (failed : step s a = .error e) : run step (a :: acts) s = .error e := by
  rw [run, List.foldlM_cons, failed, error_bind]

theorem run_cons_ok {step : σ → α → Except ε σ} {s s' : σ} {a : α} {acts : List α} :
    run step (a :: acts) s = .ok s' ↔ ∃ t, step s a = .ok t ∧ run step acts t = .ok s' := by
  rw [run, List.foldlM_cons, bind_eq_ok]
  rfl

theorem run_append {step : σ → α → Except ε σ} {s s' : σ} {acts more : List α} (done : run step acts s = .ok s') :
    run step (acts ++ more) s = run step more s' := by
  rw [run] at done
  rw [run, List.foldlM_append, done, ok_bind, run]

theorem run_append_error {step : σ → α → Except ε σ} {s : σ} {acts more : List α} {e : ε}
    (failed : run step acts s = .error e) : run step (acts ++ more) s = .error e := by
  rw [run] at failed
  rw [run, List.foldlM_append, failed, error_bind]

theorem run_stays {step : σ → α → Except ε σ} {s : σ} {acts : List α} (stays : ∀ a ∈ acts, step s a = .ok s) :
    run step acts s = .ok s := by
  induction acts with
  | nil => rfl
  | cons a acts ih =>
    rw [run_cons (stays a List.mem_cons_self)]
    exact ih fun b member => stays b (List.mem_cons_of_mem a member)

/-- What every action keeps holds after a run. -/
theorem run_keeps {step : σ → α → Except ε σ} {P : σ → Prop} {s s' : σ} {acts : List α}
    (keeps : ∀ s a s', P s → step s a = .ok s' → P s') (start : P s) (done : run step acts s = .ok s') :
    P s' := by
  induction acts generalizing s with
  | nil =>
    cases done
    exact start
  | cons a acts ih =>
    obtain ⟨t, first, rest⟩ := run_cons_ok.mp done
    exact ih (keeps s a t start first) rest

theorem Meets.cons {step : σ → α → Except ε σ} {condition : σ → α → Prop} {s s' : σ} {a : α} {acts : List α}
    (holds : condition s a) (first : step s a = .ok s') (rest : Meets step condition acts s') :
    Meets step condition (a :: acts) s := by
  refine ⟨holds, fun t again => ?_⟩
  cases first.symm.trans again
  exact rest

theorem Meets.append {step : σ → α → Except ε σ} {condition : σ → α → Prop} {s : σ} {acts more : List α}
    (first : Meets step condition acts s) (rest : ∀ s', run step acts s = .ok s' → Meets step condition more s') :
    Meets step condition (acts ++ more) s := by
  induction acts generalizing s with
  | nil => exact rest s rfl
  | cons a acts ih =>
    exact ⟨first.1, fun t done => ih (first.2 t done) fun s' later => rest s' (by rw [run_cons done, later])⟩

theorem Meets.and {step : σ → α → Except ε σ} {legal condition : σ → α → Prop} {s : σ} {acts : List α}
    (first : Meets step legal acts s) (second : Meets step condition acts s) :
    Meets step (fun s a => legal s a ∧ condition s a) acts s := by
  induction acts generalizing s with
  | nil => trivial
  | cons a acts ih => exact ⟨⟨first.1, second.1⟩, fun s' done => ih (first.2 s' done) (second.2 s' done)⟩

/-- Where legal actions keep a property and succeed exactly under a condition,
legal runs are safe throughout exactly when they meet the condition. -/
theorem throughout_iff_meets {step : σ → α → Except ε σ} {legal condition : σ → α → Prop} {P : σ → Prop} {s : σ}
    {acts : List α} (keeps : ∀ s a s', P s → legal s a → step s a = .ok s' → P s')
    (succeeds : ∀ s a, P s → legal s a → ((∃ s', step s a = .ok s') ↔ condition s a)) (start : P s)
    (lawful : Meets step legal acts s) : Throughout step P acts s ↔ Meets step condition acts s := by
  induction acts generalizing s with
  | nil => simp [Throughout, Meets, start]
  | cons a acts ih =>
    simp only [Throughout, Meets, start, true_and]
    constructor
    · rintro ⟨s', first, rest⟩
      refine ⟨(succeeds s a start lawful.1).mp ⟨s', first⟩, ?_⟩
      intro t again
      cases first.symm.trans again
      exact (ih (keeps s a s' start lawful.1 first) (lawful.2 s' first)).mp rest
    · rintro ⟨holds, rest⟩
      obtain ⟨s', first⟩ := (succeeds s a start lawful.1).mpr holds
      exact ⟨s', first, (ih (keeps s a s' start lawful.1 first) (lawful.2 s' first)).mpr (rest s' first)⟩

/-- A run meets what its actions meet in every state. -/
theorem meets_of_forall {step : σ → α → Except ε σ} {condition : σ → α → Prop} {s : σ} {acts : List α}
    (all : ∀ a ∈ acts, ∀ s, condition s a) : Meets step condition acts s := by
  induction acts generalizing s with
  | nil => trivial
  | cons a acts ih =>
    exact ⟨all a (by simp) s, fun s' _ => ih fun b member => all b (List.mem_cons_of_mem a member)⟩

/-- What an invariant that legal actions keep implies holds throughout. -/
theorem throughout_of_inv {step : σ → α → Except ε σ} {legal : σ → α → Prop} {P : σ → Prop} {s s' : σ}
    {acts : List α} {Inv : σ → Prop} (keeps : ∀ s a s', Inv s → legal s a → step s a = .ok s' → Inv s')
    (gives : ∀ s, Inv s → P s) (inv : Inv s) (lawful : Meets step legal acts s)
    (done : run step acts s = .ok s') :
    Throughout step P acts s := by
  induction acts generalizing s with
  | nil => exact gives s inv
  | cons a acts ih =>
    obtain ⟨t, first, rest⟩ := run_cons_ok.mp done
    exact ⟨gives s inv, t, first, ih (keeps s a t inv lawful.1 first) (lawful.2 t first) rest⟩

/-- Where legal actions succeed from an invariant and keep it, what it implies holds
throughout every legal run. -/
theorem throughout_of_total {step : σ → α → Except ε σ} {legal : σ → α → Prop} {P : σ → Prop} {s : σ}
    {acts : List α} {Inv : σ → Prop} (advances : ∀ s a, Inv s → legal s a → ∃ s', step s a = .ok s' ∧ Inv s')
    (gives : ∀ s, Inv s → P s) (inv : Inv s) (lawful : Meets step legal acts s) : Throughout step P acts s := by
  induction acts generalizing s with
  | nil => exact gives s inv
  | cons a acts ih =>
    obtain ⟨s', first, kept⟩ := advances s a inv lawful.1
    exact ⟨gives s inv, s', first, ih kept (lawful.2 s' first)⟩

/-- Where legal actions keep an invariant, and the property exactly under a
condition, the property holds throughout a completed legal run exactly when the
run meets the condition. -/
theorem inv_iff_meets {step : σ → α → Except ε σ} {legal condition : σ → α → Prop} {P : σ → Prop} {s s' : σ}
    {acts : List α} {Inv : σ → Prop} (keeps : ∀ s a s', Inv s → legal s a → step s a = .ok s' → Inv s')
    (exact : ∀ s a s', Inv s → P s → legal s a → step s a = .ok s' → (P s' ↔ condition s a)) (inv : Inv s)
    (start : P s) (lawful : Meets step legal acts s) (done : run step acts s = .ok s') :
    Throughout step P acts s ↔ Meets step condition acts s := by
  induction acts generalizing s with
  | nil => simp [Throughout, Meets, start]
  | cons a acts ih =>
    obtain ⟨t, first, done⟩ := run_cons_ok.mp done
    have next := exact s a t inv start lawful.1 first
    have kept := keeps s a t inv lawful.1 first
    simp only [Throughout, Meets, start, true_and]
    constructor
    · rintro ⟨u, again, rest⟩
      cases first.symm.trans again
      have holds : P t := by
        cases acts with
        | nil => exact rest
        | cons => exact rest.1
      refine ⟨next.mp holds, fun u again => ?_⟩
      cases first.symm.trans again
      exact (ih kept holds (lawful.2 t first) done).mp rest
    · rintro ⟨meets, rest⟩
      exact ⟨t, first, (ih kept (next.mpr meets) (lawful.2 t first) done).mpr (rest t first)⟩

/-- The same without an invariant. -/
theorem holds_iff_meets {step : σ → α → Except ε σ} {legal condition : σ → α → Prop} {P : σ → Prop} {s s' : σ}
    {acts : List α} (exact : ∀ s a s', P s → legal s a → step s a = .ok s' → (P s' ↔ condition s a))
    (start : P s) (lawful : Meets step legal acts s) (done : run step acts s = .ok s') :
    Throughout step P acts s ↔ Meets step condition acts s := by
  have keeps : ∀ (s : σ) (a : α) (s' : σ), True → legal s a → step s a = .ok s' → True :=
    fun _ _ _ _ _ _ => trivial
  exact inv_iff_meets keeps (fun s a s' _ => exact s a s') trivial start lawful done

end Runs
