import Mathlib.Data.List.Basic

namespace Refinement

/-- A specification: the answer to a call, the state after it, and the answers
after which nothing more is asked. -/
structure Spec (μ α β : Type*) where
  answer : μ → α → β
  after : μ → α → μ
  Waives : α → β → Prop

variable {σ μ α β : Type*}

/-- Every call of a sequence ends with the answer of the specification, and the
states agree before and after it. -/
def Refines (act : σ → α → β → σ → Prop) (spec : Spec μ α β) (agree : σ → μ → Prop) : List α → σ → μ → Prop
  | [], s, m => agree s m
  | a :: rest, s, m => agree s m ∧ ∃ b s', act s a b s' ∧
      (spec.Waives a b ∨ b = spec.answer m a ∧ Refines act spec agree rest s' (spec.after m a))

/-- Every call meets its condition in the state it is made in. -/
def Guarded (act : σ → α → β → σ → Prop) (spec : Spec μ α β) (condition : σ → α → Prop) : List α → σ → Prop
  | [], _ => True
  | a :: rest, s => condition s a ∧
      ∀ b s', act s a b s' → ¬ spec.Waives a b → Guarded act spec condition rest s'

theorem Refines.here {act : σ → α → β → σ → Prop} {spec : Spec μ α β} {agree : σ → μ → Prop} {calls : List α}
    {s : σ} {m : μ} (refines : Refines act spec agree calls s m) : agree s m := by
  cases calls with
  | nil => exact refines
  | cons a rest => exact refines.1

/-- Where a call keeps a simulation under its condition, and only there answers
and agrees, a sequence refines the specification exactly when it is guarded. -/
theorem refines_iff_guarded {act : σ → α → β → σ → Prop} {spec : Spec μ α β} {agree sim : σ → μ → Prop}
    {condition : σ → α → Prop} {legal : α → Prop} {calls : List α} {s : σ} {m : μ}
    (unique : ∀ s a b s' b' s'', act s a b s' → act s a b' s'' → b = b' ∧ s' = s'')
    (agrees : ∀ s m, sim s m → agree s m) (serves : ∀ s m a, sim s m → legal a → condition s a →
      ∃ b s', act s a b s' ∧ (spec.Waives a b ∨ b = spec.answer m a ∧ sim s' (spec.after m a)))
    (needs : ∀ s m a b s', sim s m → legal a → act s a b s' →
      (spec.Waives a b ∨ b = spec.answer m a ∧ agree s' (spec.after m a)) → condition s a) (start : sim s m)
    (lawful : ∀ a ∈ calls, legal a) :
    Refines act spec agree calls s m ↔ Guarded act spec condition calls s := by
  induction calls generalizing s m with
  | nil => exact iff_of_true (agrees s m start) trivial
  | cons a rest ih =>
    have first : legal a := lawful a List.mem_cons_self
    have later : ∀ b ∈ rest, legal b := fun b member => lawful b (List.mem_cons_of_mem a member)
    constructor
    · rintro ⟨-, b, s', done, outcome⟩
      have holds : condition s a :=
        needs s m a b s' start first done (outcome.imp_right fun ⟨answer, refines⟩ => ⟨answer, refines.here⟩)
      refine ⟨holds, fun b' s'' again asked => ?_⟩
      obtain ⟨rfl, rfl⟩ := unique s a b s' b' s'' done again
      obtain ⟨-, refines⟩ := outcome.resolve_left asked
      obtain ⟨b', s'', same, kept⟩ := serves s m a start first holds
      obtain ⟨rfl, rfl⟩ := unique s a b s' b' s'' done same
      exact (ih (kept.resolve_left asked).2 later).mp refines
    · rintro ⟨holds, guarded⟩
      refine ⟨agrees s m start, ?_⟩
      obtain ⟨b, s', done, kept⟩ := serves s m a start first holds
      by_cases asked : spec.Waives a b
      · exact ⟨b, s', done, Or.inl asked⟩
      · obtain ⟨answer, simulated⟩ := kept.resolve_left asked
        exact ⟨b, s', done, Or.inr ⟨answer, (ih simulated later).mpr (guarded b s' done asked)⟩⟩

end Refinement
