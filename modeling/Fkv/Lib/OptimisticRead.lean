import Mathlib.Logic.Relation
import Mathlib.Tactic.Common

namespace OptimisticRead

variable {α ρ : Type*}

/-- Readers of a shared state that carries a stamp. Writers add one to the stamp,
modulo `modulus`, when they enter and when they leave. A reader moves by `step`,
and `Reads` says which places it may be in. -/
structure Protocol (α ρ : Type*) where
  step : α → ρ → ρ
  Reads : α → ρ → Prop
  stamp : α → Nat
  modulus : Nat

/-- An attempt of a reader: the stamp and the place it began with, the place it is
in now, and how often the stamp has changed in between. -/
structure Attempt (ρ : Type*) where
  begun : ρ
  now : ρ
  stamp : Nat
  changes : Nat

namespace Protocol

/-- The reader gets from one place to the other while the state stays the same. -/
def Along (P : Protocol α ρ) (a : α) :
    ρ → ρ → Prop := Relation.ReflTransGen fun r r' => P.Reads a r ∧ r' = P.step a r

/-- No reader tells these states apart. -/
def Alike (P : Protocol α ρ) (a b : α) : Prop := ∀ r, P.Reads a r → P.Reads b r ∧ P.step b r = P.step a r

/-- A write inside a critical section, of something readers do not see, or of the
stamp. -/
def Writes (P : Protocol α ρ) (a b : α) : Prop :=
  P.stamp b = P.stamp a ∧ (P.stamp a % 2 = 0 → P.Alike a b) ∨
    P.stamp b ≠ P.stamp a ∧ P.stamp b = (P.stamp a + 1) % P.modulus

/-- While the stamp has not changed, the attempt has gone as it would have gone in
the state as it is now. -/
structure Follows (P : Protocol α ρ) (a : α) (t : Attempt ρ) : Prop where
  bound : t.stamp < P.modulus
  counted : P.stamp a = (t.stamp + t.changes) % P.modulus
  clean : t.changes = 0 → t.stamp % 2 = 0 → P.Reads a t.now ∧ P.Along a t.begun t.now

theorem Along.alike {P : Protocol α ρ} {a b : α} {r r' : ρ} (along : P.Along a r r') (alike : P.Alike a b) :
    P.Along b r r' := by
  refine Relation.ReflTransGen.mono (fun s s' step => ?_) _ _ along
  obtain ⟨reads, rfl⟩ := step
  exact ⟨(alike s reads).1, (alike s reads).2.symm⟩

theorem Along.next {P : Protocol α ρ} {a : α} {r r' : ρ} (along : P.Along a r r') (reads : P.Reads a r') :
    P.Along a r (P.step a r') :=
  along.tail ⟨reads, rfl⟩

theorem Follows.begin {P : Protocol α ρ} {a : α} {r : ρ} (bound : P.stamp a < P.modulus)
    (reads : P.stamp a % 2 = 0 → P.Reads a r) :
    P.Follows a ⟨r, r, P.stamp a, 0⟩ :=
  ⟨bound, (Nat.mod_eq_of_lt bound).symm, fun _ even => ⟨reads even, .refl⟩⟩

theorem Follows.read {P : Protocol α ρ} {a : α} {t : Attempt ρ} (follows : P.Follows a t)
    (reads : P.stamp a % 2 = 0 → P.Reads a t.now → P.Reads a (P.step a t.now)) :
    P.Follows a { t with now := P.step a t.now } := by
  refine ⟨follows.bound, follows.counted, fun none even => ?_⟩
  obtain ⟨here, along⟩ := follows.clean none even
  have stamp := follows.counted
  rw [none, Nat.add_zero, Nat.mod_eq_of_lt follows.bound] at stamp
  exact ⟨reads (by rw [stamp]; exact even) here, along.next here⟩

theorem Follows.write {P : Protocol α ρ} {a b : α} {t : Attempt ρ} (follows : P.Follows a t)
    (writes : P.Writes a b) :
    P.Follows b { t with changes := if P.stamp b = P.stamp a then t.changes else t.changes + 1 } := by
  rcases writes with ⟨same, alike⟩ | ⟨differs, adds⟩
  · rw [if_pos same]
    refine ⟨follows.bound, same.trans follows.counted, fun none even => ?_⟩
    obtain ⟨here, along⟩ := follows.clean none even
    have stamp := follows.counted
    simp only at none
    rw [none, Nat.add_zero, Nat.mod_eq_of_lt follows.bound] at stamp
    have looks := alike (by rw [stamp]; exact even)
    exact ⟨(looks _ here).1, along.alike looks⟩
  · rw [if_neg differs]
    refine ⟨follows.bound, ?_, fun none => absurd none (Nat.succ_ne_zero _)⟩
    rw [adds, follows.counted, Nat.mod_add_mod, Nat.add_assoc]

/-- An attempt that ends with the stamp it began with has seen no change of it, or
as many as bring it round. -/
theorem Follows.accept {P : Protocol α ρ} {a : α} {t : Attempt ρ} (follows : P.Follows a t)
    (same : P.stamp a = t.stamp) : t.changes % P.modulus = 0 := by
  have counted := follows.counted
  have bound := follows.bound
  rw [same] at counted
  have left := Nat.mod_lt t.changes (Nat.zero_lt_of_lt bound)
  rw [Nat.add_mod, Nat.mod_eq_of_lt bound] at counted
  by_cases round : t.stamp + t.changes % P.modulus < P.modulus
  · rw [Nat.mod_eq_of_lt round] at counted
    omega
  · rw [Nat.mod_eq_sub_mod (by omega), Nat.mod_eq_of_lt (by omega)] at counted
    omega

/-- An attempt that fails has seen a change. -/
theorem Follows.retry {P : Protocol α ρ} {a : α} {t : Attempt ρ} (follows : P.Follows a t)
    (differs : t.stamp ≠ P.stamp a) : 0 < t.changes := by
  refine Nat.pos_of_ne_zero fun none => differs ?_
  rw [follows.counted, none, Nat.add_zero, Nat.mod_eq_of_lt follows.bound]

end Protocol

end OptimisticRead
