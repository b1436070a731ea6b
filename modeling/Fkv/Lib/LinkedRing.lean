import Mathlib.Data.List.Chain

namespace LinkedRing

variable {α : Type*}

/-- Following `next` runs through the list. -/
abbrev Links (next : α → α) (l : List α) : Prop := l.IsChain (fun x y => next x = y)

/-- The circular list with sentinel `b` and members `xs`: from the sentinel
through every member, in order, and back to the sentinel. -/
def Circular (next : α → α) (b : α) (xs : List α) : Prop := Links next (b :: (xs ++ [b]))

/-- Only the links of the nodes before the last one matter. -/
theorem Links.congr {next next' : α → α} {l : List α} (links : Links next l)
    (same : ∀ y ∈ l.dropLast, next' y = next y) : Links next' l := by
  induction l with
  | nil => exact .nil
  | cons y rest ih =>
    cases rest with
    | nil => exact .singleton y
    | cons z rest =>
      rw [Links, List.isChain_cons_cons] at links ⊢
      refine ⟨(same y (by simp)).trans links.1, ih links.2 ?_⟩
      intro w member
      exact same w (by simp [List.dropLast_cons_of_ne_nil, member])

theorem circular_nil {next : α → α} {b : α} : Circular next b [] ↔ next b = b := by simp [Circular]

theorem circular_cons {next : α → α} {b x : α} {xs : List α} :
    Circular next b (x :: xs) ↔ next b = x ∧ Links next (x :: (xs ++ [b])) := by
  simp [Circular, Links]

/-- The sentinel is its own successor exactly in the empty ring. -/
theorem Circular.empty_iff {next : α → α} {b : α} {xs : List α} (ring : Circular next b xs) (fresh : b ∉ xs) :
    next b = b ↔ xs = [] := by
  cases xs with
  | nil => simpa [circular_nil] using ring
  | cons x xs =>
    have first := (circular_cons.mp ring).1
    simp only [List.mem_cons, not_or] at fresh
    simp [first, Ne.symm fresh.1]

theorem Circular.congr {next next' : α → α} {b : α} {xs : List α} (ring : Circular next b xs)
    (same : ∀ y ∈ b :: xs, next' y = next y) :
    Circular next' b xs := by
  refine Links.congr ring ?_
  intro y member
  rw [← List.cons_append, List.dropLast_concat] at member
  exact same y member

/-- Unlinking the successor of `p`: redirecting `p` past it is all that is
needed, the other links stay. -/
theorem Circular.unlink {next next' : α → α} {b x p : α} {ys zs init : List α}
    (ring : Circular next b (ys ++ x :: zs)) (split : b :: ys = init ++ [p])
    (distinct : (b :: (ys ++ x :: zs)).Nodup) (redirected : next' p = next x)
    (same : ∀ y ∈ b :: (ys ++ zs), y ≠ p → next' y = next y) : Circular next' b (ys ++ zs) := by
  have whole : b :: (ys ++ x :: zs ++ [b]) = init ++ p :: x :: (zs ++ [b]) := by
    have := congrArg (· ++ x :: (zs ++ [b])) split
    simpa using this
  have nodes : b :: (ys ++ x :: zs) = init ++ p :: x :: zs := by
    have := congrArg (· ++ x :: zs) split
    simpa using this
  have target : b :: (ys ++ zs ++ [b]) = init ++ p :: (zs ++ [b]) := by
    have := congrArg (· ++ (zs ++ [b])) split
    simpa using this
  rw [nodes] at distinct
  have kept : ∀ y, y ∈ init ∨ y ∈ zs → next' y = next y := by
    intro y member
    refine same y ?_ ?_
    · rw [← List.cons_append, split]
      rcases member with left | right
      · simp [left]
      · simp [right]
    · rintro rfl
      rw [List.nodup_append] at distinct
      rcases member with left | right
      · exact distinct.2.2 y left y (by simp) rfl
      · exact (List.nodup_cons.mp distinct.2.1).1 (List.mem_cons_of_mem _ right)
  unfold Circular at ring ⊢
  rw [whole, Links, List.isChain_append_cons_cons] at ring
  obtain ⟨before, -, after⟩ := ring
  rw [target, Links, List.isChain_split]
  refine ⟨Links.congr before ?_, ?_⟩
  · intro y member
    rw [List.dropLast_concat] at member
    exact kept y (Or.inl member)
  · cases rest : zs ++ [b] with
    | nil => simp at rest
    | cons z tail =>
      rw [rest, List.isChain_cons_cons] at after
      rw [List.isChain_cons_cons]
      refine ⟨redirected.trans after.1, Links.congr after.2 ?_⟩
      intro y member
      rw [← rest, List.dropLast_concat] at member
      exact kept y (Or.inr member)

/-- Putting a new first member in. -/
theorem Circular.push {next next' : α → α} {b x : α} {xs : List α} (ring : Circular next b xs)
    (first : next' b = x) (second : next' x = next b) (same : ∀ y ∈ xs, next' y = next y) :
    Circular next' b (x :: xs) := by
  refine circular_cons.mpr ⟨first, ?_⟩
  unfold Circular at ring
  cases rest : xs ++ [b] with
  | nil => simp at rest
  | cons z tail =>
    rw [rest, Links, List.isChain_cons_cons] at ring
    rw [Links, List.isChain_cons_cons]
    refine ⟨second.trans ring.1, Links.congr ring.2 ?_⟩
    intro y member
    rw [← rest, List.dropLast_concat] at member
    exact same y member

end LinkedRing
