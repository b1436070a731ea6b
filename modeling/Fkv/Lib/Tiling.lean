import Mathlib.Data.List.Basic

namespace Tiling

variable {β : Type*}

/-- The number of bytes a run of tiles covers. -/
def span (size : β → Nat) : List β → Nat
  | [] => 0
  | b :: rest => size b + span size rest

/-- The tiles with the addresses they get when laid out from `a` on. -/
def place (size : β → Nat) (a : Nat) : List β → List (Nat × β)
  | [] => []
  | b :: rest => (a, b) :: place size (a + size b) rest

@[simp] theorem span_nil {size : β → Nat} : span size [] = 0 := rfl

@[simp] theorem span_cons {size : β → Nat} {xs : List β} {b : β} :
    span size (b :: xs) = size b + span size xs := rfl

@[simp] theorem span_append {size : β → Nat} {xs ys : List β} :
    span size (xs ++ ys) = span size xs + span size ys := by
  induction xs with
  | nil => simp
  | cons b xs ih => simp [ih, Nat.add_assoc]

@[simp] theorem span_reverse {size : β → Nat} {xs : List β} : span size xs.reverse = span size xs := by
  induction xs with
  | nil => rfl
  | cons b xs ih => simp [ih, Nat.add_comm]

@[simp] theorem place_nil {size : β → Nat} {a : Nat} : place size a [] = [] := rfl

@[simp] theorem place_cons {size : β → Nat} {xs : List β} {a : Nat} {b : β} :
    place size a (b :: xs) = (a, b) :: place size (a + size b) xs := rfl

@[simp] theorem place_append {size : β → Nat} {xs ys : List β} {a : Nat} :
    place size a (xs ++ ys) = place size a xs ++ place size (a + span size xs) ys := by
  induction xs generalizing a with
  | nil => simp
  | cons b xs ih => simp [ih, Nat.add_assoc]

/-- Tiles that are not empty are no more than the bytes they cover. -/
theorem length_le_span {size : β → Nat} {xs : List β} (positive : ∀ b ∈ xs, 1 ≤ size b) :
    xs.length ≤ span size xs := by
  induction xs with
  | nil => simp
  | cons b xs ih =>
    have first := positive b (by simp)
    have rest := ih (fun c member => positive c (by simp [member]))
    simp only [List.length_cons, span_cons]
    omega

theorem place_map_snd {size : β → Nat} {xs : List β} {a : Nat} : (place size a xs).map Prod.snd = xs := by
  induction xs generalizing a with
  | nil => rfl
  | cons b xs ih => simp [ih]

theorem mem_of_place {size : β → Nat} {xs : List β} {a p : Nat} {b : β} (member : (p, b) ∈ place size a xs) :
    b ∈ xs := by
  have mapped := List.mem_map_of_mem (f := Prod.snd) member
  rwa [place_map_snd] at mapped

theorem exists_place {xs : List β} {b : β} (size : β → Nat) (a : Nat) (member : b ∈ xs) :
    ∃ p, (p, b) ∈ place size a xs := by
  have mapped : b ∈ (place size a xs).map Prod.snd := by rwa [place_map_snd]
  obtain ⟨⟨p, c⟩, placed, rfl⟩ := List.mem_map.mp mapped
  exact ⟨p, placed⟩

/-- A placed tile lies inside the interval of the whole run. -/
theorem place_bounds {size : β → Nat} {xs : List β} {a p : Nat} {b : β} (member : (p, b) ∈ place size a xs) :
    a ≤ p ∧ p + size b ≤ a + span size xs := by
  induction xs generalizing a with
  | nil => simp at member
  | cons c xs ih =>
    rcases List.mem_cons.mp member with equal | later
    · cases equal
      simp
    · have bounds := ih later
      simp only [span_cons]
      omega

/-- Two placed tiles are the same tile at the same address, or one ends before
the other begins. -/
theorem place_apart {size : β → Nat} {xs : List β} {a p q : Nat} {b c : β} (first : (p, b) ∈ place size a xs)
    (second : (q, c) ∈ place size a xs) :
    (p, b) = (q, c) ∨ p + size b ≤ q ∨ q + size c ≤ p := by
  induction xs generalizing a with
  | nil => simp at first
  | cons d xs ih =>
    rcases List.mem_cons.mp first with here | later <;> rcases List.mem_cons.mp second with here' | later'
    · exact Or.inl (here.trans here'.symm)
    · cases here
      exact Or.inr (Or.inl (place_bounds later').1)
    · cases here'
      exact Or.inr (Or.inr (place_bounds later).1)
    · exact ih later later'

/-- Every placed tile splits the run around it. -/
theorem place_split {size : β → Nat} {xs : List β} {a p : Nat} {b : β} (member : (p, b) ∈ place size a xs) :
    ∃ pre post, xs = pre ++ b :: post ∧ p = a + span size pre := by
  induction xs generalizing a with
  | nil => simp at member
  | cons c xs ih =>
    rcases List.mem_cons.mp member with equal | later
    · cases equal
      exact ⟨[], xs, rfl, rfl⟩
    · obtain ⟨pre, post, rfl, rfl⟩ := ih later
      exact ⟨c :: pre, post, rfl, by simp [Nat.add_assoc]⟩

/-- A run of tiles that are not empty splits at one address in one way. -/
theorem split_unique {size : β → Nat} {pre post : List β} {b c : β} {pre' post' : List β}
    (positive : ∀ d ∈ pre ++ b :: post, 1 ≤ size d) (same : pre ++ b :: post = pre' ++ c :: post')
    (length : span size pre = span size pre') :
    pre = pre' ∧ b = c ∧ post = post' := by
  induction pre generalizing pre' with
  | nil =>
    cases pre' with
    | nil => simpa using same
    | cons d pre' =>
      obtain ⟨rfl, -⟩ := List.cons.inj same
      have large := positive b (by simp)
      simp only [span_nil, span_cons] at length
      omega
  | cons d pre ih =>
    cases pre' with
    | nil =>
      have large := positive d (by simp)
      simp only [span_nil, span_cons] at length
      omega
    | cons e pre' =>
      obtain ⟨rfl, rest⟩ := List.cons.inj same
      simp only [span_cons, Nat.add_left_cancel_iff] at length
      obtain ⟨rfl, tile, behind⟩ := ih (fun c member => positive c (by simp_all)) rest length
      exact ⟨rfl, tile, behind⟩

end Tiling
