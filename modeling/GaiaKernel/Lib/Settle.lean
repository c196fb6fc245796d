import Mathlib.Tactic.Common

/-! # Repeating a step until nothing changes

`settle` runs a step until it returns what it was given, for a number of rounds at most. A run stays
where an invariant holds, and settles if the step brings it nearer to a point around which it
settles.
-/
namespace GaiaKernel
variable {α : Type*} [DecidableEq α] {f : α → α} {x y : α}

/-- The point at which the step stands still, if it is met in so many rounds. -/
def settle (f : α → α) : ℕ → α → Option α
  | 0, _ => none
  | fuel + 1, x => if f x = x then some x else settle f fuel (f x)

variable {P : α → Prop}

theorem settle_spec (hP : ∀ x, P x → P (f x)) {fuel : ℕ} (hx : P x)
    (h : settle f fuel x = some y) : P y ∧ f y = y := by
  induction fuel generalizing x with
  | zero => cases h
  | succ fuel ih =>
    unfold settle at h
    split_ifs at h with hfix
    · obtain rfl := Option.some.inj h
      exact ⟨hx,hfix⟩
    · exact ih (hP x hx) h

theorem settle_eq_none (hP : ∀ x, P x → P (f x)) (hno : ∀ x, P x → f x ≠ x)
    (hx : P x) (fuel : ℕ) : settle f fuel x = none := by
  cases h : settle f fuel x with
  | none => rfl
  | some y =>
    obtain ⟨hy,hfix⟩ := settle_spec hP hx h
    exact absurd hfix (hno y hy)

def Settles (f : α → α) (x y : α) : Prop := ∃ fuel, settle f fuel x = some y
theorem Settles.here (h : f x = x) : Settles f x x := ⟨1,if_pos h⟩

theorem Settles.step (h : Settles f (f x) y) : Settles f x y := by
  by_cases hfix : f x = x
  · rwa [hfix] at h
  · obtain ⟨fuel,h⟩ := h
    exact ⟨fuel + 1,(if_neg hfix).trans h⟩

theorem Settles.descend (distance : α → ℕ) (near : ℕ)
    (hnear : ∀ x, P x → distance x ≤ near → Settles f x y)
    (hstep : ∀ x, P x → near < distance x → P (f x) ∧ distance (f x) < distance x)
    (hx : P x) : Settles f x y := by
  induction hd : distance x using Nat.strongRecOn generalizing x with
  | ind d ih =>
    rcases Nat.lt_or_ge near (distance x) with hfar | hclose
    · obtain ⟨hP,hlt⟩ := hstep x hx hfar
      exact Settles.step (ih (distance (f x)) (hd ▸ hlt) hP rfl)
    · exact hnear x hx hclose

end GaiaKernel
