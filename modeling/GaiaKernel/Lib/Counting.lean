import Mathlib.Algebra.BigOperators.Group.Finset.Piecewise
import Mathlib.Algebra.Order.BigOperators.Group.Finset

/-! # Sums over a table

How a sum over the entries of a finite table changes when one entry does.
-/
namespace GaiaKernel.Counting
open Function Finset
variable {ι α : Type*} [Fintype ι] [DecidableEq ι]

theorem sum_change {f g : ι → ℕ} (i : ι) (h : ∀ j ≠ i, g j = f j) :
    (∑ j, g j) + f i = (∑ j, f j) + g i := by
  rw [← add_sum_erase _ _ (mem_univ i),← add_sum_erase univ f (mem_univ i)]
  have hrest : ∑ j ∈ univ.erase i, g j = ∑ j ∈ univ.erase i, f j :=
    sum_congr rfl fun j hj => h j (ne_of_mem_erase hj)
  omega

theorem sum_update (f : ι → α) (i : ι) (x : α) (g : α → ℕ) :
    (∑ j, g (update f i x j)) + g (f i) = (∑ j, g (f j)) + g x := by
  have hsum := sum_change (f := fun j => g (f j)) (g := fun j => g (update f i x j)) i fun j hj => by
    rw [update_of_ne hj]
  rwa [update_self] at hsum

theorem card_change {p q : ι → Prop} [DecidablePred p] [DecidablePred q] (i : ι)
    (h : ∀ j ≠ i, (q j ↔ p j)) : ((univ.filter q).card : ℤ) =
      (univ.filter p).card + (if q i then 1 else 0) - if p i then 1 else 0 := by
  have hsum := sum_change (f := fun j => if p j then 1 else 0) (g := fun j => if q j then 1 else 0)
    i fun j hj => if_congr (h j hj) rfl rfl
  rw [← card_filter,← card_filter] at hsum
  grind

omit [DecidableEq ι] in
theorem le_sum (f : ι → ℕ) (i : ι) : f i ≤ ∑ j, f j :=
  single_le_sum (f := f) (fun _ _ => Nat.zero_le _) (mem_univ i)

end GaiaKernel.Counting
