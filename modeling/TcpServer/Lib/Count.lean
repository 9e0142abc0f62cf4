import Mathlib.Algebra.BigOperators.Group.Finset.Basic
import Mathlib.Algebra.BigOperators.Group.Finset.Piecewise
import Mathlib.Data.Fintype.BigOperators

/-!
# Sums and counts under a point update

Changing a function at one point changes its sum by the difference there, and
the number of points with a property by at most one. Stated without subtraction,
so that `omega` can use them.
-/

namespace PointUpdate

variable {ι α : Type} [Fintype ι] [DecidableEq ι]

theorem sum_update (f : ι → Nat) (i : ι) (b : Nat) :
    ∑ j, Function.update f i b j + f i = ∑ j, f j + b := by
  have h1 : ∑ j, Function.update f i b j = b + ∑ j ∈ Finset.univ \ {i}, f j :=
    Finset.sum_update_of_mem (Finset.mem_univ i) f b
  have h2 : ∑ j, f j = f i + ∑ j ∈ Finset.univ \ {i}, f j :=
    Finset.sum_eq_add_sum_sdiff_singleton_of_mem (Finset.mem_univ i) f
  omega

/-- How the sum of a quantity of each point changes with the point at `i`. -/
theorem sum_comp_update (g : α → Nat) (f : ι → α) (i : ι) (a : α) :
    ∑ j, g (Function.update f i a j) + g (f i) = ∑ j, g (f j) + g a := by
  have h := sum_update (fun j => g (f j)) i (g a)
  have hcomp : ∀ j, g (Function.update f i a j) = Function.update (fun j => g (f j)) i (g a) j := by
    intro j
    by_cases hj : j = i
    · subst hj; simp
    · simp [hj]
  simp only [hcomp]
  exact h

/-- How the number of points with a property changes with the point at `i`. -/
theorem card_filter_update (P : α → Prop) [DecidablePred P] (f : ι → α) (i : ι) (a : α) :
    (Finset.univ.filter fun j => P (Function.update f i a j)).card + (if P (f i) then 1 else 0)
      = (Finset.univ.filter fun j => P (f j)).card + (if P a then 1 else 0) := by
  rw [Finset.card_filter, Finset.card_filter]
  exact sum_comp_update (fun x => if P x then 1 else 0) f i a

end PointUpdate
