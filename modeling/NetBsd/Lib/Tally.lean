import Mathlib.Algebra.BigOperators.Group.Finset.Basic
import Mathlib.Algebra.Order.BigOperators.Group.Finset
import Mathlib.Algebra.Order.Group.Nat

/-!
# Tallies over a finite type

What the members of a finite type hold, counted apart from one of them, and how the count changes
when one member's does.

## Main definitions

* `Tally.others f t`: the sum of `f` over everything but `t`

## Main results

* `Tally.add_others`: a member and the others make up the sum
* `Tally.others_congr`: the others keep their sum when only that member changes
* `Tally.others_change`: what the others' sum changes by when one of them changes
-/

namespace Tally

variable {T : Type*} [Fintype T] [DecidableEq T] {f g : T → ℕ} {t u : T}

/-- The sum over everything but `t`. -/
def others (f : T → ℕ) (t : T) : ℕ := ∑ u ∈ Finset.univ.erase t, f u

theorem add_others (f : T → ℕ) (t : T) : f t + others f t = ∑ u, f u :=
  Finset.add_sum_erase Finset.univ f (Finset.mem_univ t)

theorem others_congr (h : ∀ u, u ≠ t → f u = g u) : others f t = others g t :=
  Finset.sum_congr rfl fun u hu => h u (Finset.ne_of_mem_erase hu)

theorem le_others (h : u ≠ t) : f u ≤ others f t :=
  Finset.single_le_sum_of_canonicallyOrdered (Finset.mem_erase.mpr ⟨h, Finset.mem_univ u⟩)

/-- Seen from `u`, the others' sum changes by what `t`'s share of it does. -/
theorem others_change (htu : t ≠ u) (h : ∀ v, v ≠ t → f v = g v) :
    others f u + g t = others g u + f t := by
  have ht := others_congr h
  have hu := h u htu.symm
  have hf := add_others f t
  have hg := add_others g t
  have hf' := add_others f u
  have hg' := add_others g u
  omega

theorem others_eq_zero : others f t = 0 ↔ ∀ u, u ≠ t → f u = 0 := by
  constructor
  · intro h u hu
    have hle : f u ≤ others f t := le_others hu
    omega
  · intro h
    apply Finset.sum_eq_zero
    intro u hu
    exact h u (Finset.ne_of_mem_erase hu)

end Tally
