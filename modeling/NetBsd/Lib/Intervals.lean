import Mathlib.Order.Interval.Set.Nat
import Mathlib.Data.Set.Lattice
import Mathlib.Tactic.Common

/-!
# Gapped lists of intervals

A finite set of numbers kept as a list of closed intervals in increasing order, with at least
one missing number between two neighbours. Such a list is the coarsest way to write its set:
every run of consecutive members lies inside one interval.

## Main definitions

* `points l`: the numbers the intervals of `l` contain.
* `Spaced g l`: increasing nonempty intervals, at least `g` numbers between neighbours;
  `Gapped l` for `g = 1`.

## Main results

* `spaced_cons`: what it takes to put an interval in front of a list.
* `Spaced.exists_of_run`: a run of consecutive members lies in one interval of a gapped list.
-/

namespace Intervals

variable {a b g i : ℕ} {e : ℕ × ℕ} {l : List (ℕ × ℕ)}

/-- The numbers contained in the intervals of `l`. -/
def points (l : List (ℕ × ℕ)) : Set ℕ := {n | ∃ e ∈ l, e.1 ≤ n ∧ n ≤ e.2}

@[simp] theorem points_nil : points [] = ∅ := by
  simp [points]

@[simp] theorem points_cons : points (e :: l) = Set.Icc e.1 e.2 ∪ points l := by
  ext n
  simp [points]

/-- Nonempty intervals in increasing order, with at least `g` numbers between neighbours. -/
def Spaced (g : ℕ) (l : List (ℕ × ℕ)) : Prop :=
  (∀ e ∈ l, e.1 ≤ e.2) ∧ l.Pairwise fun e f => e.2 + g < f.1

/-- A list in which neighbouring intervals cannot be joined. -/
abbrev Gapped : List (ℕ × ℕ) → Prop := Spaced 1

theorem spaced_nil : Spaced g [] := by
  simp [Spaced]

/-- An interval stands in front of a list when it ends `g` numbers before every member. -/
theorem spaced_cons :
    Spaced g (e :: l) ↔ e.1 ≤ e.2 ∧ (∀ n ∈ points l, e.2 + g < n) ∧ Spaced g l := by
  have hiff (hl : ∀ f ∈ l, f.1 ≤ f.2) :
      (∀ f ∈ l, e.2 + g < f.1) ↔ ∀ n ∈ points l, e.2 + g < n := by
    constructor
    · rintro h n ⟨f, hf, hfn, -⟩
      exact lt_of_lt_of_le (h f hf) hfn
    · intro h f hf
      exact h f.1 ⟨f, hf, le_rfl, hl f hf⟩
  simp only [Spaced, List.mem_cons, forall_eq_or_imp, List.pairwise_cons]
  constructor
  · rintro ⟨⟨he, hl⟩, hef, hp⟩
    exact ⟨he, (hiff hl).mp hef, hl, hp⟩
  · rintro ⟨he, hen, hl, hp⟩
    exact ⟨⟨he, hl⟩, (hiff hl).mpr hen, hp⟩

theorem Spaced.mono (h : Spaced g l) (hg : i ≤ g) : Spaced i l := by
  refine ⟨h.1, h.2.imp fun hef => ?_⟩
  omega

/-- Every run of consecutive members lies inside one interval of a gapped list. -/
theorem Spaced.exists_of_run (h : Gapped l) (hab : a ≤ b) (hr : Set.Icc a b ⊆ points l) :
    ∃ e ∈ l, e.1 ≤ a ∧ b ≤ e.2 := by
  induction l with
  | nil => simpa using hr (Set.left_mem_Icc.mpr hab)
  | cons e l ih =>
    rcases spaced_cons.mp h with ⟨-, hfar, hl⟩
    have ha := hr (Set.left_mem_Icc.mpr hab)
    simp only [points_cons, Set.mem_union, Set.mem_Icc] at ha
    rcases ha with ⟨hea, hae⟩ | ha
    · refine ⟨e, List.mem_cons_self, hea, ?_⟩
      -- the number behind `e` is missing, so the run stops before it
      by_contra hb
      have hgap : e.2 + 1 ∈ points (e :: l) := hr ⟨by omega, by omega⟩
      simp only [points_cons, Set.mem_union, Set.mem_Icc] at hgap
      rcases hgap with hgap | hgap
      · omega
      · have := hfar _ hgap
        omega
    · have hlt := hfar a ha
      have hrest : Set.Icc a b ⊆ points l := by
        intro m hm
        have hm' := hr hm
        simp only [points_cons, Set.mem_union, Set.mem_Icc] at hm'
        rcases hm' with ⟨-, hm'⟩ | hm'
        · have := hm.1
          omega
        · exact hm'
      rcases ih hl hrest with ⟨f, hf, hfab⟩
      exact ⟨f, List.mem_cons_of_mem _ hf, hfab⟩

end Intervals
