import Mathlib.Data.List.Basic
import Mathlib.Logic.Function.Basic
import Mathlib.Tactic.Common

/-!
# Circular buffers

An array of `N` slots read from any slot on, past the last one to the first.

## Main definitions

* `skip i k`: the slot `k` places behind `i`
* `gap i j`: how many places `j` is behind `i`
* `window f i n`: the contents of the `n` slots from `i` on
* `fill f i l`: the slots from `i` on with the elements of `l` in them

## Main results

* `window_succ`, `window_concat`, `window_add`: the first and the last slot of a window, and two
  windows in a row
* `window_update_back`, `window_update_front`: a window grows by the slot that is written
* `window_fill`: and by all that are filled behind it
-/

namespace Circular

variable {α : Type} {N : ℕ} {f : Fin N → α} {i j : Fin N} {a : α} {k m n : ℕ}

/-- The slot `k` places behind `i`. -/
def skip (i : Fin N) (k : ℕ) : Fin N := ⟨(i + k) % N, Nat.mod_lt _ i.pos⟩

/-- At most one turn goes past the last slot once. -/
theorem skip_val (h : k ≤ N) :
    (skip i k : ℕ) = if i + k < N then (i : ℕ) + k else i + k - N := by
  have hi := i.isLt
  rw [skip]
  split
  next hlt => exact Nat.mod_eq_of_lt hlt
  next hge =>
    change (i + k : ℕ) % N = _
    rw [Nat.mod_eq_sub_mod (by omega)]
    exact Nat.mod_eq_of_lt (by omega)

@[simp] theorem skip_zero : skip i 0 = i := by
  apply Fin.ext
  simp [skip, Nat.mod_eq_of_lt i.isLt]

theorem skip_skip : skip (skip i m) k = skip i (m + k) := by
  apply Fin.ext
  simp only [skip, Nat.mod_add_mod, Nat.add_assoc]

theorem skip_inj (hm : m < N) (hk : k < N) : skip i m = skip i k ↔ m = k := by
  constructor
  · intro h
    have hval := congrArg Fin.val h
    rw [skip_val (Nat.le_of_lt hm), skip_val (Nat.le_of_lt hk)] at hval
    split at hval <;> split at hval <;> omega
  · exact congrArg _

/-- How many places `j` is behind `i`. -/
def gap (i j : Fin N) : ℕ := if (i : ℕ) ≤ j then j - i else j + N - i

theorem gap_lt (i j : Fin N) : gap i j < N := by
  have hi := i.isLt
  have hj := j.isLt
  rw [gap]
  split <;> omega

@[simp] theorem skip_gap (i j : Fin N) : skip i (gap i j) = j := by
  have hi := i.isLt
  have hj := j.isLt
  apply Fin.ext
  rw [skip_val (Nat.le_of_lt (gap_lt i j)), gap]
  split <;> split <;> omega

theorem gap_skip (h : k < N) : gap i (skip i k) = k :=
  (skip_inj (gap_lt _ _) h).mp (skip_gap _ _)

/-- The contents of the `n` slots from `i` on. -/
def window (f : Fin N → α) (i : Fin N) (n : ℕ) : List α := (List.range n).map fun k => f (skip i k)

@[simp] theorem length_window : (window f i n).length = n := by simp [window]

@[simp] theorem window_zero : window f i 0 = [] := rfl

theorem window_succ : window f i (n + 1) = f i :: window f (skip i 1) n := by
  rw [window, List.range_succ_eq_map, List.map_cons, skip_zero, List.map_map]
  congr 1
  apply List.map_congr_left
  intro k _
  rw [skip_skip, Nat.add_comm]
  rfl

theorem window_concat : window f i (n + 1) = window f i n ++ [f (skip i n)] := by
  rw [window, List.range_succ, List.map_append]
  rfl

/-- A window and the one behind it. -/
theorem window_add : window f i (n + k) = window f i n ++ window f (skip i n) k := by
  induction k with
  | zero => simp
  | succ k ih => rw [← Nat.add_assoc, window_concat, ih, window_concat, skip_skip, List.append_assoc]

/-- A window holds what its slots hold. -/
theorem window_congr {g : Fin N → α} (h : ∀ k < n, g (skip i k) = f (skip i k)) :
    window g i n = window f i n := by
  apply List.map_congr_left
  intro k hk
  exact h k (List.mem_range.mp hk)

/-- Writing the slot behind a window makes it longer by what is written. -/
theorem window_update_back (h : n < N) :
    window (Function.update f (skip i n) a) i (n + 1) = window f i n ++ [a] := by
  rw [window_concat, Function.update_self]
  congr 1
  apply window_congr
  intro k hk
  apply Function.update_of_ne
  rw [ne_eq, skip_inj (by omega) h]
  omega

/-- Writing the slot before a window makes it longer by what is written. -/
theorem window_update_front (hj : skip j 1 = i) (h : n < N) :
    window (Function.update f j a) j (n + 1) = a :: window f i n := by
  rw [window_succ, Function.update_self, hj]
  congr 1
  apply window_congr
  intro k hk
  apply Function.update_of_ne
  rw [← hj, skip_skip]
  intro hback
  have := (skip_inj (by omega) (by omega)).mp (hback.trans skip_zero.symm)
  omega

/-- The slots from `i` on with the elements of `l` in them. -/
def fill (f : Fin N → α) (i : Fin N) (l : List α) : Fin N → α := fun p => (l[gap i p]?).getD (f p)

/-- Writing the slots behind a window makes it longer by what is written. -/
theorem window_fill {l : List α} (h : n + l.length ≤ N) :
    window (fill f (skip i n) l) i (n + l.length) = window f i n ++ l := by
  apply List.ext_getElem?
  intro k
  by_cases hk : k < n
  · -- a slot of the window is too far behind to be written
    have hgap : l.length ≤ gap (skip i n) (skip i k) := by
      have hback : skip (skip i n) (N - n + k) = skip i k := by
        rw [skip_skip, show n + (N - n + k) = N + k by omega]
        apply Fin.ext
        simp only [skip]
        rw [← Nat.add_assoc, Nat.add_right_comm, Nat.add_mod_right]
      rw [← hback, gap_skip (by omega)]
      omega
    rw [List.getElem?_append_left (by rw [length_window]; exact hk), window, window,
      List.getElem?_map, List.getElem?_map, List.getElem?_range (by omega), List.getElem?_range hk,
      Option.map_some, Option.map_some, fill, List.getElem?_eq_none hgap, Option.getD_none]
  · by_cases hl : k < n + l.length
    · have hgap : gap (skip i n) (skip i k) = k - n := by
        have hfwd : skip (skip i n) (k - n) = skip i k := by
          rw [skip_skip, show n + (k - n) = k by omega]
        rw [← hfwd, gap_skip (by omega)]
      rw [List.getElem?_append_right (by rw [length_window]; omega), length_window, window,
        List.getElem?_map, List.getElem?_range hl, Option.map_some, fill, hgap,
        List.getElem?_eq_getElem (by omega), Option.getD_some]
    · rw [List.getElem?_eq_none (by rw [length_window]; omega),
        List.getElem?_eq_none (by rw [List.length_append, length_window]; omega)]

end Circular
