import Mathlib

/-!
# Words as sets of bits

A word of `w` bits is the set of the positions where it has a one. Union, intersection, difference
and singletons are what they are for sets, and a loop that takes the least element away ends with
the empty set.

## Main definitions

* `Has`: a position is in a word
* `bit`: the word with one position
* `ffs`: the least position, counted from one

## Main results

* `has_diff`, `has_bit`, `and_bit_ne_zero`: the operations
* `ffs_has`, `ffs_le`: the least position
* `from_diff`: without it the word begins behind it
-/

namespace BitSet

variable {w : ℕ} {x y : BitVec w} {i j : ℕ}

/-- The position `i` is in the word. -/
def Has (x : BitVec w) (i : ℕ) : Prop := x.getLsbD i = true

instance (x : BitVec w) (i : ℕ) : Decidable (Has x i) := inferInstanceAs (Decidable (_ = true))

/-- The word with the position `i` alone. -/
def bit (w i : ℕ) : BitVec w := 1#w <<< i

theorem has_lt (h : Has x i) : i < w := BitVec.lt_of_getLsbD h

@[simp] theorem not_has_zero : ¬ Has (0#w) i := by
  simp [Has]

@[simp] theorem has_or : Has (x ||| y) i ↔ Has x i ∨ Has y i := by
  simp [Has]

@[simp] theorem has_and : Has (x &&& y) i ↔ Has x i ∧ Has y i := by
  simp [Has]

theorem has_bit : Has (bit w j) i ↔ i = j ∧ i < w := by
  have htwo : bit w j = BitVec.twoPow w j := (BitVec.twoPow_eq w j).symm
  rw [Has, htwo, BitVec.getLsbD_twoPow, Bool.and_eq_true, decide_eq_true_iff, decide_eq_true_iff]
  omega

/-- The difference of two words. -/
@[simp] theorem has_diff : Has (x &&& ~~~y) i ↔ Has x i ∧ ¬ Has y i := by
  constructor
  · intro h
    have hlt := has_lt h
    simpa [Has, hlt] using h
  · rintro ⟨hx, hy⟩
    have hlt := has_lt hx
    simpa [Has, hlt] using And.intro hx (eq_false_of_ne_true hy)

theorem ext (h : ∀ i < w, Has x i ↔ Has y i) : x = y := by
  apply BitVec.eq_of_getLsbD_eq
  intro i hi
  exact Bool.eq_iff_iff.mpr (h i hi)

theorem eq_zero_iff : x = 0#w ↔ ∀ i, ¬ Has x i := by
  constructor
  · rintro rfl i
    exact not_has_zero
  · intro h
    exact ext fun i _ => iff_of_false (h i) not_has_zero

theorem ne_zero_iff : x ≠ 0#w ↔ ∃ i, Has x i := by
  rw [ne_eq, eq_zero_iff, not_forall]
  simp only [not_not]

/-- Two words that have no position in common. -/
theorem and_eq_zero : x &&& y = 0#w ↔ ∀ i, Has x i → ¬ Has y i := by
  simp only [eq_zero_iff, has_and, not_and]

theorem and_bit_ne_zero : x &&& bit w i ≠ 0#w ↔ Has x i := by
  rw [ne_zero_iff]
  constructor
  · rintro ⟨j, hj⟩
    rw [has_and, has_bit] at hj
    obtain ⟨hx, rfl, -⟩ := hj
    exact hx
  · intro h
    exact ⟨i, has_and.mpr ⟨h, has_bit.mpr ⟨rfl, has_lt h⟩⟩⟩

theorem has_diff_bit : Has (x &&& ~~~bit w j) i ↔ Has x i ∧ i ≠ j := by
  rw [has_diff, has_bit]
  constructor
  · rintro ⟨hx, hne⟩
    exact ⟨hx, fun heq => hne ⟨heq, has_lt hx⟩⟩
  · rintro ⟨hx, hne⟩
    exact ⟨hx, fun heq => hne heq.1⟩

theorem has_ite_diff {c : Prop} [Decidable c] :
    Has (if c then x &&& ~~~y else x) i ↔ Has x i ∧ (c → ¬ Has y i) := by
  split_ifs with hc
  · rw [has_diff]
    exact and_congr_right fun _ => ⟨fun h _ => h, fun h => h hc⟩
  · exact ⟨fun h => ⟨h, fun hc' => absurd hc' hc⟩, And.left⟩

/-! ## The least element -/

/-- The least position of the word, counted from one; zero where there is none. -/
def ffs (x : BitVec w) : ℕ := if x = 0#w then 0 else x.ctz.toNat + 1

theorem ffs_has (h : x ≠ 0#w) : 0 < ffs x ∧ Has x (ffs x - 1) := by
  rw [ffs, if_neg h]
  exact ⟨Nat.succ_pos _, BitVec.getLsbD_true_ctz_of_ne_zero h⟩

/-- No position is below the least one. -/
theorem ffs_le (h : Has x i) : ffs x ≤ i + 1 := by
  have hne : x ≠ 0#w := ne_zero_iff.mpr ⟨i, h⟩
  rw [ffs, if_neg hne]
  by_contra hlt
  have hfalse := BitVec.getLsbD_false_of_lt_ctz (x := x) (i := i) (by omega)
  exact Bool.false_ne_true (hfalse.symm.trans h)

/-- The positions of `x` are from `k` on. -/
def From (k : ℕ) (x : BitVec w) : Prop := ∀ i, Has x i → k ≤ i

theorem from_zero (x : BitVec w) : From 0 x := fun i _ => Nat.zero_le i

/-- Without the least position a word begins behind it. -/
theorem from_diff (hy : ∀ i, Has y i → Has x i ∧ i ≠ ffs x - 1) : From (ffs x) y := by
  intro i h
  obtain ⟨hx, hne⟩ := hy i h
  have hle := ffs_le hx
  omega

theorem eq_zero_of_from (h : From w x) : x = 0#w := by
  rw [eq_zero_iff]
  intro i hi
  exact absurd (has_lt hi) (Nat.not_lt.mpr (h i hi))

end BitSet
