import NetBsd.Net.Slip.Compress
import Mathlib.Data.Nat.ModEq

/-!
# The header checksum

The receiver sums the words of the header as the host reads them, low byte first, while the
checksum is defined over words sent high byte first. The two sums differ by a factor of 256
modulo 65535, so a header that verifies in one order verifies in the other.

## Main definitions

* `wordSum m n`: sum of the first `n` words in the order they are sent

## Main results

* `hostSum_modEq`: the sum the host computes, against the sum of the words as sent
* `fold_fold_spec`: folding twice keeps a sum modulo 65535 and brings it into 16 bits
* `sum_recomputed`: the checksum the receiver fills in is the one that was sent
-/

namespace Slip

variable {m q : ByteMem} {n x : ℕ}

/-- Sum of the first `n` words, the first byte of each the high one. -/
def wordSum (m : ByteMem) : ℕ → ℕ
  | 0 => 0
  | n + 1 => wordSum m n + (m.get16 (2 * n)).toNat

theorem toNat_hostWord (m : ByteMem) (i : ℕ) :
    (hostWord m i).toNat = 256 * (m (i + 1)).toNat + (m i).toNat := by
  rw [hostWord, BitVec.toNat_append, ← Nat.shiftLeft_add_eq_or_of_lt (m i).isLt,
    Nat.shiftLeft_eq]
  omega

/-- Exchanging the bytes of a word multiplies it by 256, modulo 65535. -/
theorem hostWord_modEq (m : ByteMem) (i : ℕ) :
    (hostWord m i).toNat ≡ 256 * (m.get16 i).toNat [MOD 65535] := by
  rw [toNat_hostWord, ByteMem.toNat_get16]
  unfold Nat.ModEq
  omega

theorem hostSum_modEq (m : ByteMem) (n : ℕ) :
    hostSum m n ≡ 256 * wordSum m n [MOD 65535] := by
  induction n with
  | zero => rfl
  | succ n ih =>
    rw [hostSum, wordSum, Nat.mul_add]
    exact ih.add (hostWord_modEq m (2 * n))

theorem hostSum_le (m : ByteMem) (n : ℕ) : hostSum m n ≤ 65535 * n := by
  induction n with
  | zero => exact le_rfl
  | succ n ih =>
    have := (hostWord m (2 * n)).isLt
    rw [hostSum]
    omega

/-- A byte that is not zero makes the sum positive. -/
theorem hostSum_pos (h : m 0 ≠ 0) (hn : 0 < n) : 0 < hostSum m n := by
  induction n with
  | zero => omega
  | succ n ih =>
    rw [hostSum]
    rcases Nat.eq_zero_or_pos n with rfl | hpos
    · have h₀ : (m 0).toNat ≠ 0 := fun h₀ => h (BitVec.eq_of_toNat_eq h₀)
      rw [toNat_hostWord, Nat.mul_zero]
      omega
    · have := ih hpos
      omega

/-- The sum of a header, and the sum of the header with its checksum cleared. -/
theorem hostSum_clear (h : ∀ i < 2 * n, i ≠ 10 → i ≠ 11 → q i = m i) (h₀ : q 10 = 0)
    (h₁ : q 11 = 0) :
    hostSum m n = hostSum q n + if 5 < n then (hostWord m 10).toNat else 0 := by
  induction n with
  | zero => rfl
  | succ n ih =>
    rw [hostSum, hostSum, ih fun i hi => h i (by omega)]
    by_cases hn : n = 5
    · subst hn
      have : hostWord q 10 = 0 := by rw [hostWord, h₀, h₁]; rfl
      simp [this]
    · have : hostWord q (2 * n) = hostWord m (2 * n) := by
        rw [hostWord, hostWord, h _ (by omega) (by omega) (by omega),
          h _ (by omega) (by omega) (by omega)]
      rw [this]
      split <;> split <;> omega

/-- Folding twice keeps a sum modulo 65535, and brings it into 16 bits. -/
theorem fold_fold_spec (hx : x < 2 ^ 32) (h₀ : 0 < x) :
    fold (fold x) % 65535 = x % 65535 ∧ 0 < fold (fold x) ∧ fold (fold x) ≤ 65535 := by
  unfold fold
  omega

/-- The checksum that makes the folded sum of a header all ones is found again from the sum of
the other words, unless it is all ones itself. -/
theorem sum_recomputed {hl : ℕ} (h5 : 5 < hl) (h30 : hl ≤ 30) (hsum : wordSum m hl % 65535 = 0)
    (hpos : m 0 ≠ 0) (h : ∀ i < 2 * hl, i ≠ 10 → i ≠ 11 → q i = m i) (h₀ : q 10 = 0)
    (h₁ : q 11 = 0) (hneg : hostWord m 10 ≠ 0xffff) :
    ~~~BitVec.ofNat 16 (fold (fold (hostSum q hl))) = hostWord m 10 := by
  have hle := hostSum_le q hl
  have hp : 0 < hostSum q hl := by
    refine hostSum_pos ?_ (by omega)
    rwa [h 0 (by omega) (by omega) (by omega)]
  obtain ⟨hmod, hfpos, hfle⟩ := fold_fold_spec (x := hostSum q hl) (by omega) hp
  have hclear := hostSum_clear h h₀ h₁
  rw [if_pos h5] at hclear
  have hzero : hostSum m hl % 65535 = 0 := by
    have : hostSum m hl % 65535 = 256 * wordSum m hl % 65535 := hostSum_modEq m hl
    omega
  have hlt := (hostWord m 10).isLt
  have hne : (hostWord m 10).toNat ≠ 65535 := fun h => hneg (BitVec.eq_of_toNat_eq h)
  apply BitVec.eq_of_toNat_eq
  rw [BitVec.toNat_not, BitVec.toNat_ofNat]
  omega

end Slip
