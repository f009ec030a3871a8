import Mathlib.Data.Nat.ModEq

/-!
# One's complement sums

Sums of 16-bit words with an end-around carry. Two numbers have the same one's complement value
when they are congruent modulo 65535 and both zero or both not. The relation is kept by sums and by
products, does not see factors of 65536, and is equality on 16 bits.

## Main definitions

* `OnesComplement.Same`: the same value
* `OnesComplement.onesAdd`: the sum of two words with an end-around carry
* `OnesComplement.words`: bytes as words, low byte first
* `OnesComplement.weigh`: the sum of bytes, each times 1 or 256 in turn

## Main results

* `OnesComplement.Same.eq`: the value determines 16 bits
* `OnesComplement.foldl_onesAdd`: the sum of words
* `OnesComplement.weigh_swap`: bytes that are taken one place further
-/

namespace OnesComplement

/-! ## Bytes -/

/-- Words of two bytes, low byte first; an odd last byte is padded by zero. -/
def words : List UInt8 → List ℕ
  | [] => []
  | [a] => [a.toNat]
  | a :: b :: bs => (a.toNat + 256 * b.toNat) :: words bs

/-- The sum of bytes that are low and high in turn. -/
def weigh : Bool → List UInt8 → ℕ
  | _, [] => 0
  | true, b :: bs => b.toNat + weigh false bs
  | false, b :: bs => 256 * b.toNat + weigh true bs

variable {low : Bool} {bs cs : List UInt8}

theorem words_le : ∀ w ∈ words bs, w ≤ 65535 := by
  fun_induction words bs with
  | case1 => simp
  | case2 a =>
    have := a.toNat_lt
    simp
    omega
  | case3 a b bs ih =>
    have := a.toNat_lt
    have := b.toNat_lt
    intro w hw
    obtain rfl | hw := List.mem_cons.mp hw
    · omega
    · exact ih w hw

theorem sum_words (bs : List UInt8) : (words bs).sum = weigh true bs := by
  fun_induction words bs with
  | case1 => rfl
  | case2 a => simp [weigh]
  | case3 a b bs ih =>
    rw [List.sum_cons, ih]
    simp only [weigh]
    omega

/-! ## Values -/

/-- The same value in one's complement. -/
def Same (a b : ℕ) : Prop := a % 65535 = b % 65535 ∧ (a = 0 ↔ b = 0)

variable {a b c d : ℕ}

theorem Same.refl (a : ℕ) : Same a a := ⟨rfl, Iff.rfl⟩

theorem Same.symm (h : Same a b) : Same b a := ⟨h.1.symm, h.2.symm⟩

theorem Same.trans (h : Same a b) (h' : Same b c) : Same a c :=
  ⟨h.1.trans h'.1, h.2.trans h'.2⟩

theorem Same.add (h : Same a b) (h' : Same c d) : Same (a + c) (b + d) := by
  obtain ⟨h1, h2⟩ := h
  obtain ⟨h3, h4⟩ := h'
  exact ⟨Nat.ModEq.add h1 h3, by omega⟩

theorem Same.mul (h : Same a b) (k : ℕ) : Same (k * a) (k * b) := by
  refine ⟨Nat.ModEq.mul_left k h.1, ?_⟩
  rw [Nat.mul_eq_zero, Nat.mul_eq_zero, h.2]

/-- A factor of 65536 is not seen. -/
theorem same_shift (a : ℕ) : Same (65536 * a) a := ⟨by omega, by omega⟩

/-- The value determines 16 bits. -/
theorem Same.eq (h : Same a b) (ha : a ≤ 65535) (hb : b ≤ 65535) : a = b := by
  obtain ⟨h1, h2⟩ := h
  omega

/-- The sum of two words with an end-around carry. -/
def onesAdd (a b : ℕ) : ℕ := if a + b > 65535 then a + b - 65535 else a + b

theorem onesAdd_spec (ha : a ≤ 65535) (hb : b ≤ 65535) :
    Same (onesAdd a b) (a + b) ∧ onesAdd a b ≤ 65535 := by
  unfold onesAdd Same
  split_ifs <;> omega

theorem foldl_onesAdd (ws : List ℕ) (ha : a ≤ 65535) (hw : ∀ w ∈ ws, w ≤ 65535) :
    Same (ws.foldl onesAdd a) (a + ws.sum) ∧ ws.foldl onesAdd a ≤ 65535 := by
  induction ws generalizing a with
  | nil => exact ⟨Same.refl _, ha⟩
  | cons w ws ih =>
    obtain ⟨hsame, hle⟩ := onesAdd_spec ha (hw w (by simp))
    obtain ⟨h, h'⟩ := ih hle (fun v hv => hw v (List.mem_cons_of_mem _ hv))
    refine ⟨?_, h'⟩
    rw [List.sum_cons, ← Nat.add_assoc]
    exact h.trans (hsame.add (Same.refl _))

/-- Bytes that are taken one place further count 256 times. -/
theorem weigh_swap (bs : List UInt8) : Same (weigh false bs) (256 * weigh true bs) := by
  have hboth : Same (weigh false bs) (256 * weigh true bs) ∧
      Same (weigh true bs) (256 * weigh false bs) := by
    induction bs with
    | nil => exact ⟨Same.refl _, Same.refl _⟩
    | cons b bs ih =>
      obtain ⟨h, h'⟩ := ih
      simp only [weigh, Nat.mul_add]
      refine ⟨(Same.refl _).add h', ?_⟩
      rw [← Nat.mul_assoc]
      exact (same_shift _).symm.add h
  exact hboth.1

theorem weigh_append : weigh low (bs ++ cs) =
    weigh low bs + weigh (if bs.length % 2 = 0 then low else !low) cs := by
  induction bs generalizing low with
  | nil => simp [weigh]
  | cons b bs ih =>
    have hlen : (b :: bs).length % 2 = 0 ↔ ¬bs.length % 2 = 0 := by
      rw [List.length_cons]
      omega
    cases low <;> simp only [List.cons_append, weigh, ih, hlen, Nat.add_assoc] <;>
      split_ifs <;> simp

/-- The value of bytes as words, with an end-around carry. -/
theorem foldl_words (bs : List UInt8) :
    Same ((words bs).foldl onesAdd 0) (weigh true bs) ∧ (words bs).foldl onesAdd 0 ≤ 65535 := by
  have h := foldl_onesAdd (words bs) (Nat.zero_le _) words_le
  rwa [Nat.zero_add, sum_words] at h

end OnesComplement
