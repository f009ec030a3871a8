import Mathlib
import NetBsd.Lib.ByteMem

/-!
# Lists threaded through memory

Cells that keep the address of the next one in their first four bytes, least significant byte
first. The address 0 ends a list.

## Main definitions

* `ByteMem.getPtr`, `ByteMem.putPtr`: an address in memory
* `ByteMem.Chain m a l`: the cells from `a` on are those of `l`

## Main results

* `ByteMem.getPtr_putPtr`: an address that was written is read back
* `ByteMem.Chain.congr`: a chain depends on the first four bytes of its cells
* `ByteMem.Chain.push`: a cell put in front of a chain
-/

namespace ByteMem

/-- The address stored at `a`. -/
def getPtr (m : ByteMem) (a : ℕ) : ℕ :=
  (m a).toNat + 256 * (m (a + 1)).toNat + 65536 * (m (a + 2)).toNat + 16777216 * (m (a + 3)).toNat

/-- Store an address at `a`. -/
def putPtr (m : ByteMem) (a v : ℕ) : ByteMem :=
  (((m.put8 a (BitVec.ofNat 8 v)).put8 (a + 1) (BitVec.ofNat 8 (v / 256))).put8 (a + 2)
    (BitVec.ofNat 8 (v / 65536))).put8 (a + 3) (BitVec.ofNat 8 (v / 16777216))

variable {m m' : ByteMem} {a b v j : ℕ} {l : List ℕ}

theorem getPtr_putPtr (m : ByteMem) (a : ℕ) (hv : v < 2 ^ 32) : (m.putPtr a v).getPtr a = v := by
  have h₀ : m.putPtr a v a = BitVec.ofNat 8 v := by
    rw [putPtr, put8_of_ne (by omega), put8_of_ne (by omega), put8_of_ne (by omega), put8_same]
  have h₁ : m.putPtr a v (a + 1) = BitVec.ofNat 8 (v / 256) := by
    rw [putPtr, put8_of_ne (by omega), put8_of_ne (by omega), put8_same]
  have h₂ : m.putPtr a v (a + 2) = BitVec.ofNat 8 (v / 65536) := by
    rw [putPtr, put8_of_ne (by omega), put8_same]
  have h₃ : m.putPtr a v (a + 3) = BitVec.ofNat 8 (v / 16777216) := by
    rw [putPtr, put8_same]
  simp only [getPtr, h₀, h₁, h₂, h₃, BitVec.toNat_ofNat]
  omega

theorem putPtr_of_ne (h : j < a ∨ a + 4 ≤ j) (v : ℕ) : m.putPtr a v j = m j := by
  rw [putPtr, put8_of_ne (by omega), put8_of_ne (by omega), put8_of_ne (by omega),
    put8_of_ne (by omega)]

theorem getPtr_congr (h : ∀ j, a ≤ j → j < a + 4 → m' j = m j) : m'.getPtr a = m.getPtr a := by
  rw [getPtr, getPtr, h a (by omega) (by omega), h (a + 1) (by omega) (by omega),
    h (a + 2) (by omega) (by omega), h (a + 3) (by omega) (by omega)]

theorem getPtr_eq_zero (h : ∀ j, a ≤ j → j < a + 4 → m j = 0) : m.getPtr a = 0 := by
  rw [getPtr, h a (by omega) (by omega), h (a + 1) (by omega) (by omega),
    h (a + 2) (by omega) (by omega), h (a + 3) (by omega) (by omega)]
  rfl

/-- The cells from `a` on are those of the list. -/
def Chain (m : ByteMem) : ℕ → List ℕ → Prop
  | a, [] => a = 0
  | a, b :: l => a = b ∧ b ≠ 0 ∧ Chain m (m.getPtr b) l

@[simp] theorem chain_nil : Chain m a [] ↔ a = 0 := Iff.rfl

@[simp] theorem chain_cons : Chain m a (b :: l) ↔ a = b ∧ b ≠ 0 ∧ Chain m (m.getPtr b) l :=
  Iff.rfl

theorem Chain.eq_nil (h : Chain m 0 l) : l = [] := by
  cases l with
  | nil => rfl
  | cons b l => exact absurd h.1.symm h.2.1

/-- A chain from a cell begins with it. -/
theorem Chain.exists_cons (h : Chain m a l) (ha : a ≠ 0) : ∃ l', l = a :: l' := by
  cases l with
  | nil => exact absurd h ha
  | cons b l => exact ⟨l, by rw [h.1]⟩

theorem Chain.congr (h : Chain m a l) (hm : ∀ b ∈ l, ∀ j, b ≤ j → j < b + 4 → m' j = m j) :
    Chain m' a l := by
  induction l generalizing a with
  | nil => exact h
  | cons b l ih =>
    obtain ⟨rfl, hb, hl⟩ := h
    refine ⟨rfl, hb, ?_⟩
    rw [getPtr_congr (hm a List.mem_cons_self)]
    exact ih hl fun c hc => hm c (List.mem_cons_of_mem a hc)

/-- A cell put in front of a chain, where it overlaps none of its cells. -/
theorem Chain.push (h : Chain m b l) (hb : b < 2 ^ 32) (ha : a ≠ 0)
    (hl : ∀ c ∈ l, a + 4 ≤ c ∨ c + 4 ≤ a) : Chain (m.putPtr a b) a (a :: l) := by
  refine ⟨rfl, ha, ?_⟩
  rw [getPtr_putPtr m a hb]
  apply h.congr
  intro c hc j hj hj'
  have hca := hl c hc
  exact putPtr_of_ne (by omega) b

end ByteMem
