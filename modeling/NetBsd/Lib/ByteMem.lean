import Mathlib.Logic.Function.Basic
import Mathlib.Tactic.Common

/-!
# Byte memory

Memory seen through a pointer to its first byte: a function from offsets to bytes. Fields of
16 and 32 bits are read and written most significant byte first.

## Main definitions

* `ByteMem.get16`, `ByteMem.get32`, `ByteMem.put8`, `ByteMem.put16`, `ByteMem.put32`: fields
* `ByteMem.copy src n dst`: the first `n` bytes of `src` put over those of `dst`
* `ByteMem.bytes m i n`: the `n` bytes from offset `i` on, as a list
* `ByteMem.Holds m i l`: the bytes from offset `i` on are those of `l`
* `ByteMem.EqExcept E m m' n`: two memories agree below `n` outside of `E`
* `ByteMem.Patched E U new old n m`: `m` is `new` on `U` and `old` elsewhere

## Main results

* `ByteMem.holds_append`: a string is held when its parts are held one after the other
* `ByteMem.Patched.put16`, `ByteMem.Patched.keep16`: writing a field, or finding it unchanged,
  adds it to the part that is patched
* `ByteMem.Patched.finish`: a memory patched wherever old and new differ is the new one
-/

/-- The bytes from a pointer on. -/
abbrev ByteMem := ℕ → BitVec 8

namespace ByteMem

def get16 (m : ByteMem) (i : ℕ) : BitVec 16 := m i ++ m (i + 1)

def get32 (m : ByteMem) (i : ℕ) : BitVec 32 := m i ++ m (i + 1) ++ m (i + 2) ++ m (i + 3)

def put8 (m : ByteMem) (i : ℕ) (v : BitVec 8) : ByteMem := Function.update m i v

def put16 (m : ByteMem) (i : ℕ) (v : BitVec 16) : ByteMem :=
  (m.put8 i (v.extractLsb' 8 8)).put8 (i + 1) (v.extractLsb' 0 8)

def put32 (m : ByteMem) (i : ℕ) (v : BitVec 32) : ByteMem :=
  (m.put16 i (v.extractLsb' 16 16)).put16 (i + 2) (v.extractLsb' 0 16)

/-- `bcopy` of `n` bytes. -/
def copy (src : ByteMem) (n : ℕ) (dst : ByteMem) : ByteMem := fun i => if i < n then src i else dst i

/-- The `n` bytes from offset `i` on. -/
def bytes (m : ByteMem) (i n : ℕ) : List (BitVec 8) := (List.range n).map fun k => m (i + k)

/-- The bytes of `l`, and those of `m` behind them. -/
def ofList (l : List (BitVec 8)) (m : ByteMem) : ByteMem :=
  fun i => if h : i < l.length then l[i] else m i

/-- The memory from offset `i` on holds the bytes of `l`. -/
def Holds (m : ByteMem) (i : ℕ) (l : List (BitVec 8)) : Prop :=
  ∀ j (h : j < l.length), m (i + j) = l[j]

variable {m m' : ByteMem} {i j n : ℕ}

@[simp] theorem length_bytes : (m.bytes i n).length = n := by simp [bytes]

@[simp] theorem getElem_bytes (h : j < (m.bytes i n).length) : (m.bytes i n)[j] = m (i + j) := by
  simp [bytes]

theorem bytes_add (m : ByteMem) (i n k : ℕ) :
    m.bytes i (n + k) = m.bytes i n ++ m.bytes (i + n) k := by
  simp only [bytes, List.range_add, List.map_append, List.map_map]
  congr 1
  exact List.map_congr_left fun j _ => by simp [Nat.add_assoc]

theorem bytes_congr (h : ∀ j < n, m (i + j) = m' (i + j)) : m.bytes i n = m'.bytes i n :=
  List.map_congr_left fun j hj => h j (List.mem_range.mp hj)

@[simp] theorem put8_same (m : ByteMem) (i : ℕ) (v : BitVec 8) : m.put8 i v i = v := by
  simp [put8]

theorem put8_of_ne (h : j ≠ i) (v : BitVec 8) : m.put8 i v j = m j := by
  simp [put8, h]

theorem put16_of_ne (h : j ≠ i) (h' : j ≠ i + 1) (v : BitVec 16) : m.put16 i v j = m j := by
  rw [put16, put8_of_ne h', put8_of_ne h]

theorem put32_of_ne (h : j < i ∨ i + 4 ≤ j) (v : BitVec 32) : m.put32 i v j = m j := by
  rw [put32, put16_of_ne (by omega) (by omega), put16_of_ne (by omega) (by omega)]

/-! ## Fields and their bytes -/

theorem toNat_get16 (m : ByteMem) (i : ℕ) :
    (m.get16 i).toNat = 256 * (m i).toNat + (m (i + 1)).toNat := by
  rw [get16, BitVec.toNat_append, ← Nat.shiftLeft_add_eq_or_of_lt (m (i + 1)).isLt,
    Nat.shiftLeft_eq]
  omega

theorem get32_eq_append (m : ByteMem) (i : ℕ) : m.get32 i = m.get16 i ++ m.get16 (i + 2) := by
  rw [get32, get16, get16, BitVec.append_assoc]
  rfl

theorem toNat_get32 (m : ByteMem) (i : ℕ) :
    (m.get32 i).toNat = 65536 * (m.get16 i).toNat + (m.get16 (i + 2)).toNat := by
  rw [get32_eq_append, BitVec.toNat_append,
    ← Nat.shiftLeft_add_eq_or_of_lt (m.get16 (i + 2)).isLt, Nat.shiftLeft_eq]
  omega

theorem hi_get16 : (m.get16 i).extractLsb' 8 8 = m i := by
  apply BitVec.eq_of_toNat_eq
  have := (m i).isLt
  have := (m (i + 1)).isLt
  rw [BitVec.extractLsb'_toNat, toNat_get16, Nat.shiftRight_eq_div_pow]
  omega

theorem lo_get16 : (m.get16 i).extractLsb' 0 8 = m (i + 1) := by
  apply BitVec.eq_of_toNat_eq
  have := (m (i + 1)).isLt
  rw [BitVec.extractLsb'_toNat, toNat_get16, Nat.shiftRight_zero]
  omega

theorem hi_get32 : (m.get32 i).extractLsb' 16 16 = m.get16 i := by
  apply BitVec.eq_of_toNat_eq
  have := (m.get16 i).isLt
  have := (m.get16 (i + 2)).isLt
  rw [BitVec.extractLsb'_toNat, toNat_get32, Nat.shiftRight_eq_div_pow]
  omega

theorem lo_get32 : (m.get32 i).extractLsb' 0 16 = m.get16 (i + 2) := by
  apply BitVec.eq_of_toNat_eq
  have := (m.get16 (i + 2)).isLt
  rw [BitVec.extractLsb'_toNat, toNat_get32, Nat.shiftRight_zero]
  omega

theorem get16_eq_iff : m.get16 i = m'.get16 i ↔ m i = m' i ∧ m (i + 1) = m' (i + 1) := by
  constructor
  · intro h
    have hi := congrArg (BitVec.extractLsb' 8 8) h
    have lo := congrArg (BitVec.extractLsb' 0 8) h
    rw [hi_get16, hi_get16] at hi
    rw [lo_get16, lo_get16] at lo
    exact ⟨hi, lo⟩
  · rintro ⟨h₀, h₁⟩
    rw [get16, get16, h₀, h₁]

theorem get32_eq_iff :
    m.get32 i = m'.get32 i ↔ m.get16 i = m'.get16 i ∧ m.get16 (i + 2) = m'.get16 (i + 2) := by
  constructor
  · intro h
    have hi := congrArg (BitVec.extractLsb' 16 16) h
    have lo := congrArg (BitVec.extractLsb' 0 16) h
    rw [hi_get32, hi_get32] at hi
    rw [lo_get32, lo_get32] at lo
    exact ⟨hi, lo⟩
  · rintro ⟨h₀, h₁⟩
    rw [get32_eq_append, get32_eq_append, h₀, h₁]

theorem eq_of_get16_eq (h : m.get16 i = m'.get16 i) (h₁ : i ≤ j) (h₂ : j < i + 2) :
    m j = m' j := by
  rw [get16_eq_iff] at h
  rcases Nat.lt_or_ge i j with hlt | hge
  · obtain rfl : j = i + 1 := by omega
    exact h.2
  · obtain rfl : j = i := by omega
    exact h.1

theorem eq_of_get32_eq (h : m.get32 i = m'.get32 i) (h₁ : i ≤ j) (h₂ : j < i + 4) :
    m j = m' j := by
  rw [get32_eq_iff] at h
  rcases Nat.lt_or_ge j (i + 2) with hlt | hge
  · exact eq_of_get16_eq h.1 h₁ hlt
  · exact eq_of_get16_eq h.2 hge (by omega)

theorem eq_of_bytes_eq (h : m.bytes i n = m'.bytes i n) (h₁ : i ≤ j) (h₂ : j < i + n) :
    m j = m' j := by
  have := List.map_inj_left.mp h (j - i) (List.mem_range.mpr (by omega))
  rwa [Nat.add_sub_cancel' h₁] at this

/-! ## Strings held in memory -/

theorem Holds.nil (m : ByteMem) (i : ℕ) : Holds m i [] := by
  intro j h
  simp at h

theorem holds_ofList (l : List (BitVec 8)) (m : ByteMem) : Holds (ofList l m) 0 l := by
  intro j hj
  rw [ofList, dif_pos (by omega)]
  exact getElem_congr_idx (Nat.zero_add j)

theorem Holds.apply {l : List (BitVec 8)} (h : Holds m i l) (h₁ : i ≤ j) (h₂ : j < i + l.length) :
    m j = l[j - i] := by
  rw [← h (j - i) (by omega), Nat.add_sub_cancel' h₁]

/-- The string of a given length that is held is unique. -/
theorem Holds.bytes_eq {l : List (BitVec 8)} (h : Holds m i l) : m.bytes i l.length = l := by
  apply List.ext_getElem
  · simp
  · intro j _ hj
    simp [h j hj]

theorem holds_append {l l' : List (BitVec 8)} :
    Holds m i (l ++ l') ↔ Holds m i l ∧ Holds m (i + l.length) l' := by
  constructor
  · intro h
    refine ⟨fun j hj => ?_, fun j hj => ?_⟩
    · rw [h j (by rw [List.length_append]; omega), List.getElem_append_left hj]
    · have := h (l.length + j) (by rw [List.length_append]; omega)
      rwa [← Nat.add_assoc, List.getElem_append_right (by omega),
        getElem_congr_idx (Nat.add_sub_cancel_left _ _)] at this
  · rintro ⟨hl, hl'⟩ j hj
    rw [List.length_append] at hj
    by_cases hlt : j < l.length
    · rw [List.getElem_append_left hlt, hl j hlt]
    · have := hl' (j - l.length) (by omega)
      rwa [List.getElem_append_right (by omega), ← show i + l.length + (j - l.length) = i + j by
        omega]

theorem holds_cons {b : BitVec 8} {l : List (BitVec 8)} :
    Holds m i (b :: l) ↔ m i = b ∧ Holds m (i + 1) l := by
  have h : b :: l = [b] ++ l := rfl
  rw [h, holds_append]
  refine and_congr_left fun _ => ⟨fun hb => by simpa using hb 0 (by simp), fun hb j hj => ?_⟩
  obtain rfl : j = 0 := by simpa using hj
  simpa using hb

/-! ## Memories under change -/

/-- Two memories agree below `n` outside of `E`. -/
def EqExcept (E : ℕ → Prop) (m m' : ByteMem) (n : ℕ) : Prop := ∀ i < n, ¬ E i → m i = m' i

/-- On its way from `old` to `new`, the memory `m` has the bytes of `new` on `U` and those of
`old` elsewhere, below `n` and outside of `E`. -/
structure Patched (E U : ℕ → Prop) (new old : ByteMem) (n : ℕ) (m : ByteMem) : Prop where
  new_eq : ∀ i < n, ¬ E i → U i → m i = new i
  old_eq : ∀ i < n, ¬ E i → ¬ U i → m i = old i

namespace Patched

variable {E U : ℕ → Prop} {new old : ByteMem}

theorem start (h : EqExcept E old m n) : Patched E (fun _ => False) new old n m :=
  ⟨fun _ _ _ hU => hU.elim, fun i hi hE _ => (h i hi hE).symm⟩

/-- A field not patched yet still has its old value. -/
theorem get16 (h : Patched E U new old n m) (hi : i + 1 < n) (hE : ¬ E i ∧ ¬ E (i + 1))
    (hU : ¬ U i ∧ ¬ U (i + 1)) : m.get16 i = old.get16 i :=
  get16_eq_iff.mpr ⟨h.old_eq i (by omega) hE.1 hU.1, h.old_eq _ hi hE.2 hU.2⟩

theorem get32 (h : Patched E U new old n m) (hi : i + 3 < n)
    (hE : ∀ j, i ≤ j → j < i + 4 → ¬ E j ∧ ¬ U j) : m.get32 i = old.get32 i := by
  rw [get32_eq_iff]
  have h₀ := hE i (by omega) (by omega)
  have h₁ := hE (i + 1) (by omega) (by omega)
  have h₂ := hE (i + 2) (by omega) (by omega)
  have h₃ := hE (i + 3) (by omega) (by omega)
  exact ⟨h.get16 (by omega) ⟨h₀.1, h₁.1⟩ ⟨h₀.2, h₁.2⟩, h.get16 hi ⟨h₂.1, h₃.1⟩ ⟨h₂.2, h₃.2⟩⟩

/-- A byte that is excepted may be written. -/
theorem put8 (h : Patched E U new old n m) (hE : E i) (v : BitVec 8) :
    Patched E U new old n (m.put8 i v) :=
  ⟨fun j hj hEj hUj => by
      rw [put8_of_ne (by rintro rfl; exact hEj hE)]
      exact h.new_eq j hj hEj hUj,
    fun j hj hEj hUj => by
      rw [put8_of_ne (by rintro rfl; exact hEj hE)]
      exact h.old_eq j hj hEj hUj⟩

theorem put16 (h : Patched E U new old n m) {v : BitVec 16} (hv : v = new.get16 i) :
    Patched E (fun j => U j ∨ (i ≤ j ∧ j < i + 2)) new old n (m.put16 i v) := by
  have hw : ∀ j, i ≤ j → j < i + 2 → m.put16 i v j = new j := by
    intro j h₁ h₂
    rw [hv, ByteMem.put16]
    rcases Nat.lt_or_ge i j with hlt | hge
    · obtain rfl : j = i + 1 := by omega
      rw [put8_same, lo_get16]
    · obtain rfl : j = i := by omega
      rw [put8_of_ne (by omega), put8_same, hi_get16]
  constructor
  · intro j hj hE hU
    by_cases hij : i ≤ j ∧ j < i + 2
    · exact hw j hij.1 hij.2
    · rw [put16_of_ne (by omega) (by omega)]
      exact h.new_eq j hj hE (hU.resolve_right hij)
  · intro j hj hE hU
    rw [not_or] at hU
    rw [put16_of_ne (by omega) (by omega)]
    exact h.old_eq j hj hE hU.1

theorem mono {V : ℕ → Prop} (h : Patched E U new old n m) (hV : ∀ j, U j ↔ V j) :
    Patched E V new old n m :=
  ⟨fun j hj hE hj' => h.new_eq j hj hE ((hV j).mpr hj'),
    fun j hj hE hj' => h.old_eq j hj hE fun hU => hj' ((hV j).mp hU)⟩

theorem put32 (h : Patched E U new old n m) {v : BitVec 32} (hv : v = new.get32 i) :
    Patched E (fun j => U j ∨ (i ≤ j ∧ j < i + 4)) new old n (m.put32 i v) := by
  have h₀ : v.extractLsb' 16 16 = new.get16 i := by rw [hv, hi_get32]
  have h₂ : v.extractLsb' 0 16 = new.get16 (i + 2) := by rw [hv, lo_get32]
  exact ((h.put16 h₀).put16 h₂).mono fun j =>
    or_assoc.trans (or_congr_right (by omega))

/-- A field that the two memories share is patched without being written. -/
theorem keep (h : Patched E U new old n m) {k : ℕ}
    (hk : ∀ j, i ≤ j → j < i + k → old j = new j) :
    Patched E (fun j => U j ∨ (i ≤ j ∧ j < i + k)) new old n m := by
  constructor
  · intro j hj hE hU
    by_cases hUj : U j
    · exact h.new_eq j hj hE hUj
    · obtain ⟨h₁, h₂⟩ := hU.resolve_left hUj
      rw [h.old_eq j hj hE hUj, hk j h₁ h₂]
  · intro j hj hE hU
    exact h.old_eq j hj hE fun hUj => hU (Or.inl hUj)

theorem keep16 (h : Patched E U new old n m) (hk : new.get16 i = old.get16 i) :
    Patched E (fun j => U j ∨ (i ≤ j ∧ j < i + 2)) new old n m :=
  h.keep fun _ hj hj' => (eq_of_get16_eq hk hj hj').symm

theorem keep32 (h : Patched E U new old n m) (hk : new.get32 i = old.get32 i) :
    Patched E (fun j => U j ∨ (i ≤ j ∧ j < i + 4)) new old n m :=
  h.keep fun _ hj hj' => (eq_of_get32_eq hk hj hj').symm

/-- A memory patched wherever old and new differ is the new one. -/
theorem finish (h : Patched E U new old n m) (hU : ∀ i < n, ¬ E i → ¬ U i → new i = old i) :
    EqExcept E new m n := by
  intro i hi hE
  by_cases hUi : U i
  · exact (h.new_eq i hi hE hUi).symm
  · rw [hU i hi hE hUi, h.old_eq i hi hE hUi]

end Patched

end ByteMem
