import Mathlib.Algebra.Order.Ring.Int
import NetBsd.Lib.OnesComplement

/-!
# The Internet checksum on the i386

`in_cksum` of `i386/i386/in_cksum.c`. It adds whole longwords with the carry, brings the pointer to
a longword boundary first, and shifts the sum by a byte while it goes through data at an odd
address. The result is the checksum of RFC 1071 however the bytes are cut into mbufs and aligned.

## Main definitions

* `Buf`, `Ptr`: an mbuf, and a pointer into its data
* `adcs`, `addLongs`, `longLoop`, `wordLoop`: the loops
* `begin`, `align`, `longs`, `finish`, `scan`: one mbuf
* `inCksum`: `in_cksum`
* `rfc1071`: the checksum

## Main results

* `addLongs_same`: no carry is lost
* `scan_spec`: what an mbuf adds to the sum
* `inCksum_rfc1071`: the result is the checksum
-/

namespace Cksum

open OnesComplement

/-! ## Memory -/

/-- An mbuf: the address of its data, and the data. -/
structure Buf where
  addr : ℕ
  data : List UInt8
  deriving DecidableEq, Repr

/-- A pointer into data: its address and the bytes from there on. -/
structure Ptr where
  addr : ℕ
  rest : List UInt8
  deriving DecidableEq, Repr

namespace Ptr

def skip (w : Ptr) (n : ℕ) : Ptr := ⟨w.addr + n, w.rest.drop n⟩

def byte (w : Ptr) : UInt8 := w.rest.headD 0

/-- A word in the order of the machine, low byte first. -/
def word (w : Ptr) : ℕ := w.byte.toNat + 256 * (w.skip 1).byte.toNat

def long (w : Ptr) : ℕ := w.word + 65536 * (w.skip 2).word

end Ptr

/-! ## Sums -/

/-- `REDUCE` -/
def reduce (sum : ℕ) : ℕ :=
  let sum := sum % 65536 + sum / 65536
  if sum > 65535 then sum - 65535 else sum

/-- `adcl`: a sum and the carry. -/
def adc (s : ℕ × ℕ) (x : ℕ) : ℕ × ℕ := ((s.1 + x + s.2) % 2 ^ 32, (s.1 + x + s.2) / 2 ^ 32)

/-- `k` times `ADD`. -/
def adcs : ℕ → ℕ × ℕ → Ptr → ℕ × ℕ
  | 0, s, _ => s
  | k + 1, s, w => adcs k (adc s w.long) (w.skip 4)

/-- `CLC`, `k` times `ADD`, and `MOP`. -/
def addLongs (k sum : ℕ) (w : Ptr) : ℕ :=
  let s := adcs k (sum, 0) w
  (s.1 + s.2) % 2 ^ 32

/-- The registers that the loops work on. -/
structure Regs where
  sum : ℕ
  mlen : ℤ
  w : Ptr
  deriving DecidableEq, Repr

/-- `while ((mlen -= 4 * k) >= 0)`, with `k` longwords in each turn. -/
def longLoop (k : ℕ) (r : Regs) : Regs :=
  if 0 < k ∧ 0 ≤ r.mlen - 4 * k then
    longLoop k ⟨addLongs k r.sum r.w, r.mlen - 4 * k, r.w.skip (4 * k)⟩
  else { r with mlen := r.mlen - 4 * k }
termination_by r.mlen.toNat
decreasing_by omega

/-- `while ((mlen -= 2) >= 0)` -/
def wordLoop (r : Regs) : Regs :=
  if 0 ≤ r.mlen - 2 then wordLoop ⟨(r.sum + r.w.word) % 2 ^ 32, r.mlen - 2, r.w.skip 2⟩
  else { r with mlen := r.mlen - 2 }
termination_by r.mlen.toNat
decreasing_by omega

/-- `su.s` -/
def su (c0 c1 : UInt8) : ℕ := c0.toNat + 256 * c1.toNat

/-! ## One mbuf -/

/-- The variables between two mbufs; `c0` is `su.c[0]`. -/
structure St where
  sum : ℕ
  mlen : ℤ
  len : ℤ
  c0 : UInt8
  deriving DecidableEq, Repr

/-- The variables inside of one. -/
structure Inner extends Regs where
  c0 : UInt8
  byteSwapped : Bool
  deriving DecidableEq, Repr

/-- The rest of a word that the last mbuf has begun, and how many bytes of this one are summed;
with what is left of `len`. -/
def begin (m : Buf) (s : St) : Inner × ℤ :=
  let w : Ptr := ⟨m.addr, m.data⟩
  if s.mlen = -1 then
    let mlen := min (s.len - 1) (m.data.length - 1)
    (⟨⟨(s.sum + su s.c0 w.byte) % 2 ^ 32, mlen, w.skip 1⟩, s.c0, false⟩, s.len - 1 - mlen)
  else
    let mlen := min s.len m.data.length
    (⟨⟨s.sum, mlen, w⟩, s.c0, false⟩, s.len - mlen)

/-- A byte at an odd address. -/
def alignByte (r : Inner) : Inner :=
  if r.w.addr % 2 = 1 ∧ 0 < r.mlen then
    ⟨⟨r.sum * 256 % 2 ^ 32, r.mlen - 1, r.w.skip 1⟩, r.w.byte, true⟩
  else r

/-- A word before a longword boundary. -/
def alignWord (r : Inner) : Inner :=
  if r.w.addr / 2 % 2 = 1 ∧ 2 ≤ r.mlen then
    { r with sum := (r.sum + r.w.word) % 2 ^ 32, mlen := r.mlen - 2, w := r.w.skip 2 }
  else r

/-- The pointer is brought to a longword boundary. -/
def align (r : Inner) : Inner :=
  if r.w.addr % 4 ≠ 0 then alignWord (alignByte { r with sum := reduce r.sum }) else r

/-- The loops over longwords, eight in a turn and then two. -/
def longs (r : Inner) : Inner :=
  let a := longLoop 8 r.toRegs
  let b := longLoop 2 { a with mlen := a.mlen + 32 }
  { r with toRegs := { b with mlen := b.mlen + 8 } }

/-- The words and the byte that are left. -/
def finish (r : Inner) (len : ℤ) : St :=
  if r.mlen = 0 ∧ r.byteSwapped = false then ⟨r.sum, r.mlen, len, r.c0⟩
  else
    let a := wordLoop { r.toRegs with sum := reduce r.sum }
    if r.byteSwapped then
      if a.mlen = -1 then ⟨(a.sum * 256 % 2 ^ 32 + su r.c0 a.w.byte) % 2 ^ 32, 0, len, r.c0⟩
      else ⟨a.sum * 256 % 2 ^ 32, -1, len, r.c0⟩
    else if a.mlen = -1 then ⟨a.sum, a.mlen, len, a.w.byte⟩
    else ⟨a.sum, a.mlen, len, r.c0⟩

def scan (m : Buf) (s : St) : St :=
  if m.data.length = 0 then s
  else
    let r := begin m s
    finish (longs (align r.1)) r.2

/-- The loop over the chain. -/
def loop : List Buf → St → St
  | [], s => s
  | m :: ms, s => if s.len = 0 then s else loop ms (scan m s)

/-- `in_cksum` -/
def inCksum (ms : List Buf) (len : ℕ) : ℕ :=
  let s := loop ms ⟨0, 0, len, 0⟩
  let sum := if s.mlen = -1 then (s.sum + su s.c0 0) % 2 ^ 32 else s.sum
  (2 ^ 32 - 1 - reduce sum) % 2 ^ 16

/-- The checksum of RFC 1071, of words in the order of the machine. -/
def rfc1071 (bs : List UInt8) : ℕ := 65535 - (words bs).foldl onesAdd 0

/-! ## What the loops add -/

section Loops

variable {n k : ℕ} {w : Ptr}

theorem weigh_byte (w : Ptr) (n : ℕ) (low : Bool) : weigh low (w.rest.take (n + 1)) =
    (if low then w.byte.toNat else 256 * w.byte.toNat) +
      weigh (!low) ((w.skip 1).rest.take n) := by
  obtain ⟨addr, _ | ⟨b, rest⟩⟩ := w <;> cases low <;> simp [weigh, Ptr.byte, Ptr.skip]

theorem weigh_word (w : Ptr) (n : ℕ) :
    weigh true (w.rest.take (n + 2)) = w.word + weigh true ((w.skip 2).rest.take n) := by
  have hskip : (w.skip 1).skip 1 = w.skip 2 := by simp [Ptr.skip, Nat.add_assoc]
  have h := weigh_byte w (n + 1) true
  have h' := weigh_byte (w.skip 1) n false
  simp only [if_true, Bool.not_true, Bool.not_false, hskip, Bool.false_eq_true, if_false] at h h'
  rw [h, h', Ptr.word, Nat.add_assoc]

theorem word_le (w : Ptr) : w.word ≤ 65535 := by
  have := w.byte.toNat_lt
  have := (w.skip 1).byte.toNat_lt
  unfold Ptr.word
  omega

theorem long_lt (w : Ptr) : w.long < 2 ^ 32 := by
  have := word_le w
  have := word_le (w.skip 2)
  unfold Ptr.long
  omega

theorem skip_skip (w : Ptr) (i j : ℕ) : (w.skip i).skip j = w.skip (i + j) := by
  simp [Ptr.skip, Nat.add_assoc]

theorem weigh_long (w : Ptr) (n : ℕ) :
    Same (w.long + weigh true ((w.skip 4).rest.take n)) (weigh true (w.rest.take (n + 4))) := by
  rw [weigh_word w (n + 2), weigh_word (w.skip 2) n, skip_skip, ← Nat.add_assoc]
  exact ((Same.refl _).add (same_shift _)).add (Same.refl _)

theorem reduce_spec {sum : ℕ} (h : sum < 2 ^ 32) : Same (reduce sum) sum ∧ reduce sum ≤ 65535 := by
  unfold reduce Same
  dsimp only
  split_ifs <;> omega

/-- A sum and a carry, of which the carry can still be added. -/
def Carries (s : ℕ × ℕ) : Prop := s.1 + s.2 < 2 ^ 32 ∧ s.2 ≤ 1

theorem adc_spec {s : ℕ × ℕ} {x : ℕ} (h : Carries s) (hx : x < 2 ^ 32) :
    Carries (adc s x) ∧ Same ((adc s x).1 + (adc s x).2) (s.1 + s.2 + x) := by
  unfold Carries at h ⊢
  unfold adc Same
  omega

/-- No carry is lost between the longwords. -/
theorem adcs_spec {s : ℕ × ℕ} (h : Carries s) (n : ℕ) :
    Carries (adcs k s w) ∧
      Same ((adcs k s w).1 + (adcs k s w).2 + weigh true ((w.skip (4 * k)).rest.take n))
        (s.1 + s.2 + weigh true (w.rest.take (n + 4 * k))) := by
  induction k generalizing s w with
  | zero =>
    exact ⟨h, by simpa [adcs, Ptr.skip] using Same.refl _⟩
  | succ k ih =>
    obtain ⟨hcarries, hsame⟩ := adc_spec h (long_lt w)
    obtain ⟨hend, hrest⟩ := ih (w := w.skip 4) hcarries
    refine ⟨hend, ?_⟩
    rw [skip_skip, show 4 + 4 * k = 4 * (k + 1) by omega] at hrest
    refine hrest.trans ?_
    refine (hsame.add (Same.refl _)).trans ?_
    rw [Nat.add_assoc]
    exact (Same.refl _).add (weigh_long w (n + 4 * k))

theorem addLongs_same (k : ℕ) {sum : ℕ} (h : sum < 2 ^ 32) (w : Ptr) (n : ℕ) :
    addLongs k sum w < 2 ^ 32 ∧
      Same (addLongs k sum w + weigh true ((w.skip (4 * k)).rest.take n))
        (sum + weigh true (w.rest.take (n + 4 * k))) := by
  obtain ⟨hcarries, hsame⟩ := adcs_spec (k := k) (w := w) (s := (sum, 0)) ⟨h, by simp⟩ n
  unfold addLongs
  dsimp only
  rw [Nat.mod_eq_of_lt hcarries.1]
  exact ⟨hcarries.1, hsame⟩

/-- The sum and the bytes that are still to be summed. -/
def Regs.val (r : Regs) : ℕ := r.sum + weigh true (r.w.rest.take r.mlen.toNat)

theorem longLoop_spec (hk : 0 < k) (r : Regs) (hsum : r.sum < 2 ^ 32) (hmlen : 0 ≤ r.mlen) :
    (longLoop k r).sum < 2 ^ 32 ∧ 0 ≤ (longLoop k r).mlen + 4 * k ∧ (longLoop k r).mlen < 0 ∧
      (2 : ℤ) ∣ r.mlen - (longLoop k r).mlen ∧
      Same { longLoop k r with mlen := (longLoop k r).mlen + 4 * k }.val r.val := by
  fun_induction longLoop k r with
  | case1 r hmore ih =>
    obtain ⟨hlt, hsame⟩ := addLongs_same k hsum r.w (r.mlen - 4 * k).toNat
    obtain ⟨h1, h2, h3, h4, h5⟩ := ih hlt hmore.2
    dsimp only at h4
    refine ⟨h1, h2, h3, by omega, h5.trans ?_⟩
    unfold Regs.val
    dsimp only
    rw [show r.mlen.toNat = (r.mlen - 4 * k).toNat + 4 * k by omega]
    exact hsame
  | case2 r hdone =>
    refine ⟨hsum, by dsimp only; omega, by dsimp only; omega, by dsimp only; omega, ?_⟩
    dsimp only
    rw [Int.sub_add_cancel]
    exact Same.refl _

theorem wordLoop_spec (r : Regs) (hmlen : 0 ≤ r.mlen)
    (hsum : r.sum + 65535 * (r.mlen.toNat / 2) < 2 ^ 32) :
    (wordLoop r).sum ≤ r.sum + 65535 * (r.mlen.toNat / 2) ∧
      (wordLoop r).mlen = (if r.mlen % 2 = 1 then -1 else -2) ∧
      (wordLoop r).sum + (if r.mlen % 2 = 1 then (wordLoop r).w.byte.toNat else 0) = r.val := by
  fun_induction wordLoop r with
  | case1 r hmore ih =>
    have hword := word_le r.w
    have hnat : r.mlen.toNat = (r.mlen - 2).toNat + 2 := by omega
    have hmod : (r.sum + r.w.word) % 2 ^ 32 = r.sum + r.w.word := Nat.mod_eq_of_lt (by omega)
    have hpar : (r.mlen - 2) % 2 = r.mlen % 2 := by omega
    obtain ⟨h1, h2, h3⟩ := ih hmore (by dsimp only; omega)
    dsimp only at h1 h2 h3
    rw [hpar] at h2 h3
    refine ⟨by omega, h2, h3.trans ?_⟩
    unfold Regs.val
    dsimp only
    rw [hmod, hnat, weigh_word, Nat.add_assoc]
  | case2 r hdone =>
    unfold Regs.val
    dsimp only
    obtain h | h : r.mlen = 0 ∨ r.mlen = 1 := by omega
    · simp [h, weigh]
    · have hbyte := weigh_byte r.w 0 true
      rw [h]
      simp [weigh] at hbyte ⊢
      omega

end Loops

/-! ## What one mbuf adds -/

/-- What the sum will be worth when the mbuf has been summed: after a byte at an odd address the
sum is shifted once more, and this byte is added. -/
def Inner.worth (r : Inner) : ℕ :=
  if r.byteSwapped then r.c0.toNat + 256 * r.val else r.val

/-- The sum is in range, and the number of bytes that are left to be summed has the right parity;
`odd` is that of all of them. -/
structure Inner.Ok (r : Inner) (odd : ℤ) : Prop where
  sum : r.sum < 2 ^ 32
  mlen : 0 ≤ r.mlen
  parity : r.mlen % 2 = if r.byteSwapped then 1 - odd else odd

theorem alignByte_spec {r : Inner} {odd : ℤ} (h : r.Ok odd) (hsum : r.sum ≤ 65535)
    (hsw : r.byteSwapped = false) :
    (alignByte r).Ok odd ∧ (alignByte r).sum ≤ 65535 * 256 ∧
      Same (alignByte r).worth r.worth := by
  unfold alignByte
  have hparity := h.parity
  rw [hsw] at hparity
  simp only [Bool.false_eq_true, if_false] at hparity
  split_ifs with hbyte
  · have hmod : r.sum * 256 % 2 ^ 32 = r.sum * 256 := Nat.mod_eq_of_lt (by omega)
    refine ⟨⟨by dsimp only; omega, by dsimp only; omega, by simp only [if_true]; omega⟩,
      by dsimp only; omega, ?_⟩
    unfold Inner.worth Regs.val
    simp only [hsw, Bool.false_eq_true, if_false, if_true]
    rw [hmod, show r.mlen.toNat = (r.mlen - 1).toNat + 1 by omega, weigh_byte]
    simp only [if_true, Bool.not_true]
    -- the earlier sum is shifted twice, and the bytes behind the first one once
    have hswap := weigh_swap ((r.w.skip 1).rest.take (r.mlen - 1).toNat)
    have hsum2 : Same (256 * (r.sum * 256)) r.sum := by
      rw [show 256 * (r.sum * 256) = 65536 * r.sum by omega]
      exact same_shift _
    rw [Nat.mul_add, ← Nat.add_assoc, ← Nat.add_assoc, Nat.add_comm _ (256 * (r.sum * 256))]
    exact (hsum2.add (Same.refl _)).add hswap.symm
  · exact ⟨h, by omega, Same.refl _⟩

theorem alignWord_spec {r : Inner} {odd : ℤ} (h : r.Ok odd) (hsum : r.sum ≤ 65535 * 256) :
    (alignWord r).Ok odd ∧ (alignWord r).worth = r.worth := by
  unfold alignWord
  split_ifs with hword
  · have hle := word_le r.w
    have hmod : (r.sum + r.w.word) % 2 ^ 32 = r.sum + r.w.word := Nat.mod_eq_of_lt (by omega)
    have hparity := h.parity
    refine ⟨⟨by dsimp only; omega, by dsimp only; omega, by dsimp only; omega⟩, ?_⟩
    have hval : r.val = r.sum + r.w.word +
        weigh true ((r.w.skip 2).rest.take (r.mlen - 2).toNat) := by
      unfold Regs.val
      rw [show r.mlen.toNat = (r.mlen - 2).toNat + 2 by omega, weigh_word, Nat.add_assoc]
    unfold Inner.worth
    rw [hval]
    unfold Regs.val
    dsimp only
    rw [hmod]
  · exact ⟨h, rfl⟩

theorem align_spec {r : Inner} {odd : ℤ} (h : r.Ok odd) (hsw : r.byteSwapped = false) :
    (align r).Ok odd ∧ Same (align r).worth r.worth := by
  unfold align
  split_ifs
  · obtain ⟨hsame, hle⟩ := reduce_spec h.sum
    have hr : ({ r with sum := reduce r.sum } : Inner).Ok odd :=
      ⟨by dsimp only; omega, h.mlen, h.parity⟩
    obtain ⟨h1, h2, h3⟩ := alignByte_spec hr hle hsw
    obtain ⟨h4, h5⟩ := alignWord_spec h1 h2
    refine ⟨h4, ?_⟩
    rw [h5]
    refine h3.trans ?_
    unfold Inner.worth Regs.val
    simp only [hsw, Bool.false_eq_true, if_false]
    exact hsame.add (Same.refl _)
  · exact ⟨h, Same.refl _⟩

theorem longs_spec {r : Inner} {odd : ℤ} (h : r.Ok odd) :
    (longs r).Ok odd ∧ (longs r).mlen < 8 ∧ Same (longs r).worth r.worth := by
  obtain ⟨h1, h2, h3, h4, h5⟩ := longLoop_spec (k := 8) (by omega) r.toRegs h.sum h.mlen
  obtain ⟨h6, h7, h8, h9, h10⟩ := longLoop_spec (k := 2) (by omega)
    { longLoop 8 r.toRegs with mlen := (longLoop 8 r.toRegs).mlen + 32 } h1 (by dsimp only; omega)
  have hparity := h.parity
  unfold longs
  dsimp only at h7 h8 h9 h10 ⊢
  refine ⟨⟨h6, by dsimp only; omega, by dsimp only; omega⟩, by omega, ?_⟩
  have hval := h10.trans h5
  unfold Inner.worth
  dsimp only
  split_ifs
  · exact (Same.refl _).add (hval.mul 256)
  · exact hval

/-- The value of the sum between two mbufs, with the byte of a word that has been begun. -/
def St.worth (s : St) : ℕ := s.sum + if s.mlen = -1 then s.c0.toNat else 0

theorem finish_spec {r : Inner} {odd : ℤ} (h : r.Ok odd) (hmlen : r.mlen < 8) (len : ℤ) :
    (finish r len).len = len ∧ (finish r len).sum < 2 ^ 32 ∧
      ((finish r len).mlen = -1 → (finish r len).sum ≤ 2 ^ 27) ∧
      ((finish r len).mlen = -1 ↔ odd = 1) ∧ Same (finish r len).worth r.worth := by
  have hparity := h.parity
  have hnonneg := h.mlen
  unfold finish
  by_cases hnone : r.mlen = 0 ∧ r.byteSwapped = false
  · rw [if_pos hnone]
    rw [hnone.2] at hparity
    simp only [Bool.false_eq_true, if_false] at hparity
    refine ⟨rfl, h.sum, fun he => absurd he (by dsimp only; omega), by dsimp only; omega, ?_⟩
    unfold St.worth Inner.worth Regs.val
    simp [hnone, weigh, Same.refl]
  rw [if_neg hnone]
  obtain ⟨hsame, hle⟩ := reduce_spec h.sum
  obtain ⟨h1, h2, h3⟩ := wordLoop_spec { r.toRegs with sum := reduce r.sum } hnonneg
    (by dsimp only; omega)
  dsimp only at h1 h2 h3 ⊢
  have hval : Same ({ r.toRegs with sum := reduce r.sum } : Regs).val r.val :=
    hsame.add (Same.refl _)
  generalize wordLoop { r.toRegs with sum := reduce r.sum } = a at h1 h2 h3
  have hsmall : a.sum ≤ 65535 * 4 := by omega
  have hbyte := a.w.byte.toNat_lt
  have hc0 := r.c0.toNat_lt
  have hmod : a.sum * 256 % 2 ^ 32 = a.sum * 256 := Nat.mod_eq_of_lt (by omega)
  by_cases hsw : r.byteSwapped = true
  · rw [if_pos hsw]
    rw [hsw] at hparity
    simp only [if_true] at hparity
    by_cases hlast : r.mlen % 2 = 1
    · rw [if_pos hlast] at h2 h3
      have hmod' : (a.sum * 256 + su r.c0 a.w.byte) % 2 ^ 32 =
          a.sum * 256 + su r.c0 a.w.byte := Nat.mod_eq_of_lt (by unfold su; omega)
      rw [if_pos h2, hmod, hmod']
      refine ⟨rfl, by simp only [su]; omega, by simp, by dsimp only; omega, ?_⟩
      unfold St.worth Inner.worth su
      simp only [hsw, if_true]
      rw [if_neg (by decide), show a.sum * 256 + (r.c0.toNat + 256 * a.w.byte.toNat) + 0 =
        r.c0.toNat + 256 * (a.sum + a.w.byte.toNat) by omega, h3]
      exact (Same.refl _).add (hval.mul 256)
    · rw [if_neg hlast] at h2 h3
      rw [if_neg (by omega), hmod]
      refine ⟨rfl, by dsimp only; omega, fun _ => by dsimp only; omega, by dsimp only; omega, ?_⟩
      unfold St.worth Inner.worth
      simp only [hsw, if_true]
      rw [show a.sum * 256 + r.c0.toNat = r.c0.toNat + 256 * (a.sum + 0) by omega, h3]
      exact (Same.refl _).add (hval.mul 256)
  · rw [if_neg hsw]
    rw [Bool.not_eq_true] at hsw
    rw [hsw] at hparity
    simp only [Bool.false_eq_true, if_false] at hparity
    by_cases hlast : r.mlen % 2 = 1
    · rw [if_pos hlast] at h2 h3
      rw [if_pos h2]
      refine ⟨rfl, by dsimp only; omega, fun _ => by dsimp only; omega, by dsimp only; omega, ?_⟩
      unfold St.worth Inner.worth
      simp only [hsw, h2, if_true, Bool.false_eq_true, if_false]
      rw [h3]
      exact hval
    · rw [if_neg hlast] at h2 h3
      rw [if_neg (by omega)]
      refine ⟨rfl, by dsimp only; omega, fun he => absurd he (by dsimp only; omega),
        by dsimp only; omega, ?_⟩
      unfold St.worth Inner.worth
      simp only [hsw, Bool.false_eq_true, if_false]
      rw [if_neg (by omega), h3]
      exact hval

/-! ## The chain -/

/-- The sum is that of the bytes in `done`; a word has been begun when their number is odd. -/
structure Inv (done : List UInt8) (s : St) : Prop where
  same : Same s.worth (weigh true done)
  odd : s.mlen = -1 ↔ done.length % 2 = 1
  sum : s.sum < 2 ^ 32
  small : s.mlen = -1 → s.sum ≤ 2 ^ 27

/-- How much of an mbuf is summed. -/
def taken (m : Buf) (s : St) : ℕ := min s.len.toNat m.data.length

theorem begin_spec {m : Buf} {s : St} {done : List UInt8} (h : Inv done s)
    (hdata : m.data.length ≠ 0) (hlen : 0 < s.len) :
    (begin m s).1.byteSwapped = false ∧ (begin m s).2 = s.len - taken m s ∧
      (begin m s).1.Ok ((done ++ m.data.take (taken m s)).length % 2 : ℕ) ∧
      Same (begin m s).1.worth (weigh true (done ++ m.data.take (taken m s))) := by
  have hsame := h.same
  have hodd := h.odd
  have hcount : (done ++ m.data.take (taken m s)).length = done.length + taken m s := by
    rw [List.length_append, List.length_take]
    unfold taken
    omega
  rw [hcount, weigh_append]
  unfold begin
  dsimp only
  split_ifs with hbegun heven heven
  · omega
  · -- the first byte ends the word
    have hbyte := weigh_byte ⟨m.addr, m.data⟩ (taken m s - 1) false
    have hc0 := s.c0.toNat_lt
    have hb := (Ptr.byte ⟨m.addr, m.data⟩).toNat_lt
    have hsmall := h.small hbegun
    rw [show taken m s - 1 + 1 = taken m s by unfold taken; omega] at hbyte
    have hmod : (s.sum + su s.c0 (Ptr.byte ⟨m.addr, m.data⟩)) % 2 ^ 32 =
        s.sum + su s.c0 (Ptr.byte ⟨m.addr, m.data⟩) := Nat.mod_eq_of_lt (by unfold su; omega)
    refine ⟨rfl, by unfold taken; omega, ⟨Nat.mod_lt _ (by omega), by dsimp only; omega, ?_⟩, ?_⟩
    · simp only [Bool.false_eq_true, if_false]
      unfold taken
      omega
    · unfold Inner.worth Regs.val
      simp only [Bool.false_eq_true, if_false]
      rw [hmod, show (min (s.len - 1) ((m.data.length : ℤ) - 1)).toNat = taken m s - 1 by
        unfold taken; omega]
      simp only [Bool.false_eq_true, if_false, Bool.not_false, Bool.not_true] at hbyte ⊢
      rw [hbyte]
      unfold St.worth at hsame
      rw [if_pos hbegun] at hsame
      unfold su
      rw [show s.sum + (s.c0.toNat + 256 * (Ptr.byte ⟨m.addr, m.data⟩).toNat) =
        s.sum + s.c0.toNat + 256 * (Ptr.byte ⟨m.addr, m.data⟩).toNat by omega, Nat.add_assoc]
      exact hsame.add (Same.refl _)
  · refine ⟨rfl, by unfold taken; omega, ⟨h.sum, by dsimp only; omega, ?_⟩, ?_⟩
    · simp only [Bool.false_eq_true, if_false]
      unfold taken
      omega
    · unfold Inner.worth Regs.val
      simp only [Bool.false_eq_true, if_false]
      rw [show (min s.len (m.data.length : ℤ)).toNat = taken m s by unfold taken; omega]
      unfold St.worth at hsame
      rw [if_neg hbegun, Nat.add_zero] at hsame
      exact hsame.add (Same.refl _)
  · omega

/-- An mbuf adds its bytes, up to those that are asked for. -/
theorem scan_spec {m : Buf} {s : St} {done : List UInt8} (h : Inv done s) (hlen : 0 < s.len) :
    Inv (done ++ m.data.take (taken m s)) (scan m s) ∧ (scan m s).len = s.len - taken m s := by
  unfold scan
  by_cases hdata : m.data.length = 0
  · rw [if_pos hdata]
    have hnil := List.eq_nil_of_length_eq_zero hdata
    refine ⟨by simpa [hnil] using h, ?_⟩
    unfold taken
    omega
  rw [if_neg hdata]
  obtain ⟨hsw, hleft, hok, hworth⟩ := begin_spec h hdata hlen
  obtain ⟨hok', hworth'⟩ := align_spec hok hsw
  obtain ⟨hok'', hmlen, hworth''⟩ := longs_spec hok'
  obtain ⟨h1, h2, h3, h4, h5⟩ := finish_spec hok'' hmlen (begin m s).2
  refine ⟨⟨h5.trans (hworth''.trans (hworth'.trans hworth)), ?_, h2, h3⟩, ?_⟩
  · rw [h4]
    omega
  · rw [h1, hleft]

theorem loop_spec (ms : List Buf) {s : St} {done : List UInt8} (h : Inv done s) (hlen : 0 ≤ s.len) :
    Inv (done ++ (ms.flatMap Buf.data).take s.len.toNat) (loop ms s) := by
  induction ms generalizing s done with
  | nil => simpa [loop] using h
  | cons m ms ih =>
    unfold loop
    split_ifs with hzero
    · simpa [hzero] using h
    · obtain ⟨hinv, hleft⟩ := scan_spec (m := m) h (by omega)
      have hrest := ih hinv (by rw [hleft]; unfold taken; omega)
      have hsplit : done ++ ((m :: ms).flatMap Buf.data).take s.len.toNat =
          done ++ m.data.take (taken m s) ++ (ms.flatMap Buf.data).take (scan m s).len.toNat := by
        rw [List.flatMap_cons, List.take_append, List.append_assoc, hleft]
        unfold taken
        congr 2
        · rcases Nat.le_total s.len.toNat m.data.length with hle | hle
          · rw [Nat.min_eq_left hle]
          · rw [Nat.min_eq_right hle, List.take_of_length_le hle, List.take_length]
        · congr 1
          omega
      rw [hsplit]
      exact hrest

/-- The result is the checksum of RFC 1071 of the first `len` bytes, however they are cut into
mbufs and aligned. -/
theorem inCksum_rfc1071 (ms : List Buf) (len : ℕ) :
    inCksum ms len = rfc1071 ((ms.flatMap Buf.data).take len) := by
  have hstart : Inv [] ⟨0, 0, len, 0⟩ := ⟨Same.refl _, by simp, by simp, by simp⟩
  have h := loop_spec ms hstart (Int.natCast_nonneg len)
  unfold inCksum rfc1071
  dsimp only
  simp only [List.nil_append, Int.toNat_natCast] at h
  generalize loop ms ⟨0, 0, len, 0⟩ = s at h
  have hlast : ∀ sum, (sum = if s.mlen = -1 then (s.sum + su s.c0 0) % 2 ^ 32 else s.sum) →
      sum < 2 ^ 32 ∧ sum = s.worth := by
    intro sum hsum
    have hsmall := h.small
    have hlt := h.sum
    have hc0 := s.c0.toNat_lt
    unfold St.worth
    rw [hsum]
    split_ifs with hbegun
    · have := hsmall hbegun
      simp only [su, UInt8.toNat_zero]
      omega
    · omega
  obtain ⟨hlt, hworth⟩ := hlast _ rfl
  generalize (if s.mlen = -1 then (s.sum + su s.c0 0) % 2 ^ 32 else s.sum) = sum at hlt hworth
  obtain ⟨hsame, hle⟩ := reduce_spec hlt
  obtain ⟨hwords, hle'⟩ := foldl_words ((ms.flatMap Buf.data).take len)
  rw [hworth] at hsame hle ⊢
  rw [(hsame.trans (h.same.trans hwords.symm)).eq hle hle']
  omega

end Cksum
