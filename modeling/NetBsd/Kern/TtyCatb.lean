import Mathlib
import NetBsd.Kern.TtyRing

/-!
# Bulk copies into ring buffers

`rb_write` puts bytes into a ring buffer in one or two copies, and `catb` moves what one ring buffer
holds behind what another holds with two such calls. One place must stay free, which the shortcuts
of `rb_write` for the second copy do not see to.

## Main definitions

* `putcs`: `putc` for one byte after the other, until it fails
* `catb`: concatenate ring buffers
* `Writes`, `Moves`: where the copies do what they are for

## Main results

* `rbWrite_iff`: `rb_write` is `putc` for the bytes one by one, but for calls that leave no room,
  where the free places do not reach the end of the buffer
* `bulk_copies`: so it is, and when `catb` loses nothing
-/

namespace TtyRing

open Circular

/-- `putc` for the bytes one by one, until it fails: the bytes that were accepted. -/
def putcs : List UInt8 → Ringb → ℕ × Ringb
  | [], rb => (0, rb)
  | c :: l, rb =>
    let r := putc c.toNat rb
    if r.1 = -1 then (0, rb)
    else
      let rest := putcs l r.2
      (rest.1 + 1, rest.2)

/-- `RB_ROLLOVER`. -/
def rbRollover (p : ℕ) : Fin rbsz := if h : p > rbsz - 1 then 0 else
  ⟨p, by have hone := one_lt_rbsz; omega⟩

/-- The contiguous bytes at the beginning. -/
def contig (rb : Ringb) : List UInt8 := window rb.rbBuf rb.rbHd (rbContigget rb).toNat

/-- The buffer after its contiguous bytes were taken out. -/
def advance (rb : Ringb) : Ringb :=
  { rb with rbHd := rbRollover (rb.rbHd + (rbContigget rb).toNat) }

variable {rb : Ringb} {l : List UInt8}

theorem rbContigget_toNat (rb : Ringb) : (rbContigget rb).toNat =
    if (rb.rbHd : ℕ) ≤ rb.rbTl then (rb.rbTl : ℕ) - rb.rbHd else rbsz - rb.rbHd := by
  have hhd := rb.rbHd.isLt
  have htl := rb.rbTl.isLt
  simp only [rbContigget, Fin.le_def]
  split <;> omega

/-- The head is at the tail, or it is rolled over to the beginning of the buffer. -/
theorem advance_hd (rb : Ringb) : ((advance rb).rbHd : ℕ) =
    if (rb.rbHd : ℕ) ≤ rb.rbTl then (rb.rbTl : ℕ) else 0 := by
  have hone := one_lt_rbsz
  have hhd := rb.rbHd.isLt
  have htl := rb.rbTl.isLt
  rw [advance]
  dsimp only
  rw [rbContigget_toNat, rbRollover]
  split_ifs with h h' h'
  · omega
  · change (rb.rbHd : ℕ) + (rb.rbTl - rb.rbHd) = _
    omega
  · rfl
  · omega

/-- Once the head is rolled over, the bytes that are left are contiguous. -/
theorem advance_tl (rb : Ringb) :
    ((advance rb).rbHd : ℕ) + (rbContigget (advance rb)).toNat = rb.rbTl := by
  have hhd := advance_hd rb
  have hle : ((advance rb).rbHd : ℕ) ≤ rb.rbTl := by
    rw [hhd]
    split_ifs <;> omega
  have hget := rbContigget_toNat (advance rb)
  change _ = if _ ≤ (rb.rbTl : ℕ) then (rb.rbTl : ℕ) - _ else _ at hget
  rw [if_pos hle] at hget
  omega

/-- `catb`: what is left of the first buffer, and the second with its bytes. -/
def catb (rbfrom rbto : Ringb) : Ringb × Ringb :=
  let rbto₁ := (rbWrite rbto (contig rbfrom)).2
  let rbfrom₁ := advance rbfrom
  let rbto₂ := (rbWrite rbto₁ (contig rbfrom₁)).2
  ({ rbfrom₁ with
    rbHd := ⟨rbfrom₁.rbHd + (rbContigget rbfrom₁).toNat, advance_tl rbfrom ▸ rbfrom.rbTl.isLt⟩ },
    rbto₂)

/-! ## One by one -/

theorem char_toNat (c : UInt8) : char c.toNat = c := by
  rw [char, BitVec.ofInt_natCast]
  apply UInt8.toBitVec_inj.mp
  apply BitVec.eq_of_toNat_eq
  rw [UInt8.toBitVec_ofBitVec, BitVec.toNat_ofNat]
  exact Nat.mod_eq_of_lt c.toNat_lt

theorem fill_nil {N : ℕ} {α : Type} {f : Fin N → α} {i : Fin N} : fill f i [] = f := rfl

/-- Writing one slot, and the slots behind it. -/
theorem fill_cons {N : ℕ} {α : Type} {f : Fin N → α} {i : Fin N} {a : α} {l : List α}
    (h : l.length < N) : fill (Function.update f i a) (skip i 1) l = fill f i (a :: l) := by
  funext p
  obtain ⟨k, hk, rfl⟩ : ∃ k < N, skip i k = p := ⟨gap i p, gap_lt i p, skip_gap i p⟩
  rw [fill, fill, gap_skip hk]
  cases k with
  | zero =>
    -- The first slot is the last one behind it.
    have hback : skip (skip i 1) (N - 1) = i := by
      rw [skip_skip, show 1 + (N - 1) = N by omega]
      apply Fin.ext
      rw [skip_val (le_refl N), if_neg (by omega), Nat.add_sub_cancel]
    have hgap : gap (skip i 1) i = N - 1 := by
      have hgap := @gap_skip N (skip i 1) (N - 1) (by omega)
      rw [hback] at hgap
      exact hgap
    rw [skip_zero, Function.update_self, hgap, List.getElem?_eq_none (by omega)]
    rfl
  | succ k =>
    have hgap : gap (skip i 1) (skip i (k + 1)) = k := by
      rw [Nat.add_comm, ← skip_skip, gap_skip (by omega)]
    have hne : skip i (k + 1) ≠ i := by
      intro heq
      have := (skip_inj hk (by omega)).mp (heq.trans skip_zero.symm)
      omega
    rw [hgap, Function.update_of_ne hne, List.getElem?_cons_succ]

/-- The bytes that there is room for go behind those that the buffer holds. -/
theorem putcs_eq (rb : Ringb) (l : List UInt8) :
    putcs l rb = (min l.length (rbsz - 1 - count rb), { rb with
      rbBuf := fill rb.rbBuf rb.rbTl (l.take (rbsz - 1 - count rb))
      rbTl := skip rb.rbTl (min l.length (rbsz - 1 - count rb)) }) := by
  have hone := one_lt_rbsz
  induction l generalizing rb with
  | nil =>
    rw [putcs, List.length_nil, Nat.zero_min, skip_zero, List.take_nil, fill_nil]
  | cons c l ih =>
    have hlt := count_lt rb
    have hfull := full_iff rb
    rw [length_bytes] at hfull
    rw [putcs, putc]
    by_cases hroom : rbSucc rb.rbTl = rb.rbHd
    · rw [if_pos hroom, if_pos rfl, hfull.mp hroom, Nat.sub_self, Nat.min_zero, skip_zero,
        List.take_zero, fill_nil]
    · have hcount : count { rb with
          rbBuf := Function.update rb.rbBuf rb.rbTl c, rbTl := skip rb.rbTl 1 } =
          count rb + 1 := by
        change gap rb.rbHd (skip rb.rbTl 1) = _
        rw [rbTl_eq rb, skip_skip, gap_skip]
        have hne := mt hfull.mpr hroom
        omega
      obtain ⟨k, hk⟩ : ∃ k, rbsz - 1 - count rb = k + 1 := by
        have hne := mt hfull.mpr hroom
        exact ⟨rbsz - 1 - count rb - 1, by omega⟩
      rw [if_neg hroom, char_toNat, rbSucc_eq]
      dsimp only
      rw [if_neg (by decide), ih, hcount, hk]
      have hk' : rbsz - 1 - (count rb + 1) = k := by omega
      have htake : (l.take k).length < rbsz := by
        rw [List.length_take]
        omega
      rw [hk', List.take_succ_cons, fill_cons htake, List.length_cons, Nat.add_min_add_right,
        skip_skip, Nat.add_comm 1]

/-! ## In one call -/

/-- The bytes fit, or there are none and the tail is where they would be put to. -/
def Writes (rb : Ringb) (n : ℕ) : Prop :=
  Fits rb n ∨ n = 0 ∧ (rb.rbHd : ℕ) = 1 ∧ (rb.rbTl : ℕ) = 0

theorem bcopyTo_nil (f : Fin rbsz → UInt8) (i : ℕ) : bcopyTo f i [] = f := by
  funext p
  rw [bcopyTo]
  split <;> rfl

/-- Bytes that reach the end of the free places are copied in two parts. -/
theorem rbWrite_wrap (h : (rbContigput rb).toNat ≤ l.length) :
    (rbWrite rb l).1 = (rbContigput rb).toNat +
        min (l.length - (rbContigput rb).toNat) rb.rbHd ∧
      ((rbWrite rb l).2.rbTl : ℕ) = min (l.length - (rbContigput rb).toNat) rb.rbHd := by
  rw [rbWrite, dif_neg (by omega), ← List.length_drop]
  exact ⟨rfl, rfl⟩

theorem rbWrite_hd (rb : Ringb) (l : List UInt8) : (rbWrite rb l).2.rbHd = rb.rbHd := by
  rw [rbWrite]
  split <;> rfl

/-- Nothing is written where there is no place, and the tail is put to the beginning. -/
theorem rbWrite_nil (h : (rbContigput rb).toNat = 0) (htail : rb.rbTl = 0) :
    rbWrite rb [] = (0, rb) := by
  obtain ⟨hd, tl, buf⟩ := rb
  obtain rfl : tl = 0 := htail
  rw [rbWrite, dif_neg (by rw [h]; exact Nat.not_lt_zero 0)]
  simp only [h, List.drop_nil, List.length_nil, Nat.zero_min, List.take_nil, bcopyTo_nil]
  rfl

theorem rbWrite_iff (rb : Ringb) (l : List UInt8) :
    rbWrite rb l = putcs l rb ↔ Writes rb l.length := by
  have hone := one_lt_rbsz
  have hhd := rb.rbHd.isLt
  have htl := rb.rbTl.isLt
  have hput := rbContigput_toNat rb
  have hcount := count_eq rb
  rw [putcs_eq]
  constructor
  · intro heq
    obtain hlt | hge := lt_or_ge l.length (rbContigput rb).toNat
    · -- Bytes in front of the end of the free places never fill the buffer.
      refine .inl (.inl ?_)
      split_ifs at hput hcount <;> omega
    · -- Else the tail says how many bytes were copied, and `putc` would copy as many.
      obtain ⟨hret, htail⟩ := rbWrite_wrap hge
      rw [heq] at hret htail
      change (skip rb.rbTl _ : ℕ) = _ at htail
      rw [skip_val (by omega)] at htail
      rw [Writes, Fits]
      dsimp only at hret
      by_cases hzero : (rb.rbHd : ℕ) ≤ rb.rbTl ∧ (rb.rbHd : ℕ) ≠ 0
      · rw [if_pos hzero] at hput
        rw [if_pos hzero.1] at hcount
        refine .inl ?_
        by_contra hmore
        have hroom : rbsz - 1 - count rb ≤ l.length := by omega
        have hrest : (rb.rbHd : ℕ) ≤ l.length - (rbContigput rb).toNat := by omega
        rw [min_eq_right hroom, min_eq_right hrest] at hret
        omega
      · -- What is free is in one part.
        rw [if_neg hzero] at hput
        have hplaces : rbsz - 1 - count rb = (rbContigput rb).toNat := by
          split_ifs at hput hcount <;> omega
        have hend : rb.rbTl + (rbContigput rb).toNat + 1 = rbsz ∨
            rb.rbTl + (rbContigput rb).toNat + 1 = rb.rbHd := by
          split_ifs at hput <;> omega
        rw [hplaces, min_eq_right hge] at hret htail
        have hnone : min (l.length - (rbContigput rb).toNat) (rb.rbHd : ℕ) = 0 := by omega
        rw [hnone, if_pos (by omega)] at htail
        refine .inr ?_
        omega
  · rintro (h | ⟨hnil, h1, h0⟩)
    · have hle : l.length ≤ rbsz - 1 - count rb := by
        rw [Fits] at h
        omega
      rw [rbWrite_fits rb l h, min_eq_left hle, List.take_of_length_le hle]
    · obtain rfl := List.length_eq_zero_iff.mp hnil
      have hzero : (rbContigput rb).toNat = 0 := by
        split_ifs at hput <;> omega
      rw [rbWrite_nil hzero (Fin.ext h0), List.length_nil, Nat.zero_min, List.take_nil, fill_nil,
        skip_zero]

/-- Bytes that can be written go behind those that the buffer holds. -/
theorem Writes.bytes (h : Writes rb l.length) : bytes (rbWrite rb l).2 = bytes rb ++ l := by
  obtain h' | ⟨hnil, -, -⟩ := id h
  · exact bytes_rbWrite_fits rb l h'
  · rw [(rbWrite_iff rb l).mpr h, List.length_eq_zero_iff.mp hnil, List.append_nil]
    rfl

theorem Writes.count (h : Writes rb l.length) :
    count (rbWrite rb l).2 = count rb + l.length := by
  rw [← length_bytes, h.bytes, List.length_append, length_bytes]

theorem Writes.rbTl (h : Writes rb l.length) :
    (rbWrite rb l).2.rbTl = skip rb.rbTl l.length := by
  have hle : l.length ≤ rbsz - 1 - TtyRing.count rb := by
    have hone := one_lt_rbsz
    rw [Writes, Fits] at h
    omega
  rw [(rbWrite_iff rb l).mpr h, putcs_eq, min_eq_left hle]

/-- A write that is to fill the buffer and is not right leaves it with room. -/
theorem count_rbWrite_lt (h : ¬Writes rb l.length) (hfill : count rb + l.length = rbsz - 1) :
    count (rbWrite rb l).2 < rbsz - 1 := by
  have hone := one_lt_rbsz
  have hhd := rb.rbHd.isLt
  have htl := rb.rbTl.isLt
  have hput := rbContigput_toNat rb
  have hcount := count_eq rb
  rw [Writes, Fits] at h
  obtain ⟨-, htail⟩ := @rbWrite_wrap rb l (by split_ifs at hput hcount <;> omega)
  rw [count_eq, rbWrite_hd, htail]
  by_cases hle : (rb.rbHd : ℕ) ≤ rb.rbTl
  · have hzero : (rb.rbHd : ℕ) = 0 := by omega
    split_ifs <;> omega
  · rw [if_neg hle] at hcount
    rw [if_neg fun h => hle h.1, if_neg hle] at hput
    split_ifs <;> omega

/-! ## Concatenation -/

/-- Nothing is left of the first buffer, and the second holds its bytes behind its own. -/
def Moves (rbfrom rbto : Ringb) : Prop :=
  bytes (catb rbfrom rbto).1 = [] ∧ bytes (catb rbfrom rbto).2 = bytes rbto ++ bytes rbfrom

/-- The bytes leave room, or they fill the second buffer: in two parts, where the first of them
does not reach the end of the buffer, or in one part, where the head is behind the first place. -/
def Concats (rbfrom rbto : Ringb) : Prop :=
  count rbto + count rbfrom < rbsz - 1 ∨
    count rbto + count rbfrom = rbsz - 1 ∧
      (if (rbfrom.rbHd : ℕ) ≤ rbfrom.rbTl ∨ (rbfrom.rbTl : ℕ) = 0 then (rbto.rbHd : ℕ) = 1
      else 0 < (rbto.rbHd : ℕ) ∧ (rbto.rbHd : ℕ) ≤ rbto.rbTl ∧
        rbto.rbTl + (rbsz - rbfrom.rbHd) < rbsz)

variable {rbfrom rbto : Ringb}

/-- The bytes are those up to the end of the buffer, and those from its beginning on. -/
theorem contig_append (rb : Ringb) : contig rb ++ contig (advance rb) = bytes rb := by
  have hhd := rb.rbHd.isLt
  have htl := rb.rbTl.isLt
  have hget := rbContigget_toNat rb
  have htail := advance_tl rb
  have hnext := advance_hd rb
  have hskip : (advance rb).rbHd = skip rb.rbHd (rbContigget rb).toNat := by
    apply Fin.ext
    rw [skip_val (by split_ifs at hget <;> omega), hnext, hget]
    split_ifs <;> omega
  have hcount : count rb = (rbContigget rb).toNat + (rbContigget (advance rb)).toNat := by
    rw [count_eq]
    split_ifs at hget hnext ⊢ <;> omega
  rw [bytes, hcount, window_add, ← hskip]
  rfl

theorem length_contig (rb : Ringb) : (contig rb).length + (contig (advance rb)).length =
    count rb := by
  rw [← List.length_append, contig_append, length_bytes]

theorem catb_from (rbfrom rbto : Ringb) : bytes (catb rbfrom rbto).1 = [] := by
  rw [← empty_iff]
  exact Fin.ext (advance_tl rbfrom)

/-- Nothing is lost if both writes are right. -/
theorem moves_iff_writes : Moves rbfrom rbto ↔ Writes rbto (contig rbfrom).length ∧
    Writes (rbWrite rbto (contig rbfrom)).2 (contig (advance rbfrom)).length := by
  have hlen := length_contig rbfrom
  constructor
  · rintro ⟨-, hbytes⟩
    have hcount := congrArg List.length hbytes
    rw [List.length_append, length_bytes, length_bytes, length_bytes] at hcount
    have hlt := count_lt (catb rbfrom rbto).2
    change count (rbWrite (rbWrite rbto (contig rbfrom)).2 (contig (advance rbfrom))).2 = _
      at hcount
    change count (rbWrite (rbWrite rbto (contig rbfrom)).2 (contig (advance rbfrom))).2 < _ at hlt
    -- A write that is not right would be one that fills the buffer, and leave it with room.
    by_cases h₁ : Writes rbto (contig rbfrom).length
    · refine ⟨h₁, ?_⟩
      by_contra h₂
      have hfirst := h₁.count
      have hless := count_rbWrite_lt h₂
      rw [Writes, Fits] at h₂
      omega
    · exfalso
      have hless := count_rbWrite_lt h₁
      rw [Writes, Fits] at h₁
      have hnone : (contig (advance rbfrom)).length = 0 := by omega
      have h₂ : Writes (rbWrite rbto (contig rbfrom)).2 (contig (advance rbfrom)).length := by
        refine .inl (.inl ?_)
        omega
      have hsecond := h₂.count
      omega
  · rintro ⟨h₁, h₂⟩
    refine ⟨catb_from rbfrom rbto, ?_⟩
    rw [← contig_append rbfrom, ← List.append_assoc, ← h₁.bytes, ← h₂.bytes]
    rfl

theorem moves_iff : Moves rbfrom rbto ↔ Concats rbfrom rbto := by
  have hone := one_lt_rbsz
  have hhd := rbfrom.rbHd.isLt
  have htl := rbfrom.rbTl.isLt
  have hhd' := rbto.rbHd.isLt
  have htl' := rbto.rbTl.isLt
  have hlen := length_contig rbfrom
  have hget := rbContigget_toNat rbfrom
  have hcount := count_eq rbto
  rw [show (rbContigget rbfrom).toNat = (contig rbfrom).length from length_window.symm] at hget
  -- The second part is there only if the bytes wrap around.
  have hrest : (contig (advance rbfrom)).length =
      if (rbfrom.rbHd : ℕ) ≤ rbfrom.rbTl then 0 else (rbfrom.rbTl : ℕ) := by
    have hfrom := count_eq rbfrom
    split_ifs at hget hfrom ⊢ <;> omega
  have hle : (contig rbfrom).length ≤ rbsz := by
    split_ifs at hget <;> omega
  -- What the second write finds.
  have hsecond (h₁ : Writes rbto (contig rbfrom).length) :
      Writes (rbWrite rbto (contig rbfrom)).2 (contig (advance rbfrom)).length ↔
        (count rbto + count rbfrom < rbsz - 1 ∨ count rbto + count rbfrom = rbsz - 1 ∧
          0 < (rbto.rbHd : ℕ) ∧ (rbto.rbHd : ℕ) ≤ (skip rbto.rbTl (contig rbfrom).length : ℕ)) ∨
        (contig (advance rbfrom)).length = 0 ∧ (rbto.rbHd : ℕ) = 1 ∧
          (skip rbto.rbTl (contig rbfrom).length : ℕ) = 0 := by
    rw [Writes, Fits, h₁.count, h₁.rbTl, rbWrite_hd, Nat.add_assoc, hlen]
  have hcond : ((rbfrom.rbHd : ℕ) ≤ rbfrom.rbTl ∨ (rbfrom.rbTl : ℕ) = 0) ↔
      (contig (advance rbfrom)).length = 0 := by
    split_ifs at hrest <;> omega
  have hfirst : (rbfrom.rbHd : ℕ) ≤ rbfrom.rbTl ∨
      (contig rbfrom).length = rbsz - rbfrom.rbHd := by
    split_ifs at hget <;> omega
  -- The places between head and tail, and the place behind the first part.
  have hto : count rbto + rbto.rbHd = rbto.rbTl ∨ count rbto + rbto.rbHd = rbto.rbTl + rbsz := by
    split_ifs at hcount <;> omega
  have htail := @skip_val rbsz rbto.rbTl (contig rbfrom).length hle
  have hcount' := count_lt rbto
  clear hget hcount
  rw [moves_iff_writes, Concats]
  generalize (skip rbto.rbTl (contig rbfrom).length : ℕ) = t at hsecond htail
  by_cases hb : (contig (advance rbfrom)).length = 0
  · rw [if_pos (hcond.mpr hb)]
    constructor
    · rintro ⟨h₁, h₂⟩
      rw [hsecond h₁] at h₂
      rw [Writes, Fits] at h₁
      by_cases hlt : count rbto + count rbfrom < rbsz - 1
      · exact .inl hlt
      · obtain (h₁ | ⟨h₁, -, -⟩) | ⟨h₁, hhead, -⟩ := h₁
        · omega
        · refine .inr ⟨by omega, ?_⟩
          obtain (h₂ | ⟨-, hpos, h₂⟩) | ⟨-, hhead, -⟩ := h₂
          · omega
          · split_ifs at htail <;> omega
          · exact hhead
        · exact .inr ⟨by omega, hhead⟩
    · rintro (h | ⟨h, hhead⟩)
      · have h₁ : Writes rbto (contig rbfrom).length := .inl (.inl (by omega))
        exact ⟨h₁, (hsecond h₁).mpr (.inl (.inl h))⟩
      · have h₁ : Writes rbto (contig rbfrom).length := by
          by_cases hzero : (rbto.rbTl : ℕ) = 0
          · exact .inr ⟨by omega, hhead, hzero⟩
          · exact .inl (.inr ⟨by omega, by omega, by omega⟩)
        refine ⟨h₁, (hsecond h₁).mpr (.inr ⟨hb, hhead, ?_⟩)⟩
        split_ifs at htail <;> omega
  · rw [if_neg fun h => hb (hcond.mp h)]
    replace hfirst := hfirst.resolve_left fun h => hb (hcond.mp (.inl h))
    constructor
    · rintro ⟨h₁, h₂⟩
      rw [hsecond h₁] at h₂
      obtain (h₂ | ⟨heq, hpos, h₂⟩) | ⟨h₂, -, -⟩ := h₂
      · exact .inl h₂
      · refine .inr ⟨heq, hpos, ?_, ?_⟩
        · split_ifs at htail <;> omega
        · split_ifs at htail <;> omega
      · exact absurd h₂ hb
    · intro h
      have h₁ : Writes rbto (contig rbfrom).length := by
        refine .inl (.inl ?_)
        omega
      refine ⟨h₁, (hsecond h₁).mpr ?_⟩
      obtain h | ⟨heq, hpos, hbehind, hfit⟩ := h
      · exact .inl (.inl h)
      · refine .inl (.inr ⟨heq, hpos, ?_⟩)
        split_ifs at htail <;> omega

/-- `rb_write` puts down what `putc` would, one by one, and `catb` moves the bytes, where these
conditions hold and nowhere else. -/
theorem bulk_copies (rb rbfrom rbto : Ringb) (l : List UInt8) :
    (rbWrite rb l = putcs l rb ↔ Writes rb l.length) ∧
      (Moves rbfrom rbto ↔ Concats rbfrom rbto) :=
  ⟨rbWrite_iff rb l, moves_iff⟩

/-- A byte that fills a buffer whose head is at the beginning, and the 1022 bytes before it, are
lost. -/
theorem rbWrite_loses :
    (rbWrite ⟨0, 1022, fun _ => 0⟩ [65]).1 = 1 ∧
      bytes (rbWrite ⟨0, 1022, fun _ => 0⟩ [65]).2 = [] ∧
      count ⟨0, 1022, fun _ => 0⟩ = 1022 ∧ (putcs [65] ⟨0, 1022, fun _ => 0⟩).1 = 1 ∧
      count (putcs [65] ⟨0, 1022, fun _ => 0⟩).2 = 1023 := by
  decide

end TtyRing
