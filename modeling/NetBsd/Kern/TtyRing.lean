import Mathlib
import NetBsd.Lib.Circular

/-!
# Ring buffers of the terminal driver

The ring buffers of `sys/tty.h` and `kern/tty_ring.c`: characters go in and out at both ends. A
pointer into `rb_buf` is its offset.

## Main definitions

* `Ringb`: a ring buffer, with the macros of `sys/tty.h`
* `putc`, `getc`, `nextc`, `ungetc`, `unputc`, `initrb`: the functions of `kern/tty_ring.c`
* `rbWrite`: `rb_write`, which copies a run of bytes in
* `bytes`: what a ring buffer holds, first to last
* `Deque.apply`: the same calls on a double-ended queue of at most `rbsz - 1` bytes

## Main results

* `apply_deque`: a call on a ring buffer is the call on the queue of its bytes
* `run_deque`: so is every sequence of calls, and the macros measure the queue
* `rbWrite_fits`: a run that fits is put behind what the buffer holds
-/

namespace TtyRing

open Circular

/-! ## The buffer -/

/-- `RBSZ`. -/
def rbsz : ℕ := 1024

instance : NeZero rbsz := ⟨by decide⟩

theorem one_lt_rbsz : 1 < rbsz := by decide

structure Ringb where
  rbHd : Fin rbsz
  rbTl : Fin rbsz
  rbBuf : Fin rbsz → UInt8

variable {rb : Ringb}

/-- `RB_SUCC`. -/
def rbSucc (p : Fin rbsz) : Fin rbsz := if h : (p : ℕ) ≥ rbsz - 1 then 0 else
  ⟨p + 1, by omega⟩

/-- `RB_PRED`. -/
def rbPred (p : Fin rbsz) : Fin rbsz :=
  if (p : ℕ) ≤ 0 then ⟨rbsz - 1, by decide⟩ else ⟨p - 1, by omega⟩

/-- `RB_LEN`. -/
def rbLen (rp : Ringb) : ℤ :=
  if rp.rbHd ≤ rp.rbTl then (rp.rbTl : ℤ) - rp.rbHd else rbsz - ((rp.rbHd : ℤ) - rp.rbTl)

/-- `RB_CONTIGPUT`. -/
def rbContigput (rp : Ringb) : ℤ :=
  if rbPred rp.rbHd < rp.rbTl then (rbsz : ℤ) - rp.rbTl else (rbPred rp.rbHd : ℤ) - rp.rbTl

/-- `RB_CONTIGGET`. -/
def rbContigget (rp : Ringb) : ℤ :=
  if rp.rbHd ≤ rp.rbTl then (rp.rbTl : ℤ) - rp.rbHd else (rbsz : ℤ) - rp.rbHd

/-- An `int` stored in a `char`. -/
def char (c : ℤ) : UInt8 := .ofBitVec (.ofInt 8 c)

/-- A `char`, which has a sign, as an `int`. -/
def signed (c : UInt8) : ℤ := c.toBitVec.toInt

def putc (c : ℤ) (rbp : Ringb) : ℤ × Ringb :=
  let nxtp := rbSucc rbp.rbTl
  if nxtp = rbp.rbHd then (-1, rbp)
  else (0, { rbp with rbBuf := Function.update rbp.rbBuf rbp.rbTl (char c), rbTl := nxtp })

def getc (rbp : Ringb) : ℤ × Ringb :=
  if rbp.rbHd = rbp.rbTl then (-1, rbp)
  else ((rbp.rbBuf rbp.rbHd).toNat, { rbp with rbHd := rbSucc rbp.rbHd })

/-- The character at a pointer, and the pointer moved on. -/
def nextc (cpp : Fin rbsz) (rbp : Ringb) : ℤ × Fin rbsz :=
  if cpp = rbp.rbTl then (0, cpp) else (signed (rbp.rbBuf cpp), rbSucc cpp)

def ungetc (c : ℤ) (rbp : Ringb) : ℤ × Ringb :=
  let backp := rbPred rbp.rbHd
  if backp = rbp.rbTl then (-1, rbp)
  else (0, { rbp with rbHd := backp, rbBuf := Function.update rbp.rbBuf backp (char c) })

def unputc (rbp : Ringb) : ℤ × Ringb :=
  if rbp.rbHd = rbp.rbTl then (-1, rbp)
  else
    let backp := rbPred rbp.rbTl
    ((rbp.rbBuf backp).toNat, { rbp with rbTl := backp })

def initrb (rbp : Ringb) : Ringb := { rbp with rbHd := 0, rbTl := 0 }

/-- A call of one of the four functions that change a buffer. -/
inductive Op where
  | putc (c : ℤ)
  | getc
  | ungetc (c : ℤ)
  | unputc

/-- What a call returns, and the buffer it leaves. -/
def apply : Op → Ringb → ℤ × Ringb
  | .putc c, rb => putc c rb
  | .getc, rb => getc rb
  | .ungetc c, rb => ungetc c rb
  | .unputc, rb => unputc rb

/-- A sequence of calls: what each returns, and the buffer they leave. -/
def run : List Op → Ringb → List ℤ × Ringb
  | [], rb => ([], rb)
  | op :: ops, rb =>
    let r := apply op rb
    let rest := run ops r.2
    (r.1 :: rest.1, rest.2)

/-- What `k` calls of `nextc` return from a pointer on. -/
def visits (rb : Ringb) : ℕ → Fin rbsz → List ℤ
  | 0, _ => []
  | k + 1, cp =>
    let r := nextc cp rb
    r.1 :: visits rb k r.2

/-! ## The queue -/

namespace Deque

/-- A call on a queue of bytes. -/
def apply : Op → List UInt8 → ℤ × List UInt8
  | .putc c, l => if l.length = rbsz - 1 then (-1, l) else (0, l ++ [char c])
  | .ungetc c, l => if l.length = rbsz - 1 then (-1, l) else (0, char c :: l)
  | .getc, [] => (-1, [])
  | .getc, b :: l => (b.toNat, l)
  | .unputc, l =>
    match l.getLast? with
    | none => (-1, l)
    | some b => (b.toNat, l.dropLast)

def run : List Op → List UInt8 → List ℤ × List UInt8
  | [], l => ([], l)
  | op :: ops, l =>
    let r := apply op l
    let rest := run ops r.2
    (r.1 :: rest.1, rest.2)

end Deque

/-! ## A ring buffer as a queue -/

theorem rbSucc_eq (p : Fin rbsz) : rbSucc p = skip p 1 := by
  have := one_lt_rbsz
  have hp := p.isLt
  apply Fin.ext
  rw [skip_val (by omega), rbSucc]
  split
  · rw [if_neg (by omega)]
    change 0 = _
    omega
  · rw [if_pos (by omega)]

theorem rbPred_val (p : Fin rbsz) : (rbPred p : ℕ) = if (p : ℕ) ≤ 0 then rbsz - 1 else p - 1 := by
  rw [rbPred]
  split <;> rfl

theorem skip_rbPred (p : Fin rbsz) : skip (rbPred p) 1 = p := by
  have := one_lt_rbsz
  have hp := p.isLt
  apply Fin.ext
  rw [skip_val (by omega), rbPred_val]
  split <;> split <;> omega

theorem rbPred_skip (p : Fin rbsz) (k : ℕ) : rbPred (skip p (k + 1)) = skip p k := by
  have hback := skip_rbPred (skip p (k + 1))
  have hfwd : skip (skip p k) 1 = skip p (k + 1) := skip_skip
  have hinj (a b : Fin rbsz) (h : skip a 1 = skip b 1) : a = b := by
    have := one_lt_rbsz
    have hval := congrArg Fin.val h
    rw [skip_val (by omega), skip_val (by omega)] at hval
    apply Fin.ext
    split at hval <;> split at hval <;> omega
  exact hinj _ _ (hback.trans hfwd.symm)

/-- How many bytes are between the two pointers. -/
def count (rb : Ringb) : ℕ := gap rb.rbHd rb.rbTl

/-- What a ring buffer holds, first to last. -/
def bytes (rb : Ringb) : List UInt8 := window rb.rbBuf rb.rbHd (count rb)

theorem count_lt (rb : Ringb) : count rb < rbsz := gap_lt _ _

theorem count_eq (rb : Ringb) : count rb =
    if (rb.rbHd : ℕ) ≤ rb.rbTl then (rb.rbTl : ℕ) - rb.rbHd else rb.rbTl + rbsz - rb.rbHd := rfl

theorem rbTl_eq (rb : Ringb) : rb.rbTl = skip rb.rbHd (count rb) := (skip_gap _ _).symm

@[simp] theorem length_bytes : (bytes rb).length = count rb := length_window

/-- The queue from the pointers: `n` bytes from `rb_hd` to `rb_tl`. -/
theorem bytes_eq {n : ℕ} (hn : n < rbsz) (h : rb.rbTl = skip rb.rbHd n) :
    bytes rb = window rb.rbBuf rb.rbHd n := by
  rw [bytes, count, h, gap_skip hn]

theorem bytes_initrb (rb : Ringb) : bytes (initrb rb) = [] := rfl

/-- The buffer is full when the next place is that of the first byte. -/
theorem full_iff (rb : Ringb) : rbSucc rb.rbTl = rb.rbHd ↔ (bytes rb).length = rbsz - 1 := by
  have hlt := count_lt rb
  rw [rbSucc_eq, rbTl_eq rb, skip_skip, length_bytes]
  constructor
  · intro h
    by_contra hne
    have := (skip_inj (by omega) (by omega)).mp (h.trans skip_zero.symm)
    omega
  · intro h
    rw [h]
    apply Fin.ext
    rw [skip_val (by omega)]
    split <;> omega

theorem full_iff' (rb : Ringb) : rbPred rb.rbHd = rb.rbTl ↔ (bytes rb).length = rbsz - 1 := by
  rw [← full_iff, rbSucc_eq]
  constructor
  · intro h
    rw [← h, skip_rbPred]
  · intro h
    rw [← h]
    exact rbPred_skip rb.rbTl 0 |>.trans skip_zero

theorem empty_iff (rb : Ringb) : rb.rbHd = rb.rbTl ↔ bytes rb = [] := by
  rw [← List.length_eq_zero_iff, length_bytes, rbTl_eq rb]
  constructor
  · intro h
    exact ((skip_inj (by omega) (count_lt rb)).mp (skip_zero.trans h)).symm
  · intro h
    rw [h, skip_zero]

theorem putc_deque (c : ℤ) (rb : Ringb) :
    ((putc c rb).1, bytes (putc c rb).2) = Deque.apply (.putc c) (bytes rb) := by
  simp only [putc, Deque.apply, full_iff]
  split
  · rfl
  next hfull =>
    have hlt := count_lt rb
    rw [length_bytes] at hfull
    congr 1
    rw [bytes_eq (n := count rb + 1) (by omega), rbTl_eq rb, window_update_back hlt]
    · rfl
    · rw [rbSucc_eq, rbTl_eq rb, skip_skip]

theorem ungetc_deque (c : ℤ) (rb : Ringb) :
    ((ungetc c rb).1, bytes (ungetc c rb).2) = Deque.apply (.ungetc c) (bytes rb) := by
  simp only [ungetc, Deque.apply, full_iff']
  split
  · rfl
  next hfull =>
    have hlt := count_lt rb
    rw [length_bytes] at hfull
    congr 1
    rw [bytes_eq (n := count rb + 1) (by omega),
      window_update_front (skip_rbPred _) hlt]
    · rfl
    · rw [rbTl_eq rb, Nat.add_comm, ← skip_skip, skip_rbPred]

/-- The bytes of a buffer that is not empty. -/
theorem count_succ (h : rb.rbHd ≠ rb.rbTl) : ∃ n, count rb = n + 1 := by
  apply Nat.exists_eq_succ_of_ne_zero
  intro hzero
  apply h
  rw [rbTl_eq rb, hzero, skip_zero]

theorem getc_deque (rb : Ringb) :
    ((getc rb).1, bytes (getc rb).2) = Deque.apply .getc (bytes rb) := by
  rw [getc]
  split
  next hempty =>
    rw [(empty_iff rb).mp hempty]
    rfl
  next hne =>
    rcases count_succ hne with ⟨n, hn⟩
    have hlt := count_lt rb
    have htl := rbTl_eq rb
    rw [hn] at htl
    have hbytes : bytes rb = rb.rbBuf rb.rbHd :: window rb.rbBuf (skip rb.rbHd 1) n := by
      rw [bytes, hn, window_succ]
    rw [hbytes, rbSucc_eq]
    simp only [Deque.apply]
    rw [bytes_eq (n := n) (by omega)]
    rw [htl, skip_skip, Nat.add_comm]

theorem unputc_deque (rb : Ringb) :
    ((unputc rb).1, bytes (unputc rb).2) = Deque.apply .unputc (bytes rb) := by
  rw [unputc]
  split
  next hempty =>
    rw [(empty_iff rb).mp hempty]
    rfl
  next hne =>
    rcases count_succ hne with ⟨n, hn⟩
    have hlt := count_lt rb
    have htl := rbTl_eq rb
    rw [hn] at htl
    have hbytes : bytes rb = window rb.rbBuf rb.rbHd n ++ [rb.rbBuf (skip rb.rbHd n)] := by
      rw [bytes, hn, window_concat]
    have hback : rbPred rb.rbTl = skip rb.rbHd n := by rw [htl, rbPred_skip]
    rw [hbytes, hback]
    simp only [Deque.apply, List.getLast?_append, List.getLast?_singleton, Option.some_or,
      List.dropLast_concat]
    rw [bytes_eq (n := n) (by omega) rfl]

/-- A call on a ring buffer is the call on the queue of its bytes. -/
theorem apply_deque (op : Op) (rb : Ringb) :
    ((apply op rb).1, bytes (apply op rb).2) = Deque.apply op (bytes rb) := by
  cases op with
  | putc c => exact putc_deque c rb
  | getc => exact getc_deque rb
  | ungetc c => exact ungetc_deque c rb
  | unputc => exact unputc_deque rb

theorem run_eq (ops : List Op) (rb : Ringb) :
    ((run ops rb).1, bytes (run ops rb).2) = Deque.run ops (bytes rb) := by
  induction ops generalizing rb with
  | nil => rfl
  | cons op ops ih =>
    simp only [run, Deque.run, ← apply_deque op rb, ← ih (apply op rb).2]

/-! ## What the macros measure -/

/-- The macros measure the queue `l` in the buffer, and `nextc` visits it from `rb_hd` on: then it
stays at `rb_tl`, and returns 0. -/
structure Measures (rb : Ringb) (l : List UInt8) : Prop where
  capacity : l.length ≤ rbsz - 1
  rbLen : rbLen rb = l.length
  rbContigget : rbContigget rb = min l.length (rbsz - rb.rbHd : ℕ)
  rbContigput : rbContigput rb = min (rbsz - 1 - l.length : ℕ) (rbsz - rb.rbTl : ℕ)
  nextc : ∀ k, visits rb k rb.rbHd = (l.take k).map signed ++ List.replicate (k - l.length) 0

theorem visits_end (rb : Ringb) (k : ℕ) : visits rb k rb.rbTl = List.replicate k 0 := by
  induction k with
  | zero => rfl
  | succ k ih =>
    have hstay : nextc rb.rbTl rb = (0, rb.rbTl) := if_pos rfl
    rw [visits, hstay, List.replicate_succ, ih]

/-- From any byte on, `nextc` visits the rest. -/
theorem visits_from (rb : Ringb) (k n : ℕ) {i : Fin rbsz} (hn : n < rbsz)
    (h : rb.rbTl = skip i n) : visits rb k i =
      ((window rb.rbBuf i n).take k).map signed ++ List.replicate (k - n) 0 := by
  induction k generalizing n i with
  | zero => simp [visits]
  | succ k ih =>
    cases n with
    | zero =>
      rw [skip_zero] at h
      rw [← h, visits_end]
      simp
    | succ n =>
      have hne : i ≠ rb.rbTl := by
        rw [h]
        intro heq
        have := (skip_inj (by omega) hn).mp (skip_zero.trans heq)
        omega
      have hstep : nextc i rb = (signed (rb.rbBuf i), skip i 1) := by
        rw [nextc, if_neg hne, rbSucc_eq]
      rw [visits, hstep, window_succ, ih n (by omega)]
      · simp
      · rw [h, skip_skip, Nat.add_comm]

theorem bytes_measures (rb : Ringb) : Measures rb (bytes rb) where
  capacity := by
    have := count_lt rb
    rw [length_bytes]
    omega
  rbLen := by
    have := rb.rbHd.isLt
    have := rb.rbTl.isLt
    simp only [length_bytes, count, gap, TtyRing.rbLen, Fin.le_def]
    split <;> omega
  rbContigget := by
    have := rb.rbHd.isLt
    have := rb.rbTl.isLt
    simp only [length_bytes, count, gap, TtyRing.rbContigget, Fin.le_def]
    split <;> omega
  rbContigput := by
    have := one_lt_rbsz
    have := rb.rbHd.isLt
    have := rb.rbTl.isLt
    simp only [length_bytes, count, gap, TtyRing.rbContigput, Fin.lt_def, rbPred_val]
    split <;> split <;> split <;> omega
  nextc := fun k => by
    rw [length_bytes]
    exact visits_from rb k (count rb) (count_lt rb) (rbTl_eq rb)

/-- A ring buffer is a double-ended queue of at most `rbsz - 1` bytes. -/
theorem run_deque (rb : Ringb) (ops : List Op) :
    (run ops (initrb rb)).1 = (Deque.run ops []).1 ∧
      Measures (run ops (initrb rb)).2 (Deque.run ops []).2 := by
  have heq := run_eq ops (initrb rb)
  rw [bytes_initrb] at heq
  rw [← heq]
  exact ⟨rfl, bytes_measures _⟩

/-! ## Writing several bytes -/

/-- `bcopy` of the bytes of `l` to the place at the offset `i`. -/
def bcopyTo (f : Fin rbsz → UInt8) (i : ℕ) (l : List UInt8) : Fin rbsz → UInt8 :=
  fun p => if i ≤ p then (l[p - i]?).getD (f p) else f p

theorem rbContigput_le (rb : Ringb) : (rbContigput rb).toNat ≤ rbsz - rb.rbTl := by
  have hp := (rbPred rb.rbHd).isLt
  rw [rbContigput]
  split <;> omega

/-- `rb_write`: the count of the bytes that fitted. -/
def rbWrite (rb : Ringb) (buf : List UInt8) : ℕ × Ringb :=
  let ntoright := (rbContigput rb).toNat
  if h : buf.length < ntoright then
    (buf.length, { rb with
      rbBuf := bcopyTo rb.rbBuf rb.rbTl buf
      rbTl := ⟨rb.rbTl + buf.length, by have hle := rbContigput_le rb; omega⟩ })
  else
    let rest := buf.drop ntoright
    let nfrom := min rest.length rb.rbHd
    (ntoright + nfrom, { rb with
      rbBuf := bcopyTo (bcopyTo rb.rbBuf rb.rbTl (buf.take ntoright)) 0 (rest.take nfrom)
      rbTl := ⟨nfrom, Nat.lt_of_le_of_lt (Nat.min_le_right ..) rb.rbHd.isLt⟩ })

theorem rbContigput_toNat (rb : Ringb) : (rbContigput rb).toNat =
    if (rb.rbHd : ℕ) ≤ rb.rbTl ∧ (rb.rbHd : ℕ) ≠ 0 then rbsz - rb.rbTl
    else if (rb.rbHd : ℕ) ≤ rb.rbTl then rbsz - 1 - rb.rbTl else rb.rbHd - 1 - rb.rbTl := by
  have hone := one_lt_rbsz
  have hhd := rb.rbHd.isLt
  have htl := rb.rbTl.isLt
  simp only [rbContigput, Fin.lt_def, rbPred_val]
  split <;> split <;> split <;> (try split) <;> omega

/-- There is room for `n` bytes. They fill the buffer only where the free places reach its end, and
some follow at its beginning. -/
def Fits (rb : Ringb) (n : ℕ) : Prop :=
  count rb + n < rbsz - 1 ∨
    count rb + n = rbsz - 1 ∧ 0 < (rb.rbHd : ℕ) ∧ (rb.rbHd : ℕ) ≤ rb.rbTl

/-- Bytes that fit go behind those that the buffer holds. -/
theorem rbWrite_fits (rb : Ringb) (l : List UInt8) (h : Fits rb l.length) :
    rbWrite rb l = (l.length, { rb with
      rbBuf := fill rb.rbBuf rb.rbTl l, rbTl := skip rb.rbTl l.length }) := by
  have hone := one_lt_rbsz
  have hhd := rb.rbHd.isLt
  have htl := rb.rbTl.isLt
  have hput := rbContigput_toNat rb
  rw [Fits, count_eq] at h
  have hskip := skip_val (i := rb.rbTl) (k := l.length) (by omega)
  rw [rbWrite]
  by_cases hright : l.length < (rbContigput rb).toNat
  · have htail : rb.rbTl + l.length < rbsz := by
      have hle := rbContigput_le rb
      omega
    rw [dif_pos hright]
    congr 2
    · apply Fin.ext
      rw [hskip, if_pos htail]
    · funext p
      have hp := p.isLt
      rw [bcopyTo, fill, gap]
      split
      · rfl
      · rw [List.getElem?_eq_none (by omega), Option.getD_none]
  · -- the bytes behind the end of the buffer start again at its beginning
    have hwrap : (rb.rbHd : ℕ) ≤ rb.rbTl ∧ (rb.rbHd : ℕ) ≠ 0 ∧
        (rbContigput rb).toNat = rbsz - rb.rbTl := by
      split_ifs at h hput <;> omega
    obtain ⟨hle, hne, hright'⟩ := hwrap
    rw [if_pos hle] at h
    have hfrom : min (l.drop (rbContigput rb).toNat).length rb.rbHd =
        l.length - (rbContigput rb).toNat := by
      rw [List.length_drop]
      omega
    rw [dif_neg hright]
    simp only [hfrom]
    congr 2
    · omega
    · apply Fin.ext
      rw [hskip]
      change l.length - (rbContigput rb).toNat = _
      split <;> omega
    · funext p
      have hp := p.isLt
      have htake : (l.drop (rbContigput rb).toNat).take (l.length - (rbContigput rb).toNat) =
          l.drop (rbContigput rb).toNat :=
        List.take_of_length_le (by rw [List.length_drop])
      rw [htake, bcopyTo, if_pos (Nat.zero_le _), Nat.sub_zero, bcopyTo, fill, gap,
        List.getElem?_drop]
      by_cases hlow : (rb.rbTl : ℕ) ≤ p
      · rw [if_pos hlow, if_pos hlow, List.getElem?_eq_none (by omega), Option.getD_none,
          List.getElem?_take, if_pos (by omega)]
      · rw [if_neg hlow, if_neg hlow, hright']
        congr 2
        omega

theorem bytes_rbWrite_fits (rb : Ringb) (l : List UInt8) (h : Fits rb l.length) :
    bytes (rbWrite rb l).2 = bytes rb ++ l := by
  rw [rbWrite_fits rb l h]
  have hlt : count rb + l.length < rbsz := by
    have hone := one_lt_rbsz
    rw [Fits] at h
    omega
  rw [bytes_eq (n := count rb + l.length) hlt, bytes]
  · change window (fill rb.rbBuf rb.rbTl l) rb.rbHd _ = _
    rw [rbTl_eq rb]
    exact window_fill (by omega)
  · change skip rb.rbTl l.length = _
    rw [rbTl_eq rb, skip_skip]

theorem bytes_rbWrite (rb : Ringb) (l : List UInt8)
    (h : (bytes rb).length + l.length < rbsz - 1) :
    bytes (rbWrite rb l).2 = bytes rb ++ l := by
  rw [length_bytes] at h
  exact bytes_rbWrite_fits rb l (Or.inl h)

end TtyRing
