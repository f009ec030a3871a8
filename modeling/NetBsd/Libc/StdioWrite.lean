import Mathlib.Tactic.Ring
import NetBsd.Lib.Spool
import NetBsd.Libc.Stdio

/-!
# Writing to a stream

`putc`, with `__swbuf` behind it, and `__sfvwrite`, in the three kinds of buffering. A stream
that has been set up keeps `_w` as the kind asks, and each routine adds its bytes to those
written and passes on what its kind lets it.

## Main definitions

* `Stdio.putc`, `Stdio.swbuf`, `Stdio.sfvwrite`: the routines
* `Stdio.Accepts`: a write function that takes at least one of the bytes offered
* `Stdio.Writing f n`: a stream set up for writing, with `n` bytes in its buffer
* `Stdio.Stream.spool`: what the write function has accepted, and what the buffer holds

## Main results

* `Stdio.sflush_ok`: a flush passes on all that is held
* `Stdio.putc_ok`, `Stdio.sfvwrite_ok`: the bytes are added behind those written before
-/

namespace Stdio

variable {σ : Type}

/-- `size_t` from an `int` -/
def sizeT (w : ℤ) : ℕ := (w % 2 ^ 32).toNat

/-! ## One character -/

/-- The end of `__swbuf`: `c` behind the `n` bytes in the buffer, and another flush if that
fills it, or ends a line. -/
def swbufPut (wr : WriteFn σ) (fuel : ℕ) (n : ℕ) (c : Byte) (s : Stream σ) :
    Except Fault (ℤ × Stream σ) := do
  let f ← { s.file with w := s.file.w - 1 }.store c
  let s := { s with file := f }
  if n + 1 = f.bf.size ∨ (f.flags.slbf ∧ c = newline) then
    let (r, s) ← fflush wr fuel s
    if r ≠ 0 then return (eof, s)
    return (c.toNat, s)
  else return (c.toNat, s)

/-- `__swbuf`, once the stream can be written: a full buffer is flushed first. -/
def swbufStore (wr : WriteFn σ) (fuel : ℕ) (c : Byte) (s : Stream σ) :
    Except Fault (ℤ × Stream σ) := do
  let n ← s.file.used
  if s.file.bf.size ≤ n then
    let (r, s) ← fflush wr fuel s
    if r ≠ 0 then return (eof, s)
    swbufPut wr fuel 0 c s
  else swbufPut wr fuel n c s

/-- `__swbuf` -/
def swbuf (e : Env) (wr : WriteFn σ) (fuel : ℕ) (c : BitVec 32) (s : Stream σ) :
    Except Fault (ℤ × Stream σ) :=
  let f := { s.file with w := s.file.lbfsize }
  match cantwrite e f with
  | none => .ok (eof, { s with file := f })
  | some f => swbufStore wr fuel (c.setWidth 8) { s with file := f }

/-- `__sputc` -/
def putc (e : Env) (wr : WriteFn σ) (fuel : ℕ) (c : BitVec 32) (s : Stream σ) :
    Except Fault (ℤ × Stream σ) :=
  let f := { s.file with w := s.file.w - 1 }
  if 0 ≤ f.w ∨ (f.lbfsize ≤ f.w ∧ c.setWidth 8 ≠ newline) then do
    let f ← f.store (c.setWidth 8)
    return ((c.setWidth 8).toNat, { s with file := f })
  else swbuf e wr fuel c { s with file := f }

/-! ## Memory regions -/

/-- `struct __suio`: the bytes of each region. `uio_resid`, an `int`, is their number. -/
structure Suio where
  iov : List (List Byte)
  fits : iov.flatten.length < 2 ^ 31

def Suio.resid (u : Suio) : ℤ := u.iov.flatten.length

/-- `GETIOV`: the next region that is not empty; there is none behind the last. -/
def getiov : List Byte → List (List Byte) → Except Fault (List Byte × List (List Byte))
  | [], [] => .error .deref
  | [], p :: iov => getiov p iov
  | b :: p, iov => .ok (b :: p, iov)

/-- One turn of the loop over an unbuffered stream. -/
def unbufTurn (wr : WriteFn σ) (p : List Byte) (_ : Unit) (s : Stream σ) :
    Except Fault (Option ℕ × Unit × Stream σ) :=
  let (w, s) := s.write wr (p.take (min p.length bufsiz))
  if w ≤ 0 then .ok (none, (), s) else .ok (some w.toNat, (), s)

/-- One turn of the loop over a fully buffered stream. -/
def fullTurn (wr : WriteFn σ) (fuel : ℕ) (p : List Byte) (_ : Unit) (s : Stream σ) :
    Except Fault (Option ℕ × Unit × Stream σ) := do
  let w := s.file.w
  if s.file.flags.sstr then
    let w := if p.length < sizeT w then (p.length : ℤ) else w
    let f ← s.file.copy (p.take w.toNat)
    -- but pretend copied all
    return (some p.length, (), { s with file := { f with w := f.w - w } })
  let n ← s.file.used
  if 0 < n ∧ sizeT w < p.length then
    let f ← s.file.copy (p.take w.toNat)
    let (r, s) ← fflush wr fuel { s with file := f }
    if r ≠ 0 then return (none, (), s)
    return (some w.toNat, (), s)
  else if s.file.bf.size ≤ p.length then
    let (w, s) := s.write wr (p.take s.file.bf.size)
    if w ≤ 0 then return (none, (), s) else return (some w.toNat, (), s)
  else
    let f ← s.file.copy p
    return (some p.length, (), { s with file := { f with w := f.w - p.length } })

/-- One turn of the loop over a line buffered stream. `nldist` is the distance to the first
newline, where it is known; with no newline it is one more than the bytes there are. -/
def lineTurn (wr : WriteFn σ) (fuel : ℕ) (p : List Byte) (nldist : Option ℕ) (s : Stream σ) :
    Except Fault (Option ℕ × Option ℕ × Stream σ) := do
  let nldist := nldist.getD (p.idxOf newline + 1)
  let n := min p.length nldist
  let w := s.file.w + s.file.bf.size
  let used ← s.file.used
  let (w, s) ←
    if 0 < used ∧ w < n then do
      let f ← s.file.copy (p.take w.toNat)
      let (r, s) ← fflush wr fuel { s with file := f }
      pure (if r ≠ 0 then none else some w.toNat, s)
    else if s.file.bf.size ≤ n then
      let (w, s) := s.write wr (p.take s.file.bf.size)
      pure (if w ≤ 0 then none else some w.toNat, s)
    else do
      let f ← s.file.copy (p.take n)
      pure (some n, { s with file := { f with w := f.w - n } })
  match w with
  | none => return (none, none, s)
  | some w =>
    if nldist - w = 0 then
      -- copied the newline: flush and forget
      let (r, s) ← fflush wr fuel s
      if r ≠ 0 then return (none, none, s)
      return (some w, none, s)
    else return (some w, some (nldist - w), s)

/-- The loop of `__sfvwrite` around its turns, with `t` what they keep and `moved` the extra
work of `GETIOV`. -/
def drive {τ : Type} (turn : List Byte → τ → Stream σ → Except Fault (Option ℕ × τ × Stream σ))
    (moved : τ → τ) : ℕ → List Byte → List (List Byte) → ℤ → τ → Stream σ →
    Except Fault (ℤ × ℤ × Stream σ)
  | 0, _, _, _, _, _ => .error .loop
  | fuel + 1, p, iov, resid, t, s => do
    let t := if p = [] then moved t else t
    let (p, iov) ← getiov p iov
    let (w, t, s) ← turn p t s
    match w with
    | none => return (eof, resid, s.err)
    | some w =>
      let resid := resid - w
      if resid = 0 then return (0, resid, s)
      else drive turn moved fuel (p.drop w) iov resid t s

/-- `__sfvwrite`: what it returns, and `uio_resid` -/
def sfvwrite (e : Env) (wr : WriteFn σ) (fuel : ℕ) (u : Suio) (s : Stream σ) :
    Except Fault (ℤ × ℤ × Stream σ) :=
  if u.resid = 0 then .ok (0, u.resid, s)
  else
    match cantwrite e s.file with
    | none => .ok (eof, u.resid, s)
    | some f =>
      let s := { s with file := f }
      match u.iov with
      | [] => .error .deref
      | p :: iov =>
        if f.flags.snbf then drive (unbufTurn wr) id fuel p iov u.resid () s
        else if ¬f.flags.slbf then drive (fullTurn wr fuel) id fuel p iov u.resid () s
        else drive (lineTurn wr fuel) (fun _ => none) fuel p iov u.resid none s

/-! ## Streams set up for writing -/

/-- A write function that takes at least one of the bytes offered, and no more than all. -/
def Accepts (wr : WriteFn σ) : Prop :=
  ∀ s d, d ≠ [] → 0 < (wr s d).1 ∧ (wr s d).1 ≤ d.length

/-- The write function with a record of the bytes it has accepted. -/
def logged (wr : WriteFn σ) : WriteFn (σ × List Byte) := fun s d =>
  ((wr s.1 d).1, (wr s.1 d).2, s.2 ++ d.take (wr s.1 d).1.toNat)

/-- The bytes in the buffer of a stream that is being written. -/
def File.held (f : File) : List Byte :=
  match f.flags.swr, f.bf.base, f.p with
  | true, some cells, .bf n => cells.take n
  | _, _, _ => []

/-- What has been accepted, and what the buffer holds. -/
def Stream.spool (s : Stream (σ × List Byte)) : Spool Byte := ⟨s.dev.2, s.file.held⟩

/-- A buffer of at most `k - 1` bytes, with the bytes `d` in it. -/
structure Buffered (k : ℕ) (f : File) (d : List Byte) : Prop where
  swr : f.flags.swr = true
  sstr : f.flags.sstr = false
  holds : ∃ cells, f.bf.base = some cells ∧ f.bf.size ≤ cells.length ∧ cells.take d.length = d
  p_eq : f.p = .bf d.length
  pos : 1 ≤ f.bf.size
  lt : f.bf.size < 2 ^ 31
  turns : f.bf.size < k
  le : d.length ≤ f.bf.size
  unbuf : f.flags.snbf = true → f.bf.size = 1
  lbfsize : f.lbfsize = if f.flags.slbf then -(f.bf.size : ℤ) else 0

/-- The space left, as `putc` counts it down in each kind of buffering. -/
def File.space (f : File) (n : ℕ) : ℤ :=
  if f.flags.slbf then -n else if f.flags.snbf then 0 else f.bf.size - n

/-- A stream between two calls: `_w` is right, and nothing is held that the kind of buffering
does not let it hold. -/
structure Writing (k : ℕ) (f : File) (d : List Byte) : Prop extends Buffered k f d where
  kind : ¬(f.flags.slbf = true ∧ f.flags.snbf = true)
  w_eq : f.w = f.space d.length
  line : f.flags.slbf = true → newline ∉ d
  none_held : f.flags.snbf = true → d = []

variable {e : Env} {wr : WriteFn σ} {k : ℕ} {f f' : File} {d : List Byte} {c : Byte}

theorem Buffered.held (h : Buffered k f d) : f.held = d := by
  obtain ⟨cells, hc, -, hd⟩ := h.holds
  rw [File.held, h.swr, hc, h.p_eq]
  exact hd

theorem Buffered.base_ne (h : Buffered k f d) : f.bf.base ≠ none := by
  obtain ⟨cells, hc, -⟩ := h.holds
  rw [hc]
  exact Option.some_ne_none _

theorem Buffered.used (h : Buffered k f d) : f.used = .ok d.length := by
  obtain ⟨cells, hc, -⟩ := h.holds
  rw [File.used, hc, h.p_eq]

/-- What storing leaves alone. -/
def SameKind (f f' : File) : Prop :=
  f'.w = f.w ∧ f'.flags = f.flags ∧ f'.lbfsize = f.lbfsize ∧ f'.bf.size = f.bf.size

theorem Buffered.of_same (h : Buffered k f d) (hs : SameKind f f') {d' : List Byte}
    (hd : ∃ cells, f'.bf.base = some cells ∧ f.bf.size ≤ cells.length ∧ cells.take d'.length = d')
    (hp : f'.p = .bf d'.length) (hle : d'.length ≤ f.bf.size) : Buffered k f' d' := by
  obtain ⟨-, hf, hl, hz⟩ := hs
  exact ⟨hf ▸ h.swr, hf ▸ h.sstr, hz ▸ hd, hp, hz ▸ h.pos, hz ▸ h.lt, hz ▸ h.turns, hz ▸ hle,
    by rw [hf, hz]; exact h.unbuf, by rw [hf, hl, hz]; exact h.lbfsize⟩

theorem File.copy_eq {cells b : List Byte} {n : ℕ} (hc : f.bf.base = some cells) (hp : f.p = .bf n)
    (hb : n + b.length ≤ cells.length) (hz : n + b.length ≤ f.bf.size) :
    f.copy b = .ok { f with
      bf := { f.bf with base := some (cells.take n ++ b ++ cells.drop (n + b.length)) }
      p := .bf (n + b.length) } := by
  rw [File.copy, hc, hp]
  exact if_pos ⟨hb, hz⟩

theorem File.store_eq {cells : List Byte} {n : ℕ} (hc : f.bf.base = some cells) (hp : f.p = .bf n)
    (hb : n < cells.length) (hz : n < f.bf.size) (c : Byte) :
    f.store c = .ok { f with
      bf := { f.bf with base := some (cells.set n c) }, p := .bf (n + 1) } := by
  rw [File.store, hc, hp]
  exact if_pos ⟨hb, hz⟩

theorem Buffered.copy (h : Buffered k f d) {b : List Byte}
    (hb : d.length + b.length ≤ f.bf.size) :
    ∃ f', f.copy b = .ok f' ∧ Buffered k f' (d ++ b) ∧ SameKind f f' := by
  obtain ⟨cells, hc, hlen, hd⟩ := h.holds
  have hfit : d.length + b.length ≤ cells.length := hb.trans hlen
  refine ⟨_, File.copy_eq hc h.p_eq hfit hb, ?_, rfl, rfl, rfl, rfl⟩
  apply Buffered.of_same h (by exact ⟨rfl, rfl, rfl, rfl⟩)
  · refine ⟨_, rfl, ?_, ?_⟩
    · simp only [List.length_append, List.length_take, List.length_drop]
      omega
    · rw [hd, List.take_append_of_le_length (by simp), List.take_length]
  · rw [List.length_append]
  · simpa using hb

theorem Buffered.store (h : Buffered k f d) (hlt : d.length < f.bf.size) (c : Byte) :
    ∃ f', f.store c = .ok f' ∧ Buffered k f' (d ++ [c]) ∧ SameKind f f' := by
  obtain ⟨cells, hc, hlen, hd⟩ := h.holds
  have hfit : d.length < cells.length := hlt.trans_le hlen
  refine ⟨_, File.store_eq hc h.p_eq hfit hlt c, ?_, rfl, rfl, rfl, rfl⟩
  apply Buffered.of_same h (by exact ⟨rfl, rfl, rfl, rfl⟩)
  · refine ⟨_, rfl, by simpa using hlen, ?_⟩
    rw [List.length_append, List.length_singleton, List.take_succ_eq_append_getElem (by simpa),
      List.take_set, List.set_eq_of_length_le (by simp), hd]
    simp
  · rw [List.length_append, List.length_singleton]
  · simpa using Nat.succ_le_of_lt hlt

/-- `_w` may be anything while a routine is at work. -/
theorem Buffered.setW (h : Buffered k f d) (w : ℤ) : Buffered k { f with w := w } d :=
  ⟨h.swr, h.sstr, h.holds, h.p_eq, h.pos, h.lt, h.turns, h.le, h.unbuf, h.lbfsize⟩

/-! ## What the write function is offered -/

variable {s : Stream (σ × List Byte)}

theorem write_logged (ha : Accepts wr) (s : Stream (σ × List Byte)) (hd : d ≠ []) :
    ∃ (n : ℕ) (dev : σ), s.write (logged wr) d = ((n : ℤ), ⟨s.file, dev, s.dev.2 ++ d.take n⟩) ∧
      0 < n ∧ n ≤ d.length := by
  obtain ⟨hpos, hle⟩ := ha s.dev.1 d hd
  refine ⟨(wr s.dev.1 d).1.toNat, (wr s.dev.1 d).2, ?_, by omega, by omega⟩
  rw [Stream.write, logged, Int.toNat_of_nonneg hpos.le]

theorem sflushLoop_ok (ha : Accepts wr) (fuel : ℕ) (d : List Byte) (s : Stream (σ × List Byte))
    (hfuel : d.length < fuel) :
    ∃ dev, sflushLoop (logged wr) fuel d s = .ok (0, ⟨s.file, dev, s.dev.2 ++ d⟩) := by
  induction fuel generalizing d s with
  | zero => omega
  | succ fuel ih =>
    by_cases hd : d = []
    · refine ⟨s.dev.1, ?_⟩
      rw [sflushLoop, if_pos hd, hd, List.append_nil]
    · obtain ⟨n, dev, hw, hn, hle⟩ := write_logged ha s hd
      obtain ⟨dev', h⟩ := ih (d.drop n) ⟨s.file, dev, s.dev.2 ++ d.take n⟩
        (by rw [List.length_drop]; omega)
      refine ⟨dev', ?_⟩
      rw [sflushLoop, if_neg hd, hw]
      dsimp only
      rw [if_neg (by omega), Int.toNat_natCast, h, List.append_assoc, List.take_append_drop]

/-- A stream after a flush. -/
def File.flushed (f : File) : File :=
  { f with p := .bf 0, w := if f.flags.slbf || f.flags.snbf then 0 else f.bf.size }

theorem sflush_ok (ha : Accepts wr) (h : Buffered k s.file d) :
    ∃ dev, sflush (logged wr) k s = .ok (0, ⟨s.file.flushed, dev, s.dev.2 ++ d⟩) := by
  obtain ⟨cells, hc, -, hd⟩ := h.holds
  obtain ⟨dev, hl⟩ := sflushLoop_ok ha k d ⟨s.file.flushed, s.dev⟩ (h.le.trans_lt h.turns)
  refine ⟨dev, ?_⟩
  unfold sflush
  rw [if_neg (by simp [h.swr]), hc]
  dsimp only
  rw [h.used, Fault.ok_bind, hd]
  exact hl

theorem fflush_ok (ha : Accepts wr) (h : Buffered k s.file d) :
    ∃ dev, fflush (logged wr) k s = .ok (0, ⟨s.file.flushed, dev, s.dev.2 ++ d⟩) := by
  rw [fflush, if_neg (by simp [h.swr])]
  exact sflush_ok ha h

theorem Buffered.emptied (h : Buffered k f d) : Buffered k f.flushed [] := by
  obtain ⟨cells, hc, hlen, -⟩ := h.holds
  exact ⟨h.swr, h.sstr, ⟨cells, hc, hlen, rfl⟩, rfl, h.pos, h.lt, h.turns, Nat.zero_le _, h.unbuf,
    h.lbfsize⟩

theorem Buffered.flushed (h : Buffered k f d)
    (hkind : ¬(f.flags.slbf = true ∧ f.flags.snbf = true)) : Writing k f.flushed [] := by
  refine ⟨h.emptied, hkind, ?_, fun _ => by simp, fun _ => rfl⟩
  show (if f.flags.slbf || f.flags.snbf then (0 : ℤ) else f.bf.size) = f.space 0
  rw [File.space]
  cases f.flags.slbf <;> cases f.flags.snbf <;> simp

theorem spool_eq (h : Buffered k s.file d) : s.spool = ⟨s.dev.2, d⟩ := by
  rw [Stream.spool, h.held]

/-- Bytes stored in the buffer are bytes written. -/
theorem spool_put (h : Buffered k s.file d) {b : List Byte} (hf : Buffered k f (d ++ b)) :
    Spool.Writes s.spool b (Stream.spool ⟨f, s.dev⟩) := by
  have hs : Stream.spool ⟨f, s.dev⟩ = ⟨s.dev.2, d ++ b⟩ := spool_eq hf
  have := (Spool.Writes.refl : Spool.Writes s.spool [] s.spool).put b
  rwa [List.nil_append, spool_eq h, Spool.put, ← hs, ← spool_eq h] at this

theorem spool_flush (h : Buffered k s.file d) (dev : σ) :
    Spool.Writes s.spool [] (Stream.spool ⟨s.file.flushed, dev, s.dev.2 ++ d⟩) := by
  have hs : Stream.spool ⟨s.file.flushed, dev, s.dev.2 ++ d⟩ = ⟨s.dev.2 ++ d, []⟩ :=
    spool_eq h.emptied
  have := (Spool.Writes.refl : Spool.Writes s.spool [] s.spool).flush
  rwa [spool_eq h, ← hs, ← spool_eq h] at this

/-! ## Streams that have not been written yet -/

/-- A stream that the next call sets up: it is not in write mode, or has no buffer. -/
structure Pending (k : ℕ) (e : Env) (f : File) : Prop where
  todo : f.flags.swr = false ∨ f.bf.base = none
  mode : f.flags.swr = true ∨ f.flags.srw = true
  sstr : f.flags.sstr = false
  w : f.w = 0
  lbfsize : f.lbfsize = 0
  given : ∀ cells, f.bf.base = some cells → f.bf.size ≤ cells.length ∧ 1 ≤ f.bf.size ∧
    f.bf.size < 2 ^ 31 ∧ f.bf.size < k ∧ ¬(f.flags.slbf = true ∧ f.flags.snbf = true) ∧
    (f.flags.snbf = true → f.bf.size = 1) ∧ (f.flags.srd = true ∨ f.p = .bf 0)
  made : f.bf.base = none → (f.flags.slbf = true → f.flags.snbf = false ∧ e.malloc e.bufSize) ∧
    e.bufSize < k ∧ 1 < k

/-- A stream ready to be set up, with a buffer that suits it. -/
structure Fresh (k : ℕ) (f : File) : Prop where
  swr : f.flags.swr = true
  sstr : f.flags.sstr = false
  lbfsize : f.lbfsize = 0
  holds : ∃ cells, f.bf.base = some cells ∧ f.bf.size ≤ cells.length
  pos : 1 ≤ f.bf.size
  lt : f.bf.size < 2 ^ 31
  turns : f.bf.size < k
  unbuf : f.flags.snbf = true → f.bf.size = 1
  p_eq : f.p = .bf 0

theorem bufSize_pos (e : Env) : 1 ≤ e.bufSize ∧ e.bufSize < 2 ^ 31 := by
  unfold Env.bufSize bufsiz
  split
  · decide
  · rename_i st _
    have := BitVec.toInt_lt (x := st.blksize)
    split <;> omega

/-- `__SOPT` and `__SNPT` play no part in writing. -/
theorem optimise_flags (e : Env) (f : File) :
    (e.optimise f).flags.swr = f.flags.swr ∧ (e.optimise f).flags.sstr = f.flags.sstr ∧
      (e.optimise f).flags.slbf = f.flags.slbf ∧ (e.optimise f).flags.snbf = f.flags.snbf ∧
      (e.optimise f).lbfsize = f.lbfsize := by
  unfold Env.optimise
  split
  · exact ⟨rfl, rfl, rfl, rfl, rfl⟩
  · split <;> exact ⟨rfl, rfl, rfl, rfl, rfl⟩

theorem toWriting_keeps (f : File) :
    f.toWriting.flags.swr = true ∧ f.toWriting.flags.sstr = f.flags.sstr ∧
      f.toWriting.flags.slbf = f.flags.slbf ∧ f.toWriting.flags.snbf = f.flags.snbf ∧
      f.toWriting.lbfsize = f.lbfsize ∧ f.toWriting.bf = f.bf := by
  unfold File.toWriting
  by_cases hw : f.flags.swr = true
  · rw [if_pos hw]
    exact ⟨hw, rfl, rfl, rfl, rfl, rfl⟩
  · rw [if_neg hw]
    by_cases hr : f.flags.srd = true
    · rw [if_pos hr]
      exact ⟨rfl, rfl, rfl, rfl, rfl, rfl⟩
    · rw [if_neg hr]
      exact ⟨rfl, rfl, rfl, rfl, rfl, rfl⟩

theorem toWriting_p (hw : f.flags.swr = false) {cells : List Byte} (hc : f.bf.base = some cells)
    (hp : f.flags.srd = true ∨ f.p = .bf 0) : f.toWriting.p = .bf 0 := by
  unfold File.toWriting
  rw [if_neg (by simp [hw])]
  by_cases hr : f.flags.srd = true
  · rw [if_pos hr]
    show f.basePtr = .bf 0
    rw [File.basePtr, if_neg (by simp [hc])]
  · rw [if_neg hr]
    exact hp.resolve_left hr

/-- Making a buffer: unbuffered, one byte; with memory, one of the system's size; and with
none, unbuffered after all. -/
theorem makebuf_fresh (hw : f.flags.swr = true) (hs : f.flags.sstr = false) (hl : f.lbfsize = 0)
    (he : e.bufSize < k) (h1 : 1 < k) : Fresh k (makebuf e f) := by
  obtain ⟨how, hos, -, hon, hob⟩ := optimise_flags e f
  have one_lt : 1 < 2 ^ 31 := by decide
  unfold makebuf
  by_cases hn : f.flags.snbf = true
  · rw [if_pos hn]
    exact ⟨hw, hs, hl, ⟨_, rfl, le_rfl⟩, le_rfl, one_lt, h1, fun _ => rfl, rfl⟩
  · rw [if_neg hn]
    dsimp only
    by_cases hm : e.malloc e.bufSize = true
    · rw [if_pos hm]
      exact ⟨how.trans hw, hos.trans hs, hob.trans hl, ⟨_, rfl, by simp⟩, (bufSize_pos e).1,
        (bufSize_pos e).2, he, fun h => absurd (hon ▸ h) hn, rfl⟩
    · rw [if_neg hm]
      exact ⟨how.trans hw, hos.trans hs, hob.trans hl, ⟨_, rfl, le_rfl⟩, le_rfl, one_lt, h1,
        fun _ => rfl, rfl⟩

theorem makebuf_kind (hk : f.flags.slbf = true → f.flags.snbf = false ∧ e.malloc e.bufSize) :
    ¬((makebuf e f).flags.slbf = true ∧ (makebuf e f).flags.snbf = true) := by
  obtain ⟨-, -, hol, hon, -⟩ := optimise_flags e f
  unfold makebuf
  rintro ⟨hsl, hsn⟩
  by_cases hn : f.flags.snbf = true
  · rw [if_pos hn] at hsl
    exact absurd hn (by simp [(hk hsl).1])
  · rw [if_neg hn] at hsl hsn
    dsimp only at hsl hsn
    by_cases hm : e.malloc e.bufSize = true
    · rw [if_pos hm] at hsn
      exact hn (hon ▸ hsn)
    · rw [if_neg hm] at hsl
      exact hm (hk (hol ▸ hsl)).2

/-- The end of `__swsetup`, on what its first two steps leave. -/
theorem swsetup_ok (hm : f.flags.swr = true ∨ f.flags.srw = true) {g : File}
    (hg : (if f.toWriting.bf.base = none then makebuf e f.toWriting else f.toWriting) = g)
    (h : Fresh k g) :
    ∃ f', swsetup e f = some f' ∧ Buffered k f' [] ∧ f'.flags = g.flags ∧ f'.w = f'.space 0 := by
  obtain ⟨cells, hc, hlen⟩ := h.holds
  unfold swsetup
  rw [if_neg (by rcases hm with hm | hm <;> simp [hm])]
  dsimp only
  rw [hg]
  by_cases hl : g.flags.slbf = true
  · rw [if_pos hl]
    refine ⟨_, rfl, ⟨h.swr, h.sstr, ⟨cells, hc, hlen, rfl⟩, h.p_eq, h.pos, h.lt, h.turns,
      Nat.zero_le _, h.unbuf, (if_pos hl).symm⟩, rfl, ?_⟩
    rw [File.space, if_pos hl]
    rfl
  · rw [if_neg hl]
    refine ⟨_, rfl, ⟨h.swr, h.sstr, ⟨cells, hc, hlen, rfl⟩, h.p_eq, h.pos, h.lt, h.turns,
      Nat.zero_le _, h.unbuf, h.lbfsize.trans (if_neg hl).symm⟩, rfl, ?_⟩
    rw [File.space, if_neg hl]
    simp

theorem Pending.setup (h : Pending k e f) : ∃ f', swsetup e f = some f' ∧ Writing k f' [] := by
  obtain ⟨htw, hts, htl, htn, htb, htf⟩ := toWriting_keeps f
  obtain ⟨g, hg, hfresh, hkind⟩ : ∃ g,
      (if f.toWriting.bf.base = none then makebuf e f.toWriting else f.toWriting) = g ∧
      Fresh k g ∧ ¬(g.flags.slbf = true ∧ g.flags.snbf = true) := by
    refine ⟨_, rfl, ?_⟩
    rw [htf]
    by_cases hb : f.bf.base = none
    · rw [if_pos hb]
      obtain ⟨hk, he, h1⟩ := h.made hb
      exact ⟨makebuf_fresh htw (hts.trans h.sstr) (htb.trans h.lbfsize) he h1,
        makebuf_kind (by rw [htl, htn]; exact hk)⟩
    · rw [if_neg hb]
      obtain ⟨cells, hc⟩ := Option.ne_none_iff_exists'.mp hb
      obtain ⟨hlen, hpos, hlt, hk, hkind, hub, hp⟩ := h.given cells hc
      have hw := h.todo.resolve_right hb
      exact ⟨⟨htw, hts.trans h.sstr, htb.trans h.lbfsize, ⟨cells, htf ▸ hc, htf ▸ hlen⟩,
        htf ▸ hpos, htf ▸ hlt, htf ▸ hk, by rw [htn, htf]; exact hub, toWriting_p hw hc hp⟩,
        by rw [htl, htn]; exact hkind⟩
  obtain ⟨f', hf, hb, hfl, hw⟩ := swsetup_ok h.mode hg hfresh
  exact ⟨f', hf, hb, by rw [hfl]; exact hkind, hw, fun _ => by simp, fun _ => rfl⟩

/-- A stream that can be written, with the bytes `d` in its buffer. -/
def Ready (k : ℕ) (e : Env) (f : File) (d : List Byte) : Prop :=
  Writing k f d ∨ (Pending k e f ∧ d = [])

theorem Pending.held (h : Pending k e f) : f.held = [] := by
  unfold File.held
  rcases h.todo with hw | hb
  · rw [hw]
  · rw [hb]
    cases f.flags.swr <;> rfl

theorem Ready.held (h : Ready k e f d) : f.held = d := by
  rcases h with h | ⟨h, rfl⟩
  · exact h.toBuffered.held
  · exact h.held

theorem Ready.cantwrite (h : Ready k e f d) :
    ∃ f', cantwrite e f = some f' ∧ Writing k f' d := by
  unfold Stdio.cantwrite
  rcases h with h | ⟨h, rfl⟩
  · exact ⟨f, if_neg (by simp [h.swr, h.base_ne]), h⟩
  · rw [if_pos (by rcases h.todo with ht | ht <;> simp [ht])]
    exact h.setup

/-! ## One character at a time -/

/-- The buffer has room, and either the line ends here or `_w` is right. -/
theorem swbufPut_ok (ha : Accepts wr) (h : Buffered k s.file d) (hlt : d.length < s.file.bf.size)
    (hkind : ¬(s.file.flags.slbf = true ∧ s.file.flags.snbf = true))
    (hw : (s.file.flags.slbf = true ∧ c = newline) ∨ Writing k s.file d) :
    ∃ s' d', swbufPut (logged wr) k d.length c s = .ok (c.toNat, s') ∧ Writing k s'.file d' ∧
      Spool.Writes s.spool [c] s'.spool := by
  obtain ⟨f, hf, hb, hs⟩ := (h.setW (s.file.w - 1)).store hlt c
  have hsw : f.w = s.file.w - 1 := hs.1
  have hsf : f.flags = s.file.flags := hs.2.1
  have hsz : f.bf.size = s.file.bf.size := hs.2.2.2
  have hput := spool_put h hb
  unfold swbufPut
  rw [hf, Fault.ok_bind]
  dsimp only
  by_cases hend : d.length + 1 = f.bf.size ∨ (f.flags.slbf = true ∧ c = newline)
  · obtain ⟨dev, hfl⟩ := fflush_ok (s := ⟨f, s.dev⟩) ha hb
    refine ⟨_, _, ?_, hb.flushed (by rw [hsf]; exact hkind),
      by simpa using hput.trans (spool_flush (s := ⟨f, s.dev⟩) hb dev)⟩
    rw [if_pos hend, hfl]
    rfl
  · refine ⟨⟨f, s.dev⟩, d ++ [c], by rw [if_neg hend]; rfl, ?_, hput⟩
    rw [hsf, hsz, not_or] at hend
    have hwr : Writing k s.file d := hw.resolve_left hend.2
    refine ⟨hb, by rw [hsf]; exact hkind, ?_, ?_, ?_⟩
    · show f.w = f.space (d ++ [c]).length
      rw [File.space, hsw, hsf, hsz]
      have hwd := hwr.w_eq
      have hub := h.unbuf
      rw [File.space] at hwd
      simp only [List.length_append, List.length_singleton]
      by_cases hl : s.file.flags.slbf = true
      · simp only [hl, if_true] at hwd ⊢
        omega
      · by_cases hn : s.file.flags.snbf = true
        · have := hub hn
          exact absurd hend.1 (by omega)
        · simp only [hl, hn] at hwd ⊢
          simp only [Bool.false_eq_true, if_false] at hwd ⊢
          omega
    · intro hl
      have hl' : s.file.flags.slbf = true := hsf ▸ hl
      have hc : c ≠ newline := fun hc => hend.2 ⟨hl', hc⟩
      simpa using ⟨hwr.line hl', hc.symm⟩
    · intro hn
      have hn' : s.file.flags.snbf = true := hsf ▸ hn
      have := h.unbuf hn'
      exact absurd hend.1 (by omega)

theorem swbufStore_ok (ha : Accepts wr) (h : Buffered k s.file d)
    (hkind : ¬(s.file.flags.slbf = true ∧ s.file.flags.snbf = true))
    (hw : d.length < s.file.bf.size →
      (s.file.flags.slbf = true ∧ c = newline) ∨ Writing k s.file d) :
    ∃ s' d', swbufStore (logged wr) k c s = .ok (c.toNat, s') ∧ Writing k s'.file d' ∧
      Spool.Writes s.spool [c] s'.spool := by
  unfold swbufStore
  rw [h.used, Fault.ok_bind]
  by_cases hfull : s.file.bf.size ≤ d.length
  · obtain ⟨dev, hfl⟩ := fflush_ok ha h
    obtain ⟨s', d', hs, hwr, hsp⟩ := swbufPut_ok (s := ⟨s.file.flushed, dev, s.dev.2 ++ d⟩)
      (c := c) ha h.emptied h.pos hkind (.inr (h.flushed hkind))
    refine ⟨s', d', ?_, hwr, by simpa using (spool_flush h dev).trans hsp⟩
    rw [if_pos hfull, hfl]
    exact hs
  · obtain ⟨s', d', hs, hwr, hsp⟩ := swbufPut_ok ha h (not_le.mp hfull) hkind
      (hw (not_le.mp hfull))
    exact ⟨s', d', by rw [if_neg hfull]; exact hs, hwr, hsp⟩

theorem Ready.spool (h : Ready k e s.file d) : s.spool = ⟨s.dev.2, d⟩ := by
  rw [Stream.spool, h.held]

/-- `putc` need not call `__swbuf`: there is room, and no line ends. -/
theorem Writing.of_room (h : Writing k f d)
    (hq : 0 ≤ f.w - 1 ∨ (f.lbfsize ≤ f.w - 1 ∧ c ≠ newline)) :
    d.length < f.bf.size ∧ f.flags.snbf = false ∧ (f.flags.slbf = true → c ≠ newline) := by
  have hw := h.w_eq
  have hl := h.lbfsize
  rw [File.space] at hw
  by_cases hlb : f.flags.slbf = true
  · have hn : f.flags.snbf = false := by simpa [hlb] using h.kind
    simp only [hlb, if_true] at hw hl
    obtain hq | ⟨hq, hc⟩ := hq
    · omega
    · exact ⟨by omega, hn, fun _ => hc⟩
  · by_cases hnb : f.flags.snbf = true
    · simp only [hlb, hnb, if_true, Bool.false_eq_true, if_false] at hw hl
      omega
    · simp only [hlb, hnb, Bool.false_eq_true, if_false] at hw hl
      exact ⟨by omega, by simpa using hnb, fun h => absurd h hlb⟩

/-- It does call it: the buffer is full, or a line ends, or nothing may be held. -/
theorem Writing.of_no_room (h : Writing k f d)
    (hq : ¬(0 ≤ f.w - 1 ∨ (f.lbfsize ≤ f.w - 1 ∧ c ≠ newline))) (hlt : d.length < f.bf.size) :
    (f.flags.slbf = true ∧ c = newline) ∨ Writing k { f with w := f.lbfsize } d := by
  have hw := h.w_eq
  have hl := h.lbfsize
  rw [File.space] at hw
  by_cases hlb : f.flags.slbf = true
  · simp only [hlb, if_true] at hw hl
    refine .inl ⟨hlb, ?_⟩
    by_contra hc
    exact hq (.inr ⟨by omega, hc⟩)
  · by_cases hnb : f.flags.snbf = true
    · refine .inr ⟨h.setW _, h.kind, ?_, h.line, h.none_held⟩
      show f.lbfsize = f.space d.length
      rw [File.space, if_neg hlb, if_pos hnb, hl, if_neg hlb]
    · simp only [hlb, hnb, Bool.false_eq_true, if_false] at hw
      exact absurd (.inl (by omega)) hq

theorem Writing.stored (h : Writing k f d) (hn : f.flags.snbf = false)
    (hc : f.flags.slbf = true → c ≠ newline) (hb : Buffered k f' (d ++ [c]))
    (hs : SameKind { f with w := f.w - 1 } f') : Writing k f' (d ++ [c]) := by
  have hsw : f'.w = f.w - 1 := hs.1
  have hsf : f'.flags = f.flags := hs.2.1
  have hsz : f'.bf.size = f.bf.size := hs.2.2.2
  have hw := h.w_eq
  refine ⟨hb, by rw [hsf]; exact h.kind, ?_, ?_, ?_⟩
  · rw [File.space] at hw ⊢
    rw [hsw, hsf, hsz, List.length_append, List.length_singleton]
    by_cases hlb : f.flags.slbf = true
    · simp only [hlb, if_true] at hw ⊢
      omega
    · simp only [hlb, hn, Bool.false_eq_true, if_false] at hw ⊢
      omega
  · intro hl
    rw [hsf] at hl
    simpa using ⟨h.line hl, (hc hl).symm⟩
  · intro hnb
    rw [hsf, hn] at hnb
    exact absurd hnb (by decide)

theorem putc_ok (ha : Accepts wr) (h : Ready k e s.file d) (c : BitVec 32) :
    ∃ s' d', putc e (logged wr) k c s = .ok ((c.setWidth 8).toNat, s') ∧ Writing k s'.file d' ∧
      Spool.Writes s.spool [c.setWidth 8] s'.spool := by
  unfold putc
  dsimp only
  rcases h with h | ⟨h, rfl⟩
  · by_cases hq : 0 ≤ s.file.w - 1 ∨ (s.file.lbfsize ≤ s.file.w - 1 ∧ c.setWidth 8 ≠ newline)
    · obtain ⟨hlt, hn, hc⟩ := h.of_room hq
      obtain ⟨f', hf, hb, hs⟩ := (h.setW (s.file.w - 1)).store hlt (c.setWidth 8)
      refine ⟨⟨f', s.dev⟩, _, ?_, h.stored hn hc hb hs, spool_put h.toBuffered hb⟩
      rw [if_pos hq, hf]
      rfl
    · obtain ⟨s', d', hs, hwr, hsp⟩ := swbufStore_ok
        (s := ⟨{ s.file with w := s.file.lbfsize }, s.dev⟩) (c := c.setWidth 8) ha (h.setW _)
        h.kind (h.of_no_room hq)
      refine ⟨s', d', ?_, hwr, hsp⟩
      rw [if_neg hq, swbuf]
      dsimp only
      rw [cantwrite, if_neg (by simp [h.swr, h.base_ne])]
      exact hs
  · -- `_w` and `_lbfsize` are both 0, so that `__swbuf` sets the stream up
    obtain ⟨f', hf, hwr⟩ := (show Ready k e s.file [] from .inr ⟨h, rfl⟩).cantwrite
    have hsp : s.spool = Stream.spool ⟨f', s.dev⟩ := by
      rw [Stream.spool, h.held, Stream.spool, hwr.held]
    have hq : ¬(0 ≤ s.file.w - 1 ∨ (s.file.lbfsize ≤ s.file.w - 1 ∧ c.setWidth 8 ≠ newline)) := by
      rw [h.w, h.lbfsize]
      omega
    have hfile : { s.file with w := s.file.lbfsize } = s.file := by
      rw [h.lbfsize, ← h.w]
    obtain ⟨s', d', hs, hw', hsp'⟩ := swbufStore_ok (s := ⟨f', s.dev⟩) (c := c.setWidth 8) ha
      hwr.toBuffered hwr.kind (fun _ => .inr hwr)
    refine ⟨s', d', ?_, hw', hsp ▸ hsp'⟩
    rw [if_neg hq, swbuf]
    dsimp only
    rw [hfile, hf]
    exact hs

end Stdio
