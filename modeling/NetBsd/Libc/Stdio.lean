import Mathlib
import NetBsd.Lib.Fault

/-!
# Standard I/O streams

The `FILE` of stdio, its buffer, and the routines that set a stream up and flush it. A pointer
into a buffer is the buffer and an offset; a store outside of the buffer is a fault.

## Main definitions

* `Stdio.File`, `Stdio.Stream`: a `FILE`, and one with the object behind its cookie
* `Stdio.makebuf`, `Stdio.setvbuf`, `Stdio.swsetup`: a buffer of its own or the caller's, and
  the turn to writing
* `Stdio.sflush`, `Stdio.fflush`: the buffered bytes offered to the write function
-/

namespace Stdio

abbrev Byte := BitVec 8

/-- `EOF` -/
def eof : ℤ := -1

/-- `BUFSIZ` -/
def bufsiz : ℕ := 1024

/-- `'\n'` -/
def newline : Byte := 10

/-- The bits of `_flags`. -/
structure Flags where
  slbf : Bool := false
  snbf : Bool := false
  srd : Bool := false
  swr : Bool := false
  srw : Bool := false
  seof : Bool := false
  serr : Bool := false
  smbf : Bool := false
  sstr : Bool := false
  sopt : Bool := false
  snpt : Bool := false
  soff : Bool := false
  smod : Bool := false
  deriving DecidableEq, Repr

/-- Where a pointer of a `FILE` points: nowhere, or into `_bf` or `_ub`. -/
inductive Ptr where
  | null
  | bf (i : ℕ)
  | ub (i : ℕ)
  deriving DecidableEq, Repr

/-- `struct __sbuf`, with the bytes it points to. -/
structure Sbuf where
  base : Option (List Byte) := none
  size : ℕ := 0
  deriving DecidableEq, Repr

/-- `FILE`. The ungetc buffer is `_ubuf`, of three bytes, or comes from `malloc`; a stream has
it if and only if `ub.base` is not null. -/
structure File where
  p : Ptr := .null
  r : ℤ := 0
  w : ℤ := 0
  flags : Flags := {}
  bf : Sbuf := {}
  lbfsize : ℤ := 0
  ub : Sbuf := {}
  ubuf : Bool := false
  up : Ptr := .null
  ur : ℤ := 0
  lb : Sbuf := {}
  blksize : ℤ := 0
  offset : ℤ := 0
  deriving DecidableEq, Repr

/-- A `FILE` and what its cookie stands for. -/
structure Stream (σ : Type) where
  file : File
  dev : σ

/-- The kinds of file that `fstat` tells apart here. -/
inductive Kind where
  | ifreg
  | ifchr
  | other
  deriving DecidableEq, Repr

structure Stat where
  kind : Kind
  blksize : BitVec 32
  size : BitVec 32
  deriving DecidableEq, Repr

/-- What the system answers: `fstat` on the file, if there is one, `isatty`, whether `_seek` is
`__sseek`, and whether `malloc` has so many bytes. -/
structure Env where
  fstat : Option Stat
  isatty : Bool
  sseek : Bool
  malloc : ℕ → Bool

variable {σ : Type}

/-- `fp->_bf._base`, as a pointer -/
def File.basePtr (f : File) : Ptr := if f.bf.base = none then .null else .bf 0

/-- `fp->_p - fp->_bf._base` -/
def File.used (f : File) : Except Fault ℕ :=
  match f.bf.base, f.p with
  | some _, .bf n => .ok n
  | _, _ => .error .deref

/-- `*fp->_p++ = c`, within the buffer -/
def File.store (f : File) (c : Byte) : Except Fault File :=
  match f.bf.base, f.p with
  | some cells, .bf n =>
    if n < cells.length ∧ n < f.bf.size then
      .ok { f with bf := { f.bf with base := some (cells.set n c) }, p := .bf (n + 1) }
    else .error .deref
  | _, _ => .error .deref

/-- `COPY`, and `fp->_p` moved behind what was copied -/
def File.copy (f : File) (d : List Byte) : Except Fault File :=
  match f.bf.base, f.p with
  | some cells, .bf n =>
    if n + d.length ≤ cells.length ∧ n + d.length ≤ f.bf.size then
      .ok { f with
        bf := { f.bf with base := some (cells.take n ++ d ++ cells.drop (n + d.length)) }
        p := .bf (n + d.length) }
    else .error .deref
  | _, _ => .error .deref

/-! ## The buffer -/

/-- `fp->_nbuf` as the buffer -/
def File.setNbuf (f : File) : File := { f with bf := ⟨some [0], 1⟩, p := .bf 0 }

/-- The size `__smakebuf` asks for. -/
def Env.bufSize (e : Env) : ℕ :=
  match e.fstat with
  | none => bufsiz
  | some st => if st.blksize.toInt ≤ 0 then bufsiz else st.blksize.toInt.toNat

def Env.couldbetty (e : Env) : Bool := e.fstat.any fun st => st.kind = .ifchr

/-- `__SOPT` and `_blksize` for a regular file, `__SNPT` for any other. -/
def Env.optimise (e : Env) (f : File) : File :=
  match e.fstat with
  | none => { f with flags := { f.flags with snpt := true } }
  | some st =>
    if st.kind = .ifreg ∧ e.sseek then
      { f with flags := { f.flags with sopt := true }, blksize := st.blksize.toInt }
    else { f with flags := { f.flags with snpt := true } }

def makebuf (e : Env) (f : File) : File :=
  if f.flags.snbf then f.setNbuf
  else
    let f := e.optimise f
    if e.malloc e.bufSize then
      -- the bytes `malloc` returns are not read before they are written
      { f with
        flags := { f.flags with smbf := true, slbf := f.flags.slbf || e.couldbetty && e.isatty }
        bf := ⟨some (List.replicate e.bufSize 0), e.bufSize⟩
        p := .bf 0 }
    else { f with flags := { f.flags with snbf := true } }.setNbuf

/-! ## Turning to writing -/

/-- A stream open for reading and writing turns to writing. -/
def File.toWriting (f : File) : File :=
  if f.flags.swr then f
  else
    let f :=
      if f.flags.srd then
        -- whatever `ungetc` left is dropped
        { f with
          ub := { f.ub with base := none }
          flags := { f.flags with srd := false, seof := false }
          r := 0
          p := f.basePtr }
      else f
    { f with flags := { f.flags with swr := true } }

/-- `__swsetup`, or `none` for `EOF` -/
def swsetup (e : Env) (f : File) : Option File :=
  if ¬f.flags.swr ∧ ¬f.flags.srw then none
  else
    let f := f.toWriting
    let f := if f.bf.base = none then makebuf e f else f
    if f.flags.slbf then some { f with w := 0, lbfsize := -f.bf.size }
    else some { f with w := if f.flags.snbf then 0 else f.bf.size }

/-- `cantwrite`: `none` if so, and otherwise the `FILE` made ready -/
def cantwrite (e : Env) (f : File) : Option File :=
  if ¬f.flags.swr ∨ f.bf.base = none then swsetup e f else some f

/-! ## Flushing -/

/-- A write function: how many of the bytes offered it accepts, none of them at most all; an
error is negative. -/
abbrev WriteFn (σ : Type) := σ → List Byte → ℤ × σ

/-- `(*fp->_write)(fp->_cookie, d, n)` -/
def Stream.write (wr : WriteFn σ) (s : Stream σ) (d : List Byte) : ℤ × Stream σ :=
  ((wr s.dev d).1, { s with dev := (wr s.dev d).2 })

/-- `fp->_flags |= __SERR` -/
def Stream.err (s : Stream σ) : Stream σ :=
  { s with file := { s.file with flags := { s.file.flags with serr := true } } }

/-- The loop of `__sflush` over the bytes left. -/
def sflushLoop (wr : WriteFn σ) : ℕ → List Byte → Stream σ → Except Fault (ℤ × Stream σ)
  | 0, _, _ => .error .loop
  | fuel + 1, d, s =>
    if d = [] then .ok (0, s)
    else
      let (t, s) := s.write wr d
      if t ≤ 0 then .ok (eof, s.err) else sflushLoop wr fuel (d.drop t.toNat) s

def sflush (wr : WriteFn σ) (fuel : ℕ) (s : Stream σ) : Except Fault (ℤ × Stream σ) :=
  if ¬s.file.flags.swr then .ok (0, s)
  else
    match s.file.bf.base with
    | none => .ok (0, s)
    | some cells => do
      let n ← s.file.used
      let t := s.file.flags
      sflushLoop wr fuel (cells.take n)
        { s with file := { s.file with
            p := .bf 0
            w := if t.slbf || t.snbf then 0 else s.file.bf.size } }

def fflush (wr : WriteFn σ) (fuel : ℕ) (s : Stream σ) : Except Fault (ℤ × Stream σ) :=
  if ¬s.file.flags.swr ∧ ¬s.file.flags.srw then .ok (eof, s) else sflush wr fuel s

/-! ## Choosing a buffer -/

/-- `_IOFBF`, `_IOLBF` and `_IONBF` -/
inductive Mode where
  | iofbf
  | iolbf
  | ionbf
  deriving DecidableEq, Repr

/-- The buffer and the kind of buffering that `setvbuf` chooses. -/
def File.rebuf (f : File) (buf : Option (List Byte)) (mode : Mode) (size : ℕ) : File :=
  let f := { f with
    r := 0
    lbfsize := 0
    flags := { f.flags with slbf := false, snbf := false, smbf := false } }
  match mode with
  | .ionbf => { f with flags := { f.flags with snbf := true } }.setNbuf
  | .iolbf =>
    { f with
      flags := { f.flags with slbf := true }
      lbfsize := -size
      bf := ⟨buf, size⟩
      p := if buf = none then .null else .bf 0 }
  | .iofbf => { f with bf := ⟨buf, size⟩, p := if buf = none then .null else .bf 0 }

/-- `setvbuf` on a stream that has been flushed, with the write count patched up. -/
def File.choose (f : File) (buf : Option (List Byte)) (mode : Mode) (size : ℕ) : File :=
  let f := f.rebuf buf mode size
  if f.flags.swr then { f with w := if f.flags.slbf || f.flags.snbf then 0 else size } else f

def setvbuf (wr : WriteFn σ) (fuel : ℕ) (buf : Option (List Byte)) (mode : Mode) (size : ℕ)
    (s : Stream σ) : Except Fault (ℤ × Stream σ) :=
  -- the `int' limit on `size'
  if 2 ^ 31 ≤ size then .ok (eof, s)
  else do
    let (_, s) ← sflush wr fuel s
    return (0, { s with file := s.file.choose buf mode size })

end Stdio
