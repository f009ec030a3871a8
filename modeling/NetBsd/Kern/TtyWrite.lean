import NetBsd.Kern.TtyRing

/-!
# Writing to a terminal

`ttwrite` and `ttyoutput` of `kern/tty.c`, which translate what a process writes and put it into
the ring buffer of the output. In the meantime the device takes characters out of the buffer, and
the interrupts of the input put echoed characters into it; only the expansion of a tab keeps them
out. `ttwrite` is a machine that can be interrupted between any two of its steps, a step reading
or writing a pointer of the ring.

The terminal has a carrier and the process is in its foreground. `tk_nout` and `t_outcc` are read
by nothing here, and are left out.

## Main definitions

* `TtyWrite.State`, `TtyWrite.State.main`: the machine and its steps
* `TtyWrite.Act`, `TtyWrite.State.step`: `ttwrite`, the device and the echo
* `TtyWrite.translate`: what becomes of a character
* `TtyWrite.Safe`: the steps that the code is fit for
-/

namespace TtyWrite

open TtyRing Circular

/-- A character of `t_out`; `mine` tells those of `ttwrite` from those of the echo. -/
structure Cell where
  mine : Bool
  char : UInt8
  deriving DecidableEq

/-- `t_oflag`, and `EXTPROC` of `t_lflag`. -/
structure Flags where
  opost : Bool
  onlcr : Bool
  oxtabs : Bool
  onoeot : Bool
  extproc : Bool

/-- The classes of `partab`. -/
inductive CClass where
  | ordinary
  | control
  | backspace
  | newline
  | tab
  | vtab
  | return
  deriving DecidableEq

/-- `CCLASS(c)` -/
def cclass (c : UInt8) : CClass :=
  if c = 8 then .backspace
  else if c = 9 then .tab
  else if c = 10 then .newline
  else if c = 12 then .vtab
  else if c = 13 then .return
  else if c < 32 ∨ c = 127 then .control
  else .ordinary

def CEOT : UInt8 := 4

/-- `OBUFSIZ` -/
def obufsiz : ℕ := 100

/-- `t_col` behind a character. -/
def column (c : UInt8) (col : BitVec 16) : BitVec 16 :=
  match cclass c with
  | .ordinary => col + 1
  | .control => col
  | .vtab => col
  | .backspace => if 0 < col.toInt then col - 1 else col
  | .newline => 0
  | .tab => (col + 8) &&& ~~~7
  | .return => 0

/-- The spaces to the next multiple of eight. -/
def tabWidth (col : BitVec 16) : ℕ := 8 - col.toNat % 8

/-- A tab is expanded by `ttyoutput`. -/
def Flags.Expands (f : Flags) (c : UInt8) : Prop := c = 9 ∧ f.oxtabs = true ∧ f.extproc = false

instance (f : Flags) (c : UInt8) : Decidable (f.Expands c) :=
  inferInstanceAs (Decidable (_ ∧ _ ∧ _))

/-- A character that is being put by `putc`: those put before it in the same call of `ttyoutput`,
and those to be put behind it. -/
structure Put where
  before : List UInt8
  char : UInt8
  after : List UInt8

/-- Where `ttwrite` is. In a run of characters that are copied, `moved` of them are in the buffer
and `i` are to go there still; `again` in the second segment. -/
inductive Pc where
  | loop
  | inner
  | check (c : Put)
  | store (c : Put) (nxtp : Fin rbsz)
  | advance (c : Put) (nxtp : Fin rbsz)
  | col (c : Put)
  | measure (moved i : ℕ) (again : Bool)
  | bcopy (moved i n : ℕ) (again : Bool)
  | rollover (moved i n : ℕ) (again : Bool)
  | finish (moved i : ℕ)
  | ret

/-- The terminal and the call of `ttwrite`. `gone` is what the device has taken, and `done` the
characters that are finished, each with `t_col` at that time. -/
structure State where
  flags : Flags
  hiwat : ℕ
  hd : Fin rbsz
  tl : Fin rbsz
  buf : Fin rbsz → Cell
  gone : List Cell
  tcol : BitVec 16
  pc : Pc
  cp : List UInt8
  resid : List UInt8
  done : List (UInt8 × BitVec 16)

namespace State

variable (s : State)

/-- `t_out` without the marks. -/
def ring : Ringb := ⟨s.hd, s.tl, fun p => (s.buf p).char⟩

/-- `RB_LEN(&tp->t_out)` -/
def len : ℕ := gap s.hd s.tl

/-- What is in the buffer. -/
def cells : List Cell := window s.buf s.hd s.len

/-- `RB_CONTIGPUT(&tp->t_out)` -/
def contig : ℕ := (rbContigput s.ring).toNat

/-- `RB_ROLLOVER(&tp->t_out, tp->t_out.rb_tl + n)` -/
def rolled (n : ℕ) : Fin rbsz :=
  if h : s.tl + n < rbsz then ⟨s.tl + n, h⟩ else 0

/-- `bcopy(p, tp->t_out.rb_tl, n)` -/
def copied (p : List UInt8) : Fin rbsz → Cell := fill s.buf s.tl (p.map (⟨true, ·⟩))

/-- As many of the spaces as go in contiguously. -/
def spaces (c : ℕ) : State :=
  let i := min c s.contig
  { s with buf := s.copied (List.replicate i 32), tl := s.rolled i }

/-- `ttyoutput('\t')` with `OXTABS`, which no interrupt gets into. -/
def tab : State :=
  let c := tabWidth s.tcol
  let i := min c s.contig
  let t := (s.spaces c).spaces (c - i)
  { t with tcol := s.tcol + BitVec.ofNat 16 c }

/-- The first `n` characters of the chunk are finished. -/
def finished (n : ℕ) : State :=
  { s with done := s.done ++ (s.cp.take n).map fun c => (c, s.tcol), cp := s.cp.drop n }

/-- Back to the loop over the chunk, unless there is too much in the buffer. -/
def next : State := { s with pc := if s.hiwat < s.len then .loop else .inner }

/-- The start of `ttyoutput` for a special character at `cp`. -/
def special (c : UInt8) : State :=
  if s.flags.Expands c then
    -- the tab is finished with the column that it was expanded from
    (s.finished 1).tab.next
  else if c = CEOT ∧ s.flags.onoeot = true then (s.finished 1).next
  else if c = 10 ∧ s.flags.onlcr = true then { s with pc := .check ⟨[], 13, [10]⟩ }
  else { s with pc := .check ⟨[], c, []⟩ }

/-- A step of `ttwrite`. Sleeping is staying at the top of the loop. -/
def main : State :=
  match s.pc with
  | .loop =>
    if s.resid = [] ∧ s.cp = [] then { s with pc := .ret }
    else if s.hiwat < s.len then s
    else if s.cp = [] then
      { s with cp := s.resid.take obufsiz, resid := s.resid.drop obufsiz, pc := .inner }
    else { s with pc := .inner }
  | .inner =>
    match s.cp with
    | [] => { s with pc := .loop }
    | c :: _ =>
      if s.flags.opost = false then { s with pc := .measure 0 s.cp.length false }
      else if cclass c = .ordinary then
        { s with pc := .measure 0 (s.cp.takeWhile (cclass · = .ordinary)).length false }
      else s.special c
  | .check c =>
    -- no room: wait a bit, and `ttyoutput` is called again for the whole character
    if rbSucc s.tl = s.hd then { s with pc := .loop }
    else { s with pc := .store c (rbSucc s.tl) }
  | .store c nxtp =>
    { s with buf := Function.update s.buf s.tl ⟨true, c.char⟩, pc := .advance c nxtp }
  | .advance c nxtp => { s with tl := nxtp, pc := .col c }
  | .col c =>
    let t := { s with tcol := column c.char s.tcol }
    match c.after with
    | [] => (t.finished 1).next
    | b :: after => { t with pc := .check ⟨c.before ++ [c.char], b, after⟩ }
  | .measure moved i again => { s with pc := .bcopy moved i (min i s.contig) again }
  | .bcopy moved i n again =>
    { s with buf := s.copied ((s.cp.drop moved).take n), pc := .rollover moved i n again }
  | .rollover moved i n again =>
    { s with
      tl := s.rolled n
      pc := if again = false ∧ 0 < i - n then .measure (moved + n) (i - n) true
            else .finish (moved + n) (i - n) }
  | .finish moved i =>
    let t := s.finished moved
    let t := { t with tcol := s.tcol + BitVec.ofNat 16 moved }
    -- out of space: wait a bit
    if 0 < i then { t with pc := .loop } else t.next
  | .ret => s

/-- The device takes a character. -/
def device : State :=
  if s.hd = s.tl then s else { s with gone := s.gone ++ [s.buf s.hd], hd := rbSucc s.hd }

/-- A character is echoed, if there is room, and the column is another. -/
def echo (b : UInt8) (col : BitVec 16) : State :=
  if rbSucc s.tl = s.hd then { s with tcol := col }
  else { s with buf := Function.update s.buf s.tl ⟨false, b⟩, tl := rbSucc s.tl, tcol := col }

end State

/-- What happens next. -/
inductive Act where
  | main
  | device
  | echo (b : UInt8) (col : BitVec 16)

def State.step (s : State) : Act → State
  | .main => s.main
  | .device => s.device
  | .echo b col => s.echo b col

/-- What becomes of a character. -/
def translate (f : Flags) (c : UInt8) (col : BitVec 16) : List UInt8 :=
  if f.opost = false then [c]
  else if f.Expands c then List.replicate (tabWidth col) 32
  else if c = CEOT ∧ f.onoeot = true then []
  else if c = 10 ∧ f.onlcr = true then [13, 10]
  else [c]

/-- All that `ttwrite` has put into `t_out`, in order. -/
def State.mine (s : State) : List UInt8 :=
  ((s.gone ++ s.cells).filter (·.mine)).map (·.char)

/-- The translation of what is finished. -/
def State.translated (s : State) : List UInt8 :=
  s.done.flatMap fun c => translate s.flags c.1 c.2

/-- A call of `ttwrite` at its start: nothing of the buffer is its own. -/
structure State.Start (s : State) (text : List UInt8) : Prop where
  pc : s.pc = .loop
  cp : s.cp = []
  resid : s.resid = text
  done : s.done = []
  gone : s.gone = []
  buf : ∀ p, (s.buf p).mine = false

/-- Between reading `rb_tl`, or measuring the room behind it, and moving it on. -/
def Pc.Busy : Pc → Prop
  | .store _ _ => True
  | .advance _ _ => True
  | .bcopy _ _ _ _ => True
  | .rollover _ _ _ _ => True
  | _ => False

/-- The steps that the code is fit for: nothing is echoed while `ttwrite` is at `rb_tl`, there is
room for all the spaces of a tab, and for the newline behind its carriage return. -/
def Safe (s : State) : Act → Prop
  | .device => True
  | .echo _ _ => ¬s.pc.Busy
  | .main =>
    match s.pc with
    | .inner => ∀ c ∈ s.cp.head?, s.flags.opost = true → s.flags.Expands c →
        s.len + tabWidth s.tcol < rbsz
    | .check c => c.before ≠ [] → rbSucc s.tl ≠ s.hd
    | _ => True

/-- The states of a run from the start of a call, of which each step is as `P` says. -/
inductive Reached (P : State → Act → Prop) (text : List UInt8) : State → Prop where
  | start {s : State} (h : s.Start text) : Reached P text s
  | step {s : State} (h : Reached P text s) (a : Act) (hp : P s a) : Reached P text (s.step a)

end TtyWrite
