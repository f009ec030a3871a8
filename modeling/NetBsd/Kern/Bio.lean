import NetBsd.Lib.Queues
import Mathlib.Data.Int.Basic

/-!
# The buffer cache

The buffer cache of `kern/vfs__bio.c` for any number of processes, which lose the processor only
where they sleep: in `sleep`, in `malloc` with `M_WAITOK`, and while a driver is given a buffer.
The lists of a vnode's buffers, credentials and the memory of buffers are left out, and no buffer
has `B_CALL`.

## Main definitions

* `Buf`, `State`: a buffer header, and the cache with what each process does
* `incore`, `getnewbuf`, `brelse`, `bawrite`, `biodone`: the functions that do not wait
* `getblk`, `finish`: the parts between waits of those that do
* `Op`, `step`, `Run`: what processes and drivers do, one at a time
-/

namespace Bio

open InsQueue

variable {ν π : Type}

/-! ## Buffers -/

/-- The flags that the functions read. -/
structure Flags where
  read : Bool := false
  done : Bool := false
  error : Bool := false
  busy : Bool := false
  wanted : Bool := false
  age : Bool := false
  async : Bool := false
  delwri : Bool := false
  tape : Bool := false
  dirty : Bool := false
  cache : Bool := false
  inval : Bool := false
  nocache : Bool := false
  deriving DecidableEq

/-- `BQ_LOCKED`, `BQ_LRU`, `BQ_AGE`, `BQ_EMPTY`. -/
inductive Queue where
  | locked
  | lru
  | age
  | empty
  deriving DecidableEq

/-- The heads of hash chains: those of `bufhash`, and those of `bfreelist`, which have one too. -/
inductive Chain where
  | bucket (h : ℕ)
  | list (q : Queue)
  deriving DecidableEq

structure Buf (ν : Type) where
  flags : Flags
  vp : Option ν
  lblkno : ℤ
  blkno : ℤ
  bcount : ℤ
  bufsize : ℤ
  error : ℤ

/-- What a process sleeps for: `bfreelist`, or a buffer. -/
inductive Chan where
  | bfreelist
  | buf (b : ℕ)
  deriving DecidableEq

/-- What needs a buffer: `getblk`, for itself or for `bread`, or `geteblk`. -/
inductive Call (ν : Type) where
  | getblk (vp : ν) (blkno size : ℤ) (bread : Bool)
  | geteblk (size : ℤ)

def Call.size : Call ν → ℤ
  | .getblk _ _ size _ => size
  | .geteblk size => size

/-- Where a process is: in no call, at the beginning of the loop of a call, at `start` in
`getnewbuf`, in the `malloc` of `getnewbuf` or in that of `allocbuf`, or in `biowait` for `bread` or
for `bwrite`. -/
inductive Pc (ν : Type) where
  | idle
  | loop (c : Call ν)
  | start (c : Call ν)
  | malloc (c : Call ν)
  | allocbuf (c : Call ν) (b : ℕ)
  | biowait (b : ℕ) (write : Bool)

/-- Who has a buffer: nobody, a caller, `allocbuf`, or a driver, for a process that waits or for
none. -/
inductive Use (π : Type) where
  | free
  | held (p : π)
  | alloc (p : π)
  | sync (p : π)
  | async
  deriving DecidableEq

/-- The buffers `0, …, nbuf - 1`, the pointers of the free lists and of the hash chains, `B_WANTED`
of `bfreelist[BQ_AGE]`, and the processes. `vIndex` is the address of a vnode by the size of one.
No function reads `use`, nor how often a buffer was released. -/
structure State (ν π : Type) where
  nbuf : ℕ
  vIndex : ν → ℤ
  av : Links (Node Queue ℕ)
  hash : Links (Node Chain ℕ)
  buf : ℕ → Buf ν
  wanted : Bool
  freebufspace : ℤ
  allocbufspace : ℤ
  pc : π → Pc ν
  asleep : π → Option Chan
  use : ℕ → Use π
  released : ℕ → ℕ

/-- `BUFHASH`. -/
def bufhash (s : State ν π) (vp : ν) (blkno : ℤ) : Chain :=
  .bucket ((s.vIndex vp + blkno) % 512).toNat

def State.setBuf (s : State ν π) (b : ℕ) (buf : Buf ν) : State ν π :=
  { s with buf := Function.update s.buf b buf }

def State.setFlags (s : State ν π) (b : ℕ) (f : Flags) : State ν π :=
  s.setBuf b { s.buf b with flags := f }

def State.give (s : State ν π) (b : ℕ) (u : Use π) : State ν π :=
  { s with use := Function.update s.use b u }

/-! ## Functions that do not wait -/

/-- `EIO`. -/
def eio : ℤ := 5

def brelvp (s : State ν π) (b : ℕ) : Except Fault (State ν π) :=
  match (s.buf b).vp with
  | none => .error .panic
  | some _ => .ok (s.setBuf b { s.buf b with vp := none })

def bgetvp (s : State ν π) (b : ℕ) (vp : ν) : Except Fault (State ν π) :=
  match (s.buf b).vp with
  | some _ => .error .panic
  | none => .ok (s.setBuf b { s.buf b with vp := some vp })

/-- Only the lists of the vnode change. -/
def reassignbuf (s : State ν π) (b : ℕ) : Except Fault (State ν π) :=
  match (s.buf b).vp with
  | none => .error .panic
  | some _ => .ok s

/-- `VOP_STRATEGY` of the vnode. -/
def strategy (s : State ν π) (b : ℕ) (u : Use π) : Except Fault (State ν π) :=
  match (s.buf b).vp with
  | none => .error .deref
  | some _ => .ok (s.give b u)

section Functions

def wakeup (s : State ν π) (c : Chan) : State ν π :=
  { s with asleep := fun p => if s.asleep p = some c then none else s.asleep p }

/-- The first buffer on a free list. -/
def firstBuf (s : State ν π) (q : Queue) : Except Fault (Option ℕ) :=
  match s.av.forw (.head q) with
  | some (.item b) => .ok (some b)
  | some (.head q') => if q' = q then .ok none else .error .deref
  | none => .error .deref

def bremfree (s : State ν π) (b : ℕ) : Except Fault (State ν π) := do
  let av ← unlink s.av (.item b)
  .ok { s with av := av }

def bremhash (s : State ν π) (b : ℕ) : Except Fault (State ν π) := do
  let hash ← unlink s.hash (.item b)
  .ok { s with hash := hash }

def binshash (s : State ν π) (b : ℕ) (c : Chain) : Except Fault (State ν π) := do
  let hash ← insque s.hash (.item b) (.head c)
  .ok { s with hash := hash }

/-- The place on the free lists that `brelse` chooses. -/
def enqueue (s : State ν π) (b : ℕ) : Except Fault (Links (Node Queue ℕ)) :=
  let f := (s.buf b).flags
  if f.error || f.inval || f.nocache then insertFirst s.av (.item b) (.head .age)
  else if f.age then insertLast s.av (.item b) (.head .age)
  else insertLast s.av (.item b) (.head .lru)

/-- An invalid buffer, or one with an error, leaves its vnode. -/
def invalidate (s : State ν π) (b : ℕ) : Except Fault (State ν π) :=
  let f := (s.buf b).flags
  if f.inval || f.error then
    let s := s.setFlags b { f with inval := true, delwri := false, cache := false }
    if (s.buf b).vp.isSome then brelvp s b else .ok s
  else .ok s

/-- Those who want a free buffer are woken up. -/
def wakeList (s : State ν π) : State ν π :=
  if s.wanted then wakeup { s with wanted := false } .bfreelist else s

/-- Those who want this buffer are woken up. -/
def wakeBuf (s : State ν π) (b : ℕ) : State ν π :=
  let f := (s.buf b).flags
  if f.wanted then wakeup (s.setFlags b { f with wanted := false }) (.buf b) else s

def brelse (s : State ν π) (b : ℕ) : Except Fault (State ν π) := do
  let s ← invalidate (wakeBuf (wakeList s) b) b
  let av ← enqueue s b
  let s := ({ s with av := av } : State ν π).setFlags b { (s.buf b).flags with busy := false }
  .ok { s.give b .free with released := Function.update s.released b (s.released b + 1) }

/-- `bwrite` up to `biowait`. -/
def bwrite [DecidableEq π] (s : State ν π) (p : π) (b : ℕ) : Except Fault (State ν π) :=
  let f := (s.buf b).flags
  if f.inval then brelse s b
  else if !f.busy then .error .panic
  else do
    let f' := { f with read := false, done := false, error := false, async := false, delwri := false }
    let s := s.setFlags b f'
    let s ← (if f.delwri then reassignbuf s b else .ok s)
    let s ← strategy (s.setFlags b { f' with dirty := true }) b (.sync p)
    .ok { s with pc := Function.update s.pc p (.biowait b true) }

def bdwrite [DecidableEq π] (s : State ν π) (p : π) (b : ℕ) : Except Fault (State ν π) := do
  if !(s.buf b).flags.busy then .error .panic
  let s ← (if (s.buf b).flags.inval then brelse s b else .ok s)
  let f := (s.buf b).flags
  if f.tape then bwrite s p b
  else do
    let s ← reassignbuf
      (s.setFlags b { f with read := false, done := false, dirty := true, delwri := true }) b
    brelse s b

def bawrite (s : State ν π) (b : ℕ) : Except Fault (State ν π) :=
  let f := (s.buf b).flags
  if !f.busy then .error .panic
  else if f.inval then brelse s b
  else do
    let f' := { f with read := false, done := false, error := false, delwri := false }
    let s := s.setFlags b f'
    let s ← (if f.delwri then reassignbuf s b else .ok s)
    strategy (s.setFlags b { f' with dirty := true, async := true }) b .async

/-- A driver sets the error, if there was one. -/
def setError (buf : Buf ν) : Option ℤ → Buf ν
  | none => buf
  | some e => { buf with flags := { buf.flags with error := true }, error := e }

/-- A buffer that was written is no longer dirty. -/
def written (f : Flags) : Flags :=
  if !f.read && f.dirty then { f with dirty := false } else f

def biodone (s : State ν π) (b : ℕ) (error : Option ℤ) : Except Fault (State ν π) := do
  let buf := setError (s.buf b) error
  let f := written buf.flags
  let s := s.setBuf b { buf with flags := f }
  let s ← (if f.async then brelse s b else .ok s)
  .ok (wakeup (s.setFlags b { (s.buf b).flags with async := false, done := true }) (.buf b))

section Search

variable [DecidableEq ν]

/-- The buffer is for the block and valid. -/
def isFor (buf : Buf ν) (vp : ν) (blkno : ℤ) : Bool :=
  buf.lblkno = blkno && buf.vp = some vp && !buf.flags.inval

/-- The search in a hash chain up to its head; `k` bounds the turns. -/
def search (s : State ν π) (vp : ν) (blkno : ℤ) (bh : Node Chain ℕ) :
    ℕ → Option (Node Chain ℕ) → Except Fault (Option ℕ)
  | 0, _ => .error .loop
  | _ + 1, none => .error .deref
  | k + 1, some n =>
    if n = bh then .ok none
    else
      match n with
      | .head _ => .error .deref
      | .item b =>
        if isFor (s.buf b) vp blkno then .ok (some b)
        else search s vp blkno bh k (s.hash.forw (.item b))

def incore (s : State ν π) (vp : ν) (blkno : ℤ) : Except Fault (Option ℕ) :=
  let bh := Node.head (bufhash s vp blkno)
  search s vp blkno bh (s.nbuf + 1) (s.hash.forw bh)

end Search

/-! ## Functions that wait -/

section Wait

variable [DecidableEq π]

def State.goto (s : State ν π) (p : π) (pc : Pc ν) : State ν π :=
  { s with pc := Function.update s.pc p pc }

def sleep (s : State ν π) (p : π) (c : Chan) : State ν π :=
  { s with asleep := Function.update s.asleep p (some c) }

/-- `getblk` has the buffer, and `bread` reads it unless it was found. -/
def got (s : State ν π) (p : π) (b : ℕ) (bread : Bool) : Except Fault (State ν π) :=
  let f := (s.buf b).flags
  if bread && (!f.cache || f.inval) then do
    let s ← strategy
      (s.setFlags b { f with read := true, done := false, error := false, inval := false }) b (.sync p)
    .ok (s.goto p (.biowait b false))
  else .ok ((s.give b (.held p)).goto p .idle)

/-- The end of `getnewbuf`, and what its caller does with the buffer. -/
def filled (s : State ν π) (p : π) (c : Call ν) (b : ℕ) : Except Fault (State ν π) := do
  let s := s.setBuf b { s.buf b with bcount := c.size, bufsize := c.size }
  match c with
  | .getblk vp blkno _ bread =>
    let s := s.setBuf b { s.buf b with blkno := blkno, lblkno := blkno }
    let s ← bgetvp s b vp
    let s ← binshash s b (bufhash s vp blkno)
    got (s.setFlags b { busy := true }) p b bread
  | .geteblk _ =>
    let s ← binshash s b (.list .age)
    .ok ((s.give b (.held p)).goto p .idle)

/-- `fillin` in `getnewbuf`. -/
def fillin (s : State ν π) (p : π) (c : Call ν) (b : ℕ) : Except Fault (State ν π) := do
  let s ← bremhash s b
  let s := s.setBuf b { s.buf b with vp := none, blkno := 0, lblkno := 0, error := 0 }
  if (s.buf b).bufsize ≠ c.size then .ok ((s.give b (.alloc p)).goto p (.allocbuf c b))
  else filled s p c b

/-- `tryfree` in `getnewbuf`, with a buffer that is taken for it. -/
def reuse (s : State ν π) (p : π) (c : Call ν) (b : ℕ) : Except Fault (State ν π) := do
  let s ← bremfree s b
  let f := (s.buf b).flags
  if f.delwri then do
    let s ← bawrite (s.setFlags b { f with busy := true }) b
    .ok (s.goto p (.start c))
  else do
    let s ← (if (s.buf b).vp.isSome then brelvp s b else .ok s)
    fillin (s.setFlags b { busy := true }) p c b

/-- `tryfree` in `getnewbuf`; both callers try again when it returns 0. -/
def tryfree (s : State ν π) (p : π) (c : Call ν) : Except Fault (State ν π) := do
  match ← firstBuf s .age with
  | some b => reuse s p c b
  | none =>
    match ← firstBuf s .lru with
    | some b => reuse s p c b
    | none => .ok ((sleep { s with wanted := true } p .bfreelist).goto p (.loop c))

def getnewbuf (s : State ν π) (p : π) (c : Call ν) : Except Fault (State ν π) := do
  if s.freebufspace > c.size && (← firstBuf s .empty).isSome then .ok (s.goto p (.malloc c))
  else tryfree s p c

/-- A new buffer when `malloc` has returned. A list head that is taken for a buffer is a fault. -/
def malloced (s : State ν π) (p : π) (c : Call ν) : Except Fault (State ν π) := do
  let s : State ν π := { s with
    freebufspace := s.freebufspace - c.size, allocbufspace := s.allocbufspace + c.size }
  match ← firstBuf s .empty with
  | none => .error .deref
  | some b => do
    let s ← bremfree (s.setFlags b { busy := true, inval := true }) b
    fillin (s.setBuf b { s.buf b with bufsize := c.size }) p c b

/-- The end of `allocbuf`. -/
def allocbuf (s : State ν π) (p : π) (c : Call ν) (b : ℕ) : Except Fault (State ν π) :=
  let more := c.size - (s.buf b).bufsize
  let s : State ν π := { s with
    freebufspace := s.freebufspace - more, allocbufspace := s.allocbufspace + more }
  filled (s.setBuf b { s.buf b with bcount := c.size, bufsize := c.size }) p c b

/-- A buffer with an error is made invalid, and goes to another hash chain. -/
def failed (s : State ν π) (b : ℕ) : Except Fault (State ν π) := do
  let f := (s.buf b).flags
  let s ← (if f.inval then .ok s
    else do
      let s ← bremhash (s.setFlags b { f with inval := true }) b
      binshash s b (.list .age))
  if (s.buf b).error = 0 then .ok (s.setBuf b { s.buf b with error := eio })
  else .ok (s.setFlags b { (s.buf b).flags with error := true })

/-- `biowait`, and what comes after it in `bread` and `bwrite`. -/
def finish (s : State ν π) (p : π) (b : ℕ) (write : Bool) : Except Fault (State ν π) :=
  let f := (s.buf b).flags
  if !f.done then .ok (sleep s p (.buf b))
  else do
    let s ← (if f.error || (s.buf b).error ≠ 0 then failed s b else .ok s)
    if write then do
      let s ← brelse s b
      .ok (s.goto p .idle)
    else .ok ((s.give b (.held p)).goto p .idle)

variable [DecidableEq ν]

/-- The loops of `getblk` and `geteblk`. -/
def getblk (s : State ν π) (p : π) (c : Call ν) : Except Fault (State ν π) :=
  match c with
  | .getblk vp blkno size bread => do
    match ← incore s vp blkno with
    | some b =>
      let f := (s.buf b).flags
      if f.busy then
        .ok ((sleep (s.setFlags b { f with wanted := true }) p (.buf b)).goto p (.loop c))
      else do
        let s ← bremfree (s.setFlags b { f with busy := true, cache := true }) b
        if size > (s.buf b).bufsize then .error .panic
        else got s p b bread
    | none => getnewbuf s p c
  | .geteblk _ => getnewbuf s p c

/-! ## Steps -/

/-- A process calls a function, or goes on in one; `null` is what `malloc` returns to `getnewbuf`.
A caller changes the flags of a buffer that it has. A driver is done with a buffer. -/
inductive Op (ν π : Type) where
  | call (p : π) (c : Call ν)
  | resume (p : π) (null : Bool)
  | setFlags (p : π) (b : ℕ) (f : Flags)
  | brelse (p : π) (b : ℕ)
  | bwrite (p : π) (b : ℕ)
  | bdwrite (p : π) (b : ℕ)
  | bawrite (p : π) (b : ℕ)
  | biodone (b : ℕ) (error : Option ℤ)

/-- A process goes on where it is. -/
def resume (s : State ν π) (p : π) (null : Bool) : Except Fault (State ν π) :=
  match s.pc p with
  | .idle => .ok s
  | .loop c => getblk s p c
  | .start c => getnewbuf s p c
  | .malloc c => if null then tryfree s p c else malloced s p c
  | .allocbuf c b => allocbuf s p c b
  | .biowait b write => finish s p b write

def step (s : State ν π) : Op ν π → Except Fault (State ν π)
  | .call p c => getblk s p c
  | .resume p null => resume s p null
  | .setFlags _ b f => .ok (s.setFlags b f)
  | .brelse _ b => brelse s b
  | .bwrite p b => bwrite s p b
  | .bdwrite p b => bdwrite s p b
  | .bawrite _ b => bawrite s b
  | .biodone b error => biodone s b error

end Wait

end Functions

/-! ## Runs -/

/-- The process has the buffer and is in no call. -/
def Holds (s : State ν π) (p : π) (b : ℕ) : Prop :=
  b < s.nbuf ∧ s.use b = .held p ∧ s.pc p = .idle

/-- A driver has the buffer. -/
def InFlight (s : State ν π) (b : ℕ) : Prop :=
  b < s.nbuf ∧ (s.use b = .async ∨ ∃ p, s.use b = .sync p ∧ (s.buf b).flags.done = false)

/-- A buffer that is written has a vnode, as `VOP_STRATEGY` is one of the vnode. -/
def Writable (buf : Buf ν) : Prop := buf.vp.isSome ∨ buf.flags.inval

/-- What processes and drivers may do: those who call are in no call, and have the buffers that
they name; those who go on do not sleep. Callers leave `B_BUSY` and `B_WANTED` alone, do not mark a
buffer of no vnode for a delayed write, and do not make the buffer of a block valid again. -/
def Allowed (s : State ν π) : Op ν π → Prop
  | .call p _ => s.pc p = .idle
  | .resume p _ => s.asleep p = none
  | .setFlags p b f => Holds s p b ∧ f.busy = true ∧ f.wanted = (s.buf b).flags.wanted ∧
      (f.delwri = true → (s.buf b).vp.isSome) ∧
        ((s.buf b).flags.inval = true → (s.buf b).vp.isSome → f.inval = true)
  | .brelse p b => Holds s p b
  | .bwrite p b => Holds s p b ∧ Writable (s.buf b)
  | .bdwrite p b => Holds s p b ∧ Writable (s.buf b)
  | .bawrite p b => Holds s p b ∧ Writable (s.buf b)
  | .biodone b _ => InFlight s b

/-- The loop of `bufinit` over the buffer headers. -/
def bufinitLoop : ℕ → Except Fault (Links (Node Queue ℕ) × Links (Node Chain ℕ))
  | 0 => .ok (⟨some, some⟩, ⟨some, some⟩)
  | b + 1 => do
    let r ← bufinitLoop b
    let av ← insertLast r.1 (.item b) (.head .empty)
    let hash ← insque r.2 (.item b) (.head (.list .empty))
    .ok (av, hash)

/-- `bufinit`, with the buffers that there is room for. -/
def bufinit (nbuf : ℕ) (freebufspace : ℤ) (vIndex : ν → ℤ) : Except Fault (State ν π) := do
  let r ← bufinitLoop nbuf
  .ok {
    nbuf := nbuf
    vIndex := vIndex
    av := r.1
    hash := r.2
    buf := fun _ => ⟨{ inval := true }, none, 0, 0, 0, 0, 0⟩
    wanted := false
    freebufspace := freebufspace
    allocbufspace := 0
    pc := fun _ => .idle
    asleep := fun _ => none
    use := fun _ => .free
    released := fun _ => 0 }

/-- The states that steps with `ok` lead to from `s₀`. -/
inductive Run [DecidableEq ν] [DecidableEq π] (ok : State ν π → Op ν π → Prop) (s₀ : State ν π) :
    State ν π → Prop
  | start : Run ok s₀ s₀
  | step {s s' : State ν π} {op : Op ν π} (h : Run ok s₀ s) (ha : Allowed s op) (hok : ok s op)
      (hs : step s op = .ok s') : Run ok s₀ s'

end Bio
