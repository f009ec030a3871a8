import Mathlib.Data.BitVec
import NetBsd.Lib.Tally

/-!
# Read/write locks

The sleep locks of `vm/kern_lock.c`. Every routine runs under the interlock, and gives it up only
to spin or to sleep in one of its loops; a call is thus cut into turns, each from taking the
interlock to giving it up.

## Main definitions

* `Lock`, `Loop`: the lock, and the loops in which a call can wait
* `Op.run`, `resume`: the turn that starts a call, and the turn that goes on with a waiting one
* `Hold`: the holds a thread has by the calls that returned to it
* `State`, `Step`, `Reached`: the threads on one lock, in any order of their turns
-/

namespace KernLock

/-- The lock: `thread` is the thread that may recur, `none` for the `(char *)-1` of a lock where
none may. `can_sleep` is set. -/
structure Lock (T : Type) where
  wantWrite : Bool
  wantUpgrade : Bool
  waiting : Bool
  readCount : BitVec 32
  thread : Option T
  recursionDepth : BitVec 32
  deriving DecidableEq, Repr

variable {T : Type} [DecidableEq T]

/-- `lock_init`. -/
def lockInit : Lock T where
  wantWrite := false
  wantUpgrade := false
  waiting := false
  readCount := 0
  thread := none
  recursionDepth := 0

/-- The `while` loops: the two of `lock_write`, and those of `lock_read`, `lock_read_to_write` and
`lock_try_read_to_write`. -/
inductive Loop where
  | writeBit
  | readers
  | reading
  | upgrade
  | tryUpgrade
  deriving DecidableEq, Repr

/-- What the loop waits for to become false. -/
def Loop.cond (l : Lock T) : Loop → Bool
  | .writeBit => l.wantWrite
  | .readers => l.readCount != 0 || l.wantUpgrade
  | .reading => l.wantWrite || l.wantUpgrade
  | .upgrade => l.readCount != 0
  | .tryUpgrade => l.readCount != 0

/-- Where a waiting thread is: between `simple_unlock` and `simple_lock`, in `thread_sleep`, or
woken from it and about to take the interlock. -/
inductive Wait where
  | spinning
  | asleep
  | woken
  deriving DecidableEq, Repr

/-- How a turn ends: the call returned, with its value if it has one, or it waits in a loop. -/
inductive Outcome where
  | returned (value : Option Bool)
  | waits (loop : Loop) (wait : Wait)
  deriving DecidableEq, Repr

/-- A turn: the lock it leaves, whether it called `thread_wakeup`, and how it ended. -/
structure Turn (T : Type) where
  lock : Lock T
  wakeup : Bool
  outcome : Outcome
  deriving DecidableEq, Repr

section Routines

-- `lock_wait_time` is positive.
variable (spins : Bool) (l : Lock T) (t : T)

/-- Go to sleep in the loop. -/
def sleep (loop : Loop) : Turn T := ⟨{ l with waiting := true }, false, .waits loop .asleep⟩

/-- The body of a loop, up to where it gives up the interlock. -/
def block (loop : Loop) : Turn T :=
  if spins then ⟨l, false, .waits loop .spinning⟩ else sleep l loop

/-- The part of `lock_write` that waits for readers and upgrades to finish. -/
def waitReaders : Turn T :=
  if Loop.readers.cond l then block spins l .readers else ⟨l, false, .returned none⟩

/-- The part of `lock_write` that tries to acquire the want_write bit. -/
def waitWriteBit : Turn T :=
  if Loop.writeBit.cond l then block spins l .writeBit
  else waitReaders spins { l with wantWrite := true }

/-- `lock_write`. -/
def lockWrite : Turn T :=
  if l.thread = some t then
    ⟨{ l with recursionDepth := l.recursionDepth + 1 }, false, .returned none⟩
  else waitWriteBit spins l

/-- `if (l->waiting) { l->waiting = FALSE; thread_wakeup((int) l); }`. -/
def wakeWaiting (value : Option Bool) : Turn T :=
  ⟨{ l with waiting := false }, l.waiting, .returned value⟩

/-- The release of a hold for write. -/
def releaseWrite : Lock T :=
  if l.recursionDepth ≠ 0 then { l with recursionDepth := l.recursionDepth - 1 }
  else if l.wantUpgrade then { l with wantUpgrade := false }
  else { l with wantWrite := false }

/-- `lock_done`. -/
def lockDone : Turn T :=
  if l.readCount ≠ 0 then wakeWaiting { l with readCount := l.readCount - 1 } none
  else wakeWaiting (releaseWrite l) none

/-- The part of `lock_read` after the test for the recursive owner. -/
def waitReading : Turn T :=
  if Loop.reading.cond l then block spins l .reading
  else ⟨{ l with readCount := l.readCount + 1 }, false, .returned none⟩

/-- `lock_read`. -/
def lockRead : Turn T :=
  if l.thread = some t then
    ⟨{ l with readCount := l.readCount + 1 }, false, .returned none⟩
  else waitReading spins l

/-- The loop of `lock_read_to_write`. -/
def waitUpgrade : Turn T :=
  if Loop.upgrade.cond l then block spins l .upgrade else ⟨l, false, .returned (some false)⟩

/-- `lock_read_to_write`, which returns TRUE if the upgrade failed. -/
def lockReadToWrite : Turn T :=
  let l := { l with readCount := l.readCount - 1 }
  if l.thread = some t then
    ⟨{ l with recursionDepth := l.recursionDepth + 1 }, false, .returned (some false)⟩
  else if l.wantUpgrade then wakeWaiting l (some true)
  else waitUpgrade spins { l with wantUpgrade := true }

/-- `lock_write_to_read`. -/
def lockWriteToRead : Turn T :=
  wakeWaiting (releaseWrite { l with readCount := l.readCount + 1 }) none

/-- `lock_try_write`. -/
def lockTryWrite : Turn T :=
  if l.thread = some t then
    ⟨{ l with recursionDepth := l.recursionDepth + 1 }, false, .returned (some true)⟩
  else if l.wantWrite || l.wantUpgrade || l.readCount != 0 then
    ⟨l, false, .returned (some false)⟩
  else ⟨{ l with wantWrite := true }, false, .returned (some true)⟩

/-- `lock_try_read`. -/
def lockTryRead : Turn T :=
  if l.thread = some t then
    ⟨{ l with readCount := l.readCount + 1 }, false, .returned (some true)⟩
  else if l.wantWrite || l.wantUpgrade then ⟨l, false, .returned (some false)⟩
  else ⟨{ l with readCount := l.readCount + 1 }, false, .returned (some true)⟩

/-- The loop of `lock_try_read_to_write`, which sleeps without spinning. -/
def waitTryUpgrade : Turn T :=
  if Loop.tryUpgrade.cond l then sleep l .tryUpgrade else ⟨l, false, .returned (some true)⟩

/-- `lock_try_read_to_write`, which returns FALSE if the upgrade failed. -/
def lockTryReadToWrite : Turn T :=
  if l.thread = some t then
    ⟨{ l with readCount := l.readCount - 1, recursionDepth := l.recursionDepth + 1 }, false,
      .returned (some true)⟩
  else if l.wantUpgrade then ⟨l, false, .returned (some false)⟩
  else waitTryUpgrade { l with wantUpgrade := true, readCount := l.readCount - 1 }

/-- `lock_set_recursive`; `none` is the panic. -/
def lockSetRecursive : Option (Turn T) :=
  if l.wantWrite then some ⟨{ l with thread := some t }, false, .returned none⟩ else none

/-- `lock_clear_recursive`; `none` is the panic. -/
def lockClearRecursive : Option (Turn T) :=
  if l.thread ≠ some t then none
  else if l.recursionDepth = 0 then some ⟨{ l with thread := none }, false, .returned none⟩
  else some ⟨l, false, .returned none⟩

/-- The test of the loop, and what follows it. -/
def retest : Loop → Turn T
  | .writeBit => waitWriteBit spins l
  | .readers => waitReaders spins l
  | .reading => waitReading spins l
  | .upgrade => waitUpgrade spins l
  | .tryUpgrade => waitTryUpgrade l

/-- The turn of a thread that was waiting: after the spin it sleeps if the condition still holds,
after the sleep it goes back to the test of the loop. -/
def resume (loop : Loop) (wait : Wait) : Turn T :=
  if wait = .spinning ∧ loop.cond l then sleep l loop else retest spins l loop

end Routines

/-- The routines. -/
inductive Op where
  | write
  | done
  | read
  | readToWrite
  | writeToRead
  | tryWrite
  | tryRead
  | tryReadToWrite
  | setRecursive
  | clearRecursive
  deriving DecidableEq, Repr

/-- The first turn of a call. -/
def Op.run (spins : Bool) (l : Lock T) (t : T) : Op → Option (Turn T)
  | .write => some (lockWrite spins l t)
  | .done => some (lockDone l)
  | .read => some (lockRead spins l t)
  | .readToWrite => some (lockReadToWrite spins l t)
  | .writeToRead => some (lockWriteToRead l)
  | .tryWrite => some (lockTryWrite l t)
  | .tryRead => some (lockTryRead l t)
  | .tryReadToWrite => some (lockTryReadToWrite l t)
  | .setRecursive => lockSetRecursive l t
  | .clearRecursive => lockClearRecursive l t

/-- How often a thread holds the lock for read and for write, by what its calls returned. -/
structure Hold where
  reads : ℕ
  writes : ℕ
  deriving DecidableEq, Repr

namespace Hold

/-- No hold. -/
def none : Hold := ⟨0, 0⟩

/-- One more hold for read. -/
def read (h : Hold) : Hold := { h with reads := h.reads + 1 }

/-- One more hold for write. -/
def write (h : Hold) : Hold := { h with writes := h.writes + 1 }

/-- One hold for read less. -/
def dropRead (h : Hold) : Hold := { h with reads := h.reads - 1 }

/-- One hold for write less. -/
def dropWrite (h : Hold) : Hold := { h with writes := h.writes - 1 }

end Hold

/-- What a thread must hold to make the call. -/
def Op.May (h : Hold) : Op → Prop
  | .done => h ≠ .none
  | .readToWrite => 0 < h.reads
  | .tryReadToWrite => 0 < h.reads
  | .writeToRead => 0 < h.writes
  | _ => True

instance (h : Hold) : (op : Op) → Decidable (op.May h)
  | .done => inferInstanceAs (Decidable (h ≠ .none))
  | .readToWrite | .tryReadToWrite => inferInstanceAs (Decidable (0 < h.reads))
  | .writeToRead => inferInstanceAs (Decidable (0 < h.writes))
  | .write | .read | .tryWrite | .tryRead | .setRecursive | .clearRecursive => .isTrue trivial

/-- The holds of a thread after the first turn of its call. A waiting upgrade has given up its
hold for read already. `lock_done` of a thread that holds the lock both ways ends a hold for
read. -/
def Op.hold (h : Hold) : Op → Outcome → Hold
  | .write, .returned _ => h.write
  | .read, .returned _ => h.read
  | .done, _ => if 0 < h.reads then h.dropRead else h.dropWrite
  | .readToWrite, .returned (some false) => h.dropRead.write
  | .readToWrite, _ => h.dropRead
  | .writeToRead, _ => h.dropWrite.read
  | .tryWrite, .returned (some true) => h.write
  | .tryRead, .returned (some true) => h.read
  | .tryReadToWrite, .returned (some true) => h.dropRead.write
  | .tryReadToWrite, .waits _ _ => h.dropRead
  | _, _ => h

/-- The holds of a thread after a turn in a loop. -/
def Loop.hold (h : Hold) : Loop → Outcome → Hold
  | _, .waits _ _ => h
  | .reading, .returned _ => h.read
  | _, .returned _ => h.write

/-- Where a thread is: in no call, or waiting in one. -/
inductive Pc where
  | out
  | blocked (loop : Loop) (wait : Wait)
  deriving DecidableEq, Repr

/-- `thread_wakeup` for one thread. -/
def Pc.wake : Pc → Pc
  | .blocked loop .asleep => .blocked loop .woken
  | pc => pc

/-- Where a turn leaves its thread. -/
def Outcome.pc : Outcome → Pc
  | .returned _ => .out
  | .waits loop wait => .blocked loop wait

/-- The lock, and of each thread where it is and what it holds. -/
structure State (T : Type) where
  lock : Lock T
  pc : T → Pc
  hold : T → Hold

/-- No thread has called yet. -/
def State.init : State T := ⟨lockInit, fun _ => .out, fun _ => .none⟩

/-- The state after a turn of `t`. -/
def State.after (s : State T) (t : T) (turn : Turn T) (hold : Hold) : State T where
  lock := turn.lock
  pc u := if u = t then turn.outcome.pc else if turn.wakeup then (s.pc u).wake else s.pc u
  hold u := if u = t then hold else s.hold u

/-- What a thread does when it gets the interlock. -/
inductive Act where
  | call (op : Op)
  | resume (loop : Loop) (wait : Wait)
  deriving DecidableEq, Repr

/-- A turn of the thread `t`. A sleeping thread has none until it is woken. -/
inductive Step (spins : Bool) (s : State T) (t : T) : Act → Outcome → State T → Prop where
  | call (op : Op) (turn : Turn T) (hout : s.pc t = .out) (hmay : op.May (s.hold t))
      (hrun : op.run spins s.lock t = some turn) :
      Step spins s t (.call op) turn.outcome
        (s.after t turn (op.hold (s.hold t) turn.outcome))
  | resume (loop : Loop) (wait : Wait) (hpc : s.pc t = .blocked loop wait)
      (hwait : wait ≠ .asleep) :
      Step spins s t (.resume loop wait) (resume spins s.lock loop wait).outcome
        (s.after t (resume spins s.lock loop wait)
          (loop.hold (s.hold t) (resume spins s.lock loop wait).outcome))

end KernLock
