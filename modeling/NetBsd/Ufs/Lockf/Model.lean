import Mathlib.Algebra.Order.Ring.Int
import NetBsd.Lib.Fault
import NetBsd.Lib.LinkedList

/-!
# Byte-range locks

The advisory locks of an inode (`ufs_lockf.c`): a list of `lockf` structures per inode, a chain
of blocked requests per lock, and the processes that sleep on their requests. The structures
are kept field by field: what is set once, `lf_next` with the heads `i_lockf`, and `lf_block`.

## Main definitions

* `Lock`, `State`: the fields of `struct lockf`; the structures in use and the processes
* `classify`, `lfFindoverlap`, `lfGetblock`: the six overlap cases and the scans for them
* `lfAddblock`, `lfWakelock`, `lfSplit`, `lfSplit3`: the edits of chains and lists
* `lfSetlock`, `lfClearlock`: setting and removing a lock, up to the allocation that may sleep
* `setlockSplit`, `clearlockSplit`: the same from that allocation on
-/

namespace Lockf

open LinkedList (Ref Links)

abbrev Addr := Nat

/-- An inode. -/
abbrev Ino := Nat

abbrev Pid := Nat

inductive LkType where
  | rdlck
  | wrlck
  | unlck
  deriving DecidableEq, Repr

/-- `lf_id`: the process for an `F_POSIX` lock, the open file for an `F_FLOCK` lock. -/
inductive Id where
  | proc (p : Pid)
  | file (f : Nat)
  deriving DecidableEq, Repr

/-- `struct lockf`, less `lf_next` and `lf_block`; `lf_flags` bit by bit. -/
structure Lock where
  posix : Bool
  flock : Bool
  wait : Bool
  lfType : LkType
  lfStart : Int
  lfEnd : Int
  lfId : Id
  lfInode : Ino
  deriving DecidableEq, Repr

/-- What a process is doing: nothing here, sleeping in `tsleep` on its request, made runnable
by `wakeup` or by a signal but not yet run, or sleeping in the allocation of `lf_split`, called
from `lf_setlock` (`set`) or from `lf_clearlock`. -/
inductive Status where
  | idle
  | asleep (a : Addr)
  | ready (a : Addr)
  | signalled (a : Addr)
  | split (set : Bool) (lock1 lock2 : Addr)
  deriving DecidableEq, Repr

/-- The structures in use with their fields, and the processes. -/
@[ext] structure State where
  lk : Addr → Option Lock
  links : Links Ino Addr
  block : Addr → Option Addr
  proc : Pid → Status

/-- The value of an `off_t`, a 32-bit integer. -/
def wrap (x : Int) : Int := x.bmod (2 ^ 32)

namespace State

def deref (s : State) (a : Addr) : Except Fault Lock :=
  match s.lk a with
  | some x => .ok x
  | none => .error .deref

/-- Write the fields of a structure, or allocate it. -/
def setLk (s : State) (a : Addr) (x : Lock) : State :=
  { s with lk := Function.update s.lk a (some x) }

def free (s : State) (a : Addr) : State := { s with lk := Function.update s.lk a none }

/-- `*prev = p`. -/
def setLink (s : State) (prev : Ref Ino Addr) (p : Option Addr) : State :=
  { s with links := s.links.set prev p }

def setBlock (s : State) (a : Addr) (p : Option Addr) : State :=
  { s with block := Function.update s.block a p }

def setProc (s : State) (p : Pid) (st : Status) : State :=
  { s with proc := Function.update s.proc p st }

/-- Make the processes that sleep on `a` runnable. -/
def wakeup (s : State) (a : Addr) : State :=
  { s with proc := fun p => if s.proc p = .asleep a then .ready a else s.proc p }

end State

/-! ## Overlaps -/

inductive OvCase where
  | equal
  | contains
  | within
  | startsBefore
  | endsAfter
  deriving DecidableEq, Repr

/-- Case 0 of `lf_findoverlap`. -/
def Apart (lf lock : Lock) : Prop :=
  (lf.lfEnd ≠ -1 ∧ lock.lfStart > lf.lfEnd) ∨ (lock.lfEnd ≠ -1 ∧ lf.lfStart > lock.lfEnd)

instance (lf lock : Lock) : Decidable (Apart lf lock) := inferInstanceAs (Decidable (_ ∨ _))

/-- Cases 1 to 5 of `lf_findoverlap`, for a lock `lf` that is not apart from `lock`. -/
def classify (lf lock : Lock) : Except Fault OvCase :=
  if lf.lfStart = lock.lfStart ∧ lf.lfEnd = lock.lfEnd then .ok .equal
  else if lf.lfStart ≤ lock.lfStart ∧ lock.lfEnd ≠ -1 ∧
      (lf.lfEnd ≥ lock.lfEnd ∨ lf.lfEnd = -1) then .ok .contains
  else if lock.lfStart ≤ lf.lfStart ∧
      (lock.lfEnd = -1 ∨ (lf.lfEnd ≠ -1 ∧ lock.lfEnd ≥ lf.lfEnd)) then .ok .within
  else if lf.lfStart < lock.lfStart ∧
      (lf.lfEnd ≥ lock.lfStart ∨ lf.lfEnd = -1) then .ok .startsBefore
  else if lf.lfStart > lock.lfStart ∧ lock.lfEnd ≠ -1 ∧
      (lf.lfEnd > lock.lfEnd ∨ lf.lfEnd = -1) then .ok .endsAfter
  else .error .panic

/-- Whose locks a scan looks at: `SELF` or `OTHERS`. -/
inductive Whose where
  | self
  | others
  deriving DecidableEq, Repr

/-- What `lf_findoverlap` comes to: 0 with `*overlap`, or a case with its lock; and `*prev`. -/
inductive Found where
  | clear (prev : Ref Ino Addr) (overlap : Option Addr)
  | overlap (c : OvCase) (prev : Ref Ino Addr) (overlap : Addr)
  deriving DecidableEq

def skipped (type : Whose) (lf lock : Lock) : Prop :=
  match type with
  | .self => lf.lfId ≠ lock.lfId
  | .others => lf.lfId = lock.lfId

instance (type : Whose) (lf lock : Lock) : Decidable (skipped type lf lock) :=
  match type with
  | .self => inferInstanceAs (Decidable (lf.lfId ≠ lock.lfId))
  | .others => inferInstanceAs (Decidable (lf.lfId = lock.lfId))

def lfFindoverlap (s : State) (lock : Lock) (type : Whose) :
    Nat → Option Addr → Ref Ino Addr → Except Fault Found
  | _, none, prev => .ok (.clear prev none)
  | 0, some _, _ => .error .loop
  | n + 1, some a, prev => do
    let lf ← s.deref a
    if skipped type lf lock then
      lfFindoverlap s lock type n (s.links.next a) (.next a)
    else if Apart lf lock then
      if type = .self ∧ lock.lfEnd ≠ -1 ∧ lf.lfStart > lock.lfEnd then
        return .clear prev (some a)
      lfFindoverlap s lock type n (s.links.next a) (.next a)
    else
      return .overlap (← classify lf lock) prev a

/-- The loop of `lf_getblock`; `m` bounds its turns, `n` those of each scan. -/
def getblockFrom (s : State) (n : Nat) (lock : Lock) :
    Nat → Option Addr → Ref Ino Addr → Except Fault (Option Addr)
  | 0, _, _ => .error .loop
  | m + 1, lf, prev => do
    match ← lfFindoverlap s lock .others n lf prev with
    | .clear _ _ => return none
    | .overlap _ prev overlap =>
      let o ← s.deref overlap
      if lock.lfType = .wrlck ∨ o.lfType = .wrlck then
        return some overlap
      getblockFrom s n lock m (s.links.next overlap) prev

def lfGetblock (s : State) (n : Nat) (lock : Lock) : Except Fault (Option Addr) :=
  getblockFrom s n lock (n + 1) (s.links.head lock.lfInode) (.head lock.lfInode)

/-! ## Chains of blocked requests -/

/-- Follow `lf_block` from `lock` to its end and hang `blocked` there. -/
def addblockFrom (s : State) (blocked : Addr) : Nat → Addr → Except Fault State
  | 0, _ => .error .loop
  | n + 1, lf => do
    let _ ← s.deref lf
    match s.block lf with
    | none => return s.setBlock lf (some blocked)
    | some next => addblockFrom s blocked n next

def lfAddblock (s : State) (n : Nat) (lock : Addr) (blocked : Option Addr) :
    Except Fault State :=
  match blocked with
  | none => .ok s
  | some b => addblockFrom s b n lock

def wakeFrom (s : State) : Nat → Option Addr → Except Fault State
  | _, none => .ok s
  | 0, some _ => .error .loop
  | n + 1, some wakelock => do
    let _ ← s.deref wakelock
    let s' := (s.setBlock wakelock none).setLink (.next wakelock) none
    wakeFrom (s'.wakeup wakelock) n (s.block wakelock)

def lfWakelock (s : State) (n : Nat) (listhead : Addr) : Except Fault State :=
  wakeFrom (s.setBlock listhead none) n (s.block listhead)

/-! ## Setting and removing locks -/

/-- What a call of `lf_setlock` or `lf_clearlock` comes to: it returns 0 or an error, sleeps on
its request, or is at the allocation of `lf_split`. -/
inductive Outcome where
  | done
  | eagain
  | edeadlk
  | asleep
  | split (lock1 lock2 : Addr)
  deriving DecidableEq, Repr

/-- `lf_split` up to its allocation, which it reaches when three locks are needed. -/
def lfSplit (s : State) (lock1 lock2 : Addr) : Except Fault (Option State) := do
  let l1 ← s.deref lock1
  let l2 ← s.deref lock2
  if l1.lfStart = l2.lfStart then
    let s := s.setLk lock1 { l1 with lfStart := wrap (l2.lfEnd + 1) }
    return some (s.setLink (.next lock2) (some lock1))
  if l1.lfEnd = l2.lfEnd then
    let s := s.setLk lock1 { l1 with lfEnd := l2.lfStart - 1 }
    let s := s.setLink (.next lock2) (s.links.next lock1)
    return some (s.setLink (.next lock1) (some lock2))
  return none

/-- `lf_split` from its allocation on, which has returned `splitlock`. -/
def lfSplit3 (s : State) (lock1 lock2 splitlock : Addr) : Except Fault State := do
  let l1 ← s.deref lock1
  let l2 ← s.deref lock2
  let s := s.setLk splitlock { l1 with lfStart := wrap (l2.lfEnd + 1) }
  let s := s.setBlock splitlock none
  let s := s.setLk lock1 { l1 with lfEnd := l2.lfStart - 1 }
  let s := s.setLink (.next splitlock) (s.links.next lock1)
  let s := s.setLink (.next lock2) (some splitlock)
  return s.setLink (.next lock1) (some lock2)

/-- The loop of `lf_setlock` that adds the lock, from `block`. -/
def setFrom (n : Nat) (lock : Addr) :
    Nat → State → Ref Ino Addr → Option Addr → Bool → Except Fault (State × Outcome)
  | 0, _, _, _, _ => .error .loop
  | m + 1, s, prev, block, needtolink => do
    let l ← s.deref lock
    match ← lfFindoverlap s l .self n block prev with
    | .clear prev overlap =>
      if needtolink then
        return ((s.setLink prev (some lock)).setLink (.next lock) overlap, .done)
      return (s, .done)
    | .overlap c prev overlap =>
      let o ← s.deref overlap
      let block := s.links.next overlap
      match c with
      | .equal =>
        let s ← if l.lfType = .rdlck ∧ o.lfType = .wrlck then lfWakelock s n overlap else .ok s
        return ((s.setLk overlap { o with lfType := l.lfType }).free lock, .done)
      | .contains =>
        if o.lfType = l.lfType then
          return (s.free lock, .done)
        if o.lfStart = l.lfStart then
          let s := (s.setLink prev (some lock)).setLink (.next lock) (some overlap)
          let s := s.setLk overlap { o with lfStart := wrap (l.lfEnd + 1) }
          return (← lfWakelock s n overlap, .done)
        match ← lfSplit s overlap lock with
        | some s => return (← lfWakelock s n overlap, .done)
        | none => return (s, .split overlap lock)
      | .within =>
        let s ← if l.lfType = .rdlck ∧ o.lfType = .wrlck then lfWakelock s n overlap
          else lfAddblock (s.setBlock lock (s.block overlap)) n lock (s.block lock)
        if needtolink then
          let s := (s.setLink prev (some lock)).setLink (.next lock) (s.links.next overlap)
          setFrom n lock m (s.free overlap) (.next lock) block false
        else
          setFrom n lock m ((s.setLink prev (s.links.next overlap)).free overlap) prev block
            false
      | .startsBefore =>
        let s := (s.setLink (.next lock) block).setLink (.next overlap) (some lock)
        let s := s.setLk overlap { o with lfEnd := l.lfStart - 1 }
        let s ← lfWakelock s n overlap
        setFrom n lock m s (.next lock) block false
      | .endsAfter =>
        let s := if needtolink then
            (s.setLink prev (some lock)).setLink (.next lock) (some overlap)
          else s
        let s := s.setLk overlap { o with lfStart := wrap (l.lfEnd + 1) }
        return (← lfWakelock s n overlap, .done)

/-- The loop of `lf_clearlock`, from `lf`. -/
def clearFrom (n : Nat) (unlock : Addr) :
    Nat → State → Ref Ino Addr → Option Addr → Except Fault (State × Outcome)
  | 0, _, _, _ => .error .loop
  | m + 1, s, prev, lf => do
    let u ← s.deref unlock
    match ← lfFindoverlap s u .self n lf prev with
    | .clear _ _ => return (s, .done)
    | .overlap c prev overlap =>
      let s ← lfWakelock s n overlap
      let o ← s.deref overlap
      let next := s.links.next overlap
      match c with
      | .equal => return ((s.setLink prev next).free overlap, .done)
      | .contains =>
        if o.lfStart = u.lfStart then
          return (s.setLk overlap { o with lfStart := wrap (u.lfEnd + 1) }, .done)
        match ← lfSplit s overlap unlock with
        | some s => return (s.setLink (.next overlap) (s.links.next unlock), .done)
        | none => return (s, .split overlap unlock)
      | .within => clearFrom n unlock m ((s.setLink prev next).free overlap) prev next
      | .startsBefore =>
        clearFrom n unlock m (s.setLk overlap { o with lfEnd := u.lfStart - 1 })
          (.next overlap) next
      | .endsAfter =>
        return (s.setLk overlap { o with lfStart := wrap (u.lfEnd + 1) }, .done)

def lfClearlock (s : State) (n : Nat) (unlock : Addr) : Except Fault (State × Outcome) := do
  let u ← s.deref unlock
  match s.links.head u.lfInode with
  | none => return (s, .done)
  | some lf => clearFrom n unlock (n + 1) s (.head u.lfInode) (some lf)

/-- `maxlockdepth`. -/
def maxlockdepth : Nat := 50

/-- The search of `lf_setlock` for a cycle of waiting processes, `i` steps long at most: does
the process `wproc` wait, through others, for the owner of `lock`? -/
def waitsFor (s : State) (lock : Lock) : Nat → Id → Except Fault Bool
  | 0, _ => .ok false
  | _ + 1, .file _ => .error .deref
  | i + 1, .proc wproc =>
    match s.proc wproc with
    | .asleep wchan => do
      let _ ← s.deref wchan
      match s.links.next wchan with
      | none => .error .deref
      | some waitblock =>
        let w ← s.deref waitblock
        if !w.posix then
          return false
        if w.lfId = lock.lfId then
          return true
        waitsFor s lock i w.lfId
    | _ => .ok false

/-- `lf_setlock` from the start of its first loop, where it also comes after each sleep; the
process is `p`. -/
def lfSetlock (s : State) (n : Nat) (p : Pid) (lock : Addr) :
    Except Fault (State × Outcome) := do
  let l ← s.deref lock
  match ← lfGetblock s n l with
  | some block =>
    if !l.wait then
      return (s.free lock, .eagain)
    let b ← s.deref block
    if l.posix && b.posix then
      if ← waitsFor s l maxlockdepth b.lfId then
        return (s.free lock, .edeadlk)
    -- An exclusive lock on the whole file: give up the shared one before sleeping.
    let s ← if l.flock ∧ l.lfType = .wrlck then do
        let (s, _) ← lfClearlock (s.setLk lock { l with lfType := .unlck }) n lock
        pure (s.setLk lock l)
      else .ok s
    let s ← lfAddblock (s.setLink (.next lock) (some block)) n block (some lock)
    return (s.setProc p (.asleep lock), .asleep)
  | none =>
    setFrom n lock (n + 1) s (.head l.lfInode) (s.links.head l.lfInode) true

/-! ## After the allocation -/

/-- The end of `lf_setlock` once the allocation of `lf_split` has returned `splitlock`. -/
def setlockSplit (s : State) (n : Nat) (lock1 lock2 splitlock : Addr) : Except Fault State := do
  lfWakelock (← lfSplit3 s lock1 lock2 splitlock) n lock1

/-- The end of `lf_clearlock` once the allocation of `lf_split` has returned `splitlock`. -/
def clearlockSplit (s : State) (lock1 unlock splitlock : Addr) : Except Fault State := do
  let s ← lfSplit3 s lock1 unlock splitlock
  return s.setLink (.next lock1) (s.links.next unlock)

/-- A call of `lf_setlock` with no other process running in between. -/
def lfSetlockAlone (s : State) (n : Nat) (p : Pid) (lock splitlock : Addr) :
    Except Fault (State × Outcome) := do
  match ← lfSetlock s n p lock with
  | (s, .split lock1 lock2) => return (← setlockSplit s n lock1 lock2 splitlock, .done)
  | q => return q

/-- A call of `lf_clearlock` with no other process running in between. -/
def lfClearlockAlone (s : State) (n : Nat) (unlock splitlock : Addr) :
    Except Fault (State × Outcome) := do
  match ← lfClearlock s n unlock with
  | (s, .split lock1 _) => return (← clearlockSplit s lock1 unlock splitlock, .done)
  | q => return q

end Lockf
