import Mathlib

/-!
# Select

`select`, `selscan` and `selwakeup` of `kern/sys_generic.c`, with the select routine of a
descriptor as `sbselqueue` and `ttselect` have it. A process looks at its descriptors one after
the other; one that is not ready makes a note of the process, and of a collision when the process
it has noted before is asleep in `select`. Then the process goes to sleep, unless something has
happened in the meantime.

A process in the kernel is not preempted: another one goes on only when it sleeps. Descriptors
become ready at any time, at an interrupt.

## Main definitions

* `Select.Kernel`: the processes, the notes of the descriptors and `nselcoll`
* `Select.selrecord`, `Select.selwakeup`, `Select.notify`: the notes, and what an event does
* `Select.advance`: a step of the process that is in `select`
* `Select.Act`, `Select.step`: what can happen
-/

namespace Select

abbrev Pid := ℕ

/-- Where the note of a descriptor lies: an address other than the null pointer. -/
abbrev Addr := {a : Fin (2 ^ 32) // a ≠ 0}

variable {Desc : Type} [DecidableEq Desc]

/-- `sb_sel` and `SB_COLL` of a socket buffer, `t_rsel` and `TS_RCOLL` of a terminal. -/
structure Note where
  pid : Option Pid
  coll : Bool

/-- Where a process is in `select`. In `selscan` it has the words of the descriptor sets still to
be looked at. -/
inductive Stage (Desc : Type) where
  | user
  | flag
  | scan (todo : List (List Desc))
  | check
  | asleep
  | woken
  deriving DecidableEq

/-- A process. `since` counts the collisions there had been when `ncoll` was read, and `found`
has the descriptors that the last scan has found ready. -/
structure Proc (Desc : Type) where
  stage : Stage Desc
  ssel : Bool
  words : List (List Desc)
  timed : Bool
  ncoll : BitVec 32
  since : ℕ
  error : Bool
  n : ℕ
  obits : List Desc
  found : List Desc
  answer : Option (List Desc)

/-- The kernel; `running` is the process in `select` that has the processor, `note` tells where
the note of a descriptor lies, and `collisions` counts what `nselcoll` counts modulo `2^32`. -/
structure Kernel (Desc : Type) where
  procs : Pid → Proc Desc
  notes : Addr → Note
  note : Desc → Addr
  ready : Desc → Bool
  opened : Desc → Bool
  nselcoll : BitVec 32
  collisions : ℕ
  running : Option Pid

namespace Kernel

variable (k : Kernel Desc)

def setProc (x : Pid) (p : Proc Desc) : Kernel Desc :=
  { k with procs := Function.update k.procs x p }

def setNote (r : Addr) (m : Note) : Kernel Desc :=
  { k with notes := Function.update k.notes r m }

end Kernel

/-- `p_wchan` is `&selwait` no more. -/
def Proc.wake (p : Proc Desc) : Proc Desc :=
  if p.stage = .asleep then { p with stage := .woken } else p

/-- A descriptor that is not ready makes a note of process `x`. -/
def selrecord (k : Kernel Desc) (r : Addr) (x : Pid) : Kernel Desc :=
  match (k.notes r).pid with
  | some y =>
    if (k.procs y).stage = .asleep then k.setNote r { k.notes r with coll := true }
    else k.setNote r { k.notes r with pid := some x }
  | none => k.setNote r { k.notes r with pid := some x }

/-- The collision part of `selwakeup`: `wakeup(&selwait)`. -/
def wakeAll (k : Kernel Desc) : Kernel Desc :=
  { k with
    nselcoll := k.nselcoll + 1
    collisions := k.collisions + 1
    procs := fun x => (k.procs x).wake }

/-- `selwakeup(pid, coll)` -/
def selwakeup (k : Kernel Desc) (pid : Pid) (coll : Bool) : Kernel Desc :=
  let k := if coll then wakeAll k else k
  let p := k.procs pid
  if p.stage = .asleep then k.setProc pid p.wake
  else if p.ssel then k.setProc pid { p with ssel := false }
  else k

/-- An event at a note: whoever is noted is told, and the note is cleared. -/
def notify (k : Kernel Desc) (r : Addr) : Kernel Desc :=
  match (k.notes r).pid with
  | some x => (selwakeup k x (k.notes r).coll).setNote r ⟨none, false⟩
  | none => k

/-- `retry:`, up to the reading of `nselcoll` -/
def retry (k : Kernel Desc) (x : Pid) : Kernel Desc :=
  { k.setProc x { k.procs x with
      stage := .flag, ncoll := k.nselcoll, since := k.collisions, n := 0, found := [] } with
    running := some x }

/-- `done:` -/
def finish (k : Kernel Desc) (x : Pid) (error : Bool) : Kernel Desc :=
  let p := k.procs x
  { k.setProc x { p with
      stage := .user, ssel := false, answer := if error then none else some p.obits } with
    running := none }

/-- The select routine of a descriptor, and `selscan` behind it. A descriptor that is not open
ends the scan of its word. -/
def look (k : Kernel Desc) (x : Pid) (d : Desc) (w : List Desc) (ws : List (List Desc)) :
    Kernel Desc :=
  let p := k.procs x
  if k.opened d = false then k.setProc x { p with stage := .scan ws, error := true }
  else if k.ready d then
    k.setProc x { p with
      stage := .scan (w :: ws), n := p.n + 1
      obits := p.obits ++ [d], found := p.found ++ [d] }
  else (selrecord k (k.note d) x).setProc x { p with stage := .scan (w :: ws) }

/-- The end of a scan: what has been found, a limit of time that has run out, something that has
happened during the scan, or sleep. -/
def checkUp (k : Kernel Desc) (x : Pid) (expired : Bool) : Kernel Desc :=
  let p := k.procs x
  if p.error = true ∨ p.n ≠ 0 then finish k x p.error
  else if p.timed = true ∧ expired = true then finish k x false
  else if p.ssel = false ∨ k.nselcoll ≠ p.ncoll then retry k x
  else { k.setProc x { p with stage := .asleep, ssel := false } with running := none }

/-- A step of the running process. -/
def advance (k : Kernel Desc) (x : Pid) (expired : Bool) : Kernel Desc :=
  let p := k.procs x
  match p.stage with
  | .flag => k.setProc x { p with stage := .scan p.words, ssel := true }
  | .scan [] => k.setProc x { p with stage := .check }
  | .scan ([] :: ws) => k.setProc x { p with stage := .scan ws }
  | .scan ((d :: w) :: ws) => look k x d w ws
  | .check => checkUp k x expired
  | _ => k

/-- What can happen: a process calls `select`, the running one goes on, one that has been woken
gets the processor, the sleep of one is cut short by a signal or a limit of time, and descriptors
become ready, which is an event, or not ready. -/
inductive Act (Desc : Type) where
  | call (x : Pid) (words : List (List Desc)) (timed : Bool)
  | run (expired : Bool)
  | resume (x : Pid)
  | interrupt (x : Pid) (signal : Bool)
  | event (d : Desc)
  | quiet (d : Desc)

/-- A step, if it can happen. -/
def step (k : Kernel Desc) : Act Desc → Option (Kernel Desc)
  | .call x words timed =>
    if k.running = none ∧ (k.procs x).stage = .user then
      some (retry (k.setProc x { k.procs x with
        words := words, timed := timed, error := false, obits := [] }) x)
    else none
  | .run expired =>
    match k.running with
    | some x => some (advance k x expired)
    | none => none
  | .resume x =>
    if k.running = none ∧ (k.procs x).stage = .woken then some (retry k x) else none
  | .interrupt x signal =>
    if k.running = none ∧ (k.procs x).stage = .asleep ∧
        (signal = true ∨ (k.procs x).timed = true) then
      some (finish k x signal)
    else none
  | .event d => some (notify { k with ready := Function.update k.ready d true } (k.note d))
  | .quiet d => some { k with ready := Function.update k.ready d false }

/-- A kernel in which nobody is in `select` and nothing is noted. -/
structure Kernel.Start (k : Kernel Desc) : Prop where
  user : ∀ x, (k.procs x).stage = .user ∧ (k.procs x).answer = none
  notes : ∀ r, k.notes r = ⟨none, false⟩
  nselcoll : k.nselcoll = BitVec.ofNat 32 k.collisions
  running : k.running = none

inductive Reached : Kernel Desc → Prop where
  | start {k : Kernel Desc} (h : k.Start) : Reached k
  | step {k k' : Kernel Desc} {a : Act Desc} (h : Reached k) (hs : step k a = some k') : Reached k'

end Select
