import Mathlib.Data.Int.Notation
import Mathlib.Data.List.Basic
import Mathlib.Logic.Function.Basic

/-!
# Process groups

The process groups and sessions of `kern/kern_proc.c`, with the parts of `fork1`, `exit` and
`wait1` that put a process into its group, take it out of the count for job control, and take it
out of the group. A list of the source is kept as the list of what it links, in its order. An
operation that panics or follows a null pointer is `none`.

## Main definitions

* `State`: the processes, the process groups and the sessions
* `fixjobc`: the adjustment of the counts for job control
* `enterpgrp`, `leavepgrp`, `fork`, `exit`, `reap`: the operations
* `Step`, `Reached`: any sequence of them
-/

namespace ProcGroup

open Function

/-- A process: its number, `p_stat == SZOMB`, its process group, its parent, and its children
from `p_cptr` along the `p_osptr` links. -/
structure Proc where
  pid : ℕ
  zombie : Bool
  pgrp : ℕ
  pptr : Option ℕ
  children : List ℕ
  deriving DecidableEq, Repr

/-- A process group: its number, its session, the count for job control, and the members from
`pg_mem` along the `p_pgrpnxt` links. -/
structure Pgrp where
  id : ℕ
  session : ℕ
  jobc : ℤ
  mem : List ℕ
  deriving DecidableEq, Repr

/-- A session: its leader, and the count of its process groups. -/
structure Session where
  leader : Option ℕ
  count : ℤ
  deriving DecidableEq, Repr

/-- What is allocated, by address. `pgrphash` holds the groups of all hash chains, and `orphaned`
the groups that `orphanpg` was called for, the last first. -/
structure State where
  proc : ℕ → Option Proc
  pgrp : ℕ → Option Pgrp
  session : ℕ → Option Session
  pgrphash : List ℕ
  orphaned : List ℕ

namespace State

variable (s : State)

/-- Store a process. -/
def setProc (p : ℕ) (v : Proc) : State := { s with proc := update s.proc p (some v) }

/-- Store a process group. -/
def setPgrp (g : ℕ) (v : Pgrp) : State := { s with pgrp := update s.pgrp g (some v) }

/-- Store a session. -/
def setSession (k : ℕ) (v : Session) : State := { s with session := update s.session k (some v) }

end State

variable (s : State)

/-- `pgfind`. -/
def pgfind (pgid : ℕ) : Option ℕ := s.pgrphash.find? fun g => (s.pgrp g).any (·.id = pgid)

/-- `orphanpg`, as far as it was called: it sends signals to the members of the group. -/
def orphanpg (g : ℕ) : State := { s with orphaned := g :: s.orphaned }

/-- `pg_jobc++`, or `if (--pg_jobc == 0) orphanpg`. -/
def adjust (g : ℕ) (entering : Bool) : Option State := do
  let r ← s.pgrp g
  if entering then
    some (s.setPgrp g { r with jobc := r.jobc + 1 })
  else if r.jobc - 1 = 0 then
    some (orphanpg (s.setPgrp g { r with jobc := r.jobc - 1 }) g)
  else
    some (s.setPgrp g { r with jobc := r.jobc - 1 })

/-- The loop of `fixjobc` over the children. -/
def fixChildren (pgrp mysession : ℕ) (entering : Bool) : List ℕ → State → Option State
  | [], s => some s
  | c :: cs, s => do
    let p ← s.proc c
    let hispgrp ← s.pgrp p.pgrp
    if p.pgrp ≠ pgrp ∧ hispgrp.session = mysession ∧ p.zombie = false then
      (adjust s p.pgrp entering).bind (fixChildren pgrp mysession entering cs)
    else
      fixChildren pgrp mysession entering cs s

/-- `fixjobc`. -/
def fixjobc (p pgrp : ℕ) (entering : Bool) : Option State := do
  let g ← s.pgrp pgrp
  let pr ← s.proc p
  let parent ← pr.pptr
  let q ← s.proc parent
  let hispgrp ← s.pgrp q.pgrp
  if q.pgrp ≠ pgrp ∧ hispgrp.session = g.session then
    (adjust s pgrp entering).bind (fixChildren pgrp g.session entering pr.children)
  else
    fixChildren pgrp g.session entering pr.children s

/-- `pgdelete`. -/
def pgdelete (g : ℕ) : Option State := do
  let r ← s.pgrp g
  let k ← s.session r.session
  if g ∈ s.pgrphash then
    some { s with
      pgrphash := s.pgrphash.erase g
      session := update s.session r.session
        (if k.count - 1 = 0 then none else some { k with count := k.count - 1 })
      pgrp := update s.pgrp g none }
  else
    none

/-- Unlink a process from its process group, and delete the group if it is empty. -/
def unlink (p : ℕ) : Option State := do
  let pr ← s.proc p
  let r ← s.pgrp pr.pgrp
  if p ∈ r.mem then
    let s := s.setPgrp pr.pgrp { r with mem := r.mem.erase p }
    if r.mem.erase p = [] then pgdelete s pr.pgrp else some s
  else
    none

/-- The part of `enterpgrp` from the adjustment of the counts on. -/
def regroup (p pgrp : ℕ) : Option State := do
  let s ← fixjobc s p pgrp true
  let pr ← s.proc p
  let s ← fixjobc s p pr.pgrp false
  let s ← unlink s p
  let r ← s.pgrp pgrp
  some ((s.setProc p { pr with pgrp := pgrp }).setPgrp pgrp { r with mem := p :: r.mem })

/-- `enterpgrp`, with the checks under `DIAGNOSTIC`. `curproc` is the current process; `newpgrp`
and `newsess` are where the new group and the new session are allocated. -/
def enterpgrp (curproc newpgrp newsess p pgid : ℕ) (mksess : Bool) : Option State := do
  let pr ← s.proc p
  let old ← s.pgrp pr.pgrp
  let sess ← s.session old.session
  if sess.leader = some p then
    none
  else
    match pgfind s pgid with
    | some pgrp =>
      if mksess then none
      else if pgrp = pr.pgrp then some s
      else regroup s p pgrp
    | none =>
      if pr.pid ≠ pgid then
        none
      else if mksess then
        if p ≠ curproc then
          none
        else
          let s := s.setSession newsess ⟨some p, 1⟩
          let s := s.setPgrp newpgrp ⟨pgid, newsess, 0, []⟩
          regroup { s with pgrphash := newpgrp :: s.pgrphash } p newpgrp
      else
        let s := s.setSession old.session { sess with count := sess.count + 1 }
        let s := s.setPgrp newpgrp ⟨pgid, old.session, 0, []⟩
        regroup { s with pgrphash := newpgrp :: s.pgrphash } p newpgrp

/-- Link `p₂` in behind `p₁`. -/
def linkBehind (p₁ p₂ : ℕ) : List ℕ → List ℕ
  | [] => []
  | c :: cs => if c = p₁ then c :: p₂ :: cs else c :: linkBehind p₁ p₂ cs

/-- The part of `fork1` that links the new process `p₂` behind its parent in the process group and
among the children of its parent. -/
def fork (p₁ p₂ pid : ℕ) : Option State := do
  let pr ← s.proc p₁
  let r ← s.pgrp pr.pgrp
  let s := s.setProc p₁ { pr with children := p₂ :: pr.children }
  let s := s.setProc p₂ ⟨pid, false, pr.pgrp, some p₁, []⟩
  some (s.setPgrp pr.pgrp { r with mem := linkBehind p₁ p₂ r.mem })

/-- The loop of `exit` that hands the children to init. -/
def handOver (initproc : ℕ) : List ℕ → State → Option State
  | [], s => some s
  | c :: cs, s => do
    let i ← s.proc initproc
    let s := s.setProc initproc { i with children := c :: i.children }
    let q ← s.proc c
    handOver initproc cs (s.setProc c { q with pptr := some initproc })

/-- The part of `exit` that concerns the family and the group of the process. -/
def exit (initproc p : ℕ) : Option State := do
  let pr ← s.proc p
  let r ← s.pgrp pr.pgrp
  let sess ← s.session r.session
  if pr.pid = 1 then
    none
  else
    let s := if sess.leader = some p then s.setSession r.session { sess with leader := none } else s
    let s ← fixjobc s p pr.pgrp false
    let s ← handOver initproc pr.children (s.setProc p { pr with zombie := true })
    some (s.setProc p { pr with zombie := true, children := [] })

/-- `leavepgrp`, and then the end of the zombie in `wait1`. -/
def reap (p : ℕ) : Option State := do
  let pr ← s.proc p
  let s ← unlink s p
  let parent ← pr.pptr
  let q ← s.proc parent
  let s := s.setProc parent { q with children := q.children.erase p }
  some { s with proc := update s.proc p none }

/-- The operations. -/
inductive Act where
  | fork
  | enterpgrp
  | exit (p : ℕ)
  | reap
  deriving DecidableEq, Repr

/-- One operation. `enterpgrp` is for a process that `pfind` finds, or the current one; `wait1`
reaps a zombie. New processes, groups and sessions are allocated where nothing is. -/
inductive Step (initproc : ℕ) (s : State) : Act → State → Prop where
  | fork (p₁ p₂ pid : ℕ) (s' : State) (hlive : ∃ pr, s.proc p₁ = some pr ∧ pr.zombie = false)
      (hfresh : s.proc p₂ = none) (hrun : fork s p₁ p₂ pid = some s') : Step initproc s .fork s'
  | enterpgrp (curproc newpgrp newsess p pgid : ℕ) (mksess : Bool) (s' : State)
      (hlive : ∃ pr, s.proc p = some pr ∧ pr.zombie = false)
      (hpgrp : s.pgrp newpgrp = none) (hsess : s.session newsess = none)
      (hrun : enterpgrp s curproc newpgrp newsess p pgid mksess = some s') :
      Step initproc s .enterpgrp s'
  | exit (p : ℕ) (s' : State) (hlive : ∃ pr, s.proc p = some pr ∧ pr.zombie = false)
      (hrun : exit s initproc p = some s') : Step initproc s (.exit p) s'
  | reap (p : ℕ) (s' : State) (hzombie : ∃ pr, s.proc p = some pr ∧ pr.zombie = true)
      (hrun : reap s p = some s') : Step initproc s .reap s'

/-- The states of runs from `s₀` whose operations satisfy `P`. -/
inductive Reached (initproc : ℕ) (P : State → Act → Prop) (s₀ : State) : State → Prop where
  | start : Reached initproc P s₀ s₀
  | step {s s' : State} {act : Act} (h : Reached initproc P s₀ s) (hstep : Step initproc s act s')
      (hP : P s act) : Reached initproc P s₀ s'

end ProcGroup
