import NetBsd.Lib.BitSet

/-!
# Signals

Setting, blocking, sending and taking signals, of `kern/kern_sig.c`, for processes that are not
traced. A process is in the middle of `issig` while it is stopped there, and in `tsleep` while it
sleeps, so these are in pieces between their calls of `swtch`.

## Main definitions

* `Proc`: what the routines use of a process
* `setsigvec`, `sigaction`, `osigvec`, `sigprocmask`, `execsigs`: the calls on oneself
* `psignal`: a signal is sent
* `issigLoop`: a process looks for a signal to take
* `Act`, `step`: the calls, and what else happens to processes
-/

namespace Sig

open BitSet

/-! ## Constants -/

def NSIG : ℕ := 32

def SIGKILL : ℕ := 9
def SIGTERM : ℕ := 15
def SIGSTOP : ℕ := 17
def SIGTSTP : ℕ := 18
def SIGCONT : ℕ := 19
def SIGCHLD : ℕ := 20
def SIGTTIN : ℕ := 21
def SIGTTOU : ℕ := 22

abbrev Sigset := BitVec 32

def sigmask (m : ℕ) : Sigset := bit 32 (m - 1)

def SA_KILL : BitVec 8 := 0x01
def SA_CORE : BitVec 8 := 0x02
def SA_STOP : BitVec 8 := 0x04
def SA_TTYSTOP : BitVec 8 := 0x08 ||| SA_STOP
def SA_IGNORE : BitVec 8 := 0x10
def SA_CONT : BitVec 8 := 0x20

/-- `sigprop`, which has `NSIG + 1` entries. -/
def sigprop (sig : ℕ) : BitVec 8 :=
  [0, SA_KILL, SA_KILL, SA_KILL ||| SA_CORE, SA_KILL ||| SA_CORE, SA_KILL ||| SA_CORE,
    SA_KILL ||| SA_CORE, SA_KILL ||| SA_CORE, SA_KILL ||| SA_CORE, SA_KILL, SA_KILL ||| SA_CORE,
    SA_KILL ||| SA_CORE, SA_KILL ||| SA_CORE, SA_KILL, SA_KILL, SA_KILL, SA_IGNORE, SA_STOP,
    SA_TTYSTOP, SA_IGNORE ||| SA_CONT, SA_IGNORE, SA_TTYSTOP, SA_TTYSTOP, SA_IGNORE, SA_KILL,
    SA_KILL, SA_KILL, SA_KILL, SA_IGNORE, SA_IGNORE, SA_KILL, SA_KILL].getD sig 0

def stopsigmask : Sigset :=
  sigmask SIGSTOP ||| sigmask SIGTSTP ||| sigmask SIGTTIN ||| sigmask SIGTTOU

def contsigmask : Sigset := sigmask SIGCONT

def sigcantmask : Sigset := sigmask SIGKILL ||| sigmask SIGSTOP

/-- A `sig_t`, as an address. -/
abbrev Handler := BitVec 32

def SIG_DFL : Handler := 0
def SIG_IGN : Handler := 1

def SA_ONSTACK : BitVec 32 := 0x0001
def SA_RESTART : BitVec 32 := 0x0002
def SA_NOCLDSTOP : BitVec 32 := 0x0004
def SV_ONSTACK : BitVec 32 := SA_ONSTACK
def SV_INTERRUPT : BitVec 32 := SA_RESTART

def SIG_BLOCK : ℤ := 1
def SIG_UNBLOCK : ℤ := 2
def SIG_SETMASK : ℤ := 3

def EINVAL : ℕ := 22

def PUSER : ℕ := 50
def NZERO : ℤ := 0

/-! ## Processes -/

inductive Stat where
  | sidl
  | srun
  | ssleep
  | sstop
  | szomb
  deriving DecidableEq, Repr

/-- Who called `issig`: a trap, or `tsleep`, before it sleeps or after. -/
inductive Caller where
  | trap
  | tsleep
  | resume
  deriving DecidableEq, Repr

/-- Where a process is: there is none yet, it runs, it is in the `swtch` of `issig` with the signal
that stopped it, in that of `tsleep`, in front of `psig`, or in `sigexit`. -/
inductive Pc where
  | none
  | run
  | stopped (sig : ℕ) (caller : Caller)
  | asleep (catch_ : Bool)
  | taking (sig : ℕ)
  | exits (sig : ℕ)
  deriving DecidableEq, Repr

/-- What the routines use of `struct proc`, of its `struct sigacts` and of its process group.
`sintr`, `ppwait` and `nocldstop` are the flags `SSINTR`, `SPPWAIT` and `SNOCLDSTOP`, and `pWchan`
says whether `p_wchan` is set. -/
structure Proc where
  pPid : ℕ
  pPptr : ℕ
  pStat : Stat
  pWchan : Bool
  sintr : Bool
  ppwait : Bool
  nocldstop : Bool
  pSig : Sigset
  pSigmask : Sigset
  pSigignore : Sigset
  pSigcatch : Sigset
  psSigact : ℕ → Handler
  psCatchmask : ℕ → Sigset
  psSigonstack : Sigset
  psSigintr : Sigset
  pNice : ℤ
  pPri : ℕ
  pXstat : ℕ
  pgJobc : ℤ
  pc : Pc

/-- `struct sigaction`; `struct sigvec` has the same fields. -/
structure Sigaction where
  saHandler : Handler
  saMask : Sigset
  saFlags : BitVec 32

/-! ## The calls on oneself -/

def setsigvec (p : Proc) (sig : ℕ) (sa : Sigaction) : Proc :=
  let bit := sigmask sig
  let p :=
    { p with
      psSigact := Function.update p.psSigact sig sa.saHandler
      psCatchmask := Function.update p.psCatchmask sig (sa.saMask &&& ~~~sigcantmask)
      psSigintr := if sa.saFlags &&& SA_RESTART = 0 then p.psSigintr ||| bit
        else p.psSigintr &&& ~~~bit
      psSigonstack := if sa.saFlags &&& SA_ONSTACK ≠ 0 then p.psSigonstack ||| bit
        else p.psSigonstack &&& ~~~bit
      nocldstop := if sig = SIGCHLD then decide (sa.saFlags &&& SA_NOCLDSTOP ≠ 0)
        else p.nocldstop }
  if sa.saHandler = SIG_IGN ∨ sigprop sig &&& SA_IGNORE ≠ 0 ∧ sa.saHandler = SIG_DFL then
    { p with
      pSig := p.pSig &&& ~~~bit
      pSigignore := if sig ≠ SIGCONT then p.pSigignore ||| bit else p.pSigignore
      pSigcatch := p.pSigcatch &&& ~~~bit }
  else
    { p with
      pSigignore := p.pSigignore &&& ~~~bit
      pSigcatch := if sa.saHandler = SIG_DFL then p.pSigcatch &&& ~~~bit
        else p.pSigcatch ||| bit }

/-- What `sigaction` and `osigvec` pass back; the flag for restarts is set in the one where it is
not in the other. -/
def oldact (p : Proc) (sig : ℕ) (restart : Bool) : Sigaction :=
  let bit := sigmask sig
  { saHandler := p.psSigact sig
    saMask := p.psCatchmask sig
    saFlags := (if p.psSigonstack &&& bit ≠ 0 then SA_ONSTACK else 0) |||
      (if restart = decide (p.psSigintr &&& bit = 0) then SA_RESTART else 0) |||
      (if p.nocldstop then SA_NOCLDSTOP else 0) }

/-- The arguments of `sigaction` and `osigvec`: whether the old action is wanted, with the error of
its `copyout`, and the new one, as its `copyin` gives it. -/
structure Args where
  signo : ℤ
  osa : Option ℕ
  nsa : Option (Except ℕ Sigaction)

/-- `sigaction` and `osigvec`: the error, the old action if it is passed back, and the process. -/
def setact (restart : Bool) (new : Sigaction → Sigaction) (p : Proc) (uap : Args) :
    ℕ × Option Sigaction × Proc :=
  if uap.signo ≤ 0 ∨ (NSIG : ℤ) ≤ uap.signo ∨ uap.signo = SIGKILL ∨ uap.signo = SIGSTOP then
    (EINVAL, none, p)
  else
    let sig := uap.signo.toNat
    let error := uap.osa.getD 0
    if error ≠ 0 then (error, none, p)
    else
      let old := uap.osa.map fun _ => oldact p sig restart
      match uap.nsa with
      | none => (0, old, p)
      | some (.error error) => (error, old, p)
      | some (.ok sa) => (0, old, setsigvec p sig (new sa))

def sigaction (p : Proc) (uap : Args) : ℕ × Option Sigaction × Proc :=
  setact true id p uap

def osigvec (p : Proc) (uap : Args) : ℕ × Option Sigaction × Proc :=
  setact false (fun sv => { sv with saFlags := sv.saFlags ^^^ SA_RESTART }) p uap

/-- The error, the old mask, and the process. -/
def sigprocmask (p : Proc) (how : ℤ) (mask : Sigset) : ℕ × Sigset × Proc :=
  if how = SIG_BLOCK then
    (0, p.pSigmask, { p with pSigmask := p.pSigmask ||| (mask &&& ~~~sigcantmask) })
  else if how = SIG_UNBLOCK then (0, p.pSigmask, { p with pSigmask := p.pSigmask &&& ~~~mask })
  else if how = SIG_SETMASK then
    (0, p.pSigmask, { p with pSigmask := mask &&& ~~~sigcantmask })
  else (EINVAL, p.pSigmask, p)

def osigblock (p : Proc) (mask : Sigset) : Sigset × Proc :=
  (p.pSigmask, { p with pSigmask := p.pSigmask ||| (mask &&& ~~~sigcantmask) })

def osigsetmask (p : Proc) (mask : Sigset) : Sigset × Proc :=
  (p.pSigmask, { p with pSigmask := mask &&& ~~~sigcantmask })

/-- The signals that process 0 ignores. -/
def siginit (p : Proc) : Proc :=
  (List.range NSIG).foldl (fun p i =>
    if sigprop i &&& SA_IGNORE ≠ 0 ∧ i ≠ SIGCONT then
      { p with pSigignore := p.pSigignore ||| sigmask i }
    else p) p

/-- One turn of the loop of `execsigs`. -/
def resetOne (p : Proc) : Proc :=
  let nc := ffs p.pSigcatch
  let mask := sigmask nc
  let p := { p with pSigcatch := p.pSigcatch &&& ~~~mask }
  let p :=
    if sigprop nc &&& SA_IGNORE ≠ 0 then
      { p with
        pSigignore := if nc ≠ SIGCONT then p.pSigignore ||| mask else p.pSigignore
        pSig := p.pSig &&& ~~~mask }
    else p
  { p with psSigact := Function.update p.psSigact nc SIG_DFL }

/-- The loop of `execsigs`; there is no result where it does not end in `fuel` turns. -/
def execLoop : ℕ → Proc → Option Proc
  | 0, p => if p.pSigcatch = 0 then some p else none
  | fuel + 1, p => if p.pSigcatch = 0 then some p else execLoop fuel (resetOne p)

def execsigs (p : Proc) : Option Proc :=
  (execLoop 32 p).map fun p => { p with psSigonstack := 0 }

/-! ## Sending a signal -/

/-- `setrun`, of a process that is stopped or sleeps: it is on no sleep queue, and runs. -/
def setrun (p : Proc) : Proc := { p with pWchan := false, pStat := .srun }

/-- `runfast` of `psignal`. -/
def runfast (p : Proc) : Proc := setrun { p with pPri := min p.pPri PUSER }

/-- The action of `psignal`. -/
inductive Action where
  | dfl
  | hold
  | caught
  deriving DecidableEq, Repr

def action (p : Proc) (sig : ℕ) : Action :=
  if p.pSigmask &&& sigmask sig ≠ 0 then .hold
  else if p.pSigcatch &&& sigmask sig ≠ 0 then .caught
  else .dfl

/-- What `SIGCONT` does to a process that is stopped. -/
def continued (p : Proc) (act : Action) : Proc :=
  if act = .caught then runfast p
  else if !p.pWchan then setrun p
  else { p with pStat := .ssleep }

/-- The second half of `psignal`, by the state of the process; `true` if the process is to stop. -/
def deliver (p : Proc) (sig : ℕ) (act : Action) : Proc × Bool :=
  let mask := sigmask sig
  let prop := sigprop sig
  match p.pStat with
  | .ssleep =>
    if !p.sintr then (p, false)
    else if prop &&& SA_STOP ≠ 0 then
      if act ≠ .dfl then (runfast p, false)
      else if p.ppwait then (p, false)
      else ({ p with pSig := p.pSig &&& ~~~mask, pXstat := sig }, true)
    else (runfast p, false)
  | .sstop =>
    if sig = SIGKILL then (runfast p, false)
    else if prop &&& SA_CONT ≠ 0 then
      (continued (if act = .dfl then { p with pSig := p.pSig &&& ~~~mask } else p) act, false)
    else if prop &&& SA_STOP ≠ 0 then ({ p with pSig := p.pSig &&& ~~~mask }, false)
    else if p.pWchan ∧ p.sintr then ({ p with pWchan := false }, false)
    else (p, false)
  | _ => (p, false)

/-- `psignal`, of a signal that is not ignored, up to where it is pending. -/
def pend (p : Proc) (sig : ℕ) : Proc :=
  let prop := sigprop sig
  let s := if prop &&& SA_CONT ≠ 0 then p.pSig &&& ~~~stopsigmask else p.pSig
  let s := if prop &&& SA_STOP ≠ 0 then s &&& ~~~contsigmask else s
  { p with
    pNice := if NZERO < p.pNice ∧ (sig = SIGKILL ∨ sig = SIGTERM ∧ action p sig ≠ .dfl) then NZERO
      else p.pNice
    pSig := s ||| sigmask sig }

/-- `psignal`, of the process alone; `true` if the process is to stop. -/
def post (p : Proc) (sig : ℕ) : Proc × Bool :=
  let prop := sigprop sig
  if p.pSigignore &&& sigmask sig ≠ 0 then (p, false)
  else if prop &&& SA_STOP ≠ 0 ∧ prop &&& SA_TTYSTOP ≠ 0 ∧ p.pgJobc = 0 ∧ action p sig = .dfl then
    -- a stop signal other than `SIGTERM`, so `p_nice` stays
    (p, false)
  else if action p sig = .hold ∧ (prop &&& SA_CONT = 0 ∨ p.pStat ≠ .sstop) then (pend p sig, false)
  else deliver (pend p sig) sig (action p sig)

/-- The processes, by number. -/
abbrev Procs := ℕ → Proc

/-- A process stops. The processes that wait for it wake up in steps of their own. -/
def stop (p : Proc) : Proc := { p with pStat := .sstop }

/-- The parent is told, unless it does not want to be; `SIGCHLD` stops nobody. -/
def tellParent (s : Procs) (i : ℕ) : Procs :=
  let j := (s i).pPptr
  if (s j).nocldstop then s else Function.update s j (post (s j) SIGCHLD).1

def psignal (s : Procs) (i sig : ℕ) : Procs :=
  let r := post (s i) sig
  let s := Function.update s i r.1
  if r.2 then
    let s := tellParent s i
    Function.update s i (stop (s i))
  else s

/-! ## Looking for a signal -/

/-- What a turn of the loop of `issig` comes to: `issig` returns, or stops, or goes on. -/
inductive Turn where
  | returns (sig : ℕ)
  | stops (sig : ℕ)
  | goes (p : Proc)

/-- The signals that `issig` sees. -/
def seen (p : Proc) : Sigset :=
  let mask := p.pSig &&& ~~~p.pSigmask
  if p.ppwait then mask &&& ~~~stopsigmask else mask

/-- One turn of the loop of `issig`. -/
def issigTurn (p : Proc) : Turn :=
  if seen p = 0 then .returns 0
  else
    let sig := ffs (seen p)
    let mask := sigmask sig
    let prop := sigprop sig
    let drop : Turn := .goes { p with pSig := p.pSig &&& ~~~mask }
    if mask &&& p.pSigignore ≠ 0 then drop
    else if p.psSigact sig = SIG_DFL then
      if p.pPid ≤ 1 then drop
      else if prop &&& SA_STOP ≠ 0 then
        if p.pgJobc = 0 ∧ prop &&& SA_TTYSTOP ≠ 0 then drop else .stops sig
      else if prop &&& SA_IGNORE ≠ 0 then drop
      else .returns sig
    else if p.psSigact sig = SIG_IGN then drop
    else .returns sig

/-- The loop of `issig`, up to where it returns or stops. -/
def issigLoop : ℕ → Proc → Option (Proc × Turn)
  | 0, _ => none
  | fuel + 1, p =>
    match issigTurn p with
    | .goes p => issigLoop fuel p
    | t => some (p, t)

/-- `tsleep` behind its `swtch`, where it does not look for signals. -/
def resumed (p : Proc) : Proc := { p with sintr := false, pc := .run }

/-- A process behind `issig`. -/
def behind (p : Proc) (sig : ℕ) : Caller → Proc
  | .trap => { p with pc := if sig = 0 then .run else .taking sig }
  | .tsleep =>
    if sig ≠ 0 then resumed { p with pWchan := false, pStat := .srun }
    else if !p.pWchan then resumed p
    else { p with pStat := .ssleep, pc := .asleep true }
  | .resume => resumed p

/-- `issig`, up to where it returns or stops. -/
def issig (s : Procs) (i : ℕ) (p : Proc) (caller : Caller) : Option Procs :=
  match issigLoop 33 p with
  | some (p, .returns sig) => some (Function.update s i (behind p sig caller))
  | some (p, .stops sig) =>
    let p := stop { p with pXstat := sig, pc := .stopped sig caller }
    some (tellParent (Function.update s i p) i)
  | _ => none

/-- What `psig` does with the signal it takes. -/
def psig (p : Proc) (sig : ℕ) : Proc :=
  let mask := sigmask sig
  let p := { p with pSig := p.pSig &&& ~~~mask }
  if p.psSigact sig = SIG_DFL then { p with pc := .exits sig }
  else { p with pSigmask := p.pSigmask ||| (p.psCatchmask sig ||| mask), pc := .run }

/-! ## Steps -/

/-- What the rest of the kernel may change: the parent and what the process group counts, whether
the parent waits in `vfork`, and priorities. -/
structure Rest where
  pPptr : ℕ
  pgJobc : ℤ
  ppwait : Bool
  pNice : ℤ
  pPri : ℕ

/-- A step of a process: one of the calls, a signal sent to it, `issig` from a trap, `tsleep` and
the way on from a `swtch`, where the sleep may have timed out. Also, `psig`, a wakeup or a timeout,
`fork`, and a change of the rest. -/
inductive Act where
  | sigaction (i : ℕ) (uap : Args)
  | osigvec (i : ℕ) (uap : Args)
  | sigprocmask (i : ℕ) (how : ℤ) (mask : Sigset)
  | osigblock (i : ℕ) (mask : Sigset)
  | osigsetmask (i : ℕ) (mask : Sigset)
  | execsigs (i : ℕ)
  | psignal (i sig : ℕ)
  | issig (i : ℕ)
  | tsleep (i : ℕ) (catch_ : Bool)
  | resume (i : ℕ) (timo : Bool)
  | psig (i : ℕ)
  | wakeup (i : ℕ)
  | fork (i j pid : ℕ)
  | change (i : ℕ) (r : Rest)

/-- A call on oneself. -/
def onSelf (s : Procs) (i : ℕ) (p : Proc) : Option Procs :=
  if (s i).pStat = .srun ∧ (s i).pc = .run then some (Function.update s i p) else none

/-- A step, if it can be taken. -/
def step (s : Procs) : Act → Option Procs
  | .sigaction i uap => onSelf s i (sigaction (s i) uap).2.2
  | .osigvec i uap => onSelf s i (osigvec (s i) uap).2.2
  | .sigprocmask i how mask => onSelf s i (sigprocmask (s i) how mask).2.2
  | .osigblock i mask => onSelf s i (osigblock (s i) mask).2
  | .osigsetmask i mask => onSelf s i (osigsetmask (s i) mask).2
  | .execsigs i => (execsigs (s i)).bind (onSelf s i)
  | .psignal i sig =>
    -- `psignal` panics at a wrong number
    if (s i).pc ≠ .none ∧ 0 < sig ∧ sig < NSIG then some (psignal s i sig) else none
  | .issig i => if (s i).pStat = .srun ∧ (s i).pc = .run then issig s i (s i) .trap else none
  | .tsleep i catch_ =>
    if (s i).pStat = .srun ∧ (s i).pc = .run then
      let p := { s i with pWchan := true }
      if catch_ then issig s i { p with sintr := true } .tsleep
      else some (Function.update s i { p with pStat := .ssleep, pc := .asleep false })
    else none
  | .resume i timo =>
    if (s i).pStat = .srun then
      match (s i).pc with
      | .stopped sig caller =>
        issig s i { s i with pSig := (s i).pSig &&& ~~~sigmask sig } caller
      | .asleep catch_ =>
        if catch_ ∧ !timo then issig s i { s i with sintr := false } .resume
        else some (Function.update s i (resumed (s i)))
      | _ => none
    else none
  | .psig i =>
    match (s i).pc with
    | .taking sig => some (Function.update s i (psig (s i) sig))
    | _ => none
  | .wakeup i =>
    some (Function.update s i
      { s i with
        pWchan := false
        pStat := if (s i).pStat = .ssleep then .srun else (s i).pStat })
  | .fork i j pid =>
    if (s i).pStat = .srun ∧ (s i).pc = .run ∧ (s j).pc = .none ∧ 1 < pid then
      some (Function.update s j
        { s i with
          pPid := pid
          pPptr := i
          pWchan := false
          sintr := false
          ppwait := false
          nocldstop := false
          pSig := 0
          pXstat := 0 })
    else none
  | .change i r =>
    some (Function.update s i
      { s i with
        pPptr := r.pPptr
        pgJobc := r.pgJobc
        ppwait := r.ppwait
        pNice := r.pNice
        pPri := r.pPri })

end Sig
