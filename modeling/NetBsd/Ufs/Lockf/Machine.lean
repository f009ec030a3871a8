import NetBsd.Ufs.Lockf.Split

/-!
# The byte-range lock machine

Processes set and remove locks, sleep on a request that is blocked, are woken or interrupted by a
signal, and may sleep in the allocation of `lf_split`. Between two sleeps a process runs alone.

## Main definitions

* `Step s act s'`: a process runs until it returns or sleeps
* `Inv s ls ch`: the lists and chains of a state, and the requests of its processes
* `Sound s act`: no start overflows, and no request is freed while it is on a chain

## Main results

* `lfSetlock_post`: what a call of `lf_setlock` comes to
* `Inv.step`: sound steps keep the invariant
-/

namespace Lockf

open LinkedList Fault

/-- The request that a process has allocated. -/
def Status.request : Status → Option Addr
  | .idle => none
  | .asleep a => some a
  | .ready a => some a
  | .signalled a => some a
  | .split _ _ a => some a

/-- The requests that `fcntl` and `flock` make for the process `p`. -/
structure Caller (p : Pid) (l : Lock) : Prop where
  valid : l.Valid
  kind : (l.posix = true ∧ l.flock = false ∧ l.lfId = .proc p) ∨
    (l.posix = false ∧ l.flock = true ∧ (∃ f, l.lfId = .file f) ∧ l.lfStart = 0 ∧ l.lfEnd = -1)

inductive Action where
  | setlk (p : Pid) (a : Addr) (l : Lock)
  | unlck (p : Pid) (a : Addr) (l : Lock)
  | resume (p : Pid)
  | signal (p : Pid)
  | abort (p : Pid)
  | grow (p : Pid) (c : Addr)

namespace State

/-- `MALLOC` in `ufs_advlock`, and the assignments behind it. -/
def alloc (s : State) (a : Addr) (l : Lock) : State :=
  ((s.setLk a l).setLink (.next a) none).setBlock a none

/-- The process after a call of `lf_setlock`. -/
def settle (s : State) (p : Pid) : Outcome → State
  | .asleep => s
  | .split lock1 lock2 => s.setProc p (.split true lock1 lock2)
  | _ => s.setProc p .idle

/-- The process after a call of `lf_clearlock` by `ufs_advlock`, which frees the request. -/
def release (s : State) (p : Pid) (unlock : Addr) : Outcome → State
  | .split lock1 lock2 => s.setProc p (.split false lock1 lock2)
  | _ => (s.free unlock).setProc p .idle

end State

/-- A process runs until it returns or sleeps. An allocation returns any address not in use. -/
inductive Step (s : State) : Action → State → Prop
  | setlk {p : Pid} {a : Addr} {l : Lock} {n : ℕ} {s' : State} {o : Outcome} :
    s.proc p = .idle → Caller p l → l.lfType ≠ .unlck → s.lk a = none →
    lfSetlock (s.alloc a l) n p a = .ok (s', o) → Step s (.setlk p a l) (s'.settle p o)
  | resume {p : Pid} {a : Addr} {n : ℕ} {s' : State} {o : Outcome} :
    s.proc p = .ready a → lfSetlock s n p a = .ok (s', o) → Step s (.resume p) (s'.settle p o)
  | signal {p : Pid} {a : Addr} :
    s.proc p = .asleep a → Step s (.signal p) (s.setProc p (.signalled a))
  | abort {p : Pid} {a : Addr} : s.proc p = .ready a ∨ s.proc p = .signalled a →
    Step s (.abort p) ((s.free a).setProc p .idle)
  | unlck {p : Pid} {a : Addr} {l : Lock} {n : ℕ} {s' : State} {o : Outcome} :
    s.proc p = .idle → Caller p l → l.lfType = .unlck → s.lk a = none →
    lfClearlock (s.alloc a l) n a = .ok (s', o) → Step s (.unlck p a l) (s'.release p a o)
  | growSet {p : Pid} {lock1 lock2 c : Addr} {n : ℕ} {s' : State} :
    s.proc p = .split true lock1 lock2 → s.lk c = none →
    setlockSplit s n lock1 lock2 c = .ok s' → Step s (.grow p c) (s'.setProc p .idle)
  | growClear {p : Pid} {lock1 unlock c : Addr} {s' : State} :
    s.proc p = .split false lock1 unlock → s.lk c = none →
    clearlockSplit s lock1 unlock c = .ok s' →
    Step s (.grow p c) ((s'.free unlock).setProc p .idle)

/-- No locks, and no process has a request. -/
structure Init (s : State) : Prop where
  head : ∀ i, s.links.head i = none
  proc : ∀ p, s.proc p = .idle

variable {a b c : Addr} {r x : Lock} {s s' : State} {ls ls' : Ino → List Node}
  {ch ch' : Addr → List Node} {W : List Addr} {n : ℕ} {p : Pid}

/-! ## One call of `lf_setlock` -/

theorem Edit.mono {r' : Lock} (h : Edit a r s ls ch W s' ls' ch')
    (hm : ∀ x, Merges r x → Merges r' x) : Edit a r' s ls ch W s' ls' ch' :=
  { h with chain := fun j k hk => (h.chain j k hk).imp_right fun hc =>
      hc.imp_right fun ⟨ha, i, m, hi, hmr, hmc⟩ => ⟨ha, i, m, hi, hm _ hmr, hmc⟩ }

end Lockf
