import Mathlib.Data.Finset.Card
import NetBsd.Lib.Fault

/-!
# Collecting rights in flight

`unp_gc` of `kern/uipc_usrreq.c` with `unp_scan`, `unp_mark` and `unp_discard`, and the close of a
file as far as it concerns the rights that messages hold: `closef`, `soclose` of a socket that can
hold rights, and `sorflush`, which disposes of its receive buffer. Files and sockets are found by
their addresses; an access to one that has been freed is a fault, as what it reads is whatever the
allocator has put there.

## Main definitions

* `scan`: the rights that `unp_scan` finds in a chain of records
* `unpDiscard`, `soclose`, `closef`: a right, a socket and a file are given up
* `unpGc`: mark what descriptors reach, discard the rest
* `Exact`: the counts are those of the graph
* `Collects`: what a collection has to do
-/

namespace UnpGc

/-- A message buffer: whether it is one of control data with room for a header, whether the header
says `SOL_SOCKET` and `SCM_RIGHTS`, and the files behind the header. -/
structure Mbuf where
  control : Bool
  rights : Bool
  files : List ℕ
  deriving DecidableEq, Repr

/-- `struct socket`: whether it is of the unix domain with `PR_RIGHTS`, the records of `so_rcv`,
and the sockets on `so_q0` and `so_q`. -/
structure Socket where
  passesRights : Bool
  soRcv : List (List Mbuf)
  soQ0 : List ℕ
  soQ : List ℕ
  deriving DecidableEq, Repr

/-- `struct file`: the counts, and the socket of a file of type `DTYPE_SOCKET` that has one. -/
structure File where
  fCount : ℤ
  fMsgcount : ℤ
  fData : Option ℕ
  deriving DecidableEq, Repr

/-- The list of files from `filehead`, the files, the bits `FMARK` and `FDEFER` of their flags, the
sockets in use, and the variables of the collector. -/
structure State where
  filehead : List ℕ
  file : ℕ → Option File
  fmark : ℕ → Bool
  fdefer : ℕ → Bool
  sockets : List ℕ
  socket : ℕ → Option Socket
  unpRights : ℤ
  unpDefer : ℤ
  unpGcing : Bool

namespace State

def setFile (s : State) (fp : ℕ) (f : Option File) : State :=
  { s with file := Function.update s.file fp f }

def setSocket (s : State) (so : ℕ) (sk : Option Socket) : State :=
  { s with socket := Function.update s.socket so sk }

end State

/-- The rights of one record: those of its first buffer of rights. -/
def scanRecord : List Mbuf → List ℕ
  | [] => []
  | m :: rest => if m.control ∧ m.rights then m.files else scanRecord rest

/-- `unp_scan`: the files to which it applies `op`, in order. -/
def scan (m0 : List (List Mbuf)) : List ℕ := m0.flatMap scanRecord

/-! ## Discarding -/

/-- `ffree`. -/
def ffree (fp : ℕ) (s : State) : State :=
  { s.setFile fp none with filehead := s.filehead.erase fp }

/-- `sorflush` of a receive buffer, with `discard` for `unp_discard`: the buffer is emptied, then
the rights that were in it are disposed of. -/
def sorflush (discard : ℕ → State → Except Fault State) (so : ℕ) (s : State) :
    Except Fault State :=
  match s.socket so with
  | none => .error .deref
  | some sk =>
    let s := s.setSocket so (some { sk with soRcv := [] })
    if sk.passesRights then (scan sk.soRcv).foldlM (fun s fp => discard fp s) s else .ok s

/-- `sofree` of a socket without a control block and without a file. -/
def sofree (discard : ℕ → State → Except Fault State) (so : ℕ) (s : State) :
    Except Fault State := do
  let s ← sorflush discard so s
  .ok { s.setSocket so none with sockets := s.sockets.erase so }

/-- `soclose`: the connections not yet accepted are aborted and freed, then the socket itself. The
call of `unp_gc` when the control block is detached returns at once, as `unp_gcing` is set. -/
def soclose (discard : ℕ → State → Except Fault State) (so : ℕ) (s : State) :
    Except Fault State :=
  match s.socket so with
  | none => .error .deref
  | some sk => do
    let s := s.setSocket so (some { sk with soQ0 := [], soQ := [] })
    let s ← (sk.soQ0 ++ sk.soQ).foldlM (fun s so => sofree discard so s) s
    sofree discard so s

/-- `fo_close`: `soo_close` for a socket; the close of another file has no part in this. -/
def foClose (discard : ℕ → State → Except Fault State) (f : File) (s : State) :
    Except Fault State :=
  match f.fData with
  | none => .ok s
  | some so => soclose discard so s

/-- `closef`, for a count of rights that the caller has lowered. -/
def closef (discard : ℕ → State → Except Fault State) (fp : ℕ) (s : State) :
    Except Fault State :=
  match s.file fp with
  | none => .error .deref
  | some f =>
    let f := { f with fCount := f.fCount - 1 }
    let s := s.setFile fp (some f)
    if f.fCount > 0 then .ok s
    else if f.fCount < 0 then .error .panic
    else do
      let s ← foClose discard f s
      .ok (ffree fp s)

/-- `unp_discard`, with at most `n` closes one inside the other. -/
def unpDiscard : ℕ → ℕ → State → Except Fault State
  | 0, _, _ => .error .loop
  | n + 1, fp, s =>
    match s.file fp with
    | none => .error .deref
    | some f =>
      let s := s.setFile fp (some { f with fMsgcount := f.fMsgcount - 1 })
      closef (unpDiscard n) fp { s with unpRights := s.unpRights - 1 }

/-! ## Marking -/

/-- `unp_mark`. -/
def unpMark (fp : ℕ) (s : State) : Except Fault State :=
  match s.file fp with
  | none => .error .deref
  | some _ =>
    if s.fmark fp then .ok s
    else
      .ok { s with
        unpDefer := s.unpDefer + 1
        fmark := Function.update s.fmark fp true
        fdefer := Function.update s.fdefer fp true }

/-- The scan of the receive buffer of a file, when it is a socket that can hold rights. -/
def scanFile (f : File) (s : State) : Except Fault State :=
  match f.fData with
  | none => .ok s
  | some so =>
    match s.socket so with
    | none => .error .deref
    | some sk =>
      if sk.passesRights then (scan sk.soRcv).foldlM (fun s fp => unpMark fp s) s else .ok s

/-- The body of the marking loop for one file. -/
def visit (s : State) (fp : ℕ) : Except Fault State :=
  match s.file fp with
  | none => .error .deref
  | some f =>
    if f.fCount = 0 then .ok s
    else if s.fdefer fp then
      scanFile f { s with
        fdefer := Function.update s.fdefer fp false, unpDefer := s.unpDefer - 1 }
    else if s.fmark fp then .ok s
    else if f.fCount = f.fMsgcount then .ok s
    else scanFile f { s with fmark := Function.update s.fmark fp true }

/-- The `do` loop of `unp_gc`, for at most `n` turns. -/
def markLoop : ℕ → State → Except Fault State
  | 0, _ => .error .loop
  | n + 1, s => do
    let s ← s.filehead.foldlM visit s
    if s.unpDefer ≠ 0 then markLoop n s else .ok s

/-! ## Collection -/

/-- `while (fp->f_msgcount) unp_discard(fp)`. -/
def discardAll (discard : ℕ → State → Except Fault State) (fp : ℕ) :
    ℕ → State → Except Fault State
  | 0, _ => .error .loop
  | n + 1, s =>
    match s.file fp with
    | none => .error .deref
    | some f =>
      if f.fMsgcount ≠ 0 then do
        let s ← discard fp s
        discardAll discard fp n s
      else .ok s

/-- The body of the last loop of `unp_gc` for the file `f` at `fp`. -/
def sweep (m fp : ℕ) (f : File) (s : State) : Except Fault State :=
  if f.fCount ≠ 0 ∧ f.fCount = f.fMsgcount ∧ s.fmark fp = false then
    discardAll (unpDiscard m) fp m s
  else .ok s

/-- The file behind `fp` on the list. -/
def nextFile (fp : ℕ) : List ℕ → Option ℕ
  | [] => none
  | x :: rest => if x = fp then rest.head? else nextFile fp rest

/-- The last loop of `unp_gc`, from `fp` on; the link of a file is read when its turn is over. -/
def sweepFrom (m : ℕ) : ℕ → Option ℕ → State → Except Fault State
  | _, none, s => .ok s
  | 0, some _, _ => .error .loop
  | n + 1, some fp, s =>
    match s.file fp with
    | none => .error .deref
    | some f => do
      let s ← sweep m fp f s
      match s.file fp with
      | none => .error .deref
      | some _ => sweepFrom m n (nextFile fp s.filehead) s

/-- `unp_gc`, with `n` turns for each of its loops. -/
def unpGc (n : ℕ) (s : State) : Except Fault State :=
  if s.unpGcing then .ok s
  else do
    let s := { s with
      unpGcing := true, unpDefer := 0, fmark := fun _ => false, fdefer := fun _ => false }
    let s ← markLoop n s
    let s ← sweepFrom n n s.filehead.head? s
    .ok { s with unpGcing := false }

/-! ## Graphs of files and sockets -/

/-- The rights in the receive buffer of a socket. -/
def rightsOf (s : State) (so : ℕ) : List ℕ :=
  match s.socket so with
  | none => []
  | some sk => if sk.passesRights then scan sk.soRcv else []

/-- The rights in flight. -/
def inFlight (s : State) : List ℕ := s.sockets.flatMap (rightsOf s)

/-- The counts are those of the graph: a file has as many rights as are in flight for it, and
further references, from descriptors, as `desc` says. -/
structure Exact (desc : ℕ → ℕ) (s : State) : Prop where
  nodup : s.filehead.Nodup
  mem_filehead : ∀ fp, fp ∈ s.filehead ↔ s.file fp ≠ none
  mem_sockets : ∀ so, s.socket so ≠ none → so ∈ s.sockets
  data : ∀ fp f so, s.file fp = some f → f.fData = some so → s.socket so ≠ none
  alive : ∀ fp ∈ inFlight s, fp ∈ s.filehead
  msgcount : ∀ fp f, s.file fp = some f → f.fMsgcount = (inFlight s).count fp
  count : ∀ fp f, s.file fp = some f → f.fCount = desc fp + f.fMsgcount
  rights : s.unpRights = (inFlight s).length
  idle : s.unpGcing = false

/-- Files reached from a descriptor through rights in flight. -/
inductive Reach (s : State) : ℕ → Prop
  | root {fp f} : s.file fp = some f → f.fCount ≠ f.fMsgcount → Reach s fp
  | right {fp f so g} : Reach s fp → s.file fp = some f → f.fData = some so → g ∈ rightsOf s so →
      Reach s g

/-- Sockets reached from a descriptor. -/
def ReachSocket (s : State) (so : ℕ) : Prop :=
  ∃ fp f, Reach s fp ∧ s.file fp = some f ∧ f.fData = some so

/-- A collection discards the rights held by sockets that are not reached, and closes the files
that had no other references; the counts stay those of the graph. -/
def Collects (desc : ℕ → ℕ) (s : State) : Prop :=
  ∃ n s', unpGc n s = .ok s' ∧
    (∀ so, ReachSocket s so → rightsOf s' so = rightsOf s so) ∧
    (∀ so, ¬ReachSocket s so → rightsOf s' so = []) ∧
    (∀ fp ∈ s.filehead, s'.file fp = none ↔ desc fp = 0 ∧ fp ∈ inFlight s ∧ ¬Reach s fp) ∧
    s'.unpRights = (inFlight s').length ∧
    ∀ fp f, s'.file fp = some f → 0 ≤ f.fCount ∧ 0 ≤ f.fMsgcount

end UnpGc
