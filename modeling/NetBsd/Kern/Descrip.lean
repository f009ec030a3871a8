import Mathlib.Data.BitVec
import Mathlib.Data.List.Basic
import Mathlib.Logic.Function.Basic

/-!
# File descriptors

The descriptor tables of processes and the open files they refer to: `fdalloc`, `open` with its
failures and with `/dev/fd`, `dup`, `dup2`, `F_DUPFD`, `close`, `fdcloseexec`, and `fdcopy` at
fork.

## Main definitions

* `Filedesc`: a descriptor table, with its two cached bounds
* `Files`: the open files, with their reference counts
* `fdalloc`, `dup`, `dup2`, `close`, `fdcloseexec`, `fdcopy`: the routines
* `step`: one call by one process
-/

namespace Descrip

def NDFILE : ℕ := 20

def NDEXTENT : ℕ := 50

def UF_EXCLOSE : BitVec 8 := 1

def UF_MAPPED : BitVec 8 := 2

/-- `FREAD | FWRITE`. -/
def FRDWR : BitVec 16 := 3

/-- `FREAD | FWRITE | FAPPEND | FASYNC | FFSYNC | FNONBLOCK`. -/
def FMASK : BitVec 16 := 0xCF

/-- The errors of the calls; those of `vn_open` by number. -/
inductive Errno where
  | EBADF
  | EMFILE
  | ENFILE
  | EINVAL
  | EACCES
  | vn (error : ℕ)
  deriving DecidableEq, Repr

/-- A panic, or an access outside a table or to a file that is not there. -/
inductive Stop where
  | panic (text : String)
  | outOfBounds
  | dangling
  deriving DecidableEq, Repr

abbrev FileId := ℕ

/-- `struct file`, as far as descriptors read it. -/
structure File where
  f_flag : BitVec 16
  f_count : BitVec 16
  deriving DecidableEq

/-- The open files, how many they are, and how many there may be. -/
structure Files where
  file : FileId → Option File
  fresh : FileId
  nfiles : ℕ
  maxfiles : ℕ

/-- `struct filedesc`: the files and the flags of the descriptors, the high-water mark, and a
bound below which no descriptor is free. `fd_nfiles` is the length of the arrays. -/
structure Filedesc where
  fd_ofiles : List (Option FileId)
  fd_ofileflags : List (BitVec 8)
  fd_lastfile : BitVec 16
  fd_freefile : BitVec 16
  deriving DecidableEq

/-- The descriptors a table has room for. -/
def Filedesc.fd_nfiles (t : Filedesc) : ℕ := t.fd_ofiles.length

/-- The file of a descriptor. -/
def Filedesc.slot (t : Filedesc) (i : ℕ) : Option FileId := t.fd_ofiles[i]?.join

/-- The flags of a descriptor. -/
def Filedesc.flag (t : Filedesc) (i : ℕ) : BitVec 8 := t.fd_ofileflags.getD i 0

def Filedesc.setFile (t : Filedesc) (i : ℕ) (fp : Option FileId) : Filedesc :=
  { t with fd_ofiles := t.fd_ofiles.set i fp }

def Filedesc.setFlag (t : Filedesc) (i : ℕ) (f : BitVec 8) : Filedesc :=
  { t with fd_ofileflags := t.fd_ofileflags.set i f }

/-- `if (i > fdp->fd_lastfile) fdp->fd_lastfile = i`. -/
def Filedesc.raise (t : Filedesc) (i : ℕ) : Filedesc :=
  if t.fd_lastfile.toNat < i then { t with fd_lastfile := BitVec.ofNat 16 i } else t

/-- `if (i < fdp->fd_freefile) fdp->fd_freefile = i`. -/
def Filedesc.lowerFree (t : Filedesc) (i : ℕ) : Filedesc :=
  if i < t.fd_freefile.toNat then { t with fd_freefile := BitVec.ofNat 16 i } else t

/-- `munmapfd`. -/
def Filedesc.munmapfd (t : Filedesc) (i : ℕ) : Filedesc := t.setFlag i (t.flag i &&& ~~~UF_MAPPED)

/-- `munmapfd` of a mapped descriptor. -/
def Filedesc.unmapIf (t : Filedesc) (i : ℕ) : Filedesc :=
  if t.flag i &&& UF_MAPPED ≠ 0 then t.munmapfd i else t

/-! ### Files -/

def Files.put (F : Files) (fp : FileId) (f : Option File) : Files :=
  { F with file := Function.update F.file fp f }

/-- `fp->f_count++`. -/
def hold (fp : FileId) (F : Files) : Except Stop Files :=
  match F.file fp with
  | none => .error .dangling
  | some f => .ok (F.put fp (some { f with f_count := f.f_count + 1 }))

/-- `ffree`. -/
def ffree (fp : FileId) (F : Files) : Files :=
  { F.put fp none with nfiles := F.nfiles - 1 }

/-- `closef`: a reference goes, and the file with the last. -/
def closef (fp : FileId) (F : Files) : Except Stop Files :=
  match F.file fp with
  | none => .error .dangling
  | some f =>
    let f_count := f.f_count - 1
    if 0 < f_count.toInt then
      .ok (F.put fp (some { f with f_count := f_count }))
    else if f_count.toInt < 0 then .error (.panic "closef: count < 0")
    else .ok (ffree fp F)

/-! ### Allocation -/

/-- The search of `fdalloc` over `n` descriptors from `i`. -/
def searchFrom (ofiles : List (Option FileId)) : ℕ → ℕ → Option ℕ
  | _, 0 => none
  | i, n + 1 => if ofiles[i]? = some none then some i else searchFrom ofiles (i + 1) n

/-- The larger table of `fdalloc`, the new part cleared. -/
def expand (t : Filedesc) : Filedesc :=
  let nfiles := if t.fd_nfiles < NDEXTENT then NDEXTENT else 2 * t.fd_nfiles
  { t with
    fd_ofiles := t.fd_ofiles ++ List.replicate (nfiles - t.fd_nfiles) none
    fd_ofileflags := t.fd_ofileflags ++ List.replicate (nfiles - t.fd_nfiles) 0 }

/-- Where the search of `fdalloc` starts: the higher of `want` and `fd_freefile`. -/
def searchStart (want : ℤ) (t : Filedesc) : ℕ :=
  (if want < t.fd_freefile.toNat then (t.fd_freefile.toNat : ℤ) else want).toNat

/-- What `fdalloc` does to the table for the free descriptor it found. -/
def take (want : ℤ) (i : ℕ) (t : Filedesc) : Filedesc :=
  let t := (t.setFlag i 0).raise i
  if want ≤ t.fd_freefile.toNat then { t with fd_freefile := BitVec.ofNat 16 i } else t

/-- The loop of `fdalloc`: search, and expand while the limit allows. The bound of the search is
the unsigned minimum of the table's size and the limit, and the limit that stops the expansion is
signed. -/
def fdallocLoop (lim : BitVec 32) (want : ℤ) : ℕ → Filedesc → Filedesc × Option ℕ
  | 0, t => (t, none)
  | n + 1, t =>
    let last := min t.fd_nfiles lim.toNat
    match searchFrom t.fd_ofiles (searchStart want t) (last - searchStart want t) with
    | some i => (take want i t, some i)
    | none =>
      if lim.toInt ≤ t.fd_nfiles then (t, none)
      else fdallocLoop lim want n (expand t)

/-- `fdalloc`: the table after it, and the descriptor unless `EMFILE`. Each expansion adds a
descriptor, so the iterations are at most the limit. -/
def fdalloc (lim : BitVec 32) (want : ℤ) (t : Filedesc) : Filedesc × Option ℕ :=
  fdallocLoop lim want (lim.toNat + 1) t

/-- What a call gives: the table and the files after it, and its value or error. -/
abbrev Outcome := Except Stop (Filedesc × Files × Except Errno ℕ)

/-- What `dup`, `dup2` and `F_DUPFD` do when the descriptor is found: it gets the file, with the
flags of the old one less close-on-exec. -/
def assign (old new : ℕ) (fp : FileId) (t : Filedesc) (F : Files) : Outcome :=
  (hold fp F).map fun F =>
    (((t.setFile new (some fp)).setFlag new (t.flag old &&& ~~~UF_EXCLOSE)).raise new, F, .ok new)

/-- `dup2`. -/
def dup2 (lim : BitVec 32) (old new : BitVec 32) (t : Filedesc) (F : Files) : Outcome :=
  match t.slot old.toNat with
  | none => .ok (t, F, .error .EBADF)
  | some fp =>
    if lim.toNat ≤ new.toNat then .ok (t, F, .error .EBADF)
    else if old = new then .ok (t, F, .ok new.toNat)
    else if t.fd_nfiles ≤ new.toNat then
      match fdalloc lim new.toInt t with
      | (t, none) => .ok (t, F, .error .EMFILE)
      | (t, some i) =>
        if new.toNat ≠ i then .error (.panic "dup2: fdalloc")
        else assign old.toNat new.toNat fp t F
    else
      match t.slot new.toNat with
      | none => assign old.toNat new.toNat fp t F
      | some g => (closef g F).bind fun F => assign old.toNat new.toNat fp (t.unmapIf new.toNat) F

/-- A descriptor for a file that one descriptor has already. -/
def allocAssign (lim : BitVec 32) (want : ℤ) (old : ℕ) (fp : FileId) (t : Filedesc) (F : Files) :
    Outcome :=
  match fdalloc lim want t with
  | (t, none) => .ok (t, F, .error .EMFILE)
  | (t, some i) => assign old i fp t F

/-- `dup`. Beyond 63 it is `dup2` of the low bits to what follows on the caller's stack. -/
def dup (lim : BitVec 32) (i following : BitVec 32) (t : Filedesc) (F : Files) : Outcome :=
  if i &&& ~~~63 ≠ 0 then dup2 lim (i &&& 63) following t F
  else
    match t.slot i.toNat with
    | none => .ok (t, F, .error .EBADF)
    | some fp => allocAssign lim 0 i.toNat fp t F

/-- `fcntl` with `F_DUPFD`. -/
def dupfd (lim : BitVec 32) (fd arg : BitVec 32) (t : Filedesc) (F : Files) : Outcome :=
  match t.slot fd.toNat with
  | none => .ok (t, F, .error .EBADF)
  | some fp =>
    if lim.toNat ≤ arg.toNat then .ok (t, F, .error .EINVAL)
    else allocAssign lim arg.toInt fd.toNat fp t F

/-- `fcntl` with `F_SETFD`. -/
def setfd (fd arg : BitVec 32) (t : Filedesc) (F : Files) : Outcome :=
  match t.slot fd.toNat with
  | none => .ok (t, F, .error .EBADF)
  | some _ =>
    .ok (t.setFlag fd.toNat ((t.flag fd.toNat &&& ~~~1) ||| (arg.setWidth 8 &&& 1)), F, .ok 0)

/-! ### Opening -/

/-- What comes of `vn_open` and the lock in `open`: a vnode, an error, or `ENODEV` from the
descriptor device with the descriptor to duplicate. -/
inductive Opened where
  | vnode
  | failed (error : ℕ)
  | fdopen (dfd : BitVec 32)

/-- `falloc`: a descriptor for a new file. -/
def falloc (lim : BitVec 32) (t : Filedesc) (F : Files) :
    Filedesc × Files × Except Errno (FileId × ℕ) :=
  match fdalloc lim 0 t with
  | (t, none) => (t, F, .error .EMFILE)
  | (t, some i) =>
    if F.maxfiles ≤ F.nfiles then (t, F, .error .ENFILE)
    else
      let fp := F.fresh
      (t.setFile i (some fp),
        { F.put fp (some ⟨0, 1⟩) with fresh := F.fresh + 1, nfiles := F.nfiles + 1 },
        .ok (fp, i))

/-- `dupfdopen`: the descriptor `indx` gets the file of `dfd`. -/
def dupfdopen (indx : ℕ) (dfd : BitVec 32) (mode : BitVec 16) (t : Filedesc) (F : Files) :
    Outcome :=
  let fp := t.slot indx
  match t.slot dfd.toNat with
  | none => .ok (t, F, .error .EBADF)
  | some wfp =>
    if fp = some wfp then .ok (t, F, .error .EBADF)
    else
      match F.file wfp with
      | none => .error .dangling
      | some w =>
        if (mode &&& FRDWR) ||| w.f_flag ≠ w.f_flag then .ok (t, F, .error .EACCES)
        else
          (hold wfp F).map fun F =>
            (((t.setFile indx (some wfp)).setFlag indx (t.flag dfd.toNat)).raise indx, F, .ok indx)

/-- `open`, with what comes of `vn_open`. -/
def openFile (lim : BitVec 32) (mode : BitVec 16) (opened : Opened) (t : Filedesc) (F : Files) :
    Outcome :=
  match falloc lim t F with
  | (t, F, .error e) => .ok (t, F, .error e)
  | (t, F, .ok (fp, indx)) =>
    match opened with
    | .vnode =>
      .ok (t, F.put fp (some ⟨mode &&& FMASK, 1⟩), .ok indx)
    | .failed e => .ok (t.setFile indx none, ffree fp F, .error (.vn e))
    | .fdopen dfd =>
      (dupfdopen indx dfd mode t (ffree fp F)).map fun
        | (t, F, .ok i) => (t, F, .ok i)
        | (t, F, .error e) => (t.setFile indx none, F, .error e)

/-! ### Closing -/

/-- The loop that lowers `fd_lastfile` to a used descriptor, or to zero. -/
def lowerLast (ofiles : List (Option FileId)) : ℕ → ℕ
  | 0 => 0
  | n + 1 => if ofiles[n + 1]? = some none then lowerLast ofiles n else n + 1

def Filedesc.dropLast (t : Filedesc) : Filedesc :=
  { t with fd_lastfile := BitVec.ofNat 16 (lowerLast t.fd_ofiles t.fd_lastfile.toNat) }

/-- `close`. -/
def close (fd : BitVec 32) (t : Filedesc) (F : Files) : Outcome :=
  match t.slot fd.toNat with
  | none => .ok (t, F, .error .EBADF)
  | some fp =>
    let t := ((t.unmapIf fd.toNat).setFile fd.toNat none).dropLast
    let t := (t.lowerFree fd.toNat).setFlag fd.toNat 0
    (closef fp F).map fun F => (t, F, .ok 0)

/-- The loop of `fdcloseexec` over `n` descriptors from `i`. -/
def closeexecLoop : ℕ → ℕ → Filedesc → Files → Except Stop (Filedesc × Files)
  | _, 0, t, F => .ok (t, F)
  | i, n + 1, t, F =>
    match t.fd_ofiles[i]? with
    | none => .error .outOfBounds
    | some none => closeexecLoop (i + 1) n t F
    | some (some fp) =>
      if t.flag i &&& UF_EXCLOSE = 0 then closeexecLoop (i + 1) n t F
      else
        (closef fp F).bind fun F =>
          closeexecLoop (i + 1) n ((((t.unmapIf i).setFile i none).setFlag i 0).lowerFree i) F

/-- `fdcloseexec`. -/
def fdcloseexec (t : Filedesc) (F : Files) : Outcome :=
  (closeexecLoop 0 (t.fd_lastfile.toNat + 1) t F).map fun (t, F) => (t.dropLast, F, .ok 0)

/-! ### Copying -/

/-- The loop of `fdcopy` that lets the table shrink; it halves, so `i` bounds its iterations. -/
def shrinkLoop (lastfile : ℕ) : ℕ → ℕ → ℕ
  | 0, i => i
  | n + 1, i =>
    if 2 * NDEXTENT < i ∧ lastfile * 2 ≤ i then shrinkLoop lastfile n (i / 2) else i

/-- The size of the child's table. -/
def copySize (t : Filedesc) : ℕ :=
  if t.fd_lastfile.toNat < NDFILE then NDFILE
  else shrinkLoop t.fd_lastfile.toNat t.fd_nfiles t.fd_nfiles

/-- The loop of `fdcopy` that counts the child's references, over `n` descriptors from `i`. -/
def countLoop (ofiles : List (Option FileId)) : ℕ → ℕ → Files → Except Stop Files
  | _, 0, F => .ok F
  | i, n + 1, F =>
    match ofiles[i]? with
    | none => .error .outOfBounds
    | some none => countLoop ofiles (i + 1) n F
    | some (some fp) => (hold fp F).bind fun F => countLoop ofiles (i + 1) n F

/-- `fdcopy`: the child's table. -/
def fdcopy (t : Filedesc) (F : Files) : Except Stop (Filedesc × Files) :=
  let child : Filedesc :=
    { t with
      fd_ofiles := t.fd_ofiles.take (copySize t)
      fd_ofileflags := t.fd_ofileflags.take (copySize t) }
  (countLoop child.fd_ofiles 0 (t.fd_lastfile.toNat + 1) F).map fun F => (child, F)

/-! ### The system -/

/-- A process: its table, and its limit on descriptors. -/
structure Proc where
  p_fd : Filedesc
  rlim_cur : BitVec 32

/-- The processes and the open files. -/
structure Sys where
  procs : List Proc
  files : Files

/-- The calls, by the process that makes them. -/
inductive Event where
  | setrlimit (p : ℕ) (lim : BitVec 32)
  | openFile (p : ℕ) (mode : BitVec 16) (opened : Opened)
  | dup (p : ℕ) (i following : BitVec 32)
  | dupfd (p : ℕ) (fd arg : BitVec 32)
  | setfd (p : ℕ) (fd arg : BitVec 32)
  | dup2 (p : ℕ) (old new : BitVec 32)
  | close (p : ℕ) (fd : BitVec 32)
  | exec (p : ℕ)
  | fork (p : ℕ)

/-- The process of an event. -/
def Event.proc : Event → ℕ
  | .setrlimit p _ | .openFile p _ _ | .dup p _ _ | .dupfd p _ _ | .setfd p _ _ | .dup2 p _ _
  | .close p _ | .exec p | .fork p => p

/-- A call on the table of process `p` puts its table and files back. -/
def onTable (s : Sys) (p : ℕ) (q : Proc) (o : Outcome) : Except Stop (Sys × Except Errno ℕ) :=
  o.map fun (t, F, r) => (⟨s.procs.set p { q with p_fd := t }, F⟩, r)

/-- One call of process `q`, which is number `p`. A fork answers the number of the child. -/
def call (s : Sys) (p : ℕ) (q : Proc) : Event → Except Stop (Sys × Except Errno ℕ)
  | .setrlimit _ lim => .ok ({ s with procs := s.procs.set p { q with rlim_cur := lim } }, .ok 0)
  | .openFile _ mode opened => onTable s p q (openFile q.rlim_cur mode opened q.p_fd s.files)
  | .dup _ i following => onTable s p q (dup q.rlim_cur i following q.p_fd s.files)
  | .dupfd _ fd arg => onTable s p q (dupfd q.rlim_cur fd arg q.p_fd s.files)
  | .setfd _ fd arg => onTable s p q (setfd fd arg q.p_fd s.files)
  | .dup2 _ old new => onTable s p q (dup2 q.rlim_cur old new q.p_fd s.files)
  | .close _ fd => onTable s p q (close fd q.p_fd s.files)
  | .exec _ => onTable s p q (fdcloseexec q.p_fd s.files)
  | .fork _ => (fdcopy q.p_fd s.files).map fun (child, F) =>
      (⟨s.procs ++ [{ q with p_fd := child }], F⟩, .ok s.procs.length)

/-- One event; nothing happens for a process that is not there. -/
def step (s : Sys) (e : Event) : Except Stop (Sys × Except Errno ℕ) :=
  match s.procs[e.proc]? with
  | none => .ok (s, .ok 0)
  | some q => call s e.proc q e

/-- The table of the first process. -/
def emptyTable : Filedesc := ⟨List.replicate NDFILE none, List.replicate NDFILE 0, 0, 0⟩

/-- The first process, with no file open. -/
def initial (maxfiles : ℕ) : Sys := ⟨[⟨emptyTable, 64⟩], ⟨fun _ => none, 0, 0, maxfiles⟩⟩

end Descrip
