import NetBsd.Kern.Sockbuf
import NetBsd.Lib.RecordQueue

/-!
# Receiving on a socket

`soreceive` of `kern/uipc_socket.c`, from the test of the receive buffer on, with `MSG_OOB` off and
without the checks under `DIAGNOSTIC`. A call is in pieces between the points where it copies to the
user or sleeps; in between input may be appended. The mbufs that peeking copies can be had.

## Main definitions

* `Sock`: what the routine uses of a socket
* `entry`: the loop that waits for data
* `start`, `moved`, `woke`: a call up to its next copy or wait, after a copy, and after a wait
* `Act`, `step`: the calls on a socket, and its input
-/

namespace Soreceive

open Sockbuf Mbuf RecordQueue

/-! ## The state -/

/-- Of a protocol, `PR_ATOMIC`, `PR_ADDR` and `PR_CONNREQUIRED`, and whether its domain has
`dom_externalize`. -/
structure Proto where
  atomic : Bool
  addr : Bool
  connrequired : Bool
  externalizes : Bool

/-- The arguments of a call: `MSG_PEEK`, `MSG_WAITALL`, which of `paddr`, `controlp` and `mp0` are
given, and `uio_resid`. -/
structure Args where
  peek : Bool
  waitall : Bool
  paddr : Bool
  controlp : Bool
  mp : Bool
  resid : ℕ

/-- What `soreceive` uses of `struct socket`, with `SS_ISCONNECTED | SS_ISCONNECTING` as one flag.
`sb_lowat` is that of `so_rcv`. -/
structure Sock where
  rcv : Sockbuf
  lowat : ℤ
  oobmark : BitVec 32
  rcvatmark : Bool
  soError : ℕ
  cantrcvmore : Bool
  connected : Bool
  nbio : Bool

/-- What a call returns: the error, the flags `MSG_EOR`, `MSG_OOB` and `MSG_TRUNC`, the bytes copied
or passed back, and `*paddr` and `*controlp`. -/
structure Result where
  error : ℕ
  eor : Bool
  oob : Bool
  trunc : Bool
  data : List UInt8
  addr : Option Mbuf
  control : List Mbuf

/-- A call that has nothing yet. -/
def Result.none : Result := ⟨0, false, false, false, [], .none, []⟩

/-- The variables of the loop over the data. The mbuf `m` is the one behind `pos` others in the
record behind `recno` others. -/
structure Locals where
  args : Args
  resid : ℕ
  res : Result
  type : MType
  recno : ℕ
  pos : ℕ
  moff : ℕ
  offset : ℕ

/-- Where the call on a socket is: it has returned, it sleeps for data, it copies `len` bytes, or it
sleeps because of `MSG_WAITALL`, with its `nextrecord`. -/
inductive Pc where
  | returned (r : Result)
  | blocked
  | copying (c : Locals) (len : ℕ)
  | waiting (c : Locals) (nextrecord : Chain)

structure St where
  so : Sock
  pc : Pc

/-- How bytes leave the buffer: to the caller, as an address or a control message that the caller
does not ask for, in a copy that fails, or as the rest of a record of an atomic protocol. -/
inductive Fate where
  | delivered
  | unasked
  | failed
  | truncated
  deriving DecidableEq, Repr

/-- What a step does to the records of the buffer. -/
abbrev Log := List (Event Fate UInt8)

def ENOTCONN : ℕ := 57
def EWOULDBLOCK : ℕ := 35
def EFAULT : ℕ := 14

/-! ## Links -/

/-- `m_nextpkt`, `i` times. -/
def pkt : ℕ → Chain → Chain
  | 0, t => t
  | _ + 1, .null => .null
  | i + 1, .mbuf _ _ np => pkt i np

/-- `m_next`, `k` times. -/
def nth : ℕ → Chain → Chain
  | 0, t => t
  | _ + 1, .null => .null
  | k + 1, .mbuf _ next _ => nth k next

/-- `m->m_nextpkt = nextrecord`, if there is an `m`. -/
def setPkt (nextrecord : Chain) : Chain → Chain
  | .null => .null
  | .mbuf m next _ => .mbuf m next nextrecord

/-- The first mbuf of a record, changed. -/
def modify (f : Mbuf → Mbuf) : ℕ → Chain → Chain
  | _, .null => .null
  | 0, .mbuf m next np => .mbuf (f m) next np
  | i + 1, .mbuf m next np => .mbuf m next (modify f i np)

/-- The mbufs of a record. -/
def mbufs : Chain → List Mbuf
  | .null => []
  | .mbuf m next _ => m :: mbufs next

/-! ## The wait for data -/

/-- What the loop that waits for data comes to. -/
inductive Entry where
  | dontblock
  | release (error : ℕ)
  | wait
  deriving DecidableEq

def entry (pr : Proto) (a : Args) (so : Sock) : Entry :=
  let short : Bool := match so.rcv.sbMb with
    | .null => true
    | .mbuf _ _ np => so.rcv.sbCc < a.resid ∧
        (so.rcv.sbCc < so.lowat ∨ a.waitall ∧ a.resid ≤ so.rcv.sbHiwat) ∧ np = .null
  if !short then .dontblock
  else if so.soError ≠ 0 then
    if so.rcv.sbMb ≠ .null then .dontblock else .release so.soError
  else if so.cantrcvmore then
    if so.rcv.sbMb ≠ .null then .dontblock else .release 0
  else if (mbufs so.rcv.sbMb).any fun m => m.mType = .oobdata ∨ m.eor then .dontblock
  else if !so.connected ∧ pr.connrequired then .release ENOTCONN
  else if a.resid = 0 then .release 0
  else if so.nbio then .release EWOULDBLOCK
  else .wait

/-! ## The end of a call -/

/-- The end, behind the loop over the data: `m` says whether there is an mbuf. -/
def finish (pr : Proto) (so : Sock) (a : Args) (r : Result) (m : Bool) (nextrecord : Chain) :
    St × Log :=
  if a.peek then (⟨so, .returned r⟩, [])
  else if !m then (⟨{ so with rcv := { so.rcv with sbMb := nextrecord } }, .returned r⟩, [])
  else if pr.atomic then
    (⟨{ so with rcv := sbdroprecord so.rcv }, .returned { r with trunc := true }⟩,
      [.out .truncated (bytes (mbufs so.rcv.sbMb)), .done])
  else (⟨so, .returned r⟩, [])

/-! ## The loop over the data -/

/-- The mbuf at a place of the buffer. -/
def locate (so : Sock) (recno pos : ℕ) : Chain := nth pos (pkt recno so.rcv.sbMb)

/-- `len` for the mbuf `m`. -/
def lenOf (so : Sock) (c : Locals) (m : Mbuf) : ℕ :=
  let len := c.resid
  let left := (so.oobmark - BitVec.ofNat 32 c.offset).toNat
  let len := if so.oobmark ≠ 0 ∧ len > left then left else len
  if len > m.data.length - c.moff then m.data.length - c.moff else len

/-- The head of the loop, with `m` at the place of `c` if there is one. -/
def loopHead (pr : Proto) (so : Sock) (c : Locals) (m : Bool) (nextrecord : Chain) : St × Log :=
  match locate so c.recno c.pos with
  | .mbuf mb _ _ =>
    if m ∧ 0 < c.resid ∧ c.res.error = 0 ∧ (mb.mType = .oobdata ↔ c.type = .oobdata) then
      (⟨{ so with rcvatmark := false }, .copying c (lenOf so c mb)⟩, [])
    else finish pr so c.args c.res m nextrecord
  | .null => finish pr so c.args c.res m nextrecord

/-- The loop of `MSG_WAITALL`, at its head. -/
def waitHead (pr : Proto) (so : Sock) (c : Locals) (m : Bool) (nextrecord : Chain) : St × Log :=
  if c.args.waitall ∧ m = false ∧ 0 < c.resid ∧ !pr.atomic ∧ so.soError = 0 ∧ !so.cantrcvmore then
    (⟨so, .waiting c nextrecord⟩, [])
  else loopHead pr so c m nextrecord

/-- The loop behind a copy, from the mark on. -/
def afterMove (pr : Proto) (so : Sock) (c : Locals) (len : ℕ) (m : Bool) (nextrecord : Chain) :
    St × Log :=
  if so.oobmark ≠ 0 ∧ !c.args.peek then
    let so := { so with oobmark := so.oobmark - BitVec.ofNat 32 len }
    if so.oobmark = 0 then finish pr { so with rcvatmark := true } c.args c.res m nextrecord
    else if c.res.eor then finish pr so c.args c.res m nextrecord
    else waitHead pr so c m nextrecord
  else
    let c := if so.oobmark ≠ 0 then { c with offset := c.offset + len } else c
    if c.res.eor then finish pr so c.args c.res m nextrecord
    else waitHead pr so c m nextrecord

/-- The bytes of a copy of `len` bytes that reach the caller; a copy to the user may fail behind
some of them. -/
def reach (a : Args) (len : ℕ) (fail : Option ℕ) : ℕ :=
  if a.mp then len else min len (fail.getD len)

/-- The variables behind a copy of the bytes `b`. -/
def Locals.move (c : Locals) (b : List UInt8) (len : ℕ) (fail : Option ℕ) : Locals :=
  { c with
    resid := c.resid - reach c.args len fail
    res :=
      { c.res with
        data := if c.args.peek ∧ c.args.mp then c.res.data
          else c.res.data ++ b.take (reach c.args len fail)
        error := if !c.args.mp ∧ fail.isSome then EFAULT else c.res.error } }

/-- The end of a record was met. -/
def Locals.setEor (c : Locals) (eor : Bool) : Locals :=
  { c with res := { c.res with eor := c.res.eor || eor } }

/-- What a copy of the bytes `b` out of the buffer does to it. -/
def moveLog (a : Args) (b : List UInt8) (len : ℕ) (fail : Option ℕ) : Log :=
  [.out .delivered (b.take (reach a len fail)), .out .failed (b.drop (reach a len fail))]

/-- The call behind a copy of `len` bytes. -/
def moved (pr : Proto) (so : Sock) (c : Locals) (len : ℕ) (fail : Option ℕ) : St × Log :=
  match locate so c.recno c.pos with
  | .null => (⟨so, .returned c.res⟩, [])
  | .mbuf m next np =>
    let c' := c.move ((m.data.drop c.moff).take len) len fail
    if len = m.data.length - c.moff then
      let c' := c'.setEor m.eor
      if c.args.peek then
        afterMove pr so { c' with pos := c.pos + 1, moff := 0 } len (next ≠ .null) .null
      else
        let so := { so with rcv := { sbfree so.rcv m with sbMb := setPkt np next } }
        let r := afterMove pr so { c' with recno := 0, pos := 0 } len (next ≠ .null) np
        (r.1, moveLog c.args m.data len fail ++ (if next = .null then [.done] else []) ++ r.2)
    else if c.args.peek then afterMove pr so { c' with moff := c.moff + len } len true .null
    else
      let cut (m : Mbuf) : Mbuf := { m with off := m.off + len, data := m.data.drop len }
      let sb := { so.rcv with sbMb := modify cut c.recno so.rcv.sbMb, sbCc := so.rcv.sbCc - len }
      let r := afterMove pr { so with rcv := sb } c' len true np
      (r.1, moveLog c.args (m.data.take len) len fail ++ r.2)

/-- The call behind the `sbwait` of `MSG_WAITALL`. -/
def woke (pr : Proto) (so : Sock) (c : Locals) (nextrecord : Chain) (error : ℕ) : St × Log :=
  if error ≠ 0 then (⟨so, .returned { c.res with error := 0, oob := false }⟩, [])
  else
    let c := { c with res := { c.res with error := 0 } }
    match so.rcv.sbMb with
    | .null => waitHead pr so c false nextrecord
    | .mbuf _ _ np => waitHead pr so { c with recno := 0, pos := 0 } true np

/-! ## The head of a record -/

/-- The control mbufs of a record: the counts, what is passed back, the error, and the mbufs behind
them. -/
structure Head where
  sb : Sockbuf
  rest : Chain
  control : List Mbuf
  error : ℕ
  log : Log

/-- The message is `SCM_RIGHTS`. -/
def isRights (m : Mbuf) : Bool := (m.data.drop 8).take 4 = [1, 0, 0, 0]

/-- An mbuf is passed back, or freed. -/
def passed (asked : Bool) (m : Mbuf) : Event Fate UInt8 :=
  .out (if asked then .delivered else .unasked) m.data

/-- The loop over the control mbufs; `ext` is `dom_externalize`. -/
def takeControl (pr : Proto) (ext : Mbuf → ℕ × Mbuf) (controlp : Bool) (sb : Sockbuf) :
    Chain → Head
  | .null => ⟨sb, .null, [], 0, []⟩
  | .mbuf m next np =>
    if m.mType = .control then
      let sb := sbfree sb m
      let r := if controlp ∧ pr.externalizes ∧ isRights m then ext m else (0, m)
      if r.1 ≠ 0 then ⟨sb, next, [r.2], r.1, [passed controlp m]⟩
      else
        let h := takeControl pr ext controlp sb next
        { h with
          control := if controlp then r.2 :: h.control else []
          log := passed controlp m :: h.log }
    else ⟨sb, .mbuf m next np, [], 0, []⟩

/-- The address mbuf of a record. -/
def takeAddr (pr : Proto) (paddr : Bool) (sb : Sockbuf) (m : Mbuf) (next np : Chain) :
    Sockbuf × Chain × Option Mbuf × Log :=
  if pr.addr then (sbfree sb m, next, if paddr then some m else none, [passed paddr m])
  else (sb, .mbuf m next np, none, [])

/-- The number of control mbufs at a head. -/
def countControl (l : List Mbuf) : ℕ := (l.takeWhile (·.mType = .control)).length

/-- A call that peeks, at `dontblock`. -/
def peekHead (pr : Proto) (a : Args) (so : Sock) (m : Mbuf) (next : Chain) : St × Log :=
  let l := if pr.addr then mbufs next else m :: mbufs next
  let k := countControl l
  let pos := if pr.addr then k + 1 else k
  let type := match l.drop k with
    | [] => MType.data
    | m :: _ => m.mType
  let res : Result :=
    { Result.none with
      addr := if pr.addr ∧ a.paddr then some m else none
      control := if a.controlp then l.take k else []
      oob := type = .oobdata }
  loopHead pr so ⟨a, a.resid, res, type, 0, pos, 0, 0⟩ (l.drop k ≠ []) .null

/-- A call that takes what it receives, at `dontblock`. -/
def takeHead (pr : Proto) (ext : Mbuf → ℕ × Mbuf) (a : Args) (so : Sock) (m : Mbuf)
    (next np : Chain) : St × Log :=
  let ad := takeAddr pr a.paddr so.rcv m next np
  let h := takeControl pr ext a.controlp ad.1 ad.2.1
  let type := match h.rest with
    | .null => MType.data
    | .mbuf m _ _ => m.mType
  let res : Result :=
    { Result.none with
      error := h.error
      addr := ad.2.2.1
      control := h.control
      oob := type = .oobdata }
  let so := { so with rcv := { h.sb with sbMb := setPkt np h.rest } }
  let r := loopHead pr so ⟨a, a.resid, res, type, 0, 0, 0, 0⟩ (h.rest ≠ .null) np
  (r.1, ad.2.2.2 ++ h.log ++ (if h.rest = .null then [.done] else []) ++ r.2)

/-- A call, up to its first copy. -/
def start (pr : Proto) (ext : Mbuf → ℕ × Mbuf) (a : Args) (so : Sock) : St × Log :=
  match entry pr a so with
  | .wait => (⟨so, .blocked⟩, [])
  | .release error =>
    -- without an mbuf the error is what ends the call, if there is one
    let so := if so.rcv.sbMb = .null ∧ !a.peek then { so with soError := 0 } else so
    (⟨so, .returned { Result.none with error }⟩, [])
  | .dontblock =>
    match so.rcv.sbMb with
    | .null => (⟨so, .returned Result.none⟩, [])
    | .mbuf m next np =>
      if a.peek then peekHead pr a so m next else takeHead pr ext a so m next np

/-! ## The calls on a socket, and its input -/

/-- A step: of a call, of the protocol's input, or a change of the socket's state. -/
inductive Act where
  | start (ext : Mbuf → ℕ × Mbuf) (a : Args)
  | moved (fail : Option ℕ)
  | woke (error : ℕ)
  | append (l : List Mbuf)
  | appendrecord (l : List Mbuf)
  | insertoob (l : List Mbuf)
  | appendaddr (asa : List UInt8) (m0 control : List Mbuf) (got : Bool)
  | appendcontrol (m0 control : List Mbuf)
  | change (so : Sock)

/-- No call holds the lock of the buffer. -/
def Pc.free : Pc → Bool
  | .returned _ => true
  | .blocked => true
  | _ => false

/-- The interrupt level is low, or the call sleeps. -/
def Pc.lowered : Pc → Bool
  | .copying c _ => !c.args.mp
  | _ => true

/-- The out-of-band records in front. -/
def oobFront : Chain → ℕ
  | .null => 0
  | .mbuf m next np => if isOob (.mbuf m next np) then oobFront np + 1 else 0

/-- A record was put behind `i` others: the mbuf of the call is where it was. -/
def Pc.shift (i : ℕ) : Pc → Pc
  | .copying c len => .copying (if i ≤ c.recno then { c with recno := c.recno + 1 } else c) len
  | pc => pc

/-- What `sbappend` does to the records. -/
def appendLog (sb : Sockbuf) (l : List Mbuf) : Log :=
  if l = [] then []
  else if sb.sbMb = .null then
    if bytes l = [] ∧ !l.any Mbuf.eor then [] else [.record (bytes l)]
  else if hasEor (lastRecord sb.sbMb) then [.record (bytes l)]
  else [.append (bytes l)]

/-- Input has come into the buffer, which is now `sb`. -/
def St.arrive (s : St) (sb : Sockbuf) (τ : Log) : Option (St × Log) :=
  if s.pc.lowered then some (⟨{ s.so with rcv := sb }, s.pc⟩, τ) else none

/-- A step, if it can be taken and does not panic. -/
def step (pr : Proto) (s : St) : Act → Option (St × Log)
  | .start ext a => if s.pc.free then some (start pr ext a s.so) else none
  | .moved fail =>
    match s.pc with
    | .copying c len => some (moved pr s.so c len fail)
    | _ => none
  | .woke error =>
    match s.pc with
    | .waiting c nextrecord => some (woke pr s.so c nextrecord error)
    | _ => none
  | .append l => s.arrive (sbappend s.so.rcv l) (appendLog s.so.rcv l)
  | .appendrecord l =>
    s.arrive (sbappendrecord s.so.rcv l) (if l = [] then [] else [.record (bytes l)])
  | .insertoob l =>
    let i := oobFront s.so.rcv.sbMb
    let s := { s with pc := if l = [] then s.pc else s.pc.shift i }
    s.arrive (sbinsertoob s.so.rcv l) (if l = [] then [] else [.insert i (bytes l)])
  | .appendaddr asa m0 control got =>
    match sbappendaddr s.so.rcv asa m0 control got with
    | .ok (b, sb) => s.arrive sb (if b then [.record (asa ++ bytes (control ++ m0))] else [])
    | .error _ => none
  | .appendcontrol m0 control =>
    match sbappendcontrol s.so.rcv m0 control with
    | .ok (b, sb) => s.arrive sb (if b then [.record (bytes (control ++ m0))] else [])
    | .error _ => none
  | .change so =>
    if s.pc.lowered then some (⟨{ so with rcv := s.so.rcv }, s.pc⟩, []) else none

end Soreceive
