import NetBsd.Kern.Sockbuf

/-!
# TCP control blocks

The data of TCP input, `netinet/tcp_var.h`, `tcpip.h` and `tcp_seq.h`: sequence numbers, the
header of a segment with its data, the control block and the socket behind it.

## Main definitions

* `Seq`, `seqLt`, `seqLeq`, `seqGt`: sequence numbers and their comparison modulo `2 ^ 32`
* `TState`: the states of a connection
* `Tcpiphdr`: a segment
* `Tcpcb`, `Socket`: the control block and the socket
* `Conn`: a connection, which is the two together
-/

namespace Tcp

/-- `tcp_seq`. -/
abbrev Seq := BitVec 32

/-- The conversion of a difference of sequence numbers to `int`. -/
def seqDiff (a b : Seq) : ℤ := (a - b).toInt

def seqLt (a b : Seq) : Bool := seqDiff a b < 0
def seqLeq (a b : Seq) : Bool := seqDiff a b ≤ 0
def seqGt (a b : Seq) : Bool := 0 < seqDiff a b

/-- A sequence number and a signed length. -/
def seqAdd (a : Seq) (i : ℤ) : Seq := a + BitVec.ofInt 32 i

/-- `TCPS_CLOSED` to `TCPS_TIME_WAIT`, in the order of their numbers. -/
inductive TState where
  | closed
  | listen
  | synSent
  | synReceived
  | established
  | closeWait
  | finWait1
  | closing
  | lastAck
  | finWait2
  | timeWait
  deriving DecidableEq, Repr

/-- `TCPS_HAVERCVDSYN`. -/
def TState.haveRcvdSyn (s : TState) : Bool := s.ctorIdx ≥ TState.synReceived.ctorIdx

/-- `TCPS_HAVERCVDFIN`. -/
def TState.haveRcvdFin (s : TState) : Bool := s.ctorIdx ≥ TState.timeWait.ctorIdx

/-- The flags of a segment. -/
structure Flags where
  fin : Bool
  syn : Bool
  rst : Bool
  push : Bool
  ack : Bool
  urg : Bool
  deriving DecidableEq, Repr

/-- `struct tcpiphdr` in host order, with the mbufs that hold the data. -/
structure Tcpiphdr where
  tiSeq : Seq
  tiAck : Seq
  tiLen : ℤ
  tiFlags : Flags
  tiWin : ℕ
  tiUrp : ℕ
  m : List Mbuf
  deriving DecidableEq, Repr

/-- `struct tcpcb`; `segs` is the sequencing queue, `ackNow`, `delAck`, `noDelay`, `noOpt` and
`sentFin` are flags of `t_flags`, `template` says whether `t_template` is set, and the timers have
fields of their own. -/
structure Tcpcb where
  segs : List Tcpiphdr := []
  tState : TState := .closed
  tRexmt : ℤ := 0
  tPersist : ℤ := 0
  tKeep : ℤ := 0
  t2msl : ℤ := 0
  tRxtshift : ℤ := 0
  tRxtcur : ℤ := 0
  tDupacks : ℤ := 0
  tMaxseg : ℕ := 0
  tForce : Bool := false
  ackNow : Bool := false
  delAck : Bool := false
  noDelay : Bool := false
  noOpt : Bool := false
  sentFin : Bool := false
  template : Bool := false
  sndUna : Seq := 0
  sndNxt : Seq := 0
  sndUp : Seq := 0
  sndWl1 : Seq := 0
  sndWl2 : Seq := 0
  iss : Seq := 0
  sndWnd : ℕ := 0
  rcvWnd : ℕ := 0
  rcvNxt : Seq := 0
  rcvUp : Seq := 0
  irs : Seq := 0
  rcvAdv : Seq := 0
  sndMax : Seq := 0
  sndCwnd : ℕ := 0
  sndSsthresh : ℕ := 0
  tIdle : ℤ := 0
  tRtt : ℤ := 0
  tRtseq : Seq := 0
  tSrtt : ℤ := 0
  tRttvar : ℤ := 0
  tRttmin : ℤ := 0
  maxSndwnd : ℕ := 0
  oobHaveData : Bool := false
  oobHadData : Bool := false
  tIobc : UInt8 := 0
  tSofterror : ℤ := 0
  deriving DecidableEq, Repr

/-- `struct socket`; the flags of `so_state` and `so_options` that TCP reads. -/
structure Socket where
  soRcv : Sockbuf
  soSnd : Sockbuf
  soOobmark : ℤ := 0
  cantRcvMore : Bool := false
  cantSendMore : Bool := false
  rcvAtMark : Bool := false
  noFdRef : Bool := false
  oobInline : Bool := false
  keepAlive : Bool := false
  deriving DecidableEq, Repr

/-- A connection: its control block and its socket. -/
structure Conn where
  tp : Tcpcb
  so : Socket
  deriving DecidableEq, Repr

/-! ## Conversions and constants -/

/-- Conversion to `short`. -/
def short (i : ℤ) : ℤ := i.bmod (2 ^ 16)

/-- Conversion to `u_short`. -/
def ushort (i : ℤ) : ℕ := (i % 2 ^ 16).toNat

/-- Conversion to `long`. -/
def long (i : ℤ) : ℤ := i.bmod (2 ^ 32)

/-- `TCPT_RANGESET`. -/
def rangeset (value tvmin tvmax : ℤ) : ℤ :=
  if short value < tvmin then short tvmin
  else if short value > tvmax then short tvmax
  else short value

/-- `TCPTV_REXMTMAX`, with `PR_SLOWHZ` two. -/
def rexmtmax : ℤ := 128

/-- `2 * TCPTV_MSL`. -/
def twoMsl : ℤ := 120

/-- `TCP_MAXWIN`. -/
def maxwin : ℕ := 65535

/-- `TCP_MAXRXTSHIFT`. -/
def maxrxtshift : ℤ := 12

/-- `tcp_backoff`. -/
def backoff (shift : ℤ) : ℤ := [1, 2, 4, 8, 16, 32, 64, 64, 64, 64, 64, 64, 64].getD shift.toNat 0

/-- `tcp_newtcpcb`, with `tcp_mssdflt` 512 and `tcp_rttdflt` three seconds. -/
def newtcpcb : Tcpcb where
  tMaxseg := 512
  tRttvar := 24
  tRttmin := 2
  tRxtcur := 12
  sndCwnd := maxwin
  sndSsthresh := maxwin

end Tcp
