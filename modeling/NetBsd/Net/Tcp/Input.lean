import NetBsd.Net.Tcp.Output
import NetBsd.Net.Tcp.Reass

/-!
# TCP input

`tcp_input` of `netinet/tcp_input.c` from the control block on that the segment belongs to: the
header prediction, and the general path behind it up to the output at its end. The mbufs of a
segment are those that hold its data; both paths drop the headers before them.

## Main definitions

* `predicts`, `fastPath`: the header prediction
* `trimFrontOf`, `checkGone`, `trimEnd`, `checkFlags`, `acceptSyn`, `ackProcessing`, `step6`,
  `urgent`, `dodata`, `finish`: the parts of the general path in the order of the code
* `generalPath`: all of them, for a connection that has received a SYN
* `openPath`: the general path of a connection that has not
* `tcpInput`: the whole function
-/

namespace Tcp

open Mbuf Sockbuf

/-! ## Constants and timers -/

/-- `SB_MAX`. -/
def sbMax : ℤ := 64 * 1024

/-- `tcp_keepidle`. -/
def keepidle : ℤ := 14400

/-- `TCPTV_KEEP_INIT`. -/
def keepInit : ℤ := 150

/-- `tcp_keepintvl`. -/
def keepintvl : ℤ := 150

/-- `tcp_maxidle`. -/
def maxidle : ℤ := 1200

/-- `tcprexmtthresh`. -/
def rexmtthresh : ℤ := 3

/-- The smoothed round-trip time and its variance after `tcp_xmit_timer`. -/
def smooth (tp : Tcpcb) : ℤ × ℤ :=
  if tp.tSrtt ≠ 0 then
    let delta := short (tp.tRtt - 1 - tp.tSrtt / 8)
    let srtt := short (tp.tSrtt + delta)
    let delta := if delta < 0 then short (-delta) else delta
    let delta := short (delta - tp.tRttvar / 4)
    let rttvar := short (tp.tRttvar + delta)
    (if srtt ≤ 0 then 1 else srtt, if rttvar ≤ 0 then 1 else rttvar)
  else (short (tp.tRtt * 8), short (tp.tRtt * 2))

def xmitTimer (tp : Tcpcb) : Tcpcb :=
  let r := smooth tp
  { tp with
    tSrtt := r.1, tRttvar := r.2, tRtt := 0, tRxtshift := 0
    tRxtcur := rangeset (r.1 / 8 + r.2) tp.tRttmin rexmtmax
    tSofterror := 0 }

/-! ## Header prediction -/

/-- The test of the header prediction on the control block. -/
def predicts (tp : Tcpcb) (ti : Tcpiphdr) : Prop :=
  tp.tState = .established ∧
    ti.tiFlags.syn = false ∧ ti.tiFlags.fin = false ∧ ti.tiFlags.rst = false ∧
    ti.tiFlags.urg = false ∧ ti.tiFlags.ack = true ∧
    ti.tiSeq = tp.rcvNxt ∧ ti.tiWin ≠ 0 ∧ ti.tiWin = tp.sndWnd ∧ tp.sndNxt = tp.sndMax

instance (tp : Tcpcb) (ti : Tcpiphdr) : Decidable (predicts tp ti) :=
  inferInstanceAs (Decidable (_ ∧ _))

/-- A pure ack for outstanding data. -/
def pureAck (tp : Tcpcb) (ti : Tcpiphdr) : Prop :=
  ti.tiLen = 0 ∧ seqGt ti.tiAck tp.sndUna ∧ seqLeq ti.tiAck tp.sndMax ∧ tp.sndCwnd ≥ tp.sndWnd

instance (tp : Tcpcb) (ti : Tcpiphdr) : Decidable (pureAck tp ti) :=
  inferInstanceAs (Decidable (_ ∧ _))

/-- A pure, in-sequence data packet. -/
def pureData (x : Conn) (ti : Tcpiphdr) : Prop :=
  ti.tiLen ≠ 0 ∧ ti.tiAck = x.tp.sndUna ∧ x.tp.segs = [] ∧ ti.tiLen ≤ sbspace x.so.soRcv

instance (x : Conn) (ti : Tcpiphdr) : Decidable (pureData x ti) :=
  inferInstanceAs (Decidable (_ ∧ _))

/-- The retransmit timer after an ack. -/
def restartRexmt (tp : Tcpcb) (done : Bool) : Tcpcb :=
  if done then { tp with tRexmt := 0 }
  else if tp.tPersist = 0 then { tp with tRexmt := tp.tRxtcur }
  else tp

/-- The round-trip time is measured when the timed sequence number has been acked. -/
def timeAck (tp : Tcpcb) (ack : Seq) : Tcpcb :=
  if tp.tRtt ≠ 0 ∧ seqGt ack tp.tRtseq then xmitTimer tp else tp

/-- The fast path: the connection it leaves, and whether it calls `tcp_output` last; `none` when
the segment is none of the two common cases. -/
def fastPath (x : Conn) (ti : Tcpiphdr) : Option (Except Fault (Conn × Bool)) :=
  if predicts x.tp ti then
    if pureAck x.tp ti then
      let tp := timeAck x.tp ti.tiAck
      let acked := seqDiff ti.tiAck tp.sndUna
      some (do
        let soSnd ← sbdrop x.so.soSnd acked
        let tp := { tp with sndUna := ti.tiAck }
        .ok ({ tp := restartRexmt tp (tp.sndUna = tp.sndMax), so := { x.so with soSnd := soSnd } },
          soSnd.sbCc ≠ 0))
    else if pureData x ti then
      some (.ok ({
        tp := { x.tp with rcvNxt := seqAdd x.tp.rcvNxt ti.tiLen, delAck := true }
        so := { x.so with soRcv := sbappend x.so.soRcv ti.m } }, false))
    else none
  else none

/-! ## The general path -/

/-- Where the general path leaves its straight line. -/
inductive Stop where
  | dropafterack (x : Conn)
  | drop (x : Option Conn)
  | dropwithreset (x : Option Conn)
  | findpcb (iss : Seq)
  | fault (f : Fault)
  deriving DecidableEq, Repr

/-- The variables of the general path; `tiflags` is the local copy of the segment's flags. -/
structure Frame where
  x : Conn
  ti : Tcpiphdr
  tiflags : Flags
  needoutput : Bool
  deriving DecidableEq, Repr

/-- The receive window, at least as large as advertised; `max` compares unsigned values. -/
def rcvWindow (x : Conn) : ℕ :=
  ushort (max (max (sbspace x.so.soRcv) 0) (x.tp.rcvAdv - x.tp.rcvNxt).toNat)

/-- A segment loses `todrop` leading bytes. -/
def dropLeading (fr : Frame) (todrop : ℤ) : Frame :=
  let ti := { fr.ti with
    m := mAdj fr.ti.m todrop
    tiSeq := seqAdd fr.ti.tiSeq todrop
    tiLen := fr.ti.tiLen - todrop }
  if (ti.tiUrp : ℤ) > todrop then
    { fr with ti := { ti with tiUrp := ushort (ti.tiUrp - todrop) } }
  else { fr with ti := { ti with tiUrp := 0 }, tiflags := { fr.tiflags with urg := false } }

/-- A SYN before the window is dropped. -/
def dropSyn (fr : Frame) : Frame :=
  if fr.tiflags.syn then
    let ti := { fr.ti with tiSeq := seqAdd fr.ti.tiSeq 1 }
    let tiflags := { fr.tiflags with syn := false }
    if ti.tiUrp > 1 then { fr with ti := { ti with tiUrp := ti.tiUrp - 1 }, tiflags := tiflags }
    else { fr with ti := ti, tiflags := { tiflags with urg := false } }
  else fr

/-- The segment begins before `rcv_nxt`. -/
def trimFrontOf (fr : Frame) : Except Stop Frame :=
  let todrop := seqDiff fr.x.tp.rcvNxt fr.ti.tiSeq
  if todrop > 0 then
    let todrop := if fr.tiflags.syn then todrop - 1 else todrop
    let fr := dropSyn fr
    if todrop > fr.ti.tiLen ∨ (todrop = fr.ti.tiLen ∧ fr.tiflags.fin = false) then
      if fr.tiflags.fin ∧ todrop = fr.ti.tiLen + 1 then
        .ok (dropLeading { fr with
          tiflags := { fr.tiflags with fin := false }, x.tp.ackNow := true } fr.ti.tiLen)
      else .error (.dropafterack fr.x)
    else .ok (dropLeading fr todrop)
  else .ok fr

/-- Data after the user processes are gone. -/
def checkGone (fr : Frame) : Except Stop Frame :=
  if fr.x.so.noFdRef ∧ fr.x.tp.tState.ctorIdx > TState.closeWait.ctorIdx ∧ fr.ti.tiLen ≠ 0 then
    .error (.dropwithreset none)
  else .ok fr

/-- A segment loses `todrop` trailing bytes. -/
def dropTrailing (fr : Frame) (todrop : ℤ) : Frame :=
  { fr with
    ti := { fr.ti with m := mAdjTail fr.ti.m todrop, tiLen := fr.ti.tiLen - todrop }
    tiflags := { fr.tiflags with push := false, fin := false } }

/-- `TCP_ISSINCR`. -/
def issincr : ℤ := 125 * 1024

/-- The segment ends after the window. -/
def trimEnd (fr : Frame) : Except Stop Frame :=
  let tp := fr.x.tp
  let todrop := seqDiff (seqAdd fr.ti.tiSeq fr.ti.tiLen) (seqAdd tp.rcvNxt tp.rcvWnd)
  if todrop > 0 then
    if todrop ≥ fr.ti.tiLen then
      if fr.tiflags.syn ∧ tp.tState = .timeWait ∧ seqGt fr.ti.tiSeq tp.rcvNxt then
        .error (.findpcb (seqAdd tp.rcvNxt issincr))
      else if tp.rcvWnd = 0 ∧ fr.ti.tiSeq = tp.rcvNxt then
        .ok (dropTrailing { fr with x.tp.ackNow := true } todrop)
      else .error (.dropafterack fr.x)
    else .ok (dropTrailing fr todrop)
  else .ok fr

/-- `tcp_drop`: a connection that has received a SYN answers with a RST. -/
def tcpDrop (gs : List Given) (x : Conn) : Except Fault Unit :=
  if x.tp.tState.haveRcvdSyn then do
    let _ ← tcpOutput gs { x with tp.tState := .closed }
    .ok ()
  else .ok ()

/-- The fault of a computation ends the general path. -/
def orFault {α : Type} : Except Fault α → Except Stop α
  | .ok a => .ok a
  | .error f => .error (.fault f)

/-- The flags RST, SYN and ACK. -/
def checkFlags (gs : List Given) (fr : Frame) : Except Stop Frame :=
  if fr.tiflags.rst ∧ fr.x.tp.tState.haveRcvdSyn then .error (.drop none)
  else if fr.tiflags.syn then do
    orFault (tcpDrop gs fr.x)
    .error (.dropwithreset none)
  else if !fr.tiflags.ack then .error (.drop fr.x)
  else .ok fr

/-- An ack in `SYN_RECEIVED`. -/
def acceptSyn (fr : Frame) : Except Stop Frame :=
  let tp := fr.x.tp
  if tp.tState = .synReceived then
    if seqGt tp.sndUna fr.ti.tiAck ∨ seqGt fr.ti.tiAck tp.sndMax then
      .error (.dropwithreset fr.x)
    else
      let x := (tcpReass { fr.x with tp.tState := .established } none).2
      .ok { fr with x := { x with tp.sndWl1 := seqAdd fr.ti.tiSeq (-1) } }
  else .ok fr

/-- The third duplicate ack: the segment that was lost is sent again. -/
def fastRetransmit (gs : List Given) (x : Conn) (ack : Seq) (dupacks : ℤ) : Except Fault Conn :=
  if x.tp.tMaxseg = 0 then .error .panic
  else
    let onxt := x.tp.sndNxt
    let win := max (min x.tp.sndWnd x.tp.sndCwnd / 2 / x.tp.tMaxseg) 2
    do
      let x ← tcpOutput gs { x with tp := { x.tp with
        tDupacks := dupacks, sndSsthresh := ushort (win * x.tp.tMaxseg), tRexmt := 0, tRtt := 0
        sndNxt := ack, sndCwnd := x.tp.tMaxseg } }
      .ok { x with tp := { x.tp with
        sndCwnd := ushort (x.tp.sndSsthresh + x.tp.tMaxseg * x.tp.tDupacks)
        sndNxt := if seqGt onxt x.tp.sndNxt then onxt else x.tp.sndNxt } }

/-- An ack that acks nothing new. -/
def dupAck (gs : List Given) (fr : Frame) : Except Stop Frame :=
  let tp := fr.x.tp
  if fr.ti.tiLen = 0 ∧ fr.ti.tiWin = tp.sndWnd then
    if tp.tRexmt = 0 ∨ fr.ti.tiAck ≠ tp.sndUna then .ok { fr with x.tp.tDupacks := 0 }
    else
      let dupacks := short (tp.tDupacks + 1)
      if dupacks = rexmtthresh then do
        let x ← orFault (fastRetransmit gs fr.x fr.ti.tiAck dupacks)
        .error (.drop x)
      else if dupacks > rexmtthresh then do
        let x ← orFault (tcpOutput gs { fr.x with tp := { tp with
          tDupacks := dupacks, sndCwnd := ushort (tp.sndCwnd + tp.tMaxseg) } })
        .error (.drop x)
      else .ok { fr with x.tp.tDupacks := dupacks }
  else .ok { fr with x.tp.tDupacks := 0 }

/-- The congestion window that was inflated for duplicate acks is retracted. -/
def deflate (tp : Tcpcb) : Tcpcb :=
  let tp := if tp.tDupacks > rexmtthresh ∧ tp.sndCwnd > tp.sndSsthresh
    then { tp with sndCwnd := tp.sndSsthresh } else tp
  { tp with tDupacks := 0 }

/-- The congestion window opens. -/
def openCwnd (tp : Tcpcb) : Tcpcb :=
  let incr := if tp.sndCwnd > tp.sndSsthresh
    then tp.tMaxseg * tp.tMaxseg / tp.sndCwnd + tp.tMaxseg / 8 else tp.tMaxseg
  { tp with sndCwnd := min (tp.sndCwnd + incr) maxwin }

/-- The acked data leave the send buffer; whether the ack covers more than there is. -/
def dropAcked (x : Conn) (acked : ℤ) : Except Fault (Conn × Bool) :=
  let cc := x.so.soSnd.sbCc
  let n := if acked > cc then cc else acked
  do
    let soSnd ← sbdrop x.so.soSnd n
    .ok ({
      tp := { x.tp with sndWnd := ushort (x.tp.sndWnd - n) }
      so := { x.so with soSnd := soSnd } }, acked > cc)

/-- `soisdisconnected`. -/
def soisdisconnected (so : Socket) : Socket := { so with cantRcvMore := true, cantSendMore := true }

/-- `tcp_canceltimers`. -/
def canceltimers (tp : Tcpcb) : Tcpcb :=
  { tp with tRexmt := 0, tPersist := 0, tKeep := 0, t2msl := 0 }

/-- The states in which an ack of the FIN matters. -/
def ackFin (fr : Frame) (ourfinisacked : Bool) : Except Stop Frame :=
  let x := fr.x
  match x.tp.tState with
  | .finWait1 =>
    if ourfinisacked then
      let x := if x.so.cantRcvMore
        then { tp := { x.tp with t2msl := maxidle }, so := soisdisconnected x.so } else x
      .ok { fr with x := { x with tp.tState := .finWait2 } }
    else .ok fr
  | .closing =>
    if ourfinisacked then
      .ok { fr with x := {
        tp := { canceltimers x.tp with tState := .timeWait, t2msl := twoMsl }
        so := soisdisconnected x.so } }
    else .ok fr
  | .lastAck => if ourfinisacked then .error (.drop none) else .ok fr
  | .timeWait => .error (.dropafterack { x with tp.t2msl := twoMsl })
  | _ => .ok fr

/-- An ack of new data. -/
def newAck (fr : Frame) : Except Stop Frame :=
  let ack := fr.ti.tiAck
  let tp := deflate fr.x.tp
  if seqGt ack tp.sndMax then .error (.dropafterack { fr.x with tp := tp })
  else
    let acked := seqDiff ack tp.sndUna
    let tp := timeAck tp ack
    let all : Bool := ack = tp.sndMax
    let tp := openCwnd (restartRexmt tp all)
    do
      let r ← orFault (dropAcked { fr.x with tp := tp } acked)
      let tp := { r.1.tp with sndUna := ack }
      let tp := if seqLt tp.sndNxt tp.sndUna then { tp with sndNxt := tp.sndUna } else tp
      ackFin { fr with x := { r.1 with tp := tp }, needoutput := fr.needoutput || all } r.2

def ackProcessing (gs : List Given) (fr : Frame) : Except Stop Frame :=
  if seqLeq fr.ti.tiAck fr.x.tp.sndUna then dupAck gs fr else newAck fr

/-- The window information of a segment is newer than the one known. -/
def updatesWindow (fr : Frame) : Bool :=
  let tp := fr.x.tp
  fr.tiflags.ack && (seqLt tp.sndWl1 fr.ti.tiSeq || tp.sndWl1 = fr.ti.tiSeq &&
    (seqLt tp.sndWl2 fr.ti.tiAck || tp.sndWl2 = fr.ti.tiAck && fr.ti.tiWin > tp.sndWnd))

def step6 (fr : Frame) : Frame :=
  if updatesWindow fr then
    { fr with
      x.tp := { fr.x.tp with
        sndWnd := fr.ti.tiWin, sndWl1 := fr.ti.tiSeq, sndWl2 := fr.ti.tiAck
        maxSndwnd := max fr.x.tp.maxSndwnd fr.ti.tiWin }
      needoutput := true }
  else fr

/-- The mbufs without the byte at `cnt`, and that byte. -/
def pullByte (cnt : ℕ) : List Mbuf → Option (UInt8 × List Mbuf)
  | [] => none
  | m :: l =>
    match m.data[cnt]? with
    | some c => some (c, { m with data := m.data.eraseIdx cnt } :: l)
    | none => (pullByte (cnt - m.data.length) l).map fun r => (r.1, m :: r.2)

/-- `tcp_pulloutofband`. -/
def pulloutofband (fr : Frame) : Except Stop Frame :=
  if fr.ti.tiUrp = 0 then .error (.fault .panic)
  else
    match pullByte (fr.ti.tiUrp - 1) fr.ti.m with
    | none => .error (.fault .panic)
    | some (c, m) =>
      .ok { fr with
        x.tp := { fr.x.tp with tIobc := c, oobHaveData := true }
        ti := { fr.ti with m := m } }

/-- The urgent pointer of the segment advances the known one. -/
def markUrgent (x : Conn) (up : Seq) : Conn :=
  if seqGt up x.tp.rcvUp then
    let oobmark := x.so.soRcv.sbCc + seqDiff up x.tp.rcvNxt - 1
    { tp := { x.tp with rcvUp := up, oobHaveData := false, oobHadData := false }
      so := { x.so with soOobmark := oobmark, rcvAtMark := x.so.rcvAtMark || oobmark = 0 } }
  else x

/-- Segments with URG. -/
def urgent (fr : Frame) : Except Stop Frame :=
  let tp := fr.x.tp
  let urp := fr.ti.tiUrp
  if fr.tiflags.urg ∧ urp ≠ 0 ∧ tp.tState.haveRcvdFin = false then
    if urp + fr.x.so.soRcv.sbCc > sbMax then
      .ok { fr with ti := { fr.ti with tiUrp := 0 }, tiflags := { fr.tiflags with urg := false } }
    else
      let fr := { fr with x := markUrgent fr.x (seqAdd fr.ti.tiSeq urp) }
      if (urp : ℤ) ≤ fr.ti.tiLen ∧ !fr.x.so.oobInline then pulloutofband fr else .ok fr
  else if seqGt tp.rcvNxt tp.rcvUp then .ok { fr with x.tp.rcvUp := tp.rcvNxt }
  else .ok fr

/-- The text of the segment. -/
def dodata (fr : Frame) : Frame :=
  if (fr.ti.tiLen ≠ 0 ∨ fr.tiflags.fin) ∧ fr.x.tp.tState.haveRcvdFin = false then
    let r := TCP_REASS fr.x fr.ti
    { fr with x := r.2, tiflags := ⟨r.1, false, false, false, false, false⟩ }
  else { fr with tiflags := { fr.tiflags with fin := false } }

/-- What a FIN makes of the state. -/
def finState (x : Conn) : Conn :=
  match x.tp.tState with
  | .synReceived | .established => { x with tp.tState := .closeWait }
  | .finWait1 => { x with tp.tState := .closing }
  | .finWait2 =>
    { tp := { canceltimers x.tp with tState := .timeWait, t2msl := twoMsl }
      so := soisdisconnected x.so }
  | .timeWait => { x with tp.t2msl := twoMsl }
  | _ => x

/-- A FIN that has been received. -/
def finish (fr : Frame) : Frame :=
  if fr.tiflags.fin then
    let x := fr.x
    let x := if x.tp.tState.haveRcvdFin = false then
        { tp := { x.tp with ackNow := true, rcvNxt := seqAdd x.tp.rcvNxt 1 }
          so := { x.so with cantRcvMore := true } }
      else x
    { fr with x := finState x }
  else fr

/-- The general path from `step6` on. -/
def fromStep6 (fr : Frame) : Except Stop Frame := do
  let fr ← urgent (step6 fr)
  .ok (finish (dodata fr))

/-- The general path of a connection that has received a SYN, up to the output at its end. -/
def generalPath (gs : List Given) (x : Conn) (ti : Tcpiphdr) : Except Stop Frame := do
  let fr ← trimFrontOf
    { x := { x with tp.rcvWnd := rcvWindow x }, ti := ti, tiflags := ti.tiFlags, needoutput := false }
  let fr ← checkGone fr
  let fr ← trimEnd fr
  let fr ← checkFlags gs fr
  let fr ← acceptSyn fr
  let fr ← ackProcessing gs fr
  fromStep6 fr

/-! ## Connections without a SYN -/

/-- What `tcp_input` gets: whether the packet was broadcast, the values that `tcp_mss` leaves for
an option, whether there is an mbuf for the address, the connection can be made and there is a
template, the initial send sequence number, and what `tcp_output` gets. -/
structure Env where
  bcast : Bool
  opts : Option Tuning
  address : Bool
  connected : Bool
  template : Bool
  iss : Seq
  given : List Given
  deriving DecidableEq, Repr

def dooptions (e : Env) (x : Conn) : Conn :=
  match e.opts with
  | none => x
  | some t => tcpMss x t

/-- `tcp_rcvseqinit`. -/
def rcvseqinit (tp : Tcpcb) : Tcpcb :=
  { tp with rcvAdv := seqAdd tp.irs 1, rcvNxt := seqAdd tp.irs 1 }

/-- `tcp_sendseqinit`. -/
def sendseqinit (tp : Tcpcb) : Tcpcb :=
  { tp with sndUna := tp.iss, sndNxt := tp.iss, sndMax := tp.iss, sndUp := tp.iss }

/-- From `trimthenstep6` on. -/
def trimThenStep6 (fr : Frame) : Except Stop Frame :=
  let fr := { fr with ti := { fr.ti with tiSeq := seqAdd fr.ti.tiSeq 1 } }
  let fr := if fr.ti.tiLen > fr.x.tp.rcvWnd then
      { fr with
        ti := { fr.ti with
          m := mAdjTail fr.ti.m (fr.ti.tiLen - fr.x.tp.rcvWnd), tiLen := fr.x.tp.rcvWnd }
        tiflags := { fr.tiflags with fin := false } }
    else fr
  fromStep6 { fr with
    x.tp := { fr.x.tp with sndWl1 := seqAdd fr.ti.tiSeq (-1), rcvUp := fr.ti.tiSeq } }

/-- A segment in `LISTEN`; a segment that is dropped takes the new socket with it. -/
def listenPath (e : Env) (fr : Frame) : Except Stop Frame :=
  if fr.tiflags.rst then .error (.drop none)
  else if fr.tiflags.ack then .error (.dropwithreset none)
  else if !fr.tiflags.syn then .error (.drop none)
  else if e.bcast ∨ !e.address ∨ !e.connected ∨ !e.template then .error (.drop none)
  else
    let x := dooptions e { fr.x with tp.template := true }
    let tp := rcvseqinit (sendseqinit { x.tp with iss := e.iss, irs := fr.ti.tiSeq })
    trimThenStep6 { fr with
      x := { x with tp := { tp with ackNow := true, tState := .synReceived, tKeep := keepInit } } }

/-- A segment in `SYN_SENT`. -/
def synSentPath (gs : List Given) (fr : Frame) : Except Stop Frame :=
  let tp := fr.x.tp
  let ack := fr.ti.tiAck
  if fr.tiflags.ack ∧ (seqLeq ack tp.iss ∨ seqGt ack tp.sndMax) then .error (.dropwithreset fr.x)
  else if fr.tiflags.rst then
    if fr.tiflags.ack then do
      orFault (tcpDrop gs fr.x)
      .error (.drop none)
    else .error (.drop fr.x)
  else if !fr.tiflags.syn then .error (.drop fr.x)
  else
    let tp := if fr.tiflags.ack then
        { tp with sndUna := ack, sndNxt := if seqLt tp.sndNxt ack then ack else tp.sndNxt }
      else tp
    let tp := { rcvseqinit { tp with tRexmt := 0, irs := fr.ti.tiSeq } with ackNow := true }
    if fr.tiflags.ack ∧ seqGt tp.sndUna tp.iss then
      let x := (tcpReass { fr.x with tp := { tp with tState := .established } } none).2
      let tp := if x.tp.tRtt ≠ 0 then xmitTimer x.tp else x.tp
      trimThenStep6 { fr with x := { x with tp := tp } }
    else trimThenStep6 { fr with x := { fr.x with tp := { tp with tState := .synReceived } } }

/-! ## The function -/

/-- The general path behind the header prediction. -/
def slowPath (e : Env) (x : Conn) (ti : Tcpiphdr) : Except Stop Frame :=
  let fr : Frame :=
    { x := { x with tp.rcvWnd := rcvWindow x }, ti := ti, tiflags := ti.tiFlags, needoutput := false }
  match x.tp.tState with
  | .listen => listenPath e fr
  | .synSent => synSentPath e.given fr
  | _ => generalPath e.given x ti

/-- What is left at the end of the general path or where it was left; `none` when the connection
is gone. -/
def conclude (gs : List Given) (rst : Bool) : Except Stop Frame → Except Fault (Option Conn)
  | .ok fr =>
    if fr.needoutput ∨ fr.x.tp.ackNow then some <$> tcpOutput gs fr.x else .ok (some fr.x)
  | .error (.dropafterack x) =>
    if rst then .ok (some x) else some <$> tcpOutput gs { x with tp.ackNow := true }
  | .error (.drop x) => .ok x
  | .error (.dropwithreset x) => .ok x
  | .error (.findpcb _) => .ok none
  | .error (.fault f) => .error f

/-- `tcp_input` from the control block on. -/
def tcpInput (e : Env) (x : Conn) (ti : Tcpiphdr) : Except Fault (Option Conn) :=
  if x.tp.tState = .closed then .ok (some x)
  else
    let x := { x with tp := { x.tp with tIdle := 0, tKeep := keepidle } }
    let x := if x.tp.tState = .listen then x else dooptions e x
    match fastPath x ti with
    | some r => do
      let r ← r
      if r.2 then some <$> tcpOutput e.given r.1 else .ok (some r.1)
    | none => conclude e.given ti.tiFlags.rst (slowPath e x ti)

end Tcp
