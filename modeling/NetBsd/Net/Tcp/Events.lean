import NetBsd.Net.Tcp.Input

/-!
# What happens to a TCP connection

Besides the segments of `tcp_input`: the timers of `netinet/tcp_timer.c`, and the user requests of
`netinet/tcp_usrreq.c` on a socket that a process has got from `accept`.

## Main definitions

* `tcpTimers`: the timers when they go off
* `slowtimo`, `fasttimo`: the two clocks for one connection
* `tcpUsrclosed`, `tcpDisconnect`: the process closes its side
* `Event`, `step`: everything that happens to a connection
-/

namespace Tcp

open Mbuf Sockbuf

/-! ## Timers -/

/-- The retransmit timer. -/
def timerRexmt (gs : List Given) (x : Conn) : Except Fault (Option Conn) :=
  let shift := x.tp.tRxtshift + 1
  if shift > maxrxtshift then do
    tcpDrop gs { x with tp.tRxtshift := maxrxtshift }
    .ok none
  else if x.tp.tMaxseg = 0 then .error .panic
  else
    let rexmt := (x.tp.tSrtt / 8 + x.tp.tRttvar) * backoff shift
    let cur := rangeset rexmt x.tp.tRttmin rexmtmax
    let tp := { x.tp with tRxtshift := shift, tRxtcur := cur, tRexmt := cur }
    let tp := if shift > maxrxtshift / 4
      then { tp with tRttvar := short (tp.tRttvar + tp.tSrtt / 8), tSrtt := 0 } else tp
    let win : ℕ := max (min tp.sndWnd tp.sndCwnd / 2 / tp.tMaxseg) 2
    some <$> tcpOutput gs { x with tp := { tp with
      sndNxt := tp.sndUna, tRtt := 0, sndCwnd := tp.tMaxseg
      sndSsthresh := ushort (win * tp.tMaxseg), tDupacks := 0 } }

/-- `tcp_output` with `t_force` set. -/
def forceOutput (gs : List Given) (x : Conn) : Except Fault Conn := do
  let y ← tcpOutput gs { x with tp.tForce := true }
  .ok { y with tp.tForce := false }

/-- The persist timer. -/
def timerPersist (gs : List Given) (x : Conn) : Except Fault (Option Conn) := do
  let tp ← tcpSetpersist x.tp
  some <$> forceOutput gs { x with tp := tp }

/-- The keep-alive timer; the probe it sends changes nothing. -/
def timerKeep (gs : List Given) (x : Conn) : Except Fault (Option Conn) :=
  let drop : Except Fault (Option Conn) := do
    tcpDrop gs x
    .ok none
  if x.tp.tState.ctorIdx < TState.established.ctorIdx then drop
  else if x.so.keepAlive ∧ x.tp.tState.ctorIdx ≤ TState.closeWait.ctorIdx then
    if x.tp.tIdle ≥ keepidle + maxidle then drop else .ok (some { x with tp.tKeep := keepintvl })
  else .ok (some { x with tp.tKeep := keepidle })

/-- The timer of `TIME_WAIT`, which also watches `FIN_WAIT_2`. -/
def timer2msl (x : Conn) : Option Conn :=
  if x.tp.tState ≠ .timeWait ∧ x.tp.tIdle ≤ maxidle then some { x with tp.t2msl := keepintvl }
  else none

/-- A timer counts down and goes off at zero. -/
def countdown (get : Tcpcb → ℤ) (put : ℤ → Tcpcb → Tcpcb)
    (off : Conn → Except Fault (Option Conn)) : Option Conn → Except Fault (Option Conn)
  | none => .ok none
  | some x =>
    if get x.tp = 0 then .ok (some x)
    else
      let t := short (get x.tp - 1)
      let x := { x with tp := put t x.tp }
      if t = 0 then off x else .ok (some x)

/-- `tcp_slowtimo` for one connection; `gs` is what the output of each timer gets. -/
def slowtimo (gs : Fin 3 → List Given) (x : Conn) : Except Fault (Option Conn) := do
  let c ← countdown Tcpcb.tRexmt (fun t tp => { tp with tRexmt := t }) (timerRexmt (gs 0)) (some x)
  let c ← countdown Tcpcb.tPersist (fun t tp => { tp with tPersist := t }) (timerPersist (gs 1)) c
  let c ← countdown Tcpcb.tKeep (fun t tp => { tp with tKeep := t }) (timerKeep (gs 2)) c
  let c ← countdown Tcpcb.t2msl (fun t tp => { tp with t2msl := t }) (fun x => .ok (timer2msl x)) c
  .ok (c.map fun x => { x with tp := { x.tp with
    tIdle := short (x.tp.tIdle + 1)
    tRtt := if x.tp.tRtt ≠ 0 then short (x.tp.tRtt + 1) else 0 } })

/-- `tcp_fasttimo` for one connection. -/
def fasttimo (gs : List Given) (x : Conn) : Except Fault Conn :=
  if x.tp.delAck then
    tcpOutput gs { x with tp := { x.tp with delAck := false, ackNow := true } }
  else .ok x

/-! ## User requests -/

/-- `tcp_usrclosed` for a connection that is established. -/
def tcpUsrclosed (x : Conn) : Conn :=
  let tp := match x.tp.tState with
    | .established => { x.tp with tState := .finWait1 }
    | .closeWait => { x.tp with tState := .lastAck }
    | _ => x.tp
  { tp := tp
    so := if tp.tState.ctorIdx ≥ TState.finWait2.ctorIdx then soisdisconnected x.so else x.so }

/-- `tcp_disconnect` for a connection that is established and does not linger; `k` bounds the
turns of `sbflush`. -/
def tcpDisconnect (k : ℕ) (gs : List Given) (x : Conn) : Except Fault Conn := do
  let soRcv ← sbflush k x.so.soRcv
  let so := { x.so with soRcv := soRcv, cantRcvMore := true, cantSendMore := true }
  tcpOutput gs (tcpUsrclosed { x with so := so })

/-- What happens to a connection: a segment arrives, a process reads from the receive buffer, sends,
sends out of band, shuts the connection down for sending, disconnects or aborts it, the congestion
window is quenched, output is asked for, and the two clocks tick. -/
inductive Event where
  | segment (e : Env) (ti : Tcpiphdr)
  | rcvd (soRcv : Sockbuf) (gs : List Given)
  | send (m : List Mbuf) (gs : List Given)
  | sendoob (m : List Mbuf) (gs : List Given)
  | shutdown (gs : List Given)
  | disconnect (k : ℕ) (gs : List Given)
  | abort (gs : List Given)
  | quench
  | output (gs : List Given)
  | fasttimo (gs : List Given)
  | slowtimo (gs : Fin 3 → List Given)

/-- The connection after an event; `none` when it is gone. -/
def step (x : Conn) : Event → Except Fault (Option Conn)
  | .segment e ti => tcpInput e x ti
  | .rcvd soRcv gs => some <$> tcpOutput gs { x with so.soRcv := soRcv }
  | .send m gs => some <$> tcpOutput gs { x with so.soSnd := sbappend x.so.soSnd m }
  | .sendoob m gs =>
    if sbspace x.so.soSnd < -512 then .ok (some x)
    else
      let soSnd := sbappend x.so.soSnd m
      some <$> forceOutput gs {
        tp := { x.tp with sndUp := seqAdd x.tp.sndUna soSnd.sbCc }
        so := { x.so with soSnd := soSnd } }
  | .shutdown gs => some <$> tcpOutput gs (tcpUsrclosed { x with so.cantSendMore := true })
  | .disconnect k gs => some <$> tcpDisconnect k gs x
  | .abort gs => do
    tcpDrop gs x
    .ok none
  | .quench => .ok (some { x with tp := tcpQuench x.tp })
  | .output gs => some <$> tcpOutput gs x
  | .fasttimo gs => some <$> fasttimo gs x
  | .slowtimo gs => slowtimo gs x

end Tcp
