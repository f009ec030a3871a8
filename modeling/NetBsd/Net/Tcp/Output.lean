import NetBsd.Net.Tcp.Tcb

/-!
# TCP output

`tcp_output` and `tcp_setpersist` of `netinet/tcp_output.c`, as changes of the connection. What a
turn of `tcp_output` gets from the rest of the kernel is an input: the mbufs, the error of
`ip_output`, and the values that `tcp_mss` takes from the route.

## Main definitions

* `plan`: what a turn may send, up to the decision to send
* `wantsSend`: the decision
* `transmit`: the changes of the control block for a segment that is sent
* `tcpOutput`: all turns

## Main results

* `tcpOutput_kept`: what `tcp_output` leaves alone
-/

namespace Tcp

open Sockbuf

/-- The fields that `tcp_mss` sets, with the values that they have behind it. -/
structure Tuning where
  tMaxseg : ℕ
  sndCwnd : ℕ
  sndSsthresh : ℕ
  tSrtt : ℤ
  tRttvar : ℤ
  tRttmin : ℤ
  tRxtcur : ℤ
  sndHiwat : ℤ
  sndMbmax : ℤ
  rcvHiwat : ℤ
  rcvMbmax : ℤ
  deriving DecidableEq, Repr

/-- `tcp_mss`, as far as the connection is concerned. -/
def tcpMss (x : Conn) (t : Tuning) : Conn where
  tp := { x.tp with
    tMaxseg := t.tMaxseg, sndCwnd := t.sndCwnd, sndSsthresh := t.sndSsthresh
    tSrtt := t.tSrtt, tRttvar := t.tRttvar, tRttmin := t.tRttmin, tRxtcur := t.tRxtcur }
  so := { x.so with
    soSnd := { x.so.soSnd with sbHiwat := t.sndHiwat, sbMbmax := t.sndMbmax }
    soRcv := { x.so.soRcv with sbHiwat := t.rcvHiwat, sbMbmax := t.rcvMbmax } }

/-- What a turn of `tcp_output` gets: whether there is an mbuf for the header, whether `m_copy`
copies the data, what `tcp_mss` makes of the connection, and the error of `ip_output`. -/
structure Given where
  header : Bool
  copied : Bool
  mss : Tuning
  error : ℤ
  deriving DecidableEq, Repr

/-- `ENOBUFS`. -/
def enobufs : ℤ := 55

/-- `EHOSTUNREACH` and `ENETDOWN`. -/
def softErrors : List ℤ := [65, 50]

/-- `MHLEN - hdrlen - max_linkhdr`, with sixteen bytes for the link header. -/
def inHeader (hdrlen : ℤ) : ℤ := 100 - hdrlen - 16

/-- `tcp_outflags`: of `TH_FIN`, `TH_SYN` and `TH_RST`, with `TH_ACK`. -/
def outflags : TState → Flags
  | .closed => ⟨false, false, true, false, true, false⟩
  | .listen => ⟨false, false, false, false, false, false⟩
  | .synSent => ⟨false, true, false, false, false, false⟩
  | .synReceived => ⟨false, true, false, false, true, false⟩
  | .established | .closeWait | .finWait2 | .timeWait => ⟨false, false, false, false, true, false⟩
  | .finWait1 | .closing | .lastAck => ⟨true, false, false, false, true, false⟩

def tcpSetpersist (tp : Tcpcb) : Except Fault Tcpcb :=
  if tp.tRexmt ≠ 0 then .error .panic
  else
    let t := (tp.tSrtt / 4 + tp.tRttvar) / 2
    let tp := { tp with tPersist := rangeset (t * backoff tp.tRxtshift) 10 120 }
    .ok (if tp.tRxtshift < maxrxtshift then { tp with tRxtshift := tp.tRxtshift + 1 } else tp)

/-- The variables of a turn at the decision to send; `tp` is the control block as it is then. -/
structure Turn where
  tp : Tcpcb
  off : ℤ
  len : ℤ
  flags : Flags
  sendalot : Bool

/-- The send window; in persist state one byte of a closed window. -/
def openWindow (tp : Tcpcb) : Tcpcb × ℕ :=
  let win := min tp.sndWnd tp.sndCwnd
  if tp.tForce then
    if win = 0 then (tp, 1) else ({ tp with tPersist := 0, tRxtshift := 0 }, win)
  else (tp, win)

/-- The window shrank after the connection sent into it. -/
def pullBack (tp : Tcpcb) (len : ℤ) (win : ℕ) : Tcpcb :=
  if len < 0 ∧ win = 0 then { tp with tRexmt := 0, sndNxt := tp.sndUna } else tp

/-- What a turn may send. -/
def plan (x : Conn) : Turn :=
  let off := seqDiff x.tp.sndNxt x.tp.sndUna
  let w := openWindow x.tp
  let len := long (min x.so.soSnd.sbCc w.2 - off)
  let tp := pullBack w.1 len w.2
  let flags := outflags tp.tState
  let sendalot := max len 0 > tp.tMaxseg
  let len := min (max len 0) tp.tMaxseg
  { tp := tp, off := off, len := len, sendalot := sendalot
    flags := if seqLt (seqAdd tp.sndNxt len) (seqAdd tp.sndUna x.so.soSnd.sbCc)
      then { flags with fin := false } else flags }

/-- The decision to send. -/
def wantsSend (t : Turn) (so : Socket) (idle : Bool) : Prop :=
  let win := sbspace so.soRcv
  let adv := long (win - seqDiff t.tp.rcvAdv t.tp.rcvNxt)
  (t.len ≠ 0 ∧
    (t.len = t.tp.tMaxseg ∨ ((idle ∨ t.tp.noDelay) ∧ t.len + t.off ≥ so.soSnd.sbCc) ∨ t.tp.tForce ∨
      t.len ≥ t.tp.maxSndwnd / 2 ∨ seqLt t.tp.sndNxt t.tp.sndMax)) ∨
  (win > 0 ∧ (adv ≥ 2 * t.tp.tMaxseg ∨ 2 * adv ≥ so.soRcv.sbHiwat)) ∨
  t.tp.ackNow ∨ t.flags.syn ∨ t.flags.rst ∨ seqGt t.tp.sndUp t.tp.sndUna ∨
  (t.flags.fin ∧ (!t.tp.sentFin ∨ t.tp.sndNxt = t.tp.sndUna))

instance (t : Turn) (so : Socket) (idle : Bool) : Decidable (wantsSend t so idle) :=
  inferInstanceAs (Decidable (_ ∨ _))

/-- A FIN that is sent again has no new sequence number. -/
def resendFin (tp : Tcpcb) (flags : Flags) : Tcpcb :=
  if flags.fin ∧ tp.sentFin ∧ tp.sndNxt = tp.sndMax then { tp with sndNxt := tp.sndNxt - 1 } else tp

/-- The urgent pointer is dragged along the window. -/
def dragUp (tp : Tcpcb) : Tcpcb :=
  if seqGt tp.sndUp tp.sndNxt then tp else { tp with sndUp := tp.sndUna }

/-- The highest sequence number sent; the transmission is timed when nothing else is. -/
def advanceMax (tp : Tcpcb) (startseq : Seq) : Tcpcb :=
  if seqGt tp.sndNxt tp.sndMax then
    let tp := { tp with sndMax := tp.sndNxt }
    if tp.tRtt = 0 then { tp with tRtt := 1, tRtseq := startseq } else tp
  else tp

/-- The retransmit timer is set unless it runs. -/
def startRexmt (tp : Tcpcb) : Tcpcb :=
  if tp.tRexmt = 0 ∧ tp.sndNxt ≠ tp.sndUna then
    let tp := { tp with tRexmt := tp.tRxtcur }
    if tp.tPersist ≠ 0 then { tp with tPersist := 0, tRxtshift := 0 } else tp
  else tp

/-- `snd_nxt` moves over the segment. -/
def advanceNxt (tp : Tcpcb) (flags : Flags) (len : ℤ) : Tcpcb :=
  { tp with
    sndNxt := seqAdd tp.sndNxt ((if flags.syn then 1 else 0) + (if flags.fin then 1 else 0) + len)
    sentFin := tp.sentFin || flags.fin }

/-- The control block for a segment of `len` bytes. -/
def transmit (tp : Tcpcb) (flags : Flags) (len : ℤ) : Tcpcb :=
  let tp := dragUp (resendFin tp flags)
  if !tp.tForce ∨ tp.tPersist = 0 then
    startRexmt (advanceMax (advanceNxt tp flags len) tp.sndNxt)
  else if seqGt (seqAdd tp.sndNxt len) tp.sndMax then { tp with sndMax := seqAdd tp.sndNxt len }
  else tp

/-- The receive window of a segment, which does not shrink and avoids the silly window
syndrome. -/
def sendWindow (tp : Tcpcb) (win hiwat : ℤ) : ℤ :=
  let win := if win < hiwat / 4 ∧ win < tp.tMaxseg then 0 else win
  max (min win maxwin) (seqDiff tp.rcvAdv tp.rcvNxt)

/-- The segment is sent as far as one can tell. -/
def advertise (tp : Tcpcb) (win : ℤ) : Tcpcb :=
  let tp := if win > 0 ∧ seqGt (seqAdd tp.rcvNxt win) tp.rcvAdv
    then { tp with rcvAdv := seqAdd tp.rcvNxt win } else tp
  { tp with ackNow := false, delAck := false }

/-- `tcp_quench`. -/
def tcpQuench (tp : Tcpcb) : Tcpcb := { tp with sndCwnd := tp.tMaxseg }

/-- `tcp_output` from `send` on, with the variables of the turn and the space of the receive
buffer: the connection, and whether there is more to send. -/
def send (x : Conn) (t : Turn) (win : ℤ) (g : Given) : Except Fault (Conn × Bool) :=
  let opt : Bool := t.flags.syn && !x.tp.noOpt
  let x := if opt then tcpMss x g.mss else x
  if !g.header then .ok ({ x with tp := tcpQuench x.tp }, false)
  else if t.len ≠ 0 ∧ (t.off < 0 ∨ x.so.soSnd.sbCc < t.off + t.len) then
    -- `m_copydata` and `m_copy` run out of the chain
    .error .panic
  else if !x.tp.template then .error .panic
  else
    let len := if t.len ≤ inHeader (if opt then 44 else 40) ∨ g.copied then t.len else 0
    let win := sendWindow x.tp win x.so.soRcv.sbHiwat
    let tp := transmit x.tp t.flags len
    if g.error = enobufs then .ok ({ x with tp := tcpQuench tp }, false)
    else if g.error ∈ softErrors ∧ tp.tState.haveRcvdSyn then
      .ok ({ x with tp := { tp with tSofterror := g.error } }, false)
    else if g.error ≠ 0 then .ok ({ x with tp := tp }, false)
    else .ok ({ x with tp := advertise tp win }, t.sendalot)

/-- A turn of `tcp_output` from `again` on. -/
def outputTurn (x : Conn) (idle : Bool) (g : Given) : Except Fault (Conn × Bool) :=
  let t := plan x
  let x := { x with tp := t.tp }
  if wantsSend t x.so idle then send x t (sbspace x.so.soRcv) g
  else if x.so.soSnd.sbCc ≠ 0 ∧ t.tp.tRexmt = 0 ∧ t.tp.tPersist = 0 then do
    let tp ← tcpSetpersist { t.tp with tRxtshift := 0 }
    .ok ({ x with tp := tp }, false)
  else .ok (x, false)

/-- The turns of `tcp_output`. -/
def outputLoop (x : Conn) (idle : Bool) : List Given → Except Fault Conn
  | [] => .error .loop
  | g :: gs => do
    let r ← outputTurn x idle g
    if r.2 then outputLoop r.1 idle gs else .ok r.1

/-- `tcp_output`, with what its turns get. -/
def tcpOutput (gs : List Given) (x : Conn) : Except Fault Conn :=
  let idle := x.tp.sndMax = x.tp.sndUna
  let tp := if idle ∧ x.tp.tIdle ≥ x.tp.tRxtcur then { x.tp with sndCwnd := x.tp.tMaxseg } else x.tp
  outputLoop { x with tp := tp } idle gs

/-! ## What output leaves alone -/

/-- The buffers hold the same mbufs. -/
structure SameData (a b : Sockbuf) : Prop where
  cc : a.sbCc = b.sbCc
  mbcnt : a.sbMbcnt = b.sbMbcnt
  mb : a.sbMb = b.sbMb
  lock : a.sbLock = b.sbLock

/-- What a control block keeps through `tcp_output`. -/
structure KeptTp (a b : Tcpcb) : Prop where
  segs : a.segs = b.segs
  tState : a.tState = b.tState
  rcvNxt : a.rcvNxt = b.rcvNxt
  sndUna : a.sndUna = b.sndUna
  sndWnd : a.sndWnd = b.sndWnd
  tForce : a.tForce = b.tForce

/-- What a connection keeps through `tcp_output`. -/
structure Kept (x y : Conn) : Prop where
  tp : KeptTp x.tp y.tp
  soSnd : SameData x.so.soSnd y.so.soSnd
  soRcv : SameData x.so.soRcv y.so.soRcv
  cantRcvMore : x.so.cantRcvMore = y.so.cantRcvMore
  cantSendMore : x.so.cantSendMore = y.so.cantSendMore

variable {x y z : Conn} {a b c : Tcpcb}

theorem SameData.refl (s : Sockbuf) : SameData s s := ⟨rfl, rfl, rfl, rfl⟩

theorem SameData.trans {s t u : Sockbuf} (h : SameData s t) (h' : SameData t u) : SameData s u :=
  ⟨h.cc.trans h'.cc, h.mbcnt.trans h'.mbcnt, h.mb.trans h'.mb, h.lock.trans h'.lock⟩

theorem KeptTp.refl (a : Tcpcb) : KeptTp a a := ⟨rfl, rfl, rfl, rfl, rfl, rfl⟩

theorem KeptTp.trans (h : KeptTp a b) (h' : KeptTp b c) : KeptTp a c :=
  ⟨h.segs.trans h'.segs, h.tState.trans h'.tState, h.rcvNxt.trans h'.rcvNxt,
    h.sndUna.trans h'.sndUna, h.sndWnd.trans h'.sndWnd, h.tForce.trans h'.tForce⟩

theorem Kept.refl (x : Conn) : Kept x x := ⟨KeptTp.refl _, SameData.refl _, SameData.refl _, rfl, rfl⟩

theorem Kept.trans (h : Kept x y) (h' : Kept y z) : Kept x z :=
  ⟨h.tp.trans h'.tp, h.soSnd.trans h'.soSnd, h.soRcv.trans h'.soRcv,
    h.cantRcvMore.trans h'.cantRcvMore, h.cantSendMore.trans h'.cantSendMore⟩

/-- A change of the control block alone. -/
theorem Kept.of_tp {so : Socket} (h : KeptTp a b) : Kept ⟨a, so⟩ ⟨b, so⟩ :=
  ⟨h, SameData.refl _, SameData.refl _, rfl, rfl⟩

theorem tcpMss_kept (x : Conn) (t : Tuning) : Kept x (tcpMss x t) :=
  ⟨⟨rfl, rfl, rfl, rfl, rfl, rfl⟩, ⟨rfl, rfl, rfl, rfl⟩, ⟨rfl, rfl, rfl, rfl⟩, rfl, rfl⟩

theorem plan_kept (x : Conn) : KeptTp x.tp (plan x).tp := by
  simp only [plan, pullBack, openWindow]
  split <;> split <;> (try split) <;> exact ⟨rfl, rfl, rfl, rfl, rfl, rfl⟩

theorem resendFin_kept (a : Tcpcb) (flags : Flags) : KeptTp a (resendFin a flags) := by
  unfold resendFin
  split <;> exact ⟨rfl, rfl, rfl, rfl, rfl, rfl⟩

theorem dragUp_kept (a : Tcpcb) : KeptTp a (dragUp a) := by
  unfold dragUp
  split <;> exact ⟨rfl, rfl, rfl, rfl, rfl, rfl⟩

theorem advanceMax_kept (a : Tcpcb) (s : Seq) : KeptTp a (advanceMax a s) := by
  simp only [advanceMax]
  split
  · split <;> exact ⟨rfl, rfl, rfl, rfl, rfl, rfl⟩
  · exact KeptTp.refl a

theorem startRexmt_kept (a : Tcpcb) : KeptTp a (startRexmt a) := by
  simp only [startRexmt]
  split
  · split <;> exact ⟨rfl, rfl, rfl, rfl, rfl, rfl⟩
  · exact KeptTp.refl a

theorem transmit_kept (a : Tcpcb) (flags : Flags) (len : ℤ) : KeptTp a (transmit a flags len) := by
  have hstart := (resendFin_kept a flags).trans (dragUp_kept _)
  simp only [transmit]
  split
  · apply hstart.trans
    have hnxt (t : Tcpcb) : KeptTp t (advanceNxt t flags len) := ⟨rfl, rfl, rfl, rfl, rfl, rfl⟩
    exact ((hnxt _).trans (advanceMax_kept _ _)).trans (startRexmt_kept _)
  · split
    · exact hstart.trans ⟨rfl, rfl, rfl, rfl, rfl, rfl⟩
    · exact hstart

theorem advertise_kept (a : Tcpcb) (win : ℤ) : KeptTp a (advertise a win) := by
  simp only [advertise]
  split <;> exact ⟨rfl, rfl, rfl, rfl, rfl, rfl⟩

theorem tcpSetpersist_kept (h : tcpSetpersist a = .ok b) : KeptTp a b := by
  simp only [tcpSetpersist] at h
  split at h
  · cases h
  · split at h <;> cases h <;> exact ⟨rfl, rfl, rfl, rfl, rfl, rfl⟩

theorem tcpQuench_kept (a : Tcpcb) : KeptTp a (tcpQuench a) := ⟨rfl, rfl, rfl, rfl, rfl, rfl⟩

theorem softerror_kept (a : Tcpcb) (error : ℤ) : KeptTp a { a with tSofterror := error } :=
  ⟨rfl, rfl, rfl, rfl, rfl, rfl⟩

theorem send_kept {t : Turn} {win : ℤ} {g : Given} {r : Conn × Bool}
    (h : send x t win g = .ok r) : Kept x r.1 := by
  simp only [send] at h
  generalize hy : (if (t.flags.syn && !x.tp.noOpt) = true then tcpMss x g.mss else x) = y at h
  have hxy : Kept x y := by
    rw [← hy]
    split
    · exact tcpMss_kept x g.mss
    · exact Kept.refl x
  apply hxy.trans
  rcases y with ⟨tp, so⟩
  generalize (if t.len ≤ _ ∨ g.copied = true then t.len else 0) = len at h
  have htr := transmit_kept tp t.flags len
  split at h
  · cases h
    exact Kept.of_tp (tcpQuench_kept tp)
  · split at h
    · cases h
    · split at h
      · cases h
      · split at h
        · cases h
          exact Kept.of_tp (htr.trans (tcpQuench_kept _))
        · split at h
          · cases h
            exact Kept.of_tp (htr.trans (softerror_kept _ _))
          · split at h
            · cases h
              exact Kept.of_tp htr
            · cases h
              exact Kept.of_tp (htr.trans (advertise_kept _ _))

theorem outputTurn_kept {idle : Bool} {g : Given} {r : Conn × Bool}
    (h : outputTurn x idle g = .ok r) : Kept x r.1 := by
  rcases x with ⟨tp, so⟩
  have hplan : Kept ⟨tp, so⟩ ⟨(plan ⟨tp, so⟩).tp, so⟩ := Kept.of_tp (plan_kept ⟨tp, so⟩)
  simp only [outputTurn] at h
  apply hplan.trans
  split at h
  · exact send_kept h
  · split at h
    · rcases Fault.bind_eq_ok.mp h with ⟨tp', hset, hr⟩
      cases hr
      have hzero (a : Tcpcb) : KeptTp a { a with tRxtshift := 0 } := ⟨rfl, rfl, rfl, rfl, rfl, rfl⟩
      exact Kept.of_tp ((hzero _).trans (tcpSetpersist_kept hset))
    · cases h
      exact Kept.refl _

theorem outputLoop_kept {idle : Bool} {gs : List Given} (h : outputLoop x idle gs = .ok y) :
    Kept x y := by
  induction gs generalizing x with
  | nil => cases h
  | cons g gs ih =>
    rcases Fault.bind_eq_ok.mp h with ⟨r, hturn, hrest⟩
    have hkept := outputTurn_kept hturn
    split at hrest
    · exact hkept.trans (ih hrest)
    · cases hrest
      exact hkept

/-- `tcp_output` changes neither the data of the buffers nor the left edges of the windows. -/
theorem tcpOutput_kept {gs : List Given} (h : tcpOutput gs x = .ok y) : Kept x y := by
  rcases x with ⟨tp, so⟩
  simp only [tcpOutput] at h
  apply Kept.trans _ (outputLoop_kept h)
  apply Kept.of_tp
  split <;> exact ⟨rfl, rfl, rfl, rfl, rfl, rfl⟩

end Tcp
