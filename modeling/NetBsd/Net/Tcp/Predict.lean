import NetBsd.Net.Tcp.Input

/-!
# Header prediction

The fast path of `tcp_input` beside the general path with the prediction skipped. Both are
compared before the call of `tcp_output` that either may end with.

## Main definitions

* `Same`: two connections agree in what the paths are compared in
* `Agrees r s`: the outcomes `r` of the fast and `s` of the general path do

## Main results

* `fastPath_agrees_iff`: when the two paths agree
-/

namespace Tcp

open Mbuf Sockbuf

variable {x y : Conn} {ti : Tcpiphdr} {fr : Frame} {gs : List Given} {a : Tcpcb}
  {r : Except Fault (Conn × Bool)}

/-- The control blocks agree in the sequence variables, the state and the sequencing queue. -/
structure SameTp (a b : Tcpcb) : Prop where
  rcvNxt : a.rcvNxt = b.rcvNxt
  sndUna : a.sndUna = b.sndUna
  sndNxt : a.sndNxt = b.sndNxt
  sndMax : a.sndMax = b.sndMax
  tState : a.tState = b.tState
  segs : a.segs = b.segs

/-- The connections agree in these and in the bytes of the buffers. -/
structure Same (x y : Conn) : Prop where
  tp : SameTp x.tp y.tp
  soSnd : contents x.so.soSnd = contents y.so.soSnd
  soRcv : contents x.so.soRcv = contents y.so.soRcv

/-- The connection where the general path ends, if it ends with one. -/
def outcome : Except Stop Frame → Option Conn
  | .ok fr => some fr.x
  | .error (.dropafterack x) => some x
  | .error (.drop x) => x
  | .error (.dropwithreset x) => x
  | .error (.findpcb _) => none
  | .error (.fault _) => none

/-- Both paths end with a connection, and these agree. -/
def Agrees (r : Except Fault (Conn × Bool)) (s : Except Stop Frame) : Prop :=
  ∃ x b y, r = .ok (x, b) ∧ outcome s = some y ∧ Same x y

/-! ## The general path under the prediction -/

/-- The general path's frame at its start. -/
def start (x : Conn) (ti : Tcpiphdr) : Frame :=
  { x := { x with tp.rcvWnd := rcvWindow x }, ti := ti, tiflags := ti.tiFlags, needoutput := false }

theorem seqDiff_self (s : Seq) : seqDiff s s = 0 := by
  rw [seqDiff, BitVec.sub_self, BitVec.toInt_zero]

theorem seqAdd_zero (s : Seq) : seqAdd s 0 = s := by
  simp [seqAdd]

theorem rcvWindow_lt (x : Conn) : rcvWindow x < 2 ^ 16 := by
  unfold rcvWindow ushort
  omega

/-- An expected segment loses nothing in front. -/
theorem trimFrontOf_expected (h : fr.ti.tiSeq = fr.x.tp.rcvNxt) : trimFrontOf fr = .ok fr := by
  have hzero : ¬seqDiff fr.x.tp.rcvNxt fr.ti.tiSeq > 0 := by
    rw [h, seqDiff_self]
    decide
  exact if_neg hzero

theorem checkGone_established (h : fr.x.tp.tState = .established) : checkGone fr = .ok fr := by
  rw [checkGone, h, if_neg]
  rintro ⟨-, hlt, -⟩
  exact absurd hlt (by decide)

/-- What an expected segment has behind the window. -/
theorem todrop_expected (h : fr.ti.tiSeq = fr.x.tp.rcvNxt) (h0 : 0 ≤ fr.ti.tiLen)
    (hlen : fr.ti.tiLen < 2 ^ 15) (hwnd : fr.x.tp.rcvWnd < 2 ^ 16) :
    seqDiff (seqAdd fr.ti.tiSeq fr.ti.tiLen) (seqAdd fr.x.tp.rcvNxt fr.x.tp.rcvWnd) =
      fr.ti.tiLen - fr.x.tp.rcvWnd := by
  rw [h]
  exact seqDiff_seqAdd _ (by omega) (by omega)

/-- A segment that fits into the window keeps its end. -/
theorem trimEnd_fits (hfit : seqDiff (seqAdd fr.ti.tiSeq fr.ti.tiLen)
    (seqAdd fr.x.tp.rcvNxt fr.x.tp.rcvWnd) ≤ 0) : trimEnd fr = .ok fr :=
  if_neg (by omega)

/-- A segment that does not fit is cut to the window. -/
theorem trimEnd_cut (h : fr.ti.tiSeq = fr.x.tp.rcvNxt) (hlen : fr.ti.tiLen < 2 ^ 15)
    (hwnd : fr.x.tp.rcvWnd < 2 ^ 16) (hbig : (fr.x.tp.rcvWnd : ℤ) < fr.ti.tiLen) :
    ∃ ack, trimEnd fr = .ok (dropTrailing { fr with x.tp.ackNow := ack }
      (fr.ti.tiLen - fr.x.tp.rcvWnd)) := by
  have htodrop := todrop_expected h (by omega) hlen hwnd
  simp only [trimEnd, htodrop]
  rw [if_pos (by omega)]
  by_cases hclosed : fr.x.tp.rcvWnd = 0
  · have hnosyn : ¬(fr.tiflags.syn = true ∧ fr.x.tp.tState = .timeWait ∧
        seqGt fr.ti.tiSeq fr.x.tp.rcvNxt = true) := by
      rintro ⟨-, -, hgt⟩
      rw [h, seqGt, seqDiff_self] at hgt
      exact absurd hgt (by decide)
    rw [if_pos (by omega), if_neg hnosyn, if_pos ⟨hclosed, h⟩]
    exact ⟨true, rfl⟩
  · rw [if_neg (by omega)]
    exact ⟨fr.x.tp.ackNow, rfl⟩

/-- The flags of a predicted segment pass. -/
theorem checkFlags_ack (hrst : fr.tiflags.rst = false) (hsyn : fr.tiflags.syn = false)
    (hack : fr.tiflags.ack = true) : checkFlags gs fr = .ok fr := by
  simp [checkFlags, hrst, hsyn, hack]

theorem acceptSyn_established (h : fr.x.tp.tState = .established) : acceptSyn fr = .ok fr := by
  rw [acceptSyn, h, if_neg (by decide)]

/-! ### Acks -/

theorem SameTp.refl (a : Tcpcb) : SameTp a a := ⟨rfl, rfl, rfl, rfl, rfl, rfl⟩

theorem SameTp.trans {b c : Tcpcb} (h : SameTp a b) (h' : SameTp b c) : SameTp a c :=
  ⟨h.rcvNxt.trans h'.rcvNxt, h.sndUna.trans h'.sndUna, h.sndNxt.trans h'.sndNxt,
    h.sndMax.trans h'.sndMax, h.tState.trans h'.tState, h.segs.trans h'.segs⟩

theorem SameTp.symm {b : Tcpcb} (h : SameTp a b) : SameTp b a :=
  ⟨h.rcvNxt.symm, h.sndUna.symm, h.sndNxt.symm, h.sndMax.symm, h.tState.symm, h.segs.symm⟩

theorem timeAck_same (a : Tcpcb) (ack : Seq) : SameTp a (timeAck a ack) := by
  unfold timeAck xmitTimer
  split <;> exact ⟨rfl, rfl, rfl, rfl, rfl, rfl⟩

theorem restartRexmt_same (a : Tcpcb) (done : Bool) : SameTp a (restartRexmt a done) := by
  unfold restartRexmt
  split
  · exact ⟨rfl, rfl, rfl, rfl, rfl, rfl⟩
  · split <;> exact ⟨rfl, rfl, rfl, rfl, rfl, rfl⟩

theorem deflate_same (a : Tcpcb) : SameTp a (deflate a) := by
  simp only [deflate]
  split <;> exact ⟨rfl, rfl, rfl, rfl, rfl, rfl⟩

theorem openCwnd_same (a : Tcpcb) : SameTp a (openCwnd a) := ⟨rfl, rfl, rfl, rfl, rfl, rfl⟩

/-- The control block that an ack of new data leaves, but for what it says of the ack itself. -/
def ackTimed (a : Tcpcb) (ack : Seq) : Tcpcb :=
  let a := timeAck (deflate a) ack
  openCwnd (restartRexmt a (ack = a.sndMax))

theorem ackTimed_same (a : Tcpcb) (ack : Seq) : SameTp a (ackTimed a ack) :=
  ((deflate_same a).trans (timeAck_same _ ack)).trans
    ((restartRexmt_same _ _).trans (openCwnd_same _))

/-- What is left of a frame for the data, when its ack has been dealt with. -/
structure Acked (fr fr' : Frame) (a : Tcpcb) (snd : Sockbuf) : Prop where
  ti : fr'.ti = fr.ti
  tiflags : fr'.tiflags = fr.tiflags
  tp : SameTp a fr'.x.tp
  soSnd : fr'.x.so.soSnd = snd
  soRcv : fr'.x.so.soRcv = fr.x.so.soRcv

theorem dropAcked_le {acked : ℤ} {snd : Sockbuf} (hle : acked ≤ x.so.soSnd.sbCc)
    (hdrop : sbdrop x.so.soSnd acked = .ok snd) :
    ∃ y, dropAcked x acked = .ok (y, false) ∧ SameTp x.tp y.tp ∧ y.so.soSnd = snd ∧
      y.so.soRcv = x.so.soRcv := by
  have hnot : ¬acked > x.so.soSnd.sbCc := by omega
  simp only [dropAcked]
  rw [if_neg hnot, hdrop, decide_eq_false hnot]
  exact ⟨_, rfl, ⟨rfl, rfl, rfl, rfl, rfl, rfl⟩, rfl, rfl⟩

theorem seqLeq_iff (s t : Seq) : seqLeq s t = !seqGt s t := by
  simp only [seqLeq, seqGt, ← decide_not]
  congr 1
  exact propext (by omega)

theorem newAck_eq (fr : Frame) : newAck fr =
    (if seqGt fr.ti.tiAck (deflate fr.x.tp).sndMax then
      .error (.dropafterack { fr.x with tp := deflate fr.x.tp })
    else do
      let r ← orFault (dropAcked { fr.x with tp := ackTimed fr.x.tp fr.ti.tiAck }
        (seqDiff fr.ti.tiAck (deflate fr.x.tp).sndUna))
      let tp := { r.1.tp with sndUna := fr.ti.tiAck }
      let tp := if seqLt tp.sndNxt tp.sndUna then { tp with sndNxt := tp.sndUna } else tp
      ackFin { fr with
        x := { r.1 with tp := tp }
        needoutput := fr.needoutput ||
          decide (fr.ti.tiAck = (timeAck (deflate fr.x.tp) fr.ti.tiAck).sndMax) } r.2) := rfl

/-- An ack of outstanding data, no more than the send buffer holds. -/
theorem newAck_acked (hstate : fr.x.tp.tState = .established)
    (hmax : seqLeq fr.ti.tiAck fr.x.tp.sndMax) {snd : Sockbuf}
    (hle : seqDiff fr.ti.tiAck fr.x.tp.sndUna ≤ fr.x.so.soSnd.sbCc)
    (hdrop : sbdrop fr.x.so.soSnd (seqDiff fr.ti.tiAck fr.x.tp.sndUna) = .ok snd) :
    ∃ fr', newAck fr = .ok fr' ∧ Acked fr fr' { fr.x.tp with
      sndUna := fr.ti.tiAck
      sndNxt := if seqLt fr.x.tp.sndNxt fr.ti.tiAck then fr.ti.tiAck else fr.x.tp.sndNxt } snd := by
  have hd := deflate_same fr.x.tp
  have ht := ackTimed_same fr.x.tp fr.ti.tiAck
  have hack : ∃ y, dropAcked { fr.x with tp := ackTimed fr.x.tp fr.ti.tiAck }
      (seqDiff fr.ti.tiAck fr.x.tp.sndUna) = .ok (y, false) ∧
      SameTp (ackTimed fr.x.tp fr.ti.tiAck) y.tp ∧ y.so.soSnd = snd ∧
      y.so.soRcv = fr.x.so.soRcv := dropAcked_le hle hdrop
  rcases hack with ⟨y, hy, hsame, hsnd, hrcv⟩
  replace hsame := ht.trans hsame
  rw [newAck_eq, ← hd.sndMax, ← hd.sndUna, if_neg (by simpa [seqLeq_iff] using hmax), hy]
  simp only [orFault, bind, Except.bind]
  rw [hsame.sndNxt]
  split <;> simp only [ackFin, ← hsame.tState, hstate]
  · exact ⟨_, rfl, rfl, rfl, ⟨hsame.rcvNxt, rfl, rfl, hsame.sndMax, rfl, hsame.segs⟩, hsnd, hrcv⟩
  · exact ⟨_, rfl, rfl, rfl, ⟨hsame.rcvNxt, rfl, rfl, hsame.sndMax, rfl, hsame.segs⟩, hsnd, hrcv⟩

/-- An ack that acks nothing new, on a segment with data. -/
theorem dupAck_data (hlen : fr.ti.tiLen ≠ 0) :
    ∃ fr', dupAck gs fr = .ok fr' ∧ Acked fr fr' fr.x.tp fr.x.so.soSnd := by
  have hnot : ¬(fr.ti.tiLen = 0 ∧ fr.ti.tiWin = fr.x.tp.sndWnd) := fun h => hlen h.1
  exact ⟨_, if_neg hnot, rfl, rfl, ⟨rfl, rfl, rfl, rfl, rfl, rfl⟩, rfl, rfl⟩

/-! ### The window update, and the text -/

theorem step6_acked (fr : Frame) : Acked fr (step6 fr) fr.x.tp fr.x.so.soSnd := by
  unfold step6
  split <;> exact ⟨rfl, rfl, ⟨rfl, rfl, rfl, rfl, rfl, rfl⟩, rfl, rfl⟩

theorem urgent_acked (hurg : fr.tiflags.urg = false) :
    ∃ fr', urgent fr = .ok fr' ∧ Acked fr fr' fr.x.tp fr.x.so.soSnd := by
  simp only [urgent, hurg]
  rw [if_neg (by simp)]
  split
  · exact ⟨_, rfl, rfl, rfl, ⟨rfl, rfl, rfl, rfl, rfl, rfl⟩, rfl, rfl⟩
  · exact ⟨_, rfl, rfl, rfl, ⟨rfl, rfl, rfl, rfl, rfl, rfl⟩, rfl, rfl⟩

theorem Acked.trans {fr' fr'' : Frame} {snd : Sockbuf} (h : Acked fr fr' a snd)
    (h' : Acked fr' fr'' fr'.x.tp fr'.x.so.soSnd) : Acked fr fr'' a snd :=
  ⟨h'.ti.trans h.ti, h'.tiflags.trans h.tiflags, h.tp.trans h'.tp, h'.soSnd.trans h.soSnd,
    h'.soRcv.trans h.soRcv⟩

theorem finish_none (h : fr.tiflags.fin = false) : finish fr = fr := by
  rw [finish, h]
  rfl

/-- A segment without text and FIN changes nothing more. -/
theorem dodata_none (hlen : fr.ti.tiLen = 0) (hfin : fr.tiflags.fin = false) :
    (finish (dodata fr)).x = fr.x := by
  have hskip : dodata fr = { fr with tiflags := { fr.tiflags with fin := false } } := by
    rw [dodata, hlen, hfin, if_neg (by simp)]
  rw [hskip, finish_none rfl]

/-- The text of an expected segment goes straight to the receive buffer when nothing is queued. -/
theorem dodata_next (hlen : fr.ti.tiLen ≠ 0) (hfin : fr.ti.tiFlags.fin = false)
    (hstate : fr.x.tp.tState = .established) (hseq : fr.ti.tiSeq = fr.x.tp.rcvNxt)
    (hsegs : fr.x.tp.segs = []) :
    SameTp { fr.x.tp with rcvNxt := seqAdd fr.x.tp.rcvNxt fr.ti.tiLen }
        (finish (dodata fr)).x.tp ∧
      (finish (dodata fr)).x.so.soSnd = fr.x.so.soSnd ∧
      (finish (dodata fr)).x.so.soRcv = sbappend fr.x.so.soRcv fr.ti.m := by
  have htext : dodata fr = { fr with
      x := (TCP_REASS fr.x fr.ti).2
      tiflags := ⟨(TCP_REASS fr.x fr.ti).1, false, false, false, false, false⟩ } := by
    rw [dodata, hstate, if_pos ⟨Or.inl hlen, rfl⟩]
  have hreass : TCP_REASS fr.x fr.ti = (fr.ti.tiFlags.fin,
      { tp := { fr.x.tp with delAck := true, rcvNxt := seqAdd fr.x.tp.rcvNxt fr.ti.tiLen }
        so := { fr.x.so with soRcv := sbappend fr.x.so.soRcv fr.ti.m } }) := by
    rw [TCP_REASS, if_pos ⟨hseq, hsegs, hstate⟩]
  rw [htext, finish_none (by rw [hreass]; exact hfin), hreass]
  exact ⟨⟨rfl, rfl, rfl, rfl, rfl, rfl⟩, rfl, rfl⟩

/-! ## The two paths -/

theorem fromStep6_eq {fr' : Frame} (h : urgent (step6 fr) = .ok fr') :
    fromStep6 fr = .ok (finish (dodata fr')) := by
  rw [fromStep6, h]
  rfl

/-- The general path up to the ack, for a predicted segment that fits into the window. -/
theorem generalPath_predicted (h : predicts x.tp ti) (h0 : 0 ≤ ti.tiLen) (hlen : ti.tiLen < 2 ^ 15)
    (hfit : ti.tiLen ≤ rcvWindow x) :
    generalPath gs x ti = (do
      let fr ← ackProcessing gs (start x ti)
      fromStep6 fr) := by
  rcases h with ⟨hstate, hsyn, hfin, hrst, hurg, hack, hseq, -⟩
  have hfront : trimFrontOf (start x ti) = .ok (start x ti) := trimFrontOf_expected hseq
  have hgone : checkGone (start x ti) = .ok (start x ti) := checkGone_established hstate
  have hend : trimEnd (start x ti) = .ok (start x ti) := by
    apply trimEnd_fits
    rw [todrop_expected hseq h0 hlen (rcvWindow_lt x)]
    change ti.tiLen - (rcvWindow x : ℤ) ≤ 0
    omega
  have hflags : checkFlags gs (start x ti) = .ok (start x ti) := checkFlags_ack hrst hsyn hack
  have hsyn : acceptSyn (start x ti) = .ok (start x ti) := acceptSyn_established hstate
  change (trimFrontOf (start x ti) >>= _) = _
  rw [hfront]
  change (checkGone (start x ti) >>= _) = _
  rw [hgone]
  change (trimEnd (start x ti) >>= _) = _
  rw [hend]
  change (checkFlags gs (start x ti) >>= _) = _
  rw [hflags]
  change (acceptSyn (start x ti) >>= _) = _
  rw [hsyn]
  rfl

/-- The fast path of an ack. -/
theorem fastPath_ack (h : predicts x.tp ti) (hack : pureAck x.tp ti) (hr : fastPath x ti = some r) :
    (∀ f, sbdrop x.so.soSnd (seqDiff ti.tiAck x.tp.sndUna) = .error f → r = .error f) ∧
    ∀ snd, sbdrop x.so.soSnd (seqDiff ti.tiAck x.tp.sndUna) = .ok snd →
      ∃ y b, r = .ok (y, b) ∧ SameTp { x.tp with sndUna := ti.tiAck } y.tp ∧
        y.so.soSnd = snd ∧ y.so.soRcv = x.so.soRcv := by
  have ht := timeAck_same x.tp ti.tiAck
  rw [fastPath, if_pos h, if_pos hack] at hr
  simp only [← ht.sndUna] at hr
  constructor
  · intro f hf
    rw [hf] at hr
    exact (Option.some.inj hr).symm
  · intro snd hsnd
    rw [hsnd] at hr
    refine ⟨_, _, (Option.some.inj hr).symm, ?_, rfl, rfl⟩
    have hset : SameTp { x.tp with sndUna := ti.tiAck }
        { timeAck x.tp ti.tiAck with sndUna := ti.tiAck } :=
      ⟨ht.rcvNxt, rfl, ht.sndNxt, ht.sndMax, ht.tState, ht.segs⟩
    exact hset.trans (restartRexmt_same _ _)

/-- The general path of an ack of no more than the send buffer holds. -/
theorem generalPath_ack (h : predicts x.tp ti) (hack : pureAck x.tp ti) {snd : Sockbuf}
    (hle : seqDiff ti.tiAck x.tp.sndUna ≤ x.so.soSnd.sbCc)
    (hdrop : sbdrop x.so.soSnd (seqDiff ti.tiAck x.tp.sndUna) = .ok snd) :
    ∃ y, outcome (generalPath gs x ti) = some y ∧ SameTp { x.tp with
        sndUna := ti.tiAck
        sndNxt := if seqLt x.tp.sndNxt ti.tiAck then ti.tiAck else x.tp.sndNxt } y.tp ∧
      y.so.soSnd = snd ∧ y.so.soRcv = x.so.soRcv := by
  rcases hack with ⟨hzero, hgt, hmax, -⟩
  have hnew : ackProcessing gs (start x ti) = newAck (start x ti) := by
    rw [ackProcessing, seqLeq_iff]
    exact if_neg (by simpa [start] using hgt)
  have hacked := @newAck_acked (start x ti) h.1 hmax snd hle hdrop
  rcases hacked with ⟨fr, hfr, ha⟩
  have hto6 := ha.trans (step6_acked fr)
  have hurg : (step6 fr).tiflags.urg = false := by
    rw [hto6.tiflags]
    exact h.2.2.2.2.1
  rcases urgent_acked hurg with ⟨fr', hfr', hu⟩
  have hau := hto6.trans hu
  have hzero' : fr'.ti.tiLen = 0 := by rw [hau.ti]; exact hzero
  have hfin' : fr'.tiflags.fin = false := by rw [hau.tiflags]; exact h.2.2.1
  have hgen : generalPath gs x ti = .ok (finish (dodata fr')) := by
    rw [generalPath_predicted h (by omega) (by omega) (by omega), hnew, hfr]
    exact fromStep6_eq hfr'
  refine ⟨fr'.x, ?_, ?_, hau.soSnd, hau.soRcv⟩
  · rw [hgen, outcome, dodata_none hzero' hfin']
  · exact ⟨hau.tp.rcvNxt, hau.tp.sndUna, hau.tp.sndNxt, hau.tp.sndMax, hau.tp.tState, hau.tp.segs⟩

/-- For an ack the paths agree when it covers no more than the send buffer holds, and is not
half the sequence space from `snd_max`. -/
theorem agrees_ack (h : predicts x.tp ti) (hack : pureAck x.tp ti) {rs : List (List Mbuf)}
    (hrep : Rep x.so.soSnd rs) (hr : fastPath x ti = some r) :
    Agrees r (generalPath gs x ti) ↔ seqDiff ti.tiAck x.tp.sndUna ≤ x.so.soSnd.sbCc ∧
      seqLt x.tp.sndMax ti.tiAck = false := by
  have hnxt : x.tp.sndNxt = x.tp.sndMax := h.2.2.2.2.2.2.2.2.2
  have hpos : 0 ≤ seqDiff ti.tiAck x.tp.sndUna := by
    have hgt := hack.2.1
    simp only [seqGt, decide_eq_true_eq] at hgt
    exact hgt.le
  have hiff := hrep.sbdrop_ok_iff (seqDiff ti.tiAck x.tp.sndUna).toNat
  rw [Int.toNat_of_nonneg hpos] at hiff
  cases hdrop : sbdrop x.so.soSnd (seqDiff ti.tiAck x.tp.sndUna) with
  | error f =>
    have hpanic := (fastPath_ack h hack hr).1 f hdrop
    rw [hdrop] at hiff
    constructor
    · rintro ⟨y, b, z, hy, -⟩
      rw [hpanic] at hy
      cases hy
    · rintro ⟨hle, -⟩
      rcases hiff.mpr hle with ⟨snd, hsnd⟩
      cases hsnd
  | ok snd =>
    have hle := hiff.mp ⟨snd, hdrop⟩
    rcases (fastPath_ack h hack hr).2 snd hdrop with ⟨y, b, hy, htp, hsnd, hrcv⟩
    rcases @generalPath_ack x ti gs h hack snd hle hdrop with ⟨z, hz, htp', hsnd', hrcv'⟩
    rw [hnxt] at htp'
    constructor
    · rintro ⟨y', b', z', hy', hz', hsame⟩
      rw [hy] at hy'
      rw [hz] at hz'
      cases hy'
      cases hz'
      refine ⟨hle, ?_⟩
      by_contra hlt
      have hmove := (htp.sndNxt.trans hsame.tp.sndNxt).trans htp'.sndNxt.symm
      simp only [hnxt, Bool.not_eq_false] at hlt hmove
      rw [if_pos hlt] at hmove
      rw [hmove, seqLt, seqDiff_self] at hlt
      exact absurd hlt (by decide)
    · rintro ⟨-, hlt⟩
      refine ⟨y, b, z, hy, hz, ?_, by rw [hsnd, hsnd'], by rw [hrcv, hrcv']⟩
      apply htp.symm.trans
      rw [hlt] at htp'
      exact ⟨htp'.rcvNxt, htp'.sndUna, hnxt.trans htp'.sndNxt, htp'.sndMax, htp'.tState, htp'.segs⟩

/-! ### Data -/

/-- The fast path of data. -/
theorem fastPath_data (h : predicts x.tp ti) (hdata : pureData x ti) (hr : fastPath x ti = some r) :
    ∃ y b, r = .ok (y, b) ∧ SameTp { x.tp with rcvNxt := seqAdd x.tp.rcvNxt ti.tiLen } y.tp ∧
      y.so.soSnd = x.so.soSnd ∧ y.so.soRcv = sbappend x.so.soRcv ti.m := by
  have hnot : ¬pureAck x.tp ti := fun hack => hdata.1 hack.1
  rw [fastPath, if_pos h, if_neg hnot, if_pos hdata] at hr
  exact ⟨_, _, (Option.some.inj hr).symm, ⟨rfl, rfl, rfl, rfl, rfl, rfl⟩, rfl, rfl⟩

/-- The general path of data that fit into the window. -/
theorem generalPath_data (h : predicts x.tp ti) (hdata : pureData x ti) (h0 : 0 ≤ ti.tiLen)
    (hlen : ti.tiLen < 2 ^ 15) (hfit : ti.tiLen ≤ rcvWindow x) :
    ∃ y, outcome (generalPath gs x ti) = some y ∧
      SameTp { x.tp with rcvNxt := seqAdd x.tp.rcvNxt ti.tiLen } y.tp ∧
      y.so.soSnd = x.so.soSnd ∧ y.so.soRcv = sbappend x.so.soRcv ti.m := by
  rcases hdata with ⟨hne, hack, hsegs, -⟩
  have hdup : ackProcessing gs (start x ti) = dupAck gs (start x ti) := by
    rw [ackProcessing]
    exact if_pos (by simp [start, hack, seqLeq, seqDiff_self])
  rcases @dupAck_data (start x ti) gs hne with ⟨fr, hfr, ha⟩
  have hto6 := ha.trans (step6_acked fr)
  have hurg : (step6 fr).tiflags.urg = false := by
    rw [hto6.tiflags]
    exact h.2.2.2.2.1
  rcases urgent_acked hurg with ⟨fr', hfr', hu⟩
  have hau := hto6.trans hu
  have hgen : generalPath gs x ti = .ok (finish (dodata fr')) := by
    rw [generalPath_predicted h h0 hlen hfit, hdup, hfr]
    exact fromStep6_eq hfr'
  have hti : fr'.ti = ti := hau.ti
  have hrcv : x.tp.rcvNxt = fr'.x.tp.rcvNxt := hau.tp.rcvNxt
  have hstate : fr'.x.tp.tState = .established := hau.tp.tState.symm.trans h.1
  have hempty : fr'.x.tp.segs = [] := hau.tp.segs.symm.trans hsegs
  rcases dodata_next (by rw [hti]; exact hne) (by rw [hti]; exact h.2.2.1) hstate
    (by rw [hti, ← hrcv]; exact h.2.2.2.2.2.2.1) hempty with ⟨htp, hsnd, hrcv'⟩
  rw [hti] at htp hrcv'
  refine ⟨_, by rw [hgen, outcome], ?_, hsnd.trans hau.soSnd, ?_⟩
  · rw [← hrcv] at htp
    exact ⟨htp.rcvNxt, hau.tp.sndUna.trans htp.sndUna, hau.tp.sndNxt.trans htp.sndNxt,
      hau.tp.sndMax.trans htp.sndMax, hau.tp.tState.trans htp.tState, hau.tp.segs.trans htp.segs⟩
  · rw [hrcv', hau.soRcv]
    rfl

theorem fastRetransmit_rcvNxt {ack : Seq} {dupacks : ℤ}
    (h : fastRetransmit gs x ack dupacks = .ok y) : y.tp.rcvNxt = x.tp.rcvNxt := by
  unfold fastRetransmit at h
  split at h
  · cases h
  · rcases Fault.bind_eq_ok.mp h with ⟨z, hout, hz⟩
    cases hz
    exact (tcpOutput_kept hout).tp.rcvNxt.symm

/-- What `orFault` hands on. -/
theorem orFault_bind {α β : Type} {e : Except Fault α} {f : α → Except Stop β} :
    (∃ a, e = .ok a ∧ (orFault e >>= f) = f a) ∨
      ∃ flt, (orFault e >>= f) = .error (.fault flt) := by
  cases e with
  | ok a => exact Or.inl ⟨a, rfl, rfl⟩
  | error flt => exact Or.inr ⟨flt, rfl⟩

/-- An ack that acks nothing new: the segment goes on, or is dropped where it stands. -/
theorem dupAck_cases (gs : List Given) (fr : Frame) :
    (∃ fr', dupAck gs fr = .ok fr' ∧ Acked fr fr' fr.x.tp fr.x.so.soSnd) ∨
      ∃ s, dupAck gs fr = .error s ∧
        ∀ y, outcome (.error s) = some y → y.tp.rcvNxt = fr.x.tp.rcvNxt := by
  simp only [dupAck]
  split
  · split
    · exact Or.inl ⟨_, rfl, rfl, rfl, ⟨rfl, rfl, rfl, rfl, rfl, rfl⟩, rfl, rfl⟩
    · split
      · rcases orFault_bind with ⟨z, hz, heq⟩ | ⟨flt, heq⟩
        · refine Or.inr ⟨_, heq, fun y hy => ?_⟩
          cases hy
          exact fastRetransmit_rcvNxt hz
        · exact Or.inr ⟨_, heq, fun y hy => by cases hy⟩
      · split
        · rcases orFault_bind with ⟨z, hz, heq⟩ | ⟨flt, heq⟩
          · refine Or.inr ⟨_, heq, fun y hy => ?_⟩
            cases hy
            exact (tcpOutput_kept hz).tp.rcvNxt.symm
          · exact Or.inr ⟨_, heq, fun y hy => by cases hy⟩
        · exact Or.inl ⟨_, rfl, rfl, rfl, ⟨rfl, rfl, rfl, rfl, rfl, rfl⟩, rfl, rfl⟩
  · exact Or.inl ⟨_, rfl, rfl, rfl, ⟨rfl, rfl, rfl, rfl, rfl, rfl⟩, rfl, rfl⟩

/-- The general path of data that do not fit into the window takes less of them. -/
theorem generalPath_cut (h : predicts x.tp ti) (hdata : pureData x ti) (hlen : ti.tiLen < 2 ^ 15)
    (hbig : (rcvWindow x : ℤ) < ti.tiLen) (hy : outcome (generalPath gs x ti) = some y) :
    ∃ k : ℤ, 0 ≤ k ∧ k < ti.tiLen ∧ y.tp.rcvNxt = seqAdd x.tp.rcvNxt k := by
  rcases hdata with ⟨hne, hack, hsegs, -⟩
  rcases h with ⟨hstate, hsyn, hfin, hrst, hurg, hackf, hseq, -⟩
  have hfront : trimFrontOf (start x ti) = .ok (start x ti) := trimFrontOf_expected hseq
  have hgone : checkGone (start x ti) = .ok (start x ti) := checkGone_established hstate
  rcases @trimEnd_cut (start x ti) hseq hlen (rcvWindow_lt x) hbig with ⟨acknow, hend⟩
  generalize hcut : dropTrailing { start x ti with x.tp.ackNow := acknow }
    ((start x ti).ti.tiLen - (start x ti).x.tp.rcvWnd) = fr at hend
  have hflags : checkFlags gs fr = .ok fr := by
    rw [← hcut]
    exact checkFlags_ack hrst hsyn hackf
  have hnosyn : acceptSyn fr = .ok fr := by
    rw [← hcut]
    exact acceptSyn_established hstate
  have hgen : generalPath gs x ti = (do
      let fr ← ackProcessing gs fr
      fromStep6 fr) := by
    change (trimFrontOf (start x ti) >>= _) = _
    rw [hfront]
    change (checkGone (start x ti) >>= _) = _
    rw [hgone]
    change (trimEnd (start x ti) >>= _) = _
    rw [hend]
    change (checkFlags gs fr >>= _) = _
    rw [hflags]
    change (acceptSyn fr >>= _) = _
    rw [hnosyn]
    rfl
  have hdup : ackProcessing gs fr = dupAck gs fr := by
    rw [ackProcessing, ← hcut]
    exact if_pos (by simp [dropTrailing, start, hack, seqLeq, seqDiff_self])
  have hrcv : fr.x.tp.rcvNxt = x.tp.rcvNxt := by rw [← hcut]; rfl
  rw [hgen, hdup] at hy
  rcases dupAck_cases gs fr with ⟨fr₁, hfr₁, ha⟩ | ⟨s, hs, hdrop⟩
  · rw [hfr₁] at hy
    have hto6 := ha.trans (step6_acked fr₁)
    have hurg : (step6 fr₁).tiflags.urg = false := by
      rw [hto6.tiflags, ← hcut]
      exact hurg
    rcases urgent_acked hurg with ⟨fr', hfr', hu⟩
    have hau := hto6.trans hu
    change outcome (fromStep6 fr₁) = some y at hy
    rw [fromStep6_eq hfr'] at hy
    cases hy
    have hleft : fr'.ti.tiLen = rcvWindow x := by
      rw [hau.ti, ← hcut]
      simp [dropTrailing, start]
    have hnofin : fr'.tiflags.fin = false := by rw [hau.tiflags, ← hcut]; rfl
    have hrcv' : fr'.x.tp.rcvNxt = x.tp.rcvNxt := hau.tp.rcvNxt.symm.trans hrcv
    by_cases hzero : fr'.ti.tiLen = 0
    · refine ⟨0, Int.le_refl 0, by omega, ?_⟩
      rw [dodata_none hzero hnofin, hrcv', seqAdd_zero]
    · refine ⟨rcvWindow x, Int.natCast_nonneg _, hbig, ?_⟩
      have hstate' : fr'.x.tp.tState = .established := by
        rw [← hau.tp.tState, ← hcut]
        exact hstate
      have hsegs' : fr'.x.tp.segs = [] := by
        rw [← hau.tp.segs, ← hcut]
        exact hsegs
      have hfin' : fr'.ti.tiFlags.fin = false := by
        rw [hau.ti, ← hcut]
        exact hfin
      have hseq' : fr'.ti.tiSeq = fr'.x.tp.rcvNxt := by
        rw [hrcv', hau.ti, ← hcut]
        exact hseq
      rw [← (dodata_next hzero hfin' hstate' hseq' hsegs').1.rcvNxt, hrcv', hleft]
  · rw [hs] at hy
    refine ⟨0, Int.le_refl 0, by omega, ?_⟩
    rw [hdrop y hy, hrcv, seqAdd_zero]

/-- For data the paths agree when they fit into the window as a `u_short`. -/
theorem agrees_data (h : predicts x.tp ti) (hdata : pureData x ti) (h0 : 0 ≤ ti.tiLen)
    (hlen : ti.tiLen < 2 ^ 15) (hr : fastPath x ti = some r) :
    Agrees r (generalPath gs x ti) ↔ ti.tiLen ≤ rcvWindow x := by
  rcases fastPath_data h hdata hr with ⟨y, b, hy, htp, hsnd, hrcv⟩
  constructor
  · rintro ⟨y', b', z, hy', hz, hsame⟩
    rw [hy] at hy'
    cases hy'
    by_contra hbig
    rcases generalPath_cut h hdata hlen (by omega) hz with ⟨k, hk, hk', hzk⟩
    have hmove : seqAdd x.tp.rcvNxt ti.tiLen = seqAdd x.tp.rcvNxt k :=
      (htp.rcvNxt.trans hsame.tp.rcvNxt).trans hzk
    rw [seqAdd_inj _ (by omega) (by omega)] at hmove
    omega
  · intro hfit
    rcases @generalPath_data x ti gs h hdata h0 hlen hfit with ⟨z, hz, htp', hsnd', hrcv'⟩
    exact ⟨y, b, z, hy, hz, htp.symm.trans htp', by rw [hsnd, hsnd'], by rw [hrcv, hrcv']⟩

/-- The fast path and the general path agree exactly when an ack covers no more than the send
buffer holds, and is not half the sequence space from `snd_max`, and data fit into the receive
window as a `u_short`. -/
theorem fastPath_agrees_iff {rs : List Rec} (gs : List Given) (hsnd : Sockbuf.Run x.so.soSnd rs)
    (h0 : 0 ≤ ti.tiLen) (hlen : ti.tiLen < 2 ^ 15) (hr : fastPath x ti = some r) :
    Agrees r (generalPath gs x ti) ↔
      (ti.tiLen = 0 → seqDiff ti.tiAck x.tp.sndUna ≤ x.so.soSnd.sbCc ∧
        seqLt x.tp.sndMax ti.tiAck = false) ∧
      ti.tiLen ≤ rcvWindow x := by
  rcases hsnd.rep with ⟨ms, hrep, -⟩
  have h : predicts x.tp ti := by
    by_contra hnot
    rw [fastPath, if_neg hnot] at hr
    cases hr
  by_cases hack : pureAck x.tp ti
  · rw [agrees_ack h hack hrep hr]
    have hzero := hack.1
    constructor
    · exact fun hle => ⟨fun _ => hle, by omega⟩
    · exact fun hle => hle.1 hzero
  · have hdata : pureData x ti := by
      by_contra hnot
      rw [fastPath, if_pos h, if_neg hack, if_neg hnot] at hr
      cases hr
    rw [agrees_data h hdata h0 hlen hr]
    constructor
    · exact fun hfit => ⟨fun hzero => absurd hzero hdata.1, hfit⟩
    · exact fun hfit => hfit.2

/-- A byte that is expected. -/
theorem fastPath_agrees_iff_byte : ∃ r, fastPath (idle 5 false) (byteAt 5 0) = some r ∧
    Agrees r (generalPath [] (idle 5 false) (byteAt 5 0)) :=
  ⟨_, rfl, (fastPath_agrees_iff [] (Sockbuf.Run.init rfl rfl rfl rfl) (by decide) (by decide)
    rfl).mpr (by decide)⟩

/-- An established connection whose SYN, the sequence number 0, has not been acked. -/
def synUnacked : Conn :=
  { idle 5 false with tp := { (idle 5 false).tp with sndNxt := 1, sndMax := 1 } }

/-- An ack of that SYN. -/
def synAck : Tcpiphdr := ⟨5, 1, 0, ⟨false, false, false, false, true, false⟩, 4096, 0, []⟩

/-- The fast path panics on an ack of the SYN, which the general path takes. -/
theorem fastPath_panics : fastPath synUnacked synAck = some (.error .panic) ∧
    (∃ y, outcome (generalPath [] synUnacked synAck) = some y) ∧
    ¬Agrees (.error .panic) (generalPath [] synUnacked synAck) := by
  refine ⟨by decide, ?_, ?_⟩
  · rw [← Option.isSome_iff_exists]
    decide
  · rintro ⟨y, b, z, hy, -⟩
    cases hy

end Tcp
