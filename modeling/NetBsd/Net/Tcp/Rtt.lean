import Mathlib.Algebra.Order.Group.Abs
import Mathlib.Algebra.Order.Group.Int
import Mathlib.Tactic.IntervalCases
import Mathlib.Tactic.NormNum
import NetBsd.Net.Tcp.Events

/-!
# Round-trip times in shorts

`tcp_xmit_timer` and the retransmit timer of `tcp_timers` keep the smoothed round-trip time, its
variance and the retransmit interval in 16 bits. The interval is what its formula says as long as
no value in between is truncated: `TCPT_RANGESET` stores a value before it compares it.

## Main definitions

* `backOff`: the part of the retransmit timer that sets the interval
* `Fits`: what a sample and a timeout need not to be truncated
* `RttRun`: samples and timeouts

## Main results

* `rangeset_eq_clamp_iff`: when the stored value is the right one
* `timerRexmt_backOff`: the retransmit timer sets the interval in this way
* `RttRun.exact`: the interval is exact, and timeouts never make it shorter
-/

namespace Tcp

/-! ## Shorts -/

/-- `value` between two bounds. -/
def clamp (value tvmin tvmax : ℤ) : ℤ :=
  if value < tvmin then tvmin else if tvmax < value then tvmax else value

theorem short_eq {v : ℤ} (h : -2 ^ 15 ≤ v) (h' : v < 2 ^ 15) : short v = v := by
  rw [short, Int.bmod_def]
  norm_num at h h' ⊢
  split_ifs <;> omega

theorem short_cases (v : ℤ) :
    short v = v % 2 ^ 16 ∧ v % 2 ^ 16 < 2 ^ 15 ∨
      short v = v % 2 ^ 16 - 2 ^ 16 ∧ 2 ^ 15 ≤ v % 2 ^ 16 := by
  rw [short, Int.bmod_def]
  split_ifs with h <;> norm_num at h ⊢ <;> omega

/-- `TCPT_RANGESET` is right about `value`: it is a short, or what is left of it is over the bound
as well. -/
def Stores (value tvmin : ℤ) : Prop :=
  value < 2 ^ 15 ∨ tvmin = rexmtmax ∨ rexmtmax ≤ value % 2 ^ 16 ∧ value % 2 ^ 16 < 2 ^ 15

instance (value tvmin : ℤ) : Decidable (Stores value tvmin) :=
  inferInstanceAs (Decidable (_ ∨ _ ∨ _))

theorem rangeset_eq_clamp_iff {value tvmin : ℤ} (hv : 0 ≤ value) (hmin : 0 ≤ tvmin)
    (hmax : tvmin ≤ rexmtmax) :
    rangeset value tvmin rexmtmax = clamp value tvmin rexmtmax ↔ Stores value tvmin := by
  have hlow : short tvmin = tvmin := short_eq (by omega) (by simp only [rexmtmax] at hmax; omega)
  have hhigh : short rexmtmax = rexmtmax := by decide
  rw [rangeset, hlow, hhigh]
  simp only [clamp, Stores, rexmtmax] at hmax ⊢
  obtain ⟨h, h'⟩ | ⟨h, h'⟩ := short_cases value <;> rw [h] <;> constructor
  · intro heq
    split_ifs at heq <;> omega
  · intro hs
    split_ifs <;> omega
  · intro heq
    split_ifs at heq <;> omega
  · intro hs
    split_ifs <;> omega

theorem clamp_mono {v w tvmin tvmax : ℤ} (h : v ≤ w) (hmin : tvmin ≤ tvmax) :
    clamp v tvmin tvmax ≤ clamp w tvmin tvmax := by
  unfold clamp
  split_ifs <;> omega

/-! ## The retransmit timer -/

/-- `TCP_REXMTVAL` -/
def rexmtval (tp : Tcpcb) : ℤ := tp.tSrtt / 8 + tp.tRttvar

/-- The retransmit timer as far as it is about the interval; none when the connection is
dropped. -/
def backOff (tp : Tcpcb) : Option Tcpcb :=
  let shift := tp.tRxtshift + 1
  if shift > maxrxtshift then none
  else
    let cur := rangeset (rexmtval tp * backoff shift) tp.tRttmin rexmtmax
    let tp := { tp with tRxtshift := shift, tRxtcur := cur, tRexmt := cur }
    some (if shift > maxrxtshift / 4
      then { tp with tRttvar := short (tp.tRttvar + tp.tSrtt / 8), tSrtt := 0 } else tp)

theorem timerRexmt_backOff (gs : List Given) (x : Conn) :
    timerRexmt gs x = match backOff x.tp with
      | none => do
        tcpDrop gs { x with tp.tRxtshift := maxrxtshift }
        .ok none
      | some tp =>
        if x.tp.tMaxseg = 0 then .error .panic
        else some <$> tcpOutput gs { x with tp := { tp with
          sndNxt := tp.sndUna, tRtt := 0, sndCwnd := tp.tMaxseg
          sndSsthresh := ushort (max (min tp.sndWnd tp.sndCwnd / 2 / tp.tMaxseg) 2 * tp.tMaxseg)
          tDupacks := 0 } } := by
  unfold timerRexmt backOff rexmtval
  dsimp only
  by_cases hshift : x.tp.tRxtshift + 1 > maxrxtshift
  · rw [if_pos hshift, if_pos hshift]
  · rw [if_neg hshift, if_neg hshift]

/-! ## Samples and timeouts -/

/-- A sample of the round-trip time, or a retransmission timeout. -/
inductive Timing where
  | sample (rtt : ℤ)
  | timeout
  deriving DecidableEq, Repr

/-- What the control block becomes; none when the connection is dropped. -/
def timed (tp : Tcpcb) : Timing → Option Tcpcb
  | .sample rtt => some (xmitTimer { tp with tRtt := rtt })
  | .timeout => backOff tp

/-- A smoothed value, which is 1 when it is not positive or not a short. -/
def smoothed (v : ℤ) : ℤ := if v ≤ 0 ∨ 2 ^ 15 ≤ v then 1 else v

/-- The smoothed round-trip time after a sample, from one before. -/
def nextSrtt (tp : Tcpcb) (rtt : ℤ) : ℤ := smoothed (tp.tSrtt + (rtt - 1 - tp.tSrtt / 8))

/-- The smoothed variance after a sample, from one before. -/
def nextRttvar (tp : Tcpcb) (rtt : ℤ) : ℤ :=
  smoothed (tp.tRttvar + (|rtt - 1 - tp.tSrtt / 8| - tp.tRttvar / 4))

/-- What is to be stored is a short, or does no harm when it is cut down to one. -/
def Fits (tp : Tcpcb) : Timing → Prop
  | .sample rtt =>
    if tp.tSrtt = 0 then rtt * 8 % 2 ^ 16 < 2 ^ 15 ∧ rtt < 2 ^ 14
    else nextSrtt tp rtt / 8 + nextRttvar tp rtt < 2 ^ 15
  | .timeout =>
    Stores (rexmtval tp * backoff (tp.tRxtshift + 1)) tp.tRttmin ∧
      (tp.tRxtshift + 1 > maxrxtshift / 4 → rexmtval tp < 2 ^ 15)

instance (tp : Tcpcb) : ∀ e, Decidable (Fits tp e)
  | .sample rtt => inferInstanceAs (Decidable (if tp.tSrtt = 0
    then rtt * 8 % 2 ^ 16 < 2 ^ 15 ∧ rtt < 2 ^ 14
    else nextSrtt tp rtt / 8 + nextRttvar tp rtt < 2 ^ 15))
  | .timeout => inferInstanceAs (Decidable (_ ∧ _))

/-- The fields hold times, and the interval has a lower bound below the upper one. -/
structure Times (tp : Tcpcb) : Prop where
  srtt : 0 ≤ tp.tSrtt
  srtt_lt : tp.tSrtt < 2 ^ 15
  rttvar : 0 ≤ tp.tRttvar
  rttvar_lt : tp.tRttvar < 2 ^ 15
  rttmin : 0 ≤ tp.tRttmin
  rttmin_le : tp.tRttmin ≤ rexmtmax
  shift : 0 ≤ tp.tRxtshift
  shift_le : tp.tRxtshift ≤ maxrxtshift

theorem newtcpcb_times : Times newtcpcb := by
  constructor <;> decide

/-- Samples of 1 to 32767 ticks and timeouts that fit, the last one first. -/
inductive RttRun : Tcpcb → List Timing → Prop where
  | start {tp : Tcpcb} (h : Times tp) : RttRun tp []
  | step {tp tp' : Tcpcb} {es : List Timing} {e : Timing} (h : RttRun tp es)
      (hrtt : ∀ rtt, e = .sample rtt → 1 ≤ rtt ∧ rtt < 2 ^ 15) (hf : Fits tp e)
      (hs : timed tp e = some tp') : RttRun tp' (e :: es)

variable {tp tp' : Tcpcb} {e : Timing} {es : List Timing}

theorem smoothed_spec (v : ℤ) : 0 < smoothed v ∧ smoothed v < 2 ^ 15 := by
  unfold smoothed
  split_ifs <;> omega

/-- The test of `tcp_xmit_timer` on what has been stored. -/
theorem smoothed_short {v : ℤ} (h : -2 ^ 15 ≤ v) (h' : v < 2 ^ 16) :
    (if short v ≤ 0 then 1 else short v) = smoothed v := by
  unfold smoothed
  obtain ⟨hs, hlt⟩ | ⟨hs, hlt⟩ := short_cases v <;> rw [hs] <;> split_ifs <;> omega

theorem smooth_next (h : Times tp) (hne : tp.tSrtt ≠ 0) {rtt : ℤ} (hrtt : 1 ≤ rtt)
    (hlt : rtt < 2 ^ 15) :
    smooth { tp with tRtt := rtt } = (nextSrtt tp rtt, nextRttvar tp rtt) := by
  obtain ⟨hs, hs', hv, hv', -, -, -, -⟩ := h
  have hdelta : short (rtt - 1 - tp.tSrtt / 8) = rtt - 1 - tp.tSrtt / 8 :=
    short_eq (by omega) (by omega)
  have habs : (if rtt - 1 - tp.tSrtt / 8 < 0 then short (-(rtt - 1 - tp.tSrtt / 8))
      else rtt - 1 - tp.tSrtt / 8) = |rtt - 1 - tp.tSrtt / 8| := by
    split_ifs with hneg
    · rw [abs_of_neg hneg, short_eq (by omega) (by omega)]
    · rw [abs_of_nonneg (not_lt.mp hneg)]
  have hle : |rtt - 1 - tp.tSrtt / 8| < 2 ^ 15 := abs_lt.mpr ⟨by omega, by omega⟩
  have hnonneg := abs_nonneg (rtt - 1 - tp.tSrtt / 8)
  have hdelta' : short (|rtt - 1 - tp.tSrtt / 8| - tp.tRttvar / 4) =
      |rtt - 1 - tp.tSrtt / 8| - tp.tRttvar / 4 := short_eq (by omega) (by omega)
  unfold smooth
  rw [if_pos hne]
  dsimp only
  rw [hdelta, habs, hdelta', smoothed_short (by omega) (by omega),
    smoothed_short (by omega) (by omega)]
  rfl

/-- What a sample stores. -/
theorem sample_spec (h : Times tp) {rtt : ℤ} (hrtt : 1 ≤ rtt) (hlt : rtt < 2 ^ 15)
    (hf : Fits tp (.sample rtt)) :
    0 ≤ (smooth { tp with tRtt := rtt }).1 ∧ (smooth { tp with tRtt := rtt }).1 < 2 ^ 15 ∧
      0 < (smooth { tp with tRtt := rtt }).2 ∧ (smooth { tp with tRtt := rtt }).2 < 2 ^ 15 ∧
      (smooth { tp with tRtt := rtt }).1 / 8 + (smooth { tp with tRtt := rtt }).2 < 2 ^ 15 := by
  by_cases hzero : tp.tSrtt = 0
  · simp only [Fits, hzero, if_true] at hf
    have hsmooth : smooth { tp with tRtt := rtt } = (short (rtt * 8), short (rtt * 2)) := by
      simp [smooth, hzero]
    have htwo : short (rtt * 2) = rtt * 2 := short_eq (by omega) (by omega)
    rw [hsmooth, htwo]
    dsimp only
    obtain ⟨hs, -⟩ | ⟨-, hs⟩ := short_cases (rtt * 8) <;> omega
  · simp only [Fits, hzero, if_false] at hf
    rw [smooth_next h hzero hrtt hlt]
    have hs := smoothed_spec (tp.tSrtt + (rtt - 1 - tp.tSrtt / 8))
    have hv := smoothed_spec (tp.tRttvar + (|rtt - 1 - tp.tSrtt / 8| - tp.tRttvar / 4))
    exact ⟨hs.1.le, hs.2, hv.1, hv.2, hf⟩

theorem backoff_zero : backoff 0 = 1 := rfl

theorem backoff_mono {i j : ℤ} (hi : 0 ≤ i) (hij : i ≤ j) (hj : j ≤ maxrxtshift) :
    0 < backoff i ∧ backoff i ≤ backoff j := by
  simp only [maxrxtshift] at hj
  obtain ⟨a, rfl⟩ := Int.eq_ofNat_of_zero_le hi
  obtain ⟨b, rfl⟩ := Int.eq_ofNat_of_zero_le (hi.trans hij)
  have hb : b < 13 := by omega
  have ha : a ≤ b := by omega
  interval_cases b <;> interval_cases a <;> decide

theorem rexmtval_nonneg (h : Times tp) : 0 ≤ rexmtval tp := by
  have := h.srtt
  have := h.rttvar
  unfold rexmtval
  omega

/-- The interval is what it should be. -/
def Exact (tp : Tcpcb) : Prop :=
  tp.tRxtcur = clamp (rexmtval tp * backoff tp.tRxtshift) tp.tRttmin rexmtmax

theorem xmitTimer_spec (h : Times tp) {rtt : ℤ} (hrtt : 1 ≤ rtt) (hlt : rtt < 2 ^ 15)
    (hf : Fits tp (.sample rtt)) :
    Times (xmitTimer { tp with tRtt := rtt }) ∧ 0 < (xmitTimer { tp with tRtt := rtt }).tRttvar ∧
      Exact (xmitTimer { tp with tRtt := rtt }) := by
  obtain ⟨h1, h2, h3, h4, h5⟩ := sample_spec h hrtt hlt hf
  refine ⟨⟨h1, h2, h3.le, h4, h.rttmin, h.rttmin_le, le_rfl,
    by simp [xmitTimer, maxrxtshift]⟩, h3, ?_⟩
  unfold Exact xmitTimer rexmtval
  dsimp only
  rw [backoff_zero, mul_one, rangeset_eq_clamp_iff (by omega) h.rttmin h.rttmin_le]
  exact .inl h5

theorem backOff_spec (h : Times tp) (hf : Fits tp .timeout) (hs : backOff tp = some tp') :
    Times tp' ∧ tp'.tRttmin = tp.tRttmin ∧ rexmtval tp' = rexmtval tp ∧
      tp'.tRxtshift = tp.tRxtshift + 1 ∧ (0 < tp.tRttvar → 0 < tp'.tRttvar) ∧ Exact tp' := by
  obtain ⟨hstore, hclobber⟩ := hf
  have hval := rexmtval_nonneg h
  unfold backOff at hs
  dsimp only at hs
  split_ifs at hs with hdrop hfour
  · rw [not_lt] at hdrop
    have hcur := (rangeset_eq_clamp_iff (mul_nonneg hval (backoff_mono (by have := h.shift; omega)
      le_rfl hdrop).1.le) h.rttmin h.rttmin_le).mpr hstore
    have hsum := hclobber hfour
    have hsrtt := h.srtt
    have hrttvar := h.rttvar
    unfold rexmtval at hsum hval
    have hshort : short (tp.tRttvar + tp.tSrtt / 8) = tp.tRttvar + tp.tSrtt / 8 :=
      short_eq (by omega) (by omega)
    have hkeep : rexmtval tp' = rexmtval tp := by
      rw [← Option.some.inj hs]
      simp only [rexmtval, hshort]
      omega
    refine ⟨?_, ?_, hkeep, ?_, ?_, ?_⟩
    · rw [← Option.some.inj hs]
      exact ⟨by simp, by simp, by simp only [hshort]; omega, by simp only [hshort]; omega,
        h.rttmin, h.rttmin_le, by have := h.shift; simp only; omega, hdrop⟩
    · rw [← Option.some.inj hs]
    · rw [← Option.some.inj hs]
    · rw [← Option.some.inj hs]
      simp only [hshort]
      omega
    · unfold Exact
      rw [hkeep, ← Option.some.inj hs]
      exact hcur
  · rw [not_lt] at hdrop
    have hcur := (rangeset_eq_clamp_iff (mul_nonneg hval (backoff_mono (by have := h.shift; omega)
      le_rfl hdrop).1.le) h.rttmin h.rttmin_le).mpr hstore
    rw [← Option.some.inj hs]
    exact ⟨⟨h.srtt, h.srtt_lt, h.rttvar, h.rttvar_lt, h.rttmin, h.rttmin_le,
      by have := h.shift; simp only; omega, hdrop⟩, rfl, rfl, rfl, id, hcur⟩

/-- A timeout does not make an exact interval shorter. -/
theorem backOff_le (h : Times tp) (hx : Exact tp) (hf : Fits tp .timeout)
    (hs : backOff tp = some tp') : tp.tRxtcur ≤ tp'.tRxtcur := by
  obtain ⟨ht, hmin, hval, hshift, -, hx'⟩ := backOff_spec h hf hs
  rw [hx, hx', hmin, hval, hshift]
  refine clamp_mono (mul_le_mul_of_nonneg_left ?_ (rexmtval_nonneg h)) h.rttmin_le
  exact (backoff_mono h.shift (by omega) (hshift ▸ ht.shift_le)).2

/-- After samples and timeouts that fit, the times have the right signs, the interval is exact, and
one more timeout that fits does not make it shorter. -/
theorem RttRun.exact (h : RttRun tp es) :
    0 ≤ tp.tSrtt ∧ ((∃ rtt, .sample rtt ∈ es) → 0 < tp.tRttvar) ∧
      (es ≠ [] → Exact tp ∧
        ∀ tp', Fits tp .timeout → timed tp .timeout = some tp' → tp.tRxtcur ≤ tp'.tRxtcur) := by
  have hrun : Times tp ∧ ((∃ rtt, .sample rtt ∈ es) → 0 < tp.tRttvar) ∧ (es ≠ [] → Exact tp) := by
    induction h with
    | start h => exact ⟨h, by simp, by simp⟩
    | @step tp tp' es e _ hrtt hf hs ih =>
      obtain ⟨ht, hpos, -⟩ := ih
      cases e with
      | sample rtt =>
        obtain ⟨h1, h2⟩ := hrtt rtt rfl
        obtain ⟨ht', hpos', hx⟩ := xmitTimer_spec ht h1 h2 hf
        rw [← Option.some.inj hs]
        exact ⟨ht', fun _ => hpos', fun _ => hx⟩
      | timeout =>
        obtain ⟨ht', -, -, -, hkeep, hx⟩ := backOff_spec ht hf hs
        refine ⟨ht', ?_, fun _ => hx⟩
        rintro ⟨rtt, hmem⟩
        exact hkeep (hpos ⟨rtt, by simpa using hmem⟩)
  obtain ⟨ht, hpos, hx⟩ := hrun
  exact ⟨ht.srtt, hpos, fun hne => ⟨hx hne, fun tp' hf hs => backOff_le ht (hx hne) hf hs⟩⟩

/-- After a sample of 171 ticks the interval is cut to two ticks at the sixth timeout. -/
theorem rexmt_shrinks :
    let run := fun n => (Timing.sample 171 :: List.replicate n Timing.timeout).foldlM timed newtcpcb
    (run 5).map (fun tp => (tp.tRxtcur, rexmtval tp)) = some (128, 513) ∧
      (run 6).map (fun tp => (tp.tRxtcur, rexmtval tp)) = some (2, 513) := by
  decide +kernel

/-- A sample of six ticks and a timeout. -/
theorem RttRun.exact_six : ∃ tp, RttRun tp [.timeout, .sample 6] ∧ tp.tRxtcur = 36 ∧ Exact tp := by
  have h0 := RttRun.start newtcpcb_times
  have h1 := RttRun.step (e := .sample 6) h0 (by
    intro rtt h
    rw [← Timing.sample.inj h]
    decide) (by decide) rfl
  have h2 := RttRun.step (e := .timeout) h1 (by simp) ⟨by decide, by decide⟩ rfl
  exact ⟨_, h2, by decide, (h2.exact.2.2 (by simp)).1⟩

end Tcp
