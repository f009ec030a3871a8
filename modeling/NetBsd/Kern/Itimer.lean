import Mathlib
import NetBsd.Kern.Timeval
import NetBsd.Lib.Periodic

/-!
# Interval timers

The timers of `kern/kern_time.c` that `hardclock` counts down: `itimerdecr` takes microseconds off
a timer, and at the end of the interval loads the next one, less the microseconds by which the end
was missed.

## Main definitions

* `Itimerval`, `itimerfix`, `setitimer`, `itimerdecr`: a timer, and the functions
* `calls`, `ticks`: `itimerdecr` a number of times, and as `hardclock` calls it
* `Exact`: the timer expires as often as a periodic timer does, and has as much left

## Main results

* `ticks_exact`: the timers are exact
* `calls_not_exact`: a timer that is off must not be counted down
-/

namespace Itimer

open Periodic Timeval

structure Itimerval where
  itInterval : Timeval
  itValue : Timeval
  deriving DecidableEq, Repr

/-- Check a time, and round it up to a tick. There is none for `EINVAL`. -/
def itimerfix (tick : ℤ) (tv : Timeval) : Option Timeval :=
  if tv.tvSec < 0 ∨ 100000000 < tv.tvSec ∨ tv.tvUsec < 0 ∨ 1000000 ≤ tv.tvUsec then none
  else if tv.tvSec = 0 ∧ tv.tvUsec ≠ 0 ∧ tv.tvUsec < tick then some { tv with tvUsec := tick }
  else some tv

/-- The timer that `setitimer` stores for a virtual or a profiling timer. -/
def setitimer (tick : ℤ) (aitv : Itimerval) : Option Itimerval := do
  let value ← itimerfix tick aitv.itValue
  let interval ← itimerfix tick aitv.itInterval
  some { itInterval := interval, itValue := value }

/-- The end of `itimerdecr`: the timer has expired, `usec` ago. -/
def expire (itp : Itimerval) (usec : ℤ) : ℤ × Itimerval :=
  if timerisset itp.itInterval then
    let value := { itp.itInterval with tvUsec := itp.itInterval.tvUsec - usec }
    let value :=
      if value.tvUsec < 0 then ⟨value.tvSec - 1, value.tvUsec + 1000000⟩ else value
    (0, { itp with itValue := value })
  else (0, { itp with itValue := { itp.itValue with tvUsec := 0 } })

/-- Take microseconds off a timer; the result is 0 when it expires. -/
def itimerdecr (itp : Itimerval) (usec : ℤ) : ℤ × Itimerval :=
  if itp.itValue.tvUsec < usec ∧ itp.itValue.tvSec = 0 then
    expire itp (usec - itp.itValue.tvUsec)
  else
    let value :=
      if itp.itValue.tvUsec < usec then ⟨itp.itValue.tvSec - 1, itp.itValue.tvUsec + 1000000⟩
      else itp.itValue
    let itp := { itp with itValue := { value with tvUsec := value.tvUsec - usec } }
    if timerisset itp.itValue then (1, itp) else expire itp 0

/-- The calls that returned 0, out of `n` calls, and the timer after them. -/
def calls (tick : ℤ) : ℕ → Itimerval → ℕ × Itimerval
  | 0, itp => (0, itp)
  | n + 1, itp =>
    let (expired, itp) := calls tick n itp
    let (result, itp) := itimerdecr itp tick
    (if result = 0 then expired + 1 else expired, itp)

/-- The signals that `n` calls of `hardclock` send, and the timer after them. -/
def ticks (tick : ℤ) : ℕ → Itimerval → ℕ × Itimerval
  | 0, itp => (0, itp)
  | n + 1, itp =>
    let (expired, itp) := ticks tick n itp
    if timerisset itp.itValue then
      let (result, itp) := itimerdecr itp tick
      (if result = 0 then expired + 1 else expired, itp)
    else (expired, itp)

/-! ## One call -/

variable {tick n : ℕ} {tv tv' : Timeval} {itp aitv : Itimerval}

/-- The timers that are counted down: an interval that is not 0 has at least a tick. -/
structure Ready (tick : ℕ) (itp : Itimerval) : Prop where
  value : itp.itValue.Valid
  interval : itp.itInterval.Valid
  tick : itp.itInterval.usecs = 0 ∨ tick ≤ itp.itInterval.usecs

theorem itimerfix_valid (ht : tick < 1000000) (h : itimerfix tick tv = some tv') :
    tv'.Valid ∧ (tv'.usecs = 0 ∨ tick ≤ tv'.usecs) := by
  rw [itimerfix] at h
  split_ifs at h with hbad hsmall
  · obtain rfl := Option.some.inj h
    obtain ⟨hsec, -, -⟩ := hsmall
    have hvalid : Timeval.Valid { tv with tvUsec := (tick : ℤ) } :=
      ⟨by dsimp only; omega, by dsimp only; omega, by dsimp only; omega⟩
    have hcast := cast_usecs hvalid
    dsimp only at hcast
    exact ⟨hvalid, by omega⟩
  · obtain rfl := Option.some.inj h
    have hvalid : tv.Valid := ⟨by omega, by omega, by omega⟩
    have hcast := cast_usecs hvalid
    exact ⟨hvalid, by omega⟩

theorem setitimer_ready (ht : tick < 1000000) (h : setitimer tick aitv = some itp) :
    Ready tick itp := by
  obtain ⟨value, hv, h⟩ := Option.bind_eq_some_iff.mp h
  obtain ⟨interval, hi, h⟩ := Option.bind_eq_some_iff.mp h
  obtain rfl := Option.some.inj h
  exact ⟨(itimerfix_valid ht hv).1, (itimerfix_valid ht hi).1, (itimerfix_valid ht hi).2⟩

/-- A timer that has expired has the interval left, less the time since then. -/
theorem expire_spec {d : ℤ} (h : Ready tick itp) (hsec : itp.itValue.tvSec = 0) (hd : 0 ≤ d)
    (hd' : d = 0 ∨ d < tick) (ht : tick < 1000000) :
    (expire itp d).1 = 0 ∧ (expire itp d).2.itInterval = itp.itInterval ∧
      (expire itp d).2.itValue.Valid ∧
      (expire itp d).2.itValue.usecs = itp.itInterval.usecs - d.toNat := by
  have hcast := cast_usecs h.interval
  obtain ⟨hi1, hi2, hi3⟩ := h.interval
  have htick := h.tick
  rw [expire]
  split_ifs with hset
  · have hpos := (timerisset_usecs h.interval).mp hset
    refine ⟨rfl, rfl, ?_⟩
    dsimp only
    split_ifs with hneg
    · have hvalid : Timeval.Valid
          ⟨itp.itInterval.tvSec - 1, itp.itInterval.tvUsec - d + 1000000⟩ :=
        ⟨by dsimp only; omega, by dsimp only; omega, by dsimp only; omega⟩
      have hcast' := cast_usecs hvalid
      dsimp only at hcast'
      exact ⟨hvalid, by omega⟩
    · have hvalid : Timeval.Valid ⟨itp.itInterval.tvSec, itp.itInterval.tvUsec - d⟩ :=
        ⟨hi1, by dsimp only; omega, by dsimp only; omega⟩
      have hcast' := cast_usecs hvalid
      dsimp only at hcast'
      exact ⟨hvalid, by omega⟩
  · -- Without an interval nothing is left.
    have hzero := usecs_eq_zero h.interval hset
    refine ⟨rfl, rfl, ⟨hsec.ge, le_refl 0, by norm_num⟩, ?_⟩
    rw [hzero, Nat.zero_sub, usecs]
    dsimp only
    rw [hsec]
    rfl

/-- The value of a timer that does not run past its end, with a second borrowed if need be. -/
theorem borrow_spec (hv : tv.Valid) (hlate : ¬(tv.tvUsec < tick ∧ tv.tvSec = 0))
    (ht : tick < 1000000)
    (heq : tv' = { (if tv.tvUsec < tick then ⟨tv.tvSec - 1, tv.tvUsec + 1000000⟩ else tv) with
      tvUsec := (if tv.tvUsec < tick then (⟨tv.tvSec - 1, tv.tvUsec + 1000000⟩ : Timeval)
        else tv).tvUsec - tick }) :
    tv'.Valid ∧ tick ≤ tv.usecs ∧ tv'.usecs = tv.usecs - tick := by
  have hcast := cast_usecs hv
  obtain ⟨hv1, hv2, hv3⟩ := hv
  have hvalid : tv'.Valid := by
    rw [heq]
    split_ifs with hborrow
    · exact ⟨by dsimp only; omega, by dsimp only; omega, by dsimp only; omega⟩
    · exact ⟨hv1, by dsimp only; omega, by dsimp only; omega⟩
  have hcast' := cast_usecs hvalid
  refine ⟨hvalid, by omega, ?_⟩
  have hsum : tv'.tvSec * 1000000 + tv'.tvUsec = tv.tvSec * 1000000 + tv.tvUsec - tick := by
    rw [heq]
    split_ifs with hborrow <;> dsimp only <;> ring
  omega

/-- What a call does to a timer that is on: it counts the timer down, or loads it again. -/
structure Counted (tick : ℕ) (itp : Itimerval) (r : ℤ × Itimerval) : Prop where
  interval : r.2.itInterval = itp.itInterval
  value : r.2.itValue.Valid
  early : tick < itp.itValue.usecs →
    r.1 = 1 ∧ r.2.itValue.usecs = itp.itValue.usecs - tick
  late : itp.itValue.usecs ≤ tick →
    r.1 = 0 ∧ r.2.itValue.usecs = itp.itInterval.usecs - (tick - itp.itValue.usecs)

theorem itimerdecr_spec (h : Ready tick itp) (ht : tick < 1000000)
    (hset : itp.itValue.usecs ≠ 0) : Counted tick itp (itimerdecr itp tick) := by
  have hcast := cast_usecs h.value
  have hv2 := h.value.usec
  rw [itimerdecr]
  by_cases hlate : itp.itValue.tvUsec < tick ∧ itp.itValue.tvSec = 0
  · -- What is over of the tick is taken off the next period.
    rw [if_pos hlate]
    obtain ⟨hret, hint, hvalid, husecs⟩ :=
      @expire_spec tick itp (tick - itp.itValue.tvUsec) h hlate.2 (by omega) (by omega) ht
    refine ⟨hint, hvalid, fun hlt => by omega, fun _ => ⟨hret, ?_⟩⟩
    rw [husecs]
    congr 1
    omega
  · rw [if_neg hlate]
    dsimp only
    generalize hw : Timeval.mk _ (_ - (tick : ℤ)) = w
    obtain ⟨hvalid, hle, husecs⟩ := borrow_spec h.value hlate ht hw.symm
    by_cases hw' : timerisset w
    · rw [if_pos hw']
      have hne := (timerisset_usecs hvalid).mp hw'
      refine ⟨rfl, hvalid, fun _ => ⟨rfl, husecs⟩, fun hle' => by omega⟩
    · -- The timer has come to its end exactly.
      rw [if_neg hw']
      have hzero := usecs_eq_zero hvalid hw'
      have hsec : w.tvSec = 0 := by
        have hcast' := cast_usecs hvalid
        have hv := hvalid.sec
        have hv' := hvalid.usec
        omega
      obtain ⟨hret, hint, hvalid', husecs'⟩ :=
        @expire_spec tick { itp with itValue := w } 0 ⟨hvalid, h.interval, h.tick⟩ hsec
          (le_refl 0) (Or.inl rfl) ht
      refine ⟨hint, hvalid', fun hlt => by omega, fun _ => ⟨hret, ?_⟩⟩
      rw [husecs']
      congr 1
      omega

theorem Counted.ready (h : Ready tick itp) {r : ℤ × Itimerval} (hr : Counted tick itp r) :
    Ready tick r.2 where
  value := hr.value
  interval := by
    rw [hr.interval]
    exact h.interval
  tick := by
    rw [hr.interval]
    exact h.tick

/-- A call is one tick of the periodic timer. -/
theorem Counted.same (h : Ready tick itp) {r : ℤ × Itimerval} (hr : Counted tick itp r)
    (hset : itp.itValue.usecs ≠ 0) :
    Same itp.itValue.usecs itp.itInterval.usecs tick r.2.itValue.usecs ∧
      expirations itp.itValue.usecs itp.itInterval.usecs tick = if r.1 = 0 then 1 else 0 := by
  have hpos := Nat.pos_of_ne_zero hset
  obtain hlt | hle := lt_or_ge tick itp.itValue.usecs
  · obtain ⟨hret, husecs⟩ := hr.early hlt
    rw [husecs, hret, if_neg one_ne_zero]
    exact ⟨Same.run hlt, expirations_before hlt⟩
  · obtain ⟨hret, husecs⟩ := hr.late hle
    rw [husecs, hret, if_pos rfl]
    obtain hzero | htick := h.tick
    · rw [hzero, Nat.zero_sub]
      exact ⟨Same.stop hle, expirations_once hpos hle (Or.inl rfl)⟩
    · -- The interval is not shorter than a tick, so that the timer expires once in it.
      have hlt : tick - itp.itValue.usecs < itp.itInterval.usecs := by omega
      exact ⟨Same.reload hpos hle hlt, expirations_once hpos hle (Or.inr hlt)⟩

/-! ## Runs -/

/-- In `n` ticks the timer has returned 0 as often as the periodic timer expires, and what it holds
is the time left to the next expiration; a timer without an interval expires once. -/
structure Exact (tick n : ℕ) (itp : Itimerval) (r : ℕ × Itimerval) : Prop where
  expired : r.1 = expirations itp.itValue.usecs itp.itInterval.usecs (n * tick)
  left : Left itp.itValue.usecs itp.itInterval.usecs (n * tick) r.2.itValue.usecs
  value : r.2.itValue.Valid
  interval : r.2.itInterval = itp.itInterval
  once : itp.itInterval.usecs = 0 → itp.itValue.usecs ≠ 0 → itp.itValue.usecs ≤ n * tick → r.1 = 1

/-- The ticks so far: what is left of the periodic timer is the timer as it stands. -/
structure InStep (tick n : ℕ) (itp : Itimerval) (r : ℕ × Itimerval) : Prop where
  ready : Ready tick r.2
  interval : r.2.itInterval = itp.itInterval
  expired : r.1 = expirations itp.itValue.usecs itp.itInterval.usecs (n * tick)
  same : Same itp.itValue.usecs itp.itInterval.usecs (n * tick) r.2.itValue.usecs

theorem ticks_inStep (h : Ready tick itp) (ht : tick < 1000000) :
    InStep tick n itp (ticks tick n itp) := by
  induction n with
  | zero =>
    refine ⟨h, rfl, ?_, ?_⟩
    · rw [zero_mul, expirations_zero]
      rfl
    · rw [zero_mul]
      exact Same.start
  | succ n ih =>
    rw [ticks]
    generalize ticks tick n itp = r at ih ⊢
    obtain ⟨expired, s⟩ := r
    obtain ⟨hready, hint, hexp, hsame⟩ := ih
    dsimp only at hready hint hexp hsame ⊢
    have hadd : (n + 1) * tick = n * tick + tick := by ring
    have hcount := @Same.expirations_add _ _ _ _ tick hsame
    by_cases hset : timerisset s.itValue
    · -- One more tick of what is left, after the `n` ticks that left it.
      rw [if_pos hset]
      have hne := (timerisset_usecs hready.value).mp hset
      have hstep := itimerdecr_spec hready ht hne
      obtain ⟨hsame', hcount'⟩ := hstep.same hready hne
      generalize itimerdecr s tick = q at hstep hsame' hcount' ⊢
      rw [hint] at hsame' hcount'
      refine ⟨hstep.ready hready, hstep.interval.trans hint, ?_, ?_⟩
      · rw [hadd, hcount, hcount', ← hexp]
        split_ifs <;> rfl
      · rw [hadd]
        exact hsame.trans hsame'
    · -- The timer is off, and stays so.
      rw [if_neg hset]
      have hzero := usecs_eq_zero hready.value hset
      rw [hzero] at hsame hcount
      refine ⟨hready, hint, ?_, ?_⟩
      · rw [hadd, hcount, expirations_off, add_zero]
        exact hexp
      · rw [hadd, hzero]
        exact hsame.trans Same.off

/-- The timers that `hardclock` counts down are exact. -/
theorem ticks_exact (tick n : ℕ) (aitv itp : Itimerval) (ht : tick < 1000000)
    (h : setitimer tick aitv = some itp) : Exact tick n itp (ticks tick n itp) := by
  obtain ⟨hready, hint, hexp, hsame⟩ := @ticks_inStep tick n itp (setitimer_ready ht h) ht
  refine ⟨hexp, hsame.left, hready.value, hint, ?_⟩
  intro hzero hne hle
  rw [hexp]
  exact expirations_once (Nat.pos_of_ne_zero hne) hle (Or.inl hzero)

/-- A timer of 25 ms and every 15 ms after that, with ticks of 10 ms. -/
theorem ticks_exact_ten : Exact 10000 10 ⟨⟨0, 15000⟩, ⟨0, 25000⟩⟩
    (ticks 10000 10 ⟨⟨0, 15000⟩, ⟨0, 25000⟩⟩) :=
  ticks_exact 10000 10 ⟨⟨0, 15000⟩, ⟨0, 25000⟩⟩ _ (by decide) rfl

/-- Called once more after it has expired, a timer without an interval expires again. -/
theorem calls_not_exact : setitimer 10000 ⟨⟨0, 0⟩, ⟨0, 10000⟩⟩ = some ⟨⟨0, 0⟩, ⟨0, 10000⟩⟩ ∧
    ¬Exact 10000 2 ⟨⟨0, 0⟩, ⟨0, 10000⟩⟩ (calls 10000 2 ⟨⟨0, 0⟩, ⟨0, 10000⟩⟩) := by
  refine ⟨rfl, fun h => ?_⟩
  have honce := h.once rfl (by decide) (by decide)
  revert honce
  decide

end Itimer
