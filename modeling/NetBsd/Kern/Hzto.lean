import Mathlib
import NetBsd.Kern.Itimer

/-!
# hzto

`hzto` of `kern/kern_clock.c` gives the ticks to a time, for `timeout`. It divides the milliseconds
by those of a tick and leaves the rest out, so that a timeout may run up to a tick before its time.
Times that are far off are taken by the second, and those beyond the largest number of ticks are cut
off.

## Main definitions

* `hzto`: the function, with its numbers of type `long`
* `setitimerReal`, `realitexpire`: a real timer is set, and set again when it expires
* `runsAt`: when a timeout that is set to these ticks runs
* `Timely`: how early a timeout runs

## Main results

* `hzto_exact`: for times to come nothing overflows
* `hzto_mono`: a later time does not give fewer ticks
* `hzto_realTimers`: a real timer expires less than a tick before its time, or less than a second
  if it is far off
-/

namespace Hzto

open Timeval Itimer

/-- The value of type `long`. -/
def long (n : ℤ) : ℤ := n.bmod (2 ^ 32)

/-- The microseconds of a tick. -/
def tickOf (hz : ℤ) : ℤ := 1000000 / hz

/-- The ticks to a time. -/
def hzto (hz : ℤ) (time tv : Timeval) : ℤ :=
  let sec := long (tv.tvSec - time.tvSec)
  if sec ≤ 2147483647 / 1000 - 1000 then
    (long (long (long (tv.tvSec - time.tvSec) * 1000) +
      (long (tv.tvUsec - time.tvUsec)).tdiv 1000)).tdiv (tickOf hz / 1000)
  else if sec ≤ 2147483647 / hz then long (sec * hz)
  else 2147483647

/-- A real timer, and the ticks of its timeout, if there is one. -/
def setitimerReal (hz : ℤ) (time : Timeval) (aitv : Itimerval) :
    Option (Itimerval × Option ℤ) := do
  let aitv ← setitimer (tickOf hz) aitv
  if timerisset aitv.itValue then
    let aitv := { aitv with itValue := timevaladd aitv.itValue time }
    some (aitv, some (hzto hz time aitv.itValue))
  else some (aitv, none)

def timercmpGt (tvp uvp : Timeval) : Bool :=
  uvp.tvSec < tvp.tvSec ∨ (tvp.tvSec = uvp.tvSec ∧ uvp.tvUsec < tvp.tvUsec)

/-- Set the timer for its next time to come, in a number of rounds. -/
def realitexpireLoop (hz : ℤ) (time : Timeval) : ℕ → Itimerval → Option (Itimerval × Option ℤ)
  | 0, _ => none
  | fuel + 1, rt =>
    let rt := { rt with itValue := timevaladd rt.itValue rt.itInterval }
    if timercmpGt rt.itValue time then some (rt, some (hzto hz time rt.itValue))
    else realitexpireLoop hz time fuel rt

/-- What is left of a real timer that has sent its signal. -/
def realitexpire (hz : ℤ) (time : Timeval) (fuel : ℕ) (rt : Itimerval) :
    Option (Itimerval × Option ℤ) :=
  if timerisset rt.itInterval then realitexpireLoop hz time fuel rt
  else some ({ rt with itValue := ⟨0, 0⟩ }, none)

/-- The system time when a timeout of `ticks` runs: `timeout` takes one tick at least. -/
def runsAt (hz : ℤ) (time : Timeval) (ticks : ℤ) : ℤ := time.total + max ticks 1 * tickOf hz

/-! ## Times to come -/

/-- The milliseconds to a time, without overflow. -/
def msecs (time tv : Timeval) : ℤ :=
  (tv.tvSec - time.tvSec) * 1000 + (tv.tvUsec - time.tvUsec).tdiv 1000

/-- A time to come that has a value of type `long`. -/
structure Ahead (time tv : Timeval) : Prop where
  now : time.Valid
  valid : tv.Valid
  long : tv.tvSec < 2 ^ 31
  ahead : time.total ≤ tv.total

variable {hz tk n : ℤ} {time tv tv' : Timeval}

theorem long_eq (h : -2 ^ 31 ≤ n) (h' : n < 2 ^ 31) : long n = n := by
  rw [long, Int.bmod_eq_of_le] <;> omega

theorem tdiv_thousand (n : ℤ) :
    n.tdiv 1000 = if 0 ≤ n then n / 1000 else -(-n / 1000) := by
  split_ifs with h
  · exact Int.tdiv_eq_ediv_of_nonneg h
  · rw [← Int.tdiv_eq_ediv_of_nonneg (show 0 ≤ -n by omega), Int.neg_tdiv, neg_neg]

theorem Ahead.sec_nonneg (h : Ahead time tv) : 0 ≤ tv.tvSec - time.tvSec := by
  obtain ⟨⟨h1, h2, h3⟩, ⟨h4, h5, h6⟩, h7, h8⟩ := h
  rw [total, total] at h8
  omega

/-- The milliseconds are those of the time, less than one more or less. -/
theorem Ahead.msecs_bounds (h : Ahead time tv) : 0 ≤ msecs time tv ∧
    tv.total - time.total < msecs time tv * 1000 + 1000 ∧
    msecs time tv < (tv.tvSec - time.tvSec + 1) * 1000 := by
  obtain ⟨⟨h1, h2, h3⟩, ⟨h4, h5, h6⟩, h7, h8⟩ := h
  rw [total, total] at h8
  rw [msecs, total, total, tdiv_thousand]
  split_ifs <;> omega

theorem tick_pos (hhz : hz * tk = 1000) (hpos : 0 < hz) : 0 < tk := by
  by_contra hneg
  have hprod := mul_nonpos_of_nonneg_of_nonpos hpos.le (not_lt.mp hneg)
  omega

theorem tickOf_eq (hhz : hz * tk = 1000) (hpos : 0 < hz) : tickOf hz = tk * 1000 := by
  rw [tickOf, show (1000000 : ℤ) = hz * (tk * 1000) by linarith,
    Int.mul_ediv_cancel_left _ hpos.ne']

/-- For times to come nothing overflows. -/
theorem hzto_exact (hhz : hz * tk = 1000) (hpos : 0 < hz) (h : Ahead time tv) :
    hzto hz time tv =
      if tv.tvSec - time.tvSec ≤ 2146483 then msecs time tv / tk
      else if tv.tvSec - time.tvSec ≤ 2147483647 / hz then (tv.tvSec - time.tvSec) * hz
      else 2147483647 := by
  have hsec := h.sec_nonneg
  have hms := h.msecs_bounds
  have htick : tickOf hz / 1000 = tk := by
    rw [tickOf_eq hhz hpos, Int.mul_ediv_cancel _ (by norm_num)]
  obtain ⟨⟨h1, h2, h3⟩, ⟨h4, h5, h6⟩, h7, h8⟩ := h
  rw [hzto, htick, long_eq (by omega) (by omega)]
  norm_num only
  split_ifs with hnear hfar
  · have hmul : long ((tv.tvSec - time.tvSec) * 1000) = (tv.tvSec - time.tvSec) * 1000 :=
      long_eq (by omega) (by omega)
    have husec : long (tv.tvUsec - time.tvUsec) = tv.tvUsec - time.tvUsec :=
      long_eq (by omega) (by omega)
    rw [hmul, husec, ← msecs, long_eq (by omega) (by omega), Int.tdiv_eq_ediv_of_nonneg hms.1]
  · rw [Int.le_ediv_iff_mul_le hpos] at hfar
    have hnonneg : 0 ≤ (tv.tvSec - time.tvSec) * hz := mul_nonneg hsec hpos.le
    exact long_eq (by omega) (by omega)
  · rfl

theorem msecs_mono (h : Ahead time tv) (h' : Ahead time tv') (hle : tv.total ≤ tv'.total) :
    msecs time tv ≤ msecs time tv' := by
  obtain ⟨⟨h1, h2, h3⟩, ⟨h4, h5, h6⟩, h7, h8⟩ := h
  obtain ⟨-, ⟨h4', h5', h6'⟩, h7', h8'⟩ := h'
  rw [total, total] at hle h8 h8'
  rw [msecs, msecs, tdiv_thousand, tdiv_thousand]
  split_ifs <;> omega

/-- A later time does not give fewer ticks. -/
theorem hzto_mono (hhz : hz * tk = 1000) (hpos : 0 < hz) (h : Ahead time tv)
    (h' : Ahead time tv') (hle : tv.total ≤ tv'.total) :
    hzto hz time tv ≤ hzto hz time tv' := by
  have htk := tick_pos hhz hpos
  have hmono := msecs_mono h h' hle
  obtain ⟨hms, -, hlt⟩ := h.msecs_bounds
  have hsec : tv.tvSec ≤ tv'.tvSec := by
    obtain ⟨-, h5, h6⟩ := h.valid
    obtain ⟨-, h5', h6'⟩ := h'.valid
    rw [total, total] at hle
    omega
  have hnow := h.now.sec
  have hlong := h.long
  rw [hzto_exact hhz hpos h, hzto_exact hhz hpos h']
  -- The formulas change at the same seconds for the two times.
  by_cases hnear' : tv'.tvSec - time.tvSec ≤ 2146483
  · rw [if_pos hnear', if_pos (by omega)]
    exact Int.ediv_le_ediv htk hmono
  rw [if_neg hnear']
  by_cases hnear : tv.tvSec - time.tvSec ≤ 2146483
  · -- A time that is counted in milliseconds, and one a second or more later that is not.
    rw [if_pos hnear]
    split_ifs with hfar'
    · apply Int.ediv_le_of_le_mul htk
      have hstep : (tv.tvSec - time.tvSec + 1) * 1000 ≤ (tv'.tvSec - time.tvSec) * 1000 := by omega
      calc msecs time tv ≤ (tv'.tvSec - time.tvSec) * 1000 := by omega
        _ = (tv'.tvSec - time.tvSec) * hz * tk := by rw [← hhz]; ring
    · have hself := Int.ediv_le_self tk hms
      omega
  rw [if_neg hnear]
  by_cases hfar' : tv'.tvSec - time.tvSec ≤ 2147483647 / hz
  · rw [if_pos hfar', if_pos (by omega)]
    exact mul_le_mul_of_nonneg_right (by omega) hpos.le
  · rw [if_neg hfar']
    split_ifs with hfar
    · exact (Int.le_ediv_iff_mul_le hpos).mp hfar
    · exact le_refl _

/-- How early a timeout runs: less than a tick, or less than a second if it is far off. -/
theorem hzto_early (hhz : hz * tk = 1000) (hpos : 0 < hz) (h : Ahead time tv) :
    (tv.tvSec - time.tvSec ≤ 2146483 →
      tv.total - tickOf hz < runsAt hz time (hzto hz time tv)) ∧
    (tv.tvSec - time.tvSec ≤ 2147483647 / hz →
      tv.total - 1000000 < runsAt hz time (hzto hz time tv)) ∧
    (2147483647 / hz < tv.tvSec - time.tvSec → hzto hz time tv = 2147483647) := by
  have htk := tick_pos hhz hpos
  have htick := tickOf_eq hhz hpos
  obtain ⟨hms, hlt, -⟩ := h.msecs_bounds
  have hnear : tv.tvSec - time.tvSec ≤ 2146483 →
      tv.total - tickOf hz < runsAt hz time (hzto hz time tv) := by
    intro hsec
    have hdiv := Int.lt_ediv_add_one_mul_self (msecs time tv) htk
    rw [hzto_exact hhz hpos h, if_pos hsec, runsAt, htick]
    have hmax : msecs time tv / tk * tk ≤ max (msecs time tv / tk) 1 * tk :=
      mul_le_mul_of_nonneg_right (le_max_left _ _) htk.le
    have hscale : max (msecs time tv / tk) 1 * (tk * 1000) =
        max (msecs time tv / tk) 1 * tk * 1000 := by ring
    rw [hscale]
    rw [add_mul, one_mul] at hdiv
    omega
  refine ⟨hnear, ?_, ?_⟩
  · intro hsec
    by_cases hn : tv.tvSec - time.tvSec ≤ 2146483
    · have hle : tickOf hz ≤ 1000000 := Int.ediv_le_self _ (by norm_num)
      have hearly := hnear hn
      omega
    · -- The seconds are exact, and only the microseconds are left out.
      have hscale : (tv.tvSec - time.tvSec) * hz * tickOf hz =
          (tv.tvSec - time.tvSec) * 1000000 := by
        rw [htick, show (1000000 : ℤ) = hz * tk * 1000 by omega]
        ring
      have hmax := mul_le_mul_of_nonneg_right
        (le_max_left ((tv.tvSec - time.tvSec) * hz) 1) (show 0 ≤ tickOf hz by omega)
      rw [hzto_exact hhz hpos h, if_neg hn, if_pos hsec, runsAt]
      obtain ⟨⟨h1, h2, h3⟩, ⟨h4, h5, h6⟩, h7, h8⟩ := h
      simp only [total]
      omega
  · -- What is cut off is behind the times that are counted in milliseconds.
    intro hsec
    have hle : hz ≤ 1000 := by
      rw [← hhz]
      exact le_mul_of_one_le_right hpos.le htk
    have hcut : 2147483 ≤ 2147483647 / hz := by
      rw [Int.le_ediv_iff_mul_le hpos]
      omega
    rw [hzto_exact hhz hpos h, if_neg (by omega), if_neg (by omega)]

/-! ## Real timers -/

theorem valid_timevaladd {t₁ t₂ : Timeval} (h₁ : t₁.Valid) (h₂ : t₂.Valid) :
    (timevaladd t₁ t₂).Valid := by
  obtain ⟨h1, h2, h3⟩ := h₁
  obtain ⟨h4, h5, h6⟩ := h₂
  have hneg : ¬t₁.tvUsec + t₂.tvUsec < 0 := by omega
  simp only [timevaladd, timevalfix, hneg, if_false]
  split_ifs with hcarry
  · exact ⟨by dsimp only; omega, by dsimp only; omega, by dsimp only; omega⟩
  · exact ⟨by dsimp only; omega, by dsimp only; omega, by dsimp only; omega⟩

theorem timercmpGt_iff (h : tv.Valid) (h' : tv'.Valid) :
    timercmpGt tv tv' ↔ tv'.total < tv.total := by
  obtain ⟨h1, h2, h3⟩ := h
  obtain ⟨h4, h5, h6⟩ := h'
  simp only [timercmpGt, total, decide_eq_true_eq]
  omega

/-- The timer is set for a time to come, with the ticks to it. -/
structure Armed (hz : ℤ) (time : Timeval) (r : Itimerval × Option ℤ) : Prop where
  ticks : ∀ n, r.2 = some n → n = hzto hz time r.1.itValue
  ahead : r.2.isSome → r.1.itValue.tvSec < 2 ^ 31 → Ahead time r.1.itValue

variable {aitv rt : Itimerval} {r : Itimerval × Option ℤ} {fuel : ℕ}

/-- A timer without a timeout is not armed for anything. -/
theorem armed_off (it : Itimerval) : Armed hz time (it, none) :=
  ⟨fun n hn => (Option.some_ne_none n hn.symm).elim, fun hsome => (Bool.false_ne_true hsome).elim⟩

theorem setitimerReal_armed (hlt : tickOf hz < 1000000) (hpos : 0 ≤ tickOf hz)
    (hnow : time.Valid) (h : setitimerReal hz time aitv = some r) : Armed hz time r := by
  obtain ⟨tick, htick⟩ := Int.eq_ofNat_of_zero_le hpos
  rw [htick] at hlt
  obtain ⟨itv, hset, h⟩ := Option.bind_eq_some_iff.mp h
  rw [htick] at hset
  have hready := setitimer_ready (by omega) hset
  split_ifs at h with hon
  · obtain rfl := Option.some.inj h
    refine ⟨fun n hn => (Option.some.inj hn).symm, fun _ hlong => ?_⟩
    refine ⟨hnow, valid_timevaladd hready.value hnow, hlong, ?_⟩
    have hnonneg := hready.value.total_nonneg
    rw [total_timevaladd]
    omega
  · obtain rfl := Option.some.inj h
    exact armed_off _

theorem realitexpireLoop_armed (hnow : time.Valid) (hv : rt.itValue.Valid)
    (hi : rt.itInterval.Valid) (h : realitexpireLoop hz time fuel rt = some r) :
    Armed hz time r := by
  induction fuel generalizing rt with
  | zero => cases h
  | succ fuel ih =>
    rw [realitexpireLoop] at h
    have hvalid := valid_timevaladd hv hi
    split_ifs at h with hlater
    · obtain rfl := Option.some.inj h
      refine ⟨fun n hn => (Option.some.inj hn).symm, fun _ hlong => ?_⟩
      exact ⟨hnow, hvalid, hlong, ((timercmpGt_iff hvalid hnow).mp hlater).le⟩
    · exact @ih { rt with itValue := timevaladd rt.itValue rt.itInterval } hvalid hi h

theorem realitexpire_armed (hnow : time.Valid) (hv : rt.itValue.Valid)
    (hi : rt.itInterval.Valid) (h : realitexpire hz time fuel rt = some r) : Armed hz time r := by
  rw [realitexpire] at h
  split_ifs at h with hset
  · exact realitexpireLoop_armed hnow hv hi h
  · obtain rfl := Option.some.inj h
    exact armed_off _

/-- The loop ends: each round goes on by the interval. -/
theorem realitexpireLoop_ends (hnow : time.Valid) (hv : rt.itValue.Valid)
    (hi : rt.itInterval.Valid) (hset : timerisset rt.itInterval)
    (hfuel : time.total < rt.itValue.total + fuel) :
    (realitexpireLoop hz time (fuel + 1) rt).isSome := by
  have hpos : 0 < rt.itInterval.total :=
    lt_of_le_of_ne hi.total_nonneg ((timerisset_iff hi).mp hset).symm
  induction fuel generalizing rt with
  | zero =>
    have hvalid := valid_timevaladd hv hi
    rw [realitexpireLoop]
    dsimp only
    rw [if_pos]
    · rfl
    · rw [timercmpGt_iff hvalid hnow, total_timevaladd]
      omega
  | succ fuel ih =>
    rw [realitexpireLoop]
    have hvalid := valid_timevaladd hv hi
    split_ifs with hlater
    · rfl
    · apply @ih { rt with itValue := timevaladd rt.itValue rt.itInterval } hvalid hi hset _ hpos
      dsimp only
      rw [total_timevaladd]
      push_cast at hfuel
      omega

theorem realitexpire_ends (hnow : time.Valid) (hv : rt.itValue.Valid) (hi : rt.itInterval.Valid) :
    ∃ fuel, (realitexpire hz time fuel rt).isSome := by
  by_cases hset : timerisset rt.itInterval
  · refine ⟨(time.total - rt.itValue.total).toNat + 1 + 1, ?_⟩
    rw [realitexpire, if_pos hset]
    exact realitexpireLoop_ends hnow hv hi hset (by push_cast; omega)
  · refine ⟨0, ?_⟩
    rw [realitexpire, if_neg hset]
    rfl

/-- The ticks to a time to come are those of the formulas, without overflow, a later time does not
give fewer, and the timeout runs less than a tick before the time, or less than a second if it is
more than 24 days off. -/
structure Timely (hz tk : ℤ) (time tv : Timeval) : Prop where
  exact : hzto hz time tv =
    if tv.tvSec - time.tvSec ≤ 2146483 then msecs time tv / tk
    else if tv.tvSec - time.tvSec ≤ 2147483647 / hz then (tv.tvSec - time.tvSec) * hz
    else 2147483647
  mono : ∀ tv', Ahead time tv' → tv.total ≤ tv'.total → hzto hz time tv ≤ hzto hz time tv'
  near : tv.tvSec - time.tvSec ≤ 2146483 →
    tv.total - tickOf hz < runsAt hz time (hzto hz time tv)
  far : tv.tvSec - time.tvSec ≤ 2147483647 / hz →
    tv.total - 1000000 < runsAt hz time (hzto hz time tv)
  cut : 2147483647 / hz < tv.tvSec - time.tvSec → hzto hz time tv = 2147483647

/-- The times to come, and the times that real timers are set to. -/
structure RealTimers (hz tk : ℤ) : Prop where
  timely : ∀ time tv, Ahead time tv → Timely hz tk time tv
  setitimer : ∀ time aitv r, time.Valid → setitimerReal hz time aitv = some r → Armed hz time r
  ends : ∀ time rt, time.Valid → rt.itValue.Valid → rt.itInterval.Valid →
    ∃ fuel, (realitexpire hz time fuel rt).isSome
  realitexpire : ∀ time rt fuel r, time.Valid → rt.itValue.Valid → rt.itInterval.Valid →
    realitexpire hz time fuel rt = some r → Armed hz time r

/-- Real timers are timely where a tick is a number of milliseconds. -/
theorem hzto_realTimers (hz tk : ℤ) (hhz : hz * tk = 1000) (hpos : 1 < hz) :
    RealTimers hz tk where
  timely time tv h := by
    have hearly := hzto_early hhz (by omega) h
    exact ⟨hzto_exact hhz (by omega) h, fun tv' h' hle => hzto_mono hhz (by omega) h h' hle,
      hearly.1, hearly.2.1, hearly.2.2⟩
  setitimer time aitv r hnow h := by
    have hlt : tickOf hz < 1000000 := Int.ediv_lt_of_lt_mul (by omega) (by omega)
    have hnonneg : 0 ≤ tickOf hz := Int.ediv_nonneg (by norm_num) (by omega)
    exact setitimerReal_armed hlt hnonneg hnow h
  ends time rt hnow hv hi := realitexpire_ends hnow hv hi
  realitexpire time rt fuel r hnow hv hi h := realitexpire_armed hnow hv hi h

/-- A clock of 100 ticks a second. -/
theorem hzto_realTimers_hundred : RealTimers 100 10 :=
  hzto_realTimers 100 10 (by decide) (by decide)

/-- A timer of 15 ms has a timeout of one tick, which is 5 ms early; with 60 ticks a second a time
that is a second later may have fewer ticks; and the seconds to a time in the past overflow. -/
theorem hzto_not_timely :
    (setitimerReal 100 ⟨1000, 0⟩ ⟨⟨0, 0⟩, ⟨0, 15000⟩⟩ =
      some (⟨⟨0, 0⟩, ⟨1000, 15000⟩⟩, some 1) ∧
      runsAt 100 ⟨1000, 0⟩ 1 = total ⟨1000, 15000⟩ - 5000) ∧
    hzto 60 ⟨0, 0⟩ ⟨2146484, 0⟩ < hzto 60 ⟨0, 0⟩ ⟨2146483, 0⟩ ∧
    hzto 100 ⟨2147483647, 0⟩ ⟨2147483646, 0⟩ = -100 ∧
    hzto 100 ⟨2147483647, 0⟩ ⟨-2147483648, 0⟩ = 100 := by
  decide

end Hzto
