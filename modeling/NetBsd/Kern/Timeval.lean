import Mathlib

/-!
# Times in seconds and microseconds

The `struct timeval` of `sys/time.h`, with the functions of `kern/kern_time.c` that add them and the
macro of `kern/kern_clock.c` that advances one.

## Main definitions

* `Timeval`, `timevalfix`, `timevaladd`, `timevalsub`, `bumptime`: the functions
* `Timeval.total`: the time in microseconds
* `Timeval.Valid`: a time that is not negative and normalised
-/

structure Timeval where
  tvSec : ℤ
  tvUsec : ℤ
  deriving DecidableEq, Repr

namespace Timeval

def timerisset (tv : Timeval) : Bool := tv.tvSec ≠ 0 ∨ tv.tvUsec ≠ 0

/-- Borrow a second, or carry one. -/
def timevalfix (t : Timeval) : Timeval :=
  let t := if t.tvUsec < 0 then ⟨t.tvSec - 1, t.tvUsec + 1000000⟩ else t
  if 1000000 ≤ t.tvUsec then ⟨t.tvSec + 1, t.tvUsec - 1000000⟩ else t

def timevaladd (t₁ t₂ : Timeval) : Timeval :=
  timevalfix ⟨t₁.tvSec + t₂.tvSec, t₁.tvUsec + t₂.tvUsec⟩

def timevalsub (t₁ t₂ : Timeval) : Timeval :=
  timevalfix ⟨t₁.tvSec - t₂.tvSec, t₁.tvUsec - t₂.tvUsec⟩

/-- `BUMPTIME`: advance a time by microseconds. -/
def bumptime (t : Timeval) (usec : ℤ) : Timeval :=
  let t := { t with tvUsec := t.tvUsec + usec }
  if 1000000 ≤ t.tvUsec then ⟨t.tvSec + 1, t.tvUsec - 1000000⟩ else t

/-- The time in microseconds. -/
def total (tv : Timeval) : ℤ := tv.tvSec * 1000000 + tv.tvUsec

/-- A time that is not negative and normalised. -/
structure Valid (tv : Timeval) : Prop where
  sec : 0 ≤ tv.tvSec
  usec : 0 ≤ tv.tvUsec
  lt : tv.tvUsec < 1000000

variable {tv t t₁ t₂ : Timeval} {usec : ℤ}

@[simp] theorem total_timevalfix : (timevalfix t).total = t.total := by
  rw [timevalfix]
  split_ifs <;> simp only [total] <;> ring

@[simp] theorem total_timevaladd : (timevaladd t₁ t₂).total = t₁.total + t₂.total := by
  rw [timevaladd, total_timevalfix, total, total, total]
  ring

@[simp] theorem total_timevalsub : (timevalsub t₁ t₂).total = t₁.total - t₂.total := by
  rw [timevalsub, total_timevalfix, total, total, total]
  ring

theorem Valid.total_nonneg (h : tv.Valid) : 0 ≤ tv.total := by
  obtain ⟨h1, h2, -⟩ := h
  rw [total]
  omega

theorem timerisset_iff (h : tv.Valid) : timerisset tv ↔ tv.total ≠ 0 := by
  obtain ⟨h1, h2, h3⟩ := h
  rw [total]
  simp only [timerisset, decide_eq_true_eq]
  omega

/-- The time in microseconds, as a number that is not negative. -/
def usecs (tv : Timeval) : ℕ := tv.total.toNat

theorem cast_usecs (h : tv.Valid) : (tv.usecs : ℤ) = tv.tvSec * 1000000 + tv.tvUsec :=
  Int.toNat_of_nonneg h.total_nonneg

theorem timerisset_usecs (h : tv.Valid) : timerisset tv ↔ tv.usecs ≠ 0 := by
  have hnonneg := h.total_nonneg
  rw [timerisset_iff h, usecs]
  omega

/-- A timer that is not set has no time left. -/
theorem usecs_eq_zero (h : tv.Valid) (hoff : ¬timerisset tv) : tv.usecs = 0 := by
  by_contra hne
  exact hoff ((timerisset_usecs h).mpr hne)

end Timeval
