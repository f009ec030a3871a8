import Mathlib.Tactic.Common

/-!
# Deterministic machines

A machine is a step function on states: a step moves to a next state, returns a value, or
faults. Its run from a state follows the steps until one of them returns or faults. The
rules below lift what one step does to what a run does.

## Main definitions

* `Machine.Outcome`: what one step, or a bounded run, comes to
* `Machine.run step n s`: at most `n` steps from `s`
* `Machine.Reached step s t`: the run from `s` passes through `t`
* `Machine.Outcome.Rel R`: two outcomes of one kind, their next states related by `R`

## Main results

* `Machine.Reached.invariant`: what every step preserves holds at every reached state
* `Machine.exists_ret_of_measure`: a run whose steps decrease a measure and never fault
  returns
* `Machine.step_ne_fault_of_run_ret`: a run that returns meets no fault
* `Machine.run_rel`: related steps give related runs
-/

namespace Machine

variable {σ ρ φ τ : Type}

/-- What one step of a machine, or a bounded run of it, comes to. -/
inductive Outcome (σ ρ φ : Type) where
  | next (s : σ)
  | ret (v : ρ)
  | fault (e : φ)
  deriving DecidableEq, Repr

/-- Continue an outcome that has not ended. -/
def Outcome.bind (o : Outcome σ ρ φ) (f : σ → Outcome τ ρ φ) : Outcome τ ρ φ :=
  match o with
  | .next s => f s
  | .ret v => .ret v
  | .fault e => .fault e

@[simp] theorem Outcome.bind_next (s : σ) (f : σ → Outcome τ ρ φ) :
    (Outcome.next s).bind f = f s := rfl

@[simp] theorem Outcome.bind_ret (v : ρ) (f : σ → Outcome τ ρ φ) :
    (Outcome.ret v).bind f = .ret v := rfl

@[simp] theorem Outcome.bind_fault (e : φ) (f : σ → Outcome τ ρ φ) :
    (Outcome.fault e).bind f = .fault e := rfl

@[simp] theorem Outcome.bind_next_right (o : Outcome σ ρ φ) : o.bind .next = o := by
  cases o <;> rfl

/-- At most `n` steps from `s`; `next t` when the run is still going after `n` of them. -/
def run (step : σ → Outcome σ ρ φ) : ℕ → σ → Outcome σ ρ φ
  | 0, s => .next s
  | n + 1, s => (step s).bind (run step n)

/-- The run from `s` passes through `t`. -/
def Reached (step : σ → Outcome σ ρ φ) (s t : σ) : Prop :=
  ∃ n, run step n s = .next t

section Run

variable {step : σ → Outcome σ ρ φ} {s t u : σ}

@[simp] theorem run_zero : run step 0 s = .next s := rfl

theorem run_succ (n : ℕ) : run step (n + 1) s = (step s).bind (run step n) := rfl

/-- The last step of a run, rather than its first, set apart. -/
theorem run_succ' (n : ℕ) : run step (n + 1) s = (run step n s).bind step := by
  induction n generalizing s with
  | zero => rw [run_succ, run_zero, Outcome.bind_next]; exact Outcome.bind_next_right _
  | succ n ih =>
    rw [run_succ, run_succ n]
    cases step s with
    | next t => simpa using ih
    | ret v => rfl
    | fault e => rfl

theorem Reached.refl (step : σ → Outcome σ ρ φ) (s : σ) : Reached step s s := ⟨0, rfl⟩

theorem Reached.tail (h : step t = .next u) : Reached step s t → Reached step s u
  | ⟨n, hn⟩ => ⟨n + 1, by rw [run_succ', hn, Outcome.bind_next, h]⟩

/-- What holds at the start and is preserved by every step made along the run holds at
every state the run passes through. -/
theorem Reached.invariant {P : σ → Prop} (h₀ : P s)
    (hstep : ∀ t u, Reached step s t → P t → step t = .next u → P u)
    (h : Reached step s t) : P t := by
  obtain ⟨n, hn⟩ := h
  induction n generalizing t with
  | zero =>
    obtain rfl : s = t := by simpa using hn
    exact h₀
  | succ n ih =>
    rw [run_succ'] at hn
    cases hr : run step n s with
    | next w =>
      rw [hr] at hn
      exact hstep w t ⟨n, hr⟩ (ih hr) hn
    | ret v => simp [hr] at hn
    | fault e => simp [hr] at hn

/-- A run whose every step returns, or goes on with a smaller measure, returns. -/
theorem exists_ret_of_measure (step : σ → Outcome σ ρ φ) (m : σ → ℕ)
    (hstep : ∀ t, Reached step s t →
      (∃ v, step t = .ret v) ∨ ∃ u, step t = .next u ∧ m u < m t) :
    ∃ n v, run step n s = .ret v := by
  have key : ∀ k t, m t ≤ k → Reached step s t → ∃ n v, run step n s = .ret v := by
    intro k
    induction k with
    | zero =>
      intro t hk ⟨n, hn⟩
      obtain ⟨v, hv⟩ | ⟨u, -, hu⟩ := hstep t ⟨n, hn⟩
      · exact ⟨n + 1, v, by rw [run_succ', hn, Outcome.bind_next, hv]⟩
      · omega
    | succ k ih =>
      intro t hk ⟨n, hn⟩
      obtain ⟨v, hv⟩ | ⟨u, hu, hlt⟩ := hstep t ⟨n, hn⟩
      · exact ⟨n + 1, v, by rw [run_succ', hn, Outcome.bind_next, hv]⟩
      · exact ih u (by omega) (Reached.tail hu ⟨n, hn⟩)
  exact key (m s) s (Nat.le_refl _) (Reached.refl step s)

/-- A machine that returns its state returns a state that its run passes through. -/
theorem reached_of_run_ret {step : σ → Outcome σ σ φ} {s v : σ} {n : ℕ}
    (hret : ∀ t w, step t = .ret w → w = t) (h : run step n s = .ret v) : Reached step s v := by
  induction n with
  | zero => cases h
  | succ n ih =>
    rw [run_succ'] at h
    cases hr : run step n s with
    | next t =>
      rw [hr, Outcome.bind_next] at h
      obtain rfl := hret t v h
      exact ⟨n, hr⟩
    | ret w =>
      rw [hr, Outcome.bind_ret] at h
      cases h
      exact ih hr
    | fault e =>
      rw [hr, Outcome.bind_fault] at h
      cases h

/-- A run that has ended stays as it is. -/
theorem run_add_of_ne_next {n : ℕ} {o : Outcome σ ρ φ} (ho : ∀ t, o ≠ .next t)
    (h : run step n s = o) (k : ℕ) : run step (n + k) s = o := by
  induction k with
  | zero => exact h
  | succ k ih =>
    rw [← Nat.add_assoc, run_succ', ih]
    cases o with
    | next t => exact absurd rfl (ho t)
    | ret v => rfl
    | fault e => rfl

/-- Two runs from one state that have ended are the same. -/
theorem run_unique_of_ne_next {n k : ℕ} {o o' : Outcome σ ρ φ} (ho : ∀ t, o ≠ .next t)
    (ho' : ∀ t, o' ≠ .next t) (h : run step n s = o) (h' : run step k s = o') : o = o' := by
  rw [← run_add_of_ne_next ho h k, Nat.add_comm, run_add_of_ne_next ho' h' n]

/-- A run that returns is still going, or has returned, after any number of steps. -/
theorem run_ne_fault_of_run_ret {n : ℕ} {v : ρ} (h : run step n s = .ret v) (k : ℕ) (e : φ) :
    run step k s ≠ .fault e := by
  intro hk
  have heq := run_unique_of_ne_next (by simp) (by simp) h hk
  cases heq

/-- A run that returns meets no fault. -/
theorem step_ne_fault_of_run_ret {n : ℕ} {v : ρ} (h : run step n s = .ret v)
    (ht : Reached step s t) (e : φ) : step t ≠ .fault e := by
  obtain ⟨k, hk⟩ := ht
  intro hf
  exact run_ne_fault_of_run_ret h (k + 1) e (by rw [run_succ', hk, Outcome.bind_next, hf])

end Run

/-- Two outcomes of one kind, with equal values and next states related by `R`. -/
inductive Outcome.Rel (R : σ → τ → Prop) : Outcome σ ρ φ → Outcome τ ρ φ → Prop
  | next {s t} : R s t → Rel R (.next s) (.next t)
  | ret (v) : Rel R (.ret v) (.ret v)
  | fault (e) : Rel R (.fault e) (.fault e)

theorem Outcome.Rel.of_eq {R : σ → σ → Prop} (hR : ∀ s, R s s) (o : Outcome σ ρ φ) :
    o.Rel R o := by
  cases o with
  | next s => exact .next (hR s)
  | ret v => exact .ret v
  | fault e => exact .fault e

/-- Two machines whose steps keep a relation, at least along the run of the first, give
related runs. -/
theorem run_rel {R : σ → τ → Prop} (step : σ → Outcome σ ρ φ) (step' : τ → Outcome τ ρ φ)
    {s : σ} {s' : τ} (h₀ : R s s')
    (hstep : ∀ t t', Reached step s t → R t t' → (step t).Rel R (step' t')) (n : ℕ) :
    (run step n s).Rel R (run step' n s') := by
  induction n with
  | zero => exact .next h₀
  | succ n ih =>
    rw [run_succ', run_succ']
    cases h : run step n s with
    | next t =>
      rw [h] at ih
      generalize run step' n s' = o' at ih
      cases ih with
      | next hR => exact hstep _ _ ⟨n, h⟩ hR
    | ret v =>
      rw [h] at ih
      generalize run step' n s' = o' at ih
      cases ih
      exact .ret v
    | fault e =>
      rw [h] at ih
      generalize run step' n s' = o' at ih
      cases ih
      exact .fault e

end Machine
