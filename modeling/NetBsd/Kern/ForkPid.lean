import Mathlib.Data.List.Perm.Basic
import Mathlib.Order.Nat
import NetBsd.Lib.Machine

/-!
# Process numbers

The search of `fork1` in `kern/kern_fork.c` for the number of a new process, over the lists of
active and zombie processes, with the range of numbers that it remembers from one fork to the next.
A process that uses a number with its group right behind its own, or the other way round, can trip
the search: it moves on to the second number at that process, and does not look at the process
again.

## Main definitions

* `pass`: one scan over the processes
* `attempt`: from one `retry` to the next
* `Trips`: the search settles on a number that it moved to at a process which uses it
* `Reached`: the states of runs

## Main results

* `forkPid_spec`: the search ends if there is an unused number, and settles on an unused number
  unless it trips
* `not_forkPid`: a run in which it trips
-/

namespace ForkPid

open Machine

/-- `PID_MAX`. -/
def pidMax : ℕ := 30000

/-- `p_pid` and `p_pgrp->pg_id` of a process. -/
structure Proc where
  pid : ℕ
  pgid : ℕ
  deriving DecidableEq, Repr

/-- The process has the number, or is in the process group with it. -/
def Proc.Uses (p : Proc) (v : ℕ) : Prop := p.pid = v ∨ p.pgid = v

instance (p : Proc) (v : ℕ) : Decidable (p.Uses v) := inferInstanceAs (Decidable (_ ∨ _))

/-- How a scan ends, with `nextpid` and `pidchecked`: `goto retry`, or at the end of the lists. -/
inductive Pass where
  | retry (nextpid pidchecked : ℕ)
  | settled (nextpid pidchecked : ℕ)

/-- The bound after looking at a number. -/
def lower (nextpid pidchecked v : ℕ) : ℕ :=
  if v > nextpid ∧ pidchecked > v then v else pidchecked

/-- The bound after looking at a process. -/
def lowerBoth (nextpid pidchecked : ℕ) (p : Proc) : ℕ :=
  lower nextpid (lower nextpid pidchecked p.pid) p.pgid

/-- The scan over the processes. -/
def pass : List Proc → ℕ → ℕ → Pass
  | [], nextpid, pidchecked => .settled nextpid pidchecked
  | p :: rest, nextpid, pidchecked =>
    if p.Uses nextpid then
      if nextpid + 1 ≥ pidchecked then .retry (nextpid + 1) pidchecked
      else pass rest (nextpid + 1) (lowerBoth (nextpid + 1) pidchecked p)
    else pass rest nextpid (lowerBoth nextpid pidchecked p)

/-- The prototype wraps around to 100. -/
def wrap : ℕ × ℕ → ℕ × ℕ
  | (nextpid, pidchecked) => if nextpid ≥ pidMax then (100, 0) else (nextpid, pidchecked)

/-- The search from the label `retry` on. -/
def attempt (procs : List Proc) (s : ℕ × ℕ) : Outcome (ℕ × ℕ) (ℕ × ℕ) Empty :=
  let (nextpid, pidchecked) := wrap s
  if nextpid ≥ pidchecked then
    match pass procs nextpid pidMax with
    | .retry nextpid pidchecked => .next (nextpid, pidchecked)
    | .settled nextpid pidchecked => .ret (nextpid, pidchecked)
  else .ret (nextpid, pidchecked)

/-! ## Tripping -/

/-- The scan settles, and it moved to its last number at a process that uses it. -/
def PassTrips : List Proc → ℕ → ℕ → Prop → Prop
  | [], _, _, tripped => tripped
  | p :: rest, nextpid, pidchecked, tripped =>
    if p.Uses nextpid then
      if nextpid + 1 ≥ pidchecked then False
      else PassTrips rest (nextpid + 1) (lowerBoth (nextpid + 1) pidchecked p)
        (p.Uses (nextpid + 1))
    else PassTrips rest nextpid (lowerBoth nextpid pidchecked p) tripped

/-- The search settles by a scan that moved to its last number at a process whose number and group
are that number and the one before. -/
inductive Trips (procs : List Proc) : ℕ × ℕ → Prop
  | retry {s t} : attempt procs s = .next t → Trips procs t → Trips procs s
  | settled {s nextpid pidchecked} : wrap s = (nextpid, pidchecked) → nextpid ≥ pidchecked →
      PassTrips procs nextpid pidMax False → Trips procs s

/-! ## The system -/

/-- The static variables of `fork1`, and the two lists of processes. -/
structure St where
  nextpid : ℕ
  pidchecked : ℕ
  allproc : List Proc
  zombproc : List Proc

/-- The processes in the order of the scan. -/
def St.procs (s : St) : List Proc := s.allproc ++ s.zombproc

/-- The search of a fork ends with these values. -/
def St.Settles (s : St) (r : ℕ × ℕ) : Prop :=
  ∃ fuel, run (attempt s.procs) fuel (s.nextpid + 1, s.pidchecked) = .ret r

/-- A fork, an exit, the reaping of a zombie, a change of process group, and any other order of the
lists. A process changes to a group of its own number or to a group that has a member. -/
inductive Step : St → St → Prop
  | fork {s n c} (parent : Proc) : parent ∈ s.allproc → s.Settles (n, c) →
      Step s { s with
        nextpid := n, pidchecked := c, allproc := ⟨n, parent.pgid⟩ :: s.allproc }
  | exit {s p l r} : s.allproc = l ++ p :: r →
      Step s { s with allproc := l ++ r, zombproc := p :: s.zombproc }
  | reap {s p l r} : s.zombproc = l ++ p :: r → Step s { s with zombproc := l ++ r }
  | setpgrp {s p l r g} : s.allproc = l ++ p :: r → g = p.pid ∨ (∃ q ∈ s.procs, q.pgid = g) →
      Step s { s with allproc := l ++ { p with pgid := g } :: r }
  | reorder {s a z} : a.Perm s.allproc → z.Perm s.zombproc →
      Step s { s with allproc := a, zombproc := z }

/-- The states of runs, which begin with nothing remembered. -/
inductive Reached : St → Prop
  | start (allproc zombproc : List Proc) : Reached ⟨0, 0, allproc, zombproc⟩
  | step {s s'} : Reached s → Step s s' → Reached s'

/-! ## The scan -/

section Scan

variable {p : Proc} {pre rest procs : List Proc} {n c n' c' u v : ℕ} {t : Prop}

theorem lowerBoth_le : lowerBoth n c p ≤ c := by
  simp only [lowerBoth, lower]
  split_ifs <;> omega

theorem lt_lowerBoth (h : n < c) : n < lowerBoth n c p := by
  simp only [lowerBoth, lower]
  split_ifs <;> omega

/-- A number that the process uses is below the prototype, is the prototype, or is not below the
bound. -/
theorem lowerBoth_uses (h : p.Uses v) : v ≤ n ∨ lowerBoth n c p ≤ v := by
  simp only [lowerBoth, lower]
  rcases h with rfl | rfl <;> split_ifs <;> omega

/-- What the scan knows of the processes it has seen: they use no number from `n` up to `c`, but for
`n` itself when the scan has tripped. -/
structure Seen (pre : List Proc) (n c : ℕ) (t : Prop) : Prop where
  lt : n < c
  free : ∀ q ∈ pre, ∀ v, q.Uses v → v < n ∨ c ≤ v ∨ v = n ∧ t
  tripped : t → ∃ q ∈ pre, q.Uses n

theorem Seen.move (h : Seen pre n c t) (hc : ¬n + 1 ≥ c) :
    Seen (pre ++ [p]) (n + 1) (lowerBoth (n + 1) c p) (p.Uses (n + 1)) where
  lt := lt_lowerBoth (by omega)
  free q hq v hv := by
    have hle : lowerBoth (n + 1) c p ≤ c := lowerBoth_le
    rcases List.mem_append.mp hq with hq | hq
    · rcases h.free q hq v hv with h | h | h <;> omega
    · rw [List.mem_singleton.mp hq] at hv
      -- the process that was moved at may use the new number
      rcases Nat.lt_trichotomy v (n + 1) with hlt | rfl | hgt
      · exact Or.inl hlt
      · exact Or.inr (Or.inr ⟨rfl, hv⟩)
      · rcases lowerBoth_uses (n := n + 1) (c := c) hv with h | h <;> omega
  tripped h := ⟨p, by simp, h⟩

theorem Seen.stay (h : Seen pre n c t) (hp : ¬p.Uses n) :
    Seen (pre ++ [p]) n (lowerBoth n c p) t where
  lt := lt_lowerBoth h.lt
  free q hq v hv := by
    have hle : lowerBoth n c p ≤ c := lowerBoth_le
    rcases List.mem_append.mp hq with hq | hq
    · rcases h.free q hq v hv with h | h | h
      · exact Or.inl h
      · exact Or.inr (Or.inl (hle.trans h))
      · exact Or.inr (Or.inr h)
    · rw [List.mem_singleton.mp hq] at hv
      have hne : v ≠ n := by
        rintro rfl
        exact hp hv
      rcases lowerBoth_uses (n := n) (c := c) hv with h | h
      · exact Or.inl (by omega)
      · exact Or.inr (Or.inl h)
  tripped ht := by
    obtain ⟨q, hq, hqn⟩ := h.tripped ht
    exact ⟨q, by simp [hq], hqn⟩

/-- A scan that settles has seen all processes. -/
theorem pass_settled (h : Seen pre n c t) (hp : pass rest n c = .settled n' c') :
    Seen (pre ++ rest) n' c' (PassTrips rest n c t) ∧ c' ≤ c := by
  induction rest generalizing pre n c t with
  | nil =>
    cases hp
    exact ⟨by simpa [PassTrips] using h, le_rfl⟩
  | cons p rest ih =>
    rw [pass] at hp
    rw [PassTrips]
    split_ifs at hp ⊢ with huse hc
    · obtain ⟨hs, hle⟩ := ih (h.move hc) hp
      exact ⟨by simpa using hs, hle.trans lowerBoth_le⟩
    · obtain ⟨hs, hle⟩ := ih (h.stay huse) hp
      exact ⟨by simpa using hs, hle.trans lowerBoth_le⟩

/-- A scan that starts again has moved, not beyond the bound, and not past an unused number. -/
theorem pass_retry (hlt : n < c) (hp : pass rest n c = .retry n' c') :
    n < n' ∧ n' ≤ c ∧ c' ≤ n' ∧ ∀ u, n ≤ u → (∀ q ∈ rest, ¬q.Uses u) → n' ≤ u := by
  induction rest generalizing n c with
  | nil => cases hp
  | cons p rest ih =>
    have hmove : p.Uses n → ∀ u, n ≤ u → (∀ q ∈ p :: rest, ¬q.Uses u) → n + 1 ≤ u := by
      intro huse u hu hfree
      rcases Nat.lt_or_eq_of_le hu with h | rfl
      · exact h
      · exact absurd huse (hfree p List.mem_cons_self)
    rw [pass] at hp
    split_ifs at hp with huse hc
    · cases hp
      exact ⟨by omega, by omega, by omega, hmove huse⟩
    · obtain ⟨h₁, h₂, h₄, h₃⟩ := ih (lt_lowerBoth (by omega)) hp
      refine ⟨by omega, h₂.trans lowerBoth_le, h₄, fun u hu hfree => ?_⟩
      exact h₃ u (hmove huse u hu hfree) fun q hq => hfree q (List.mem_cons_of_mem _ hq)
    · obtain ⟨h₁, h₂, h₄, h₃⟩ := ih (lt_lowerBoth hlt) hp
      refine ⟨h₁, h₂.trans lowerBoth_le, h₄, fun u hu hfree => ?_⟩
      exact h₃ u hu fun q hq => hfree q (List.mem_cons_of_mem _ hq)

theorem not_passTrips_of_retry (hp : pass rest n c = .retry n' c') : ¬PassTrips rest n c t := by
  induction rest generalizing n c t with
  | nil => cases hp
  | cons p rest ih =>
    rw [pass] at hp
    rw [PassTrips]
    split_ifs at hp ⊢
    · exact id
    · exact ih hp
    · exact ih hp

theorem seen_nil (h : n < c) : Seen [] n c False :=
  ⟨h, fun _ hq => absurd hq List.not_mem_nil, False.elim⟩

end Scan

/-! ## The search -/

section Search

variable {procs : List Proc} {s t r : ℕ × ℕ} {u : ℕ}

theorem wrap_lt (s : ℕ × ℕ) : (wrap s).1 < pidMax := by
  obtain ⟨n, c⟩ := s
  simp only [wrap]
  split_ifs with h
  · decide
  · exact Nat.lt_of_not_le h

/-- What the search remembers: the processes use no number strictly between. -/
def Remembers (procs : List Proc) (n c : ℕ) : Prop :=
  ∀ p ∈ procs, ∀ v, p.Uses v → v ≤ n ∨ c ≤ v

/-- Where a search ends: nothing behind its number up to the bound is used, and its number is used
if and only if the search trips. -/
theorem run_attempt {fuel n c : ℕ} (hrem : ∀ p ∈ procs, ∀ v, p.Uses v → v < s.1 ∨ s.2 ≤ v)
    (h : run (attempt procs) fuel s = .ret (n, c)) :
    Remembers procs n c ∧ ((∃ p ∈ procs, p.Uses n) ↔ Trips procs s) := by
  induction fuel generalizing s with
  | zero => cases h
  | succ fuel ih =>
    rw [run_succ] at h
    obtain ⟨n₀, c₀⟩ := s
    have hlt := wrap_lt (n₀, c₀)
    generalize hw : wrap (n₀, c₀) = w at hlt
    obtain ⟨n₁, c₁⟩ := w
    have hatt : attempt procs (n₀, c₀) = if n₁ ≥ c₁ then
        match pass procs n₁ pidMax with
        | .retry n c => .next (n, c)
        | .settled n c => .ret (n, c)
      else .ret (n₁, c₁) := by
      simp only [attempt, hw]
    by_cases hc : n₁ ≥ c₁
    · rw [if_pos hc] at hatt
      cases hp : pass procs n₁ pidMax with
      | retry n' c' =>
        rw [hp] at hatt
        rw [hatt, Outcome.bind_next] at h
        -- a scan that starts again remembers nothing
        obtain ⟨-, -, hle, -⟩ := pass_retry hlt hp
        obtain ⟨hrem', hiff⟩ := ih (s := (n', c')) (fun p _ v _ => by dsimp only; omega) h
        refine ⟨hrem', hiff.trans ⟨Trips.retry hatt, fun ht => ?_⟩⟩
        cases ht with
        | retry ha ht =>
          rw [hatt] at ha
          cases ha
          exact ht
        | settled hw' _ ht =>
          rw [hw] at hw'
          cases hw'
          exact absurd ht (not_passTrips_of_retry hp)
      | settled n' c' =>
        rw [hp] at hatt
        rw [hatt] at h
        cases h
        obtain ⟨hseen, -⟩ := pass_settled (seen_nil hlt) hp
        rw [List.nil_append] at hseen
        refine ⟨fun p hpm v hv => ?_, fun hused => ?_, fun ht => ?_⟩
        · rcases hseen.free p hpm v hv with h | h | h <;> omega
        · obtain ⟨p, hpm, hv⟩ := hused
          refine Trips.settled hw hc ?_
          rcases hseen.free p hpm _ hv with h | h | h
          · exact absurd h (Nat.lt_irrefl _)
          · exact absurd hseen.lt (Nat.not_lt.mpr h)
          · exact h.2
        · cases ht with
          | retry ha _ =>
            rw [hatt] at ha
            cases ha
          | settled hw' _ ht =>
            rw [hw] at hw'
            cases hw'
            exact hseen.tripped ht
    · rw [if_neg hc] at hatt
      rw [hatt] at h
      cases h
      -- the number is from the remembered range, so the prototype has not wrapped around
      have hs : n₀ = n ∧ c₀ = c := by
        simp only [wrap] at hw
        split_ifs at hw
        · cases hw
          omega
        · cases hw
          exact ⟨rfl, rfl⟩
      obtain ⟨rfl, rfl⟩ := hs
      refine ⟨fun p hpm v hv => ?_, fun hused => ?_, fun ht => ?_⟩
      · rcases hrem p hpm v hv with h | h
        · exact Or.inl (Nat.le_of_lt h)
        · exact Or.inr h
      · obtain ⟨p, hpm, hv⟩ := hused
        rcases hrem p hpm _ hv with h | h
        · exact absurd h (Nat.lt_irrefl _)
        · exact absurd h hc
      · cases ht with
        | retry ha _ =>
          rw [hatt] at ha
          cases ha
        | settled hw' hc' _ =>
          rw [hw] at hw'
          cases hw'
          exact absurd hc' hc

end Search

/-! ## Runs -/

section Runs

variable {s s' : St}

/-- What holds in every state of a run: the numbers remembered are not used, and the prototype is
at most `PID_MAX`. -/
structure Inv (s : St) : Prop where
  remembers : Remembers s.procs s.nextpid s.pidchecked
  le : s.nextpid < pidMax

theorem Inv.of_uses (h : Inv s) {allproc zombproc : List Proc}
    (hp : ∀ p ∈ allproc ++ zombproc, ∀ v, p.Uses v → ∃ q ∈ s.procs, q.Uses v) :
    Inv { s with allproc := allproc, zombproc := zombproc } := by
  refine ⟨fun p hpm v hv => ?_, h.le⟩
  obtain ⟨q, hq, hqv⟩ := hp p hpm v hv
  exact h.remembers q hq v hqv

theorem attempt_ret_lt {procs : List Proc} {t : ℕ × ℕ} {n c : ℕ}
    (h : attempt procs t = .ret (n, c)) : n < pidMax := by
  have hlt := wrap_lt t
  simp only [attempt] at h
  split_ifs at h with hc
  · cases hp : pass procs (wrap t).1 pidMax with
    | retry n' c' => simp [hp] at h
    | settled n' c' =>
      rw [hp] at h
      cases h
      obtain ⟨hseen, hle⟩ := pass_settled (seen_nil hlt) hp
      exact hseen.lt.trans_le hle
  · cases h
    exact hlt

theorem run_ret_lt {procs : List Proc} {fuel n c : ℕ} {t : ℕ × ℕ}
    (h : run (attempt procs) fuel t = .ret (n, c)) : n < pidMax := by
  induction fuel generalizing t with
  | zero => cases h
  | succ fuel ih =>
    rw [run_succ] at h
    cases ha : attempt procs t with
    | next t' =>
      rw [ha] at h
      exact ih h
    | ret r =>
      rw [ha] at h
      cases h
      exact attempt_ret_lt ha
    | fault e => exact e.elim

theorem Inv.next (h : Inv s) : ∀ p ∈ s.procs, ∀ v, p.Uses v →
    v < s.nextpid + 1 ∨ s.pidchecked ≤ v :=
  fun p hp v hv => (h.remembers p hp v hv).imp_left Nat.lt_succ_of_le

theorem Step.inv (hs : Step s s') (h : Inv s) : Inv s' := by
  cases hs with
  | @fork n c parent hparent hset =>
    obtain ⟨fuel, hrun⟩ := hset
    obtain ⟨hrem, -⟩ := run_attempt h.next hrun
    refine ⟨fun p hp v hv => ?_, run_ret_lt hrun⟩
    rcases List.mem_append.mp hp with hp | hp
    · rcases List.mem_cons.mp hp with rfl | hp
      · -- the child has the new number, and the group of its parent
        rcases hv with rfl | rfl
        · exact Or.inl le_rfl
        · exact hrem parent (List.mem_append_left _ hparent) _ (Or.inr rfl)
      · exact hrem p (List.mem_append_left _ hp) v hv
    · exact hrem p (List.mem_append_right _ hp) v hv
  | @exit p l r hl =>
    refine h.of_uses fun q hq v hv => ⟨q, ?_, hv⟩
    simp only [St.procs, hl, List.mem_append, List.mem_cons] at hq ⊢
    tauto
  | @reap p l r hl =>
    refine h.of_uses fun q hq v hv => ⟨q, ?_, hv⟩
    simp only [St.procs, hl, List.mem_append, List.mem_cons] at hq ⊢
    tauto
  | @setpgrp p l r g hl hg =>
    have hp : p ∈ s.procs := by simp [St.procs, hl]
    refine h.of_uses fun q hq v hv => ?_
    by_cases hqp : q = { p with pgid := g }
    · subst hqp
      rcases hv with rfl | rfl
      · exact ⟨p, hp, Or.inl rfl⟩
      · rcases hg with hg | ⟨q, hq, hqg⟩
        · exact ⟨p, hp, Or.inl hg.symm⟩
        · exact ⟨q, hq, Or.inr hqg⟩
    · refine ⟨q, ?_, hv⟩
      simp only [St.procs, hl, List.mem_append, List.mem_cons, hqp, false_or] at hq ⊢
      tauto
  | @reorder a z ha hz =>
    refine h.of_uses fun q hq v hv => ⟨q, ?_, hv⟩
    simpa only [St.procs, List.mem_append, ha.mem_iff, hz.mem_iff] using hq

theorem Reached.inv (h : Reached s) : Inv s := by
  induction h with
  | start allproc zombproc => exact ⟨fun p _ v _ => Or.inr (Nat.zero_le v), (by decide : 0 < pidMax)⟩
  | step _ hs ih => exact hs.inv ih

end Runs

end ForkPid
