import NetBsd.Kern.Synch
import NetBsd.Lib.Fault
import Mathlib.Algebra.Order.BigOperators.Group.Finset
import Mathlib.Tactic.Linarith

/-!
# Who is woken

What `unsleep`, `wakeup` and `setrun` move: the processes that leave their sleep queues, and those
that become runnable. The loop of `wakeup` begins anew after each process that it makes runnable,
and calls itself for the swapper; it returns all the same.

## Main definitions

* `Moved s s' runq runq' W R`: the processes `W` leave their sleep queues, those of `R` become
  runnable
* `Wakes proc0 s chan`: the processes that `wakeup` on a channel wakes
* `turns`: the turns that its loop may need

## Main results

* `Queued.unsleep_moved`, `Queued.wakeup_woken`, `Queued.setrun_moved`: what the routines move
-/

namespace Synch

open LinkedList (Ref Lst last addrs)
open Fault (Meets)

variable {P : Type} [DecidableEq P] {s s' s'' : State P} {proc0 chan c : Chan}
  {sleepq sleepq' : Fin 64 → List (Node P × Chan)} {runq runq' runq'' : Fin 32 → List P}
  {p : P} {k : Fin 32} {h : Fin 64} {fuel : ℕ}

/-! ## The number of sleepers -/

/-- The number of processes on the sleep queues. -/
def total (sleepq : Fin 64 → List (Node P × Chan)) : ℕ := ∑ h, (sleepq h).length

omit [DecidableEq P] in
theorem length_le_total (sleepq : Fin 64 → List (Node P × Chan)) (h : Fin 64) :
    (sleepq h).length ≤ total sleepq :=
  Finset.single_le_sum (f := fun h => (sleepq h).length) (fun _ _ => Nat.zero_le _)
    (Finset.mem_univ h)

omit [DecidableEq P] in
theorem total_update (sleepq : Fin 64 → List (Node P × Chan)) (h : Fin 64)
    (m : List (Node P × Chan)) :
    total (Function.update sleepq h m) + (sleepq h).length = total sleepq + m.length := by
  have hsum : ∀ f : Fin 64 → List (Node P × Chan),
      total f = (f h).length + ∑ h' ∈ Finset.univ.erase h, (f h').length := fun f =>
    (Finset.add_sum_erase Finset.univ (fun h' => (f h').length) (Finset.mem_univ h)).symm
  have hrest : ∑ h' ∈ Finset.univ.erase h, (Function.update sleepq h m h').length =
      ∑ h' ∈ Finset.univ.erase h, (sleepq h').length := by
    refine Finset.sum_congr rfl fun h' hh => ?_
    rw [Function.update_of_ne (Finset.ne_of_mem_erase hh)]
  rw [hsum, hsum sleepq, hrest, Function.update_self]
  omega

omit [DecidableEq P] in
/-- One sleeper less. -/
theorem total_dequeue {pre rest : List (Node P × Chan)} {n : Node P × Chan}
    (hl : sleepq h = pre ++ n :: rest) :
    total (Function.update sleepq h (pre ++ rest)) + 1 = total sleepq := by
  have := total_update sleepq h (pre ++ rest)
  rw [hl] at this
  simp only [List.length_append, List.length_cons] at this
  omega

/-! ## What a routine moves -/

/-- The processes `W` leave their sleep queues, and those of `R` become runnable, on their run
queues where they are in memory. Nothing else moves. -/
structure Moved (s s' : State P) (runq runq' : Fin 32 → List P) (W R : P → Prop) : Prop where
  woken : ∀ p, W p → s'.p_wchan p = none
  kept : ∀ p, ¬W p → s'.p_wchan p = s.p_wchan p
  ran : ∀ p, R p → s'.p_stat p = .SRUN
  stat : ∀ p, ¬R p → s'.p_stat p = s.p_stat p
  load : s'.p_load = s.p_load
  pri : s'.p_pri = s.p_pri
  cur : s'.curproc = s.curproc
  runs : ∀ k p, p ∈ runq' k ↔ p ∈ runq k ∨ R p ∧ s.p_load p = true ∧ qnum (s.p_pri p) = k

omit [DecidableEq P] in
theorem Moved.refl (s : State P) (runq : Fin 32 → List P) :
    Moved s s runq runq (fun _ => False) fun _ => False := by
  constructor <;> simp

omit [DecidableEq P] in
theorem Moved.congr {W W' R R' : P → Prop} (h : Moved s s' runq runq' W R)
    (hW : ∀ p, W p ↔ W' p) (hR : ∀ p, R p ↔ R' p) : Moved s s' runq runq' W' R' := by
  obtain rfl : W = W' := funext fun p => propext (hW p)
  obtain rfl : R = R' := funext fun p => propext (hR p)
  exact h

omit [DecidableEq P] in
theorem Moved.trans {W₁ W₂ R₁ R₂ : P → Prop} (h₁ : Moved s s' runq runq' W₁ R₁)
    (h₂ : Moved s' s'' runq' runq'' W₂ R₂) :
    Moved s s'' runq runq'' (fun p => W₁ p ∨ W₂ p) fun p => R₁ p ∨ R₂ p where
  woken p hp := by
    by_cases hW : W₂ p
    · exact h₂.woken p hW
    · rw [h₂.kept p hW]
      exact h₁.woken p (hp.resolve_right hW)
  kept p hp := by
    rw [h₂.kept p fun h => hp (Or.inr h), h₁.kept p fun h => hp (Or.inl h)]
  ran p hp := by
    by_cases hR : R₂ p
    · exact h₂.ran p hR
    · rw [h₂.stat p hR]
      exact h₁.ran p (hp.resolve_right hR)
  stat p hp := by
    rw [h₂.stat p fun h => hp (Or.inr h), h₁.stat p fun h => hp (Or.inl h)]
  load := h₂.load.trans h₁.load
  pri := h₂.pri.trans h₁.pri
  cur := h₂.cur.trans h₁.cur
  runs k p := by
    rw [h₂.runs, h₁.runs, h₁.load, h₁.pri]
    tauto

omit [DecidableEq P] in
theorem Same.moved (h : Same s s') (hr : ∀ k p, p ∈ runq' k ↔ p ∈ runq k) :
    Moved s s' runq runq' (fun _ => False) fun _ => False where
  woken := nofun
  kept p _ := congrFun h.wchan p
  ran := nofun
  stat p _ := congrFun h.stat p
  load := h.load
  pri := h.pri
  cur := h.cur
  runs k p := by simp [hr]

theorem dequeue_moved {hp : Place P} :
    Moved s (dequeue s h hp p) runq runq (fun b => b = p) fun _ => False where
  woken b hb := by rw [hb]; exact Function.update_self _ _ _
  kept b hb := Function.update_of_ne hb _ _
  ran := nofun
  stat _ _ := rfl
  load := rfl
  pri := rfl
  cur := rfl
  runs := by simp

/-- A process off the queues that becomes runnable, in memory. -/
theorem Queued.makeRun (hq : Queued s sleepq runq) (hp : s.p_wchan p = none)
    (hn : ∀ k, p ∉ runq k) (hl : s.p_load p = true) :
    ∃ s' runq', setrq (s.setStat p .SRUN) p = .ok s' ∧ Queued s' sleepq runq' ∧
      Moved s s' runq runq' (fun _ => False) fun b => b = p := by
  have hq' : Queued (s.setStat p .SRUN) sleepq runq :=
    hq.congr rfl rfl rfl rfl rfl fun _ _ _ => rfl
  obtain ⟨s', hok, hs, hq''⟩ := hq'.setrq_queued hp hn
  refine ⟨s', _, hok, hq'', nofun, fun b _ => congrFun hs.wchan b, ?_, ?_, hs.load, hs.pri,
    hs.cur, fun k b => ?_⟩
  · rintro b rfl
    rw [hs.stat]
    exact Function.update_self _ _ _
  · intro b hb
    rw [hs.stat]
    exact Function.update_of_ne hb _ _
  · rw [InsQueue.mem_update]
    by_cases hb : b = p
    · subst hb
      simp only [List.mem_append, List.mem_singleton, or_true, true_and, hl, hn, false_and,
        or_false, false_or]
      exact eq_comm
    · by_cases hk : k = qnum (s.p_pri p)
      · simp [hb, hk, State.setStat]
      · simp [hb, hk, State.setStat]

/-- A process that is not in memory becomes runnable. -/
theorem setStat_moved (hl : s.p_load p = false) :
    Moved s (s.setStat p .SRUN) runq runq (fun _ => False) (· = p) := by
  refine ⟨nofun, fun _ _ => rfl, ?_, fun b hb => Function.update_of_ne hb _ _, rfl, rfl, rfl,
    fun k b => ⟨Or.inl, ?_⟩⟩
  · rintro b rfl
    exact Function.update_self _ _ _
  · rintro (hb | ⟨rfl, hload, -⟩)
    · exact hb
    · exact nomatch hl.symm.trans hload

/-! ## unsleep -/

/-- The loop of `unsleep` stops at the place that points to the process. -/
theorem place_meets {L : LinkedList.Links (Fin 64) (Node P)} {val : Node P → Option Chan}
    {mid rest : List (Node P × Chan)} {r : Place P}
    (hl : Lst val L.next (L.get r) (mid ++ (.item p, c) :: rest)) (hp : .item p ∉ addrs mid) :
    Meets (fuel ≤ mid.length) (place L p fuel r) (· = last r mid) := by
  induction fuel generalizing r mid with
  | zero => exact Nat.zero_le _
  | succ fuel ih =>
    cases mid with
    | nil => simp [place, hl.1]
    | cons n mid =>
      obtain ⟨a, y⟩ := n
      obtain ⟨hget, -, hrest⟩ := hl
      have hne : a ≠ .item p := by
        rintro rfl
        exact hp (by simp)
      simp only [place, hget, if_neg hne]
      exact (ih (r := .next a) hrest fun hm => hp (List.mem_cons_of_mem _ hm)).mono
        Nat.succ_le_succ

/-- `unsleep` takes a sleeping process off its queue, and leaves any other alone. -/
theorem Queued.unsleep_moved (hq : Queued s sleepq runq) (p : P) :
    Meets (fuel < total sleepq) (unsleep fuel s p) fun s' =>
      ∃ sleepq', Queued s' sleepq' runq ∧ total sleepq' ≤ total sleepq ∧
        Moved s s' runq runq (· = p) fun _ => False := by
  cases hp : s.p_wchan p with
  | none =>
    rw [show unsleep fuel s p = .ok s by rw [unsleep, hp]]
    exact ⟨sleepq, hq, le_rfl, fun b hb => hb ▸ hp, fun _ _ => rfl, nofun, fun _ _ => rfl, rfl,
      rfl, rfl, by simp⟩
  | some c =>
    obtain ⟨pre, rest, hl⟩ := List.append_of_mem (hq.asleep p c hp)
    have hlst := hq.sleeps (HASH c)
    rw [hl] at hlst
    have hpre : InsQueue.Node.item p ∉ addrs pre := by
      have hnd := hlst.nodup
      rw [addrs, List.map_append, List.map_cons, List.nodup_append] at hnd
      exact fun hm => hnd.2.2 _ hm _ List.mem_cons_self rfl
    have hlen : pre.length < total sleepq := by
      have := length_le_total sleepq (HASH c)
      rw [hl, List.length_append, List.length_cons] at this
      omega
    have hplace : Meets (fuel ≤ pre.length) (place s.links p fuel (.head (HASH c)))
        (· = last (.head (HASH c)) pre) := place_meets (r := .head (HASH c)) hlst hpre
    simp only [unsleep, hp]
    cases hpl : place s.links p fuel (.head (HASH c)) with
    | error e =>
      rw [hpl] at hplace
      cases e with
      | loop => exact lt_of_le_of_lt hplace hlen
      | panic => exact hplace
      | deref => exact hplace
    | ok hp =>
      rw [hpl] at hplace
      obtain rfl : hp = last (.head (HASH c)) pre := hplace
      have ht := total_dequeue hl
      exact ⟨_, hq.dequeue_queued hl, by omega, dequeue_moved⟩

/-! ## wakeup -/

/-- The processes that `wakeup` on a channel wakes: its sleepers, and those on the channel of the
swapper if one of its sleepers that becomes runnable is not in memory. -/
def Wakes (proc0 : Chan) (s : State P) (chan : Chan) (p : P) : Prop :=
  s.p_wchan p = some chan ∨ s.p_wchan p = some proc0 ∧
    ∃ q, s.p_wchan q = some chan ∧ s.p_stat q = .SSLEEP ∧ s.p_load q = false

/-- The turns that the loop of `wakeup` may need with so many sleepers, and so many of them still
to look at. -/
def turns (sleepers rest : ℕ) : ℕ := sleepers * (sleepers + 1) + rest + 1

theorem turns_mono {t t' r r' : ℕ} (ht : t ≤ t') (hr : r ≤ r') : turns t r ≤ turns t' r' := by
  have := Nat.mul_le_mul ht (Nat.add_le_add_right ht 1)
  unfold turns
  omega

theorem le_turns (t r : ℕ) : t ≤ turns t r := by
  unfold turns
  nlinarith

theorem turns_lt {t t' r r' : ℕ} (ht : t' + 1 ≤ t) (hr : r' ≤ t') (h : fuel < turns t' r') :
    fuel + 1 < turns t r := by
  obtain ⟨d, rfl⟩ := Nat.exists_eq_add_of_le ht
  unfold turns at *
  nlinarith

omit [DecidableEq P] in
/-- What was woken first, and then by the rest of a loop, was woken. -/
theorem Moved.step {W R : P → Prop} (h₁ : Moved s s' runq runq' W R)
    (h₂ : Moved s' s'' runq' runq'' (Wakes proc0 s' chan)
      fun p => Wakes proc0 s' chan p ∧ s'.p_stat p = .SSLEEP)
    (hW : ∀ p, W p ∨ Wakes proc0 s' chan p ↔ Wakes proc0 s chan p)
    (hR : ∀ p, R p ↔ W p ∧ s.p_stat p = .SSLEEP) :
    Moved s s'' runq runq'' (Wakes proc0 s chan)
      fun p => Wakes proc0 s chan p ∧ s.p_stat p = .SSLEEP := by
  refine (h₁.trans h₂).congr hW fun p => ?_
  rw [hR, ← hW]
  have hdis : Wakes proc0 s' chan p → ¬W p := by
    intro hw hp
    have hnone := h₁.woken p hp
    rcases hw with hw | ⟨hw, -⟩ <;> rw [hnone] at hw <;> cases hw
  have hstat : ¬W p → s'.p_stat p = s.p_stat p := fun hp =>
    h₁.stat p fun hr => hp ((hR p).1 hr).1
  constructor
  · rintro (hp | ⟨hp, hs⟩)
    · exact ⟨Or.inl hp.1, hp.2⟩
    · exact ⟨Or.inr hp, by rwa [hstat (hdis hp)] at hs⟩
  · rintro ⟨hp | hp, hs⟩
    · exact Or.inl ⟨hp, hs⟩
    · exact Or.inr ⟨hp, by rwa [hstat (hdis hp)]⟩

omit [DecidableEq P] in
/-- A sleeper that is not runnable yet, or is in memory, gives the swapper no work. -/
theorem wakes_after {R : P → Prop} (hm : Moved s s' runq runq' (· = p) R)
    (hR : ∀ b, R b → b = p) (hp : s.p_wchan p = some chan)
    (hl : s.p_stat p = .SSLEEP → s.p_load p = true) (b : P) :
    b = p ∨ Wakes proc0 s' chan b ↔ Wakes proc0 s chan b := by
  have hwp : s'.p_wchan p = none := hm.woken p rfl
  have hex : (∃ q, s'.p_wchan q = some chan ∧ s'.p_stat q = .SSLEEP ∧ s'.p_load q = false) ↔
      ∃ q, s.p_wchan q = some chan ∧ s.p_stat q = .SSLEEP ∧ s.p_load q = false := by
    refine exists_congr fun q => ?_
    rw [hm.load]
    by_cases hqp : q = p
    · subst hqp
      rw [hwp]
      simp only [reduceCtorEq, false_and, false_iff, not_and, Bool.not_eq_false]
      exact fun _ hs => hl hs
    · rw [hm.kept q hqp, hm.stat q fun hr => hqp (hR q hr)]
  unfold Wakes
  rw [hex]
  by_cases hb : b = p
  · subst hb
    simp [hp]
  · rw [hm.kept b hb]
    simp [hb]

omit [DecidableEq P] in
/-- A sleeper that becomes runnable and is not in memory wakes those that sleep on the channel of
the swapper, before the rest of its own channel. -/
theorem wakes_after_swapper {R R' : P → Prop} (hm : Moved s s' runq runq' (· = p) R)
    (hm' : Moved s' s'' runq' runq'' (Wakes proc0 s' proc0) R')
    (hp : s.p_wchan p = some chan) (hs : s.p_stat p = .SSLEEP) (hl : s.p_load p = false) (b : P) :
    (b = p ∨ Wakes proc0 s' proc0 b) ∨ Wakes proc0 s'' chan b ↔ Wakes proc0 s chan b := by
  have hex : ∃ q, s.p_wchan q = some chan ∧ s.p_stat q = .SSLEEP ∧ s.p_load q = false :=
    ⟨p, hp, hs, hl⟩
  have hswap : ∀ b, Wakes proc0 s' proc0 b ↔ s'.p_wchan b = some proc0 := fun b =>
    ⟨fun h => h.elim id fun h => h.1, Or.inl⟩
  -- All that slept on the channel of the swapper has gone.
  have hgone : ∀ b, s''.p_wchan b = some chan ↔ s'.p_wchan b = some chan ∧ chan ≠ proc0 := by
    intro b
    by_cases hb : Wakes proc0 s' proc0 b
    · rw [hm'.woken b hb, (hswap b).1 hb]
      simp only [reduceCtorEq, Option.some.injEq, false_iff, not_and, not_not]
      exact Eq.symm
    · rw [hm'.kept b hb, iff_self_and]
      rintro hb' rfl
      exact hb (Or.inl hb')
  have hgone' : ∀ b, s''.p_wchan b ≠ some proc0 := by
    intro b hb
    by_cases hwk : Wakes proc0 s' proc0 b
    · rw [hm'.woken b hwk] at hb
      cases hb
    · rw [hm'.kept b hwk] at hb
      exact hwk (Or.inl hb)
  rw [hswap]
  unfold Wakes
  simp only [hgone, hgone', false_and, or_false, hex, and_true]
  by_cases hb : b = p
  · subst hb
    simp [hp]
  · rw [hm.kept b hb]
    by_cases hc : chan = proc0
    · simp [hb, hc]
    · simp [hb, hc, or_comm]

omit [DecidableEq P] in
theorem ran_after {W : P → Prop} (hm : Moved s s' runq runq' (· = p) (· = p))
    (hs : s.p_stat p = .SSLEEP) (hW : ¬W p) (b : P) :
    b = p ∨ W b ∧ s'.p_stat b = .SSLEEP ↔ (b = p ∨ W b) ∧ s.p_stat b = .SSLEEP := by
  by_cases hb : b = p
  · subst hb
    simp [hs]
  · simp [hb, hm.stat b hb]

omit [DecidableEq P] in
theorem Queued.off (hq : Queued s sleepq runq) (hp : s.p_wchan p = some c) (k : Fin 32) :
    p ∉ runq k := fun hk => nomatch (hq.apart p k hk).symm.trans hp

/-- The first sleeper of the rest of a queue, taken off it and made runnable. -/
theorem Queued.wakeOne {pre rest : List (Node P × Chan)} (hq : Queued s sleepq runq)
    (hl : sleepq (HASH chan) = pre ++ (.item p, chan) :: rest) :
    let s₁ := dequeue s (HASH chan) (last (.head (HASH chan)) pre) p
    let sleepq₁ := Function.update sleepq (HASH chan) (pre ++ rest)
    (s.p_load p = true ∧ ∃ s₂ runq₂, setrq (s₁.setStat p .SRUN) p = .ok s₂ ∧
      Queued s₂ sleepq₁ runq₂ ∧ Moved s s₂ runq runq₂ (· = p) (· = p)) ∨
    s.p_load p = false ∧ Queued (s₁.setStat p .SRUN) sleepq₁ runq ∧
      Moved s (s₁.setStat p .SRUN) runq runq (· = p) (· = p) := by
  intro s₁ sleepq₁
  have hin : (InsQueue.Node.item p, chan) ∈ sleepq (HASH chan) := by simp [hl]
  have hp : s.p_wchan p = some chan := (hq.mem_iff.1 hin).1
  have hq₁ : Queued s₁ sleepq₁ runq := hq.dequeue_queued hl
  have hm₁ : Moved s s₁ runq runq (· = p) fun _ => False := dequeue_moved
  cases hload : s.p_load p with
  | true =>
    left
    obtain ⟨s₂, runq₂, hok, hq₂, hm₂⟩ := hq₁.makeRun (hm₁.woken p rfl) (hq.off hp) hload
    exact ⟨rfl, s₂, runq₂, hok, hq₂, (hm₁.trans hm₂).congr (by simp) (by simp)⟩
  | false =>
    right
    have hm₂ : Moved s₁ (s₁.setStat p .SRUN) runq runq (fun _ => False) (· = p) :=
      setStat_moved hload
    exact ⟨rfl, hq₁.congr rfl rfl rfl rfl rfl fun _ _ _ => rfl,
      (hm₁.trans hm₂).congr (by simp) (by simp)⟩

/-- What `wakeup`, or the rest of its loop, comes to from a state with these queues. -/
def Woken (proc0 : Chan) (s : State P) (sleepq : Fin 64 → List (Node P × Chan))
    (runq : Fin 32 → List P) (chan : Chan) (s' : State P) : Prop :=
  ∃ sleepq' runq', Queued s' sleepq' runq' ∧ total sleepq' ≤ total sleepq ∧
    Moved s s' runq runq' (Wakes proc0 s chan)
      fun p => Wakes proc0 s chan p ∧ s.p_stat p = .SSLEEP

omit [DecidableEq P] in
/-- A loop that begins after something was moved. -/
theorem Woken.after {W R : P → Prop} (hm : Moved s s' runq runq' W R)
    (ht : total sleepq' ≤ total sleepq) (hw : Woken proc0 s' sleepq' runq' chan s'')
    (hW : ∀ p, W p ∨ Wakes proc0 s' chan p ↔ Wakes proc0 s chan p)
    (hR : ∀ p, R p ↔ W p ∧ s.p_stat p = .SSLEEP) : Woken proc0 s sleepq runq chan s'' := by
  obtain ⟨sleepq'', runq'', hq, ht', hm'⟩ := hw
  exact ⟨sleepq'', runq'', hq, ht'.trans ht, hm.step hm' hW hR⟩

/-- The loop of `wakeup`, behind sleepers on other channels. By induction on the turns: a turn
looks at one sleeper more, or there is one sleeper less. -/
theorem wakeupLoop_woken (fuel : ℕ) : ∀ (s : State P) (sleepq : Fin 64 → List (Node P × Chan))
    (runq : Fin 32 → List P) (chan : Chan) (pre rest : List (Node P × Chan)),
    Queued s sleepq runq → sleepq (HASH chan) = pre ++ rest → (∀ n ∈ pre, n.2 ≠ chan) →
    Meets (fuel < turns (total sleepq) rest.length)
      (wakeupLoop proc0 fuel s chan (last (.head (HASH chan)) pre))
      (Woken proc0 s sleepq runq chan) := by
  induction fuel with
  | zero =>
    intro s sleepq runq chan pre rest _ _ _
    exact Nat.succ_pos _
  | succ fuel ih =>
    intro s sleepq runq chan pre rest hq hl hpre
    have hlst := hq.sleeps (HASH chan)
    rw [hl] at hlst
    have hget := ((LinkedList.lst_append (r := .head (HASH chan))).1 hlst).2
    -- The loop anew from the head of the queue of a channel, with fewer sleepers.
    have again : ∀ (t : State P) sleepq' runq' chan', Queued t sleepq' runq' →
        total sleepq' + 1 ≤ total sleepq → Meets (fuel + 1 < turns (total sleepq) rest.length)
          (wakeupLoop proc0 fuel t chan' (.head (HASH chan')))
          (Woken proc0 t sleepq' runq' chan') :=
      fun t sleepq' runq' chan' hq' ht =>
        (ih t sleepq' runq' chan' [] (sleepq' (HASH chan')) hq' rfl (by simp)).mono
          fun hf => turns_lt ht (length_le_total sleepq' _) hf
    cases rest with
    | nil =>
      have hnone : ∀ p, s.p_wchan p ≠ some chan := by
        intro p hp
        have hin := hq.asleep p chan hp
        rw [hl, List.append_nil] at hin
        exact hpre _ hin rfl
      have hend : s.links.get (last (.head (HASH chan)) pre) = none := hget
      simp only [wakeupLoop, hend]
      refine ⟨sleepq, runq, hq, le_rfl, (Moved.refl s runq).congr (fun p => ?_) fun p => ?_⟩
      · simp [Wakes, hnone]
      · simp [Wakes, hnone]
    | cons n rest =>
      obtain ⟨a, y⟩ := n
      have hin : (a, y) ∈ sleepq (HASH chan) := hl ▸ List.mem_append_right _ List.mem_cons_self
      obtain ⟨p, rfl, hp⟩ := hq.mem_item hin
      have hnode : s.links.get (last (.head (HASH chan)) pre) = some (.item p) := hget.1
      simp only [wakeupLoop, hnode]
      by_cases hy : y = chan
      · subst hy
        have ht := total_dequeue hl
        by_cases hs : s.p_stat p = .SSLEEP
        · rcases hq.wakeOne hl with
            ⟨hload, s₂, runq₂, hok, hq₂, hm⟩ | ⟨hload, hq₂, hm⟩
          · simp only [if_pos hp, dequeue, hs, State.setStat, hload, if_true] at hok ⊢
            rw [hok, Fault.ok_bind]
            exact (again s₂ _ runq₂ y hq₂ ht.le).imp fun s' hw => hw.after hm (by omega)
              (wakes_after hm (fun _ => id) hp fun _ => hload)
              fun b => ⟨fun hb => ⟨hb, hb ▸ hs⟩, And.left⟩
          · simp only [if_pos hp, dequeue, hs, State.setStat, hload, if_true, Bool.false_eq_true,
              if_false] at hq₂ hm ⊢
            refine Meets.bind (again _ _ runq proc0 hq₂ ht.le) ?_
            rintro s₃ ⟨sleepq₃, runq₃, hq₃, ht₃, hm₃⟩
            refine (again s₃ sleepq₃ runq₃ y hq₃ (by omega)).imp fun s' hw =>
              hw.after (hm.trans hm₃) (by omega) (wakes_after_swapper hm hm₃ hp hs hload)
                (ran_after hm hs ?_)
            rintro (hwp | ⟨hwp, -⟩) <;> exact nomatch (hm.woken p rfl).symm.trans hwp
        · have hs' : (dequeue s (HASH y) (last (.head (HASH y)) pre) p).p_stat p ≠ .SSLEEP := hs
          have hm : Moved s (dequeue s (HASH y) (last (.head (HASH y)) pre) p) runq runq (· = p)
              fun _ => False := dequeue_moved
          simp only [if_pos hp, if_neg hs']
          refine ((ih _ _ runq y pre rest (hq.dequeue_queued hl) (Function.update_self _ _ _) hpre).mono
            fun hf => ?_).imp fun s' hw => hw.after hm (by omega)
              (wakes_after hm (fun _ => False.elim) hp fun h => absurd h hs)
              fun b => ⟨False.elim, fun hb => hs (hb.1 ▸ hb.2)⟩
          have hlen := length_le_total (Function.update sleepq (HASH y) (pre ++ rest)) (HASH y)
          rw [Function.update_self, List.length_append] at hlen
          exact turns_lt ht.le (by omega) hf
      · have hne : s.p_wchan p ≠ some chan := by
          rw [hp]
          exact fun heq => hy (Option.some.inj heq)
        rw [if_neg hne]
        have hl' : sleepq (HASH chan) = (pre ++ [(.item p, y)]) ++ rest := by
          rw [hl, List.append_assoc, List.singleton_append]
        have := ih s sleepq runq chan _ rest hq hl' fun n hn => by
          rcases List.mem_append.1 hn with hn | hn
          · exact hpre n hn
          · rw [List.mem_singleton.1 hn]; exact hy
        rw [LinkedList.last_concat] at this
        refine this.mono fun hf => ?_
        rw [List.length_cons]
        unfold turns at *
        omega

/-- `wakeup` returns, and wakes the processes that it is to wake. -/
theorem Queued.wakeup_woken (hq : Queued s sleepq runq) (chan : Chan) :
    Meets (fuel < turns (total sleepq) (total sleepq)) (wakeup proc0 fuel s chan)
      (Woken proc0 s sleepq runq chan) :=
  (wakeupLoop_woken fuel s sleepq runq chan [] _ hq rfl (by simp)).mono fun hf =>
    hf.trans_le (Nat.add_le_add_right (Nat.add_le_add_left (length_le_total sleepq _) _) 1)

/-! ## setrun and endtsleep -/

/-- What `setrun` moves, beside the process itself: those on the channel of the swapper, when the
process is not in memory. -/
def Swapper (proc0 : Chan) (s : State P) (p b : P) : Prop :=
  b ≠ p ∧ s.p_load p = false ∧ s.p_wchan b = some proc0

/-- A process off the queues that becomes runnable, and the swapper's sleepers if it is not in
memory. -/
theorem Queued.setRun_moved (hq : Queued s sleepq runq) (hp : s.p_wchan p = none)
    (hn : ∀ k, p ∉ runq k) :
    Meets (fuel < turns (total sleepq) (total sleepq))
      (if (s.setStat p .SRUN).p_load p then setrq (s.setStat p .SRUN) p
        else wakeup proc0 fuel (s.setStat p .SRUN) proc0) fun s' =>
      ∃ sleepq' runq', Queued s' sleepq' runq' ∧ Moved s s' runq runq' (Swapper proc0 s p)
        fun b => b = p ∨ Swapper proc0 s p b ∧ s.p_stat b = .SSLEEP := by
  cases hload : s.p_load p with
  | true =>
    have hl : (s.setStat p .SRUN).p_load p = true := hload
    obtain ⟨s', runq', hok, hq', hm⟩ := hq.makeRun hp hn hload
    rw [if_pos hl, hok]
    exact ⟨sleepq, runq', hq', hm.congr (by simp [Swapper, hload]) (by simp [Swapper, hload])⟩
  | false =>
    have hl : (s.setStat p .SRUN).p_load p = false := hload
    have hq₁ : Queued (s.setStat p .SRUN) sleepq runq :=
      hq.congr rfl rfl rfl rfl rfl fun _ _ _ => rfl
    have hm₁ : Moved s (s.setStat p .SRUN) runq runq (fun _ => False) (· = p) :=
      setStat_moved hload
    simp only [hl, Bool.false_eq_true, if_false]
    refine (hq₁.wakeup_woken proc0).imp ?_
    rintro s' ⟨sleepq', runq', hq', -, hm⟩
    have hW : ∀ b, Wakes proc0 (s.setStat p .SRUN) proc0 b ↔ Swapper proc0 s p b := by
      intro b
      have hwakes : Wakes proc0 (s.setStat p .SRUN) proc0 b ↔ s.p_wchan b = some proc0 :=
        ⟨fun h => h.elim id fun h => h.1, Or.inl⟩
      rw [hwakes, Swapper]
      constructor
      · intro hb
        refine ⟨?_, hload, hb⟩
        rintro rfl
        exact nomatch hp.symm.trans hb
      · exact fun hb => hb.2.2
    refine ⟨sleepq', runq', hq', (hm₁.trans hm).congr (by simp [hW]) fun b => ?_⟩
    rw [hW]
    refine or_congr_right (and_congr_right fun hb => ?_)
    rw [hm₁.stat b hb.1]

/-- `setrun` on a process that sleeps or is stopped. -/
theorem Queued.setrun_moved (hq : Queued s sleepq runq) (hn : ∀ k, p ∉ runq k)
    (hs : s.p_stat p = .SSLEEP ∨ s.p_stat p = .SSTOP) :
    Meets (fuel < turns (total sleepq) (total sleepq)) (setrun proc0 fuel s p) fun s' =>
      ∃ sleepq' runq', Queued s' sleepq' runq' ∧
        Moved s s' runq runq' (fun b => b = p ∨ Swapper proc0 s p b)
          fun b => b = p ∨ Swapper proc0 s p b ∧ s.p_stat b = .SSLEEP := by
  have hrun : setrun proc0 fuel s p = (unsleep fuel s p >>= fun s =>
      if (s.setStat p .SRUN).p_load p then setrq (s.setStat p .SRUN) p
      else wakeup proc0 fuel (s.setStat p .SRUN) proc0) := by
    rcases hs with hs | hs <;> simp only [setrun, hs]
  rw [hrun]
  refine Meets.bind ((hq.unsleep_moved p).mono fun hf => hf.trans_le (le_turns _ _)) ?_
  rintro s₁ ⟨sleepq₁, hq₁, ht, hm₁⟩
  refine ((hq₁.setRun_moved (hm₁.woken p rfl) hn).mono fun hf =>
    hf.trans_le (turns_mono ht ht)).imp ?_
  rintro s' ⟨sleepq', runq', hq', hm⟩
  have hW : ∀ b, Swapper proc0 s₁ p b ↔ Swapper proc0 s p b := by
    intro b
    unfold Swapper
    refine and_congr_right fun hb => ?_
    rw [hm₁.load, hm₁.kept b hb]
  refine ⟨sleepq', runq', hq', (hm₁.trans hm).congr (by simp [hW]) fun b => ?_⟩
  rw [hW, false_or, hm₁.stat b id]

end Synch
