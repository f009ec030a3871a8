import NetBsd.Kern.SynchWakeup

/-!
# The runs of the scheduler

What processes, interrupts and signals do to the sleep queues and the run queues, in any order.
In every state that is reached each process is where its state says, and no step panics, follows
a null pointer or goes round for ever. Processes with `SWEXIT`, whose priority may change while
they are on a run queue, are left out.

## Main definitions

* `Event`, `step`, `Allowed`: what happens, what it does, and when it can
* `Placed s cur runq`: each process is on the queues that its state says
* `Run proc0 s`: the runs

## Main results

* `run_placed`: in every reached state each sleeper is on the queue of its channel once, and the
  run queues hold the runnable processes in memory but the one that runs
* `run_step`: no step that can happen faults
* `run_wakeup`: in every reached state `wakeup` wakes exactly the sleepers on its channel, and
  where one of them is not in memory, those on the channel of the swapper
-/

namespace Synch

open LinkedList (Lst last)
open Fault (Meets)

variable {P : Type} [DecidableEq P] {s s' : State P} {proc0 chan c : Chan}
  {sleepq sleepq' : Fin 64 → List (Node P × Chan)} {runq runq' : Fin 32 → List P}
  {p : P} {k : Fin 32} {h : Fin 64} {fuel : ℕ}

/-! ## Events -/

/-- What happens to the queues. `sleep` is also `tsleep` that finds no signal; `tsleepSignal` and
`tsleepStop` are `tsleep` where `CURSIG` returns a signal, or stops the process first. `stop` is
the stop of the current process in `issig`, `stopSleeper`, `resume` and `unsleepStopped` are what
`psignal` does to a process that sleeps or is stopped. `schedcpu` and `setpri` are the two branches
of the change of priority there, `swapout` and `swapin` those of the swapper. -/
inductive Event (P : Type) where
  | sleep (p : P) (chan : Chan) (pri : Fin 128)
  | tsleepSignal (p : P) (chan : Chan) (pri : Fin 128)
  | tsleepStop (p : P) (chan : Chan) (pri : Fin 128) (parent : Chan)
  | stop (p : P) (parent : Chan)
  | stopSleeper (p : P) (parent : Chan)
  | resume (p : P)
  | unsleepStopped (p : P)
  | setrun (p : P) (pri : Fin 128)
  | endtsleep (p : P)
  | wakeup (chan : Chan)
  | swtch
  | preempt (p : P) (usrpri : Fin 128)
  | schedcpu (p : P) (usrpri : Fin 128)
  | setpri (p : P) (usrpri : Fin 128)
  | swapout (p : P)
  | swapin (p : P)
  | fork (p : P) (pri : Fin 128)
  | exit (p : P)
  | reap (p : P)

def State.setLoad (s : State P) (p : P) (load : Bool) : State P :=
  { s with p_load := Function.update s.p_load p load }

def State.setCur (s : State P) (cur : Option P) : State P := { s with curproc := cur }

/-- What an event does. -/
def step (proc0 : Chan) (fuel : ℕ) (s : State P) : Event P → Except Fault (State P)
  | .sleep p chan pri => do
    let s ← enqueue (s.setPri p pri) p chan
    pure ((s.setStat p .SSLEEP).setCur none)
  | .tsleepSignal p chan pri => do
    let s ← enqueue (s.setPri p pri) p chan
    let s ← unsleep fuel s p
    pure (s.setStat p .SRUN)
  | .tsleepStop p chan pri parent => do
    let s ← enqueue (s.setPri p pri) p chan
    let s ← wakeup proc0 fuel (s.setStat p .SSTOP) parent
    pure (s.setCur none)
  | .stop p parent => do
    let s ← wakeup proc0 fuel (s.setStat p .SSTOP) parent
    pure (s.setCur none)
  | .stopSleeper p parent => wakeup proc0 fuel (s.setStat p .SSTOP) parent
  | .resume p => pure (s.setStat p .SSLEEP)
  | .unsleepStopped p => unsleep fuel s p
  | .setrun p pri => setrun proc0 fuel (s.setPri p pri) p
  | .endtsleep p => endtsleep proc0 fuel s p
  | .wakeup chan => wakeup proc0 fuel s chan
  | .swtch => swtch s
  | .preempt p usrpri => do
    let s ← setrq (s.setPri p usrpri) p
    pure (s.setCur none)
  | .schedcpu p usrpri => do
    let s ← remrq s p
    setrq (s.setPri p usrpri) p
  | .setpri p usrpri => pure (s.setPri p usrpri)
  | .swapout p => if s.p_stat p = .SRUN then remrq (s.setLoad p false) p else pure (s.setLoad p false)
  | .swapin p => do
    let s ← if s.p_stat p = .SRUN then setrq s p else pure s
    pure (s.setLoad p true)
  | .fork p pri => setrq (((s.setLoad p true).setPri p pri).setStat p .SRUN) p
  | .exit p => pure ((s.setStat p .SZOMB).setCur none)
  | .reap p => pure (s.setStat p .free)

/-- When an event can happen. A process sleeps, stops itself, is preempted and exits while it
runs, and the callers of the other routines have looked at the state of the process. -/
def Allowed (s : State P) : Event P → Prop
  | .sleep p _ _ | .tsleepSignal p _ _ | .tsleepStop p _ _ _ | .stop p _ | .preempt p _ | .exit p =>
    s.curproc = some p
  | .stopSleeper p _ => s.p_stat p = .SSLEEP
  | .resume p | .unsleepStopped p => s.p_stat p = .SSTOP ∧ s.p_wchan p ≠ none
  | .setrun p _ => s.p_stat p = .SSLEEP ∨ s.p_stat p = .SSTOP
  | .endtsleep _ | .wakeup _ => True
  | .swtch => s.curproc = none
  | .schedcpu p _ => s.p_stat p = .SRUN ∧ s.p_load p = true ∧ s.curproc ≠ some p
  | .setpri p usrpri =>
    s.p_stat p = .SRUN ∧ s.p_load p = true ∧ s.curproc ≠ some p →
      qnum usrpri = qnum (s.p_pri p)
  | .swapout p => s.p_load p = true ∧ s.curproc ≠ some p
  | .swapin p => s.p_load p = false
  | .fork p _ => s.p_stat p = .free
  | .reap p => s.p_stat p = .SZOMB

/-- After `rqinit`: one process, which runs. -/
def initial (p : P) (pri : Fin 128) : State P where
  links := ⟨fun _ => none, fun | .head k => some (.head k) | .item _ => none⟩
  sq_tailp := fun _ => none
  p_rlink := fun | .head k => some (.head k) | .item _ => none
  whichqs := fun _ => false
  p_wchan := fun _ => none
  p_stat := fun q => if q = p then .SRUN else .free
  p_load := fun q => decide (q = p)
  p_pri := fun _ => pri
  curproc := some p

/-- The states that are reached, each step in as many turns as it needs. -/
inductive Run (proc0 : Chan) : State P → Prop where
  | initial (p : P) (pri : Fin 128) : Run proc0 (initial p pri)
  | step {s s' : State P} {fuel : ℕ} {e : Event P} (h : Run proc0 s) (ha : Allowed s e)
      (hs : step proc0 fuel s e = .ok s') : Run proc0 s'

/-! ## The invariant -/

/-- Each process is where its state says, with `cur` running: the run queues hold the runnable
processes in memory but that one, those with a channel are asleep or stopped, and those asleep
have one. -/
structure Placed (s : State P) (cur : Option P) (runq : Fin 32 → List P) : Prop where
  runnable : ∀ k p, p ∈ runq k ↔
    s.p_stat p = .SRUN ∧ s.p_load p = true ∧ cur ≠ some p ∧ qnum (s.p_pri p) = k
  waits : ∀ p, s.p_wchan p ≠ none → s.p_stat p = .SSLEEP ∨ s.p_stat p = .SSTOP
  slept : ∀ p, s.p_stat p = .SSLEEP → s.p_wchan p ≠ none
  running : ∀ p, cur = some p → s.p_stat p = .SRUN ∧ s.p_load p = true

/-- The invariant of the runs. -/
def Kept (s : State P) : Prop :=
  ∃ sleepq runq, Queued s sleepq runq ∧ Placed s s.curproc runq

variable {cur cur' : Option P}

omit [DecidableEq P] in
theorem Placed.not_run (h : Placed s cur runq)
    (hp : s.p_stat p ≠ .SRUN ∨ s.p_load p = false ∨ cur = some p) (k : Fin 32) : p ∉ runq k := by
  intro hk
  obtain ⟨hs, hl, hc, -⟩ := (h.runnable k p).1 hk
  rcases hp with hp | hp | hp
  · exact hp hs
  · rw [hl] at hp; cases hp
  · exact hc hp

omit [DecidableEq P] in
theorem Placed.no_wchan (h : Placed s cur runq) (hp : s.p_stat p ≠ .SSLEEP)
    (hp' : s.p_stat p ≠ .SSTOP) : s.p_wchan p = none := by
  by_contra hne
  rcases h.waits p hne with hs | hs
  · exact hp hs
  · exact hp' hs

omit [DecidableEq P] in
theorem Placed.cur_wchan (h : Placed s cur runq) (hp : cur = some p) : s.p_wchan p = none := by
  have hs := (h.running p hp).1
  exact h.no_wchan (by rw [hs]; decide) (by rw [hs]; decide)

omit [DecidableEq P] in
/-- Sleepers that leave their queues and become runnable. -/
theorem Placed.moved {W R : P → Prop} (h : Placed s cur runq) (hm : Moved s s' runq runq' W R)
    (hR : ∀ p, R p → (s.p_stat p = .SSLEEP ∨ s.p_stat p = .SSTOP) ∧
      (W p ∨ s.p_wchan p = none))
    (hW : ∀ p, W p → s.p_stat p = .SSLEEP → R p) : Placed s' cur runq' where
  runnable k p := by
    rw [hm.runs, h.runnable, hm.load, hm.pri]
    by_cases hp : R p
    · have hne : s.p_stat p ≠ .SRUN := by
        rcases (hR p hp).1 with hs | hs <;> rw [hs] <;> decide
      have hc : cur ≠ some p := fun hc => hne (h.running p hc).1
      simp [hp, hne, hc, hm.ran p hp]
    · simp [hp, hm.stat p hp]
  waits p hp := by
    have hw : ¬W p := fun hw => hp (hm.woken p hw)
    rw [hm.kept p hw] at hp
    have hr : ¬R p := fun hr => (hR p hr).2.elim hw hp
    rw [hm.stat p hr]
    exact h.waits p hp
  slept p hp := by
    have hr : ¬R p := fun hr => by rw [hm.ran p hr] at hp; cases hp
    rw [hm.stat p hr] at hp
    have hw : ¬W p := fun hw => hr (hW p hw hp)
    rw [hm.kept p hw]
    exact h.slept p hp
  running p hp := by
    have hs := h.running p hp
    have hr : ¬R p := fun hr => by
      rcases (hR p hr).1 with hs' | hs' <;> rw [hs.1] at hs' <;> cases hs'
    rw [hm.stat p hr, hm.load]
    exact hs

/-- Nothing is different but at one process. -/
structure Only (p : P) (s s' : State P) : Prop where
  wchan : ∀ b ≠ p, s'.p_wchan b = s.p_wchan b
  stat : ∀ b ≠ p, s'.p_stat b = s.p_stat b
  load : ∀ b ≠ p, s'.p_load b = s.p_load b
  pri : ∀ b ≠ p, s'.p_pri b = s.p_pri b

omit [DecidableEq P] in
/-- A change at one process: it is enough to look at that one. -/
theorem Placed.change (h : Placed s cur runq) (ho : Only p s s')
    (hcur : ∀ b ≠ p, cur' = some b ↔ cur = some b)
    (hrun : ∀ k, ∀ b ≠ p, b ∈ runq' k ↔ b ∈ runq k)
    (hp : ∀ k, p ∈ runq' k ↔
      s'.p_stat p = .SRUN ∧ s'.p_load p = true ∧ cur' ≠ some p ∧ qnum (s'.p_pri p) = k)
    (hw : s'.p_wchan p ≠ none → s'.p_stat p = .SSLEEP ∨ s'.p_stat p = .SSTOP)
    (hs : s'.p_stat p = .SSLEEP → s'.p_wchan p ≠ none)
    (hc : cur' = some p → s'.p_stat p = .SRUN ∧ s'.p_load p = true) : Placed s' cur' runq' where
  runnable k b := by
    by_cases hb : b = p
    · rw [hb]; exact hp k
    · rw [hrun k b hb, h.runnable, ho.stat b hb, ho.load b hb, ho.pri b hb, Ne, Ne, hcur b hb]
  waits b := by
    by_cases hb : b = p
    · rw [hb]; exact hw
    · rw [ho.wchan b hb, ho.stat b hb]; exact h.waits b
  slept b := by
    by_cases hb : b = p
    · rw [hb]; exact hs
    · rw [ho.wchan b hb, ho.stat b hb]; exact h.slept b
  running b := by
    by_cases hb : b = p
    · rw [hb]; exact hc
    · rw [hcur b hb, ho.stat b hb, ho.load b hb]; exact h.running b

@[simp] theorem setStat_stat (s : State P) (p : P) (stat : Stat) :
    (s.setStat p stat).p_stat p = stat := Function.update_self _ _ _

@[simp] theorem setLoad_load (s : State P) (p : P) (load : Bool) :
    (s.setLoad p load).p_load p = load := Function.update_self _ _ _

@[simp] theorem setPri_pri (s : State P) (p : P) (pri : Fin 128) :
    (s.setPri p pri).p_pri p = pri := Function.update_self _ _ _

omit [DecidableEq P] in
/-- Whether a process runs does not change what the queues hold. -/
theorem Queued.setCur (hq : Queued s sleepq runq) (cur : Option P) :
    Queued (s.setCur cur) sleepq runq :=
  hq.congr rfl rfl rfl rfl rfl fun _ _ _ => rfl

theorem Queued.setStat (hq : Queued s sleepq runq) (p : P) (stat : Stat) :
    Queued (s.setStat p stat) sleepq runq :=
  hq.congr rfl rfl rfl rfl rfl fun _ _ _ => rfl

theorem Queued.setLoad (hq : Queued s sleepq runq) (p : P) (load : Bool) :
    Queued (s.setLoad p load) sleepq runq :=
  hq.congr rfl rfl rfl rfl rfl fun _ _ _ => rfl

/-- A priority that names the same queue. -/
theorem Queued.renumber {pri : Fin 128} (hq : Queued s sleepq runq)
    (hp : ∀ k, p ∈ runq k → qnum pri = qnum (s.p_pri p)) : Queued (s.setPri p pri) sleepq runq := by
  refine hq.congr rfl rfl rfl rfl rfl fun b k hb => ?_
  by_cases hbp : b = p
  · subst hbp
    rw [setPri_pri, hp k hb]
  · exact congrArg qnum (Function.update_of_ne hbp _ _)

theorem Queued.setPri (hq : Queued s sleepq runq) (hn : ∀ k, p ∉ runq k) (pri : Fin 128) :
    Queued (s.setPri p pri) sleepq runq := hq.renumber fun k hk => absurd hk (hn k)

omit [DecidableEq P] in
theorem Placed.setCur (h : Placed s cur runq) (cur' : Option P) :
    Placed (s.setCur cur') cur runq := ⟨h.runnable, h.waits, h.slept, h.running⟩

/-! ### Changes at one process -/

omit [DecidableEq P] in
theorem Only.trans {s'' : State P} (h : Only p s s') (h' : Only p s' s'') : Only p s s'' :=
  ⟨fun b hb => (h'.wchan b hb).trans (h.wchan b hb), fun b hb => (h'.stat b hb).trans (h.stat b hb),
    fun b hb => (h'.load b hb).trans (h.load b hb), fun b hb => (h'.pri b hb).trans (h.pri b hb)⟩

omit [DecidableEq P] in
theorem Same.only (h : Same s s') : Only p s s' :=
  ⟨fun b _ => congrFun h.wchan b, fun b _ => congrFun h.stat b, fun b _ => congrFun h.load b,
    fun b _ => congrFun h.pri b⟩

theorem only_setStat (s : State P) (p : P) (stat : Stat) : Only p s (s.setStat p stat) :=
  ⟨fun _ _ => rfl, fun _ hb => Function.update_of_ne hb _ _, fun _ _ => rfl, fun _ _ => rfl⟩

theorem only_setPri (s : State P) (p : P) (pri : Fin 128) : Only p s (s.setPri p pri) :=
  ⟨fun _ _ => rfl, fun _ _ => rfl, fun _ _ => rfl, fun _ hb => Function.update_of_ne hb _ _⟩

theorem only_setLoad (s : State P) (p : P) (load : Bool) : Only p s (s.setLoad p load) :=
  ⟨fun _ _ => rfl, fun _ _ => rfl, fun _ hb => Function.update_of_ne hb _ _, fun _ _ => rfl⟩

/-! ### The current process goes to sleep -/

/-- The process that runs is put on a sleep queue. -/
structure Asleep (p : P) (chan : Chan) (s s' : State P) : Prop where
  only : Only p s s'
  wchan : s'.p_wchan p = some chan
  stat : s'.p_stat p = .SRUN
  load : s'.p_load p = true
  cur : s'.curproc = some p

theorem enqueue_asleep (hq : Queued s sleepq runq) (hpl : Placed s s.curproc runq)
    (hc : s.curproc = some p) (chan : Chan) (pri : Fin 128) :
    ∃ s' sleepq', enqueue (s.setPri p pri) p chan = .ok s' ∧ Queued s' sleepq' runq ∧
      total sleepq' = total sleepq + 1 ∧ Asleep p chan s s' := by
  have hn : ∀ k, p ∉ runq k := hpl.not_run (Or.inr (Or.inr hc))
  obtain ⟨s', hok, hw, hs, hl, hp, hcur, hq'⟩ :=
    (hq.setPri hn pri).enqueue_queued (hpl.cur_wchan hc) hn chan
  have ht := total_update sleepq (HASH chan) (sleepq (HASH chan) ++ [(.item p, chan)])
  rw [List.length_append, List.length_singleton] at ht
  refine ⟨s', _, hok, hq', by omega, ⟨fun b hb => ?_, fun b _ => congrFun hs b,
    fun b _ => congrFun hl b, fun b hb => ?_⟩, ?_, ?_, ?_, hcur.trans hc⟩
  · rw [hw]; exact Function.update_of_ne hb _ _
  · rw [hp]; exact Function.update_of_ne hb _ _
  · rw [hw]; exact Function.update_self _ _ _
  · rw [hs]; exact (hpl.running p hc).1
  · rw [hl]; exact (hpl.running p hc).2

/-- It then stops running, asleep or stopped. -/
theorem Asleep.placed {stat : Stat} (h : Asleep p chan s s') (hpl : Placed s s.curproc runq)
    (hc : s.curproc = some p) (hst : stat = .SSLEEP ∨ stat = .SSTOP) :
    Placed (s'.setStat p stat) none runq := by
  have hne : stat ≠ .SRUN := by rcases hst with rfl | rfl <;> decide
  refine hpl.change (h.only.trans (only_setStat s' p stat)) (fun b hb => ?_) (fun _ _ _ => Iff.rfl)
    (fun k => ?_) (fun _ => ?_) (fun _ => ?_) nofun
  · simp [hc, hb.symm]
  · simp [hpl.not_run (Or.inr (Or.inr hc)) k, hne]
  · simpa using hst
  · rw [show (s'.setStat p stat).p_wchan p = s'.p_wchan p from rfl, h.wchan]
    simp

/-- `wakeup` keeps the processes in their places. -/
theorem wakeup_kept (hq : Queued s sleepq runq) (hpl : Placed s cur runq) (chan : Chan) :
    Meets (fuel < turns (total sleepq) (total sleepq)) (wakeup proc0 fuel s chan) fun s' =>
      ∃ sleepq' runq', Queued s' sleepq' runq' ∧ Placed s' cur runq' ∧
        s'.curproc = s.curproc := by
  refine (hq.wakeup_woken chan).imp ?_
  rintro s' ⟨sleepq', runq', hq', -, hm⟩
  exact ⟨sleepq', runq', hq', hpl.moved hm (fun p hp => ⟨Or.inl hp.2, Or.inl hp.1⟩)
    (fun p hp hs => ⟨hp, hs⟩), hm.cur⟩

/-- The current process goes to sleep, and is stopped before it sleeps or after a signal. -/
theorem step_sleep (hq : Queued s sleepq runq) (hpl : Placed s s.curproc runq)
    (hc : s.curproc = some p) (chan : Chan) (pri : Fin 128) :
    Meets (fuel < turns (total sleepq + 1) (total sleepq + 1))
      (step proc0 fuel s (.sleep p chan pri)) Kept := by
  obtain ⟨s₁, sleepq₁, hok, hq₁, ht, hsl⟩ := enqueue_asleep hq hpl hc chan pri
  simp only [step, hok, Fault.ok_bind]
  exact ⟨sleepq₁, runq, (hq₁.setStat p _).setCur none,
    (hsl.placed hpl hc (Or.inl rfl)).setCur none⟩

theorem step_tsleepStop (hq : Queued s sleepq runq) (hpl : Placed s s.curproc runq)
    (hc : s.curproc = some p) (chan : Chan) (pri : Fin 128) (parent : Chan) :
    Meets (fuel < turns (total sleepq + 1) (total sleepq + 1))
      (step proc0 fuel s (.tsleepStop p chan pri parent)) Kept := by
  obtain ⟨s₁, sleepq₁, hok, hq₁, ht, hsl⟩ := enqueue_asleep hq hpl hc chan pri
  simp only [step, hok, Fault.ok_bind]
  rw [← ht]
  refine Meets.bind (wakeup_kept (hq₁.setStat p _) (hsl.placed hpl hc (Or.inr rfl)) parent) ?_
  rintro s' ⟨sleepq', runq', hq', hpl', -⟩
  exact ⟨sleepq', runq', hq'.setCur none, hpl'.setCur none⟩

omit [DecidableEq P] in
theorem Moved.only {R : P → Prop} (hm : Moved s s' runq runq' (· = p) R)
    (hR : ∀ b, R b → b = p) : Only p s s' :=
  ⟨fun b hb => hm.kept b hb, fun b hb => hm.stat b fun hr => hb (hR b hr),
    fun b _ => congrFun hm.load b, fun b _ => congrFun hm.pri b⟩

theorem step_tsleepSignal (hq : Queued s sleepq runq) (hpl : Placed s s.curproc runq)
    (hc : s.curproc = some p) (chan : Chan) (pri : Fin 128) :
    Meets (fuel < turns (total sleepq + 1) (total sleepq + 1))
      (step proc0 fuel s (.tsleepSignal p chan pri)) Kept := by
  obtain ⟨s₁, sleepq₁, hok, hq₁, ht, hsl⟩ := enqueue_asleep hq hpl hc chan pri
  simp only [step, hok, Fault.ok_bind]
  refine Meets.bind ((hq₁.unsleep_moved p).mono fun hf => ?_) ?_
  · exact (ht ▸ hf).trans_le (le_turns _ _)
  · rintro s₂ ⟨sleepq₂, hq₂, -, hm⟩
    have hcur : (s₂.setStat p .SRUN).curproc = some p := hm.cur.trans hsl.cur
    have hload : (s₂.setStat p .SRUN).p_load p = true := (congrFun hm.load p).trans hsl.load
    refine ⟨sleepq₂, runq, hq₂.setStat p _, hpl.change
      ((hsl.only.trans (hm.only nofun)).trans (only_setStat s₂ p _)) (fun b _ => ?_)
      (fun _ _ _ => Iff.rfl) (fun k => ?_) (fun hw => ?_) (fun hs => ?_) fun _ => ⟨by simp, hload⟩⟩
    · rw [hcur, hc]
    · simp [hpl.not_run (Or.inr (Or.inr hc)) k, hcur]
    · exact absurd (hm.woken p rfl) hw
    · simp at hs

/-! ### Signals and timeouts -/

theorem stopped_placed (hpl : Placed s cur runq) (hs : s.p_stat p = .SSLEEP) :
    Placed (s.setStat p .SSTOP) cur runq := by
  have hne : cur ≠ some p := fun hc => nomatch hs.symm.trans (hpl.running p hc).1
  refine hpl.change (only_setStat s p _) (fun _ _ => Iff.rfl) (fun _ _ _ => Iff.rfl) (fun k => ?_)
    (fun _ => Or.inr (by simp)) (fun h => by simp at h) fun hc => absurd hc hne
  simp [hpl.not_run (Or.inl (by rw [hs]; decide)) k]

/-- The current process stops without having gone to sleep. -/
theorem stop_placed (hpl : Placed s s.curproc runq) (hc : s.curproc = some p) :
    Placed (s.setStat p .SSTOP) none runq := by
  refine hpl.change (only_setStat s p _) (fun b hb => ?_) (fun _ _ _ => Iff.rfl) (fun k => ?_)
    (fun _ => Or.inr (by simp)) (fun h => by simp at h) nofun
  · simp [hc, hb.symm]
  · simp [hpl.not_run (Or.inr (Or.inr hc)) k]

theorem resume_placed (hpl : Placed s cur runq) (hs : s.p_stat p = .SSTOP)
    (hw : s.p_wchan p ≠ none) : Placed (s.setStat p .SSLEEP) cur runq := by
  have hne : cur ≠ some p := fun hc => nomatch hs.symm.trans (hpl.running p hc).1
  refine hpl.change (only_setStat s p _) (fun _ _ => Iff.rfl) (fun _ _ _ => Iff.rfl) (fun k => ?_)
    (fun _ => Or.inl (by simp)) (fun _ => hw) fun hc => absurd hc hne
  simp [hpl.not_run (Or.inl (by rw [hs]; decide)) k]

theorem unsleep_kept (hq : Queued s sleepq runq) (hpl : Placed s s.curproc runq)
    (hs : s.p_stat p ≠ .SSLEEP) :
    Meets (fuel < turns (total sleepq + 1) (total sleepq + 1)) (unsleep fuel s p) Kept := by
  refine ((hq.unsleep_moved p).mono fun hf =>
    (hf.trans (Nat.lt_succ_self _)).trans_le (le_turns _ _)).imp ?_
  rintro s' ⟨sleepq', hq', -, hm⟩
  exact ⟨sleepq', runq, hq', hm.cur ▸ hpl.moved hm nofun fun b hb hs' => absurd (hb ▸ hs') hs⟩

theorem setrun_kept (hq : Queued s sleepq runq) (hpl : Placed s s.curproc runq)
    (hs : s.p_stat p = .SSLEEP ∨ s.p_stat p = .SSTOP) :
    Meets (fuel < turns (total sleepq + 1) (total sleepq + 1)) (setrun proc0 fuel s p) Kept := by
  have hne : s.p_stat p ≠ .SRUN := by rcases hs with hs | hs <;> rw [hs] <;> decide
  refine ((hq.setrun_moved (hpl.not_run (Or.inl hne)) hs).mono fun hf =>
    hf.trans_le (turns_mono (Nat.le_succ _) (Nat.le_succ _))).imp ?_
  rintro s' ⟨sleepq', runq', hq', hm⟩
  refine ⟨sleepq', runq', hq', hm.cur ▸ hpl.moved hm (fun b hb => ?_) fun b hb hbs => ?_⟩
  · rcases hb with rfl | hb
    · exact ⟨hs, Or.inl (Or.inl rfl)⟩
    · exact ⟨Or.inl hb.2, Or.inl (Or.inr hb.1)⟩
  · exact hb.imp_right fun hb => ⟨hb, hbs⟩

theorem setPri_placed (hpl : Placed s cur runq) (pri : Fin 128)
    (hp : s.p_stat p = .SRUN ∧ s.p_load p = true ∧ cur ≠ some p → qnum pri = qnum (s.p_pri p)) :
    Placed (s.setPri p pri) cur runq := by
  refine hpl.change (only_setPri s p pri) (fun _ _ => Iff.rfl) (fun _ _ _ => Iff.rfl) (fun k => ?_)
    (hpl.waits p) (hpl.slept p) (hpl.running p)
  rw [hpl.runnable, setPri_pri]
  refine ⟨fun ⟨h₁, h₂, h₃, h₄⟩ => ⟨h₁, h₂, h₃, ?_⟩, fun ⟨h₁, h₂, h₃, h₄⟩ => ⟨h₁, h₂, h₃, ?_⟩⟩
  · rw [hp ⟨h₁, h₂, h₃⟩, h₄]
  · rw [← hp ⟨h₁, h₂, h₃⟩, h₄]

theorem step_setrun (hq : Queued s sleepq runq) (hpl : Placed s s.curproc runq) (pri : Fin 128)
    (hs : s.p_stat p = .SSLEEP ∨ s.p_stat p = .SSTOP) :
    Meets (fuel < turns (total sleepq + 1) (total sleepq + 1))
      (step proc0 fuel s (.setrun p pri)) Kept := by
  have hne : s.p_stat p ≠ .SRUN := by rcases hs with hs | hs <;> rw [hs] <;> decide
  exact setrun_kept (s := s.setPri p pri) (hq.setPri (hpl.not_run (Or.inl hne)) pri)
    (setPri_placed hpl pri fun h => absurd h.1 hne) hs

theorem step_endtsleep (hq : Queued s sleepq runq) (hpl : Placed s s.curproc runq) (p : P) :
    Meets (fuel < turns (total sleepq + 1) (total sleepq + 1))
      (step proc0 fuel s (.endtsleep p)) Kept := by
  simp only [step, endtsleep]
  by_cases hw : s.p_wchan p = none
  · rw [if_pos hw]
    exact ⟨sleepq, runq, hq, hpl⟩
  · rw [if_neg hw]
    by_cases hs : s.p_stat p = .SSLEEP
    · rw [if_pos hs]
      exact setrun_kept hq hpl (Or.inl hs)
    · rw [if_neg hs]
      exact unsleep_kept hq hpl hs

/-! ### The run queues -/

omit [DecidableEq P] in
theorem mem_insert (k' : Fin 32) (b : P) :
    b ∈ Function.update runq k (runq k ++ [p]) k' ↔ b ∈ runq k' ∨ b = p ∧ k = k' := by
  rw [InsQueue.mem_update]
  by_cases hk : k' = k
  · subst hk
    simp
  · have hk' : k ≠ k' := fun heq => hk heq.symm
    simp [hk, hk']

theorem mem_remove (hq : Queued s sleepq runq) (k : Fin 32) (b : P) :
    b ∈ (runq k).erase p ↔ b ∈ runq k ∧ b ≠ p := by
  rw [(hq.runs.nodup k).mem_erase_iff]
  exact and_comm

omit [DecidableEq P] in
/-- A process off the queues is put on the run queue of its priority. -/
theorem Placed.queued {runq₁ : Fin 32 → List P} (h : Placed s cur runq) (ho : Only p s s')
    (hcur : ∀ b ≠ p, cur' = some b ↔ cur = some b) (hc : cur' ≠ some p)
    (hp : s'.p_stat p = .SRUN ∧ s'.p_load p = true ∧ s'.p_wchan p = none)
    (hrun : ∀ k, ∀ b ≠ p, b ∈ runq₁ k ↔ b ∈ runq k) (hn : ∀ k, p ∉ runq₁ k)
    (hk : qnum (s'.p_pri p) = k) :
    Placed s' cur' (Function.update runq₁ k (runq₁ k ++ [p])) := by
  refine h.change ho hcur (fun k' b hb => ?_) (fun k' => ?_) (fun hw => absurd hp.2.2 hw)
    (fun hs => nomatch hp.1.symm.trans hs) fun h => absurd h hc
  · simp [mem_insert, hb, hrun k' b hb]
  · simp [mem_insert, hn, hp.1, hp.2.1, hc, hk]

theorem step_swtch (hq : Queued s sleepq runq) (hpl : Placed s s.curproc runq)
    (hc : s.curproc = none) :
    Meets (fuel < turns (total sleepq + 1) (total sleepq + 1)) (step proc0 fuel s .swtch)
      Kept := by
  rcases hq.swtch_queued with ⟨hok, -⟩ | ⟨k, p, l, s', s'', hl, -, hs, rfl, hok, hq'⟩
  · simp only [step, hok]
    exact ⟨sleepq, runq, hq.setCur none, hc ▸ hpl.setCur none⟩
  · simp only [step, hok]
    have hp : p ∈ runq k := by simp [hl]
    obtain ⟨hst, hld, -, -⟩ := (hpl.runnable k p).1 hp
    have hw : s.p_wchan p = none := hq.apart p k hp
    refine ⟨sleepq, _, hq'.setCur (some p), Placed.setCur (s := s') (hpl.change (p := p) hs.only
      (fun b hb => ?_) (fun k b hb => ?_) (fun k => ?_) (fun h => ?_) (fun h => ?_) fun _ => ?_) _⟩
    · simp [hc, hb.symm]
    · simp [mem_remove hq, hb]
    · simp [mem_remove hq]
    · rw [hs.wchan] at h; exact absurd hw h
    · rw [hs.stat, hst] at h; cases h
    · rw [hs.stat, hs.load]; exact ⟨hst, hld⟩

theorem step_preempt (hq : Queued s sleepq runq) (hpl : Placed s s.curproc runq)
    (hc : s.curproc = some p) (usrpri : Fin 128) :
    Meets (fuel < turns (total sleepq + 1) (total sleepq + 1))
      (step proc0 fuel s (.preempt p usrpri)) Kept := by
  have hn : ∀ k, p ∉ runq k := hpl.not_run (Or.inr (Or.inr hc))
  have hw := hpl.cur_wchan hc
  obtain ⟨hst, hld⟩ := hpl.running p hc
  obtain ⟨s', hok, hs, hq'⟩ := (hq.setPri hn usrpri).setrq_queued hw hn
  simp only [step, hok, Fault.ok_bind]
  have hcur : ∀ b ≠ p, none = some b ↔ s.curproc = some b := fun b hb => by simp [hc, hb.symm]
  have hp : s'.p_stat p = .SRUN ∧ s'.p_load p = true ∧ s'.p_wchan p = none :=
    ⟨(congrFun hs.stat p).trans hst, (congrFun hs.load p).trans hld, (congrFun hs.wchan p).trans hw⟩
  exact ⟨sleepq, _, hq'.setCur none, (hpl.queued ((only_setPri s p usrpri).trans hs.only) hcur
    nofun hp (fun _ _ _ => Iff.rfl) hn (by rw [hs.pri])).setCur none⟩

theorem step_schedcpu (hq : Queued s sleepq runq) (hpl : Placed s s.curproc runq)
    (hp : s.p_stat p = .SRUN ∧ s.p_load p = true ∧ s.curproc ≠ some p) (usrpri : Fin 128) :
    Meets (fuel < turns (total sleepq + 1) (total sleepq + 1))
      (step proc0 fuel s (.schedcpu p usrpri)) Kept := by
  have hmem : p ∈ runq (qnum (s.p_pri p)) :=
    (hpl.runnable _ p).2 ⟨hp.1, hp.2.1, hp.2.2, rfl⟩
  have hw := hq.apart p _ hmem
  obtain ⟨s₁, hok₁, hs₁, hq₁⟩ := hq.remrq_queued hmem
  have hn : ∀ k, p ∉ (runq k).erase p := fun k => by simp [mem_remove hq]
  obtain ⟨s', hok, hs, hq'⟩ := (hq₁.setPri hn usrpri).setrq_queued
    ((congrFun hs₁.wchan p).trans hw) hn
  simp only [step, hok₁, Fault.ok_bind, hok]
  have hcur : s'.curproc = s.curproc := hs.cur.trans hs₁.cur
  have hp' : s'.p_stat p = .SRUN ∧ s'.p_load p = true ∧ s'.p_wchan p = none := by
    rw [hs.stat, hs.load, hs.wchan]
    exact ⟨(congrFun hs₁.stat p).trans hp.1, (congrFun hs₁.load p).trans hp.2.1,
      (congrFun hs₁.wchan p).trans hw⟩
  exact ⟨sleepq, _, hq', hpl.queued ((hs₁.only.trans (only_setPri s₁ p usrpri)).trans hs.only)
    (fun b _ => by rw [hcur]) (hcur ▸ hp.2.2) hp' (fun k b hb => by simp [mem_remove hq, hb]) hn
    (by rw [hs.pri])⟩

theorem step_swapout (hq : Queued s sleepq runq) (hpl : Placed s s.curproc runq)
    (hl : s.p_load p = true) (hc : s.curproc ≠ some p) :
    Meets (fuel < turns (total sleepq + 1) (total sleepq + 1)) (step proc0 fuel s (.swapout p))
      Kept := by
  simp only [step]
  by_cases hst : s.p_stat p = .SRUN
  · have hmem : p ∈ runq (qnum (s.p_pri p)) := (hpl.runnable _ p).2 ⟨hst, hl, hc, rfl⟩
    obtain ⟨s', hok, hs, hq'⟩ := (hq.setLoad p false).remrq_queued hmem
    have hld : s'.p_load p = false := by rw [hs.load]; simp
    simp only [hst, if_true, hok]
    refine ⟨sleepq, _, hq', hpl.change (p := p) ((only_setLoad s p false).trans hs.only)
      (fun b _ => by rw [hs.cur]; rfl) (fun k b hb => ?_) (fun k => ?_) (fun h => ?_) (fun h => ?_)
      fun h => ?_⟩
    · simp [mem_remove hq, hb]
    · simp [mem_remove hq, hld]
    · rw [hs.wchan] at h; exact absurd (hq.apart p _ hmem) h
    · rw [hs.stat] at h; exact nomatch hst.symm.trans h
    · rw [hs.cur] at h; exact absurd h hc
  · rw [if_neg hst]
    refine ⟨sleepq, runq, hq.setLoad p false, hpl.change (p := p) (only_setLoad s p false)
      (fun _ _ => Iff.rfl) (fun _ _ _ => Iff.rfl) (fun k => ?_) (hpl.waits p) (hpl.slept p)
      fun h => absurd h hc⟩
    simp [hpl.not_run (Or.inl hst) k]

theorem step_swapin (hq : Queued s sleepq runq) (hpl : Placed s s.curproc runq)
    (hl : s.p_load p = false) :
    Meets (fuel < turns (total sleepq + 1) (total sleepq + 1)) (step proc0 fuel s (.swapin p))
      Kept := by
  have hn : ∀ k, p ∉ runq k := hpl.not_run (Or.inr (Or.inl hl))
  have hc : s.curproc ≠ some p := fun hc => nomatch hl.symm.trans (hpl.running p hc).2
  simp only [step]
  by_cases hst : s.p_stat p = .SRUN
  · have hw : s.p_wchan p = none := hpl.no_wchan (by rw [hst]; decide) (by rw [hst]; decide)
    obtain ⟨s', hok, hs, hq'⟩ := hq.setrq_queued hw hn
    simp only [hst, if_true, hok, Fault.ok_bind]
    have hcur : (s'.setLoad p true).curproc = s.curproc := hs.cur
    exact ⟨sleepq, _, hq'.setLoad p true, hpl.queued (hs.only.trans (only_setLoad s' p true))
      (fun b _ => by rw [hcur]) (hcur ▸ hc) ⟨(congrFun hs.stat p).trans hst, setLoad_load s' p true,
        (congrFun hs.wchan p).trans hw⟩ (fun _ _ _ => Iff.rfl) hn (congrArg qnum (congrFun hs.pri p))⟩
  · rw [if_neg hst]
    refine ⟨sleepq, runq, hq.setLoad p true, hpl.change (p := p) (only_setLoad s p true)
      (fun _ _ => Iff.rfl) (fun _ _ _ => Iff.rfl) (fun k => ?_) (hpl.waits p) (hpl.slept p)
      fun h => absurd h hc⟩
    have hst' : (s.setLoad p true).p_stat p ≠ .SRUN := hst
    simp [hn, hst']

theorem step_fork (hq : Queued s sleepq runq) (hpl : Placed s s.curproc runq)
    (hs : s.p_stat p = .free) (pri : Fin 128) :
    Meets (fuel < turns (total sleepq + 1) (total sleepq + 1))
      (step proc0 fuel s (.fork p pri)) Kept := by
  have hne : s.p_stat p ≠ .SRUN := by rw [hs]; decide
  have hn : ∀ k, p ∉ runq k := hpl.not_run (Or.inl hne)
  have hc : s.curproc ≠ some p := fun hc => hne (hpl.running p hc).1
  have hw : s.p_wchan p = none := hpl.no_wchan (by rw [hs]; decide) (by rw [hs]; decide)
  obtain ⟨s', hok, hsm, hq'⟩ :=
    (((hq.setLoad p true).setPri hn pri).setStat p .SRUN).setrq_queued hw hn
  simp only [step, hok]
  have hcur : s'.curproc = s.curproc := hsm.cur
  have ho : Only p s s' := (((only_setLoad s p true).trans (only_setPri _ p pri)).trans
    (only_setStat _ p .SRUN)).trans hsm.only
  have hp : s'.p_stat p = .SRUN ∧ s'.p_load p = true ∧ s'.p_wchan p = none := by
    rw [hsm.stat, hsm.load, hsm.wchan]
    exact ⟨setStat_stat _ p .SRUN, setLoad_load s p true, hw⟩
  exact ⟨sleepq, _, hq', hpl.queued ho (fun b _ => by rw [hcur]) (hcur ▸ hc) hp
    (fun _ _ _ => Iff.rfl) hn (by rw [hsm.pri])⟩

/-- A process comes to be none, or leaves the processor for good. -/
theorem gone_placed {stat : Stat} (hpl : Placed s cur runq) (hw : s.p_wchan p = none)
    (hn : ∀ k, p ∉ runq k) (hcur : ∀ b ≠ p, cur' = some b ↔ cur = some b) (hc : cur' ≠ some p)
    (hst : stat ≠ .SRUN ∧ stat ≠ .SSLEEP) : Placed (s.setStat p stat) cur' runq := by
  refine hpl.change (only_setStat s p stat) hcur (fun _ _ _ => Iff.rfl) (fun k => ?_)
    (fun h => absurd hw h) (fun h => ?_) fun h => absurd h hc
  · simp [hn, hst.1]
  · rw [setStat_stat] at h
    exact absurd h hst.2

/-! ## The theorems -/

/-- Every event that can happen keeps the processes in their places, and faults only in that it
runs out of turns. -/
theorem step_kept {e : Event P} (hq : Queued s sleepq runq) (hpl : Placed s s.curproc runq)
    (ha : Allowed s e) :
    Meets (fuel < turns (total sleepq + 1) (total sleepq + 1)) (step proc0 fuel s e) Kept := by
  have more : fuel < turns (total sleepq) (total sleepq) →
      fuel < turns (total sleepq + 1) (total sleepq + 1) := fun hf =>
    hf.trans_le (turns_mono (Nat.le_succ _) (Nat.le_succ _))
  cases e with
  | sleep p chan pri => exact step_sleep hq hpl ha chan pri
  | tsleepSignal p chan pri => exact step_tsleepSignal hq hpl ha chan pri
  | tsleepStop p chan pri parent => exact step_tsleepStop hq hpl ha chan pri parent
  | stop p parent =>
    refine Meets.bind ((wakeup_kept (hq.setStat p .SSTOP) (stop_placed hpl ha) parent).mono more) ?_
    rintro s' ⟨sleepq', runq', hq', hpl', -⟩
    exact ⟨sleepq', runq', hq'.setCur none, hpl'.setCur none⟩
  | stopSleeper p parent =>
    refine ((wakeup_kept (hq.setStat p .SSTOP) (stopped_placed hpl ha) parent).mono more).imp ?_
    rintro s' ⟨sleepq', runq', hq', hpl', hcur⟩
    exact ⟨sleepq', runq', hq', hcur ▸ hpl'⟩
  | resume p => exact ⟨sleepq, runq, hq.setStat p .SSLEEP, resume_placed hpl ha.1 ha.2⟩
  | unsleepStopped p => exact unsleep_kept hq hpl (by rw [ha.1]; decide)
  | setrun p pri => exact step_setrun hq hpl pri ha
  | endtsleep p => exact step_endtsleep hq hpl p
  | wakeup chan =>
    refine ((wakeup_kept hq hpl chan).mono more).imp ?_
    rintro s' ⟨sleepq', runq', hq', hpl', hcur⟩
    exact ⟨sleepq', runq', hq', hcur ▸ hpl'⟩
  | swtch => exact step_swtch hq hpl ha
  | preempt p usrpri => exact step_preempt hq hpl ha usrpri
  | schedcpu p usrpri => exact step_schedcpu hq hpl ha usrpri
  | setpri p usrpri =>
    refine ⟨sleepq, runq, hq.renumber fun k hk => ha ?_, setPri_placed hpl usrpri ha⟩
    obtain ⟨hs, hl, hc, -⟩ := (hpl.runnable k p).1 hk
    exact ⟨hs, hl, hc⟩
  | swapout p => exact step_swapout hq hpl ha.1 ha.2
  | swapin p => exact step_swapin hq hpl ha
  | fork p pri => exact step_fork hq hpl ha pri
  | exit p =>
    have hc : s.curproc = some p := ha
    have hgone : Placed (s.setStat p .SZOMB) none runq := gone_placed hpl (hpl.cur_wchan hc)
      (hpl.not_run (Or.inr (Or.inr hc))) (fun b hb => by simp [hc, hb.symm]) (by simp) (by decide)
    exact ⟨sleepq, runq, (hq.setStat p .SZOMB).setCur none, hgone.setCur none⟩
  | reap p =>
    have hs : s.p_stat p = .SZOMB := ha
    refine ⟨sleepq, runq, hq.setStat p .free, gone_placed hpl
      (hpl.no_wchan (by rw [hs]; decide) (by rw [hs]; decide))
      (hpl.not_run (Or.inl (by rw [hs]; decide))) (fun _ _ => Iff.rfl) (fun hc => ?_) (by decide)⟩
    exact nomatch hs.symm.trans (hpl.running p hc).1

/-- The state after `rqinit` has all queues empty. -/
theorem initial_kept (p : P) (pri : Fin 128) : Kept (initial p pri) := by
  refine ⟨fun _ => [], fun _ => [], ⟨⟨fun k => ⟨⟨rfl, rfl⟩, List.nodup_singleton _⟩, nofun⟩,
    fun k => by simp [initial], fun h => rfl, fun h => Or.inr ⟨rfl, rfl⟩, nofun, nofun, nofun,
    nofun, fun _ _ => rfl⟩, ⟨fun k q => ?_, fun q hq => absurd rfl hq, fun q hq => ?_,
    fun q hq => ?_⟩⟩
  · by_cases hqp : q = p
    · simp [initial, hqp]
    · simp [initial, hqp]
  · by_cases hqp : q = p <;> simp [initial, hqp] at hq
  · obtain rfl : p = q := Option.some.inj hq
    simp [initial]

theorem Run.kept (h : Run proc0 s) : Kept s := by
  induction h with
  | initial p pri => exact initial_kept p pri
  | step _ ha hs ih =>
    obtain ⟨sleepq, runq, hq, hpl⟩ := ih
    exact (step_kept hq hpl ha).of_ok hs

/-- In every state that is reached, the sleep queue of each hash value is a list that holds each
process with a channel of that value exactly once, and no other, and `sq_tailp` addresses its last
link unless the queue has never been used. The run queues are circles that hold each process that
is runnable and in memory, but the one that runs, exactly once, under its priority, and
`whichqs` tells which have any. A process with a channel is asleep or stopped, and so on no run
queue. -/
theorem run_placed (h : Run proc0 s) : ∃ (sleepq : Fin 64 → List (Node P × Chan))
    (runq : Fin 32 → List P),
    (∀ h, Lst s.val s.links.next (s.links.head h) (sleepq h) ∧ (sleepq h).Nodup ∧
      (s.sq_tailp h = some (last (.head h) (sleepq h)) ∨
        s.sq_tailp h = none ∧ sleepq h = [])) ∧
    (∀ h p c, (.item p, c) ∈ sleepq h ↔ s.p_wchan p = some c ∧ HASH c = h) ∧
    InsQueue.Queues ⟨s.links.next, s.p_rlink⟩ runq ∧
    (∀ k p, p ∈ runq k ↔ s.p_stat p = .SRUN ∧ s.p_load p = true ∧ s.curproc ≠ some p ∧
      qnum (s.p_pri p) = k) ∧
    (∀ k, s.whichqs k = true ↔ runq k ≠ []) ∧
    ∀ p, (s.p_wchan p ≠ none → s.p_stat p = .SSLEEP ∨ s.p_stat p = .SSTOP) ∧
      (s.p_stat p = .SSLEEP → s.p_wchan p ≠ none) := by
  obtain ⟨sleepq, runq, hq, hpl⟩ := h.kept
  exact ⟨sleepq, runq, fun h => ⟨hq.sleeps h, (hq.sleeps h).nodup.of_map, hq.tail h⟩,
    fun h p c => hq.mem_iff, hq.runs, hpl.runnable, hq.full, fun p => ⟨hpl.waits p, hpl.slept p⟩⟩

/-- The first process, asleep. -/
theorem asleep_run : ∃ s : State ℕ, Run 0#32 s ∧ s.p_wchan 0 = some 96#32 :=
  ⟨_, @Run.step ℕ _ 0#32 _ _ 0 (.sleep 0 96#32 10) (Run.initial 0 50) rfl rfl, rfl⟩

theorem run_placed_asleep : ∃ (s : State ℕ) (sleepq : Fin 64 → List (Node ℕ × Chan)),
    Run 0#32 s ∧ Lst s.val s.links.next (s.links.head 3) (sleepq 3) ∧
      (.item 0, 96#32) ∈ sleepq 3 := by
  obtain ⟨s, hs, hp⟩ := asleep_run
  obtain ⟨sleepq, runq, hl, hm, -⟩ := run_placed hs
  exact ⟨s, sleepq, hs, (hl 3).1, (hm 3 0 96#32).2 ⟨hp, by decide⟩⟩

/-- In every state that is reached, whatever can happen is done: no panic, no null pointer, and
no loop that does not end. -/
theorem run_step {e : Event P} (h : Run proc0 s) (ha : Allowed s e) :
    (∃ n, ∀ fuel ≥ n, ∃ s', step proc0 fuel s e = .ok s') ∧
      ∀ fuel, step proc0 fuel s e ≠ .error .panic ∧ step proc0 fuel s e ≠ .error .deref := by
  obtain ⟨sleepq, runq, hq, hpl⟩ := h.kept
  have hm : ∀ fuel, Meets (fuel < turns (total sleepq + 1) (total sleepq + 1))
      (step proc0 fuel s e) Kept := fun fuel => step_kept hq hpl ha
  refine ⟨⟨turns (total sleepq + 1) (total sleepq + 1), fun fuel hf => ?_⟩, fun fuel => ?_⟩
  · obtain ⟨s', hs, -⟩ := (hm fuel).total (not_lt.2 hf)
    exact ⟨s', hs⟩
  · have hm := hm fuel
    constructor <;> intro he <;> rw [he] at hm <;> exact hm

theorem run_step_sleep :
    (∃ n, ∀ fuel ≥ n, ∃ s', step 0#32 fuel (initial 0 50) (.sleep 0 96#32 10) = .ok s') ∧
      ∀ fuel, step 0#32 fuel (initial 0 50) (.sleep 0 96#32 10) ≠ .error .panic ∧
        step 0#32 fuel (initial 0 50) (.sleep 0 96#32 10) ≠ .error .deref :=
  run_step (Run.initial 0 50) rfl

/-- In every state that is reached, `wakeup` returns. It clears the channel of exactly the
processes sleeping on it, and where one of them is not in memory, of those on the channel of the
swapper as well; it makes runnable those that were asleep, not stopped, and nothing else
changes. -/
theorem run_wakeup (h : Run proc0 s) (chan : Chan) :
    ∃ fuel s', wakeup proc0 fuel s chan = .ok s' ∧
      (∀ p, s'.p_wchan p = none ↔ s.p_wchan p = none ∨ Wakes proc0 s chan p) ∧
      (∀ p, ¬Wakes proc0 s chan p → s'.p_wchan p = s.p_wchan p ∧ s'.p_stat p = s.p_stat p) ∧
      ∀ p, Wakes proc0 s chan p →
        s'.p_stat p = if s.p_stat p = .SSLEEP then .SRUN else s.p_stat p := by
  obtain ⟨sleepq, runq, hq, -⟩ := h.kept
  have hw : Meets (turns (total sleepq) (total sleepq) < turns (total sleepq) (total sleepq))
      (wakeup proc0 (turns (total sleepq) (total sleepq)) s chan)
      (Woken proc0 s sleepq runq chan) := hq.wakeup_woken chan
  obtain ⟨s', hs, sleepq', runq', -, -, hm⟩ := hw.total (lt_irrefl _)
  refine ⟨_, s', hs, fun p => ?_, fun p hp => ⟨hm.kept p hp, hm.stat p fun hr => hp hr.1⟩,
    fun p hp => ?_⟩
  · by_cases hp : Wakes proc0 s chan p
    · simp [hm.woken p hp, hp]
    · simp [hm.kept p hp, hp]
  · split_ifs with hst
    · exact hm.ran p ⟨hp, hst⟩
    · exact hm.stat p fun hr => hst hr.2

theorem run_wakeup_asleep : ∃ (s s' : State ℕ) (fuel : ℕ), s.p_wchan 0 = some 96#32 ∧
    wakeup 0#32 fuel s 96#32 = .ok s' ∧ s'.p_wchan 0 = none := by
  obtain ⟨s, hs, hp⟩ := asleep_run
  obtain ⟨fuel, s', hok, hw, -⟩ := run_wakeup hs 96#32
  exact ⟨s, s', fuel, hp, hok, (hw 0).2 (Or.inr (Or.inl hp))⟩

end Synch
