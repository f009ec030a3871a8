import NetBsd.Kern.Sig

/-!
# What holds of signals

`SIGKILL` and `SIGSTOP` are never blocked, ignored or caught, the two sets of signals agree with the
actions, and no process is stopped, or asleep where a signal would wake it, while `SIGKILL` is
pending.

## Main definitions

* `Sets`: what holds of the masks and the actions of a process
* `Pends`: what holds of its pending signals
* `Reached`: the processes after some steps

## Main results

* `post_spec`: what sending a signal does to a process
* `issigLoop_spec`, `issigLoop_ends`: what `issig` does with what is pending
* `step_holds`: a step keeps what holds of every process
* `sig_safe`: the result for runs
-/

namespace Sig

open BitSet

variable {p p' : Proc} {s s' : Procs} {i j k sig : ℕ}

/-! ## The constant sets -/

theorem has_sigmask (hsig : 0 < sig) : Has (sigmask sig) i ↔ sig = i + 1 ∧ i < 32 := by
  rw [sigmask, has_bit]
  omega

theorem has_sigcantmask : Has sigcantmask i ↔ i + 1 = SIGKILL ∨ i + 1 = SIGSTOP := by
  rw [sigcantmask, has_or, has_sigmask (by decide), has_sigmask (by decide), SIGKILL, SIGSTOP]
  omega

theorem has_stopsigmask : Has stopsigmask i ↔
    i + 1 = SIGSTOP ∨ i + 1 = SIGTSTP ∨ i + 1 = SIGTTIN ∨ i + 1 = SIGTTOU := by
  simp only [stopsigmask, has_or, has_sigmask (show 0 < SIGSTOP by decide),
    has_sigmask (show 0 < SIGTSTP by decide), has_sigmask (show 0 < SIGTTIN by decide),
    has_sigmask (show 0 < SIGTTOU by decide)]
  simp only [SIGSTOP, SIGTSTP, SIGTTIN, SIGTTOU]
  omega

theorem has_contsigmask : Has contsigmask i ↔ i + 1 = SIGCONT := by
  rw [contsigmask, has_sigmask (by decide), SIGCONT]
  omega

theorem sigprop_large (h : 32 ≤ sig) : sigprop sig = 0 := by
  rw [sigprop, List.getD_eq_default]
  simpa using h

/-- The stop signals are those of `stopsigmask`. -/
theorem stop_iff : sigprop sig &&& SA_STOP ≠ 0 ↔
    sig = SIGSTOP ∨ sig = SIGTSTP ∨ sig = SIGTTIN ∨ sig = SIGTTOU := by
  by_cases h : 32 ≤ sig
  · rw [sigprop_large h]
    simp only [SIGSTOP, SIGTSTP, SIGTTIN, SIGTTOU]
    refine iff_of_false (by decide) (by omega)
  · have hall : ∀ sig < 32, (sigprop sig &&& SA_STOP ≠ 0 ↔
        sig = SIGSTOP ∨ sig = SIGTSTP ∨ sig = SIGTTIN ∨ sig = SIGTTOU) := by decide
    exact hall sig (Nat.not_le.mp h)

theorem cont_iff : sigprop sig &&& SA_CONT ≠ 0 ↔ sig = SIGCONT := by
  by_cases h : 32 ≤ sig
  · rw [sigprop_large h, SIGCONT]
    refine iff_of_false (by decide) (by omega)
  · have hall : ∀ sig < 32, (sigprop sig &&& SA_CONT ≠ 0 ↔ sig = SIGCONT) := by decide
    exact hall sig (Nat.not_le.mp h)

/-- A signal is taken out of a set. -/
theorem has_clear (hsig : 0 < sig) {x : Sigset} :
    Has (x &&& ~~~sigmask sig) i ↔ Has x i ∧ i + 1 ≠ sig := by
  rw [sigmask, has_diff_bit]
  refine and_congr_right fun _ => ?_
  omega

theorem stop_ne_kill (h : sigprop sig &&& SA_STOP ≠ 0) : sig ≠ SIGKILL := by
  rintro rfl
  exact h (by decide)

/-! ## What holds of a process -/

/-- The default action is to ignore. -/
def Ignored (sig : ℕ) (act : Handler) : Prop :=
  sig ≠ SIGCONT ∧ (act = SIG_IGN ∨ act = SIG_DFL ∧ sigprop sig &&& SA_IGNORE ≠ 0)

/-- The masks, and the actions. -/
structure Sets (p : Proc) : Prop where
  masked : ∀ i, Has p.pSigmask i → ¬ Has sigcantmask i
  saved : ∀ sig i, Has (p.psCatchmask sig) i → ¬ Has sigcantmask i
  caught : ∀ i, Has p.pSigcatch i ↔
    p.psSigact (i + 1) ≠ SIG_DFL ∧ p.psSigact (i + 1) ≠ SIG_IGN
  ignored : ∀ i, Has p.pSigignore i ↔ Ignored (i + 1) (p.psSigact (i + 1))
  kill : p.psSigact SIGKILL = SIG_DFL
  stop : p.psSigact SIGSTOP = SIG_DFL

/-- The sleep may be broken off. -/
def Pc.breaks : Pc → Bool
  | .stopped _ .tsleep => true
  | .asleep catch_ => catch_
  | _ => false

/-- The process is left runnable, unless it sleeps uninterruptibly. -/
def Runnable (p : Proc) : Prop := p.pStat ≠ .sstop ∧ (p.pStat = .ssleep → p.sintr = false)

/-- `SIGKILL` is pending. -/
def Killed (p : Proc) : Prop := Has p.pSig (SIGKILL - 1)

/-- The pending signals. -/
structure Pends (p : Proc) : Prop where
  cont : Has p.pSig (SIGCONT - 1) → ∀ i, Has stopsigmask i → ¬ Has p.pSig i
  sintr : p.sintr = true → p.pc.breaks = true
  kill : 1 < p.pPid → Killed p → Runnable p
  stopped : ∀ sig caller, p.pc = .stopped sig caller → sig ≠ SIGKILL

/-- The two together. -/
structure Holds (p : Proc) : Prop where
  sets : Sets p
  pends : Pends p

theorem Sets.congr (h : Sets p) (hm : p'.pSigmask = p.pSigmask)
    (hs : p'.psCatchmask = p.psCatchmask) (hc : p'.pSigcatch = p.pSigcatch)
    (hi : p'.pSigignore = p.pSigignore) (ha : p'.psSigact = p.psSigact) : Sets p' := by
  constructor
  · rw [hm]
    exact h.masked
  · rw [hs]
    exact h.saved
  · rw [hc, ha]
    exact h.caught
  · rw [hi, ha]
    exact h.ignored
  · rw [ha]
    exact h.kill
  · rw [ha]
    exact h.stop

theorem Sets.not_ignored (h : Sets p) : ¬ Has p.pSigignore (SIGKILL - 1) := by
  intro hkill
  rw [h.ignored] at hkill
  change Ignored SIGKILL (p.psSigact SIGKILL) at hkill
  rw [h.kill] at hkill
  exact absurd hkill (by unfold Ignored; decide)

theorem Sets.not_masked (h : Sets p) : ¬ Has p.pSigmask (SIGKILL - 1) :=
  fun hkill => h.masked _ hkill (has_sigcantmask.mpr (Or.inl rfl))

/-! ## Sending a signal -/

/-- What `deliver` changes. -/
structure Delivered (p : Proc) (sig : ℕ) (p' : Proc) (stops : Bool) : Prop where
  same : ∃ x st w pri xs, p' =
    { p with pSig := x, pStat := st, pWchan := w, pPri := pri, pXstat := xs }
  sub : ∀ i, Has p'.pSig i → Has p.pSig i
  kept : ∀ i, Has p.pSig i → Has p'.pSig i ∨ i + 1 = sig ∧ sig ≠ SIGKILL
  stat : p'.pStat = p.pStat ∨ p'.pStat = .srun ∨ p.pStat = .sstop ∧ p'.pStat = .ssleep
  kill : sig = SIGKILL → Runnable p'
  stops : stops = true → p.pStat = .ssleep ∧ p.sintr = true ∧ sig ≠ SIGKILL

theorem Delivered.refl (h : sig = SIGKILL → Runnable p) : Delivered p sig p false :=
  ⟨⟨_, _, _, _, _, rfl⟩, fun _ => id, fun _ => Or.inl, Or.inl rfl, h, nofun⟩

theorem Delivered.setrun : Delivered p sig (setrun p) false := by
  refine ⟨⟨_, _, _, _, _, rfl⟩, fun _ => id, fun _ => Or.inl, Or.inr (Or.inl rfl), ?_, nofun⟩
  intro _
  exact ⟨nofun, nofun⟩

theorem Delivered.runfast : Delivered p sig (runfast p) false := by
  refine ⟨⟨_, _, _, _, _, rfl⟩, fun _ => id, fun _ => Or.inl, Or.inr (Or.inl rfl), ?_, nofun⟩
  intro _
  exact ⟨nofun, nofun⟩

/-- A signal is taken out of what is pending. -/
theorem Delivered.clear {st : Stat} {xs : ℕ} {stops : Bool} (hsig : 0 < sig) (hne : sig ≠ SIGKILL)
    (hst : st = p.pStat ∨ st = .srun ∨ p.pStat = .sstop ∧ st = .ssleep)
    (hstops : stops = true → p.pStat = .ssleep ∧ p.sintr = true ∧ sig ≠ SIGKILL) :
    Delivered p sig { p with pSig := p.pSig &&& ~~~sigmask sig, pStat := st, pXstat := xs }
      stops := by
  refine ⟨⟨_, _, _, _, _, rfl⟩, ?_, ?_, hst, fun h => absurd h hne, hstops⟩
  · intro i h
    exact ((has_clear hsig).mp h).1
  · intro i h
    by_cases hi : i + 1 = sig
    · exact Or.inr ⟨hi, hne⟩
    · exact Or.inl ((has_clear hsig).mpr ⟨h, hi⟩)

theorem Delivered.trans {p'' : Proc} {stops : Bool} (h : Delivered p sig p' false)
    (h' : Delivered p' sig p'' stops) (hst : p'.pStat = p.pStat) (hs : p'.sintr = p.sintr) :
    Delivered p sig p'' stops := by
  obtain ⟨x, st, w, pri, xs, rfl⟩ := h.same
  refine ⟨?_, ?_, ?_, ?_, h'.kill, ?_⟩
  · obtain ⟨x', st', w', pri', xs', rfl⟩ := h'.same
    exact ⟨_, _, _, _, _, rfl⟩
  · exact fun i hi => h.sub i (h'.sub i hi)
  · intro i hi
    obtain hi | hi := h.kept i hi
    · exact h'.kept i hi
    · exact Or.inr hi
  · rw [← hst]
    exact h'.stat
  · rw [← hst, ← hs]
    exact h'.stops

theorem deliver_ssleep (h : p.pStat = .ssleep) (act : Action) :
    deliver p sig act =
      if !p.sintr then (p, false)
      else if sigprop sig &&& SA_STOP ≠ 0 then
        if act ≠ .dfl then (runfast p, false)
        else if p.ppwait then (p, false)
        else ({ p with pSig := p.pSig &&& ~~~sigmask sig, pXstat := sig }, true)
      else (runfast p, false) := by
  unfold deliver
  rw [h]

theorem deliver_sstop (h : p.pStat = .sstop) (act : Action) :
    deliver p sig act =
      if sig = SIGKILL then (runfast p, false)
      else if sigprop sig &&& SA_CONT ≠ 0 then
        (continued (if act = .dfl then { p with pSig := p.pSig &&& ~~~sigmask sig } else p) act,
          false)
      else if sigprop sig &&& SA_STOP ≠ 0 then
        ({ p with pSig := p.pSig &&& ~~~sigmask sig }, false)
      else if p.pWchan ∧ p.sintr then ({ p with pWchan := false }, false)
      else (p, false) := by
  unfold deliver
  rw [h]

theorem continued_spec (act : Action) (hst : p.pStat = .sstop) (hne : sig ≠ SIGKILL) :
    Delivered p sig (continued p act) false := by
  rw [continued]
  split_ifs
  · exact .runfast
  · exact .setrun
  · exact ⟨⟨_, _, _, _, _, rfl⟩, fun _ => id, fun _ => Or.inl, Or.inr (Or.inr ⟨hst, rfl⟩),
      fun h => absurd h hne, nofun⟩

theorem deliver_spec (hsig : 0 < sig) (act : Action) :
    Delivered p sig (deliver p sig act).1 (deliver p sig act).2 := by
  by_cases hsleep : p.pStat = .ssleep
  · rw [deliver_ssleep hsleep]
    by_cases hs : p.sintr = true
    · rw [if_neg (by simp [hs])]
      by_cases hstop : sigprop sig &&& SA_STOP ≠ 0
      · have hne := stop_ne_kill hstop
        rw [if_pos hstop]
        split_ifs
        · exact .runfast
        · exact .refl fun h => absurd h hne
        · exact .clear hsig hne (Or.inl rfl) fun _ => ⟨hsleep, hs, hne⟩
      · rw [if_neg hstop]
        exact .runfast
    · rw [if_pos (by simpa using hs)]
      refine .refl fun _ => ⟨?_, fun _ => eq_false_of_ne_true hs⟩
      rw [hsleep]
      nofun
  by_cases hstopped : p.pStat = .sstop
  · rw [deliver_sstop hstopped]
    by_cases hkill : sig = SIGKILL
    · rw [if_pos hkill]
      exact .runfast
    rw [if_neg hkill]
    have hclear : Delivered p sig { p with pSig := p.pSig &&& ~~~sigmask sig } false :=
      .clear hsig hkill (Or.inl rfl) nofun
    split_ifs
    · exact hclear.trans (continued_spec act hstopped hkill) rfl rfl
    · exact continued_spec act hstopped hkill
    · exact hclear
    · exact ⟨⟨_, _, _, _, _, rfl⟩, fun _ => id, fun _ => Or.inl, Or.inl rfl,
        fun h => absurd h hkill, nofun⟩
    · exact .refl fun h => absurd h hkill
  · have hother : deliver p sig act = (p, false) := by
      unfold deliver
      cases hst : p.pStat with
      | sidl => rfl
      | srun => rfl
      | szomb => rfl
      | ssleep => exact absurd hst hsleep
      | sstop => exact absurd hst hstopped
    rw [hother]
    exact .refl fun _ => ⟨hstopped, fun h => absurd h hsleep⟩

theorem has_pend (hsig : 0 < sig) (hlt : sig < NSIG) : Has (pend p sig).pSig i ↔
    i + 1 = sig ∨ Has p.pSig i ∧ (sig = SIGCONT → ¬ Has stopsigmask i) ∧
      (sigprop sig &&& SA_STOP ≠ 0 → i + 1 ≠ SIGCONT) := by
  have hbit : Has (sigmask sig) i ↔ i + 1 = sig := by
    rw [has_sigmask hsig]
    rw [NSIG] at hlt
    omega
  rw [pend]
  dsimp only
  rw [has_or, has_ite_diff, has_ite_diff, hbit, has_contsigmask, cont_iff, and_assoc, or_comm]

theorem pend_cont (h : Pends p) (hsig : 0 < sig) (hlt : sig < NSIG)
    (hcont : Has (pend p sig).pSig (SIGCONT - 1)) (hi : Has stopsigmask i) :
    ¬ Has (pend p sig).pSig i := by
  intro hpend
  rw [has_pend hsig hlt] at hcont hpend
  rw [has_stopsigmask] at hi
  have hne : i + 1 ≠ SIGCONT := by
    simp only [SIGSTOP, SIGTSTP, SIGTTIN, SIGTTOU, SIGCONT] at hi ⊢
    omega
  obtain hcont | ⟨hcont, -, hother⟩ := hcont
  · -- `SIGCONT` itself takes the stop signals away
    obtain hpend | ⟨-, hpend, -⟩ := hpend
    · exact hne (hpend.trans hcont.symm)
    · exact hpend hcont.symm (has_stopsigmask.mpr hi)
  · obtain hpend | ⟨hpend, -, -⟩ := hpend
    · refine hother (stop_iff.mpr ?_) rfl
      rw [← hpend]
      exact hi
    · exact h.cont hcont i (has_stopsigmask.mpr hi) hpend

theorem Delivered.runnable {stops : Bool} (h : Delivered p sig p' stops) (hr : Runnable p) :
    Runnable p' := by
  obtain ⟨x, st, w, pri, xs, rfl⟩ := h.same
  obtain heq | heq | ⟨hst, -⟩ := h.stat
  · change st = p.pStat at heq
    rw [heq]
    exact hr
  · change st = .srun at heq
    rw [heq]
    exact ⟨nofun, nofun⟩
  · exact absurd hst hr.1

/-- What a signal does to a process. -/
structure Posted (p : Proc) (sig : ℕ) (p' : Proc) (stops : Bool) : Prop where
  holds : Holds p'
  pc : p'.pc = p.pc
  pid : p'.pPid = p.pPid
  sub : Killed p' → Killed p ∨ sig = SIGKILL
  kept : Killed p → Killed p'
  kill : sig = SIGKILL → Killed p'
  stops : stops = true → sig ≠ SIGKILL ∧ (1 < p.pPid → ¬ Killed p')

theorem Posted.refl (h : Holds p) (hne : sig ≠ SIGKILL) : Posted p sig p false :=
  ⟨h, rfl, rfl, Or.inl, id, fun heq => absurd heq hne, nofun⟩

theorem killed_pend (hsig : 0 < sig) (hlt : sig < NSIG) :
    Killed (pend p sig) ↔ Killed p ∨ sig = SIGKILL := by
  rw [Killed, has_pend hsig hlt, has_stopsigmask]
  simp only [Killed, SIGKILL, SIGSTOP, SIGTSTP, SIGTTIN, SIGTTOU, SIGCONT]
  constructor
  · rintro (h | ⟨h, -⟩)
    · exact Or.inr h.symm
    · exact Or.inl h
  · rintro (h | h)
    · refine Or.inr ⟨h, fun _ => by omega, fun _ => by omega⟩
    · exact Or.inl h.symm

theorem pend_posted (h : Holds p) (hsig : 0 < sig) (hlt : sig < NSIG) (hne : sig ≠ SIGKILL) :
    Posted p sig (pend p sig) false := by
  have hkilled : Killed (pend p sig) → Killed p := fun hk =>
    ((killed_pend hsig hlt).mp hk).resolve_right hne
  refine ⟨⟨h.sets.congr rfl rfl rfl rfl rfl, ?_, h.pends.sintr, ?_, h.pends.stopped⟩, rfl, rfl, ?_,
    ?_, ?_, nofun⟩
  · exact fun hc i hi => pend_cont h.pends hsig hlt hc hi
  · exact fun hpid hk => h.pends.kill hpid (hkilled hk)
  · exact fun hk => Or.inl (hkilled hk)
  · exact fun hk => (killed_pend hsig hlt).mpr (Or.inl hk)
  · exact fun heq => absurd heq hne

theorem deliver_posted (h : Holds p) (hsig : 0 < sig) (hlt : sig < NSIG) {stops : Bool}
    (hd : Delivered (pend p sig) sig p' stops) : Posted p sig p' stops := by
  have hkept : Killed (pend p sig) → Killed p' := fun hk =>
    (hd.kept _ hk).resolve_right fun heq => heq.2 heq.1.symm
  have hsub : Killed p' → Killed p ∨ sig = SIGKILL := fun hk =>
    (killed_pend hsig hlt).mp (hd.sub _ hk)
  have hkilled : Killed p ∨ sig = SIGKILL → Killed p' := fun hk =>
    hkept ((killed_pend hsig hlt).mpr hk)
  have hrun (hpid : 1 < p.pPid) (hk : Killed p) : Runnable (pend p sig) := h.pends.kill hpid hk
  have hends : Runnable (pend p sig) → Runnable p' := hd.runnable
  have hkill := hd.kill
  have hcont : Has p'.pSig (SIGCONT - 1) → ∀ i, Has stopsigmask i → ¬ Has p'.pSig i :=
    fun hc i hi hp => pend_cont h.pends hsig hlt (hd.sub _ hc) hi (hd.sub i hp)
  obtain ⟨x, st, w, pri, xs, rfl⟩ := hd.same
  refine ⟨⟨h.sets.congr rfl rfl rfl rfl rfl, hcont, h.pends.sintr, ?_, h.pends.stopped⟩, rfl, rfl,
    hsub, fun hk => hkilled (Or.inl hk), fun hk => hkilled (Or.inr hk), ?_⟩
  · intro hpid hk
    obtain hk | heq := hsub hk
    · exact hends (hrun hpid hk)
    · exact hkill heq
  · -- it only stops where it sleeps interruptibly
    intro hs
    obtain ⟨hst, hintr, hne⟩ := hd.stops hs
    refine ⟨hne, fun hpid hk => ?_⟩
    have hr := hrun hpid ((hsub hk).resolve_right hne)
    rw [hr.2 hst] at hintr
    exact Bool.false_ne_true hintr

theorem post_spec (h : Holds p) (hsig : 0 < sig) (hlt : sig < NSIG) :
    Posted p sig (post p sig).1 (post p sig).2 := by
  rw [post]
  split_ifs with hign hstop hhold
  · refine .refl h ?_
    rintro rfl
    exact h.sets.not_ignored (and_bit_ne_zero.mp hign)
  · exact .refl h (stop_ne_kill hstop.1)
  · refine pend_posted h hsig hlt ?_
    rintro rfl
    have hmask : p.pSigmask &&& sigmask SIGKILL = 0 := by
      by_contra hne
      exact h.sets.not_masked (and_bit_ne_zero.mp hne)
    have haction : action p SIGKILL ≠ .hold := by
      rw [action, if_neg (not_not_intro hmask)]
      split_ifs <;> nofun
    exact haction hhold.1
  · exact deliver_posted h hsig hlt (deliver_spec hsig _)

/-! ## Looking for a signal -/

theorem has_seen : Has (seen p) i ↔
    (Has p.pSig i ∧ ¬ Has p.pSigmask i) ∧ (p.ppwait = true → ¬ Has stopsigmask i) := by
  rw [seen, has_ite_diff, has_diff]

/-- The process without a signal. -/
def drop (p : Proc) (sig : ℕ) : Proc := { p with pSig := p.pSig &&& ~~~sigmask sig }

theorem issigTurn_zero (h : seen p = 0) : issigTurn p = .returns 0 := by
  rw [issigTurn, if_pos h]

/-- A turn of the loop is about the first signal that is seen. -/
theorem issigTurn_cases (h : seen p ≠ 0) :
    issigTurn p = .returns (ffs (seen p)) ∨
      issigTurn p = .stops (ffs (seen p)) ∧ sigprop (ffs (seen p)) &&& SA_STOP ≠ 0 ∨
      issigTurn p = .goes (drop p (ffs (seen p))) := by
  rw [issigTurn, if_neg h]
  dsimp only [drop]
  split_ifs with _ _ _ hstop
  · exact Or.inr (Or.inr rfl)
  · exact Or.inr (Or.inr rfl)
  · exact Or.inr (Or.inr rfl)
  · exact Or.inr (Or.inl ⟨rfl, hstop⟩)
  · exact Or.inr (Or.inr rfl)
  · exact Or.inl rfl
  · exact Or.inr (Or.inr rfl)
  · exact Or.inl rfl

/-- `SIGKILL` is seen, and with it nothing behind it. -/
theorem seen_kill (h : Sets p) (hk : Killed p) : seen p ≠ 0 ∧ ffs (seen p) ≤ SIGKILL := by
  have hseen : Has (seen p) (SIGKILL - 1) := by
    refine has_seen.mpr ⟨⟨hk, h.not_masked⟩, fun _ hstop => ?_⟩
    rw [has_stopsigmask] at hstop
    exact absurd hstop (by decide)
  exact ⟨ne_zero_iff.mpr ⟨_, hseen⟩, ffs_le hseen⟩

theorem issigTurn_kill (h : Sets p) (hpid : 1 < p.pPid) (hk : ffs (seen p) = SIGKILL) :
    issigTurn p = .returns SIGKILL := by
  have hne : seen p ≠ 0 := by
    intro hzero
    rw [hzero] at hk
    exact absurd hk (by decide)
  have hign : sigmask SIGKILL &&& p.pSigignore = 0 := by
    rw [BitVec.and_comm]
    by_contra hbit
    exact h.not_ignored (and_bit_ne_zero.mp hbit)
  rw [issigTurn, if_neg hne, hk]
  dsimp only
  rw [if_neg (not_not_intro hign), if_pos h.kill, if_neg (by omega), if_neg (by decide),
    if_neg (by decide)]

theorem drop_sub (hsig : 0 < sig) (h : Has (drop p sig).pSig i) : Has p.pSig i :=
  ((has_clear hsig).mp h).1

/-- The loop of `issig` only takes signals away; where `SIGKILL` is pending it returns a signal, and
leaves it there. -/
theorem issigLoop_spec {fuel : ℕ} {t : Turn} (h : Sets p)
    (hloop : issigLoop fuel p = some (p', t)) :
    (∃ x, p' = { p with pSig := x }) ∧ (∀ i, Has p'.pSig i → Has p.pSig i) ∧
      (1 < p.pPid → Killed p → Killed p' ∧ ∃ sig, 0 < sig ∧ t = .returns sig) ∧
      ∀ sig, t = .stops sig → sig ≠ SIGKILL := by
  induction fuel generalizing p with
  | zero => exact nomatch hloop
  | succ fuel ih =>
    rw [issigLoop] at hloop
    by_cases hzero : seen p = 0
    · rw [issigTurn_zero hzero] at hloop
      cases hloop
      exact ⟨⟨_, rfl⟩, fun _ => id, fun _ hk => absurd hzero (seen_kill h hk).1, nofun⟩
    have hpos : 0 < ffs (seen p) := (ffs_has hzero).1
    obtain hturn | ⟨hturn, hstop⟩ | hturn := issigTurn_cases hzero
    · rw [hturn] at hloop
      cases hloop
      exact ⟨⟨_, rfl⟩, fun _ => id, fun _ hk => ⟨hk, _, hpos, rfl⟩, nofun⟩
    · rw [hturn] at hloop
      cases hloop
      refine ⟨⟨_, rfl⟩, fun _ => id, fun _ hk => ?_, ?_⟩
      · -- the stop signals come behind `SIGKILL`
        have hle := (seen_kill h hk).2
        rw [stop_iff] at hstop
        simp only [SIGKILL, SIGSTOP, SIGTSTP, SIGTTIN, SIGTTOU] at hle hstop
        omega
      · rintro _ ⟨⟩
        exact stop_ne_kill hstop
    · rw [hturn] at hloop
      have hsets : Sets (drop p (ffs (seen p))) := h.congr rfl rfl rfl rfl rfl
      obtain ⟨⟨x, rfl⟩, hsub, hkill, hstop⟩ := ih hsets hloop
      refine ⟨⟨x, rfl⟩, fun i hi => drop_sub hpos (hsub i hi), fun hpid hk => ?_, hstop⟩
      apply hkill hpid
      refine (has_clear hpos).mpr ⟨hk, ?_⟩
      intro heq
      have hkill := issigTurn_kill h hpid heq.symm
      rw [hturn] at hkill
      exact nomatch hkill

/-- The loop comes to an end. -/
theorem issigLoop_ends {fuel k : ℕ} (hfrom : From k (seen p)) (hk : k ≤ 32)
    (hfuel : 32 < fuel + k) : ∃ r, issigLoop fuel p = some r := by
  induction fuel generalizing p k with
  | zero => omega
  | succ fuel ih =>
    rw [issigLoop]
    by_cases hzero : seen p = 0
    · rw [issigTurn_zero hzero]
      exact ⟨_, rfl⟩
    obtain ⟨hpos, hhas⟩ := ffs_has hzero
    obtain hturn | ⟨hturn, -⟩ | hturn := issigTurn_cases hzero
    · rw [hturn]
      exact ⟨_, rfl⟩
    · rw [hturn]
      exact ⟨_, rfl⟩
    · rw [hturn]
      have hlt := has_lt hhas
      refine ih (k := ffs (seen p)) (from_diff ?_) (by omega) ?_
      · intro i hi
        rw [has_seen] at hi ⊢
        have hclear := (has_clear hpos).mp hi.1.1
        exact ⟨⟨⟨hclear.1, hi.1.2⟩, hi.2⟩, by omega⟩
      · have hle := hfrom _ hhas
        omega

/-! ## The processes together -/

/-- A process is still there, and so is `SIGKILL`. -/
structure Keeps (p p' : Proc) : Prop where
  pc : p.pc ≠ .none → p'.pc ≠ .none
  pid : p'.pPid = p.pPid
  killed : 1 < p.pPid → Killed p → Killed p'

theorem Keeps.refl (p : Proc) : Keeps p p := ⟨id, rfl, fun _ => id⟩

theorem Keeps.trans {p'' : Proc} (h : Keeps p p') (h' : Keeps p' p'') : Keeps p p'' :=
  ⟨fun hp => h'.pc (h.pc hp), h'.pid.trans h.pid,
    fun hpid hk => h'.killed (h.pid.symm ▸ hpid) (h.killed hpid hk)⟩

theorem Posted.keeps {stops : Bool} (h : Posted p sig p' stops) : Keeps p p' :=
  ⟨fun hp => h.pc.symm ▸ hp, h.pid, fun _ => h.kept⟩

/-- One process changes. -/
theorem update_holds (h : ∀ j, Holds (s j)) (hp : Holds p) (j : ℕ) :
    Holds (Function.update s i p j) := by
  by_cases hj : j = i
  · rw [hj, Function.update_self]
    exact hp
  · rw [Function.update_of_ne hj]
    exact h j

theorem update_keeps (hp : Keeps (s i) p) (j : ℕ) : Keeps (s j) (Function.update s i p j) := by
  by_cases hj : j = i
  · rw [hj, Function.update_self]
    exact hp
  · rw [Function.update_of_ne hj]
    exact .refl _

theorem tellParent_spec (h : ∀ j, Holds (s j)) (i : ℕ) : (∀ j, Holds (tellParent s i j)) ∧
    (∀ j, Keeps (s j) (tellParent s i j)) ∧ ∀ j, Killed (tellParent s i j) → Killed (s j) := by
  rw [tellParent]
  split_ifs
  · exact ⟨h, fun j => .refl _, fun j => id⟩
  · have hpost : Posted (s (s i).pPptr) SIGCHLD _ _ := post_spec (h _) (by decide) (by decide)
    refine ⟨update_holds h hpost.holds, update_keeps hpost.keeps, ?_⟩
    intro j hk
    by_cases hj : j = (s i).pPptr
    · rw [hj, Function.update_self] at hk
      rw [hj]
      exact (hpost.sub hk).resolve_right (by decide)
    · rwa [Function.update_of_ne hj] at hk

theorem stop_holds (h : Holds p) (hk : 1 < p.pPid → ¬ Killed p) : Holds (stop p) :=
  ⟨h.sets.congr rfl rfl rfl rfl rfl, h.pends.cont, h.pends.sintr,
    fun hpid hkilled => absurd hkilled (hk hpid), h.pends.stopped⟩

theorem psignal_spec (h : ∀ j, Holds (s j)) (hsig : 0 < sig) (hlt : sig < NSIG) (i : ℕ) :
    (∀ j, Holds (psignal s i sig j)) ∧ (∀ j, Keeps (s j) (psignal s i sig j)) ∧
      (sig = SIGKILL → Killed (psignal s i sig i)) := by
  have hpost := post_spec (h i) hsig hlt
  have hholds := update_holds (i := i) h hpost.holds
  have hkeeps : ∀ j, Keeps (s j) (Function.update s i (post (s i) sig).1 j) :=
    update_keeps hpost.keeps
  rw [psignal]
  split_ifs with hstops
  · -- the process stops, so the signal is a stop signal and `SIGKILL` is not pending
    obtain ⟨htold, htkeeps, hsub⟩ := tellParent_spec hholds i
    have hpid : (tellParent (Function.update s i (post (s i) sig).1) i i).pPid = (s i).pPid :=
      ((hkeeps i).trans (htkeeps i)).pid
    have hnot : 1 < (s i).pPid →
        ¬ Killed (tellParent (Function.update s i (post (s i) sig).1) i i) := by
      intro hpid hk
      have hk' := hsub i hk
      rw [Function.update_self] at hk'
      exact (hpost.stops hstops).2 hpid hk'
    refine ⟨update_holds htold (stop_holds (htold i) (hpid.symm ▸ hnot)), ?_, ?_⟩
    · intro j
      have hstop : Keeps (tellParent (Function.update s i (post (s i) sig).1) i i)
          (stop (tellParent (Function.update s i (post (s i) sig).1) i i)) :=
        ⟨id, rfl, fun _ => id⟩
      exact ((hkeeps j).trans (htkeeps j)).trans (update_keeps hstop j)
    · exact fun hkill => absurd hkill (hpost.stops hstops).1
  · refine ⟨hholds, hkeeps, fun hkill => ?_⟩
    rw [Function.update_self]
    exact hpost.kill hkill

/-! ## `issig` -/

/-- A process that calls `issig`. -/
structure Calls (p : Proc) (caller : Caller) : Prop where
  sets : Sets p
  cont : Has p.pSig (SIGCONT - 1) → ∀ i, Has stopsigmask i → ¬ Has p.pSig i
  stat : p.pStat = .srun
  sintr : p.sintr = true → caller = .tsleep

theorem Holds.resumed (h : Sets p) (hcont : Has p.pSig (SIGCONT - 1) → ∀ i, Has stopsigmask i →
    ¬ Has p.pSig i) (hst : p.pStat ≠ .sstop) : Holds (resumed p) :=
  ⟨h.congr rfl rfl rfl rfl rfl, hcont, nofun, fun _ _ => ⟨hst, fun _ => rfl⟩, nofun⟩

theorem behind_holds {caller : Caller} (h : Calls p caller)
    (hk : sig = 0 → 1 < p.pPid → ¬ Killed p) : Holds (behind p sig caller) := by
  have hne : p.pStat ≠ .sstop := by
    rw [h.stat]
    nofun
  have hrun : Runnable p := ⟨hne, fun hs => by rw [h.stat] at hs; exact nomatch hs⟩
  cases caller with
  | trap =>
    have hsintr : p.sintr = false := eq_false_of_ne_true fun hs => nomatch h.sintr hs
    refine ⟨h.sets.congr rfl rfl rfl rfl rfl, h.cont, ?_, fun _ _ => hrun, ?_⟩
    · exact fun hs => absurd hs (ne_true_of_eq_false hsintr)
    · intro n caller hpc
      rw [behind] at hpc
      dsimp only at hpc
      split_ifs at hpc
  | tsleep =>
    rw [behind]
    split_ifs with hsig hwchan
    · exact .resumed (h.sets.congr rfl rfl rfl rfl rfl) h.cont nofun
    · exact .resumed h.sets h.cont hne
    · refine ⟨h.sets.congr rfl rfl rfl rfl rfl, h.cont, fun _ => rfl, fun hpid hkilled => ?_, nofun⟩
      exact absurd hkilled (hk (not_not.mp hsig) hpid)
  | resume => exact .resumed h.sets h.cont hne

theorem behind_same (p : Proc) (sig : ℕ) (caller : Caller) :
    (behind p sig caller).pPid = p.pPid ∧ (behind p sig caller).pSig = p.pSig ∧
      (behind p sig caller).pc ≠ .none := by
  cases caller with
  | trap =>
    refine ⟨rfl, rfl, ?_⟩
    rw [behind]
    dsimp only
    split_ifs <;> nofun
  | tsleep =>
    rw [behind]
    split_ifs <;> exact ⟨rfl, rfl, nofun⟩
  | resume => exact ⟨rfl, rfl, nofun⟩

/-- `issig` by the process `i`, which has become `p`. -/
theorem issig_spec {caller : Caller} (h : ∀ j, Holds (s j)) (hp : Calls p caller)
    (hpid : p.pPid = (s i).pPid) (hkilled : Killed (s i) → Killed p)
    (hs : issig s i p caller = some s') :
    (∀ j, Holds (s' j)) ∧ ∀ j, Keeps (s j) (s' j) := by
  rw [issig] at hs
  cases hloop : issigLoop 33 p with
  | none =>
    rw [hloop] at hs
    exact nomatch hs
  | some r =>
    obtain ⟨q, t⟩ := r
    obtain ⟨⟨x, rfl⟩, hsub, hkill, hstops⟩ := issigLoop_spec hp.sets hloop
    have hcalls : Calls { p with pSig := x } caller :=
      ⟨hp.sets.congr rfl rfl rfl rfl rfl,
        fun hc k hk hx => hp.cont (hsub _ hc) k hk (hsub _ hx), hp.stat, hp.sintr⟩
    have hkeep : 1 < (s i).pPid → Killed (s i) → Killed { p with pSig := x } :=
      fun h1 hk => (hkill (hpid.symm ▸ h1) (hkilled hk)).1
    rw [hloop] at hs
    cases t with
    | goes q => exact nomatch hs
    | returns sig =>
      cases hs
      obtain ⟨hpid', hsig', hpc⟩ := behind_same { p with pSig := x } sig caller
      have hnot : sig = 0 → 1 < p.pPid → ¬ Killed { p with pSig := x } := by
        intro hzero h1 hk
        obtain ⟨-, n, hn, heq⟩ := hkill h1 (hsub _ hk)
        cases heq
        omega
      refine ⟨update_holds h (behind_holds hcalls hnot), update_keeps ⟨fun _ => hpc, ?_, ?_⟩⟩
      · exact hpid'.trans hpid
      · intro h1 hk
        rw [Killed, hsig']
        exact hkeep h1 hk
    | stops sig =>
      cases hs
      have hnot : 1 < p.pPid → ¬ Killed { p with pSig := x } := by
        intro h1 hk
        obtain ⟨-, n, -, heq⟩ := hkill h1 (hsub _ hk)
        exact nomatch heq
      have hstop : Holds (stop { p with pSig := x, pXstat := sig, pc := .stopped sig caller }) := by
        refine ⟨hp.sets.congr rfl rfl rfl rfl rfl, hcalls.cont, ?_, ?_, ?_⟩
        · intro hs
          cases hp.sintr hs
          rfl
        · exact fun h1 hk => absurd hk (hnot h1)
        · rintro _ _ ⟨⟩
          exact hstops sig rfl
      have hkeeps : Keeps (s i)
          (stop { p with pSig := x, pXstat := sig, pc := .stopped sig caller }) :=
        ⟨fun _ => nofun, hpid, hkeep⟩
      obtain ⟨htold, htkeeps, -⟩ := tellParent_spec (update_holds h hstop) i
      exact ⟨htold, fun j => (update_keeps hkeeps j).trans (htkeeps j)⟩

theorem issigLoop_done {fuel : ℕ} {q : Proc} : issigLoop fuel p ≠ some (p', .goes q) := by
  induction fuel generalizing p with
  | zero => nofun
  | succ fuel ih =>
    rw [issigLoop]
    cases hturn : issigTurn p with
    | returns sig => nofun
    | stops sig => nofun
    | goes r => exact ih

/-- `issig` comes back, or to a stop. -/
theorem issig_ends (s : Procs) (i : ℕ) (p : Proc) (caller : Caller) :
    ∃ s', issig s i p caller = some s' := by
  obtain ⟨⟨q, t⟩, hloop⟩ : ∃ r, issigLoop 33 p = some r :=
    issigLoop_ends (from_zero (seen p)) (by omega) (by omega)
  rw [issig, hloop]
  cases t with
  | returns sig => exact ⟨_, rfl⟩
  | stops sig => exact ⟨_, rfl⟩
  | goes r => exact absurd hloop issigLoop_done

/-- Where `SIGKILL` is pending, `issig` finds a signal. -/
theorem issig_kill (h : Holds (s i)) (hpid : 1 < (s i).pPid) (hk : Killed (s i)) :
    ∃ s' sig, issig s i (s i) .trap = some s' ∧ 0 < sig ∧ (s' i).pc = .taking sig := by
  obtain ⟨⟨q, t⟩, hloop⟩ : ∃ r, issigLoop 33 (s i) = some r :=
    issigLoop_ends (from_zero (seen (s i))) (by omega) (by omega)
  obtain ⟨-, -, hkill, -⟩ := issigLoop_spec h.sets hloop
  obtain ⟨-, sig, hsig, rfl⟩ := hkill hpid hk
  refine ⟨_, sig, by rw [issig, hloop], hsig, ?_⟩
  rw [Function.update_self, behind, if_neg hsig.ne']

/-! ## The calls on oneself -/

theorem has_add (hsig : 0 < sig) (hlt : sig ≤ 32) {x : Sigset} :
    Has (x ||| sigmask sig) i ↔ Has x i ∨ i + 1 = sig := by
  rw [has_or, has_sigmask hsig]
  refine or_congr_right ?_
  omega

/-- A call that leaves the pending signals and the state alone, or takes signals away. -/
theorem Holds.self (h : Holds p) (hsets : Sets p') (hsig : ∀ i, Has p'.pSig i → Has p.pSig i)
    (hst : p'.pStat = p.pStat) (hs : p'.sintr = p.sintr) (hpc : p'.pc = p.pc)
    (hpid : p'.pPid = p.pPid) : Holds p' := by
  refine ⟨hsets, fun hc i hi hx => h.pends.cont (hsig _ hc) i hi (hsig _ hx), ?_, ?_, ?_⟩
  · rw [hs, hpc]
    exact h.pends.sintr
  · rw [Runnable, hpid, hst, hs]
    exact fun h1 hk => h.pends.kill h1 (hsig _ hk)
  · rw [hpc]
    exact h.pends.stopped

/-- A mask without the signals that cannot be blocked. -/
theorem cant_diff {x : Sigset} (h : Has (x &&& ~~~sigcantmask) i) : ¬ Has sigcantmask i :=
  (has_diff.mp h).2

theorem cant_or {x y : Sigset} (hx : ∀ i, Has x i → ¬ Has sigcantmask i)
    (h : Has (x ||| (y &&& ~~~sigcantmask)) i) : ¬ Has sigcantmask i := by
  obtain h | h := has_or.mp h
  · exact hx i h
  · exact cant_diff h

theorem Sets.mask (h : Sets p) {x : Sigset} (hx : ∀ i, Has x i → ¬ Has sigcantmask i) :
    Sets { p with pSigmask := x } :=
  ⟨hx, h.saved, h.caught, h.ignored, h.kill, h.stop⟩

/-- One action is set, with what goes with it. -/
theorem Sets.act (h : Sets p) (hkill : sig ≠ SIGKILL) (hstop : sig ≠ SIGSTOP) {x y : Sigset}
    {hd : Handler}
    (hx : ∀ i, Has x i ↔ if i + 1 = sig then hd ≠ SIG_DFL ∧ hd ≠ SIG_IGN else Has p.pSigcatch i)
    (hy : ∀ i, Has y i ↔ if i + 1 = sig then Ignored sig hd else Has p.pSigignore i) :
    Sets { p with
      pSigcatch := x
      pSigignore := y
      psSigact := Function.update p.psSigact sig hd } := by
  refine ⟨h.masked, h.saved, ?_, ?_, ?_, ?_⟩
  · intro i
    dsimp only
    rw [hx]
    by_cases hi : i + 1 = sig
    · rw [if_pos hi, hi, Function.update_self]
    · rw [if_neg hi, Function.update_of_ne hi]
      exact h.caught i
  · intro i
    dsimp only
    rw [hy]
    by_cases hi : i + 1 = sig
    · rw [if_pos hi, hi, Function.update_self]
    · rw [if_neg hi, Function.update_of_ne hi]
      exact h.ignored i
  · dsimp only
    rw [Function.update_of_ne hkill.symm]
    exact h.kill
  · dsimp only
    rw [Function.update_of_ne hstop.symm]
    exact h.stop

theorem Sets.save (h : Sets p) (sig : ℕ) (x : Sigset) :
    Sets { p with
      psCatchmask := Function.update p.psCatchmask sig (x &&& ~~~sigcantmask) } := by
  refine ⟨h.masked, ?_, h.caught, h.ignored, h.kill, h.stop⟩
  intro k i
  dsimp only
  by_cases hk : k = sig
  · rw [hk, Function.update_self]
    exact cant_diff
  · rw [Function.update_of_ne hk]
    exact h.saved k i

/-- A set with a signal. -/
theorem has_on (hsig : 0 < sig) (hle : sig ≤ 32) {x : Sigset} {c : Prop} (hc : c) :
    Has (x ||| sigmask sig) i ↔ if i + 1 = sig then c else Has x i := by
  rw [has_add hsig hle]
  split_ifs with hi
  · exact iff_of_true (Or.inr hi) hc
  · exact or_iff_left hi

/-- A set without it. -/
theorem has_off (hsig : 0 < sig) {x : Sigset} {c : Prop} (hc : ¬ c) :
    Has (x &&& ~~~sigmask sig) i ↔ if i + 1 = sig then c else Has x i := by
  rw [has_clear hsig]
  split_ifs with hi
  · exact iff_of_false (fun h => h.2 hi) hc
  · exact and_iff_left hi

/-- `SIGCONT` is not put into `p_sigignore`. -/
theorem Sets.ignore_on (h : Sets p) (hsig : 0 < sig) (hle : sig ≤ 32) {hd : Handler}
    (hign : sigprop sig &&& SA_IGNORE ≠ 0 ∧ hd = SIG_DFL ∨ hd = SIG_IGN) :
    Has (if sig ≠ SIGCONT then p.pSigignore ||| sigmask sig else p.pSigignore) i ↔
      if i + 1 = sig then Ignored sig hd else Has p.pSigignore i := by
  by_cases hcont : sig ≠ SIGCONT
  · rw [if_pos hcont]
    exact has_on hsig hle ⟨hcont, hign.symm.imp_right And.symm⟩
  · rw [if_neg hcont]
    split_ifs with hi
    · refine iff_of_false (fun hhas => ?_) fun hI => hcont hI.1
      have hI := (h.ignored i).mp hhas
      rw [hi] at hI
      exact hcont hI.1
    · exact Iff.rfl

theorem setsigvec_sets (h : Sets p) (hsig : 0 < sig) (hlt : sig < NSIG) (hkill : sig ≠ SIGKILL)
    (hstop : sig ≠ SIGSTOP) (sa : Sigaction) : Sets (setsigvec p sig sa) := by
  have hle : sig ≤ 32 := le_of_lt hlt
  have hsaved := h.save sig sa.saMask
  rw [setsigvec]
  dsimp only
  by_cases hign : sa.saHandler = SIG_IGN ∨ sigprop sig &&& SA_IGNORE ≠ 0 ∧ sa.saHandler = SIG_DFL
  · rw [if_pos hign]
    have hnot : ¬ (sa.saHandler ≠ SIG_DFL ∧ sa.saHandler ≠ SIG_IGN) := by
      rintro ⟨hdfl, hne⟩
      exact hign.elim hne fun hd => hdfl hd.2
    refine (hsaved.act hkill hstop ?_ ?_).congr rfl rfl rfl rfl rfl
    · exact fun i => has_off hsig hnot
    · exact fun i => h.ignore_on hsig hle hign.symm
  · rw [if_neg hign]
    have hnot : ¬ Ignored sig sa.saHandler := by
      rintro ⟨-, hI⟩
      exact hign (hI.imp_right And.symm)
    refine (hsaved.act hkill hstop ?_ ?_).congr rfl rfl rfl rfl rfl
    · intro i
      by_cases hdfl : sa.saHandler = SIG_DFL
      · rw [if_pos hdfl]
        exact has_off hsig fun hc => hc.1 hdfl
      · rw [if_neg hdfl]
        exact has_on hsig hle ⟨hdfl, fun heq => hign (Or.inl heq)⟩
    · exact fun i => has_off hsig hnot

theorem setsigvec_holds (h : Holds p) (hsig : 0 < sig) (hlt : sig < NSIG) (hkill : sig ≠ SIGKILL)
    (hstop : sig ≠ SIGSTOP) (sa : Sigaction) :
    Holds (setsigvec p sig sa) ∧ Keeps p (setsigvec p sig sa) := by
  have hsets := setsigvec_sets h.sets hsig hlt hkill hstop sa
  have hsame : (setsigvec p sig sa).pStat = p.pStat ∧ (setsigvec p sig sa).sintr = p.sintr ∧
      (setsigvec p sig sa).pc = p.pc ∧ (setsigvec p sig sa).pPid = p.pPid ∧
      ((setsigvec p sig sa).pSig = p.pSig ∨
        (setsigvec p sig sa).pSig = p.pSig &&& ~~~sigmask sig) := by
    rw [setsigvec]
    dsimp only
    by_cases hign : sa.saHandler = SIG_IGN ∨
        sigprop sig &&& SA_IGNORE ≠ 0 ∧ sa.saHandler = SIG_DFL
    · rw [if_pos hign]
      exact ⟨rfl, rfl, rfl, rfl, Or.inr rfl⟩
    · rw [if_neg hign]
      exact ⟨rfl, rfl, rfl, rfl, Or.inl rfl⟩
  obtain ⟨hst, hs, hpc, hpid, hpsig⟩ := hsame
  refine ⟨h.self hsets ?_ hst hs hpc hpid, fun hp => hpc.symm ▸ hp, hpid, fun _ hk => ?_⟩
  · intro i hi
    obtain heq | heq := hpsig
    · rwa [heq] at hi
    · rw [heq] at hi
      exact ((has_clear hsig).mp hi).1
  · obtain heq | heq := hpsig
    · rwa [Killed, heq]
    · rw [Killed, heq]
      exact (has_clear hsig).mpr ⟨hk, hkill.symm⟩

/-- `sigaction` and `osigvec`. -/
theorem setact_holds (h : Holds p) (restart : Bool) (new : Sigaction → Sigaction) (uap : Args) :
    Holds (setact restart new p uap).2.2 ∧ Keeps p (setact restart new p uap).2.2 := by
  rw [setact]
  by_cases hsig : uap.signo ≤ 0 ∨ (NSIG : ℤ) ≤ uap.signo ∨ uap.signo = SIGKILL ∨
      uap.signo = SIGSTOP
  · rw [if_pos hsig]
    exact ⟨h, .refl p⟩
  rw [if_neg hsig]
  dsimp only
  split_ifs
  · exact ⟨h, .refl p⟩
  · cases uap.nsa with
    | none => exact ⟨h, .refl p⟩
    | some r =>
      cases r with
      | error e => exact ⟨h, .refl p⟩
      | ok sa =>
        simp only [not_or, not_le] at hsig
        obtain ⟨hpos, hlt, hkill, hstop⟩ := hsig
        refine setsigvec_holds h ?_ ?_ ?_ ?_ (new sa)
        · omega
        · omega
        · intro heq
          exact hkill (by omega)
        · intro heq
          exact hstop (by omega)

theorem sigprocmask_holds (h : Holds p) (how : ℤ) (mask : Sigset) :
    Holds (sigprocmask p how mask).2.2 ∧ Keeps p (sigprocmask p how mask).2.2 := by
  have hself {x : Sigset} (hx : ∀ i, Has x i → ¬ Has sigcantmask i) :
      Holds { p with pSigmask := x } ∧ Keeps p { p with pSigmask := x } :=
    ⟨h.self (h.sets.mask hx) (fun _ => id) rfl rfl rfl rfl, id, rfl, fun _ => id⟩
  rw [sigprocmask]
  split_ifs
  · exact hself fun i => cant_or h.sets.masked
  · exact hself fun i hi => h.sets.masked i (has_diff.mp hi).1
  · exact hself fun i => cant_diff
  · exact ⟨h, .refl p⟩

/-! ## `execsigs` -/

theorem resetOne_holds (h : Holds p) (hne : p.pSigcatch ≠ 0) :
    Holds (resetOne p) ∧ Keeps p (resetOne p) := by
  obtain ⟨hpos, hhas⟩ := ffs_has hne
  have hle : ffs p.pSigcatch ≤ 32 := by
    have hlt := has_lt hhas
    omega
  have hcaught := (h.sets.caught _).mp hhas
  rw [Nat.sub_add_cancel hpos] at hcaught
  have hkill : ffs p.pSigcatch ≠ SIGKILL := by
    intro heq
    rw [heq, h.sets.kill] at hcaught
    exact hcaught.1 rfl
  have hstop : ffs p.pSigcatch ≠ SIGSTOP := by
    intro heq
    rw [heq, h.sets.stop] at hcaught
    exact hcaught.1 rfl
  have hclear {i : ℕ} (hi : Has (p.pSig &&& ~~~sigmask (ffs p.pSigcatch)) i) : Has p.pSig i :=
    ((has_clear hpos).mp hi).1
  have hx (i : ℕ) : Has (p.pSigcatch &&& ~~~sigmask (ffs p.pSigcatch)) i ↔
      if i + 1 = ffs p.pSigcatch then SIG_DFL ≠ SIG_DFL ∧ SIG_DFL ≠ SIG_IGN else
        Has p.pSigcatch i :=
    has_off hpos fun hc => hc.1 rfl
  rw [resetOne]
  dsimp only
  by_cases hign : sigprop (ffs p.pSigcatch) &&& SA_IGNORE ≠ 0
  · rw [if_pos hign]
    have hsets := h.sets.act hkill hstop hx fun i => h.sets.ignore_on hpos hle (Or.inl ⟨hign, rfl⟩)
    refine ⟨h.self (hsets.congr rfl rfl rfl rfl rfl) (fun i => hclear) rfl rfl rfl rfl, id, rfl,
      fun _ hk => ?_⟩
    exact (has_clear hpos).mpr ⟨hk, hkill.symm⟩
  · rw [if_neg hign]
    have hy (i : ℕ) : Has p.pSigignore i ↔
        if i + 1 = ffs p.pSigcatch then Ignored (ffs p.pSigcatch) SIG_DFL else
          Has p.pSigignore i := by
      split_ifs with hi
      · rw [h.sets.ignored, hi]
        -- it was caught, and is not ignored now either
        refine iff_of_false ?_ ?_
        · rintro ⟨-, heq | ⟨heq, -⟩⟩
          · exact hcaught.2 heq
          · exact hcaught.1 heq
        · rintro ⟨-, heq | ⟨-, heq⟩⟩
          · exact absurd heq (by decide)
          · exact hign heq
      · exact Iff.rfl
    have hsets := h.sets.act hkill hstop hx hy
    exact ⟨h.self (hsets.congr rfl rfl rfl rfl rfl) (fun i => id) rfl rfl rfl rfl, id, rfl,
      fun _ => id⟩

theorem execLoop_holds {fuel : ℕ} (h : Holds p) (hloop : execLoop fuel p = some p') :
    Holds p' ∧ Keeps p p' := by
  induction fuel generalizing p with
  | zero =>
    rw [execLoop] at hloop
    split_ifs at hloop
    cases hloop
    exact ⟨h, .refl _⟩
  | succ fuel ih =>
    rw [execLoop] at hloop
    split_ifs at hloop with hzero
    · cases hloop
      exact ⟨h, .refl _⟩
    · obtain ⟨hone, hkeeps⟩ := resetOne_holds h hzero
      obtain ⟨hholds, hrest⟩ := ih hone hloop
      exact ⟨hholds, hkeeps.trans hrest⟩

/-- Each turn takes the first signal out of `p_sigcatch`. -/
theorem resetOne_catch (p : Proc) :
    (resetOne p).pSigcatch = p.pSigcatch &&& ~~~sigmask (ffs p.pSigcatch) := by
  rw [resetOne]
  dsimp only
  split_ifs <;> rfl

theorem execLoop_ends {fuel k : ℕ} (hfrom : From k p.pSigcatch) (hfuel : 32 ≤ fuel + k) :
    ∃ p', execLoop fuel p = some p' := by
  induction fuel generalizing p k with
  | zero =>
    rw [Nat.zero_add] at hfuel
    have hzero := eq_zero_of_from fun i hi => hfuel.trans (hfrom i hi)
    exact ⟨_, if_pos hzero⟩
  | succ fuel ih =>
    rw [execLoop]
    split_ifs with hzero
    · exact ⟨_, rfl⟩
    · obtain ⟨hpos, hhas⟩ := ffs_has hzero
      have hle := hfrom _ hhas
      apply ih (k := ffs p.pSigcatch) ?_ (by omega)
      rw [resetOne_catch]
      refine from_diff fun i hi => ?_
      obtain ⟨hi, hne⟩ := (has_clear hpos).mp hi
      exact ⟨hi, by omega⟩

theorem execsigs_holds (h : Holds p) (hexec : execsigs p = some p') : Holds p' ∧ Keeps p p' := by
  rw [execsigs, Option.map_eq_some_iff] at hexec
  obtain ⟨q, hloop, rfl⟩ := hexec
  obtain ⟨hq, hkeeps⟩ := execLoop_holds h hloop
  exact ⟨hq.self (hq.sets.congr rfl rfl rfl rfl rfl) (fun _ => id) rfl rfl rfl rfl,
    hkeeps.trans ⟨id, rfl, fun _ => id⟩⟩

/-- `execsigs` comes back. -/
theorem execsigs_ends (p : Proc) : ∃ p', execsigs p = some p' := by
  obtain ⟨q, hq⟩ : ∃ q, execLoop 32 p = some q :=
    execLoop_ends (from_zero p.pSigcatch) (by omega)
  exact ⟨_, by rw [execsigs, hq]; rfl⟩

/-! ## `psig` -/

theorem psig_holds (h : Holds p) (hpc : p.pc = .taking sig) :
    Holds (psig p sig) ∧ (sig ≠ SIGKILL → Keeps p (psig p sig)) := by
  have hsintr : p.sintr = false := by
    by_contra hs
    have hbreaks := h.pends.sintr (eq_true_of_ne_false hs)
    rw [hpc] at hbreaks
    exact nomatch hbreaks
  have hsub {i : ℕ} (hi : Has (p.pSig &&& ~~~sigmask sig) i) : Has p.pSig i := (has_diff.mp hi).1
  have hkept (hne : sig ≠ SIGKILL) (hk : Killed p) :
      Has (p.pSig &&& ~~~sigmask sig) (SIGKILL - 1) := by
    refine has_diff_bit.mpr ⟨hk, ?_⟩
    rw [SIGKILL] at hne ⊢
    omega
  have hpends {x : Sigset} {pc : Pc} (hpc : ∀ sig caller, pc ≠ .stopped sig caller) : Pends
      { p with pSig := p.pSig &&& ~~~sigmask sig, pSigmask := x, pc } := by
    refine ⟨fun hc i hi hx => h.pends.cont (hsub hc) i hi (hsub hx), ?_, ?_,
      fun n caller heq => absurd heq (hpc n caller)⟩
    · exact fun hs => absurd hs (ne_true_of_eq_false hsintr)
    · exact fun hpid hk => h.pends.kill hpid (hsub hk)
  rw [psig]
  dsimp only
  split_ifs with hdfl
  · exact ⟨⟨h.sets.congr rfl rfl rfl rfl rfl, hpends nofun⟩,
      fun hne => ⟨fun _ => nofun, rfl, fun _ => hkept hne⟩⟩
  · refine ⟨⟨?_, hpends nofun⟩, fun hne => ⟨fun _ => nofun, rfl, fun _ => hkept hne⟩⟩
    refine (h.sets.mask (x := p.pSigmask ||| (p.psCatchmask sig ||| sigmask sig)) ?_).congr
      rfl rfl rfl rfl rfl
    intro i hi
    rw [has_or, has_or] at hi
    obtain hi | hi | hi := hi
    · exact h.sets.masked i hi
    · exact h.sets.saved sig i hi
    · -- the signal is caught, so it is none that cannot be
      intro hcant
      rw [has_sigcantmask] at hcant
      rw [sigmask, has_bit] at hi
      obtain hcant | hcant := hcant
      · have heq : sig = SIGKILL := by
          rw [SIGKILL] at hcant ⊢
          omega
        exact hdfl (heq ▸ h.sets.kill)
      · have heq : sig = SIGSTOP := by
          rw [SIGSTOP] at hcant ⊢
          omega
        exact hdfl (heq ▸ h.sets.stop)

/-! ## A step -/

theorem onSelf_eq (h : onSelf s i p = some s') : s' = Function.update s i p := by
  rw [onSelf] at h
  split_ifs at h
  exact (Option.some.inj h).symm

theorem onSelf_holds (h : ∀ j, Holds (s j)) (hp : Holds p ∧ Keeps (s i) p)
    (hs : onSelf s i p = some s') : (∀ j, Holds (s' j)) ∧ ∀ j, Keeps (s j) (s' j) := by
  rw [onSelf_eq hs]
  exact ⟨update_holds h hp.1, update_keeps hp.2⟩

/-- A process that runs calls `issig`. -/
theorem Holds.calls (h : Holds p) (hst : p.pStat = .srun) {caller : Caller}
    (hs : p.sintr = true → caller = .tsleep) : Calls p caller :=
  ⟨h.sets, h.pends.cont, hst, hs⟩

/-- The step takes `SIGKILL`. -/
def Takes (i : ℕ) (s : Procs) (act : Act) : Prop := act = .psig i ∧ (s i).pc = .taking SIGKILL

theorem resume_holds (h : ∀ j, Holds (s j)) {timo : Bool}
    (hs : step s (.resume i timo) = some s') :
    (∀ j, Holds (s' j)) ∧ ∀ j, Keeps (s j) (s' j) := by
  rw [step] at hs
  split_ifs at hs with hst
  cases hpc : (s i).pc with
  | stopped sig caller =>
    rw [hpc] at hs
    dsimp only at hs
    have hsintr : (s i).sintr = true → caller = .tsleep := by
      intro hb
      have hbreaks := (h i).pends.sintr hb
      rw [hpc] at hbreaks
      cases caller with
      | trap => exact nomatch hbreaks
      | tsleep => rfl
      | resume => exact nomatch hbreaks
    have hkill := (h i).pends.stopped sig caller hpc
    have hcalls : Calls (drop (s i) sig) caller := by
      refine ⟨(h i).sets.congr rfl rfl rfl rfl rfl, fun hc k hk hx => ?_, hst, hsintr⟩
      exact (h i).pends.cont (has_diff.mp hc).1 k hk (has_diff.mp hx).1
    refine issig_spec h hcalls rfl (fun hk => has_diff_bit.mpr ⟨hk, ?_⟩) hs
    rw [SIGKILL] at hkill ⊢
    omega
  | asleep catch_ =>
    rw [hpc] at hs
    dsimp only at hs
    have hresumed : Holds (resumed (s i)) :=
      .resumed (h i).sets (h i).pends.cont (by rw [hst]; nofun)
    split_ifs at hs
    · have hcalls : Calls { s i with sintr := false } .resume :=
        ⟨(h i).sets.congr rfl rfl rfl rfl rfl, (h i).pends.cont, hst, nofun⟩
      exact issig_spec h hcalls rfl id hs
    · cases hs
      exact ⟨update_holds h hresumed, update_keeps ⟨fun _ => nofun, rfl, fun _ => id⟩⟩
  | none => rw [hpc] at hs; exact nomatch hs
  | run => rw [hpc] at hs; exact nomatch hs
  | taking sig => rw [hpc] at hs; exact nomatch hs
  | exits sig => rw [hpc] at hs; exact nomatch hs

theorem tsleep_holds (h : ∀ j, Holds (s j)) {catch_ : Bool}
    (hs : step s (.tsleep i catch_) = some s') :
    (∀ j, Holds (s' j)) ∧ ∀ j, Keeps (s j) (s' j) := by
  rw [step] at hs
  split_ifs at hs with hrun
  · have hcalls : Calls { s i with pWchan := true, sintr := true } .tsleep :=
      ⟨(h i).sets.congr rfl rfl rfl rfl rfl, (h i).pends.cont, hrun.1, fun _ => rfl⟩
    exact issig_spec h hcalls rfl id hs
  · cases hs
    have hsintr : (s i).sintr = false := by
      by_contra hb
      have hbreaks := (h i).pends.sintr (eq_true_of_ne_false hb)
      rw [hrun.2] at hbreaks
      exact nomatch hbreaks
    have hasleep : Holds { s i with pWchan := true, pStat := .ssleep, pc := .asleep false } := by
      refine ⟨(h i).sets.congr rfl rfl rfl rfl rfl, (h i).pends.cont, ?_, ?_, nofun⟩
      · exact fun hb => absurd hb (ne_true_of_eq_false hsintr)
      · exact fun _ _ => ⟨nofun, fun _ => hsintr⟩
    exact ⟨update_holds h hasleep, update_keeps ⟨fun _ => nofun, rfl, fun _ => id⟩⟩

theorem wakeup_holds (h : Holds p) : Holds
    { p with
      pWchan := false
      pStat := if p.pStat = .ssleep then .srun else p.pStat } := by
  refine ⟨h.sets.congr rfl rfl rfl rfl rfl, h.pends.cont, h.pends.sintr, ?_, h.pends.stopped⟩
  intro hpid hk
  obtain ⟨hne, -⟩ := h.pends.kill hpid hk
  rw [Runnable]
  dsimp only
  split_ifs with hst
  · exact ⟨nofun, nofun⟩
  · exact ⟨hne, fun heq => absurd heq hst⟩

/-- A step keeps what holds of the processes, and `SIGKILL` where it is pending. -/
theorem step_holds (h : ∀ j, Holds (s j)) {act : Act} (hs : step s act = some s') :
    (∀ j, Holds (s' j)) ∧
      ∀ j, (s j).pc ≠ .none → ¬ Takes j s act → Keeps (s j) (s' j) := by
  have hall (hr : (∀ j, Holds (s' j)) ∧ ∀ j, Keeps (s j) (s' j)) : (∀ j, Holds (s' j)) ∧
      ∀ j, (s j).pc ≠ .none → ¬ Takes j s act → Keeps (s j) (s' j) :=
    ⟨hr.1, fun j _ _ => hr.2 j⟩
  cases act with
  | sigaction i uap => exact hall (onSelf_holds h (setact_holds (h i) _ _ uap) hs)
  | osigvec i uap => exact hall (onSelf_holds h (setact_holds (h i) _ _ uap) hs)
  | sigprocmask i how mask => exact hall (onSelf_holds h (sigprocmask_holds (h i) how mask) hs)
  | osigblock i mask =>
    exact hall (onSelf_holds h (sigprocmask_holds (h i) SIG_BLOCK mask) hs)
  | osigsetmask i mask =>
    exact hall (onSelf_holds h (sigprocmask_holds (h i) SIG_SETMASK mask) hs)
  | execsigs i =>
    rw [step, Option.bind_eq_some_iff] at hs
    obtain ⟨q, hexec, hs⟩ := hs
    exact hall (onSelf_holds h (execsigs_holds (h i) hexec) hs)
  | psignal i sig =>
    rw [step] at hs
    split_ifs at hs with hsig
    cases hs
    obtain ⟨hholds, hkeeps, -⟩ := psignal_spec h hsig.2.1 hsig.2.2 i
    exact hall ⟨hholds, hkeeps⟩
  | issig i =>
    rw [step] at hs
    split_ifs at hs with hrun
    refine hall (issig_spec h ((h i).calls hrun.1 fun hb => ?_) rfl id hs)
    have hbreaks := (h i).pends.sintr hb
    rw [hrun.2] at hbreaks
    exact nomatch hbreaks
  | tsleep i catch_ => exact hall (tsleep_holds h hs)
  | resume i timo => exact hall (resume_holds h hs)
  | psig i =>
    rw [step] at hs
    cases hpc : (s i).pc with
    | taking sig =>
      rw [hpc] at hs
      cases hs
      obtain ⟨hholds, hkeeps⟩ := psig_holds (h i) hpc
      refine ⟨update_holds h hholds, fun j _ htakes => ?_⟩
      by_cases hj : j = i
      · subst hj
        rw [Function.update_self]
        exact hkeeps fun heq => htakes ⟨rfl, heq ▸ hpc⟩
      · rw [Function.update_of_ne hj]
        exact .refl _
    | none => rw [hpc] at hs; exact nomatch hs
    | run => rw [hpc] at hs; exact nomatch hs
    | stopped sig caller => rw [hpc] at hs; exact nomatch hs
    | asleep catch_ => rw [hpc] at hs; exact nomatch hs
    | exits sig => rw [hpc] at hs; exact nomatch hs
  | wakeup i =>
    cases hs
    exact hall ⟨update_holds h (wakeup_holds (h i)), update_keeps ⟨id, rfl, fun _ => id⟩⟩
  | fork i j pid =>
    rw [step] at hs
    split_ifs at hs with hfork
    cases hs
    obtain ⟨-, hpc, hnone, -⟩ := hfork
    refine ⟨update_holds h ?_, fun k hk _ => ?_⟩
    · refine ⟨(h i).sets.congr rfl rfl rfl rfl rfl, ?_, nofun, ?_, ?_⟩
      · exact fun hc => absurd hc not_has_zero
      · exact fun _ hk => absurd hk not_has_zero
      · intro n caller heq
        exact nomatch hpc.symm.trans heq
    · -- the new process was none before
      have hne : k ≠ j := fun heq => hk (heq ▸ hnone)
      rw [Function.update_of_ne hne]
      exact .refl _
  | change i r =>
    cases hs
    refine hall ⟨update_holds h ?_, update_keeps ⟨id, rfl, fun _ => id⟩⟩
    exact ⟨(h i).sets.congr rfl rfl rfl rfl rfl, (h i).pends.cont, (h i).pends.sintr,
      (h i).pends.kill, (h i).pends.stopped⟩

/-! ## Runs -/

/-- A process before it has had anything to do with signals. -/
structure Fresh (p : Proc) : Prop where
  pSig : p.pSig = 0
  pSigmask : p.pSigmask = 0
  pSigignore : p.pSigignore = 0
  pSigcatch : p.pSigcatch = 0
  psSigact : p.psSigact = fun _ => SIG_DFL
  psCatchmask : p.psCatchmask = fun _ => 0
  sintr : p.sintr = false
  pc : p.pc = .run ∨ p.pc = .none

/-- At first the processes are as `siginit` makes the first one. -/
inductive Reached : Procs → Prop where
  | init {s : Procs} (h : ∀ i, ∃ p, Fresh p ∧ s i = siginit p) : Reached s
  | step {s s' : Procs} {act : Act} (h : Reached s) (hs : step s act = some s') : Reached s'

theorem siginit_fold (l : List ℕ) (p : Proc) :
    ∃ x, l.foldl (fun p i =>
        if sigprop i &&& SA_IGNORE ≠ 0 ∧ i ≠ SIGCONT then
          { p with pSigignore := p.pSigignore ||| sigmask i }
        else p) p = { p with pSigignore := x } ∧
      ∀ i, Has x i ↔ Has p.pSigignore i ∨
        ∃ n ∈ l, (sigprop n &&& SA_IGNORE ≠ 0 ∧ n ≠ SIGCONT) ∧ Has (sigmask n) i := by
  induction l generalizing p with
  | nil => exact ⟨_, rfl, fun i => by simp⟩
  | cons n l ih =>
    rw [List.foldl_cons]
    by_cases hn : sigprop n &&& SA_IGNORE ≠ 0 ∧ n ≠ SIGCONT
    · rw [if_pos hn]
      obtain ⟨x, heq, hx⟩ := ih { p with pSigignore := p.pSigignore ||| sigmask n }
      refine ⟨x, heq, fun i => ?_⟩
      rw [hx, has_or, List.exists_mem_cons_iff, or_assoc, and_iff_right hn]
    · rw [if_neg hn]
      obtain ⟨x, heq, hx⟩ := ih p
      refine ⟨x, heq, fun i => ?_⟩
      rw [hx, List.exists_mem_cons_iff]
      exact or_congr_right (or_iff_right fun h => hn h.1).symm

theorem Fresh.holds (h : Fresh p) : Holds (siginit p) := by
  obtain ⟨x, heq, hx⟩ := siginit_fold (List.range NSIG) p
  have hinit : siginit p = { p with pSigignore := x } := heq
  have hign (i : ℕ) : Has x i ↔ Ignored (i + 1) SIG_DFL := by
    rw [hx, h.pSigignore]
    refine (or_iff_right not_has_zero).trans ?_
    constructor
    · rintro ⟨n, -, ⟨hprop, hne⟩, hn⟩
      have hpos : 0 < n := Nat.pos_of_ne_zero fun hzero => hprop (by rw [hzero]; decide)
      rw [has_sigmask hpos] at hn
      rw [← hn.1]
      exact ⟨hne, Or.inr ⟨rfl, hprop⟩⟩
    · rintro ⟨hne, hact | ⟨-, hprop⟩⟩
      · exact absurd hact (by decide)
      · have hlt : i + 1 < NSIG := by
          by_contra hge
          rw [sigprop_large (not_lt.mp hge)] at hprop
          exact hprop (by decide)
        refine ⟨i + 1, List.mem_range.mpr hlt, ⟨hprop, hne⟩, (has_sigmask i.succ_pos).mpr ⟨rfl, ?_⟩⟩
        rw [NSIG] at hlt
        omega
  rw [hinit]
  refine ⟨⟨?_, ?_, ?_, ?_, ?_, ?_⟩, ⟨?_, ?_, ?_, ?_⟩⟩
  all_goals dsimp only
  · rw [h.pSigmask]
    exact fun i hi => absurd hi not_has_zero
  · rw [h.psCatchmask]
    exact fun _ i hi => absurd hi not_has_zero
  · rw [h.pSigcatch, h.psSigact]
    exact fun i => iff_of_false not_has_zero fun hne => hne.1 rfl
  · rw [h.psSigact]
    exact hign
  · rw [h.psSigact]
  · rw [h.psSigact]
  · rw [h.pSig]
    exact fun hc => absurd hc not_has_zero
  · rw [h.sintr]
    nofun
  · intro _ hk
    rw [Killed, h.pSig] at hk
    exact absurd hk not_has_zero
  · intro n caller heq
    obtain hpc | hpc := h.pc
    · exact nomatch hpc.symm.trans heq
    · exact nomatch hpc.symm.trans heq

theorem Reached.holds (h : Reached s) : ∀ i, Holds (s i) := by
  induction h with
  | init h =>
    intro i
    obtain ⟨p, hfresh, heq⟩ := h i
    rw [heq]
    exact hfresh.holds
  | step _ hs ih => exact (step_holds ih hs).1

/-- What is promised of a process. -/
structure Safe (p : Proc) : Prop where
  blocked : p.pSigmask &&& sigcantmask = 0
  ignored : p.pSigignore &&& sigcantmask = 0
  caught : p.pSigcatch &&& sigcantmask = 0
  disjoint : p.pSigignore &&& p.pSigcatch = 0
  catch_agrees : ∀ sig, 0 < sig → sig < NSIG →
    (p.pSigcatch &&& sigmask sig ≠ 0 ↔ p.psSigact sig ≠ SIG_DFL ∧ p.psSigact sig ≠ SIG_IGN)
  ignore_agrees : ∀ sig, 0 < sig → sig < NSIG →
    (p.pSigignore &&& sigmask sig ≠ 0 ↔ Ignored sig (p.psSigact sig))
  pending : ¬ (p.pSig &&& contsigmask ≠ 0 ∧ p.pSig &&& stopsigmask ≠ 0)

theorem Holds.safe (h : Holds p) : Safe p := by
  have hbit {sig : ℕ} (hsig : 0 < sig) : sig - 1 + 1 = sig := Nat.sub_add_cancel hsig
  have hcant {i : ℕ} (hi : Has sigcantmask i) : p.psSigact (i + 1) = SIG_DFL ∧
      ¬ Ignored (i + 1) SIG_DFL := by
    obtain heq | heq := has_sigcantmask.mp hi
    · rw [heq]
      exact ⟨h.sets.kill, by unfold Ignored; decide⟩
    · rw [heq]
      exact ⟨h.sets.stop, by unfold Ignored; decide⟩
  refine ⟨?_, ?_, ?_, ?_, ?_, ?_, ?_⟩
  · exact and_eq_zero.mpr h.sets.masked
  · refine and_eq_zero.mpr fun i hi hc => ?_
    rw [h.sets.ignored, (hcant hc).1] at hi
    exact (hcant hc).2 hi
  · refine and_eq_zero.mpr fun i hi hc => ?_
    exact ((h.sets.caught i).mp hi).1 (hcant hc).1
  · refine and_eq_zero.mpr fun i hi hc => ?_
    obtain ⟨hdfl, hign⟩ := (h.sets.caught i).mp hc
    obtain ⟨-, heq | ⟨heq, -⟩⟩ := (h.sets.ignored i).mp hi
    · exact hign heq
    · exact hdfl heq
  · intro sig hsig _
    refine and_bit_ne_zero.trans ?_
    rw [h.sets.caught, hbit hsig]
  · intro sig hsig _
    refine and_bit_ne_zero.trans ?_
    rw [h.sets.ignored, hbit hsig]
  · rintro ⟨hcont, hstop⟩
    obtain ⟨i, hi⟩ := ne_zero_iff.mp hstop
    rw [has_and] at hi
    exact h.pends.cont (and_bit_ne_zero.mp hcont) i hi.2 hi.1

/-- Steps that do not take `SIGKILL` from the process `i`. -/
def Spared (i : ℕ) : Procs → Procs → Prop :=
  Relation.ReflTransGen fun s s' => ∃ act, step s act = some s' ∧ ¬ Takes i s act

theorem Spared.holds (h : ∀ j, Holds (s j)) (hpc : (s i).pc ≠ .none) (hs : Spared i s s') :
    (∀ j, Holds (s' j)) ∧ Keeps (s i) (s' i) := by
  induction hs with
  | refl => exact ⟨h, .refl _⟩
  | tail _ hstep ih =>
    obtain ⟨act, hact, htakes⟩ := hstep
    obtain ⟨hholds, hkeeps⟩ := step_holds ih.1 hact
    exact ⟨hholds, ih.2.trans (hkeeps i (ih.2.pc hpc) htakes)⟩

/-- After any steps the sets of every process are right. `SIGKILL` sent to a process stays pending
until the process takes it, and the process is not left stopped or asleep where it could be woken;
when it next looks for a signal, it finds one. -/
theorem sig_safe (h : Reached s) :
    (∀ i, Safe (s i)) ∧
      ∀ i s', (s i).pc ≠ .none → 1 < (s i).pPid → Spared i (psignal s i SIGKILL) s' →
        Killed (s' i) ∧ Runnable (s' i) ∧
          ((s' i).pStat = .srun → (s' i).pc = .run →
            ∃ s'' sig, step s' (.issig i) = some s'' ∧ 0 < sig ∧ (s'' i).pc = .taking sig) := by
  have hholds := h.holds
  refine ⟨fun i => (hholds i).safe, ?_⟩
  intro i s' hpc hpid hspared
  obtain ⟨hsent, hkeeps, hkilled⟩ : _ ∧ _ ∧ (SIGKILL = SIGKILL → _) :=
    psignal_spec hholds (by decide) (by decide) i
  obtain ⟨hend, hkeeps'⟩ := Spared.holds hsent ((hkeeps i).pc hpc) hspared
  have hpid₁ : 1 < (psignal s i SIGKILL i).pPid := by
    rw [(hkeeps i).pid]
    exact hpid
  have hpid' : 1 < (s' i).pPid := by
    rw [hkeeps'.pid]
    exact hpid₁
  have hk : Killed (s' i) := hkeeps'.killed hpid₁ (hkilled rfl)
  refine ⟨hk, (hend i).pends.kill hpid' hk, fun hst hrun => ?_⟩
  rw [step, if_pos ⟨hst, hrun⟩]
  exact issig_kill (hend i) hpid' hk

/-! ## A process that is stopped -/

/-- The processes with the numbers from 2 on. -/
def procs : Procs := fun i =>
  siginit ⟨i + 2, 0, .srun, false, false, false, false, 0, 0, 0, 0, fun _ => SIG_DFL, fun _ => 0, 0,
    0, 0, PUSER, 0, 1, .run⟩

/-- Steps one after the other. -/
def steps : List Act → Procs → Option Procs
  | [], s => some s
  | act :: acts, s => (step s act).bind (steps acts)

theorem steps_reached {acts : List Act} (h : Reached s) (hs : steps acts s = some s') :
    Reached s' := by
  induction acts generalizing s with
  | nil =>
    cases hs
    exact h
  | cons act acts ih =>
    rw [steps, Option.bind_eq_some_iff] at hs
    obtain ⟨q, hstep, hs⟩ := hs
    exact ih (h.step hstep) hs

/-- A process catches `SIGTERM` and blocks what it can; it goes to sleep and is stopped there. -/
def stopRun : List Act :=
  [.sigaction 1 ⟨15, none, some (.ok ⟨0x1000, 0, 0⟩)⟩, .sigprocmask 1 SIG_SETMASK (~~~0),
    .tsleep 1 true, .psignal 1 SIGSTOP]

theorem sig_safe_stopped : ∃ s, Reached s ∧ (s 1).pStat = .sstop ∧ (∀ i, Safe (s i)) ∧
    Killed (psignal s 1 SIGKILL 1) ∧ Runnable (psignal s 1 SIGKILL 1) := by
  have hinit : Reached procs :=
    .init fun i => ⟨_, ⟨rfl, rfl, rfl, rfl, rfl, rfl, rfl, Or.inl rfl⟩, rfl⟩
  have hrun : (steps stopRun procs).map
      (fun s => ((s 1).pStat, decide ((s 1).pc ≠ .none), (s 1).pPid)) = some (.sstop, true, 3) := by
    decide +kernel
  rw [Option.map_eq_some_iff] at hrun
  obtain ⟨s, hs, hprops⟩ := hrun
  rw [Prod.mk.injEq, Prod.mk.injEq, decide_eq_true_iff] at hprops
  obtain ⟨hst, hpc, hpid⟩ := hprops
  have hreached := steps_reached hinit hs
  obtain ⟨hsafe, hkill⟩ := sig_safe hreached
  obtain ⟨hk, hr, -⟩ := hkill 1 _ hpc (by omega) .refl
  exact ⟨s, hreached, hst, hsafe, hk, hr⟩

end Sig
