import NetBsd.Kern.BioLists

/-!
# Runs of the buffer cache

What any number of processes and drivers do to the free lists and to the blocks that are cached.

## Main definitions

* `Careful`: steps that avoid two defects of the free lists
* `Fresh`: a process that slept puts no second buffer of a block on its chain

## Main results

* `step_does`: a careful step keeps the lists, and releases a buffer once when it gives it up
* `run_lists`: in careful runs a buffer is on one free list, or busy and on none
* `run_unique`: when they are fresh too, a block has one valid buffer
-/

namespace Bio

open InsQueue

variable {ν π : Type} {s s' : State ν π} {b x : ℕ} {p : π} {c : Call ν} {f : Flags} {u : Use π}

section Process

variable [DecidableEq ν] [DecidableEq π]

/-! ## Steps -/

/-- Nobody calls `bdwrite` for a buffer that is not valid, and there is a header that has no memory
when `malloc` returns to `getnewbuf`. -/
def Careful (s : State ν π) : Op ν π → Prop
  | .bdwrite _ b => (s.buf b).flags.inval = false
  | .resume p null => ∀ c, s.pc p = .malloc c → null = false → firstBuf s .empty ≠ .ok none
  | _ => True

/-- A process that slept in `getnewbuf` or `allocbuf` puts a buffer on the chain of the block. -/
def Inserts (s : State ν π) (op : Op ν π) (block : ν × ℤ) : Prop :=
  match op with
  | .resume p null =>
    match s.pc p with
    | .start c => c.block = some block ∧ ¬Allocates s c ∧ Reuses s c
    | .malloc c => c.block = some block ∧ (null = true → Reuses s c)
    | .allocbuf c _ => c.block = some block
    | _ => False
  | _ => False

/-- A process looks for a block. -/
def Looks (s : State ν π) : Op ν π → Prop
  | .call _ _ => True
  | .resume p _ => ∃ c, s.pc p = .loop c
  | _ => False

/-- What became of a buffer that a function had to give up. -/
def GivenUp (s s' : State ν π) : Op ν π → Prop
  | .brelse _ b => s'.use b = .free
  | .bwrite p b => s'.use b = if (s.buf b).flags.inval then .free else .sync p
  | .bdwrite p b => s'.use b = if (s.buf b).flags.tape then .sync p else .free
  | .bawrite _ b => s'.use b = if (s.buf b).flags.inval then .free else .async
  | .biodone b _ => s.use b = .async → s'.use b = .free
  | .resume p _ => ∀ b, s.pc p = .biowait b true → (s.buf b).flags.done = true → s'.use b = .free
  | _ => True

/-- What a careful step does. -/
def Does (s : State ν π) (op : Op ν π) : Prop :=
  ∃ s' b new, step s op = .ok s' ∧ Good new b s s' ∧ GivenUp s s' op ∧
    ∀ vp blkno, new = some (vp, blkno) → Inserts s op (vp, blkno) ∨ ∀ x, ¬Valid s vp blkno x

omit [DecidableEq ν] [DecidableEq π] in
/-- A buffer that a caller has. -/
theorem Core.held (h : Core s none) (hh : Holds s p b) :
    InHand s b ∧ (s.buf b).flags.busy = true ∧ Mine s p b := by
  have hs := h.settled b hh.1 nofun
  refine ⟨h.inHand hh.1 ?_ ?_, hs.busy.mpr ?_, mine_of_eq (Or.inr (Or.inl hh.2.1))⟩
  all_goals rw [hh.2.1]
  · exact nofun
  · exact fun _ => nofun
  · exact nofun

omit [DecidableEq ν] in
/-- A process that has released a buffer, and is where it was. -/
theorem Ends.released_good (h : Ends .free 1 b s s') (hp : Pcs s) (hh : Holds s p b)
    (hpc : s'.pc = s.pc) (hmine : Mine s p b) : Good none b s s' := by
  have hupd : s'.pc = Function.update s.pc p .idle := by
    rw [hpc, ← hh.2.2, Function.update_eq_self]
  refine h.good hp hh.1 hupd nofun hmine ?_
  rw [hh.2.1, if_pos ⟨nofun, rfl⟩]

omit [DecidableEq ν] in
/-- A buffer that a caller had goes to a driver. -/
theorem Ends.given_good {v : Pc ν} (h : Ends u 0 b s s') (hp : Pcs s) (hh : Holds s p b)
    (hpc : s'.pc = Function.update s.pc p v)
    (hv : ∀ x u', v.claim p = some (x, u') → x = b ∧ u = u') (hmine : Mine s p b) (hu : u ≠ .free) :
    Good none b s s' := by
  refine h.good hp hh.1 hpc hv hmine ?_
  rw [if_neg fun hfree => hu hfree.2]

theorem brelse_does (h : Core s none) (hp : Pcs s) (hh : Holds s p b) : Does s (.brelse p b) := by
  rcases h.held hh with ⟨hin, -, hmine⟩
  rcases brelse_spec hin with ⟨s', hok, hpc, hends⟩
  exact ⟨s', b, none, hok, hends.released_good hp hh hpc hmine, hends.use, nofun⟩

theorem bawrite_does (h : Core s none) (hp : Pcs s) (hh : Holds s p b) (hwr : Writable (s.buf b)) :
    Does s (.bawrite p b) := by
  rcases h.held hh with ⟨hin, hbusy, hmine⟩
  rcases bawrite_spec hin hbusy hwr with ⟨s', hok, hpc, ⟨hi, hends⟩ | ⟨hi, hends⟩⟩
  · exact ⟨s', b, none, hok, hends.released_good hp hh hpc hmine,
      hends.use.trans (if_pos hi).symm, nofun⟩
  · have hupd : s'.pc = Function.update s.pc p .idle := by
      rw [hpc, ← hh.2.2, Function.update_eq_self]
    exact ⟨s', b, none, hok, hends.given_good hp hh hupd nofun hmine nofun,
      hends.use.trans (if_neg (by simp [hi])).symm, nofun⟩

theorem bwrite_does (h : Core s none) (hp : Pcs s) (hh : Holds s p b) (hwr : Writable (s.buf b)) :
    Does s (.bwrite p b) := by
  rcases h.held hh with ⟨hin, hbusy, hmine⟩
  rcases bwrite_spec hin hbusy hwr p with ⟨s', hok, ⟨hi, hpc, hends⟩ | ⟨hi, hpc, hends⟩⟩
  · exact ⟨s', b, none, hok, hends.released_good hp hh hpc hmine,
      hends.use.trans (if_pos hi).symm, nofun⟩
  · refine ⟨s', b, none, hok, hends.given_good hp hh hpc ?_ hmine nofun,
      hends.use.trans (if_neg (by simp [hi])).symm, nofun⟩
    intro x u' hclaim
    cases hclaim
    exact ⟨rfl, rfl⟩

theorem bdwrite_does (h : Core s none) (hp : Pcs s) (hh : Holds s p b) (hwr : Writable (s.buf b))
    (hinval : (s.buf b).flags.inval = false) : Does s (.bdwrite p b) := by
  rcases h.held hh with ⟨hin, hbusy, hmine⟩
  rcases bdwrite_spec hin hbusy hwr hinval p with ⟨s', hok, ⟨ht, hpc, hends⟩ | ⟨ht, hpc, hends⟩⟩
  · exact ⟨s', b, none, hok, hends.released_good hp hh hpc hmine,
      hends.use.trans (if_neg (by simp [ht])).symm, nofun⟩
  · refine ⟨s', b, none, hok, hends.given_good hp hh hpc ?_ hmine nofun,
      hends.use.trans (if_pos ht).symm, nofun⟩
    intro x u' hclaim
    cases hclaim
    exact ⟨rfl, rfl⟩

theorem setFlags_does (h : Core s none) (hp : Pcs s) (ha : Allowed s (.setFlags p b f)) :
    Does s (.setFlags p b f) := by
  rcases ha with ⟨hh, hbusy, -, hdel, hinval⟩
  rcases h.held hh with ⟨-, hbusy', -⟩
  have hkeep : ∀ vp, (s.buf b).vp = some vp → f.inval = false → (s.buf b).flags.inval = false := by
    intro vp hvp hi
    by_contra hne
    have hf := hinval (by simpa using hne) (by rw [hvp]; rfl)
    exact absurd (hf.symm.trans hi) nofun
  have hcore := h.setFlags hh.1 (hbusy.trans hbusy'.symm) hdel (by rw [hh.2.1]; exact nofun) hkeep
    (by rw [hh.2.1]; exact nofun) (by rw [hh.2.1]; exact nofun)
  exact ⟨_, b, none, rfl, good_setFlags hcore hp hkeep, trivial, nofun⟩

theorem biodone_does (h : Core s none) (hp : Pcs s) (hfl : InFlight s b) (error : Option ℤ) :
    Does s (.biodone b error) := by
  rcases hfl with ⟨hlt, hfl⟩
  rcases biodone_spec h hlt error (hfl.imp id fun ⟨p, hu, _⟩ => ⟨p, hu⟩) with
    ⟨s', hok, hpc, ⟨huse, hends⟩ | ⟨p, huse, hends⟩⟩
  · refine ⟨s', b, none, hok, ⟨hends.core, fun p' x u hclaim => ?_, hends.frame,
      fun vp blkno hv => Or.inl (hends.valid vp blkno hv), ?_⟩, fun _ => hends.use, nofun⟩
    · rw [hpc] at hclaim
      rcases hp p' x u hclaim with ⟨hx, hu⟩
      have hxb : x ≠ b := by
        rintro rfl
        rw [huse] at hu
        rw [← hu] at hclaim
        cases hpc' : s.pc p' <;> rw [hpc'] at hclaim <;> cases hclaim
      rw [hends.frame.nbuf, hends.frame.use x hxb]
      exact ⟨hx, hu⟩
    · rw [hends.released, hends.use, huse, if_pos ⟨nofun, rfl⟩]
  · refine ⟨s', b, none, hok, ⟨hends.core, fun p' x u hclaim => ?_, hends.frame,
      fun vp blkno hv => Or.inl (hends.valid vp blkno hv), ?_⟩, fun heq => ?_, nofun⟩
    · rw [hpc] at hclaim
      rcases hp p' x u hclaim with ⟨hx, hu⟩
      rw [hends.frame.nbuf]
      refine ⟨hx, ?_⟩
      by_cases hxb : x = b
      · rw [hxb, hends.use, ← huse, ← hxb, hu]
      · rw [hends.frame.use x hxb, hu]
    · rw [hends.released, hends.use, if_neg fun hfree => nomatch hfree.2]
    · exact absurd (heq.symm.trans huse) nofun

/-- The end of a search, for a step that looks for a block. -/
theorem getblk_does (op : Op ν π) (h : Core s none) (hp : Pcs s) (hop : step s op = getblk s p c)
    (hup : ∀ s', GivenUp s s' op) : step s op = .error .panic ∨ Does s op := by
  rcases getblk_spec (p := p) h hp c with hpanic | ⟨s', b, new, hok, hgood, hnew⟩
  · exact Or.inl (hop.trans hpanic)
  · exact Or.inr ⟨s', b, new, hop.trans hok, hgood, hup s', fun vp blkno heq =>
      Or.inr (hnew vp blkno heq)⟩

/-- A process that waited for a buffer goes on. -/
theorem biowait_does {write null : Bool} (h : Core s none) (hp : Pcs s)
    (hpc : s.pc p = .biowait b write) : Does s (.resume p null) := by
  rcases hp p b (.sync p) (by rw [hpc]; rfl) with ⟨hlt, huse⟩
  have hs := h.settled b hlt nofun
  have hin : InHand s b := h.inHand hlt (by rw [huse]; exact nofun) (by rw [huse]; exact fun _ => nofun)
  have hmine : Mine s p b := mine_of_eq (Or.inr (Or.inr (Or.inr huse)))
  have hstep : step s (.resume p null) = finish s p b write := by
    rw [step, resume, hpc]
  rcases finish_spec hin (hs.busy.mpr (by rw [huse]; exact nofun)) p write with
    ⟨s', hok, ⟨hdone, rfl⟩ | ⟨hdone, hpc', hcase⟩⟩
  · have hf : Frame b s (sleep s p (.buf b)) :=
      ⟨rfl, rfl, fun _ _ => rfl, fun _ _ => rfl, fun _ _ => rfl⟩
    have hcore : Core (sleep s p (.buf b)) none := h.wake s.wanted _
    refine ⟨_, b, none, hstep.trans hok,
      good_still hcore hp hf rfl rfl (fun _ _ => id) none, ?_, nofun⟩
    intro b' hb' hd
    rw [hpc] at hb'
    cases hb'
    exact absurd (hdone.symm.trans hd) nofun
  · rcases hcase with ⟨rfl, hends⟩ | ⟨rfl, hends⟩
    · refine ⟨s', b, none, hstep.trans hok, hends.good hp hlt hpc' nofun hmine ?_, ?_, nofun⟩
      · rw [huse, if_pos ⟨nofun, rfl⟩]
      · intro b' hb' _
        rw [hpc] at hb'
        cases hb'
        exact hends.use
    · refine ⟨s', b, none, hstep.trans hok, hends.good hp hlt hpc' nofun hmine ?_, ?_, nofun⟩
      · rw [if_neg fun hfree => nomatch hfree.2]
      · intro b' hb'
        rw [hpc] at hb'
        cases hb'

omit [DecidableEq ν] [DecidableEq π] in
/-- A process that is in no call, or waits for no buffer, gives none up. -/
theorem givenUp_resume {null : Bool} (hpc : ∀ b, s.pc p ≠ .biowait b true) :
    GivenUp s s' (.resume p null) := fun b hb => absurd hb (hpc b)

theorem resume_does {null : Bool} (h : Core s none) (hp : Pcs s)
    (hc : Careful s (.resume p null)) : step s (.resume p null) = .error .panic ∧ (∃ c, s.pc p = .loop c) ∨
      Does s (.resume p null) := by
  cases hpc : s.pc p with
  | idle =>
    refine Or.inr ⟨s, 0, none, by rw [step, resume, hpc], good_still h hp (Frame.refl 0 s) rfl rfl
      (fun _ _ => id) none, givenUp_resume (by rw [hpc]; exact nofun), nofun⟩
  | loop c =>
    rcases getblk_does (.resume p null) h hp (by rw [step, resume, hpc])
      (fun _ => givenUp_resume (by rw [hpc]; exact nofun)) with hpanic | hdoes
    · exact Or.inl ⟨hpanic, c, rfl⟩
    · exact Or.inr hdoes
  | start c =>
    rcases getnewbuf_spec (p := p) h hp c with ⟨s', b, new, hok, hgood, hnew⟩
    refine Or.inr ⟨s', b, new, by rw [step, resume, hpc]; exact hok, hgood,
      givenUp_resume (by rw [hpc]; exact nofun), fun vp blkno heq => Or.inl ?_⟩
    rcases hnew with hnew | ⟨hnew, hr⟩
    · exact absurd (hnew.symm.trans heq) nofun
    · rw [Inserts, hpc]
      exact ⟨hnew.symm.trans heq, hr⟩
  | malloc c =>
    cases null with
    | true =>
      rcases tryfree_spec (p := p) h hp c with ⟨s', b, new, hok, hgood, hnew⟩
      refine Or.inr ⟨s', b, new, by rw [step, resume, hpc]; exact hok, hgood,
        givenUp_resume (by rw [hpc]; exact nofun), fun vp blkno heq => Or.inl ?_⟩
      rcases hnew with hnew | ⟨hnew, hr⟩
      · exact absurd (hnew.symm.trans heq) nofun
      · rw [Inserts, hpc]
        exact ⟨hnew.symm.trans heq, fun _ => hr⟩
    | false =>
      rcases malloced_spec (p := p) h hp c (hc c hpc rfl) with ⟨s', b, hok, hgood⟩
      refine Or.inr ⟨s', b, c.block, by rw [step, resume, hpc]; exact hok, hgood,
        givenUp_resume (by rw [hpc]; exact nofun), fun vp blkno heq => Or.inl ?_⟩
      rw [Inserts, hpc]
      exact ⟨heq, nofun⟩
  | allocbuf c b =>
    rcases allocbuf_spec h hp hpc with ⟨s', hok, hgood⟩
    refine Or.inr ⟨s', b, c.block, by rw [step, resume, hpc]; exact hok, hgood,
      givenUp_resume (by rw [hpc]; exact nofun), fun vp blkno heq => Or.inl ?_⟩
    rw [Inserts, hpc]
    exact heq
  | biowait b write => exact Or.inr (biowait_does h hp hpc)

/-- A careful step is taken, unless a block is cached in a buffer that is smaller than asked for. -/
theorem step_does {op : Op ν π} (h : Core s none) (hp : Pcs s) (ha : Allowed s op)
    (hc : Careful s op) : step s op = .error .panic ∧ Looks s op ∨ Does s op := by
  cases op with
  | call p c =>
    rcases getblk_does (.call p c) h hp rfl (fun _ => trivial) with hpanic | hdoes
    · exact Or.inl ⟨hpanic, trivial⟩
    · exact Or.inr hdoes
  | resume p null => exact resume_does h hp hc
  | setFlags p b f => exact Or.inr (setFlags_does h hp ha)
  | brelse p b => exact Or.inr (brelse_does h hp ha)
  | bwrite p b => exact Or.inr (bwrite_does h hp ha.1 ha.2)
  | bdwrite p b => exact Or.inr (bdwrite_does h hp ha.1 ha.2 hc)
  | bawrite p b => exact Or.inr (bawrite_does h hp ha.1 ha.2)
  | biodone b error => exact Or.inr (biodone_does h hp ha error)

/-! ## Boot -/

omit [DecidableEq ν] [DecidableEq π] in
/-- All headers are on the list of those that have no memory, and on its hash chain. -/
theorem bufinitLoop_spec (n : ℕ) : ∃ av hash, bufinitLoop n = .ok (av, hash) ∧ Tidy av ∧ Tidy hash ∧
    (∀ q b, On av q b ↔ q = .empty ∧ b < n) ∧ ∀ k b, On hash k b ↔ k = .list .empty ∧ b < n := by
  induction n with
  | zero =>
    have hav := queues_empty Queue ℕ
    have hhash := queues_empty Chain ℕ
    refine ⟨_, _, rfl, ⟨_, hav⟩, ⟨_, hhash⟩, fun q b => ?_, fun k b => ?_⟩
    · rw [hav.on_iff]
      simp
    · rw [hhash.on_iff]
      simp
  | succ n ih =>
    rcases ih with ⟨av, hash, hok, hav, hhash, honav, honhash⟩
    have hnav : ∀ q, ¬On av q n := fun q hq => Nat.lt_irrefl n ((honav q n).mp hq).2
    have hnhash : ∀ k, ¬On hash k n := fun k hk => Nat.lt_irrefl n ((honhash k n).mp hk).2
    rcases hav.insertLast hnav .empty with ⟨av', hok₁, hav', hon₁⟩
    rcases hhash.insque hnhash (.list .empty) with ⟨hash', hok₂, hhash', hon₂⟩
    have hlt (P : Prop) (b : ℕ) : (P ∧ b < n) ∨ (P ∧ b = n) ↔ P ∧ b < n + 1 := by
      rw [← and_or_left, Nat.lt_succ_iff_lt_or_eq]
    refine ⟨av', hash', ?_, hav', hhash', fun q b => ?_, fun k b => ?_⟩
    · simp only [bufinitLoop, hok, hok₁, hok₂, bind, Except.bind]
    · rw [hon₁, honav, hlt]
    · rw [hon₂, honhash, hlt]

omit [DecidableEq ν] [DecidableEq π] in
theorem bufinit_inv {nbuf : ℕ} {space : ℤ} {vIndex : ν → ℤ} {s₀ : State ν π}
    (h : bufinit nbuf space vIndex = .ok s₀) : Core s₀ none ∧ Pcs s₀ := by
  rcases bufinitLoop_spec nbuf with ⟨av, hash, hok, hav, hhash, honav, honhash⟩
  simp only [bufinit, hok, bind, Except.bind] at h
  cases h
  refine ⟨⟨hav, hhash, ?_, fun b hb _ => ⟨?_, ?_, ?_, nofun, fun _ _ => rfl, nofun, nofun, nofun,
    nofun⟩⟩, nofun⟩
  · rintro b (⟨q, hq⟩ | ⟨k, hk⟩)
    · exact ((honav q b).mp hq).2
    · exact ((honhash k b).mp hk).2
  · exact ⟨fun _ => rfl, fun _ => ⟨.empty, (honav _ b).mpr ⟨rfl, hb⟩⟩⟩
  · exact ⟨fun _ _ => nofun, fun _ => ⟨.list .empty, (honhash _ b).mpr ⟨rfl, hb⟩⟩⟩
  · exact ⟨nofun, fun hne => absurd rfl hne⟩

/-! ## The free lists -/

theorem Run.inv {ok : State ν π → Op ν π → Prop} {s₀ : State ν π} (h : Run ok s₀ s)
    (hok : ∀ s op, ok s op → Careful s op) (h₀ : Core s₀ none ∧ Pcs s₀) : Core s none ∧ Pcs s := by
  induction h with
  | start => exact h₀
  | step _ ha hop hs ih =>
    rcases step_does ih.1 ih.2 ha (hok _ _ hop) with ⟨hpanic, -⟩ | ⟨s', b, new, hs', hgood, -⟩
    · exact absurd (hs.symm.trans hpanic) nofun
    · cases hs.symm.trans hs'
      exact ⟨hgood.core, hgood.pcs⟩

omit [DecidableEq ν] [DecidableEq π] in
/-- A buffer is on one free list, or busy and on none. -/
structure OnLists (s : State ν π) : Prop where
  tidy : Tidy s.av
  busy : ∀ b < s.nbuf, (s.buf b).flags.busy = true → ∀ q, ¬On s.av q b
  idle : ∀ b < s.nbuf, (s.buf b).flags.busy = false → ∃! q, On s.av q b

omit [DecidableEq ν] [DecidableEq π] in
theorem Core.onLists (h : Core s none) : OnLists s where
  tidy := h.av
  busy := fun b hb hbusy q hq =>
    (h.settled b hb nofun).busy.mp hbusy ((h.settled b hb nofun).free.mp ⟨q, hq⟩)
  idle := fun b hb hidle => by
    have hs := h.settled b hb nofun
    have hfree : s.use b = .free := by
      by_contra hne
      exact absurd ((hs.busy.mpr hne).symm.trans hidle) nofun
    rcases hs.free.mpr hfree with ⟨q, hq⟩
    exact ⟨q, hq, fun q' hq' => h.av.apart hq' hq⟩

omit [DecidableEq ν] in
/-- A buffer is released once by the step that gives it up, and not by the others. -/
def ReleasesOnce (s s' : State ν π) : Prop :=
  ∀ b, s'.released b = s.released b + if s.use b ≠ .free ∧ s'.use b = .free then 1 else 0

omit [DecidableEq ν] in
theorem Good.releasesOnce {new : Option (ν × ℤ)} (h : Good new b s s') : ReleasesOnce s s' := by
  intro x
  by_cases hx : x = b
  · rw [hx]
    exact h.released
  · rw [h.frame.released x hx, h.frame.use x hx, if_neg fun hfree => hfree.1 hfree.2, Nat.add_zero]

/-- In careful runs a buffer is on one free list, or busy and on none, and a careful step releases
each buffer that it gives up once. -/
theorem run_lists {nbuf : ℕ} {space : ℤ} {vIndex : ν → ℤ} {s₀ : State ν π}
    (h₀ : bufinit nbuf space vIndex = .ok s₀) (h : Run Careful s₀ s) :
    OnLists s ∧ ∀ op, Allowed s op → Careful s op → step s op = .error .panic ∧ Looks s op ∨
      ∃ s', step s op = .ok s' ∧ ReleasesOnce s s' ∧ GivenUp s s' op := by
  rcases h.inv (fun _ _ => id) (bufinit_inv h₀) with ⟨hcore, hpcs⟩
  refine ⟨hcore.onLists, fun op ha hc => (step_does hcore hpcs ha hc).imp id ?_⟩
  rintro ⟨s', b, new, hok, hgood, hup, -⟩
  exact ⟨s', hok, hgood.releasesOnce, hup⟩

/-! ## The blocks -/

/-- A process that slept puts a buffer on the chain of a block only while none is valid for it. -/
def Fresh (s : State ν π) (op : Op ν π) : Prop :=
  ∀ vp blkno, Inserts s op (vp, blkno) → incore s vp blkno = .ok none

omit [DecidableEq ν] [DecidableEq π] in
/-- A valid buffer of the block is on a hash chain. -/
def Cached (s : State ν π) (vp : ν) (blkno : ℤ) (b : ℕ) : Prop :=
  (∃ k, On s.hash k b) ∧ (s.buf b).vp = some vp ∧ (s.buf b).lblkno = blkno ∧
    (s.buf b).flags.inval = false

omit [DecidableEq ν] [DecidableEq π] in
/-- No block has two valid buffers. -/
def Unique (s : State ν π) : Prop :=
  ∀ vp blkno b b', Valid s vp blkno b → Valid s vp blkno b' → b = b'

omit [DecidableEq ν] in
/-- A new buffer is the only one of its block. -/
theorem Good.unique {new : Option (ν × ℤ)} (h : Good new b s s') (hs : Unique s)
    (hnew : ∀ vp blkno, new = some (vp, blkno) → ∀ x, ¬Valid s vp blkno x) : Unique s' := by
  have hold {vp : ν} {blkno : ℤ} {y : ℕ} (hv : Valid s' vp blkno y) :
      Valid s vp blkno y ∨ y = b ∧ new = some (vp, blkno) := by
    by_cases hy : y = b
    · rw [hy] at hv ⊢
      exact (h.valid vp blkno hv).imp id fun hn => ⟨rfl, hn⟩
    · rw [Valid, h.frame.nbuf, h.frame.buf y hy] at hv
      exact Or.inl hv
  intro vp blkno y y' hy hy'
  rcases hold hy with hy | ⟨rfl, hn⟩
  · rcases hold hy' with hy' | ⟨rfl, hn⟩
    · exact hs vp blkno y y' hy hy'
    · exact absurd hy (hnew vp blkno hn y)
  · rcases hold hy' with hy' | ⟨rfl, -⟩
    · exact absurd hy' (hnew vp blkno hn y')
    · rfl

theorem Run.unique {s₀ : State ν π} (h : Run (fun s op => Careful s op ∧ Fresh s op) s₀ s)
    (h₀ : Core s₀ none ∧ Pcs s₀) (hu : Unique s₀) : Unique s := by
  induction h with
  | start => exact hu
  | @step s s' op hrun ha hop hs ih =>
    rcases hrun.inv (fun _ _ => And.left) h₀ with ⟨hcore, hpcs⟩
    rcases step_does hcore hpcs ha hop.1 with ⟨hpanic, -⟩ | ⟨s'', b, new, hs', hgood, -, hnew⟩
    · exact absurd (hs.symm.trans hpanic) nofun
    · cases hs.symm.trans hs'
      refine hgood.unique ih fun vp blkno heq x hx => ?_
      rcases hnew vp blkno heq with hins | hnone
      · rcases incore_spec hcore vp blkno with ⟨-, hnone⟩ | ⟨y, hy, -⟩
        · exact hnone x hx
        · exact absurd (hy.symm.trans (hop.2 vp blkno hins)) nofun
      · exact hnone x hx

/-- While all steps are careful and fresh, no block has two valid buffers on hash chains. -/
theorem run_unique {nbuf : ℕ} {space : ℤ} {vIndex : ν → ℤ} {s₀ : State ν π}
    (h₀ : bufinit nbuf space vIndex = .ok s₀)
    (h : Run (fun s op => Careful s op ∧ Fresh s op) s₀ s) {vp : ν} {blkno : ℤ} {b b' : ℕ}
    (hb : Cached s vp blkno b) (hb' : Cached s vp blkno b') : b = b' := by
  have hinit := bufinit_inv h₀
  have hempty : Unique s₀ := by
    rcases bufinitLoop_spec nbuf with ⟨av, hash, hok, -⟩
    simp only [bufinit, hok, bind, Except.bind] at h₀
    cases h₀
    rintro vp blkno b b' ⟨-, hvp, -⟩
    cases hvp
  have hcore := (h.inv (fun _ _ => And.left) hinit).1
  exact h.unique hinit hempty vp blkno b b' ⟨hcore.bound b (Or.inr hb.1), hb.2⟩
    ⟨hcore.bound b' (Or.inr hb'.1), hb'.2⟩

end Process

/-! ## Examples -/

section Examples

/-- The state after a step that can be taken. -/
def State.next (s : State ℕ ℕ) (op : Op ℕ ℕ) (h : (step s op).toOption.isSome = true) : State ℕ ℕ :=
  (step s op).toOption.get h

/-- The cache at boot, with `nbuf` buffers. -/
def boot (nbuf : ℕ) (h : (bufinit nbuf 100 fun _ => 0 : Except Fault (State ℕ ℕ)).toOption.isSome = true) :
    State ℕ ℕ :=
  (bufinit nbuf 100 fun _ => 0).toOption.get h

theorem eq_ok_get {α : Type} (e : Except Fault α) (h : e.toOption.isSome = true) :
    e = .ok (e.toOption.get h) := by
  cases e with
  | ok x => rfl
  | error f => cases h

/-- One more step of a run. -/
theorem Run.next {ok : State ℕ ℕ → Op ℕ ℕ → Prop} {s₀ s : State ℕ ℕ} (h : Run ok s₀ s) (op : Op ℕ ℕ)
    (hs : (Bio.step s op).toOption.isSome = true) (ha : Allowed s op) (hok : ok s op) :
    Run ok s₀ (s.next op hs) :=
  .step h ha hok (eq_ok_get _ hs)

/-- Process 0 gets a buffer for block 0 of vnode 0. -/
theorem run_lists_getblk : ∃ s₀ s : State ℕ ℕ, bufinit 1 100 (fun _ => 0) = .ok s₀ ∧
    Run Careful s₀ s ∧ s.use 0 = .held 0 ∧ OnLists s := by
  have h₀ : bufinit 1 100 (fun _ => 0) = .ok (boot 1 rfl) := eq_ok_get _ rfl
  have hrun : Run Careful (boot 1 rfl) (boot 1 rfl) := .start
  have h₁ := hrun.next (.call 0 (.getblk 0 0 8 false)) rfl rfl trivial
  have h₂ := h₁.next (.resume 0 false) rfl rfl fun _ _ _ => nofun
  exact ⟨_, _, h₀, h₂, rfl, (run_lists h₀ h₂).1⟩

/-- A buffer of block 0 is marked as that of a tape, and as not valid: `bdwrite` releases it twice. -/
theorem not_run_lists : ¬∀ (nbuf : ℕ) (space : ℤ) (s₀ s : State ℕ ℕ),
    bufinit nbuf space (fun _ => 0) = .ok s₀ → Run (fun _ _ => True) s₀ s → OnLists s := by
  intro h
  let f : Flags := { busy := true, inval := true, tape := true }
  have h₀ : Run (fun _ _ => True) (boot 1 rfl) (boot 1 rfl) := .start
  have h₁ := h₀.next (.call 0 (.getblk 0 0 8 false)) rfl rfl trivial
  have h₂ := h₁.next (.resume 0 false) rfl rfl trivial
  have h₃ := h₂.next (.setFlags 0 0 f) rfl
    ⟨⟨by decide, rfl, rfl⟩, rfl, rfl, nofun, fun _ _ => rfl⟩ trivial
  have h₄ := h₃.next (.bdwrite 0 0) rfl ⟨⟨by decide, rfl, rfl⟩, Or.inr rfl⟩ trivial
  have hl := h 1 100 _ _ (eq_ok_get _ rfl) h₄
  -- the buffer follows itself on the list
  rcases hl.idle 0 (by decide) rfl with ⟨q, hq, -⟩
  exact hl.tidy.forw_ne hq rfl

/-- Process 0 gets a buffer for block 0 of vnode 0, which is the only one. -/
theorem run_unique_getblk : ∃ s₀ s : State ℕ ℕ, bufinit 1 100 (fun _ => 0) = .ok s₀ ∧
    Run (fun s op => Careful s op ∧ Fresh s op) s₀ s ∧ Cached s 0 0 0 ∧
      ∀ b, Cached s 0 0 b → b = 0 := by
  have h₀ : bufinit 1 100 (fun _ => 0) = .ok (boot 1 rfl) := eq_ok_get _ rfl
  have hrun : Run (fun s op => Careful s op ∧ Fresh s op) (boot 1 rfl) (boot 1 rfl) := .start
  have h₁ := hrun.next (.call 0 (.getblk 0 0 8 false)) rfl rfl ⟨trivial, fun _ _ => False.elim⟩
  have h₂ := h₁.next (.resume 0 false) rfl rfl ⟨fun _ _ _ => nofun, fun vp blkno hins => by
    cases hins.1
    rfl⟩
  refine ⟨_, _, h₀, h₂, ?_, fun b hb => run_unique h₀ h₂ hb ?_⟩
  all_goals exact ⟨⟨.bucket 0, [0], ⟨⟨rfl, rfl, rfl, rfl⟩, by decide⟩, by decide⟩, rfl, rfl, rfl⟩

/-- Two processes miss block 0 of vnode 0, and both sleep in `malloc`. -/
theorem not_run_unique : ¬∀ (nbuf : ℕ) (space : ℤ) (s₀ s : State ℕ ℕ) (vp : ℕ) (blkno : ℤ) (b b' : ℕ),
    bufinit nbuf space (fun _ => 0) = .ok s₀ → Run (fun _ _ => True) s₀ s →
      Cached s vp blkno b → Cached s vp blkno b' → b = b' := by
  intro h
  have hrun : Run (fun _ _ => True) (boot 2 rfl) (boot 2 rfl) := .start
  have h₁ := hrun.next (.call 0 (.getblk 0 0 8 false)) rfl rfl trivial
  have h₂ := h₁.next (.call 1 (.getblk 0 0 8 false)) rfl rfl trivial
  have h₃ := h₂.next (.resume 0 false) rfl rfl trivial
  have h₄ := h₃.next (.resume 1 false) (by decide +kernel) rfl trivial
  refine absurd (h 2 100 _ _ 0 0 0 1 (eq_ok_get _ rfl) h₄ ?_ ?_) (by decide)
  -- both are on the chain, the second one first
  all_goals
    refine ⟨⟨.bucket 0, [1, 0], ⟨⟨?_, ?_, ?_, ?_, ?_, ?_⟩, by decide⟩, by decide⟩, ?_, ?_, ?_⟩
  all_goals decide +kernel

end Examples

end Bio
