import NetBsd.Vm.Lock

/-!
# Exclusion on a read/write lock

The lock counts the holds for read, the recursive holds for write, and in two bits the other holds
for write with the writer and the upgrade that wait for readers. Every turn keeps the counts, and
wakes the sleepers where it makes a condition false that one of them may wait for. What can go
wrong is the recursive owner: the lock still lets that thread in after it gave up the write lock.

## Main definitions

* `Tallied`, `Apart`: the lock agrees with the holds, and a writer is alone
* `Kept`: what a turn has to keep
* `Act.Sound`: the turn does not use the right to recur without the write lock

## Main results

* `reached_safe`: sound turns keep a writer alone, every hold counted and every sleeper waiting
  for something
* `not_reached_safe`: a run in which a reader and a writer hold the lock together
-/

namespace KernLock

open Tally

variable {T : Type}

/-! ## Shares -/

/-- The upgrade that waits for readers. -/
def Pc.upgrading : Pc → ℕ
  | .blocked .upgrade _ => 1
  | .blocked .tryUpgrade _ => 1
  | _ => 0

/-- The writer that has the want_write bit and waits for readers. -/
def Pc.writing : Pc → ℕ
  | .blocked .readers _ => 1
  | _ => 0

/-- What a thread, or several together, have in the lock. -/
@[ext] structure Share where
  reads : ℕ
  writes : ℕ
  upgrading : ℕ
  writing : ℕ

/-- Two shares together. -/
def Share.add (a b : Share) : Share :=
  ⟨a.reads + b.reads, a.writes + b.writes, a.upgrading + b.upgrading, a.writing + b.writing⟩

/-- The share of a thread. -/
def share (pc : Pc) (h : Hold) : Share := ⟨h.reads, h.writes, pc.upgrading, pc.writing⟩

/-- The lock records the shares. -/
structure Tallied (l : Lock T) (n : Share) : Prop where
  reads : l.readCount.toNat = n.reads
  writes : n.writes + n.upgrading + n.writing =
    l.recursionDepth.toNat + l.wantUpgrade.toNat + l.wantWrite.toNat
  upgrading : n.upgrading ≤ l.wantUpgrade.toNat
  writing : n.writing ≤ l.wantWrite.toNat
  base : 0 < n.writes → l.recursionDepth.toNat < n.writes

/-- Where one side holds for write, the other holds nothing and waits for no upgrade. -/
structure Apart (own rest : Share) : Prop where
  left : 0 < own.writes → rest.reads = 0 ∧ rest.writes = 0 ∧ rest.upgrading = 0
  right : 0 < rest.writes → own.reads = 0 ∧ own.writes = 0 ∧ own.upgrading = 0

/-- The lock as a thread with the share `own` finds it. -/
structure Fits (l : Lock T) (own rest : Share) : Prop where
  tallied : Tallied l (own.add rest)
  apart : Apart own rest

/-- A thread with a share in `rest` can be in the loop. -/
def Loop.Among (rest : Share) : Loop → Prop
  | .readers => 0 < rest.writing
  | .upgrade => 0 < rest.upgrading
  | .tryUpgrade => 0 < rest.upgrading
  | _ => True

/-- A change of the lock that leaves the others asleep. -/
def Quiet (rest : Share) (l l' : Lock T) : Prop :=
  (l.waiting = true → l'.waiting = true) ∧
    ∀ loop : Loop, loop.Among rest → loop.cond l = true → loop.cond l' = true

theorem Quiet.refl (rest : Share) (l : Lock T) : Quiet rest l l := ⟨id, fun _ _ => id⟩

theorem Quiet.trans {rest : Share} {l l' l'' : Lock T} (h : Quiet rest l l')
    (h' : Quiet rest l' l'') : Quiet rest l l'' :=
  ⟨fun hw => h'.1 (h.1 hw), fun loop ha hc => h'.2 loop ha (h.2 loop ha hc)⟩

/-- What a turn keeps, for the thread that leaves it with the holds `h`: the counts, and the
sleepers, unless it wakes them all. -/
structure Kept (l : Lock T) (rest : Share) (turn : Turn T) (h : Hold) : Prop where
  fits : Fits turn.lock (share turn.outcome.pc h) rest
  quiet : l.waiting = true → turn.wakeup = true ∨ Quiet rest l turn.lock
  asleep : ∀ loop, turn.outcome = .waits loop .asleep →
    loop.cond turn.lock = true ∧ turn.lock.waiting = true

theorem Kept.of_quiet {l l' : Lock T} {rest : Share} {turn : Turn T} {h : Hold}
    (hq : Quiet rest l l') (hk : Kept l' rest turn h) : Kept l rest turn h where
  fits := hk.fits
  quiet hw := (hk.quiet (hq.1 hw)).imp_right hq.trans
  asleep := hk.asleep

/-- A call that returns without waking anyone. -/
theorem Kept.returned {l l' : Lock T} {rest : Share} {value : Option Bool} {h : Hold}
    (hf : Fits l' (share .out h) rest) (hq : Quiet rest l l') :
    Kept l rest ⟨l', false, .returned value⟩ h where
  fits := hf
  quiet _ := .inr hq
  asleep _ h := nomatch h

/-- A call that wakes the sleepers and returns. -/
theorem Kept.wakeWaiting {l l' : Lock T} {rest : Share} {value : Option Bool} {h : Hold}
    (hf : Fits l' (share .out h) rest) (hw : l'.waiting = l.waiting) :
    Kept l rest (wakeWaiting l' value) h where
  fits := ⟨⟨hf.tallied.reads, hf.tallied.writes, hf.tallied.upgrading, hf.tallied.writing,
    hf.tallied.base⟩, hf.apart⟩
  quiet h := .inl (hw.trans h)
  asleep _ h := nomatch h

theorem Loop.cond_waiting (l : Lock T) (b : Bool) (loop : Loop) :
    loop.cond { l with waiting := b } = loop.cond l := by
  cases loop <;> rfl

theorem Kept.sleep {l : Lock T} {rest : Share} {loop : Loop} {h : Hold}
    (hf : Fits l (share (.blocked loop .asleep) h) rest) (hc : loop.cond l = true) :
    Kept l rest (sleep l loop) h where
  fits := ⟨⟨hf.tallied.reads, hf.tallied.writes, hf.tallied.upgrading, hf.tallied.writing,
    hf.tallied.base⟩, hf.apart⟩
  quiet _ := by
    right
    refine ⟨fun _ => rfl, ?_⟩
    intro loop' _ hc'
    exact (Loop.cond_waiting l true loop').trans hc'
  asleep loop' h := by
    cases h
    exact ⟨(Loop.cond_waiting l true loop).trans hc, rfl⟩

theorem share_blocked (loop : Loop) (w w' : Wait) (h : Hold) :
    share (.blocked loop w) h = share (.blocked loop w') h := by
  cases loop <;> rfl

theorem Kept.block {l : Lock T} {rest : Share} {loop : Loop} {h : Hold} (spins : Bool)
    (hf : Fits l (share (.blocked loop .woken) h) rest) (hc : loop.cond l = true) :
    Kept l rest (block spins l loop) h := by
  unfold KernLock.block
  cases spins with
  | true =>
    refine ⟨?_, fun _ => .inr (.refl rest l), ?_⟩
    · rw [if_pos rfl]
      exact share_blocked loop .spinning .woken h ▸ hf
    · intro loop' h'
      exact nomatch h'
  | false =>
    rw [if_neg Bool.false_ne_true]
    exact .sleep (share_blocked loop .asleep .woken h ▸ hf) hc

/-! ## The counters -/

/-- The counter can count one more. -/
def Room (c : BitVec 32) : Prop := c.toNat + 1 < 2 ^ 32

instance (c : BitVec 32) : Decidable (Room c) := inferInstanceAs (Decidable (_ < _))

theorem Room.toNat_succ {c : BitVec 32} (h : Room c) : (c + 1).toNat = c.toNat + 1 := by
  unfold Room at h
  bv_omega

theorem toNat_pred {c : BitVec 32} (h : 0 < c.toNat) : (c - 1).toNat = c.toNat - 1 := by
  bv_omega

theorem ne_zero_iff {c : BitVec 32} : c ≠ 0 ↔ 0 < c.toNat := by
  bv_omega

theorem bne_zero_iff {c : BitVec 32} : (c != 0) = true ↔ 0 < c.toNat := by
  rw [bne_iff_ne, ne_zero_iff]

/-! ## The loops -/

section Turns

variable {l : Lock T} {rest : Share} {h : Hold} (spins : Bool)

theorem Loop.hold_block (loop loop' : Loop) :
    loop.hold h (block spins l loop').outcome = h := by
  cases spins <;> cases loop <;> rfl

theorem waitReaders_kept {wait : Wait} (hf : Fits l (share (.blocked .readers wait) h) rest) :
    Kept l rest (waitReaders spins l) (Loop.readers.hold h (waitReaders spins l).outcome) := by
  have hf' := share_blocked .readers wait .woken h ▸ hf
  unfold waitReaders
  split_ifs with hc
  · rw [Loop.hold_block]
    exact .block spins hf' hc
  · simp only [Loop.cond, Bool.or_eq_true, bne_zero_iff, not_or, Bool.not_eq_true] at hc
    obtain ⟨hcount, hup⟩ := hc
    have hup' : l.wantUpgrade.toNat = 0 := congrArg Bool.toNat hup
    have hle := Bool.toNat_le l.wantWrite
    obtain ⟨⟨hreads, hwrites, hupgr, hwrit, hbase⟩, ⟨hleft, hright⟩⟩ := hf
    simp only [Share.add, share, Pc.upgrading, Pc.writing] at hreads hwrites hupgr hwrit hbase
    simp only [share] at hleft hright
    -- this thread is the writer that waits, and nobody else holds anything
    have hidle : h.writes + rest.writes = 0 := by omega
    refine .returned ⟨⟨?_, ?_, ?_, ?_, ?_⟩, ⟨?_, ?_⟩⟩ (.refl rest l)
    all_goals simp only [Share.add, share, Loop.hold, Hold.write, Pc.upgrading, Pc.writing]
    all_goals omega

theorem waitWriteBit_kept (hf : Fits l (share .out h) rest) :
    Kept l rest (waitWriteBit spins l) (Loop.writeBit.hold h (waitWriteBit spins l).outcome) := by
  unfold waitWriteBit
  split_ifs with hc
  · rw [Loop.hold_block]
    exact .block spins hf hc
  · simp only [Loop.cond, Bool.not_eq_true] at hc
    have hbit : l.wantWrite.toNat = 0 := congrArg Bool.toNat hc
    obtain ⟨⟨hreads, hwrites, hupgr, hwrit, hbase⟩, happ⟩ := hf
    simp only [Share.add, share, Pc.upgrading, Pc.writing] at hreads hwrites hupgr hwrit hbase
    have hf' : Fits { l with wantWrite := true } (share (.blocked .readers .woken) h) rest := by
      refine ⟨⟨hreads, ?_, hupgr, ?_, hbase⟩, ⟨happ.left, happ.right⟩⟩
      all_goals simp only [Share.add, share, Pc.upgrading, Pc.writing, Bool.toNat_true]
      all_goals omega
    have hq : Quiet rest l { l with wantWrite := true } := by
      refine ⟨id, ?_⟩
      intro loop _ hcond
      cases loop <;> simp_all [Loop.cond]
    have hhold : ∀ o, Loop.writeBit.hold h o = Loop.readers.hold h o := by
      intro o
      cases o <;> rfl
    rw [hhold]
    exact .of_quiet hq (waitReaders_kept spins hf')

/-- One more hold for read, where nobody else holds for write. -/
theorem Fits.read (hf : Fits l (share .out h) rest) (hroom : Room l.readCount)
    (hw : rest.writes = 0) :
    Fits { l with readCount := l.readCount + 1 } (share .out h.read) rest := by
  obtain ⟨⟨hreads, hwrites, hupgr, hwrit, hbase⟩, ⟨hleft, hright⟩⟩ := hf
  refine ⟨⟨?_, hwrites, hupgr, hwrit, hbase⟩, ⟨hleft, ?_⟩⟩
  · have hsucc := hroom.toNat_succ
    simp only [Share.add, share, Hold.read] at hreads ⊢
    omega
  · intro hpos
    omega

theorem Quiet.read (hroom : Room l.readCount) :
    Quiet rest l { l with readCount := l.readCount + 1 } := by
  refine ⟨id, ?_⟩
  intro loop _ hcond
  have hpos : (l.readCount + 1 != 0) = true := by
    rw [bne_zero_iff, hroom.toNat_succ]
    omega
  cases loop <;> simp_all [Loop.cond]

theorem waitReading_kept (hf : Fits l (share .out h) rest)
    (hroom : Loop.reading.cond l = false → Room l.readCount) :
    Kept l rest (waitReading spins l) (Loop.reading.hold h (waitReading spins l).outcome) := by
  unfold waitReading
  split_ifs with hc
  · rw [Loop.hold_block]
    exact .block spins hf hc
  · have hc' := Bool.eq_false_iff.mpr hc
    have hbits : l.wantWrite.toNat = 0 ∧ l.wantUpgrade.toNat = 0 := by
      simp_all [Loop.cond]
    have hnone : rest.writes = 0 := by
      obtain ⟨⟨_, hwrites, _, _, hbase⟩, _⟩ := hf
      simp only [Share.add, share] at hwrites hbase
      omega
    exact .returned (hf.read (hroom hc') hnone) (.read (hroom hc'))

theorem upgraded_fits {loop : Loop} {wait : Wait} (hloop : loop = .upgrade ∨ loop = .tryUpgrade)
    (hf : Fits l (share (.blocked loop wait) h) rest) (hc : ¬ (l.readCount != 0) = true) :
    Fits l (share .out h.write) rest := by
  rw [bne_zero_iff] at hc
  have hupg : (share (.blocked loop wait) h).upgrading = 1 := by
    obtain rfl | rfl := hloop <;> rfl
  have hwri : (share (.blocked loop wait) h).writing = 0 := by
    obtain rfl | rfl := hloop <;> rfl
  obtain ⟨⟨hreads, hwrites, hupgr, hwrit, hbase⟩, ⟨hleft, hright⟩⟩ := hf
  simp only [Share.add, hupg, hwri] at hreads hwrites hupgr hwrit hbase hright
  simp only [share] at hreads hwrites hupgr hwrit hbase hleft hright
  have hle := Bool.toNat_le l.wantUpgrade
  refine ⟨⟨?_, ?_, ?_, ?_, ?_⟩, ⟨?_, ?_⟩⟩
  all_goals simp only [Share.add, share, Hold.write, Pc.upgrading, Pc.writing]
  all_goals omega

theorem waitUpgrade_kept {wait : Wait} (hf : Fits l (share (.blocked .upgrade wait) h) rest) :
    Kept l rest (waitUpgrade spins l) (Loop.upgrade.hold h (waitUpgrade spins l).outcome) := by
  have hf' := share_blocked .upgrade wait .woken h ▸ hf
  unfold waitUpgrade
  split_ifs with hc
  · rw [Loop.hold_block]
    exact .block spins hf' hc
  · exact .returned (upgraded_fits (.inl rfl) hf hc) (.refl rest l)

theorem waitTryUpgrade_kept {wait : Wait}
    (hf : Fits l (share (.blocked .tryUpgrade wait) h) rest) :
    Kept l rest (waitTryUpgrade l) (Loop.tryUpgrade.hold h (waitTryUpgrade l).outcome) := by
  have hf' := share_blocked .tryUpgrade wait .asleep h ▸ hf
  unfold waitTryUpgrade
  split_ifs with hc
  · exact .sleep hf' hc
  · exact .returned (upgraded_fits (.inr rfl) hf hc) (.refl rest l)

/-! ## The routines -/

/-- A recursive hold for write. -/
theorem Fits.recur (hf : Fits l (share .out h) rest) (hw : 0 < h.writes)
    (hroom : Room l.recursionDepth) :
    Fits { l with recursionDepth := l.recursionDepth + 1 } (share .out h.write) rest := by
  obtain ⟨⟨hreads, hwrites, hupgr, hwrit, hbase⟩, ⟨hleft, hright⟩⟩ := hf
  have hsucc := hroom.toNat_succ
  simp only [Share.add, share] at hreads hwrites hupgr hwrit hbase hleft hright
  refine ⟨⟨hreads, ?_, hupgr, hwrit, ?_⟩, ⟨fun _ => hleft hw, ?_⟩⟩
  all_goals simp only [Share.add, share, Hold.write]
  all_goals omega

theorem Quiet.recur (n : BitVec 32) : Quiet rest l { l with recursionDepth := n } := by
  refine ⟨id, ?_⟩
  intro loop _ hcond
  cases loop <;> exact hcond

/-- The release of a hold for write takes it from where it is counted. -/
theorem Fits.releaseWrite (hf : Fits l (share .out h) rest) (hw : 0 < h.writes) :
    Fits (releaseWrite l) (share .out h.dropWrite) rest := by
  obtain ⟨⟨hreads, hwrites, hupgr, hwrit, hbase⟩, ⟨hleft, hright⟩⟩ := hf
  simp only [Share.add, share, Pc.upgrading, Pc.writing] at hreads hwrites hupgr hwrit hbase
  simp only [share, Pc.upgrading] at hleft hright
  obtain ⟨hrest, hrest', hrest''⟩ := hleft hw
  have hle := Bool.toNat_le l.wantWrite
  unfold KernLock.releaseWrite
  split_ifs with hdepth hup
  · have hpos := ne_zero_iff.mp hdepth
    have hpred := toNat_pred hpos
    refine ⟨⟨hreads, ?_, hupgr, hwrit, ?_⟩, ⟨fun _ => ⟨hrest, hrest', hrest''⟩, ?_⟩⟩
    all_goals simp only [Share.add, share, Hold.dropWrite, Pc.upgrading, Pc.writing]
    all_goals omega
  · have hzero : l.recursionDepth.toNat = 0 := by
      rw [not_not.mp hdepth]
      rfl
    have hup' : l.wantUpgrade.toNat = 1 := congrArg Bool.toNat hup
    refine ⟨⟨hreads, ?_, ?_, hwrit, ?_⟩, ⟨fun _ => ⟨hrest, hrest', hrest''⟩, ?_⟩⟩
    all_goals simp only [Share.add, share, Hold.dropWrite, Pc.upgrading, Pc.writing,
      Bool.toNat_false]
    all_goals omega
  · have hzero : l.recursionDepth.toNat = 0 := by
      rw [not_not.mp hdepth]
      rfl
    have hup' : l.wantUpgrade.toNat = 0 := congrArg Bool.toNat (Bool.eq_false_iff.mpr hup)
    refine ⟨⟨hreads, ?_, hupgr, ?_, ?_⟩, ⟨fun _ => ⟨hrest, hrest', hrest''⟩, ?_⟩⟩
    all_goals simp only [Share.add, share, Hold.dropWrite, Pc.upgrading, Pc.writing,
      Bool.toNat_false]
    all_goals omega

/-- One hold for read less. -/
theorem Fits.dropRead (hf : Fits l (share .out h) rest) (hr : 0 < h.reads) :
    Fits { l with readCount := l.readCount - 1 } (share .out h.dropRead) rest := by
  obtain ⟨⟨hreads, hwrites, hupgr, hwrit, hbase⟩, ⟨hleft, hright⟩⟩ := hf
  simp only [Share.add, share] at hreads
  have hpred : (l.readCount - 1).toNat = l.readCount.toNat - 1 := toNat_pred (by omega)
  refine ⟨⟨?_, hwrites, hupgr, hwrit, hbase⟩, ⟨hleft, ?_⟩⟩
  · simp only [Share.add, share, Hold.dropRead]
    omega
  · intro hpos
    have hzero := hright hpos
    simp only [share] at hzero
    omega

theorem releaseWrite_waiting (l : Lock T) : (releaseWrite l).waiting = l.waiting := by
  unfold releaseWrite
  split_ifs <;> rfl

theorem lockDone_kept (hf : Fits l (share .out h) rest) (hh : h ≠ .none) :
    Kept l rest (lockDone l) (if 0 < h.reads then h.dropRead else h.dropWrite) := by
  unfold lockDone
  by_cases hr : 0 < h.reads
  · have hcount : l.readCount ≠ 0 := by
      rw [ne_zero_iff, hf.tallied.reads]
      exact Nat.add_pos_left hr rest.reads
    rw [if_pos hcount, if_pos hr]
    exact .wakeWaiting (hf.dropRead hr) rfl
  · -- without a hold for read of its own, the thread holds for write, and nobody else reads
    have hw : 0 < h.writes := by
      obtain ⟨reads, writes⟩ := h
      simp only [Hold.none, ne_eq, Hold.mk.injEq] at hh hr ⊢
      omega
    have hcount : ¬ l.readCount ≠ 0 := by
      rw [ne_zero_iff, hf.tallied.reads]
      have hrest := (hf.apart.left hw).1
      simp only [Share.add, share]
      omega
    rw [if_neg hcount, if_neg hr]
    exact .wakeWaiting (hf.releaseWrite hw) (releaseWrite_waiting l)

theorem lockWriteToRead_kept (hf : Fits l (share .out h) rest) (hw : 0 < h.writes)
    (hroom : Room l.readCount) : Kept l rest (lockWriteToRead l) h.dropWrite.read :=
  .wakeWaiting ((hf.read hroom (hf.apart.left hw).2.1).releaseWrite hw) (releaseWrite_waiting _)

/-- The recursive upgrade: a writer that still waits, waits for the upgrade of this thread too. -/
theorem Kept.recurUpgrade {value : Option Bool} (hf : Fits l (share .out h) rest)
    (hr : 0 < h.reads) (hw : 0 < h.writes) (hroom : Room l.recursionDepth) :
    Kept l rest ⟨{ l with
      readCount := l.readCount - 1, recursionDepth := l.recursionDepth + 1 }, false,
      .returned value⟩ h.dropRead.write := by
  have hf' := (hf.dropRead hr).recur hw hroom
  refine .returned hf' ⟨id, ?_⟩
  intro loop hamong hcond
  have hcount := hf.tallied.writes
  have hbase := hf.tallied.base
  have hle := Bool.toNat_le l.wantWrite
  have hrest := hf.apart.left hw
  simp only [Share.add, share, Pc.upgrading, Pc.writing] at hcount hbase
  cases loop with
  | writeBit => exact hcond
  | reading => exact hcond
  | readers =>
    have hup : l.wantUpgrade = true := by
      have hpos : 0 < rest.writing := hamong
      cases hu : l.wantUpgrade with
      | true => rfl
      | false =>
        rw [hu, Bool.toNat_false] at hcount
        omega
    simp [Loop.cond, hup]
  | upgrade =>
    have hpos : 0 < rest.upgrading := hamong
    omega
  | tryUpgrade =>
    have hpos : 0 < rest.upgrading := hamong
    omega

/-- An upgrade that begins to wait. -/
theorem Fits.upgrade {loop : Loop} (hloop : loop = .upgrade ∨ loop = .tryUpgrade)
    (hf : Fits l (share .out h) rest) (hr : 0 < h.reads) (hu : l.wantUpgrade = false) :
    Fits { l with readCount := l.readCount - 1, wantUpgrade := true }
      (share (.blocked loop .woken) h.dropRead) rest := by
  have hupg : (share (.blocked loop .woken) h.dropRead).upgrading = 1 := by
    obtain rfl | rfl := hloop <;> rfl
  have hwri : (share (.blocked loop .woken) h.dropRead).writing = 0 := by
    obtain rfl | rfl := hloop <;> rfl
  have hup : l.wantUpgrade.toNat = 0 := congrArg Bool.toNat hu
  obtain ⟨⟨hreads, hwrites, hupgr, hwrit, hbase⟩, ⟨hleft, hright⟩⟩ := hf.dropRead hr
  have hright' := hf.apart.right
  simp only [Share.add, share, Pc.upgrading, Pc.writing] at hreads hwrites hupgr hwrit hbase
  simp only [share] at hright'
  refine ⟨⟨hreads, ?_, ?_, ?_, hbase⟩, ⟨hleft, ?_⟩⟩
  all_goals simp only [Share.add, hupg, hwri, Bool.toNat_true]
  all_goals simp only [share, Hold.dropRead] at *
  all_goals omega

theorem Quiet.upgrade (hf : Fits l (share .out h) rest) (hu : l.wantUpgrade = false) :
    Quiet rest l { l with readCount := l.readCount - 1, wantUpgrade := true } := by
  refine ⟨id, ?_⟩
  intro loop hamong hcond
  have hupgr := hf.tallied.upgrading
  rw [hu, Bool.toNat_false] at hupgr
  simp only [Share.add] at hupgr
  cases loop with
  | writeBit => exact hcond
  | reading => exact Bool.or_true _
  | readers => exact Bool.or_true _
  | upgrade =>
    have hpos : 0 < rest.upgrading := hamong
    omega
  | tryUpgrade =>
    have hpos : 0 < rest.upgrading := hamong
    omega

theorem hold_waitUpgrade :
    Op.readToWrite.hold h (waitUpgrade spins l).outcome =
      Loop.upgrade.hold h.dropRead (waitUpgrade spins l).outcome := by
  unfold waitUpgrade
  split_ifs
  · cases spins <;> rfl
  · rfl

theorem hold_waitTryUpgrade :
    Op.tryReadToWrite.hold h (waitTryUpgrade l).outcome =
      Loop.tryUpgrade.hold h.dropRead (waitTryUpgrade l).outcome := by
  unfold waitTryUpgrade
  split_ifs <;> rfl

/-- The owner does not count in what the lock records. -/
theorem Kept.owner {value : Option Bool} (hf : Fits l (share .out h) rest) (o : Option T) :
    Kept l rest ⟨{ l with thread := o }, false, .returned value⟩ h := by
  obtain ⟨⟨hreads, hwrites, hupgr, hwrit, hbase⟩, happ⟩ := hf
  refine .returned ⟨⟨hreads, hwrites, hupgr, hwrit, hbase⟩, happ⟩ ⟨id, ?_⟩
  intro loop _ hcond
  cases loop <;> exact hcond

theorem resume_kept {loop : Loop} {wait : Wait}
    (hf : Fits l (share (.blocked loop wait) h) rest)
    (hroom : loop = .reading → loop.cond l = false → Room l.readCount) :
    Kept l rest (resume spins l loop wait) (loop.hold h (resume spins l loop wait).outcome) := by
  unfold resume
  split_ifs with hspin
  · exact .sleep (share_blocked loop wait .asleep h ▸ hf) hspin.2
  · cases loop with
    | writeBit => exact waitWriteBit_kept spins hf
    | readers => exact waitReaders_kept spins hf
    | reading => exact waitReading_kept spins hf (hroom rfl)
    | upgrade => exact waitUpgrade_kept spins hf
    | tryUpgrade => exact waitTryUpgrade_kept hf

theorem waitUpgrade_ne (l : Lock T) : (waitUpgrade spins l).outcome ≠ .returned (some true) := by
  unfold waitUpgrade
  split_ifs
  · cases spins <;> nofun
  · nofun

theorem resume_upgrade_ne (l : Lock T) (wait : Wait) :
    (resume spins l .upgrade wait).outcome ≠ .returned (some true) := by
  unfold resume
  split_ifs
  · nofun
  · exact waitUpgrade_ne spins l

theorem resume_tryUpgrade_ne (l : Lock T) (wait : Wait) :
    (resume spins l .tryUpgrade wait).outcome ≠ .returned (some false) := by
  unfold resume
  split_ifs
  · nofun
  · simp only [retest, waitTryUpgrade]
    split_ifs <;> nofun

end Turns

section Calls

variable [DecidableEq T] {l : Lock T} {t : T} {rest : Share} {h : Hold} (spins : Bool)

/-- The thread may recur, and holds for write what it may hold once more. -/
def Recurs (l : Lock T) (t : T) (h : Hold) : Prop :=
  l.thread = some t → 0 < h.writes ∧ Room l.recursionDepth

theorem lockWrite_kept (hf : Fits l (share .out h) rest) (hrec : Recurs l t h) :
    Kept l rest (lockWrite spins l t) (Op.write.hold h (lockWrite spins l t).outcome) := by
  unfold lockWrite
  split_ifs with ht
  · obtain ⟨hw, hroom⟩ := hrec ht
    exact .returned (hf.recur hw hroom) (.recur _)
  · have hhold : ∀ o, Op.write.hold h o = Loop.writeBit.hold h o := by
      intro o
      cases o <;> rfl
    rw [hhold]
    exact waitWriteBit_kept spins hf

theorem lockRead_kept (hf : Fits l (share .out h) rest)
    (hrec : l.thread = some t → rest.writes = 0 ∧ Room l.readCount)
    (hroom : l.thread ≠ some t → Loop.reading.cond l = false → Room l.readCount) :
    Kept l rest (lockRead spins l t) (Op.read.hold h (lockRead spins l t).outcome) := by
  unfold lockRead
  split_ifs with ht
  · obtain ⟨hw, hr⟩ := hrec ht
    exact .returned (hf.read hr hw) (.read hr)
  · have hhold : ∀ o, Op.read.hold h o = Loop.reading.hold h o := by
      intro o
      cases o <;> rfl
    rw [hhold]
    exact waitReading_kept spins hf (hroom ht)

theorem lockReadToWrite_kept (hf : Fits l (share .out h) rest) (hr : 0 < h.reads)
    (hrec : Recurs l t h) :
    Kept l rest (lockReadToWrite spins l t)
      (Op.readToWrite.hold h (lockReadToWrite spins l t).outcome) := by
  dsimp only [lockReadToWrite]
  split_ifs with ht hu
  · obtain ⟨hw, hroom⟩ := hrec ht
    exact .recurUpgrade hf hr hw hroom
  · exact .wakeWaiting (hf.dropRead hr) rfl
  · rw [hold_waitUpgrade]
    have hu' := Bool.eq_false_iff.mpr hu
    exact .of_quiet (.upgrade hf hu') (waitUpgrade_kept spins (hf.upgrade (.inl rfl) hr hu'))

theorem lockTryReadToWrite_kept (hf : Fits l (share .out h) rest) (hr : 0 < h.reads)
    (hrec : Recurs l t h) :
    Kept l rest (lockTryReadToWrite l t)
      (Op.tryReadToWrite.hold h (lockTryReadToWrite l t).outcome) := by
  unfold lockTryReadToWrite
  split_ifs with ht hu
  · obtain ⟨hw, hroom⟩ := hrec ht
    exact .recurUpgrade hf hr hw hroom
  · exact .returned hf (.refl rest l)
  · rw [hold_waitTryUpgrade]
    have hu' := Bool.eq_false_iff.mpr hu
    exact .of_quiet (.upgrade hf hu') (waitTryUpgrade_kept (hf.upgrade (.inr rfl) hr hu'))

theorem lockTryWrite_kept (hf : Fits l (share .out h) rest) (hrec : Recurs l t h) :
    Kept l rest (lockTryWrite l t) (Op.tryWrite.hold h (lockTryWrite l t).outcome) := by
  have hbit := waitWriteBit_kept false hf
  unfold lockTryWrite
  split_ifs with ht hbusy
  · obtain ⟨hw, hroom⟩ := hrec ht
    exact .returned (hf.recur hw hroom) (.recur _)
  · exact .returned hf (.refl rest l)
  · -- a free lock is what `lock_write` would have taken at once
    simp only [Bool.or_eq_true, not_or, Bool.not_eq_true] at hbusy
    obtain ⟨⟨hww, hwu⟩, hrc⟩ := hbusy
    have hturn : waitWriteBit false l = ⟨{ l with wantWrite := true }, false, .returned none⟩ := by
      have hnone : l.readCount = 0 := by simpa using hrc
      simp [waitWriteBit, waitReaders, Loop.cond, hww, hwu, hnone]
    rw [hturn] at hbit
    obtain ⟨hfit, hq, _⟩ := hbit
    exact ⟨hfit, hq, fun _ h => nomatch h⟩

theorem lockTryRead_kept (hf : Fits l (share .out h) rest)
    (hrec : l.thread = some t → rest.writes = 0 ∧ Room l.readCount)
    (hroom : l.thread ≠ some t → Loop.reading.cond l = false → Room l.readCount) :
    Kept l rest (lockTryRead l t) (Op.tryRead.hold h (lockTryRead l t).outcome) := by
  have hread := lockRead_kept false hf hrec hroom
  unfold lockTryRead
  unfold lockRead waitReading at hread
  split_ifs with ht hbusy
  · rw [if_pos ht] at hread
    obtain ⟨hfit, hq, _⟩ := hread
    exact ⟨hfit, hq, fun _ h => nomatch h⟩
  · exact .returned hf (.refl rest l)
  · have hc : ¬ Loop.reading.cond l = true := hbusy
    rw [if_neg ht, if_neg hc] at hread
    obtain ⟨hfit, hq, _⟩ := hread
    exact ⟨hfit, hq, fun _ h => nomatch h⟩

theorem lockReadToWrite_failed {spins : Bool}
    (ho : (lockReadToWrite spins l t).outcome = .returned (some true)) :
    l.thread ≠ some t ∧ l.wantUpgrade = true := by
  dsimp only [lockReadToWrite] at ho
  split_ifs at ho with ht hu
  · exact nomatch ho
  · exact ⟨ht, hu⟩
  · exact absurd ho (waitUpgrade_ne spins _)

end Calls

/-! ## Turns of several threads -/

section States

variable [DecidableEq T] {s s' : State T} {t u : T} {spins : Bool}

theorem Pc.upgrading_wake (pc : Pc) : pc.wake.upgrading = pc.upgrading := by
  cases pc with
  | out => rfl
  | blocked loop wait => cases wait <;> cases loop <;> rfl

theorem Pc.writing_wake (pc : Pc) : pc.wake.writing = pc.writing := by
  cases pc with
  | out => rfl
  | blocked loop wait => cases wait <;> cases loop <;> rfl

theorem Pc.wake_ne_asleep (pc : Pc) (loop : Loop) : pc.wake ≠ .blocked loop .asleep := by
  intro h
  cases pc with
  | out => cases h
  | blocked loop' wait => cases wait <;> cases h

/-- The share of the thread in the lock. -/
def State.mine (s : State T) (t : T) : Share := share (s.pc t) (s.hold t)

theorem State.mine_after_self (turn : Turn T) (h : Hold) :
    (s.after t turn h).mine t = share turn.outcome.pc h := by
  simp [mine, after]

theorem State.mine_after_ne (turn : Turn T) (h : Hold) (hut : u ≠ t) :
    (s.after t turn h).mine u = s.mine u := by
  simp only [mine, after, if_neg hut]
  cases turn.wakeup with
  | true => simp [share, Pc.upgrading_wake, Pc.writing_wake]
  | false => rfl

/-- The shares of the other threads. -/
def State.rest [Fintype T] (s : State T) (t : T) : Share :=
  ⟨others (fun u => (s.mine u).reads) t, others (fun u => (s.mine u).writes) t,
    others (fun u => (s.mine u).upgrading) t, others (fun u => (s.mine u).writing) t⟩

/-- All shares together. -/
def State.total [Fintype T] (s : State T) : Share :=
  ⟨∑ u, (s.mine u).reads, ∑ u, (s.mine u).writes, ∑ u, (s.mine u).upgrading,
    ∑ u, (s.mine u).writing⟩

/-- The lock agrees with the holds, a writer is alone, and a sleeper waits for something that
still holds, and will be woken. -/
structure Inv [Fintype T] (s : State T) : Prop where
  tallied : Tallied s.lock s.total
  apart : ∀ t, Apart (s.mine t) (s.rest t)
  sleeping : ∀ t loop, s.pc t = .blocked loop .asleep →
    loop.cond s.lock = true ∧ s.lock.waiting = true

variable [Fintype T]

theorem State.mine_add_rest (s : State T) (t : T) : (s.mine t).add (s.rest t) = s.total := by
  ext
  · exact add_others (fun u => (s.mine u).reads) t
  · exact add_others (fun u => (s.mine u).writes) t
  · exact add_others (fun u => (s.mine u).upgrading) t
  · exact add_others (fun u => (s.mine u).writing) t

theorem State.mine_le_rest (s : State T) (hut : u ≠ t) :
    ((s.mine u).reads ≤ (s.rest t).reads ∧ (s.mine u).writes ≤ (s.rest t).writes) ∧
      (s.mine u).upgrading ≤ (s.rest t).upgrading ∧ (s.mine u).writing ≤ (s.rest t).writing := by
  refine ⟨⟨?_, ?_⟩, ?_, ?_⟩
  · exact le_others (f := fun v => (s.mine v).reads) hut
  · exact le_others (f := fun v => (s.mine v).writes) hut
  · exact le_others (f := fun v => (s.mine v).upgrading) hut
  · exact le_others (f := fun v => (s.mine v).writing) hut

theorem Inv.fits (hi : Inv s) (t : T) : Fits s.lock (s.mine t) (s.rest t) :=
  ⟨s.mine_add_rest t ▸ hi.tallied, hi.apart t⟩

theorem State.rest_after (turn : Turn T) (h : Hold) :
    (s.after t turn h).rest t = s.rest t := by
  have hsame : ∀ v, v ≠ t → (s.after t turn h).mine v = s.mine v :=
    fun v hv => mine_after_ne turn h hv
  ext
  · exact others_congr fun v hv => congrArg Share.reads (hsame v hv)
  · exact others_congr fun v hv => congrArg Share.writes (hsame v hv)
  · exact others_congr fun v hv => congrArg Share.upgrading (hsame v hv)
  · exact others_congr fun v hv => congrArg Share.writing (hsame v hv)

/-- The other threads stay apart from each other, and the thread whose turn it was stays apart
from each of them. -/
theorem Inv.apart_after (hi : Inv s) (turn : Turn T) (h : Hold) (hut : u ≠ t)
    (happ : Apart (share turn.outcome.pc h) (s.rest t)) :
    Apart ((s.after t turn h).mine u) ((s.after t turn h).rest u) := by
  have hsame : ∀ v, v ≠ t → (s.after t turn h).mine v = s.mine v :=
    fun v hv => State.mine_after_ne turn h hv
  have hreads := others_change hut.symm fun v hv => congrArg Share.reads (hsame v hv)
  have hwrites := others_change hut.symm fun v hv => congrArg Share.writes (hsame v hv)
  have hupgr := others_change hut.symm fun v hv => congrArg Share.upgrading (hsame v hv)
  simp only [State.mine_after_self] at hreads hwrites hupgr
  obtain ⟨⟨hr, hw⟩, hup, -⟩ := s.mine_le_rest hut
  obtain ⟨⟨-, hlt⟩, -, -⟩ := s.mine_le_rest hut.symm
  have hold := hi.apart u
  rw [hsame u hut]
  constructor
  · intro hpos
    have hzero := hold.left hpos
    have hnew := happ.right (by omega)
    simp only [State.rest] at hzero hnew ⊢
    omega
  · intro hpos
    by_cases hown : 0 < (share turn.outcome.pc h).writes
    · have hzero := happ.left hown
      omega
    · refine hold.right ?_
      simp only [State.rest] at hpos ⊢
      omega

theorem Loop.among_rest {loop : Loop} {wait : Wait} (hut : u ≠ t)
    (hpc : s.pc u = .blocked loop wait) : loop.Among (s.rest t) := by
  obtain ⟨-, hup, hwr⟩ := s.mine_le_rest hut
  cases loop with
  | writeBit => trivial
  | reading => trivial
  | readers =>
    have hone : (s.mine u).writing = 1 := by rw [State.mine, hpc]; rfl
    exact Nat.lt_of_lt_of_le (hone ▸ Nat.one_pos) hwr
  | upgrade =>
    have hone : (s.mine u).upgrading = 1 := by rw [State.mine, hpc]; rfl
    exact Nat.lt_of_lt_of_le (hone ▸ Nat.one_pos) hup
  | tryUpgrade =>
    have hone : (s.mine u).upgrading = 1 := by rw [State.mine, hpc]; rfl
    exact Nat.lt_of_lt_of_le (hone ▸ Nat.one_pos) hup

theorem Inv.after (hi : Inv s) {turn : Turn T} {h : Hold}
    (hk : Kept s.lock (s.rest t) turn h) : Inv (s.after t turn h) where
  tallied := by
    rw [← State.mine_add_rest _ t, State.mine_after_self, State.rest_after]
    exact hk.fits.tallied
  apart v := by
    by_cases hvt : v = t
    · subst v
      rw [State.mine_after_self, State.rest_after]
      exact hk.fits.apart
    · exact hi.apart_after turn h hvt hk.fits.apart
  sleeping v loop hv := by
    simp only [State.after] at hv ⊢
    by_cases hvt : v = t
    · rw [if_pos hvt] at hv
      cases ho : turn.outcome with
      | returned value =>
        rw [ho] at hv
        cases hv
      | waits loop' wait =>
        rw [ho] at hv
        cases hv
        exact hk.asleep loop ho
    · rw [if_neg hvt] at hv
      cases hwake : turn.wakeup with
      | true =>
        rw [hwake, if_pos rfl] at hv
        exact absurd hv (Pc.wake_ne_asleep _ _)
      | false =>
        rw [hwake, if_neg Bool.false_ne_true] at hv
        obtain ⟨hcond, hwait⟩ := hi.sleeping v loop hv
        obtain hq | hq := hk.quiet hwait
        · rw [hwake] at hq
          cases hq
        · exact ⟨hq.2 loop (Loop.among_rest hvt hv) hcond, hq.1 hwait⟩

/-! ## Runs -/

/-- A thread that may recur finds no other writer, and the counter has room. -/
def MayRead (s : State T) (t : T) : Prop :=
  (s.lock.thread = some t → (∀ u, u ≠ t → (s.hold u).writes = 0) ∧ Room s.lock.readCount) ∧
    (s.lock.thread ≠ some t → Loop.reading.cond s.lock = false → Room s.lock.readCount)

/-- The thread does not use the right to recur without a hold for write, nor to read while another
thread writes; a thread that asks for an upgrade which fails holds the lock once; and the
counters have room. -/
def Op.Sound (s : State T) (t : T) : Op → Prop
  | .write => Recurs s.lock t (s.hold t)
  | .tryWrite => Recurs s.lock t (s.hold t)
  | .tryReadToWrite => Recurs s.lock t (s.hold t)
  | .readToWrite => Recurs s.lock t (s.hold t) ∧
    (s.lock.thread ≠ some t → s.lock.wantUpgrade = true → s.hold t = ⟨1, 0⟩)
  | .read => MayRead s t
  | .tryRead => MayRead s t
  | .writeToRead => Room s.lock.readCount
  | _ => True

/-- The same of a turn in a loop. -/
def Act.Sound (s : State T) (t : T) : Act → Prop
  | .call op => op.Sound s t
  | .resume loop _ =>
    loop = .reading → loop.cond s.lock = false → Room s.lock.readCount

theorem Op.kept {op : Op} {turn : Turn T}
    (hf : Fits s.lock (share .out (s.hold t)) (s.rest t)) (hmay : op.May (s.hold t))
    (hs : op.Sound s t) (hrun : op.run spins s.lock t = some turn) :
    Kept s.lock (s.rest t) turn (op.hold (s.hold t) turn.outcome) := by
  have hread : MayRead s t → (s.lock.thread = some t →
      (s.rest t).writes = 0 ∧ Room s.lock.readCount) := by
    intro hs ht
    obtain ⟨halone, hroom⟩ := hs.1 ht
    exact ⟨others_eq_zero.mpr halone, hroom⟩
  cases op with
  | write =>
    cases hrun
    exact lockWrite_kept spins hf hs
  | done =>
    cases hrun
    exact lockDone_kept hf hmay
  | read =>
    cases hrun
    exact lockRead_kept spins hf (hread hs) hs.2
  | readToWrite =>
    cases hrun
    exact lockReadToWrite_kept spins hf hmay hs.1
  | writeToRead =>
    cases hrun
    exact lockWriteToRead_kept hf hmay hs
  | tryWrite =>
    cases hrun
    exact lockTryWrite_kept hf hs
  | tryRead =>
    cases hrun
    exact lockTryRead_kept hf (hread hs) hs.2
  | tryReadToWrite =>
    cases hrun
    exact lockTryReadToWrite_kept hf hmay hs
  | setRecursive =>
    simp only [Op.run, lockSetRecursive] at hrun
    split_ifs at hrun
    cases hrun
    exact .owner hf (some t)
  | clearRecursive =>
    simp only [Op.run, lockClearRecursive] at hrun
    split_ifs at hrun
    · cases hrun
      exact .owner hf none
    · cases hrun
      exact .returned hf (.refl _ _)

theorem Inv.step {act : Act} {o : Outcome} (hi : Inv s) (hs : act.Sound s t)
    (h : Step spins s t act o s') : Inv s' := by
  have hf := hi.fits t
  cases h with
  | call op turn hout hmay hrun =>
    rw [State.mine, hout] at hf
    exact hi.after (Op.kept hf hmay hs hrun)
  | resume loop wait hpc hwait =>
    rw [State.mine, hpc] at hf
    exact hi.after (resume_kept spins hf hs)

/-- The states of runs from the free lock whose turns satisfy `P`. -/
inductive Reached (spins : Bool) (P : State T → T → Act → Prop) : State T → Prop where
  | init : Reached spins P .init
  | step {s s' : State T} {t : T} {act : Act} {o : Outcome} (h : Reached spins P s)
      (hstep : Step spins s t act o s') (hP : P s t act) : Reached spins P s'

/-- A thread that holds the lock for write is the only one to hold it. -/
def Exclusive (s : State T) : Prop :=
  ∀ t u, t ≠ u → 0 < (s.hold t).writes → s.hold u = .none

/-- A writer is alone; the lock counts every hold for read and, together with the upgrade and the
writer that wait for readers, every hold for write; a sleeper waits for something that holds. -/
structure Safe (s : State T) : Prop where
  exclusive : Exclusive s
  reads : s.lock.readCount.toNat = ∑ t, (s.hold t).reads
  writes : ∑ t, (s.hold t).writes + ∑ t, (s.pc t).upgrading + ∑ t, (s.pc t).writing =
    s.lock.recursionDepth.toNat + s.lock.wantUpgrade.toNat + s.lock.wantWrite.toNat
  sleeping : ∀ t loop, s.pc t = .blocked loop .asleep → loop.cond s.lock = true

/-- A turn of `lock_read_to_write`. -/
def Act.Upgrades : Act → Prop
  | .call .readToWrite => True
  | .resume .upgrade _ => True
  | _ => False

/-- A turn of `lock_try_read_to_write`. -/
def Act.TryUpgrades : Act → Prop
  | .call .tryReadToWrite => True
  | .resume .tryUpgrade _ => True
  | _ => False

/-- A turn leaves the holds of the other threads; an upgrade that it reports as failed leaves the
thread without a hold, or from `lock_try_read_to_write` with the hold for read it had. -/
structure Reported (s : State T) (t : T) (act : Act) (o : Outcome) (s' : State T) : Prop where
  others : ∀ u, u ≠ t → s'.hold u = s.hold u
  upgrade : act.Upgrades → o = .returned (some true) → s'.hold t = .none
  tryUpgrade : act.TryUpgrades → o = .returned (some false) →
    s'.hold t = s.hold t ∧ 0 < (s.hold t).reads

theorem Inv.safe (hi : Inv s) : Safe s where
  exclusive t u htu hpos := by
    obtain ⟨hreads, hwrites, -⟩ := (hi.apart t).left hpos
    obtain ⟨⟨hr, hw⟩, -, -⟩ := s.mine_le_rest htu.symm
    rw [hreads] at hr
    rw [hwrites] at hw
    calc s.hold u = ⟨(s.hold u).reads, (s.hold u).writes⟩ := rfl
      _ = ⟨0, 0⟩ := congrArg₂ Hold.mk (Nat.le_zero.mp hr) (Nat.le_zero.mp hw)
  reads := hi.tallied.reads
  writes := hi.tallied.writes
  sleeping t loop hpc := (hi.sleeping t loop hpc).1

theorem Inv.init : Inv (State.init : State T) where
  tallied := by
    refine ⟨?_, ?_, ?_, ?_, ?_⟩ <;>
      simp [State.init, State.total, State.mine, share, lockInit, Hold.none, Pc.upgrading,
        Pc.writing]
  apart t := ⟨nofun, fun _ => ⟨rfl, rfl, rfl⟩⟩
  sleeping t loop h := nomatch h

omit [Fintype T] in
theorem Step.reported {act : Act} {o : Outcome} (hs : act.Sound s t)
    (h : Step spins s t act o s') : Reported s t act o s' := by
  cases h with
  | call op turn hout hmay hrun =>
    refine ⟨fun u hut => if_neg hut, ?_, ?_⟩
    · intro hup ho
      cases op with
      | readToWrite =>
        cases hrun
        obtain ⟨ht, hu⟩ := lockReadToWrite_failed ho
        have hone : s.hold t = ⟨1, 0⟩ := hs.2 ht hu
        simp only [State.after, if_true, ho, hone]
        rfl
      | _ => exact hup.elim
    · intro hup ho
      cases op with
      | tryReadToWrite =>
        cases hrun
        refine ⟨?_, hmay⟩
        simp only [State.after, if_true, ho]
        rfl
      | _ => exact hup.elim
  | resume loop wait hpc hwait =>
    refine ⟨fun u hut => if_neg hut, ?_, ?_⟩
    · intro hup ho
      cases loop with
      | upgrade => exact absurd ho (resume_upgrade_ne spins s.lock wait)
      | _ => exact hup.elim
    · intro hup ho
      cases loop with
      | tryUpgrade => exact absurd ho (resume_tryUpgrade_ne spins s.lock wait)
      | _ => exact hup.elim

/-- In a run of sound turns every state is safe, and every sound turn from it reports a failed
upgrade as the routine promises. -/
theorem reached_safe (h : Reached spins (fun s t act => act.Sound s t) s) :
    Safe s ∧ ∀ t act o s', act.Sound s t → Step spins s t act o s' → Reported s t act o s' := by
  have hi : Inv s := by
    induction h with
    | init => exact .init
    | step _ hstep hs ih => exact ih.step hs hstep
  exact ⟨hi.safe, fun t act o s' hs hstep => hstep.reported hs⟩

end States

/-- A reader, a writer that waits for it, and the wakeup that lets the writer in. -/
theorem reached_safe_writer : ∃ s : State Bool,
    Reached false (fun s t act => act.Sound s t) s ∧ 0 < (s.hold true).writes ∧ Safe s := by
  have hs : Act.Sound (State.init : State Bool) false (.call .read) :=
    ⟨nofun, fun _ _ => by decide⟩
  have h₁ : Reached false (fun s t act => act.Sound s t) _ :=
    .step .init (Step.call (t := false) .read _ rfl trivial rfl) hs
  have h₂ := Reached.step h₁ (Step.call (t := true) .write _ rfl trivial rfl) (fun h => nomatch h)
  have h₃ := Reached.step h₂ (Step.call (t := false) .done _ rfl (by decide) rfl) trivial
  have h₄ := Reached.step h₃ (Step.resume (t := true) .readers .woken rfl (by decide)) nofun
  exact ⟨_, h₄, by decide, (reached_safe h₄).1⟩

/-- The owner of a recursive lock gives up the write lock for a read lock; another thread reads;
the owner writes. -/
theorem not_reached_safe :
    ¬ ∀ s : State Bool, Reached false (fun _ _ _ => True) s → Exclusive s := by
  intro hall
  have h₁ : Reached false (fun _ _ _ => True) _ :=
    .step .init (Step.call (t := true) .write _ rfl trivial rfl) trivial
  have h₂ := Reached.step h₁ (Step.call (t := true) .setRecursive _ rfl trivial rfl) trivial
  have h₃ := Reached.step h₂ (Step.call (t := true) .writeToRead _ rfl (by decide) rfl) trivial
  have h₄ := Reached.step h₃ (Step.call (t := false) .read _ rfl trivial rfl) trivial
  have h₅ := Reached.step h₄ (Step.call (t := true) .write _ rfl trivial rfl) trivial
  exact absurd (hall _ h₅ true false (by decide) (by decide)) (by decide)

end KernLock
