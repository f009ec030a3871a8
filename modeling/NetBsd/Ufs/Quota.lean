import Mathlib.Data.List.Basic
import Mathlib.Logic.Function.Basic
import Mathlib.Data.Int.Basic
import Mathlib.Tactic.Common

/-!
# Block quotas

`chkdq` and `chkdqchg` of `ufs/ufs_quota.c` for any number of processes that share user and group
quotas. `u_long` and `long` are words of 32 bits. A process loses the processor only where it
sleeps for `DQ_LOCK`, which `dqsync` and `dqget` hold while they write or read the quota file.

## Main definitions

* `Dquot`, `Call`: a quota record, and what a call of `chkdq` is about
* `chkdqchg`, `permitted`: the check of a charge against one record, and against both
* `sweep`: the two loops that change the records and may sleep
* `Act`, `step`: what the processes and the quota file do, one at a time
* `Roomy`: a step that leaves room for the charges that are permitted but not made yet

## Main results

* `step_inv`: a step that leaves room keeps room for every permitted charge
* `chkdq_bounded`: in runs of such steps no charge reaches a hard limit, and a call that fails
  charges nothing
-/

namespace Quota

variable {ι π : Type}

/-! ## Records and calls -/

/-- The part of the record in the quota file that is about blocks. -/
structure Dqblk where
  bhardlimit : BitVec 32
  bsoftlimit : BitVec 32
  curblocks : BitVec 32
  btime : BitVec 32
  deriving DecidableEq, Repr

/-- `struct dquot`: the flags `DQ_LOCK`, `DQ_WANT`, `DQ_MOD`, `DQ_BLKS` and the record. -/
structure Dquot extends Dqblk where
  lock : Bool
  want : Bool
  mod : Bool
  blks : Bool
  deriving DecidableEq, Repr

/-- `MAXQUOTAS` types: 0 is `USRQUOTA`, 1 is `GRPQUOTA`. -/
abbrev QuotaType : Type := Fin 2

/-- `quotatypes`, from `INITQFNAMES`. -/
def quotatypes : QuotaType → String
  | 0 => "user"
  | 1 => "group"

/-- A call of `chkdq`: the inode with its records and its mount, the credential, the change in
blocks and `FORCE`. A user record is never a group record. -/
structure Call (ι : Type) where
  iDquot : QuotaType → Option ι
  iUid : ℕ
  fsmnt : String
  umBtime : QuotaType → BitVec 32
  crUid : ℕ
  change : BitVec 32
  force : Bool
  apart : ∀ d, iDquot 0 = some d → iDquot 1 ≠ some d

/-- `EDQUOT`. -/
def edquot : ℕ := 69

/-- What `chkdqchg` returns, the record it leaves and what it prints. -/
structure Checked where
  error : ℕ
  dq : Dquot
  said : List String

/-- A refusal is printed once, to the owner of the file. -/
def refuse (c : Call ι) (dq : Dquot) (text : String) : Checked :=
  if dq.blks = false ∧ c.iUid = c.crUid then ⟨edquot, { dq with blks := true }, [text]⟩
  else ⟨edquot, dq, []⟩

/-- `chkdqchg`; the comparisons with the limits are of unsigned words. -/
def chkdqchg (c : Call ι) (type : QuotaType) (now : BitVec 32) (dq : Dquot) : Checked :=
  let ncurblocks := dq.curblocks + c.change
  if dq.bhardlimit ≤ ncurblocks ∧ dq.bhardlimit ≠ 0 then
    refuse c dq ("\n" ++ c.fsmnt ++ ": write failed, " ++ quotatypes type ++ " disk limit reached\n")
  else if dq.bsoftlimit ≤ ncurblocks ∧ dq.bsoftlimit ≠ 0 then
    if dq.curblocks < dq.bsoftlimit then
      ⟨0, { dq with btime := now + c.umBtime type },
        if c.iUid = c.crUid then
          ["\n" ++ c.fsmnt ++ ": warning, " ++ quotatypes type ++ " disk quota exceeded\n"]
        else []⟩
    else if dq.btime.slt now then
      refuse c dq ("\n" ++ c.fsmnt ++ ": write failed, " ++ quotatypes type ++
        " disk quota exceeded too long\n")
    else ⟨0, dq, []⟩
  else ⟨0, dq, []⟩

/-- The change goes through without a check. -/
def Call.exempt (c : Call ι) : Bool := c.change.slt 0 || c.force || c.crUid = 0

/-- What a call does to one record. -/
def Call.move (c : Call ι) (dq : Dquot) : Dquot :=
  let ncurblocks := dq.curblocks + c.change
  if c.change.slt 0 then
    { dq with curblocks := if ncurblocks.slt 0 then 0 else ncurblocks, blks := false, mod := true }
  else { dq with curblocks := ncurblocks, mod := true }

section Loops

variable [DecidableEq ι]

/-- The loop of checks, which does not sleep: what it returns, the records and the output. -/
def permitted (c : Call ι) (now : BitVec 32) :
    List QuotaType → (ι → Dquot) → ℕ × (ι → Dquot) × List String
  | [], dq => (0, dq, [])
  | i :: l, dq =>
    match c.iDquot i with
    | none => permitted c now l dq
    | some d =>
      let r := chkdqchg c i now (dq d)
      let dq := Function.update dq d r.dq
      if r.error ≠ 0 then (r.error, dq, r.said)
      else
        let rest := permitted c now l dq
        (rest.1, rest.2.1, r.said ++ rest.2.2)

/-- The loop that changes the records: the records, and the types that are left when it sleeps for
the first of them. -/
def sweep (c : Call ι) : List QuotaType → (ι → Dquot) → (ι → Dquot) × List QuotaType
  | [], dq => (dq, [])
  | i :: l, dq =>
    match c.iDquot i with
    | none => sweep c l dq
    | some d =>
      if (dq d).lock then (Function.update dq d { dq d with want := true }, i :: l)
      else sweep c l (Function.update dq d (c.move (dq d)))

end Loops

/-! ## Processes -/

/-- A process sleeps in a call, or has been woken up in it, with the types that are left. -/
inductive Proc (ι : Type) where
  | idle
  | sleeping (c : Call ι) (types : List QuotaType)
  | woken (c : Call ι) (types : List QuotaType)

structure State (ι π : Type) where
  dq : ι → Dquot
  proc : π → Proc ι
  now : BitVec 32
  said : List String

/-- A process calls `chkdq`, or goes on in it when it has been woken up. `dqsync` locks a record to
write it and unlocks it; `dqget` takes a record for another identifier and locks it, and unlocks it
with what it has read. Time passes. -/
inductive Act (ι π : Type) where
  | chkdq (p : π) (c : Call ι)
  | resume (p : π)
  | sync (d : ι)
  | synced (d : ι)
  | get (d : ι)
  | got (d : ι) (dqb : Dqblk)
  | tick (now : BitVec 32)

/-- What a step of `chkdq` did: the call, the records it changed, and the value it returned when it
did return. -/
structure Out (ι : Type) where
  call : Call ι
  moved : List ι
  ret : Option ℕ

/-- The records of a call. -/
def dquots (c : Call ι) (l : List QuotaType) : List ι := l.filterMap c.iDquot

/-- The records that a call changes before it sleeps. -/
def reached (c : Call ι) (l : List QuotaType) (dq : ι → Dquot) : List ι :=
  (dquots c l).takeWhile fun d => !(dq d).lock

/-- `wakeup` on a record. -/
def wakeup [DecidableEq ι] (d : ι) : Proc ι → Proc ι
  | .sleeping c (i :: l) => if c.iDquot i = some d then .woken c (i :: l) else .sleeping c (i :: l)
  | p => p

section Step

variable [DecidableEq ι] [DecidableEq π]

/-- A process runs in the loop that changes the records. -/
def runOn (s : State ι π) (p : π) (c : Call ι) (l : List QuotaType) : State ι π × Option (Out ι) :=
  let r := sweep c l s.dq
  ({ s with
      dq := r.1
      proc := Function.update s.proc p (if r.2 = [] then .idle else .sleeping c r.2) },
    some ⟨c, reached c l s.dq, if r.2 = [] then some 0 else none⟩)

/-- A call up to its first sleep. -/
def chkdq (s : State ι π) (p : π) (c : Call ι) : State ι π × Option (Out ι) :=
  if c.change = 0 then (s, some ⟨c, [], some 0⟩)
  else if c.exempt then runOn s p c [0, 1]
  else
    let r := permitted c s.now [0, 1] s.dq
    let s := { s with dq := r.2.1, said := s.said ++ r.2.2 }
    if r.1 ≠ 0 then (s, some ⟨c, [], some r.1⟩) else runOn s p c [0, 1]

/-- The unlocking of a record, which wakes up who wants it. -/
def unlock (s : State ι π) (d : ι) (dq : Dquot) : State ι π :=
  { s with
    dq := Function.update s.dq d dq
    proc := if (s.dq d).want then fun p => wakeup d (s.proc p) else s.proc }

/-- One step; `none` when it cannot be taken. -/
def step (s : State ι π) : Act ι π → Option (State ι π × Option (Out ι))
  | .chkdq p c =>
    match s.proc p with
    | .idle => some (chkdq s p c)
    | _ => none
  | .resume p =>
    match s.proc p with
    | .woken c l => some (runOn s p c l)
    | _ => none
  | .sync d =>
    if (s.dq d).lock = false ∧ (s.dq d).mod then
      some ({ s with dq := Function.update s.dq d { s.dq d with lock := true } }, none)
    else none
  | .synced d =>
    if (s.dq d).lock then
      some (unlock s d { s.dq d with lock := false, want := false, mod := false }, none)
    else none
  | .get d =>
    if (s.dq d).lock = false then
      let dq := { s.dq d with lock := true, want := false, mod := false, blks := false }
      some ({ s with dq := Function.update s.dq d dq }, none)
    else none
  | .got d dqb =>
    if (s.dq d).lock then some (unlock s d ⟨dqb, false, false, false, false⟩, none) else none
  | .tick now => some ({ s with now := now }, none)

end Step

/-! ## Room -/

/-- A record is below its hard limit, if it has one. -/
def Dqblk.Below (dq : Dqblk) : Prop := dq.bhardlimit ≠ 0 → dq.curblocks < dq.bhardlimit

/-- The change of a call would leave a record below its hard limit. -/
def Room (c : Call ι) (dq : Dqblk) : Prop :=
  dq.bhardlimit ≠ 0 → dq.curblocks + c.change < dq.bhardlimit

/-- The records agree in what the check of the hard limit reads. -/
structure SameBlocks (a b : Dquot) : Prop where
  curblocks : b.curblocks = a.curblocks
  bhardlimit : b.bhardlimit = a.bhardlimit
  lock : b.lock = a.lock

theorem SameBlocks.refl (a : Dquot) : SameBlocks a a := ⟨rfl, rfl, rfl⟩

theorem SameBlocks.trans {a b c : Dquot} (h : SameBlocks a b) (h' : SameBlocks b c) :
    SameBlocks a c :=
  ⟨h'.curblocks.trans h.curblocks, h'.bhardlimit.trans h.bhardlimit, h'.lock.trans h.lock⟩

theorem SameBlocks.room {a b : Dquot} {c : Call ι} (h : SameBlocks a b) (hr : Room c a.toDqblk) :
    Room c b.toDqblk := by
  rw [Room, h.curblocks, h.bhardlimit]
  exact hr

/-- A charge of a record that has room for it leaves the record below its hard limit. -/
theorem move_below {c : Call ι} {dq : Dquot} (hpos : c.change.slt 0 = false)
    (h : Room c dq.toDqblk) : (c.move dq).Below := by
  rw [Call.move, hpos]
  exact h

theorem move_lock (c : Call ι) (dq : Dquot) : (c.move dq).lock = dq.lock := by
  rw [Call.move]
  split <;> rfl

/-- What a call makes of two records that agree agrees. -/
theorem SameBlocks.move {a b : Dquot} (h : SameBlocks a b) (c : Call ι) :
    SameBlocks (c.move a) (c.move b) := by
  rw [Call.move, Call.move, h.curblocks]
  split <;> exact ⟨rfl, h.bhardlimit, h.lock⟩

/-! ## The check -/

theorem refuse_same (c : Call ι) (dq : Dquot) (text : String) :
    SameBlocks dq (refuse c dq text).dq := by
  rw [refuse]
  split <;> exact ⟨rfl, rfl, rfl⟩

theorem refuse_error (c : Call ι) (dq : Dquot) (text : String) :
    (refuse c dq text).error = edquot := by
  rw [refuse]
  split <;> rfl

theorem chkdqchg_same (c : Call ι) (type : QuotaType) (now : BitVec 32) (dq : Dquot) :
    SameBlocks dq (chkdqchg c type now dq).dq := by
  rw [chkdqchg]
  split
  · exact refuse_same c dq _
  · split
    · split
      · exact ⟨rfl, rfl, rfl⟩
      · split
        · exact refuse_same c dq _
        · exact SameBlocks.refl dq
    · exact SameBlocks.refl dq

/-- A charge that is not refused has room. -/
theorem chkdqchg_room {c : Call ι} {type : QuotaType} {now : BitVec 32} {dq : Dquot}
    (h : (chkdqchg c type now dq).error = 0) : Room c dq.toDqblk := by
  intro hlimit
  rw [chkdqchg] at h
  split at h
  · exact absurd ((refuse_error c dq _).symm.trans h) (by decide)
  next hover =>
    rw [← BitVec.not_le]
    exact fun hle => hover ⟨hle, hlimit⟩

section Loops

variable {c : Call ι} {now : BitVec 32} {l : List QuotaType} {dq : ι → Dquot}

theorem reached_cons_none {i : QuotaType} (h : c.iDquot i = none) :
    reached c (i :: l) dq = reached c l dq := by
  rw [reached, dquots, List.filterMap_cons_none h]
  rfl

theorem reached_cons_locked {i : QuotaType} {d : ι} (h : c.iDquot i = some d)
    (hlock : (dq d).lock = true) : reached c (i :: l) dq = [] := by
  rw [reached, dquots, List.filterMap_cons_some h, List.takeWhile_cons_of_neg (by simp [hlock])]

theorem reached_cons_open {i : QuotaType} {d : ι} (h : c.iDquot i = some d)
    (hlock : (dq d).lock = false) : reached c (i :: l) dq = d :: reached c l dq := by
  rw [reached, dquots, List.filterMap_cons_some h, List.takeWhile_cons_of_pos (by simp [hlock])]
  rfl

theorem reached_subset {d : ι} (h : d ∈ reached c l dq) : d ∈ dquots c l :=
  (List.takeWhile_sublist _).subset h

/-- Only the locks matter for how far the loop gets. -/
theorem reached_congr {dq' : ι → Dquot} (h : ∀ d, (dq' d).lock = (dq d).lock) :
    reached c l dq' = reached c l dq := by
  rw [reached, reached]
  congr 1
  funext d
  rw [h]

/-- A call never comes to one record twice. -/
theorem dquots_nodup (h : l <:+ [0, 1]) : (dquots c l).Nodup := by
  have hboth : (dquots c [0, 1]).Nodup := by
    have hapart := c.apart
    rw [dquots, List.filterMap_cons, List.filterMap_cons]
    cases h0 : c.iDquot 0 with
    | none => cases h1 : c.iDquot 1 <;> simp
    | some d =>
      cases h1 : c.iDquot 1 with
      | none => simp
      | some e =>
        have hne : d ≠ e := by
          rintro rfl
          exact hapart d h0 h1
        simp [hne]
  exact hboth.sublist (h.sublist.filterMap _)

variable [DecidableEq ι]

theorem SameBlocks.update {a : Dquot} {d : ι} (h : SameBlocks (dq d) a) (e : ι) :
    SameBlocks (dq e) (Function.update dq d a e) := by
  by_cases he : e = d
  · subst he
    rw [Function.update_self]
    exact h
  · rw [Function.update_of_ne he]
    exact SameBlocks.refl _

/-- The checks change no usage and no limit. -/
theorem permitted_same (d : ι) : SameBlocks (dq d) ((permitted c now l dq).2.1 d) := by
  induction l generalizing dq with
  | nil => exact SameBlocks.refl _
  | cons i l ih =>
    rw [permitted]
    split
    · exact ih
    next d' _ =>
      have hone := (chkdqchg_same c i now (dq d')).update d
      dsimp only
      split
      · exact hone
      · exact hone.trans ih

/-- A call that is permitted has room in all its records. -/
theorem permitted_room (h : (permitted c now l dq).1 = 0) {d : ι} (hd : d ∈ dquots c l) :
    Room c (dq d).toDqblk := by
  induction l generalizing dq with
  | nil => cases hd
  | cons i l ih =>
    rw [permitted] at h
    split at h
    next hnone =>
      rw [dquots, List.filterMap_cons_none hnone] at hd
      exact ih h hd
    next d' hsome =>
      dsimp only at h
      split at h
      next herr => exact absurd h herr
      next herr =>
        rw [dquots, List.filterMap_cons_some hsome, List.mem_cons] at hd
        rcases hd with rfl | hd
        · exact chkdqchg_room (not_not.mp herr)
        · have hrest := ih h hd
          have hsame := (chkdqchg_same c i now (dq d')).update d
          rw [Room, hsame.curblocks, hsame.bhardlimit] at hrest
          exact hrest

/-! ## The loop that changes the records -/

/-- The loop changes the records that it reaches, each once, and no others; where it sleeps, those
that are left have not been reached. -/
theorem sweep_spec (hnd : (dquots c l).Nodup) :
    (∀ d ∈ reached c l dq, SameBlocks (c.move (dq d)) ((sweep c l dq).1 d)) ∧
      (∀ d ∉ reached c l dq, SameBlocks (dq d) ((sweep c l dq).1 d)) ∧
      (sweep c l dq).2 <:+ l ∧
      ∀ d ∈ dquots c (sweep c l dq).2, d ∉ reached c l dq := by
  induction l generalizing dq with
  | nil => exact ⟨fun d hd => (by cases hd), fun d _ => SameBlocks.refl _, List.suffix_rfl,
      fun d hd => (by cases hd)⟩
  | cons i l ih =>
    rw [sweep]
    split
    next hnone =>
      rw [dquots, List.filterMap_cons_none hnone] at hnd
      rw [reached_cons_none hnone]
      rcases ih hnd with ⟨hmove, hkeep, hsuffix, hleft⟩
      exact ⟨hmove, hkeep, hsuffix.trans (List.suffix_cons i l), hleft⟩
    next d hsome =>
      rw [dquots, List.filterMap_cons_some hsome, List.nodup_cons] at hnd
      rcases hnd with ⟨hd, hnd⟩
      split
      next hlock =>
        rw [reached_cons_locked hsome hlock]
        refine ⟨fun e he => (by cases he), fun e _ => ?_, List.suffix_rfl,
          fun e _ he => (by cases he)⟩
        have hwant : SameBlocks (dq d) { dq d with want := true } := ⟨rfl, rfl, rfl⟩
        exact hwant.update e
      next hlock =>
        rw [Bool.not_eq_true] at hlock
        rw [reached_cons_open hsome hlock]
        have hsame : reached c l (Function.update dq d (c.move (dq d))) = reached c l dq := by
          apply reached_congr
          intro e
          by_cases he : e = d
          · rw [he, Function.update_self, move_lock]
          · rw [Function.update_of_ne he]
        rcases @ih (Function.update dq d (c.move (dq d))) hnd with ⟨hmove, hkeep, hsuffix, hleft⟩
        rw [hsame] at hmove hkeep hleft
        have hout : d ∉ reached c l dq := fun hmem => hd (reached_subset hmem)
        refine ⟨?_, ?_, hsuffix.trans (List.suffix_cons i l), ?_⟩
        · intro e he
          rcases List.mem_cons.mp he with heq | hmem
          · have hone := hkeep d hout
            rw [Function.update_self] at hone
            rw [heq]
            exact hone
          · have hne : e ≠ d := by
              rintro rfl
              exact hout hmem
            have hone := hmove e hmem
            rw [Function.update_of_ne hne] at hone
            exact hone
        · intro e he
          rw [List.mem_cons, not_or] at he
          have hone := hkeep e he.2
          rw [Function.update_of_ne he.1] at hone
          exact hone
        · intro e he hmem
          rcases List.mem_cons.mp hmem with rfl | hmem
          · exact hd ((hsuffix.sublist.filterMap _).subset he)
          · exact hleft e he hmem

end Loops

/-! ## Runs -/

/-- The call that a process sleeps in, and the types that are left. -/
def Proc.left : Proc ι → Option (Call ι × List QuotaType)
  | .idle => none
  | .sleeping c l => some (c, l)
  | .woken c l => some (c, l)

/-- The record `dqb` for `d` has room for the charge that the process was permitted to make. -/
def Proc.Fits (pr : Proc ι) (d : ι) (dqb : Dqblk) : Prop :=
  ∀ c l, pr.left = some (c, l) → c.exempt = false → d ∈ dquots c l → Room c dqb

/-- Room stays in a record whose usage and limit stay. -/
theorem Proc.Fits.congr {pr : Proc ι} {d : ι} {a b : Dquot} (h : pr.Fits d a.toDqblk)
    (hs : SameBlocks a b) : pr.Fits d b.toDqblk :=
  fun c l hleft hex hd => hs.room (h c l hleft hex hd)

/-- Every charge that was permitted and is not made yet has room in its records. -/
structure Inv (s : State ι π) : Prop where
  types : ∀ p c l, (s.proc p).left = some (c, l) → l <:+ [0, 1]
  fits : ∀ p d, (s.proc p).Fits d (s.dq d).toDqblk

theorem Inv.same {s s' : State ι π} (h : Inv s)
    (hproc : ∀ p, (s'.proc p).left = (s.proc p).left)
    (hdq : ∀ p d, (s.proc p).Fits d (s'.dq d).toDqblk) : Inv s' where
  types := fun p c l hl => h.types p c l (hproc p ▸ hl)
  fits := fun p d c l hl => hdq p d c l (hproc p ▸ hl)

section Runs

variable [DecidableEq ι] [DecidableEq π] {s s' s₀ : State ι π} {act : Act ι π} {out : Out ι}
  {c : Call ι} {l : List QuotaType} {p : π}

/-- A call comes to the loop that changes the records. -/
def Goes (s : State ι π) (c : Call ι) : Prop :=
  c.change ≠ 0 ∧ (c.exempt = true ∨ (permitted c s.now [0, 1] s.dq).1 = 0)

/-- A step leaves room for the charges that are permitted but not made yet: when it changes a
record, for those of all other processes; when a record is read from the quota file, for those of
all processes. -/
def Roomy (s : State ι π) : Act ι π → Prop
  | .chkdq p c => Goes s c → ∀ d ∈ reached c [0, 1] s.dq, ∀ q ≠ p,
      (s.proc q).Fits d (c.move (s.dq d)).toDqblk
  | .resume p => ∀ c l, s.proc p = .woken c l → ∀ d ∈ reached c l s.dq, ∀ q ≠ p,
      (s.proc q).Fits d (c.move (s.dq d)).toDqblk
  | .got d dqb => ∀ q, (s.proc q).Fits d dqb
  | _ => True

/-- The loop leaves room for the charges of the others, and no record at its limit. -/
theorem runOn_inv (h : Inv s) (hl : l <:+ [0, 1])
    (hown : c.exempt = false → ∀ d ∈ dquots c l, Room c (s.dq d).toDqblk)
    (hroom : ∀ d ∈ reached c l s.dq, ∀ q ≠ p, (s.proc q).Fits d (c.move (s.dq d)).toDqblk) :
    Inv (runOn s p c l).1 ∧
      (c.exempt = false → ∀ d ∈ reached c l s.dq, ((runOn s p c l).1.dq d).Below) := by
  rcases @sweep_spec ι c l s.dq _ (dquots_nodup hl) with ⟨hmove, hkeep, hsuffix, hleft⟩
  have hself : ∀ c' l', ((runOn s p c l).1.proc p).left = some (c', l') →
      c' = c ∧ l' = (sweep c l s.dq).2 := by
    intro c' l' hc
    simp only [runOn, Function.update_self] at hc
    split at hc
    · cases hc
    · cases hc
      exact ⟨rfl, rfl⟩
  have hother : ∀ q ≠ p, (runOn s p c l).1.proc q = s.proc q :=
    fun q hq => Function.update_of_ne hq _ _
  refine ⟨⟨?_, ?_⟩, ?_⟩
  · intro q c' l' hq
    by_cases hqp : q = p
    · rw [hqp] at hq
      rcases hself c' l' hq with ⟨rfl, rfl⟩
      exact hsuffix.trans hl
    · rw [hother q hqp] at hq
      exact h.types q c' l' hq
  · intro q d
    by_cases hqp : q = p
    · intro c' l' hq hex hd
      rw [hqp] at hq
      rcases hself c' l' hq with ⟨rfl, rfl⟩
      have hmem : d ∈ dquots c' l := (hsuffix.sublist.filterMap _).subset hd
      exact (hkeep d (hleft d hd)).room (hown hex d hmem)
    · rw [hother q hqp]
      by_cases hd : d ∈ reached c l s.dq
      · exact (hroom d hd q hqp).congr (hmove d hd)
      · exact (h.fits q d).congr (hkeep d hd)
  · intro hex d hd hlimit
    have hpos : c.change.slt 0 = false := by
      simp only [Call.exempt, Bool.or_eq_false_iff] at hex
      exact hex.1.1
    have hbelow := move_below hpos (hown hex d (reached_subset hd))
    have hsame := hmove d hd
    change (_ : BitVec 32) < _
    change ((sweep c l s.dq).1 d).bhardlimit ≠ 0 at hlimit
    rw [show (runOn s p c l).1.dq d = (sweep c l s.dq).1 d from rfl, hsame.curblocks,
      hsame.bhardlimit]
    rw [hsame.bhardlimit] at hlimit
    exact hbelow hlimit

/-- Waking up changes nothing that is left to do. -/
theorem wakeup_left (d : ι) (pr : Proc ι) : (wakeup d pr).left = pr.left := by
  rw [wakeup.eq_def]
  split
  · split <;> rfl
  · rfl

omit [DecidableEq π] in
theorem unlock_inv {d : ι} {dq : Dquot} (h : Inv s) (hdq : ∀ p, (s.proc p).Fits d dq.toDqblk) :
    Inv (unlock s d dq) := by
  apply h.same
  · intro p
    rw [unlock]
    split
    · exact wakeup_left d _
    · rfl
  · intro p e
    change (s.proc p).Fits e (Function.update s.dq d dq e).toDqblk
    by_cases he : e = d
    · rw [he, Function.update_self]
      exact hdq p
    · rw [Function.update_of_ne he]
      exact h.fits p e

/-- What a call does in one step: no charge that needs permission leaves a record at its hard limit
or over it, and a step that returns an error is the whole call and changes no usage. -/
structure Bounded (s : State ι π) (act : Act ι π) (s' : State ι π) (out : Out ι) : Prop where
  below : out.call.exempt = false → ∀ d ∈ out.moved, (s'.dq d).Below
  whole : ∀ r, out.ret = some r → r ≠ 0 → ∃ p, act = .chkdq p out.call
  failed : ∀ r, out.ret = some r → r ≠ 0 → ∀ d, (s'.dq d).curblocks = (s.dq d).curblocks

theorem runOn_ret {r : ℕ} (h : (runOn s p c l).2 = some out) (hr : out.ret = some r) : r = 0 := by
  cases h
  dsimp only at hr
  split at hr <;> cases hr
  rfl

/-- A step in the loop. -/
theorem runOn_bounded (h : Inv s) (hl : l <:+ [0, 1])
    (hown : c.exempt = false → ∀ d ∈ dquots c l, Room c (s.dq d).toDqblk)
    (hroom : ∀ d ∈ reached c l s.dq, ∀ q ≠ p, (s.proc q).Fits d (c.move (s.dq d)).toDqblk)
    (s₁ : State ι π) :
    Inv (runOn s p c l).1 ∧
      ∀ out, (runOn s p c l).2 = some out → Bounded s₁ act (runOn s p c l).1 out := by
  rcases runOn_inv h hl hown hroom with ⟨hinv, hbelow⟩
  refine ⟨hinv, fun out hout => ⟨?_, ?_, ?_⟩⟩
  · cases hout
    exact hbelow
  · exact fun r hr hne => absurd (runOn_ret hout hr) hne
  · exact fun r hr hne => absurd (runOn_ret hout hr) hne

theorem chkdq_inv (h : Inv s) (hroom : Roomy s (.chkdq p c)) :
    Inv (chkdq s p c).1 ∧
      ∀ out, (chkdq s p c).2 = some out → Bounded s (.chkdq p c) (chkdq s p c).1 out := by
  rw [chkdq]
  split
  · refine ⟨h, fun out hout => ?_⟩
    cases hout
    exact ⟨fun _ d hd => (by cases hd), fun _ _ _ => ⟨p, rfl⟩, fun _ _ _ _ => rfl⟩
  next hne =>
    split
    next hex =>
      refine runOn_bounded h List.suffix_rfl (fun hnot => ?_) (hroom ⟨hne, Or.inl hex⟩) s
      exact absurd (hex.symm.trans hnot) (by decide)
    next hex =>
      have hsame := @permitted_same ι c s.now [0, 1] s.dq _
      have hafter : ∀ said, Inv { s with dq := (permitted c s.now [0, 1] s.dq).2.1, said := said } :=
        fun said => h.same (fun _ => rfl) fun q d => (h.fits q d).congr (hsame d)
      dsimp only
      split
      · refine ⟨hafter _, fun out hout => ?_⟩
        cases hout
        exact ⟨fun _ d hd => (by cases hd), fun _ _ _ => ⟨p, rfl⟩,
          fun _ _ _ d => (hsame d).curblocks⟩
      next hok =>
        rw [not_not] at hok
        refine runOn_bounded (hafter _) List.suffix_rfl (fun _ d hd => ?_) (fun d hd q hq => ?_) s
        · exact (hsame d).room (permitted_room hok hd)
        · have hreach : reached c [0, 1] (permitted c s.now [0, 1] s.dq).2.1 =
              reached c [0, 1] s.dq := reached_congr fun e => (hsame e).lock
          change d ∈ reached c [0, 1] (permitted c s.now [0, 1] s.dq).2.1 at hd
          rw [hreach] at hd
          exact (hroom ⟨hne, Or.inr hok⟩ d hd q hq).congr ((hsame d).move c)

omit [DecidableEq π] in
/-- A record that is locked keeps its room. -/
theorem update_inv {d : ι} {dq : Dquot} (h : Inv s) (hdq : dq.toDqblk = (s.dq d).toDqblk) :
    Inv { s with dq := Function.update s.dq d dq } := by
  refine ⟨h.types, fun p e => ?_⟩
  change (s.proc p).Fits e (Function.update s.dq d dq e).toDqblk
  by_cases he : e = d
  · rw [he, Function.update_self, hdq]
    exact h.fits p d
  · rw [Function.update_of_ne he]
    exact h.fits p e

/-- A step that leaves room keeps the invariant and its bounds. -/
theorem step_inv {o : Option (Out ι)} (h : Inv s) (hroom : Roomy s act)
    (hs : step s act = some (s', o)) :
    Inv s' ∧ ∀ out, o = some out → Bounded s act s' out := by
  cases act with
  | chkdq p c =>
    simp only [step] at hs
    split at hs
    · have hinv := chkdq_inv h hroom
      rw [Option.some.inj hs] at hinv
      exact hinv
    · cases hs
  | resume p =>
    simp only [step] at hs
    split at hs
    next c l hp =>
      have hleft : (s.proc p).left = some (c, l) := by rw [hp]; rfl
      have hinv := @runOn_bounded ι π _ _ s (.resume p) c l p h (h.types p c l hleft)
        (fun hex d hd => h.fits p d c l hleft hex hd) (hroom c l hp) s
      rw [Option.some.inj hs] at hinv
      exact hinv
    · cases hs
  | sync d =>
    simp only [step] at hs
    split at hs <;> cases hs
    exact ⟨update_inv h rfl, nofun⟩
  | synced d =>
    simp only [step] at hs
    split at hs <;> cases hs
    exact ⟨unlock_inv h fun p => h.fits p d, nofun⟩
  | get d =>
    simp only [step] at hs
    split at hs <;> cases hs
    exact ⟨update_inv h rfl, nofun⟩
  | got d dqb =>
    simp only [step] at hs
    split at hs <;> cases hs
    exact ⟨unlock_inv h hroom, nofun⟩
  | tick now =>
    cases hs
    exact ⟨⟨h.types, h.fits⟩, nofun⟩

/-- The runs from `s₀` in which every step has `ok`. -/
inductive Run (ok : State ι π → Act ι π → Prop) (s₀ : State ι π) : State ι π → Prop
  | start : Run ok s₀ s₀
  | step {s s' : State ι π} {act : Act ι π} {o : Option (Out ι)} (h : Run ok s₀ s) (hok : ok s act)
      (hs : step s act = some (s', o)) : Run ok s₀ s'

theorem Run.inv (h₀ : ∀ p, s₀.proc p = .idle) (h : Run Roomy s₀ s) : Inv s := by
  induction h with
  | start =>
    have hleft (p : π) : (s₀.proc p).left = none := by rw [h₀ p]; rfl
    constructor
    · intro p c l hl
      rw [hleft] at hl
      cases hl
    · intro p d c l hl
      rw [hleft] at hl
      cases hl
  | step h hok hs ih => exact (step_inv ih hok hs).1

/-- In a run whose steps leave room for the charges that are permitted but not made yet, no charge
that needs permission reaches a hard limit, and a call that fails charges nothing. -/
theorem chkdq_bounded (h₀ : ∀ p, s₀.proc p = .idle) (h : Run Roomy s₀ s) (hroom : Roomy s act)
    (hs : step s act = some (s', some out)) : Bounded s act s' out :=
  (step_inv (h.inv h₀) hroom hs).2 out rfl

end Runs

/-- A user with a record of 5 blocks and a hard limit of 10, but no group quota, charges 4. -/
def four : Call Unit where
  iDquot := fun i => if i = 0 then some () else none
  iUid := 100
  fsmnt := "/usr"
  umBtime := fun _ => 604800
  crUid := 100
  change := 4
  force := false
  apart := fun _ _ h => by cases h

def fiveOfTen : State Unit Bool where
  dq := fun _ => ⟨⟨10, 0, 5, 0⟩, false, false, true, false⟩
  proc := fun _ => .idle
  now := 0
  said := []

/-- With nobody asleep a charge keeps its bounds. -/
theorem chkdq_bounded_four : ∃ s' out,
    step fiveOfTen (.chkdq true four) = some (s', some out) ∧ (s'.dq ()).curblocks = 9 ∧
      Bounded fiveOfTen (.chkdq true four) s' out := by
  refine ⟨_, _, rfl, rfl, chkdq_bounded (fun _ => rfl) .start (fun _ d _ q _ => ?_) rfl⟩
  exact fun c l hleft => by cases hleft

/-- Two processes that were both permitted to charge while `dqsync` held the record charge 13
blocks against a limit of 10. -/
theorem chkdq_not_bounded : ¬∀ (s₀ s s' : State Unit Bool) (act : Act Unit Bool) (out : Out Unit),
    (∀ p, s₀.proc p = .idle) → Run (fun _ _ => True) s₀ s →
      step s act = some (s', some out) → Bounded s act s' out := by
  intro h
  have locked : Run (fun _ _ => True) fiveOfTen _ :=
    .step .start trivial (show step fiveOfTen (.sync ()) = some (_, none) from rfl)
  have one := Run.step locked trivial (show step _ (.chkdq true four) = some (_, some _) from rfl)
  have both := Run.step one trivial (show step _ (.chkdq false four) = some (_, some _) from rfl)
  have unlocked := Run.step both trivial (show step _ (.synced ()) = some (_, none) from rfl)
  have first := Run.step unlocked trivial (show step _ (.resume true) = some (_, some _) from rfl)
  have hover := (h _ _ _ (.resume false) _ (fun _ => rfl) first rfl).below rfl () (by decide)
  exact absurd (hover (by decide)) (by decide)

end Quota
