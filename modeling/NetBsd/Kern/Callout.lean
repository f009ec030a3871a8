import Mathlib.Data.BitVec
import NetBsd.Lib.Alarms

/-!
# The callout list

`timeout`, `untimeout`, and the parts of `hardclock` and `softclock` that serve the callout list:
a list of pending calls, each with the ticks to it from the one before. It refines a book of
alarms with absolute deadlines.

## Main definitions

* `timeout`, `untimeout`, `hardclock`, `softclock`: the routines, one iteration of its loop for
  `softclock`
* `Run table tr s`: the runs from a callout table, with what happened and the calls made
* `absolute n l`: the entries of a list under their absolute deadlines at tick `n`

## Main results

* `Run.refines`: every run is a run of the book of alarms whose pending alarms are the entries
* `callout_refines`: a call is made for each timeout exactly once, at its deadline, unless it is
  removed
-/

namespace Callout

open Alarms

/-- `struct callout`, less the link. -/
structure Entry (F A : Type) where
  c_arg : A
  c_func : F
  c_time : BitVec 32
  deriving DecidableEq, Repr

/-- The callout lists, and whether `softclock` is still to run or running. -/
structure State (F A : Type) where
  calltodo : List (Entry F A)
  callfree : List (Entry F A)
  soft : Bool

/-- A call made by `softclock`: the function, its argument, and the time of the entry. -/
structure Call (F A : Type) where
  func : F
  arg : A
  a : BitVec 32

variable {F A : Type}

/-- The loop of `hardclock`: the list after the tick, and whether something is due. -/
def tickLoop : List (Entry F A) → List (Entry F A) × Bool
  | [] => ([], false)
  | p1 :: rest =>
    let p1 := { p1 with c_time := p1.c_time - 1 }
    if BitVec.slt 0 p1.c_time then (p1 :: rest, false)
    else if p1.c_time = 0 then (p1 :: rest, true)
    else (p1 :: (tickLoop rest).1, true)

/-- `hardclock`, as far as it serves the callout list. -/
def hardclock (s : State F A) : State F A :=
  let (todo, needsoft) := tickLoop s.calltodo
  { s with calltodo := todo, soft := s.soft || needsoft }

/-- One iteration of the loop of `softclock`: the call made, or the end of the loop. -/
def softclock (s : State F A) : State F A × Option (Call F A) :=
  match s.calltodo with
  | [] => ({ s with soft := false }, none)
  | p1 :: rest =>
    if BitVec.slt 0 p1.c_time then ({ s with soft := false }, none)
    else
      ({ s with calltodo := rest, callfree := p1 :: s.callfree },
        some ⟨p1.c_func, p1.c_arg, p1.c_time⟩)

/-- The loop of `timeout` and the linking after it: `pnew` goes in with the ticks left. -/
def insertLoop (pnew : Entry F A) (t : BitVec 32) : List (Entry F A) → List (Entry F A)
  | [] => [{ pnew with c_time := t }]
  | p2 :: rest =>
    if p2.c_time.slt t then
      p2 :: insertLoop pnew (if BitVec.slt 0 p2.c_time then t - p2.c_time else t) rest
    else
      { pnew with c_time := t } :: { p2 with c_time := p2.c_time - t } :: rest

/-- `timeout`: arrange that `func` is called with `arg` in `t` ticks. -/
def timeout (func : F) (arg : A) (t : BitVec 32) (s : State F A) : Except String (State F A) :=
  let t := if BitVec.sle t 0 then 1 else t
  match s.callfree with
  | [] => .error "timeout table overflow"
  | pnew :: free =>
    let pnew := { pnew with c_arg := arg, c_func := func }
    .ok { s with calltodo := insertLoop pnew t s.calltodo, callfree := free }

/-- Taking `p2` off the list: its time goes to the entry after it. -/
def unlink (p2 : Entry F A) (rest : List (Entry F A)) : List (Entry F A) :=
  match rest with
  | [] => []
  | c_next :: rest =>
    if BitVec.slt 0 p2.c_time then { c_next with c_time := c_next.c_time + p2.c_time } :: rest
    else c_next :: rest

/-- The loop of `untimeout`: the list without the first match, and the match. -/
def removeLoop [DecidableEq F] [DecidableEq A] (func : F) (arg : A) :
    List (Entry F A) → List (Entry F A) × Option (Entry F A)
  | [] => ([], none)
  | p2 :: rest =>
    if p2.c_func = func ∧ p2.c_arg = arg then (unlink p2 rest, some p2)
    else
      let (rest, found) := removeLoop func arg rest
      (p2 :: rest, found)

/-- `untimeout`: remove a function timeout call from the callout structure. -/
def untimeout [DecidableEq F] [DecidableEq A] (func : F) (arg : A) (s : State F A) : State F A :=
  match removeLoop func arg s.calltodo with
  | (_, none) => s
  | (todo, some p2) => { s with calltodo := todo, callfree := p2 :: s.callfree }

/-- What happens to the callout structure. -/
inductive Event (F A : Type) where
  | timeout (func : F) (arg : A) (t : BitVec 32)
  | untimeout (func : F) (arg : A)
  | hardclock
  | softclock

/-- One event: the state after it and the call made, or a panic. -/
def step [DecidableEq F] [DecidableEq A] (s : State F A) :
    Event F A → Except String (State F A × Option (Call F A))
  | .timeout func arg t => (timeout func arg t s).map (·, none)
  | .untimeout func arg => .ok (untimeout func arg s, none)
  | .hardclock => .ok (hardclock s, none)
  | .softclock => .ok (softclock s)

/-- A tick comes when `softclock` has run to its end, which runs when a tick asked for it. The
other events come at any time, also between two calls that `softclock` makes. -/
def Allowed (s : State F A) : Event F A → Prop
  | .hardclock => s.soft = false
  | .softclock => s.soft = true
  | _ => True

/-- The runs from a callout table with nothing pending: what happened, with the calls made, and
the state reached. -/
inductive Run [DecidableEq F] [DecidableEq A] (table : List (Entry F A)) :
    List (Event F A × Option (Call F A)) → State F A → Prop where
  | init : Run table [] ⟨[], table, false⟩
  | step {tr : List (Event F A × Option (Call F A))} {s s' : State F A} {e : Event F A}
      {c : Option (Call F A)} :
      Run table tr s → Allowed s e → step s e = .ok (s', c) → Run table (tr ++ [(e, c)]) s'

/-- What an event is for the book of alarms, the keys being functions with their arguments. The
end of `softclock` is nothing to it. -/
def label : Event F A × Option (Call F A) → Option (Label (F × A))
  | (.timeout func arg t, _) => some (.arm (func, arg) (max t.toInt 1).toNat)
  | (.untimeout func arg, _) => some (.cancel (func, arg))
  | (.hardclock, _) => some .tick
  | (.softclock, c) => c.map fun c => .call (c.func, c.arg)

/-! ### Absolute deadlines -/

/-- The key of an entry. -/
def Entry.key (p : Entry F A) : F × A := (p.c_func, p.c_arg)

/-- The ticks to an entry from the one before. -/
def Entry.ticks (p : Entry F A) : ℕ := p.c_time.toNat

/-- The entries under their absolute deadlines, the list starting at tick `n`. -/
def absolute : ℕ → List (Entry F A) → List ((F × A) × ℕ)
  | _, [] => []
  | n, p :: rest => (p.key, n + p.ticks) :: absolute (n + p.ticks) rest

/-- The ticks to the last entry. -/
def total : List (Entry F A) → ℕ
  | [] => 0
  | p :: rest => p.ticks + total rest

/-- The first entry, if any, is not due. -/
def Quiet : List (Entry F A) → Prop
  | [] => True
  | p :: _ => 0 < p.ticks

theorem quiet_insertLoop (pnew : Entry F A) {t : BitVec 32} {l : List (Entry F A)}
    (ht : 0 < t.toNat) (hl : Quiet l) : Quiet (insertLoop pnew t l) := by
  cases l with
  | nil => exact ht
  | cons p2 rest =>
    rw [insertLoop]
    split
    · exact hl
    · exact ht

@[simp] theorem length_absolute (n : ℕ) (l : List (Entry F A)) :
    (absolute n l).length = l.length := by
  induction l generalizing n with
  | nil => rfl
  | cons p rest ih => simp [absolute, ih]

theorem le_of_mem_absolute {n : ℕ} {l : List (Entry F A)} {x : (F × A) × ℕ}
    (h : x ∈ absolute n l) : n ≤ x.2 := by
  induction l generalizing n with
  | nil => cases h
  | cons p rest ih =>
    rcases List.mem_cons.mp h with rfl | h
    · exact Nat.le_add_right _ _
    · exact (Nat.le_add_right _ _).trans (ih h)

theorem exists_of_mem_absolute {n : ℕ} {l : List (Entry F A)} {x : (F × A) × ℕ}
    (h : x ∈ absolute n l) : ∃ p ∈ l, p.key = x.1 := by
  induction l generalizing n with
  | nil => cases h
  | cons p rest ih =>
    rcases List.mem_cons.mp h with rfl | h
    · exact ⟨p, List.mem_cons_self, rfl⟩
    · obtain ⟨q, hq, hk⟩ := ih h
      exact ⟨q, List.mem_cons_of_mem _ hq, hk⟩

/-- Words below `2 ^ 31` compare as naturals. -/
theorem slt_iff {a b : BitVec 32} (ha : a.toNat < 2 ^ 31) (hb : b.toNat < 2 ^ 31) :
    a.slt b = true ↔ a.toNat < b.toNat := by
  have ha' : a.toInt = a.toNat := by rw [BitVec.toInt_eq_toNat_of_lt (by omega)]
  have hb' : b.toInt = b.toNat := by rw [BitVec.toInt_eq_toNat_of_lt (by omega)]
  simp [BitVec.slt, ha', hb']

theorem zero_slt_iff {a : BitVec 32} (ha : a.toNat < 2 ^ 31) :
    BitVec.slt 0 a = true ↔ 0 < a.toNat := by
  rw [slt_iff (by decide) ha]
  rfl

theorem total_unlink_le {p2 : Entry F A} {rest : List (Entry F A)}
    (h : total (p2 :: rest) < 2 ^ 31) : total (unlink p2 rest) ≤ total (p2 :: rest) := by
  cases rest with
  | nil => exact Nat.zero_le _
  | cons c_next rest =>
    simp only [total, Entry.ticks] at h
    by_cases hp : 0 < p2.c_time.toNat
    · rw [unlink, if_pos ((zero_slt_iff (by omega)).mpr hp)]
      simp only [total, Entry.ticks, BitVec.toNat_add, Nat.mod_eq_of_lt
        (show c_next.c_time.toNat + p2.c_time.toNat < 2 ^ 32 by omega)]
      omega
    · rw [unlink, if_neg (fun hs => hp ((zero_slt_iff (by omega)).mp hs))]
      simp only [total, Entry.ticks]
      omega

/-- The delay `timeout` works with. -/
theorem toNat_delay (t : BitVec 32) :
    (if BitVec.sle t 0 then (1 : BitVec 32) else t).toNat = (max t.toInt 1).toNat := by
  have hsle : BitVec.sle t 0 = true ↔ t.toInt ≤ 0 := by simp [BitVec.sle]
  by_cases h : t.toInt ≤ 0
  · rw [if_pos (hsle.mpr h), max_eq_right (by omega)]
    rfl
  · rw [if_neg (fun hs => h (hsle.mp hs)), max_eq_left (by omega)]
    have := t.toInt_eq_toNat_cond
    have := t.isLt
    split at * <;> omega

theorem delay_lt (t : BitVec 32) : (max t.toInt 1).toNat < 2 ^ 31 := by
  have := t.toInt_lt
  omega

theorem toNat_sub_le {a b : BitVec 32} (h : b.toNat ≤ a.toNat) :
    (a - b).toNat = a.toNat - b.toNat := BitVec.toNat_sub_of_le (BitVec.le_def.mpr h)

/-! ### What the routines do to the deadlines -/

/-- The ticks left when the loop of `timeout` goes past an entry. -/
theorem toNat_left {p2 t : BitVec 32} (hp : p2.toNat < 2 ^ 31) (hlt : p2.toNat < t.toNat) :
    (if BitVec.slt 0 p2 then t - p2 else t).toNat = t.toNat - p2.toNat := by
  by_cases h : 0 < p2.toNat
  · rw [if_pos ((zero_slt_iff hp).mpr h), toNat_sub_le hlt.le]
  · rw [if_neg (fun hs => h ((zero_slt_iff hp).mp hs))]
    omega

/-- **`timeout` adds one deadline** and moves none. -/
theorem absolute_insertLoop (pnew : Entry F A) {n : ℕ} {t : BitVec 32} {l : List (Entry F A)}
    (ht : t.toNat < 2 ^ 31) (hl : total l < 2 ^ 31) :
    (absolute n (insertLoop pnew t l)).Perm ((pnew.key, n + t.toNat) :: absolute n l) := by
  induction l generalizing n t with
  | nil => exact List.Perm.refl _
  | cons p2 rest ih =>
    have hp : p2.c_time.toNat < 2 ^ 31 := by simp only [total, Entry.ticks] at hl; omega
    have hrest : total rest < 2 ^ 31 := by simp only [total] at hl; omega
    by_cases hlt : p2.c_time.toNat < t.toNat
    · have hleft := toNat_left hp hlt
      rw [insertLoop, if_pos ((slt_iff hp ht).mpr hlt)]
      refine List.Perm.trans (.cons _ (ih (by omega) hrest)) ?_
      -- The ticks left from here are the deadline less the ticks to here.
      have hn : n + p2.ticks + (t.toNat - p2.c_time.toNat) = n + t.toNat := by
        simp only [Entry.ticks]; omega
      rw [hleft, hn]
      exact List.Perm.swap _ _ _
    · rw [insertLoop, if_neg (fun hs => hlt ((slt_iff hp ht).mp hs))]
      have hn : n + t.toNat + (p2.c_time - t).toNat = n + p2.c_time.toNat := by
        rw [toNat_sub_le (by omega)]; omega
      simp only [absolute, Entry.key, Entry.ticks, hn]
      exact List.Perm.refl _

theorem total_insertLoop (pnew : Entry F A) {t : BitVec 32} {l : List (Entry F A)}
    (ht : t.toNat < 2 ^ 31) (hl : total l < 2 ^ 31) :
    total (insertLoop pnew t l) = max (total l) t.toNat := by
  induction l generalizing t with
  | nil => simp [insertLoop, total, Entry.ticks]
  | cons p2 rest ih =>
    have hp : p2.c_time.toNat < 2 ^ 31 := by simp only [total, Entry.ticks] at hl; omega
    have hrest : total rest < 2 ^ 31 := by simp only [total] at hl; omega
    by_cases hlt : p2.c_time.toNat < t.toNat
    · have hleft := toNat_left hp hlt
      rw [insertLoop, if_pos ((slt_iff hp ht).mpr hlt), total, ih (by omega) hrest, hleft]
      simp only [total, Entry.ticks]
      omega
    · rw [insertLoop, if_neg (fun hs => hlt ((slt_iff hp ht).mp hs))]
      simp only [total, Entry.ticks, toNat_sub_le (show t.toNat ≤ p2.c_time.toNat by omega)]
      omega

/-- Taking an entry off the list moves no other deadline. -/
theorem absolute_unlink {n : ℕ} {p2 : Entry F A} {rest : List (Entry F A)}
    (h : total (p2 :: rest) < 2 ^ 31) :
    absolute n (unlink p2 rest) = absolute (n + p2.ticks) rest := by
  cases rest with
  | nil => rfl
  | cons c_next rest =>
    simp only [total, Entry.ticks] at h
    by_cases hp : 0 < p2.c_time.toNat
    · rw [unlink, if_pos ((zero_slt_iff (by omega)).mpr hp)]
      have hsum : n + (c_next.c_time + p2.c_time).toNat =
          n + p2.c_time.toNat + c_next.c_time.toNat := by
        rw [BitVec.toNat_add, Nat.mod_eq_of_lt (by omega)]; omega
      simp only [absolute, Entry.key, Entry.ticks, hsum]
    · rw [unlink, if_neg (fun hs => hp ((zero_slt_iff (by omega)).mp hs))]
      have hz : p2.ticks = 0 := by simp only [Entry.ticks]; omega
      rw [hz, Nat.add_zero]

theorem quiet_unlink {p2 : Entry F A} {rest : List (Entry F A)}
    (h : total (p2 :: rest) < 2 ^ 31) (hq : Quiet (p2 :: rest)) : Quiet (unlink p2 rest) := by
  cases rest with
  | nil => trivial
  | cons c_next rest =>
    simp only [total, Entry.ticks] at h
    have hp : 0 < p2.c_time.toNat := hq
    rw [unlink, if_pos ((zero_slt_iff (by omega)).mpr hp)]
    simp only [Quiet, Entry.ticks, BitVec.toNat_add, Nat.mod_eq_of_lt
      (show c_next.c_time.toNat + p2.c_time.toNat < 2 ^ 32 by omega)]
    omega

section Remove

variable [DecidableEq F] [DecidableEq A] {func : F} {arg : A}

theorem removeLoop_none {l : List (Entry F A)} (h : (removeLoop func arg l).2 = none) :
    ∀ p ∈ l, p.key ≠ (func, arg) := by
  induction l with
  | nil => intro p hp; cases hp
  | cons p2 rest ih =>
    rw [removeLoop] at h
    split at h
    · cases h
    · next hne =>
      intro p hp hk
      rcases List.mem_cons.mp hp with rfl | hp
      · exact hne (Prod.mk.inj hk)
      · exact ih h p hp hk

/-- **`untimeout` takes one matching deadline** and moves no other. -/
theorem removeLoop_some {n : ℕ} {l : List (Entry F A)} {p2 : Entry F A}
    (h : (removeLoop func arg l).2 = some p2) (hl : total l < 2 ^ 31) :
    ∃ d, (absolute n l).Perm (((func, arg), d) :: absolute n (removeLoop func arg l).1) ∧
      total (removeLoop func arg l).1 ≤ total l ∧
      (Quiet l → Quiet (removeLoop func arg l).1) := by
  induction l generalizing n with
  | nil => cases h
  | cons p rest ih =>
    rw [removeLoop] at h ⊢
    by_cases hm : p.c_func = func ∧ p.c_arg = arg
    · rw [if_pos hm]
      obtain ⟨rfl, rfl⟩ := hm
      refine ⟨n + p.ticks, ?_, total_unlink_le hl, fun hq => quiet_unlink hl hq⟩
      rw [absolute_unlink hl]
      exact List.Perm.refl _
    · rw [if_neg hm] at h ⊢
      have hrest : total rest < 2 ^ 31 := by simp only [total] at hl; omega
      obtain ⟨d, hperm, htot, -⟩ := ih (n := n + p.ticks) h hrest
      refine ⟨d, ?_, ?_, fun hq => hq⟩
      · exact (hperm.cons _).trans (.swap _ _ _)
      · simp only [total]; omega

end Remove

/-- **A tick moves no deadline** of a quiet list, and asks for `softclock` exactly when the first
entry is due. -/
theorem tickLoop_spec {n : ℕ} {l : List (Entry F A)} (hl : total l < 2 ^ 31) (hq : Quiet l) :
    absolute (n + 1) (tickLoop l).1 = absolute n l ∧ total (tickLoop l).1 ≤ total l ∧
      ((tickLoop l).2 = false → Quiet (tickLoop l).1) := by
  cases l with
  | nil => exact ⟨rfl, le_refl _, fun _ => trivial⟩
  | cons p1 rest =>
    have hpos : 0 < p1.c_time.toNat := hq
    have hp : p1.c_time.toNat < 2 ^ 31 := by simp only [total, Entry.ticks] at hl; omega
    have hsub : (p1.c_time - 1).toNat = p1.c_time.toNat - 1 :=
      toNat_sub_le (show (1 : BitVec 32).toNat ≤ _ from hpos)
    have hkeep : absolute (n + 1) ({ p1 with c_time := p1.c_time - 1 } :: rest) =
        absolute n (p1 :: rest) := by
      have hn : n + 1 + (p1.c_time - 1).toNat = n + p1.c_time.toNat := by omega
      simp only [absolute, Entry.key, Entry.ticks, hn]
    have htot : total ({ p1 with c_time := p1.c_time - 1 } :: rest) ≤ total (p1 :: rest) := by
      simp only [total, Entry.ticks]; omega
    rw [tickLoop]
    by_cases hlt : 0 < (p1.c_time - 1).toNat
    · rw [if_pos ((zero_slt_iff (by omega)).mpr hlt)]
      exact ⟨hkeep, htot, fun _ => hlt⟩
    · rw [if_neg (fun hs => hlt ((zero_slt_iff (by omega)).mp hs))]
      -- A quiet list holds no negative time, so the loop ends here.
      have hzero : p1.c_time - 1 = 0 := BitVec.eq_of_toNat_eq (Nat.le_zero.mp (Nat.not_lt.mp hlt))
      rw [if_pos hzero]
      exact ⟨hkeep, htot, fun h => by cases h⟩

theorem lt_of_mem_absolute {n : ℕ} {l : List (Entry F A)} {x : (F × A) × ℕ} (hq : Quiet l)
    (h : x ∈ absolute n l) : n < x.2 := by
  cases l with
  | nil => cases h
  | cons p rest =>
    have hpos : 0 < p.ticks := hq
    rcases List.mem_cons.mp h with rfl | h
    · exact Nat.lt_add_of_pos_right hpos
    · exact (Nat.lt_add_of_pos_right hpos).trans_le (le_of_mem_absolute h)

/-! ### The refinement -/

/-- What holds of the callout lists: no sum of times overflows, nothing is due unless `softclock`
is to run, and the entries of the table are on one list or the other. -/
structure Inv (table : List (Entry F A)) (s : State F A) : Prop where
  small : total s.calltodo < 2 ^ 31
  quiet : s.soft = false → Quiet s.calltodo
  count : s.calltodo.length + s.callfree.length = table.length

/-- The pending alarms of a book are the entries of the callout list. -/
def Refines (s : State F A) (b : Book (F × A)) : Prop :=
  (b.having .pending).Perm (absolute b.now s.calltodo)

/-- A book makes the step of a label, or none. -/
def Stutter (b : Book (F × A)) (l : Option (Label (F × A))) (b' : Book (F × A)) : Prop :=
  match l with
  | none => b' = b
  | some l => Step b l b'

variable {table : List (Entry F A)} {s s' : State F A} {b : Book (F × A)}

theorem timeout_cases {func : F} {arg : A} {t : BitVec 32} (h : timeout func arg t s = .ok s') :
    ∃ pnew free, s.callfree = pnew :: free ∧
      s' = { s with
        calltodo := insertLoop { pnew with c_arg := arg, c_func := func }
          (if BitVec.sle t 0 then 1 else t) s.calltodo
        callfree := free } := by
  unfold timeout at h
  cases hf : s.callfree with
  | nil => rw [hf] at h; cases h
  | cons pnew free =>
    rw [hf] at h
    exact ⟨pnew, free, rfl, (Except.ok.inj h).symm⟩

theorem timeout_refines (hi : Inv table s) (hr : Refines s b) {func : F} {arg : A} {t : BitVec 32}
    (h : timeout func arg t s = .ok s') :
    Inv table s' ∧
      ∃ b', Step b (.arm (func, arg) (max t.toInt 1).toNat) b' ∧ Refines s' b' := by
  obtain ⟨pnew, free, hfree, rfl⟩ := timeout_cases h
  set d := if BitVec.sle t 0 then (1 : BitVec 32) else t with hd
  have hdn : d.toNat = (max t.toInt 1).toNat := toNat_delay t
  have hlt : d.toNat < 2 ^ 31 := hdn ▸ delay_lt t
  have hperm := absolute_insertLoop (n := b.now) { pnew with c_arg := arg, c_func := func } hlt
    hi.small
  refine ⟨⟨?_, fun hs => ?_, ?_⟩, _, .arm b _ _, ?_⟩
  · rw [total_insertLoop _ hlt hi.small]
    exact max_lt hi.small hlt
  · exact quiet_insertLoop _ (by omega) (hi.quiet hs)
  · have hlen := hperm.length_eq
    have := hi.count
    simp only [length_absolute, List.length_cons, hfree] at hlen this
    simp only [hlen]
    omega
  · have hpend : Book.having .pending
        (⟨b.now, b.log ++ [⟨(func, arg), b.now + (max t.toInt 1).toNat, .pending⟩]⟩ : Book (F × A))
          = b.having .pending ++ [((func, arg), b.now + (max t.toInt 1).toNat)] := by
      simp [Book.having, Alarm.due]
    refine List.Perm.trans (List.Perm.of_eq hpend) (List.Perm.trans ?_ hperm.symm)
    rw [hdn]
    exact (List.perm_append_singleton _ _).trans (hr.cons _)

theorem untimeout_refines [DecidableEq F] [DecidableEq A] (hi : Inv table s) (hr : Refines s b)
    (func : F) (arg : A) :
    Inv table (untimeout func arg s) ∧
      ∃ b', Step b (.cancel (func, arg)) b' ∧ Refines (untimeout func arg s) b' := by
  unfold untimeout
  rcases hrm : removeLoop func arg s.calltodo with ⟨todo, _ | p2⟩
  · refine ⟨hi, b, .miss b _ fun a ha hp hk => ?_, hr⟩
    have hmem : a.due ∈ absolute b.now s.calltodo :=
      hr.mem_iff.mp (mem_having.mpr ⟨a, ha, hp, rfl⟩)
    obtain ⟨p, hpl, hpk⟩ : ∃ p ∈ s.calltodo, p.key = a.key := exists_of_mem_absolute hmem
    exact removeLoop_none (by rw [hrm]) p hpl (hpk.trans hk)
  · obtain ⟨d, hperm, htot, hquiet⟩ :=
      removeLoop_some (n := b.now) (l := s.calltodo) (by rw [hrm]) hi.small
    rw [hrm] at hperm htot hquiet
    have hmem : ((func, arg), d) ∈ b.having .pending :=
      hr.mem_iff.mpr (hperm.mem_iff.mpr List.mem_cons_self)
    obtain ⟨i, ⟨k, dl, fate⟩, hia, hp, hdue⟩ := exists_of_mem_having hmem
    obtain ⟨rfl, rfl⟩ := Prod.mk.inj hdue
    refine ⟨⟨htot.trans_lt hi.small, fun hs => hquiet (hi.quiet hs), ?_⟩, _,
      .cancel b i _ hia hp, ?_⟩
    · have hlen := hperm.length_eq
      have := hi.count
      simp only [length_absolute, List.length_cons] at hlen ⊢
      omega
    · have hset := having_pending_set (φ := .removed) hia hp (by decide)
      exact List.Perm.cons_inv ((hset.symm.trans hr).trans hperm)

theorem hardclock_refines (hi : Inv table s) (hr : Refines s b) (hs : s.soft = false) :
    Inv table (hardclock s) ∧ ∃ b', Step b .tick b' ∧ Refines (hardclock s) b' := by
  obtain ⟨habs, htot, hquiet⟩ := tickLoop_spec (n := b.now) hi.small (hi.quiet hs)
  refine ⟨⟨htot.trans_lt hi.small, fun h => ?_, ?_⟩, _, .tick b fun a ha hp => ?_, ?_⟩
  · simp only [hardclock, hs, Bool.false_or] at h
    exact hquiet h
  · have hlen := congrArg List.length habs
    simp only [length_absolute] at hlen
    simp only [hardclock, hlen]
    exact hi.count
  · have hmem : a.due ∈ absolute b.now s.calltodo :=
      hr.mem_iff.mp (mem_having.mpr ⟨a, ha, hp, rfl⟩)
    exact lt_of_mem_absolute (hi.quiet hs) hmem
  · exact List.Perm.trans hr (List.Perm.of_eq habs.symm)

theorem softclock_refines (hi : Inv table s) (hr : Refines s b) :
    Inv table (softclock s).1 ∧
      ∃ b', Stutter b ((softclock s).2.map fun c => .call (c.func, c.arg)) b' ∧
        Refines (softclock s).1 b' := by
  rcases s with ⟨_ | ⟨p1, rest⟩, free, soft⟩
  · exact ⟨⟨hi.small, fun _ => trivial, hi.count⟩, b, rfl, hr⟩
  have hp : p1.c_time.toNat < 2 ^ 31 := by
    have := hi.small; simp only [total, Entry.ticks] at this; omega
  simp only [softclock]
  by_cases hlt : 0 < p1.c_time.toNat
  · rw [if_pos ((zero_slt_iff hp).mpr hlt)]
    exact ⟨⟨hi.small, fun _ => hlt, hi.count⟩, b, rfl, hr⟩
  · rw [if_neg (fun h => hlt ((zero_slt_iff hp).mp h))]
    have hzero : p1.ticks = 0 := by simp only [Entry.ticks]; omega
    have habs : absolute b.now (p1 :: rest) = (p1.key, b.now) :: absolute b.now rest := by
      rw [absolute, hzero, Nat.add_zero]
    have hperm : (b.having .pending).Perm ((p1.key, b.now) :: absolute b.now rest) :=
      habs ▸ hr
    obtain ⟨i, ⟨k, dl, fate⟩, hia, hpend, hdue⟩ :=
      exists_of_mem_having (hperm.mem_iff.mpr List.mem_cons_self)
    obtain ⟨rfl, rfl⟩ := Prod.mk.inj hdue
    refine ⟨⟨?_, fun h => ?_, ?_⟩, _, .call b i _ hia hpend rfl, ?_⟩
    · have := hi.small
      simp only [total] at this ⊢
      omega
    · -- The list is quiet when `softclock` is not to run, and then nothing is called.
      exact absurd (hi.quiet h) hlt
    · have := hi.count
      simp only [List.length_cons] at this ⊢
      omega
    · have hset := having_pending_set (φ := .fired) hia hpend (by decide)
      exact List.Perm.cons_inv (hset.symm.trans hperm)

/-- **One event is one step of the book of alarms**, or none at the end of `softclock`. -/
theorem step_refines [DecidableEq F] [DecidableEq A] (hi : Inv table s) (hr : Refines s b)
    {e : Event F A} {c : Option (Call F A)} (ha : Allowed s e) (h : step s e = .ok (s', c)) :
    Inv table s' ∧ ∃ b', Stutter b (label (e, c)) b' ∧ Refines s' b' := by
  cases e with
  | timeout func arg t =>
    obtain ⟨s₁, hs₁, hs'⟩ : ∃ s₁, timeout func arg t s = .ok s₁ ∧ (s₁, none) = (s', c) := by
      simp only [step] at h
      cases ht : timeout func arg t s with
      | error m => rw [ht] at h; cases h
      | ok s₁ => rw [ht] at h; exact ⟨s₁, rfl, Except.ok.inj h⟩
    obtain ⟨rfl, rfl⟩ := Prod.mk.inj hs'
    exact timeout_refines hi hr hs₁
  | untimeout func arg =>
    obtain ⟨rfl, rfl⟩ := Prod.mk.inj (Except.ok.inj h)
    exact untimeout_refines hi hr func arg
  | hardclock =>
    obtain ⟨rfl, rfl⟩ := Prod.mk.inj (Except.ok.inj h)
    exact hardclock_refines hi hr ha
  | softclock =>
    have hs : softclock s = (s', c) := Except.ok.inj h
    have := softclock_refines hi hr
    rw [hs] at this
    exact this

theorem initial_inv (table : List (Entry F A)) : Inv table ⟨[], table, false⟩ where
  small := Nat.two_pow_pos 31
  quiet := fun _ => trivial
  count := Nat.zero_add _

/-- **The callout list refines a book of alarms**: every run of it is a run of the book, whose
pending alarms are the entries of the list under their absolute deadlines. -/
theorem Run.refines [DecidableEq F] [DecidableEq A] {tr : List (Event F A × Option (Call F A))}
    (h : Run table tr s) :
    Inv table s ∧ ∃ b, Alarms.Run (tr.filterMap label) b ∧ Refines s b := by
  induction h with
  | init => exact ⟨initial_inv table, _, .nil, List.Perm.nil⟩
  | @step tr s s' e c _ ha hs ih =>
    obtain ⟨hi, b, hb, hr⟩ := ih
    obtain ⟨hi', b', hst, hr'⟩ := step_refines hi hr ha hs
    refine ⟨hi', b', ?_, hr'⟩
    rw [List.filterMap_append]
    cases hl : label (e, c) with
    | none =>
      obtain rfl : b' = b := by simpa [Stutter, hl] using hst
      simpa [hl] using hb
    | some l =>
      have hst' : Step b l b' := by simpa [Stutter, hl] using hst
      simpa [hl] using hb.snoc hst'

/-- `timeout` panics exactly when every entry of the callout table is pending. -/
theorem timeout_error_iff (hi : Inv table s) (func : F) (arg : A) (t : BitVec 32) :
    (∃ m, timeout func arg t s = .error m) ↔ s.calltodo.length = table.length := by
  have hcount := hi.count
  unfold timeout
  cases hf : s.callfree with
  | nil => simpa [hf] using hcount
  | cons pnew free =>
    simp only [hf, List.length_cons] at hcount
    simp only [reduceCtorEq, exists_false, false_iff]
    omega

theorem Run.softclock [DecidableEq F] [DecidableEq A]
    {tr : List (Event F A × Option (Call F A))} (h : Run table tr s) (hs : s.soft = true) :
    Run table (tr ++ [(.softclock, (softclock s).2)]) (softclock s).1 :=
  h.step (e := .softclock) hs rfl

/-- Left alone, `softclock` runs to its end. -/
theorem softclock_ends [DecidableEq F] [DecidableEq A] {tr : List (Event F A × Option (Call F A))}
    (h : Run table tr s) (hs : s.soft = true) :
    ∃ tr' s', Run table (tr ++ tr') s' ∧ (∀ x ∈ tr', x.1 = .softclock) ∧ s'.soft = false := by
  obtain ⟨n, hn⟩ : ∃ n, s.calltodo.length = n := ⟨_, rfl⟩
  -- Each iteration that makes a call takes an entry off the list.
  induction n generalizing tr s with
  | zero =>
    refine ⟨[(.softclock, (softclock s).2)], (softclock s).1, h.softclock hs, ?_, ?_⟩
    · intro x hx
      rw [List.mem_singleton.mp hx]
    · rw [softclock, List.length_eq_zero_iff.mp hn]
  | succ n ih =>
    have hrun := h.softclock hs
    cases hsoft : (softclock s).1.soft with
    | false =>
      refine ⟨[(.softclock, (softclock s).2)], (softclock s).1, hrun, ?_, hsoft⟩
      intro x hx
      rw [List.mem_singleton.mp hx]
    | true =>
      have hlen : (softclock s).1.calltodo.length = n := by
        revert hsoft
        rcases s with ⟨_ | ⟨p1, rest⟩, free, soft⟩
        · simp at hn
        · simp only [softclock]
          split
          · intro hf; cases hf
          · intro _; simpa using hn
      obtain ⟨tr', s', hr, hall, hend⟩ := ih hrun hsoft hlen
      rw [List.append_assoc] at hr
      refine ⟨(.softclock, (softclock s).2) :: tr', s', hr, ?_, hend⟩
      intro x hx
      rcases List.mem_cons.mp hx with rfl | hx
      · rfl
      · exact hall x hx

/-- **The callout list keeps absolute deadlines.** In every run the alarms armed are those of the
`timeout` calls, due `max t 1` ticks after each; the calls `softclock` made are those of the fired
alarms, one for each and at its deadline; cancelling settles one matching alarm and no other; what
is left are the entries of the list under their deadlines, none of them due once `softclock` has
run. `timeout` panics exactly when the whole table is pending. -/
theorem callout_refines [DecidableEq F] [DecidableEq A]
    {tr : List (Event F A × Option (Call F A))} (h : Run table tr s) :
    ∃ b : Book (F × A), Alarms.Run (tr.filterMap label) b ∧
      b.log.map Alarm.due = armed 0 (tr.filterMap label) ∧
      (called 0 (tr.filterMap label)).Perm (b.having .fired) ∧
      (b.having .pending).Perm (absolute b.now s.calltodo) ∧
      (∀ a ∈ b.log, a.fate = .pending → b.now ≤ a.deadline ∧
        (s.soft = false → b.now < a.deadline)) ∧
      (s.soft = true → ∃ tr' s', Run table (tr ++ tr') s' ∧ (∀ x ∈ tr', x.1 = .softclock) ∧
        s'.soft = false) ∧
      ∀ func arg t, (∃ m, timeout func arg t s = .error m) ↔
        s.calltodo.length = table.length := by
  obtain ⟨hi, b, hb, hr⟩ := h.refines
  refine ⟨b, hb, hb.log_eq, hb.called_perm, hr, fun a ha hp => ⟨hb.not_late a ha hp, fun hs => ?_⟩,
    softclock_ends h, timeout_error_iff hi⟩
  have hmem : a.due ∈ absolute b.now s.calltodo :=
    hr.mem_iff.mp (mem_having.mpr ⟨a, ha, hp, rfl⟩)
  exact lt_of_mem_absolute (hi.quiet hs) hmem

/-- A table of one entry. -/
def oneEntry : List (Entry ℕ ℕ) := [⟨0, 0, 0⟩]

/-- Arming the function 7 for one tick, the tick, and `softclock` up to its call. -/
theorem oneEntry_run :
    Run oneEntry
      [(.timeout 7 5 1, none), (.hardclock, none), (.softclock, some ⟨7, 5, 0⟩)]
      ⟨[], [⟨5, 7, 0⟩], true⟩ :=
  have armed : Run oneEntry [(.timeout 7 5 1, none)] ⟨[⟨5, 7, 1⟩], [], false⟩ :=
    Run.init.step (e := .timeout 7 5 1) trivial rfl
  have ticked : Run oneEntry [(.timeout 7 5 1, none), (.hardclock, none)] ⟨[⟨5, 7, 0⟩], [], true⟩ :=
    armed.step (e := .hardclock) rfl rfl
  ticked.softclock rfl

theorem callout_refines_oneEntry :
    ∃ b : Book (ℕ × ℕ), Alarms.Run [.arm (7, 5) 1, .tick, .call (7, 5)] b ∧
      b.having .fired = [((7, 5), 1)] := by
  obtain ⟨b, hb, -, hf, -⟩ := callout_refines oneEntry_run
  exact ⟨b, hb, List.perm_singleton.mp hf.symm⟩

end Callout
