import Mathlib.Data.Int.Basic
import Mathlib.Tactic.NormNum
import NetBsd.Ufs.Lockf.Ranges

/-!
# Requests for locks

`ufs_advlock` of `ufs_vnops.c`: the `flock` structure of a request becomes a range for the lock
routines. An `off_t` has 32 bits, and the sums are taken modulo `2^32`.

## Main definitions

* `Flock`, `Inode`: what a request says, and what is asked of the inode
* `ufsAdvlock`: a request, up to the call of a lock routine
* `Sound`: the request fails and changes nothing, or its range is one

## Main results

* `ufsAdvlock_sound_iff`: which requests are sound
-/

namespace Lockf

inductive Whence where
  | set
  | cur
  | eof
  | other
  deriving DecidableEq, Repr

inductive Op where
  | setlk
  | unlck
  | getlk
  | other
  deriving DecidableEq, Repr

/-- `struct flock`, less the process. -/
structure Flock where
  lType : LkType
  lWhence : Whence
  lStart : BitVec 32
  lLen : BitVec 32
  deriving DecidableEq, Repr

/-- `i_size`, which is unsigned, and whether there are locks on `i_lockf`. -/
structure Inode where
  ino : Ino
  size : BitVec 32
  locked : Bool
  deriving DecidableEq, Repr

/-- What a request comes to: an error number, or the call of the routine for `op`. -/
inductive Answer where
  | ret (error : ℕ)
  | call (op : Op) (lock : Lock)
  deriving DecidableEq, Repr

/-- `EINVAL` -/
def einval : ℕ := 22

/-- The first byte of the range, if `l_whence` is a known one. -/
def start (ip : Inode) (fl : Flock) : Option (BitVec 32) :=
  match fl.lWhence with
  | .set => some fl.lStart
  | .cur => some fl.lStart
  | .eof => some (ip.size + fl.lStart)
  | .other => none

/-- The last byte of a range that starts at `s`; `-1` is no last byte. -/
def stop (fl : Flock) (s : BitVec 32) : BitVec 32 :=
  if fl.lLen = 0 then -1 else s + fl.lLen - 1

/-- `ufs_advlock`, with the `flock` structure afterwards. The flags of the request are bits of
the `Lock`. -/
def ufsAdvlock (ip : Inode) (id : Id) (op : Op) (fl : Flock) (posix flock wait : Bool) :
    Flock × Answer :=
  if ip.locked = false ∧ op ≠ .setlk then ({ fl with lType := .unlck }, .ret 0)
  else
    match start ip fl with
    | none => (fl, .ret einval)
    | some s =>
      if s.toInt < 0 then (fl, .ret einval)
      else if op = .other then (fl, .ret einval)
      else (fl, .call op
        { posix := posix, flock := flock, wait := wait, lfType := fl.lType
          lfStart := s.toInt, lfEnd := (stop fl s).toInt, lfId := id, lfInode := ip.ino })

/-- The request fails with `EINVAL` and changes nothing, or a range is passed on that is one; only
a length of 0 makes it a range without an end. -/
def Sound (fl : Flock) (r : Flock × Answer) : Prop :=
  r.1 = fl ∧
    match r.2 with
    | .ret error => error = einval
    | .call _ lock => 0 ≤ lock.lfStart ∧
        (lock.lfStart ≤ lock.lfEnd ∨ fl.lLen = 0 ∧ lock.lfEnd = -1)

instance (fl : Flock) (r : Flock × Answer) : Decidable (Sound fl r) :=
  match r with
  | (_, .ret _) => inferInstanceAs (Decidable (_ ∧ _))
  | (_, .call _ _) => inferInstanceAs (Decidable (_ ∧ _))

/-- A range of `len` bytes from `s` on ends below `2^31`. The longest negative length is as good,
from the first byte on. -/
def Fits (s len : ℤ) : Prop :=
  len = 0 ∨ (0 < len ∧ s + len - 1 ≤ maxOff) ∨ (s = 0 ∧ len = -2 ^ 31)

theorem stop_sound_iff (fl : Flock) {s : BitVec 32} (hs : 0 ≤ s.toInt) :
    (s.toInt ≤ (stop fl s).toInt ∨ fl.lLen = 0 ∧ (stop fl s).toInt = -1) ↔
      Fits s.toInt fl.lLen.toInt := by
  by_cases hlen : fl.lLen = 0
  · simp [stop, hlen, Fits]
  · have hne : fl.lLen.toInt ≠ 0 := by
      intro h
      exact hlen (BitVec.eq_of_toInt_eq (by simpa using h))
    have hend : (stop fl s).toInt = (s.toInt + fl.lLen.toInt - 1).bmod (2 ^ 32) := by
      rw [stop, if_neg hlen, BitVec.toInt_sub, BitVec.toInt_add]
      simp
    have hlt := BitVec.toInt_lt (x := s)
    have hlow := BitVec.le_toInt (x := fl.lLen)
    have hhigh := BitVec.toInt_lt (x := fl.lLen)
    rw [hend]
    simp only [hlen, false_and, or_false, Fits, hne, false_or, maxOff]
    rw [Int.bmod_def]
    norm_num at hlt hlow hhigh ⊢
    constructor
    · intro h
      split_ifs at h <;> omega
    · intro h
      split_ifs <;> omega

/-- Nothing is looked at when there are no locks; otherwise a request is sound unless it is of a
known kind, starts in the file, and its length does not fit. -/
theorem ufsAdvlock_sound_iff (ip : Inode) (id : Id) (op : Op) (fl : Flock)
    (posix flock wait : Bool) :
    (ip.locked = false ∧ op ≠ .setlk →
      ufsAdvlock ip id op fl posix flock wait = ({ fl with lType := .unlck }, .ret 0)) ∧
    (¬(ip.locked = false ∧ op ≠ .setlk) →
      (Sound fl (ufsAdvlock ip id op fl posix flock wait) ↔
        (∀ s, start ip fl = some s → 0 ≤ s.toInt → op ≠ .other →
          Fits s.toInt fl.lLen.toInt))) := by
  constructor
  · intro h
    rw [ufsAdvlock, if_pos h]
  · intro h
    rw [ufsAdvlock, if_neg h]
    cases hs : start ip fl with
    | none => simp [Sound]
    | some s =>
      by_cases hneg : s.toInt < 0
      · simp [Sound, hneg]
      · have hpos : 0 ≤ s.toInt := not_lt.mp hneg
        by_cases hop : op = .other
        · simp [Sound, hop, hneg]
        · have hfit := stop_sound_iff fl hpos
          simp only [hneg, hop, if_false, Sound, hpos, true_and, hfit]
          constructor
          · intro hf t ht _ _
            rwa [← Option.some.inj ht]
          · intro hf
            exact hf s rfl hpos hop

/-- A lock of ten bytes from byte 100 on is sound. -/
theorem ufsAdvlock_sound_ten : Sound ⟨.wrlck, .set, 100, 10⟩
    (ufsAdvlock ⟨2, 4096, false⟩ (.proc 1) .setlk ⟨.wrlck, .set, 100, 10⟩ true false false) :=
  ((ufsAdvlock_sound_iff ⟨2, 4096, false⟩ (.proc 1) .setlk ⟨.wrlck, .set, 100, 10⟩ true false
    false).2 (by decide)).mpr (by
      intro s hs _ _
      rw [← Option.some.inj hs]
      exact .inr (.inl (by decide)))

/-- A lock of the ten bytes before byte 100 ends before it starts. -/
theorem advlock_backwards : ¬Sound ⟨.wrlck, .set, 100, -10⟩
    (ufsAdvlock ⟨2, 4096, false⟩ (.proc 1) .setlk ⟨.wrlck, .set, 100, -10⟩ true false false) := by
  decide

end Lockf
