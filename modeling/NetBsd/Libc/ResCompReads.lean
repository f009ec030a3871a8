import Mathlib
import NetBsd.Lib.Fault
import NetBsd.Lib.Machine
import NetBsd.Libc.ResComp

/-!
# What `dn_expand` reads

The loop of `dn_expand` as a machine that faults when it reads a byte behind the message or writes one
behind the buffer. The bound of the message is tested behind each character of a label, and where a
pointer leads to, but not behind the length of a label or the first byte of a pointer.

## Main definitions

* `turn`: one turn of the loop
* `skipname`: `__dn_skipname`
* `Past`: a length or a pointer is the last byte of the message, and the byte behind it is read
* `Safe`: what is expected of a call

## Main results

* `expandLoop_eq_of_run`: the machine computes what `expandLoop` does
* `safe_iff`: a call is as expected when it comes to no such byte
-/

namespace ResComp

open Machine

/-- What the loop keeps: the position, what is in the buffer, the size of the compressed name once a
pointer has been met, and the bytes that have been looked at. -/
structure Loop where
  cp : ℕ
  dn : List Byte
  len : Option ℕ
  checked : ℕ

/-- A byte of the message. -/
def readByte (m : ByteMem) (eomorig cp : ℕ) : Except Fault Byte :=
  if cp < eomorig then .ok (m cp) else .error .deref

/-- `*dn++ = c`, in a buffer of `length` bytes. -/
def putByte (length : ℕ) (dn : List Byte) (c : Byte) : Except Fault (List Byte) :=
  if dn.length < length then .ok (dn ++ [c]) else .error .deref

/-- A backslash in front of a dot. -/
def escapeDot (length : ℕ) (c : Byte) (dn : List Byte) : Except Fault (List Byte) :=
  if c = dot then putByte length dn backslash else .ok dn

/-- The loop over the characters of a label. -/
def readLabel (m : ByteMem) (eomorig length : ℕ) :
    ℕ → ℕ → List Byte → Except Fault (Option (ℕ × List Byte))
  | 0, cp, dn => .ok (some (cp, dn))
  | n + 1, cp, dn => do
    let c ← readByte m eomorig cp
    if c = dot ∧ dn.length + n + 2 ≥ length then return none
    else
      let dn ← escapeDot length c dn
      let dn ← putByte length dn c
      if cp + 1 ≥ eomorig then return none else readLabel m eomorig length n (cp + 1) dn

/-- A dot between two labels. -/
def separate (length : ℕ) (dn : List Byte) : Except Fault (List Byte) :=
  if dn ≠ [] then putByte length dn dot else .ok dn

/-- Go on with what has been read or written. -/
def after {α : Type} (e : Except Fault α) (f : α → Outcome Loop (Option (List Byte × ℕ)) Fault) :
    Outcome Loop (Option (List Byte × ℕ)) Fault :=
  match e with
  | .ok x => f x
  | .error e => .fault e

/-- A label. -/
def turnLabel (m : ByteMem) (eomorig length : ℕ) (n : Byte) (s : Loop) :
    Outcome Loop (Option (List Byte × ℕ)) Fault :=
  if s.dn ≠ [] ∧ s.dn.length ≥ length then .ret none
  else after (separate length s.dn) fun dn =>
    if dn.length + n.toNat ≥ length then .ret none
    else after (readLabel m eomorig length n.toNat (s.cp + 1) dn) fun r =>
      match r with
      | none => .ret none
      | some (cp, dn) => .next ⟨cp, dn, s.len, s.checked + n.toNat + 1⟩

/-- A pointer. -/
def turnPointer (m : ByteMem) (eomorig comp : ℕ) (n : Byte) (s : Loop) :
    Outcome Loop (Option (List Byte × ℕ)) Fault :=
  after (readByte m eomorig (s.cp + 1)) fun c =>
    if offset n c ≥ eomorig then .ret none
    else if s.checked + 2 ≥ eomorig then .ret none
    else .next ⟨offset n c, s.dn, some (s.len.getD (s.cp + 1 - comp + 1)), s.checked + 2⟩

/-- One turn of the loop of `dn_expand`; the name that it ends with has its NUL. -/
def turn (m : ByteMem) (eomorig comp length : ℕ) (s : Loop) :
    Outcome Loop (Option (List Byte × ℕ)) Fault :=
  after (readByte m eomorig s.cp) fun n =>
    if n = 0 then
      after (putByte length s.dn 0) fun dn => .ret (some (dn, s.len.getD (s.cp + 1 - comp)))
    else if n &&& indirMask = 0 then turnLabel m eomorig length n s
    else if n &&& indirMask = indirMask then turnPointer m eomorig comp n s
    else .ret none

def start (comp : ℕ) : Loop := ⟨comp, [], none, 0⟩

/-- The loop of `__dn_skipname`. -/
def skipLoop (m : ByteMem) (eom : ℕ) : ℕ → ℕ → Except Fault (Option ℕ)
  | 0, _ => .error .loop
  | fuel + 1, cp =>
    if cp < eom then do
      let n ← readByte m eom cp
      if n = 0 then return some (cp + 1)
      else if n &&& indirMask = 0 then skipLoop m eom fuel (cp + 1 + n.toNat)
      else if n &&& indirMask = indirMask then return some (cp + 2)
      else return none
    else return some cp

/-- `__dn_skipname`: each turn goes at least one byte on. -/
def skipname (m : ByteMem) (comp eom : ℕ) : Except Fault (Option ℕ) := do
  let r ← skipLoop m eom (eom + 1) comp
  return r.map fun cp => cp - comp

/-! ### What is written -/

section Label

variable {m : ByteMem} {eomorig comp length n cp cp' : ℕ} {dn dn' : List Byte} {c : Byte}

theorem putByte_ok (h : dn.length < length) : putByte length dn c = .ok (dn ++ [c]) := if_pos h

theorem readByte_ok (h : cp < eomorig) : readByte m eomorig cp = .ok (m cp) := if_pos h

/-- With room for the rest of the label and the NUL, no byte is read or written out of place, and
there is still room for the NUL behind the label. -/
theorem readLabel_ok (hcp : cp < eomorig) (hdn : dn.length + n < length) :
    readLabel m eomorig length n cp dn = .ok (expandLabel m eomorig length n cp dn) ∧
      ∀ cp' dn', expandLabel m eomorig length n cp dn = some (cp', dn') →
        cp' = cp + n ∧ cp' < eomorig ∧ dn'.length < length := by
  induction n generalizing cp dn with
  | zero =>
    refine ⟨rfl, ?_⟩
    intro cp' dn' he
    cases he
    exact ⟨rfl, hcp, hdn⟩
  | succ n ih =>
    rw [readLabel, expandLabel, readByte_ok hcp]
    simp only [bind, Except.bind, pure, Except.pure]
    by_cases hroom : m cp = dot ∧ dn.length + n + 2 ≥ length
    · simp only [if_pos hroom]
      exact ⟨trivial, fun _ _ he => by cases he⟩
    · -- what stands in the buffer with the character, and with a backslash if it is a dot
      have hesc : ∃ d, escapeDot length (m cp) dn = .ok d ∧ d.length + n + 1 < length ∧
          (if m cp = dot then dn ++ [backslash, m cp] else dn ++ [m cp]) = d ++ [m cp] := by
        simp only [escapeDot]
        by_cases hc : m cp = dot
        · have hlt : dn.length + n + 2 < length := by
            by_contra hge
            exact hroom ⟨hc, by omega⟩
          rw [if_pos hc, if_pos hc, putByte_ok (by omega)]
          refine ⟨_, rfl, ?_, by simp⟩
          rw [List.length_append, List.length_singleton]
          omega
        · rw [if_neg hc, if_neg hc]
          exact ⟨dn, rfl, by omega, rfl⟩
      obtain ⟨d, hd, hlen, he⟩ := hesc
      simp only [if_neg hroom, hd, he, putByte_ok (show d.length < length by omega)]
      by_cases hend : cp + 1 ≥ eomorig
      · simp only [if_pos hend]
        exact ⟨trivial, fun _ _ he => by cases he⟩
      · simp only [if_neg hend]
        have hlen' : (d ++ [m cp]).length + n < length := by
          rw [List.length_append, List.length_singleton]
          omega
        obtain ⟨hr, hsome⟩ := ih (Nat.lt_of_not_le hend) hlen'
        refine ⟨hr, ?_⟩
        intro cp' dn' he
        have h := hsome cp' dn' he
        exact ⟨by omega, h.2⟩

end Label

/-! ### One turn -/

section Turn

variable {m : ByteMem} {eomorig comp length : ℕ} {s s' : Loop} {dn : List Byte}

/-- In the loop, the position is in the message and the buffer has room for the NUL. -/
structure InBounds (eomorig length : ℕ) (s : Loop) : Prop where
  cp : s.cp < eomorig
  dn : s.dn.length < length

/-- The text in front of the next label. -/
def separated (dn : List Byte) : List Byte := if dn ≠ [] then dn ++ [dot] else dn

/-- The byte at the end of the message is a pointer, or the length of a label for which there is
room in the buffer: the byte behind it is read. -/
def Past (m : ByteMem) (eomorig length : ℕ) (s : Loop) : Prop :=
  s.cp + 1 = eomorig ∧ m s.cp ≠ 0 ∧
    (m s.cp &&& indirMask = indirMask ∨
      m s.cp &&& indirMask = 0 ∧ (separated s.dn).length + (m s.cp).toNat < length)

theorem separate_ok (h : s.dn.length < length) :
    separate length s.dn = .ok (separated s.dn) := by
  unfold separate separated
  split
  · rw [putByte_ok h]
  · rfl

theorem toNat_pos {n : Byte} (h : n ≠ 0) : 0 < n.toNat := by
  by_contra h0
  exact h (BitVec.eq_of_toNat_eq (by simpa using h0))

/-- A turn for a label, by the room there is for it and where it ends. -/
theorem turnLabel_eq (hs : InBounds eomorig length s) (hn : m s.cp ≠ 0) :
    turnLabel m eomorig length (m s.cp) s =
      if (separated s.dn).length + (m s.cp).toNat ≥ length then .ret none
      else if s.cp + 1 < eomorig then
        match expandLabel m eomorig length (m s.cp).toNat (s.cp + 1) (separated s.dn) with
        | none => .ret none
        | some (cp, dn) => .next ⟨cp, dn, s.len, s.checked + (m s.cp).toNat + 1⟩
      else .fault .deref := by
  have hdn := hs.dn
  rw [turnLabel, if_neg fun h => absurd h.2 (by omega), separate_ok hdn]
  simp only [after]
  by_cases hroom : (separated s.dn).length + (m s.cp).toNat ≥ length
  · rw [if_pos hroom, if_pos hroom]
  · rw [if_neg hroom, if_neg hroom]
    by_cases hcp : s.cp + 1 < eomorig
    · rw [if_pos hcp, (readLabel_ok hcp (by omega)).1]
    · -- the first character of the label is behind the message
      -- the label is not empty, and its first character is read at once
      obtain ⟨k, hk⟩ := Nat.exists_eq_succ_of_ne_zero (toNat_pos hn).ne'
      rw [if_neg hcp, hk, readLabel, readByte, if_neg hcp]
      rfl

theorem turnPointer_eq (m : ByteMem) (eomorig comp : ℕ) (s : Loop) :
    turnPointer m eomorig comp (m s.cp) s =
      if s.cp + 1 < eomorig then
        if offset (m s.cp) (m (s.cp + 1)) ≥ eomorig then .ret none
        else if s.checked + 2 ≥ eomorig then .ret none
        else .next ⟨offset (m s.cp) (m (s.cp + 1)), s.dn,
          some (s.len.getD (s.cp + 1 - comp + 1)), s.checked + 2⟩
      else .fault .deref := by
  rw [turnPointer, readByte]
  split
  · rfl
  · rfl

/-- A turn, by the byte at the position. -/
theorem turn_eq (hs : InBounds eomorig length s) : turn m eomorig comp length s =
    if m s.cp = 0 then .ret (some (s.dn ++ [0], s.len.getD (s.cp + 1 - comp)))
    else if m s.cp &&& indirMask = 0 then turnLabel m eomorig length (m s.cp) s
    else if m s.cp &&& indirMask = indirMask then turnPointer m eomorig comp (m s.cp) s
    else .ret none := by
  rw [turn, readByte_ok hs.cp]
  simp only [after, putByte_ok hs.dn]

/-- What a turn that goes on leaves: a label has been copied, or a pointer has been followed. -/
theorem turn_next (hs : InBounds eomorig length s) (h : turn m eomorig comp length s = .next s') :
    InBounds eomorig length s' ∧
    (m s.cp ≠ 0 ∧ m s.cp &&& indirMask = 0 ∧ s'.cp = s.cp + 1 + (m s.cp).toNat ∧
        s'.len = s.len ∧ s.checked ≤ s'.checked ∨
      m s.cp ≠ 0 ∧ m s.cp &&& indirMask = indirMask ∧
        s'.len = some (s.len.getD (s.cp + 1 - comp + 1)) ∧ s.checked < eomorig ∧
        s'.checked = s.checked + 2) := by
  rw [turn_eq hs] at h
  by_cases h₁ : m s.cp = 0
  · rw [if_pos h₁] at h
    cases h
  rw [if_neg h₁] at h
  by_cases h₂ : m s.cp &&& indirMask = 0
  · rw [if_pos h₂, turnLabel_eq hs h₁] at h
    split_ifs at h with hroom hcp
    cases he : expandLabel m eomorig length (m s.cp).toNat (s.cp + 1) (separated s.dn) with
    | none =>
      rw [he] at h
      cases h
    | some x =>
      obtain ⟨cp, dn⟩ := x
      rw [he] at h
      obtain ⟨hcp', hlt, hdn⟩ := (readLabel_ok hcp (by omega)).2 cp dn he
      cases h
      refine ⟨⟨hlt, hdn⟩, Or.inl ⟨h₁, h₂, hcp', rfl, ?_⟩⟩
      change s.checked ≤ s.checked + (m s.cp).toNat + 1
      omega
  · rw [if_neg h₂] at h
    by_cases h₃ : m s.cp &&& indirMask = indirMask
    · rw [if_pos h₃, turnPointer_eq] at h
      split_ifs at h with hcp hoff hch
      cases h
      exact ⟨⟨Nat.lt_of_not_le hoff, hs.dn⟩, Or.inr ⟨h₁, h₃, rfl, by omega, rfl⟩⟩
    · rw [if_neg h₃] at h
      cases h

/-- The byte behind the message is read exactly when the turn faults. -/
theorem turn_fault_iff (hs : InBounds eomorig length s) :
    (∃ e, turn m eomorig comp length s = .fault e) ↔ Past m eomorig length s := by
  have hcp := hs.cp
  unfold Past
  rw [turn_eq hs]
  by_cases h₁ : m s.cp = 0
  · simp [h₁]
  rw [if_neg h₁]
  by_cases h₂ : m s.cp &&& indirMask = 0
  · have h₃ : m s.cp &&& indirMask ≠ indirMask := by
      rw [h₂]
      decide
    rw [if_pos h₂, turnLabel_eq hs h₁]
    constructor
    · rintro ⟨e, he⟩
      split_ifs at he with hroom hin
      · split at he
        · cases he
        · cases he
      · exact ⟨by omega, h₁, Or.inr ⟨h₂, by omega⟩⟩
    · rintro ⟨hlast, -, hp | ⟨-, hroom⟩⟩
      · exact absurd hp h₃
      · rw [if_neg (by omega), if_neg (by omega)]
        exact ⟨_, rfl⟩
  · rw [if_neg h₂]
    by_cases h₃ : m s.cp &&& indirMask = indirMask
    · rw [if_pos h₃, turnPointer_eq]
      constructor
      · rintro ⟨e, he⟩
        split_ifs at he with hin
        exact ⟨by omega, h₁, Or.inl h₃⟩
      · rintro ⟨hlast, -⟩
        rw [if_neg (by omega)]
        exact ⟨_, rfl⟩
    · rw [if_neg h₃]
      constructor
      · rintro ⟨e, he⟩
        cases he
      · rintro ⟨-, -, hp | ⟨h0, -⟩⟩
        · exact absurd hp h₃
        · exact absurd h0 h₂

/-- One round of `expandLoop`. -/
theorem expandLoop_succ (hs : InBounds eomorig length s) (k : ℕ) :
    (∀ t, turn m eomorig comp length s = .next t →
      expandLoop m eomorig comp length (k + 1) s.cp s.dn s.len s.checked =
        expandLoop m eomorig comp length k t.cp t.dn t.len t.checked) ∧
    ∀ r, turn m eomorig comp length s = .ret r →
      expandLoop m eomorig comp length (k + 1) s.cp s.dn s.len s.checked =
        r.map fun x => (x.1.dropLast, x.2) := by
  have hdn := hs.dn
  rw [turn_eq hs, expandLoop]
  simp only
  by_cases h₁ : m s.cp = 0
  · rw [if_pos h₁, if_pos h₁]
    refine ⟨fun t ht => (by cases ht), fun r hr => ?_⟩
    cases hr
    simp
  rw [if_neg h₁, if_neg h₁]
  by_cases h₂ : m s.cp &&& indirMask = 0
  · have hfull : ¬ (s.dn ≠ [] ∧ s.dn.length ≥ length) := fun h => absurd h.2 (by omega)
    rw [if_pos h₂, if_pos h₂, turnLabel_eq hs h₁, if_neg hfull,
      show (if s.dn ≠ [] then s.dn ++ [dot] else s.dn) = separated s.dn from rfl]
    by_cases hroom : (separated s.dn).length + (m s.cp).toNat ≥ length
    · rw [if_pos hroom, if_pos hroom]
      refine ⟨fun t ht => (by cases ht), fun r hr => ?_⟩
      cases hr
      rfl
    · rw [if_neg hroom, if_neg hroom]
      by_cases hcp : s.cp + 1 < eomorig
      · rw [if_pos hcp]
        cases expandLabel m eomorig length (m s.cp).toNat (s.cp + 1) (separated s.dn) with
        | none =>
          refine ⟨fun t ht => (by cases ht), fun r hr => ?_⟩
          cases hr
          rfl
        | some x =>
          refine ⟨fun t ht => ?_, fun r hr => (by cases hr)⟩
          cases ht
          rfl
      · rw [if_neg hcp]
        exact ⟨fun t ht => (by cases ht), fun r hr => (by cases hr)⟩
  · rw [if_neg h₂, if_neg h₂]
    by_cases h₃ : m s.cp &&& indirMask = indirMask
    · rw [if_pos h₃, if_pos h₃, turnPointer_eq]
      by_cases hcp : s.cp + 1 < eomorig
      · rw [if_pos hcp]
        split_ifs
        · refine ⟨fun t ht => (by cases ht), fun r hr => ?_⟩
          cases hr
          rfl
        · refine ⟨fun t ht => (by cases ht), fun r hr => ?_⟩
          cases hr
          rfl
        · refine ⟨fun t ht => ?_, fun r hr => (by cases hr)⟩
          cases ht
          rfl
      · rw [if_neg hcp]
        exact ⟨fun t ht => (by cases ht), fun r hr => (by cases hr)⟩
    · rw [if_neg h₃, if_neg h₃]
      refine ⟨fun t ht => (by cases ht), fun r hr => ?_⟩
      cases hr
      rfl

/-- The machine does what `expandLoop` does with as many rounds. -/
theorem expandLoop_eq_of_run {k : ℕ} {r : Option (List Byte × ℕ)} (hs : InBounds eomorig length s)
    (h : run (turn m eomorig comp length) k s = .ret r) :
    expandLoop m eomorig comp length k s.cp s.dn s.len s.checked =
      r.map fun x => (x.1.dropLast, x.2) := by
  induction k generalizing s with
  | zero => cases h
  | succ k ih =>
    rw [run_succ] at h
    cases ht : turn m eomorig comp length s with
    | fault e =>
      rw [ht] at h
      cases h
    | ret v =>
      rw [ht] at h
      cases h
      exact (expandLoop_succ hs k).2 _ ht
    | next t =>
      rw [ht] at h
      rw [(expandLoop_succ hs k).1 t ht]
      exact ih (turn_next hs ht).1 h

end Turn

/-! ### Skipping a name -/

section Skip

variable {m : ByteMem} {eom comp cp f k : ℕ} {r r' : Option ℕ}

theorem skipLoop_succ (h : cp < eom) : skipLoop m eom (f + 1) cp =
    if m cp = 0 then .ok (some (cp + 1))
    else if m cp &&& indirMask = 0 then skipLoop m eom f (cp + 1 + (m cp).toNat)
    else if m cp &&& indirMask = indirMask then .ok (some (cp + 2))
    else .ok none := by
  rw [skipLoop, if_pos h, readByte_ok h]
  rfl

theorem skipLoop_mono (h : skipLoop m eom f cp = .ok r) (k : ℕ) :
    skipLoop m eom (f + k) cp = .ok r := by
  induction f generalizing cp with
  | zero => cases h
  | succ f ih =>
    rw [Nat.add_right_comm]
    by_cases hcp : cp < eom
    · rw [skipLoop_succ hcp] at h ⊢
      split_ifs at h ⊢ with h₁ h₂ h₃
      · exact h
      · exact ih h
      · exact h
      · exact h
    · rw [skipLoop, if_neg hcp] at h ⊢
      exact h

theorem skipLoop_unique (h : skipLoop m eom f cp = .ok r) (h' : skipLoop m eom k cp = .ok r') :
    r = r' := by
  have e := skipLoop_mono h k
  rw [Nat.add_comm, skipLoop_mono h' f] at e
  exact (Except.ok.inj e).symm

/-- Each turn goes on in the message or ends, so that there are turns enough. -/
theorem skipLoop_total (hf : eom < cp + f) (h0 : 0 < f) : ∃ r, skipLoop m eom f cp = .ok r := by
  induction f generalizing cp with
  | zero => omega
  | succ f ih =>
    by_cases hcp : cp < eom
    · rw [skipLoop_succ hcp]
      split_ifs
      · exact ⟨_, rfl⟩
      · exact ih (by omega) (by omega)
      · exact ⟨_, rfl⟩
      · exact ⟨_, rfl⟩
    · rw [skipLoop, if_neg hcp]
      exact ⟨_, rfl⟩

theorem skipname_of_skipLoop {size : ℕ} (h : skipLoop m eom f comp = .ok (some (comp + size))) :
    skipname m comp eom = .ok (some size) := by
  obtain ⟨r, hr⟩ : ∃ r, skipLoop m eom (eom + 1) comp = .ok r :=
    skipLoop_total (by omega) (by omega)
  rw [skipname, hr, skipLoop_unique hr h]
  simp [bind, Except.bind, pure, Except.pure]

end Skip

/-! ### Calls -/

section Calls

variable {m : ByteMem} {eomorig comp length : ℕ} {s s' : Loop}

/-- `__dn_skipname` comes to the position of the loop, as long as no pointer has been met, and to the
end of the name at the first pointer. -/
structure Skips (m : ByteMem) (eomorig comp : ℕ) (s : Loop) : Prop where
  start : s.len = none → comp ≤ s.cp ∧ ∀ f r, skipLoop m eomorig f s.cp = .ok r →
    ∃ g, skipLoop m eomorig g comp = .ok r
  pointer : ∀ l, s.len = some l → ∃ g, skipLoop m eomorig g comp = .ok (some (comp + l))

theorem Skips.turn (h : Skips m eomorig comp s) (hs : InBounds eomorig length s)
    (ht : turn m eomorig comp length s = .next s') : Skips m eomorig comp s' := by
  have hcp := hs.cp
  rcases (turn_next hs ht).2 with ⟨h₁, h₂, hcp', hlen, -⟩ | ⟨h₁, h₃, hlen, -⟩
  · refine ⟨fun hn => ?_, fun l hl => h.pointer l (hlen ▸ hl)⟩
    -- both go over the label
    obtain ⟨hle, hgo⟩ := h.start (hlen ▸ hn)
    refine ⟨by omega, fun f r hf => hgo (f + 1) r ?_⟩
    rw [skipLoop_succ hcp, if_neg h₁, if_pos h₂, ← hcp', hf]
  · refine ⟨fun hn => absurd (hlen.symm.trans hn) (by simp), fun l hl => ?_⟩
    rw [hlen, Option.some.injEq] at hl
    cases he : s.len with
    | some l' =>
      rw [he, Option.getD_some] at hl
      exact h.pointer l (by rw [he, hl])
    | none =>
      have h₂ : m s.cp &&& indirMask ≠ 0 := by
        rw [h₃]
        decide
      obtain ⟨hle, hgo⟩ := h.start he
      rw [he, Option.getD_none] at hl
      apply hgo 1
      rw [skipLoop_succ hcp, if_neg h₁, if_neg h₂, if_pos h₃, ← hl]
      congr 2
      omega

/-- What holds at every state that the loop comes to. -/
theorem reached_inv (hcomp : comp < eomorig) (hlen : 1 ≤ length)
    (h : Machine.Reached (turn m eomorig comp length) (start comp) s) :
    InBounds eomorig length s ∧ Skips m eomorig comp s := by
  refine Machine.Reached.invariant
    (P := fun t => InBounds eomorig length t ∧ Skips m eomorig comp t) ?_
    (fun t u _ hi ht => ⟨(turn_next hi.1 ht).1, hi.2.turn hi.1 ht⟩) h
  refine ⟨⟨hcomp, hlen⟩, ⟨fun _ => ⟨le_rfl, fun f r hf => ⟨f, hf⟩⟩, ?_⟩⟩
  intro l hl
  cases hl

/-- The turns that are left at most: pointers add to `checked`, and labels go on in the message. -/
def left (eomorig : ℕ) (s : Loop) : ℕ := (eomorig - s.checked) * (eomorig + 1) + (eomorig - s.cp)

theorem left_lt (hs : InBounds eomorig length s)
    (ht : turn m eomorig comp length s = .next s') : left eomorig s' < left eomorig s := by
  have hcp := hs.cp
  unfold left
  rcases (turn_next hs ht).2 with ⟨-, -, hcp', -, hch⟩ | ⟨-, -, -, hch, hch'⟩
  · have h : (eomorig - s'.checked) * (eomorig + 1) ≤ (eomorig - s.checked) * (eomorig + 1) :=
      Nat.mul_le_mul_right _ (by omega)
    omega
  · -- a pointer may go anywhere, but only so often
    have h : (eomorig - s'.checked + 1) * (eomorig + 1) ≤ (eomorig - s.checked) * (eomorig + 1) :=
      Nat.mul_le_mul_right _ (by omega)
    rw [Nat.succ_mul] at h
    omega

/-- A run that returns does so in its last step. -/
theorem exists_last {k : ℕ} {r : Option (List Byte × ℕ)} {step : Loop → Outcome Loop _ Fault}
    (h : run step k s = .ret r) : ∃ t, Machine.Reached step s t ∧ step t = .ret r := by
  induction k with
  | zero => cases h
  | succ k ih =>
    rw [run_succ'] at h
    cases hr : run step k s with
    | next t =>
      rw [hr] at h
      exact ⟨t, ⟨k, hr⟩, h⟩
    | ret v =>
      rw [hr] at h
      cases h
      exact ih hr
    | fault e =>
      rw [hr] at h
      cases h

/-- A call comes to its end and reads and writes nothing out of place; and if there is a name, it fits
in the buffer with its NUL, and `__dn_skipname` finds the same size. -/
def Safe (m : ByteMem) (eomorig comp length : ℕ) : Prop :=
  ∃ k r, run (turn m eomorig comp length) k (start comp) = .ret r ∧
    ∀ name size, r = some (name, size) → name.length ≤ length ∧ name.getLast? = some 0 ∧
      skipname m comp eomorig = .ok (some size)

/-- A name is returned by a turn at its NUL. -/
theorem turn_ret (hs : InBounds eomorig length s) (hk : Skips m eomorig comp s) {name : List Byte}
    {size : ℕ} (ht : turn m eomorig comp length s = .ret (some (name, size))) :
    name.length ≤ length ∧ name.getLast? = some 0 ∧
      skipname m comp eomorig = .ok (some size) := by
  have hcp := hs.cp
  have hdn := hs.dn
  rw [turn_eq hs] at ht
  split_ifs at ht with h₁ h₂ h₃
  · cases ht
    refine ⟨by rw [List.length_append, List.length_singleton]; omega, by simp, ?_⟩
    cases he : s.len with
    | some l =>
      obtain ⟨g, hg⟩ := hk.pointer l he
      exact skipname_of_skipLoop hg
    | none =>
      obtain ⟨hle, hgo⟩ := hk.start he
      obtain ⟨g, hg⟩ := hgo 1 (some (s.cp + 1)) (by rw [skipLoop_succ hcp, if_pos h₁])
      apply skipname_of_skipLoop (f := g)
      rw [hg, Option.getD_none]
      congr 2
      omega
  · rw [turnLabel_eq hs h₁] at ht
    split_ifs at ht
    · cases ht
    · split at ht
      · cases ht
      · cases ht
  · rw [turnPointer_eq] at ht
    split_ifs at ht
    · cases ht
    · cases ht
  · cases ht

/-- A call is safe exactly when the loop comes to no length or pointer at the end of the message
whose next byte it reads. -/
theorem safe_iff (m : ByteMem) (eomorig comp length : ℕ) (hcomp : comp < eomorig)
    (hlen : 1 ≤ length) : Safe m eomorig comp length ↔
      ∀ s, Machine.Reached (turn m eomorig comp length) (start comp) s → ¬ Past m eomorig length s := by
  constructor
  · rintro ⟨k, r, hk, -⟩ s hs hp
    obtain ⟨e, he⟩ : ∃ e, turn m eomorig comp length s = .fault e :=
      (turn_fault_iff (reached_inv hcomp hlen hs).1).2 hp
    exact step_ne_fault_of_run_ret hk hs e he
  · intro hpast
    -- no turn faults, and each leaves fewer
    obtain ⟨k, r, hk⟩ := exists_ret_of_measure (turn m eomorig comp length) (left eomorig)
      (s := start comp) (by
        intro t ht
        have hi := (reached_inv hcomp hlen ht).1
        cases hn : turn m eomorig comp length t with
        | next u => exact Or.inr ⟨u, rfl, left_lt hi hn⟩
        | ret v => exact Or.inl ⟨v, rfl⟩
        | fault e => exact absurd ((turn_fault_iff hi).1 ⟨e, hn⟩) (hpast t ht))
    refine ⟨k, r, hk, ?_⟩
    rintro name size rfl
    obtain ⟨t, ht, hret⟩ := exists_last hk
    have hi := reached_inv hcomp hlen ht
    exact turn_ret hi.1 hi.2 hret

/-- A message of one byte, the NUL of the root. -/
theorem safe_iff_root : Safe (fun _ => 0) 1 0 1 ↔
    ∀ s, Machine.Reached (turn (fun _ => 0) 1 0 1) (start 0) s → ¬ Past (fun _ => 0) 1 1 s :=
  safe_iff _ 1 0 1 (by omega) (by omega)

/-- In a message of one byte that is a pointer, the byte behind it is read. -/
theorem not_safe_pointer : turn (fun _ => 0xC0) 1 0 255 (start 0) = .fault .deref ∧
    ¬ Safe (fun _ => 0xC0) 1 0 255 := by
  have hf : turn (fun _ => 0xC0) 1 0 255 (start 0) = .fault .deref := rfl
  refine ⟨hf, ?_⟩
  rintro ⟨k, r, hk, -⟩
  exact step_ne_fault_of_run_ret hk (Machine.Reached.refl _ _) _ hf

end Calls

end ResComp
