import Mathlib.Data.List.Pairwise
import NetBsd.Ufs.Lockf.Model

/-!
# What setting and removing a lock does to the list of an inode

The two loops of `lf_setlock` and `lf_clearlock` on the list of locks itself, with no pointers:
which bytes each owner holds afterwards, and where an `off_t` overflows.

## Main definitions

* `Lock.Covers`, `held`: the bytes of a lock, and who holds a byte of a list
* `Ordered`: the locks of each owner are disjoint and in increasing order
* `setList`, `clearList`: the list that setting or removing a lock leaves
* `SetWraps`, `ClearWraps`: the start of a lock overflows on the way
* `SetDone`, `ClearDone`: what is to become of the bytes and of the order

## Main results

* `held_setList_own`, `held_clearList_own`: the bytes held afterwards
* `kept_setList`, `part_clearList`: where the locks of the new list come from
* `ordered_setList`, `ordered_clearList`: the order is kept
* `setDone_iff`, `clearDone_iff`: the loops do what they are to do unless a start overflows
-/

namespace Lockf

/-- A lock on the list of an inode, and its address. -/
abbrev Node := Addr × Lock

/-- The largest `off_t`. -/
def maxOff : Int := 2 ^ 31 - 1

/-- A range that a request may have. -/
structure Lock.Valid (x : Lock) : Prop where
  start_nonneg : 0 ≤ x.lfStart
  start_le : x.lfStart ≤ maxOff
  end_le : x.lfEnd ≤ maxOff
  end_eq_or : x.lfEnd = -1 ∨ x.lfStart ≤ x.lfEnd

/-- The byte `b` is in the range of the lock. -/
def Lock.Covers (x : Lock) (b : ℕ) : Prop := x.lfStart ≤ b ∧ (x.lfEnd = -1 ∨ b ≤ x.lfEnd)

instance (x : Lock) (b : ℕ) : Decidable (x.Covers b) := inferInstanceAs (Decidable (_ ∧ _))

/-- The owner `id` holds the byte `b` with a lock of the type `t`. -/
def held (l : List Node) (id : Id) (t : LkType) (b : ℕ) : Prop :=
  ∃ n ∈ l, n.2.lfId = id ∧ n.2.lfType = t ∧ n.2.Covers b

/-- A lock ends before a later lock of the same owner starts. -/
def Before (n m : Node) : Prop :=
  n.2.lfId = m.2.lfId → n.2.lfEnd ≠ -1 ∧ n.2.lfEnd < m.2.lfStart

/-- The locks of each owner are disjoint and in increasing order. -/
def Ordered (l : List Node) : Prop := l.Pairwise Before

/-- A scan for the own locks that overlap `r` goes past the lock `x`. -/
def Passes (r x : Lock) : Prop :=
  x.lfId ≠ r.lfId ∨ (Apart x r ∧ ¬(r.lfEnd ≠ -1 ∧ x.lfStart > r.lfEnd))

instance (r x : Lock) : Decidable (Passes r x) := inferInstanceAs (Decidable (_ ∨ _))

/-- The list after the loop of `lf_setlock`; `c` is the lock that `lf_split` allocates, and `w`
the start of a piece behind the request. -/
def setList (a : Addr) (r : Lock) (c : Addr) (w : Int) (needtolink : Bool) :
    List Node → List Node
  | [] => if needtolink then [(a, r)] else []
  | (b, x) :: l =>
    if Passes r x then (b, x) :: setList a r c w needtolink l
    else if Apart x r then if needtolink then (a, r) :: (b, x) :: l else (b, x) :: l
    else match classify x r with
      | .error _ => (b, x) :: l
      | .ok .equal => (b, { x with lfType := r.lfType }) :: l
      | .ok .contains =>
        if x.lfType = r.lfType then (b, x) :: l
        else if x.lfStart = r.lfStart then (a, r) :: (b, { x with lfStart := w }) :: l
        else if x.lfEnd = r.lfEnd then (b, { x with lfEnd := r.lfStart - 1 }) :: (a, r) :: l
        else (b, { x with lfEnd := r.lfStart - 1 }) :: (a, r) :: (c, { x with lfStart := w }) :: l
      | .ok .within =>
        if needtolink then (a, r) :: setList a r c w false l else setList a r c w false l
      | .ok .startsBefore =>
        (b, { x with lfEnd := r.lfStart - 1 }) :: (a, r) :: setList a r c w false l
      | .ok .endsAfter =>
        if needtolink then (a, r) :: (b, { x with lfStart := w }) :: l
        else (b, { x with lfStart := w }) :: l

/-- The list after the loop of `lf_clearlock`; `c` is the lock that `lf_split` allocates, and
`w` the start of a piece behind the range. -/
def clearList (r : Lock) (c : Addr) (w : Int) : List Node → List Node
  | [] => []
  | (b, x) :: l =>
    if Passes r x then (b, x) :: clearList r c w l
    else if Apart x r then (b, x) :: l
    else match classify x r with
      | .error _ => (b, x) :: l
      | .ok .equal => l
      | .ok .contains =>
        if x.lfStart = r.lfStart then (b, { x with lfStart := w }) :: l
        else if x.lfEnd = r.lfEnd then (b, { x with lfEnd := r.lfStart - 1 }) :: l
        else (b, { x with lfEnd := r.lfStart - 1 }) :: (c, { x with lfStart := w }) :: l
      | .ok .within => clearList r c w l
      | .ok .startsBefore => (b, { x with lfEnd := r.lfStart - 1 }) :: clearList r c w l
      | .ok .endsAfter => (b, { x with lfStart := w }) :: l

/-- Setting the lock makes a piece that starts behind the last byte of all. -/
def SetWraps (r : Lock) (l : List Node) : Prop :=
  r.lfEnd = maxOff ∧ ∃ n ∈ l, n.2.lfId = r.lfId ∧ n.2.lfEnd = -1 ∧
    (n.2.lfType ≠ r.lfType ∨ r.lfStart < n.2.lfStart)

/-- Removing the lock makes a piece that starts behind the last byte of all. -/
def ClearWraps (r : Lock) (l : List Node) : Prop :=
  r.lfEnd = maxOff ∧ ∃ n ∈ l, n.2.lfId = r.lfId ∧ n.2.lfEnd = -1

/-- What setting the lock `r` is to do to a list. -/
structure SetDone (r : Lock) (l l' : List Node) : Prop where
  held_iff : ∀ id t k, held l' id t k ↔
    if id = r.lfId ∧ r.Covers k then t = r.lfType else held l id t k
  ordered : Ordered l'

/-- What removing the lock `r` is to do to a list. -/
structure ClearDone (r : Lock) (l l' : List Node) : Prop where
  held_iff : ∀ id t k, held l' id t k ↔ ¬(id = r.lfId ∧ r.Covers k) ∧ held l id t k
  ordered : Ordered l'

variable {a b c : Addr} {r x : Lock} {l : List Node} {id : Id} {t : LkType} {k : ℕ}

/-! ## The six cases -/

theorem wrap_of_ne (hr : r.Valid) (h : r.lfEnd ≠ maxOff) : wrap (r.lfEnd + 1) = r.lfEnd + 1 := by
  have h₀ := hr.start_nonneg
  have h₁ := hr.end_eq_or
  have h₂ := hr.end_le
  unfold maxOff at h h₂
  exact Int.bmod_eq_of_le (by omega) (by omega)

theorem wrap_maxOff : wrap (maxOff + 1) = -2 ^ 31 := by decide

/-- What the cases say about the two ranges; the `panic` is not reached. -/
theorem classify_cases (hx : x.Valid) (hr : r.Valid) (h : ¬Apart x r) :
    (classify x r = .ok .equal ∧ x.lfStart = r.lfStart ∧ x.lfEnd = r.lfEnd) ∨
    (classify x r = .ok .contains ∧ x.lfStart ≤ r.lfStart ∧ r.lfEnd ≠ -1 ∧
      (x.lfEnd = -1 ∨ r.lfEnd ≤ x.lfEnd) ∧
      (x.lfStart ≠ r.lfStart ∨ x.lfEnd ≠ r.lfEnd)) ∨
    (classify x r = .ok .within ∧ r.lfStart ≤ x.lfStart ∧
      (r.lfEnd = -1 ∨ (x.lfEnd ≠ -1 ∧ x.lfEnd ≤ r.lfEnd))) ∨
    (classify x r = .ok .startsBefore ∧ x.lfStart < r.lfStart ∧
      (x.lfEnd = -1 ∨ r.lfStart ≤ x.lfEnd) ∧
      (r.lfEnd = -1 ∨ (x.lfEnd ≠ -1 ∧ x.lfEnd < r.lfEnd))) ∨
    (classify x r = .ok .endsAfter ∧ r.lfStart < x.lfStart ∧ r.lfEnd ≠ -1 ∧
      x.lfStart ≤ r.lfEnd ∧ (x.lfEnd = -1 ∨ r.lfEnd < x.lfEnd)) := by
  have h₁ := hx.end_eq_or
  have h₂ := hr.end_eq_or
  unfold Apart at h
  unfold classify
  split_ifs <;> simp <;> omega

/-! ## The bytes held -/

@[simp] theorem held_nil : ¬held [] id t k := by simp [held]

theorem held_cons {n : Node} : held (n :: l) id t k ↔
    (n.2.lfId = id ∧ n.2.lfType = t ∧ n.2.Covers k) ∨ held l id t k := by
  simp [held]

/-- The owner of a lock holds with later locks only what lies behind it. -/
theorem held_behind {n : Node} (ho : Ordered (n :: l)) (h : held l n.2.lfId t k) :
    n.2.lfEnd ≠ -1 ∧ n.2.lfEnd < k := by
  obtain ⟨m, hm, hid, -, hk⟩ := h
  have := (List.pairwise_cons.mp ho).1 m hm hid.symm
  have := hk.1
  omega

theorem held_setList_other (hid : id ≠ r.lfId) (ntl : Bool) :
    held (setList a r c (r.lfEnd + 1) ntl l) id t k ↔ held l id t k := by
  induction l generalizing ntl with
  | nil => cases ntl <;> simp [setList, held_cons, hid.symm]
  | cons n l ih =>
    obtain ⟨b, x⟩ := n
    have hx : ¬Passes r x → x.lfId ≠ id := fun h he => h (.inl (he ▸ hid))
    unfold setList
    grind [held_cons]

/-- After the request is linked, only locks that start behind its start are met: what of them
lies in the range of the request is given up. -/
theorem held_setList_linked (ho : Ordered l) (hv : ∀ n ∈ l, n.2.Valid) (hr : r.Valid)
    (hs : ∀ n ∈ l, n.2.lfId = r.lfId → r.lfStart < n.2.lfStart) :
    held (setList a r c (r.lfEnd + 1) false l) r.lfId t k ↔ ¬r.Covers k ∧ held l r.lfId t k := by
  induction l with
  | nil => simp [setList]
  | cons n l ih =>
    obtain ⟨b, x⟩ := n
    have hx := hv (b, x) List.mem_cons_self
    have hb : x.lfId = r.lfId → held l r.lfId t k → x.lfEnd ≠ -1 ∧ x.lfEnd < k := by
      intro h hl
      rw [← h] at hl
      exact held_behind ho hl
    have ih := ih (List.pairwise_cons.mp ho).2 (fun m hm => hv m (by simp [hm]))
      (fun m hm => hs m (by simp [hm]))
    have hs := hs (b, x) List.mem_cons_self
    have h₁ := hx.end_eq_or
    have h₂ := hr.end_eq_or
    unfold setList
    by_cases hp : Passes r x
    · rw [if_pos hp, held_cons, held_cons, ih]
      unfold Passes Apart at hp
      unfold Lock.Covers
      grind
    rw [if_neg hp]
    by_cases hap : Apart x r
    · rw [if_pos hap]
      unfold Passes Apart at hp
      unfold Apart at hap
      unfold Lock.Covers
      grind [held_cons, Lock.Covers]
    rw [if_neg hap]
    have hid : x.lfId = r.lfId := not_not.mp fun h => hp (.inl h)
    rcases classify_cases hx hr hap with h | h | h | h | h <;> rw [h.1]
    all_goals grind [held_cons, Lock.Covers, Apart]

/-- Setting a lock: its bytes go to the request, and the owner keeps the others. -/
theorem held_setList_own (ho : Ordered l) (hv : ∀ n ∈ l, n.2.Valid) (hr : r.Valid) :
    held (setList a r c (r.lfEnd + 1) true l) r.lfId t k ↔
      (r.Covers k ∧ r.lfType = t) ∨ (¬r.Covers k ∧ held l r.lfId t k) := by
  induction l with
  | nil => simp [setList, held_cons, and_comm]
  | cons n l ih =>
    obtain ⟨b, x⟩ := n
    have hx := hv (b, x) List.mem_cons_self
    have ho' := List.pairwise_cons.mp ho
    have hb : x.lfId = r.lfId → held l r.lfId t k → x.lfEnd ≠ -1 ∧ x.lfEnd < k := by
      intro h hl
      rw [← h] at hl
      exact held_behind ho hl
    have hv' : ∀ m ∈ l, m.2.Valid := fun m hm => hv m (by simp [hm])
    have ih := ih ho'.2 hv'
    have hlinked : x.lfId = r.lfId → r.lfStart ≤ x.lfEnd ∨ x.lfEnd = -1 →
        (held (setList a r c (r.lfEnd + 1) false l) r.lfId t k ↔ ¬r.Covers k ∧ held l r.lfId t k) :=
      fun hid hse => held_setList_linked ho'.2 hv' hr fun m hm hmid => by
        have : x.lfEnd ≠ -1 ∧ x.lfEnd < m.2.lfStart := ho'.1 m hm (hid.trans hmid.symm)
        omega
    have h₁ := hx.end_eq_or
    have h₂ := hr.end_eq_or
    have h₃ := hx.start_nonneg
    have h₄ := hr.start_nonneg
    unfold setList
    by_cases hp : Passes r x
    · rw [if_pos hp, held_cons, held_cons, ih]
      unfold Passes Apart at hp
      unfold Lock.Covers
      grind
    rw [if_neg hp]
    by_cases hap : Apart x r
    · rw [if_pos hap]
      unfold Passes Apart at hp
      unfold Apart at hap
      grind [held_cons, Lock.Covers]
    rw [if_neg hap]
    have hid : x.lfId = r.lfId := not_not.mp fun h => hp (.inl h)
    clear ih hv hv' ho ho' hp
    unfold Apart at hap
    rcases classify_cases hx hr hap with h | h | h | h | h <;> rw [h.1]
    · grind [held_cons, Lock.Covers]
    · grind [held_cons, Lock.Covers]
    · grind [held_cons, Lock.Covers]
    · grind [held_cons, Lock.Covers]
    · grind [held_cons, Lock.Covers]

/-! ## The locks of the new list -/

/-- `y` is what is left of `x`, or a part of it. -/
structure Part (x y : Lock) : Prop where
  id : y.lfId = x.lfId
  type : y.lfType = x.lfType
  inode : y.lfInode = x.lfInode
  start_le : x.lfStart ≤ y.lfStart
  le_end : x.lfEnd = -1 ∨ (y.lfEnd ≠ -1 ∧ y.lfEnd ≤ x.lfEnd)

/-- `y` is the request, or a lock with its range that has taken its type. -/
structure Grants (r y : Lock) : Prop where
  id : y.lfId = r.lfId
  type : y.lfType = r.lfType
  start_eq : y.lfStart = r.lfStart
  end_eq : y.lfEnd = r.lfEnd

theorem Part.refl (x : Lock) : Part x x :=
  ⟨rfl, rfl, rfl, le_rfl, by omega⟩

/-- A lock that the new list may have: it grants the request or is part of an old one. -/
def Kept (r : Lock) (l : List Node) (y : Lock) : Prop := Grants r y ∨ ∃ n ∈ l, Part n.2 y

theorem Kept.cons {y : Lock} (h : Kept r l y) (n : Node) : Kept r (n :: l) y :=
  h.imp_right fun ⟨m, hm, hp⟩ => ⟨m, List.mem_cons_of_mem _ hm, hp⟩

theorem Part.kept {y : Lock} (h : Part x y) (b : Addr) (l : List Node) :
    Kept r ((b, x) :: l) y :=
  .inr ⟨(b, x), List.mem_cons_self, h⟩

theorem kept_of_mem {m : Node} (hm : m ∈ l) : Kept r l m.2 := .inr ⟨m, hm, .refl _⟩

theorem kept_request (a : Addr) (l : List Node) : Kept r l (a, r).2 := .inl ⟨rfl, rfl, rfl, rfl⟩

/-- The piece of an own lock before the request. -/
theorem part_left (hx : x.Valid) (h : ¬Apart x r) (hlt : x.lfStart < r.lfStart) :
    Part x { x with lfEnd := r.lfStart - 1 } := by
  have := hx.start_nonneg
  unfold Apart at h
  refine ⟨rfl, rfl, rfl, le_rfl, ?_⟩
  dsimp only
  omega

/-- The piece of an own lock behind the request. -/
theorem part_right (h : ¬Apart x r)
    (hr : r.lfEnd ≠ -1) : Part x { x with lfStart := r.lfEnd + 1 } := by
  unfold Apart at h
  refine ⟨rfl, rfl, rfl, ?_, ?_⟩ <;> dsimp only
  · omega
  · omega

/-- Each lock of the new list grants the request or is part of an old one. -/
theorem kept_setList (hv : ∀ n ∈ l, n.2.Valid) (hr : r.Valid) (ntl : Bool) :
    ∀ m ∈ setList a r c (r.lfEnd + 1) ntl l, Kept r l m.2 := by
  induction l generalizing ntl with
  | nil =>
    cases ntl
    · exact fun _ hm => nomatch hm
    · exact List.forall_mem_singleton.mpr (kept_request a [])
  | cons n l ih =>
    obtain ⟨b, x⟩ := n
    have hx : x.Valid := hv (b, x) List.mem_cons_self
    have hrec : ∀ ntl, ∀ m ∈ setList a r c (r.lfEnd + 1) ntl l, Kept r ((b, x) :: l) m.2 := fun ntl m hm =>
      (ih (fun m hm => hv m (List.mem_cons_of_mem _ hm)) ntl m hm).cons _
    have hself : Kept r ((b, x) :: l) x := (Part.refl x).kept b l
    have hold : ∀ m ∈ l, Kept r ((b, x) :: l) m.2 := fun m hm => (kept_of_mem hm).cons _
    have hreq : Kept r ((b, x) :: l) r := kept_request a _
    by_cases hp : Passes r x
    · simp only [setList, if_pos hp, List.forall_mem_cons]
      exact ⟨hself, hrec ntl⟩
    by_cases hap : Apart x r
    · simp only [setList, if_neg hp, if_pos hap]
      split_ifs <;> simp only [List.forall_mem_cons]
      · exact ⟨hreq, hself, hold⟩
      · exact ⟨hself, hold⟩
    have hid : x.lfId = r.lfId := not_not.mp fun h => hp (.inl h)
    rcases classify_cases hx hr hap with h | h | h | h | h <;>
      simp only [setList, if_neg hp, if_neg hap, h.1]
    · exact List.forall_mem_cons.mpr ⟨.inl ⟨hid, rfl, h.2.1, h.2.2⟩, hold⟩
    · have hright := (part_right hap h.2.2.1).kept (r := r) b l
      have hleft := fun hne => (part_left hx hap (lt_of_le_of_ne h.2.1 hne)).kept (r := r) b l
      split_ifs with h₁ h₂ h₃ <;> simp only [List.forall_mem_cons]
      · exact ⟨hself, hold⟩
      · exact ⟨hreq, hright, hold⟩
      · exact ⟨hleft h₂, hreq, hold⟩
      · exact ⟨hleft h₂, hreq, hright, hold⟩
    · split_ifs
      · exact List.forall_mem_cons.mpr ⟨hreq, hrec false⟩
      · exact hrec false
    · simp only [List.forall_mem_cons]
      exact ⟨(part_left hx hap h.2.1).kept b l, hreq, hrec false⟩
    · have hright := (part_right hap h.2.2.1).kept (r := r) b l
      split_ifs <;> simp only [List.forall_mem_cons]
      · exact ⟨hreq, hright, hold⟩
      · exact ⟨hright, hold⟩

/-! ## The order -/

theorem Before.kept {n m : Node} (h : ∀ k ∈ l, Before n k)
    (hn : n.2.lfId = r.lfId → n.2.lfEnd ≠ -1 ∧ n.2.lfEnd < r.lfStart) (hm : Kept r l m.2) :
    Before n m := by
  intro hid
  rcases hm with hm | ⟨k, hk, hm⟩
  · rw [hm.start_eq]
    exact hn (hid.trans hm.id)
  · have := h k hk (hid.trans hm.id)
    have := hm.start_le
    omega

theorem ordered_cons {n : Node} : Ordered (n :: l) ↔ (∀ m ∈ l, Before n m) ∧ Ordered l :=
  List.pairwise_cons

/-- After the request is linked, the order is kept, and what is left starts behind it. -/
theorem ordered_setList_linked (ho : Ordered l) (hv : ∀ n ∈ l, n.2.Valid) (hr : r.Valid)
    (hs : ∀ n ∈ l, n.2.lfId = r.lfId → r.lfStart < n.2.lfStart) :
    Ordered (setList a r c (r.lfEnd + 1) false l) ∧ ∀ m ∈ setList a r c (r.lfEnd + 1) false l, Before (a, r) m := by
  induction l with
  | nil => exact ⟨List.Pairwise.nil, fun _ hm => nomatch hm⟩
  | cons n l ih =>
    obtain ⟨b, x⟩ := n
    have hx : x.Valid := hv (b, x) List.mem_cons_self
    have hv' : ∀ n ∈ l, n.2.Valid := fun m hm => hv m (List.mem_cons_of_mem _ hm)
    have hkept := kept_setList (a := a) (c := c) hv' hr false
    obtain ⟨hb, ho⟩ := ordered_cons.mp ho
    obtain ⟨iho, ihb⟩ := ih ho hv' fun m hm => hs m (List.mem_cons_of_mem _ hm)
    have hs' : x.lfId = r.lfId → r.lfStart < x.lfStart := hs (b, x) List.mem_cons_self
    have h₁ := hx.end_eq_or
    have hrx : Apart x r → x.lfId = r.lfId → r.lfEnd ≠ -1 ∧ r.lfEnd < x.lfStart := by
      intro h hid
      have := hs' hid
      unfold Apart at h
      omega
    have hrl : r.lfEnd ≠ -1 → (x.lfEnd = -1 ∨ r.lfEnd ≤ x.lfEnd) → x.lfId = r.lfId →
        ∀ m ∈ l, Before (a, r) m := by
      intro h₁ h₂ hid m hm hmid
      have : x.lfEnd ≠ -1 ∧ x.lfEnd < m.2.lfStart := hb m hm (hid.trans hmid)
      show r.lfEnd ≠ -1 ∧ r.lfEnd < m.2.lfStart
      omega
    by_cases hp : Passes r x
    · have hid : x.lfId ≠ r.lfId := by
        rcases hp with hid | ⟨hap, hn⟩
        · exact hid
        · exact fun hid => hn (hrx hap hid)
      simp only [setList, if_pos hp]
      refine ⟨ordered_cons.mpr ⟨fun m hm => ?_, iho⟩, List.forall_mem_cons.mpr ⟨?_, ihb⟩⟩
      · exact Before.kept hb (fun h => absurd h hid) (hkept m hm)
      · exact fun h => absurd h.symm hid
    have hid : x.lfId = r.lfId := not_not.mp fun h => hp (.inl h)
    have hs' := hs' hid
    by_cases hap : Apart x r
    · simp only [setList, if_neg hp, if_pos hap]
      have := hrx hap hid
      refine ⟨ordered_cons.mpr ⟨hb, ho⟩, List.forall_mem_cons.mpr ⟨fun _ => this, ?_⟩⟩
      exact hrl this.1 (by omega) hid
    rcases classify_cases hx hr hap with h | h | h | h | h <;>
      simp only [setList, if_neg hp, if_neg hap, h.1]
    · omega
    · omega
    · exact ⟨iho, ihb⟩
    · omega
    · refine ⟨ordered_cons.mpr ⟨fun m hm => ?_, ho⟩, List.forall_mem_cons.mpr ⟨fun _ => ?_, ?_⟩⟩
      · exact hb m hm
      · show r.lfEnd ≠ -1 ∧ r.lfEnd < r.lfEnd + 1
        omega
      · exact hrl h.2.2.1 (by omega) hid

theorem ordered_setList (ho : Ordered l) (hv : ∀ n ∈ l, n.2.Valid) (hr : r.Valid) :
    Ordered (setList a r c (r.lfEnd + 1) true l) := by
  induction l with
  | nil => exact List.pairwise_singleton _ _
  | cons n l ih =>
    obtain ⟨b, x⟩ := n
    have hx : x.Valid := hv (b, x) List.mem_cons_self
    have hv' : ∀ n ∈ l, n.2.Valid := fun m hm => hv m (List.mem_cons_of_mem _ hm)
    have hkept := kept_setList (a := a) (c := c) hv' hr
    obtain ⟨hb, ho⟩ := ordered_cons.mp ho
    have h₁ := hx.end_eq_or
    have h₂ := hr.end_eq_or
    -- what follows an own lock that reaches the end of the request
    have hrl : r.lfEnd ≠ -1 → (x.lfEnd = -1 ∨ r.lfEnd ≤ x.lfEnd) → x.lfId = r.lfId →
        ∀ m ∈ l, Before (a, r) m := by
      intro h₁ h₂ hid m hm hmid
      have : x.lfEnd ≠ -1 ∧ x.lfEnd < m.2.lfStart := hb m hm (hid.trans hmid)
      show r.lfEnd ≠ -1 ∧ r.lfEnd < m.2.lfStart
      omega
    have hlinked := fun hs => ordered_setList_linked (a := a) (c := c) ho hv' hr hs
    have hsl : x.lfId = r.lfId → (x.lfEnd = -1 ∨ r.lfStart ≤ x.lfEnd) →
        ∀ m ∈ l, m.2.lfId = r.lfId → r.lfStart < m.2.lfStart := by
      intro hid hend m hm hmid
      have : x.lfEnd ≠ -1 ∧ x.lfEnd < m.2.lfStart := hb m hm (hid.trans hmid.symm)
      omega
    by_cases hp : Passes r x
    · simp only [setList, if_pos hp]
      refine ordered_cons.mpr ⟨fun m hm => Before.kept hb (fun hid => ?_) (hkept true m hm),
        ih ho hv'⟩
      show x.lfEnd ≠ -1 ∧ x.lfEnd < r.lfStart
      rcases hp with h | ⟨h, h'⟩
      · exact absurd hid h
      · unfold Apart at h
        omega
    have hid : x.lfId = r.lfId := not_not.mp fun h => hp (.inl h)
    by_cases hap : Apart x r
    · have hpast : r.lfEnd ≠ -1 ∧ r.lfEnd < x.lfStart := by
        by_contra h
        exact hp (.inr ⟨hap, h⟩)
      simp only [setList, if_neg hp, if_pos hap, if_true]
      refine ordered_cons.mpr ⟨List.forall_mem_cons.mpr ⟨fun _ => hpast, ?_⟩,
        ordered_cons.mpr ⟨hb, ho⟩⟩
      exact hrl hpast.1 (by omega) hid
    have hright : r.lfEnd ≠ -1 → ∀ m ∈ l, Before (c, { x with lfStart := r.lfEnd + 1 }) m :=
      fun _ m hm => hb m hm
    have hreq : r.lfEnd ≠ -1 → ∀ d, Before (a, r) (d, { x with lfStart := r.lfEnd + 1 }) := by
      intro h d _
      show r.lfEnd ≠ -1 ∧ r.lfEnd < r.lfEnd + 1
      omega
    have hleft : x.lfStart < r.lfStart → ∀ m : Node, (m.2.lfId = r.lfId → r.lfStart ≤ m.2.lfStart) →
        Before (b, { x with lfEnd := r.lfStart - 1 }) m := by
      intro hlt m hm hmid
      have := hx.start_nonneg
      have := hm (hmid.symm.trans hid)
      show r.lfStart - 1 ≠ -1 ∧ r.lfStart - 1 < m.2.lfStart
      omega
    have hl : x.lfEnd = -1 ∨ r.lfStart ≤ x.lfEnd → ∀ m ∈ l,
        m.2.lfId = r.lfId → r.lfStart ≤ m.2.lfStart := fun h m hm hmid =>
      (hsl hid h m hm hmid).le
    rcases classify_cases hx hr hap with h | h | h | h | h <;>
      simp only [setList, if_neg hp, if_neg hap, h.1]
    · exact ordered_cons.mpr ⟨hb, ho⟩
    · obtain ⟨-, hle, hne, hend, -⟩ := h
      have hse : x.lfEnd = -1 ∨ r.lfStart ≤ x.lfEnd := by omega
      have hrl := hrl hne hend hid
      have hbig : x.lfId = r.lfId → r.lfStart ≤ r.lfEnd + 1 := fun _ => by
        omega
      split_ifs with h₁ h₂ h₃ <;> simp only [ordered_cons, List.forall_mem_cons]
      · exact ⟨hb, ho⟩
      · exact ⟨⟨hreq hne b, hrl⟩, hright hne, ho⟩
      · have hlt := lt_of_le_of_ne hle h₂
        exact ⟨⟨hleft hlt _ fun _ => le_rfl, fun m hm => hleft hlt m (hl hse m hm)⟩, hrl, ho⟩
      · have hlt := lt_of_le_of_ne hle h₂
        exact ⟨⟨hleft hlt _ fun _ => le_rfl, hleft hlt _ hbig, fun m hm => hleft hlt m (hl hse m hm)⟩,
          ⟨hreq hne c, hrl⟩, hright hne, ho⟩
    · obtain ⟨ho', hb'⟩ := hlinked (hsl hid (by omega))
      exact ordered_cons.mpr ⟨hb', ho'⟩
    · obtain ⟨-, hlt, hse, -⟩ := h
      obtain ⟨ho', hb'⟩ := hlinked (hsl hid hse)
      simp only [ordered_cons, List.forall_mem_cons]
      refine ⟨⟨hleft hlt _ fun _ => le_rfl, fun m hm => hleft hlt m fun hmid => ?_⟩, hb', ho'⟩
      have := (hb' m hm hmid.symm).2
      have : r.lfEnd < m.2.lfStart := this
      have := (hb' m hm hmid.symm).1
      have : r.lfEnd ≠ -1 := this
      omega
    · obtain ⟨-, hlt, hne, hle, hend⟩ := h
      have hrl := hrl hne (by omega) hid
      simp only [if_true, ordered_cons, List.forall_mem_cons]
      exact ⟨⟨hreq hne b, hrl⟩, hright hne, ho⟩

/-! ## Removing a lock -/

theorem held_clearList_other (hid : id ≠ r.lfId) :
    held (clearList r c (r.lfEnd + 1) l) id t k ↔ held l id t k := by
  induction l with
  | nil => rfl
  | cons n l ih =>
    obtain ⟨b, x⟩ := n
    have hx : ¬Passes r x → x.lfId ≠ id := fun h he => h (.inl (he ▸ hid))
    unfold clearList
    grind [held_cons]

/-- Removing a lock: its bytes are released, and the owner keeps the others. -/
theorem held_clearList_own (ho : Ordered l) (hv : ∀ n ∈ l, n.2.Valid) (hr : r.Valid) :
    held (clearList r c (r.lfEnd + 1) l) r.lfId t k ↔ ¬r.Covers k ∧ held l r.lfId t k := by
  induction l with
  | nil => simp [clearList]
  | cons n l ih =>
    obtain ⟨b, x⟩ := n
    have hx : x.Valid := hv (b, x) List.mem_cons_self
    have hb : x.lfId = r.lfId → held l r.lfId t k → x.lfEnd ≠ -1 ∧ x.lfEnd < k := by
      intro h hl
      rw [← h] at hl
      exact held_behind ho hl
    have ih := ih (ordered_cons.mp ho).2 fun m hm => hv m (List.mem_cons_of_mem _ hm)
    have h₁ := hx.end_eq_or
    have h₂ := hr.end_eq_or
    have h₃ := hx.start_nonneg
    unfold clearList
    by_cases hp : Passes r x
    · rw [if_pos hp, held_cons, held_cons, ih]
      unfold Passes Apart at hp
      unfold Lock.Covers
      grind
    rw [if_neg hp]
    by_cases hap : Apart x r
    · rw [if_pos hap]
      unfold Passes Apart at hp
      unfold Apart at hap
      unfold Lock.Covers
      grind [held_cons, Lock.Covers]
    rw [if_neg hap]
    have hid : x.lfId = r.lfId := not_not.mp fun h => hp (.inl h)
    clear hv ho hp
    unfold Apart at hap
    rcases classify_cases hx hr hap with h | h | h | h | h <;> rw [h.1]
    all_goals grind [held_cons, Lock.Covers]

/-- Each lock of the new list is part of an old one. -/
theorem part_clearList (hv : ∀ n ∈ l, n.2.Valid) (hr : r.Valid) :
    ∀ m ∈ clearList r c (r.lfEnd + 1) l, ∃ n ∈ l, Part n.2 m.2 := by
  induction l with
  | nil => exact fun _ hm => nomatch hm
  | cons n l ih =>
    obtain ⟨b, x⟩ := n
    have hx : x.Valid := hv (b, x) List.mem_cons_self
    have hin : ∀ y, Part x y → ∃ n ∈ (b, x) :: l, Part n.2 y := fun y hy =>
      ⟨(b, x), List.mem_cons_self, hy⟩
    have hrec : ∀ m ∈ clearList r c (r.lfEnd + 1) l, ∃ n ∈ (b, x) :: l, Part n.2 m.2 := fun m hm => by
      obtain ⟨n, hn, h⟩ := ih (fun m hm => hv m (List.mem_cons_of_mem _ hm)) m hm
      exact ⟨n, List.mem_cons_of_mem _ hn, h⟩
    have hold : ∀ m ∈ l, ∃ n ∈ (b, x) :: l, Part n.2 m.2 := fun m hm =>
      ⟨m, List.mem_cons_of_mem _ hm, .refl _⟩
    have hself := hin x (.refl x)
    by_cases hp : Passes r x
    · simp only [clearList, if_pos hp, List.forall_mem_cons]
      exact ⟨hself, hrec⟩
    by_cases hap : Apart x r
    · simp only [clearList, if_neg hp, if_pos hap, List.forall_mem_cons]
      exact ⟨hself, hold⟩
    rcases classify_cases hx hr hap with h | h | h | h | h <;>
      simp only [clearList, if_neg hp, if_neg hap, h.1]
    · exact hold
    · have hright := hin _ (part_right hap h.2.2.1)
      have hleft := fun hne => hin _ (part_left hx hap (lt_of_le_of_ne h.2.1 hne))
      split_ifs with h₁ h₂ <;> simp only [List.forall_mem_cons]
      · exact ⟨hright, hold⟩
      · exact ⟨hleft h₁, hold⟩
      · exact ⟨hleft h₁, hright, hold⟩
    · exact hrec
    · exact List.forall_mem_cons.mpr ⟨hin _ (part_left hx hap h.2.1), hrec⟩
    · exact List.forall_mem_cons.mpr ⟨hin _ (part_right hap h.2.2.1), hold⟩

theorem ordered_clearList (ho : Ordered l) (hv : ∀ n ∈ l, n.2.Valid) (hr : r.Valid) :
    Ordered (clearList r c (r.lfEnd + 1) l) := by
  induction l with
  | nil => exact List.Pairwise.nil
  | cons n l ih =>
    obtain ⟨b, x⟩ := n
    have hx : x.Valid := hv (b, x) List.mem_cons_self
    have hv' : ∀ n ∈ l, n.2.Valid := fun m hm => hv m (List.mem_cons_of_mem _ hm)
    obtain ⟨hb, ho⟩ := ordered_cons.mp ho
    have ih := ih ho hv'
    -- a piece of `x` stands where `x` stood
    have hrest : ∀ y, y.lfId = x.lfId → (x.lfEnd ≠ -1 → y.lfEnd ≠ -1 ∧ y.lfEnd ≤ x.lfEnd) →
        ∀ m ∈ l, Before (b, y) m := by
      intro y hid hend m hm hmid
      have : x.lfEnd ≠ -1 ∧ x.lfEnd < m.2.lfStart := hb m hm (hid.symm.trans hmid)
      have := hend this.1
      show y.lfEnd ≠ -1 ∧ y.lfEnd < m.2.lfStart
      omega
    have htail : ∀ n, (∀ m ∈ l, Before n m) → ∀ m ∈ clearList r c (r.lfEnd + 1) l, Before n m := by
      intro n hn m hm hid
      obtain ⟨k, hk, h⟩ := part_clearList hv' hr m hm
      have := hn k hk (hid.trans h.id)
      have := h.start_le
      omega
    by_cases hp : Passes r x
    · simp only [clearList, if_pos hp]
      exact ordered_cons.mpr ⟨htail _ hb, ih⟩
    by_cases hap : Apart x r
    · simp only [clearList, if_neg hp, if_pos hap]
      exact ordered_cons.mpr ⟨hb, ho⟩
    rcases classify_cases hx hr hap with h | h | h | h | h <;>
      simp only [clearList, if_neg hp, if_neg hap, h.1]
    · exact ho
    · have hleft := fun hne => (part_left hx hap (lt_of_le_of_ne h.2.1 hne)).le_end
      split_ifs with h₁ h₂ <;> simp only [ordered_cons, List.forall_mem_cons]
      · exact ⟨hb, ho⟩
      · exact ⟨hrest _ rfl fun h => (hleft h₁).resolve_left h, ho⟩
      · refine ⟨⟨fun _ => ?_, hrest _ rfl fun h => (hleft h₁).resolve_left h⟩, hb, ho⟩
        have := hx.start_nonneg
        have := hr.end_eq_or
        show r.lfStart - 1 ≠ -1 ∧ r.lfStart - 1 < r.lfEnd + 1
        omega
    · exact ih
    · have hleft := (part_left hx hap h.2.1).le_end
      exact ordered_cons.mpr ⟨htail _ (hrest _ rfl fun h => hleft.resolve_left h), ih⟩
    · exact ordered_cons.mpr ⟨hb, ho⟩

/-! ## Where a start overflows -/

variable {w w' : Int} {n : Node} {ntl : Bool}

theorem setList_congr (hr : r.Valid) (hv : ∀ n ∈ l, n.2.Valid)
    (hw : ∀ n ∈ l, n.2.lfId = r.lfId → r.lfEnd ≠ -1 → (n.2.lfEnd = -1 ∨ r.lfEnd < n.2.lfEnd) →
      (n.2.lfType ≠ r.lfType ∨ r.lfStart < n.2.lfStart) → w = w') :
    setList a r c w ntl l = setList a r c w' ntl l := by
  induction l generalizing ntl with
  | nil => rfl
  | cons n l ih =>
    obtain ⟨b, x⟩ := n
    have hx : x.Valid := hv (b, x) List.mem_cons_self
    have ih := fun ntl => @ih ntl (fun m hm => hv m (List.mem_cons_of_mem _ hm))
      fun m hm => hw m (List.mem_cons_of_mem _ hm)
    have hw := hw (b, x) List.mem_cons_self
    by_cases hp : Passes r x
    · simp only [setList, if_pos hp, ih]
    have hid : x.lfId = r.lfId := not_not.mp fun h => hp (.inl h)
    by_cases hap : Apart x r
    · simp only [setList, if_neg hp, if_pos hap]
    rcases classify_cases hx hr hap with h | h | h | h | h <;>
      simp only [setList, if_neg hp, if_neg hap, h.1, ih]
    · split_ifs with h₁ h₂ h₃
      · rfl
      · rw [hw hid h.2.2.1 (by dsimp only; omega) (.inl h₁)]
      · rfl
      · rw [hw hid h.2.2.1 (by dsimp only; omega) (.inl h₁)]
    · rw [hw hid h.2.2.1 h.2.2.2.2 (.inr h.2.1)]

theorem clearList_congr (hr : r.Valid) (hv : ∀ n ∈ l, n.2.Valid)
    (hw : ∀ n ∈ l, n.2.lfId = r.lfId → r.lfEnd ≠ -1 → (n.2.lfEnd = -1 ∨ r.lfEnd < n.2.lfEnd) →
      w = w') :
    clearList r c w l = clearList r c w' l := by
  induction l with
  | nil => rfl
  | cons n l ih =>
    obtain ⟨b, x⟩ := n
    have hx : x.Valid := hv (b, x) List.mem_cons_self
    have ih := ih (fun m hm => hv m (List.mem_cons_of_mem _ hm))
      fun m hm => hw m (List.mem_cons_of_mem _ hm)
    have hw := hw (b, x) List.mem_cons_self
    by_cases hp : Passes r x
    · simp only [clearList, if_pos hp, ih]
    have hid : x.lfId = r.lfId := not_not.mp fun h => hp (.inl h)
    by_cases hap : Apart x r
    · simp only [clearList, if_neg hp, if_pos hap]
    rcases classify_cases hx hr hap with h | h | h | h | h <;>
      simp only [clearList, if_neg hp, if_neg hap, h.1, ih]
    · split_ifs with h₁ h₂
      · rw [hw hid h.2.2.1 (by dsimp only; omega)]
      · rfl
      · rw [hw hid h.2.2.1 (by dsimp only; omega)]
    · rw [hw hid h.2.2.1 h.2.2.2.2]

/-- Unless a start overflows, `off_t` is as good as the integers. -/
theorem setList_wrap (hr : r.Valid) (hv : ∀ n ∈ l, n.2.Valid) (h : ¬SetWraps r l) :
    setList a r c (wrap (r.lfEnd + 1)) ntl l = setList a r c (r.lfEnd + 1) ntl l := by
  refine setList_congr hr hv fun n hn hid hne hend ht => wrap_of_ne hr fun he => h ⟨he, n, hn, hid,
    hend.resolve_right ?_, ht⟩
  have := (hv n hn).end_le
  omega

theorem clearList_wrap (hr : r.Valid) (hv : ∀ n ∈ l, n.2.Valid) (h : ¬ClearWraps r l) :
    clearList r c (wrap (r.lfEnd + 1)) l = clearList r c (r.lfEnd + 1) l := by
  refine clearList_congr hr hv fun n hn hid hne hend => wrap_of_ne hr fun he => h ⟨he, n, hn, hid,
    hend.resolve_right ?_⟩
  have := (hv n hn).end_le
  omega

/-- The loop comes to an own lock to the end of the file, and leaves a piece of it that starts
at `w`. -/
theorem exists_mem_setList (ho : Ordered l) (hv : ∀ n ∈ l, n.2.Valid) (hr : r.Valid)
    (he : r.lfEnd = maxOff) (hn : n ∈ l) (hid : n.2.lfId = r.lfId) (hend : n.2.lfEnd = -1)
    (ht : n.2.lfType ≠ r.lfType ∨ r.lfStart < n.2.lfStart) :
    (∃ m ∈ setList a r c w ntl l, m.2.lfId = r.lfId ∧ m.2.lfEnd = -1 ∧ m.2.lfStart = w) ∧
      (ntl = true → (a, r) ∈ setList a r c w ntl l) := by
  induction l generalizing ntl with
  | nil => cases hn
  | cons n' l ih =>
    obtain ⟨b, x⟩ := n'
    have hx : x.Valid := hv (b, x) List.mem_cons_self
    have hnv := (hv n hn).start_le
    have hmax : maxOff = 2 ^ 31 - 1 := rfl
    obtain ⟨hb, ho⟩ := ordered_cons.mp ho
    have hx₁ := hx.start_le
    have ih := fun hn ntl => @ih ntl ho (fun m hm => hv m (List.mem_cons_of_mem _ hm)) hn
    -- an own lock before it ends before it starts
    have hbn : n ∈ l → x.lfId = r.lfId → x.lfEnd ≠ -1 ∧ x.lfEnd < n.2.lfStart := fun hn hxid =>
      hb n hn (hxid.trans hid.symm)
    by_cases hp : Passes r x
    · have hnl : n ∈ l := by
        rcases List.mem_cons.mp hn with rfl | hn
        · unfold Passes Apart at hp
          dsimp only at hid hend hnv
          rcases hp with h | h
          · exact absurd hid h
          · omega
        · exact hn
      obtain ⟨⟨m, hm, hmw⟩, ha⟩ := ih hnl ntl
      simp only [setList, if_pos hp]
      exact ⟨⟨m, List.mem_cons_of_mem _ hm, hmw⟩, fun h => List.mem_cons_of_mem _ (ha h)⟩
    have hxid : x.lfId = r.lfId := not_not.mp fun h => hp (.inl h)
    have hap : ¬Apart x r := fun h => by
      refine hp (.inr ⟨h, ?_⟩)
      omega
    rcases List.mem_cons.mp hn with rfl | hn
    · dsimp only at hid hend ht
      rcases classify_cases hx hr hap with h | h | h | h | h
      · omega
      · simp only [setList, if_neg hp, if_neg hap, h.1]
        have ht := ht.resolve_right (by omega)
        rw [if_neg ht, if_neg (show x.lfEnd ≠ r.lfEnd by omega)]
        split_ifs
        · exact ⟨⟨(b, { x with lfStart := w }), by simp, hid, hend, rfl⟩, by simp⟩
        · exact ⟨⟨(c, { x with lfStart := w }), by simp, hid, hend, rfl⟩, by simp⟩
      · omega
      · omega
      · simp only [setList, if_neg hp, if_neg hap, h.1]
        split_ifs with h
        · exact ⟨⟨(b, { x with lfStart := w }), by simp, hid, hend, rfl⟩, by simp⟩
        · exact ⟨⟨(b, { x with lfStart := w }), by simp, hid, hend, rfl⟩, fun h' => absurd h' h⟩
    · have hbn := hbn hn hxid
      obtain ⟨⟨m, hm, hmw⟩, -⟩ := ih hn false
      rcases classify_cases hx hr hap with h | h | h | h | h
      · omega
      · omega
      · simp only [setList, if_neg hp, if_neg hap, h.1]
        split_ifs with h
        · exact ⟨⟨m, List.mem_cons_of_mem _ hm, hmw⟩, by simp⟩
        · exact ⟨⟨m, hm, hmw⟩, fun h' => absurd h' h⟩
      · simp only [setList, if_neg hp, if_neg hap, h.1]
        exact ⟨⟨m, by simp [hm], hmw⟩, by simp⟩
      · omega

theorem exists_mem_clearList (ho : Ordered l) (hv : ∀ n ∈ l, n.2.Valid) (hr : r.Valid)
    (he : r.lfEnd = maxOff) (hn : n ∈ l) (hid : n.2.lfId = r.lfId) (hend : n.2.lfEnd = -1) :
    ∃ m ∈ clearList r c w l, m.2.lfId = r.lfId ∧ m.2.lfEnd = -1 ∧ m.2.lfStart = w := by
  induction l with
  | nil => cases hn
  | cons n' l ih =>
    obtain ⟨b, x⟩ := n'
    have hx : x.Valid := hv (b, x) List.mem_cons_self
    have hnv := (hv n hn).start_le
    have hmax : maxOff = 2 ^ 31 - 1 := rfl
    obtain ⟨hb, ho⟩ := ordered_cons.mp ho
    have hx₁ := hx.start_le
    have ih := fun hn => ih ho (fun m hm => hv m (List.mem_cons_of_mem _ hm)) hn
    have hbn : n ∈ l → x.lfId = r.lfId → x.lfEnd ≠ -1 ∧ x.lfEnd < n.2.lfStart := fun hn hxid =>
      hb n hn (hxid.trans hid.symm)
    by_cases hp : Passes r x
    · have hnl : n ∈ l := by
        rcases List.mem_cons.mp hn with rfl | hn
        · unfold Passes Apart at hp
          dsimp only at hid hend hnv
          rcases hp with h | h
          · exact absurd hid h
          · omega
        · exact hn
      obtain ⟨m, hm, hmw⟩ := ih hnl
      simp only [clearList, if_pos hp]
      exact ⟨m, List.mem_cons_of_mem _ hm, hmw⟩
    have hxid : x.lfId = r.lfId := not_not.mp fun h => hp (.inl h)
    have hap : ¬Apart x r := fun h => by
      refine hp (.inr ⟨h, ?_⟩)
      omega
    rcases List.mem_cons.mp hn with rfl | hn
    · dsimp only at hid hend
      rcases classify_cases hx hr hap with h | h | h | h | h
      · omega
      · simp only [clearList, if_neg hp, if_neg hap, h.1]
        rw [if_neg (show x.lfEnd ≠ r.lfEnd by omega)]
        split_ifs
        · exact ⟨(b, { x with lfStart := w }), by simp, hid, hend, rfl⟩
        · exact ⟨(c, { x with lfStart := w }), by simp, hid, hend, rfl⟩
      · omega
      · omega
      · simp only [clearList, if_neg hp, if_neg hap, h.1]
        exact ⟨(b, { x with lfStart := w }), by simp, hid, hend, rfl⟩
    · have hbn := hbn hn hxid
      obtain ⟨m, hm, hmw⟩ := ih hn
      rcases classify_cases hx hr hap with h | h | h | h | h
      · omega
      · omega
      · simp only [clearList, if_neg hp, if_neg hap, h.1]
        exact ⟨m, hm, hmw⟩
      · simp only [clearList, if_neg hp, if_neg hap, h.1]
        exact ⟨m, List.mem_cons_of_mem _ hm, hmw⟩
      · omega

/-- Two locks of one owner, of which one ends where there is no end and starts before all. -/
theorem not_ordered {m m' : Node} (hm : m ∈ l) (hm' : m' ∈ l) (hne : m ≠ m')
    (hid : m.2.lfId = m'.2.lfId) (hend : m'.2.lfEnd = -1) (hlt : m'.2.lfStart ≤ m.2.lfEnd) :
    ¬Ordered l := by
  intro ho
  have hsymm : l.Pairwise fun n k => Before n k ∨ Before k n := ho.imp .inl
  have : Std.Symm fun n k : Node => Before n k ∨ Before k n := ⟨fun _ _ => Or.symm⟩
  rcases hsymm.forall hm hm' hne with h | h
  · have := h hid
    omega
  · exact (h hid.symm).1 hend

/-- Setting a lock does what it is to do exactly when no start overflows. -/
theorem setDone_iff (ho : Ordered l) (hv : ∀ n ∈ l, n.2.Valid) (hr : r.Valid) :
    SetDone r l (setList a r c (wrap (r.lfEnd + 1)) true l) ↔ ¬SetWraps r l := by
  constructor
  · rintro ⟨-, hdone⟩ ⟨he, n, hn, hid, hend, ht⟩
    have hex : _ ∧ (true = true → (a, r) ∈ setList a r c (wrap (r.lfEnd + 1)) true l) :=
      exists_mem_setList ho hv hr he hn hid hend ht
    obtain ⟨⟨m, hm, hmid, hmend, hmw⟩, ha⟩ := hex
    have hmax : maxOff = 2 ^ 31 - 1 := rfl
    rw [he, wrap_maxOff] at hmw
    refine not_ordered (ha rfl) hm (fun h => ?_) hmid.symm hmend ?_ hdone
    · rw [← h] at hmend
      dsimp only at hmend
      omega
    · dsimp only
      omega
  · intro h
    rw [setList_wrap hr hv h]
    refine ⟨fun id t k => ?_, ordered_setList ho hv hr⟩
    split_ifs with hk
    · rw [hk.1, held_setList_own ho hv hr, eq_comm (a := t)]
      exact ⟨fun h => (h.resolve_right fun h => h.1 hk.2).2, fun h => .inl ⟨hk.2, h⟩⟩
    · by_cases hid : id = r.lfId
      · rw [hid, held_setList_own ho hv hr]
        have hk : ¬r.Covers k := fun h => hk ⟨hid, h⟩
        exact ⟨fun h => (h.resolve_left fun h => hk h.1).2, fun h => .inr ⟨hk, h⟩⟩
      · exact held_setList_other hid true

/-- Removing a lock does what it is to do exactly when no start overflows. -/
theorem clearDone_iff (ho : Ordered l) (hv : ∀ n ∈ l, n.2.Valid) (hr : r.Valid) :
    ClearDone r l (clearList r c (wrap (r.lfEnd + 1)) l) ↔ ¬ClearWraps r l := by
  constructor
  · rintro ⟨hdone, -⟩ ⟨he, n, hn, hid, hend⟩
    obtain ⟨m, hm, hmid, hmend, hmw⟩ := exists_mem_clearList (c := c)
      (w := wrap (r.lfEnd + 1)) ho hv hr he hn hid hend
    have hmax : maxOff = 2 ^ 31 - 1 := rfl
    have hs := hr.start_le
    rw [he, wrap_maxOff] at hmw
    -- the last byte of all is still held
    have hk : r.Covers maxOff.toNat := by
      unfold Lock.Covers
      omega
    have hheld : held (clearList r c (wrap (r.lfEnd + 1)) l) r.lfId m.2.lfType maxOff.toNat :=
      ⟨m, hm, hmid, rfl, by omega, .inl hmend⟩
    exact ((hdone _ _ _).mp hheld).1 ⟨rfl, hk⟩
  · intro h
    rw [clearList_wrap hr hv h]
    refine ⟨fun id t k => ?_, ordered_clearList ho hv hr⟩
    by_cases hid : id = r.lfId
    · rw [hid, held_clearList_own ho hv hr]
      simp
    · rw [held_clearList_other hid]
      simp [hid]

end Lockf
