import Mathlib

/-!
# Lists of segments

A list whose members each cover the numbers from `lo x` up to `hi x`, in increasing order and
without overlap. Such a list stands for a partial function: a number is covered by one member at
most.

## Main definitions

* `Laid lo hi a b l`: the members of `l` are nonempty, in order, and lie between `a` and `b`
* `cover lo hi l n`: the member that covers `n`

## Main results

* `laid_append`: a laid list is two laid lists end to end
* `Laid.cover_eq_some`: the cover of a number is the member that contains it
* `Laid.cover_below`, `Laid.cover_above`: nothing is covered outside the bounds
* `Laid.sum_le`: the lengths add up to no more than the room there is
-/

namespace Segments

variable {α : Type} {lo hi : α → ℕ} {a b n : ℕ} {x y : α} {l r : List α}

/-- The members are nonempty, one after the other, between `a` and `b`. -/
def Laid (lo hi : α → ℕ) : ℕ → ℕ → List α → Prop
  | a, b, [] => a ≤ b
  | a, b, x :: l => a ≤ lo x ∧ lo x < hi x ∧ Laid lo hi (hi x) b l

@[simp] theorem laid_nil : Laid lo hi a b [] ↔ a ≤ b := Iff.rfl

@[simp] theorem laid_cons :
    Laid lo hi a b (x :: l) ↔ a ≤ lo x ∧ lo x < hi x ∧ Laid lo hi (hi x) b l := Iff.rfl

theorem Laid.le (h : Laid lo hi a b l) : a ≤ b := by
  induction l generalizing a with
  | nil => exact h
  | cons x l ih =>
    obtain ⟨hax, hx, hl⟩ := h
    exact hax.trans (hx.le.trans (ih hl))

theorem Laid.mono_left {a' : ℕ} (h : Laid lo hi a b l) (ha : a' ≤ a) : Laid lo hi a' b l := by
  cases l with
  | nil => exact ha.trans h
  | cons x l => exact ⟨ha.trans h.1, h.2⟩

theorem Laid.mono_right {b' : ℕ} (h : Laid lo hi a b l) (hb : b ≤ b') : Laid lo hi a b' l := by
  induction l generalizing a with
  | nil => exact h.trans hb
  | cons x l ih => exact ⟨h.1, h.2.1, ih h.2.2⟩

/-- A laid list is two laid lists end to end. -/
theorem laid_append :
    Laid lo hi a b (l ++ r) ↔ ∃ m, Laid lo hi a m l ∧ Laid lo hi m b r := by
  induction l generalizing a with
  | nil =>
    constructor
    · intro h
      exact ⟨a, le_rfl, h⟩
    · rintro ⟨m, hm, h⟩
      exact h.mono_left hm
  | cons x l ih =>
    simp only [List.cons_append, laid_cons, ih]
    constructor
    · rintro ⟨hax, hx, m, hl, hr⟩
      exact ⟨m, ⟨hax, hx, hl⟩, hr⟩
    · rintro ⟨m, ⟨hax, hx, hl⟩, hr⟩
      exact ⟨hax, hx, m, hl, hr⟩

/-- Each member is nonempty and lies between the bounds. -/
theorem Laid.mem (h : Laid lo hi a b l) (hx : x ∈ l) : a ≤ lo x ∧ lo x < hi x ∧ hi x ≤ b := by
  induction l generalizing a with
  | nil => simp at hx
  | cons y l ih =>
    obtain ⟨hay, hy, hl⟩ := h
    rcases List.mem_cons.mp hx with rfl | hx
    · exact ⟨hay, hy, hl.le⟩
    · obtain ⟨h₁, h₂, h₃⟩ := ih hl hx
      exact ⟨by omega, h₂, h₃⟩

/-- The bounds can be taken as close as the members allow. -/
theorem Laid.tighten {a' b' : ℕ} (h : Laid lo hi a b l) (hab : a' ≤ b') (ha : ∀ x ∈ l, a' ≤ lo x)
    (hb : ∀ x ∈ l, hi x ≤ b') : Laid lo hi a' b' l := by
  induction l generalizing a a' with
  | nil => exact hab
  | cons x l ih =>
    refine ⟨ha x List.mem_cons_self, h.2.1, ih h.2.2 (hb x List.mem_cons_self) ?_ ?_⟩
    · intro y hy
      exact (h.2.2.mem hy).1
    · intro y hy
      exact hb y (List.mem_cons_of_mem _ hy)

/-- Of two members, one ends before the other begins. -/
theorem Laid.pairwise (h : Laid lo hi a b l) : l.Pairwise fun x y => hi x ≤ lo y := by
  induction l generalizing a with
  | nil => exact List.Pairwise.nil
  | cons x l ih =>
    refine List.pairwise_cons.mpr ⟨?_, ih h.2.2⟩
    intro y hy
    exact (h.2.2.mem hy).1

/-- The lengths add up to no more than the room there is. -/
theorem Laid.sum_le (h : Laid lo hi a b l) : a + (l.map fun x => hi x - lo x).sum ≤ b := by
  induction l generalizing a with
  | nil => simpa using h
  | cons x l ih =>
    obtain ⟨hax, hx, hl⟩ := h
    have := ih hl
    simp only [List.map_cons, List.sum_cons]
    omega

/-! ## The cover -/

/-- The member that covers `n`. -/
def cover (lo hi : α → ℕ) (l : List α) (n : ℕ) : Option α :=
  l.find? fun x => lo x ≤ n ∧ n < hi x

@[simp] theorem cover_nil : cover lo hi [] n = none := rfl

theorem cover_cons_pos (h : lo x ≤ n ∧ n < hi x) : cover lo hi (x :: l) n = some x := by
  simp [cover, h]

theorem cover_cons_neg (h : ¬(lo x ≤ n ∧ n < hi x)) :
    cover lo hi (x :: l) n = cover lo hi l n := by
  simp only [cover]
  rw [List.find?_cons_of_neg (by simpa using h)]

theorem cover_append : cover lo hi (l ++ r) n = (cover lo hi l n).or (cover lo hi r n) :=
  List.find?_append ..

theorem mem_of_cover (h : cover lo hi l n = some x) : x ∈ l ∧ lo x ≤ n ∧ n < hi x := by
  refine ⟨List.mem_of_find?_eq_some h, ?_⟩
  simpa using List.find?_some h

theorem cover_eq_none : cover lo hi l n = none ↔ ∀ x ∈ l, ¬(lo x ≤ n ∧ n < hi x) := by
  simp [cover]

/-- The cover of a number is the member that contains it. -/
theorem Laid.cover_eq_some (h : Laid lo hi a b l) :
    cover lo hi l n = some x ↔ x ∈ l ∧ lo x ≤ n ∧ n < hi x := by
  refine ⟨mem_of_cover, ?_⟩
  rintro ⟨hx, hn⟩
  induction l generalizing a with
  | nil => simp at hx
  | cons y l ih =>
    rcases List.mem_cons.mp hx with rfl | hx
    · exact cover_cons_pos hn
    · -- `x` begins after `y` ends
      have hlo := (h.2.2.mem hx).1
      rw [cover_cons_neg (by omega)]
      exact ih h.2.2 hx

/-- Nothing is covered before the first bound. -/
theorem Laid.cover_below (h : Laid lo hi a b l) (hn : n < a) : cover lo hi l n = none := by
  refine cover_eq_none.mpr fun x hx hxn => ?_
  have := h.mem hx
  omega

/-- Nothing is covered from the last bound on. -/
theorem Laid.cover_above (h : Laid lo hi a b l) (hn : b ≤ n) : cover lo hi l n = none := by
  refine cover_eq_none.mpr fun x hx hxn => ?_
  have := h.mem hx
  omega

end Segments
