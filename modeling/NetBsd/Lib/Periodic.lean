import Mathlib

/-!
# Periodic timers

A timer that is set at time 0 expires for the first time at `first`, and then every `every`. It is
off when `first` is 0, and expires once when `every` is 0.

## Main definitions

* `Expires`, `expirations`: the times at which a timer expires, and how many there are up to a time
* `Left`: the time left to the next expiration, or 0 if there is none

## Main results

* `Same.run`, `Same.reload`, `Same.stop`: the rest of a timer is a timer again
* `Same.expirations_add`: expirations are counted piece by piece
-/

namespace Periodic

/-- The timer expires at time `x`. -/
def Expires (first every x : ℕ) : Prop := 0 < first ∧ first ≤ x ∧ every ∣ x - first

instance (first every : ℕ) : DecidablePred (Expires first every) := fun _ =>
  inferInstanceAs (Decidable (_ ∧ _ ∧ _))

/-- How often the timer has expired by time `now`. -/
def expirations (first every now : ℕ) : ℕ := Nat.count (Expires first every) (now + 1)

/-- The time `r` is left to the next expiration, and 0 is left when none comes. -/
def Left (first every now r : ℕ) : Prop :=
  (r = 0 → ∀ x, now < x → ¬Expires first every x) ∧
  (r ≠ 0 → IsLeast {x | now < x ∧ Expires first every x} (now + r))

variable {first every now r t : ℕ}

theorem not_expires_zero : ¬Expires first every 0 := by
  rintro ⟨hpos, hle, -⟩
  omega

theorem not_expires_off {x : ℕ} : ¬Expires 0 every x := fun h => absurd h.1 (lt_irrefl 0)

theorem expires_first (hpos : 0 < first) : Expires first every first :=
  ⟨hpos, le_refl first, by rw [Nat.sub_self]; exact dvd_zero every⟩

/-! ## The rest of a timer -/

/-- What is left of a timer at time `now` is the timer that is set to `r` then. -/
def Same (first every now r : ℕ) : Prop :=
  ∀ y, 0 < y → (Expires first every (now + y) ↔ Expires r every y)

theorem Same.start : Same first every 0 first := by
  intro y _
  rw [zero_add]

/-- Before its first expiration a timer runs down. -/
theorem Same.run (h : t < first) : Same first every t (first - t) := by
  intro y _
  have hsub : t + y - first = y - (first - t) := by omega
  rw [Expires, Expires, hsub]
  apply and_congr (by omega)
  apply and_congr_left
  intro _
  omega

/-- After its first expiration, what came after it is taken off the next period. -/
theorem Same.reload (hpos : 0 < first) (hle : first ≤ t) (hlt : t - first < every) :
    Same first every t (every - (t - first)) := by
  intro y hy
  rw [Expires, Expires]
  constructor
  · rintro ⟨-, -, hdvd⟩
    -- The last expiration is less than a period ago, so that the next is a whole one later.
    have hper : every ≤ t + y - first := Nat.le_of_dvd (by omega) hdvd
    refine ⟨by omega, by omega, ?_⟩
    rw [show y - (every - (t - first)) = t + y - first - every by omega]
    exact Nat.dvd_sub hdvd (dvd_refl every)
  · rintro ⟨-, hper, hdvd⟩
    refine ⟨hpos, by omega, ?_⟩
    rw [show t + y - first = y - (every - (t - first)) + every by omega]
    exact Nat.dvd_add hdvd (dvd_refl every)

/-- A timer without a period does not expire again. -/
theorem Same.stop (hle : first ≤ t) : Same first 0 t 0 := by
  intro y hy
  refine iff_of_false ?_ not_expires_off
  rintro ⟨-, -, hdvd⟩
  rw [zero_dvd_iff] at hdvd
  omega

theorem Same.off : Same 0 every t 0 := fun _ _ => iff_of_false not_expires_off not_expires_off

theorem Same.trans {r' : ℕ} (h : Same first every now r) (h' : Same r every t r') :
    Same first every (now + t) r' := by
  intro y hy
  rw [add_assoc, h (t + y) (by omega), h' y hy]

theorem Same.left (h : Same first every now r) : Left first every now r := by
  constructor
  · rintro rfl x hx hexp
    obtain ⟨y, rfl⟩ := Nat.exists_eq_add_of_lt hx
    rw [add_assoc, h (y + 1) y.succ_pos] at hexp
    exact not_expires_off hexp
  · intro hr
    have hpos : 0 < r := Nat.pos_of_ne_zero hr
    refine ⟨⟨by omega, (h r hpos).mpr (expires_first hpos)⟩, ?_⟩
    rintro x ⟨hx, hexp⟩
    obtain ⟨y, rfl⟩ := Nat.exists_eq_add_of_lt hx
    rw [add_assoc, h (y + 1) y.succ_pos] at hexp
    have hle := hexp.2.1
    omega

/-! ## Counting -/

theorem expirations_zero : expirations first every 0 = 0 := by
  rw [expirations, Nat.count_succ, Nat.count_zero, if_neg not_expires_zero]

theorem Same.expirations_add (h : Same first every now r) :
    expirations first every (now + t) = expirations first every now + expirations r every t := by
  have hshift : now + t + 1 = (now + 1) + t := by omega
  have hfirst : expirations r every t = Nat.count (fun k => Expires r every (1 + k)) t := by
    rw [expirations, add_comm, Nat.count_add, Nat.count_succ, Nat.count_zero,
      if_neg not_expires_zero, zero_add, zero_add]
  -- The expirations after `now` are those of the timer that is left.
  have hcongr : Nat.count (fun k => Expires first every (now + 1 + k)) t =
      Nat.count (fun k => Expires r every (1 + k)) t := by
    simp only [Nat.count_eq_card_filter_range]
    congr 1
    apply Finset.filter_congr
    intro k _
    rw [add_assoc]
    exact h (1 + k) (by omega)
  rw [hfirst, expirations, hshift, Nat.count_add, hcongr, ← expirations]

theorem expirations_before (h : t < first) : expirations first every t = 0 := by
  rw [expirations, Nat.count_iff_forall_not]
  rintro x hx ⟨-, hle, -⟩
  omega

theorem expirations_off : expirations 0 every t = 0 := by
  rw [expirations, Nat.count_iff_forall_not]
  intro x _
  exact not_expires_off

/-- In less than a period from the first expiration there is no other. -/
theorem expirations_once (hpos : 0 < first) (hle : first ≤ t)
    (hlt : every = 0 ∨ t - first < every) : expirations first every t = 1 := by
  obtain ⟨d, rfl⟩ := Nat.exists_eq_add_of_le hle
  have hlater : Nat.count (fun k => Expires first every (first + (k + 1))) d = 0 := by
    rw [Nat.count_iff_forall_not]
    rintro k hk ⟨-, -, hdvd⟩
    rw [Nat.add_sub_cancel_left] at hdvd
    have hper : every ≤ k + 1 := Nat.le_of_dvd k.succ_pos hdvd
    obtain rfl | hlt := hlt
    · rw [zero_dvd_iff] at hdvd
      omega
    · omega
  rw [expirations, add_assoc, Nat.count_add, Nat.count_succ', hlater, add_zero,
    if_pos (expires_first hpos), zero_add, Nat.add_eq_right, Nat.count_iff_forall_not]
  rintro x hx ⟨-, hle, -⟩
  omega

end Periodic
