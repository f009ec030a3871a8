import Mathlib
import NetBsd.Kern.Rlist

/-!
# Double frees of resource lists

`rlist_free` panics when an end of the region lies in the element at hand, or the element in the
region. It looks no further than the element that it joins the region to: what the region shares
with the elements behind that one is not found.

## Main definitions

* `Overlaps start stop l`: the region shares a number with the list
* `Joins start stop l`: the region is joined to an element in front of it

## Main results

* `freeLoop_panic_iff`: when the walk panics
* `rlistFree_detects_iff`: double frees are found but for those behind such an element
-/

namespace Rlist

open Intervals

variable {m : Bool} {e f : Rlist} {l : List Rlist} {start stop : BitVec 32}

/-- The region shares a number with the list. -/
def Overlaps (start stop : BitVec 32) (l : List Rlist) : Prop :=
  ∃ n ∈ set l, start.toNat ≤ n ∧ n ≤ stop.toNat

/-- An element in front of the region ends right before it, or begins where the numbers wrap
around behind it. -/
def Joins (start stop : BitVec 32) (l : List Rlist) : Prop :=
  ∃ e ∈ l, e.rlEnd < start ∧ (e.rlEnd + 1 = start ∨ stop + 1 = e.rlStart)

theorem overlaps_cons (he : e.rlStart.toNat ≤ e.rlEnd.toNat) (hr : start.toNat ≤ stop.toNat) :
    Overlaps start stop (e :: l) ↔
      (start.toNat ≤ e.rlEnd.toNat ∧ e.rlStart.toNat ≤ stop.toNat) ∨ Overlaps start stop l := by
  simp only [Overlaps, set_cons, Set.mem_union, Set.mem_Icc, or_and_right, exists_or]
  apply or_congr_left
  constructor
  · rintro ⟨n, hn, hs⟩
    omega
  · intro h
    exact ⟨max start.toNat e.rlStart.toNat, by omega, by omega⟩

/-- The elements behind the first lie behind it. -/
theorem behind (hl : Apart 1 (e :: l)) (hf : f ∈ l) :
    e.rlEnd.toNat < f.rlStart.toNat ∧ f.rlStart.toNat ≤ f.rlEnd.toNat := by
  obtain ⟨-, hfar, hrest⟩ := apart_cons.mp hl
  have hle : f.rlStart.toNat ≤ f.rlEnd.toNat := hrest.1 (range f) (List.mem_map_of_mem hf)
  have hmem : f.rlStart.toNat ∈ set l := ⟨range f, List.mem_map_of_mem hf, le_refl _, hle⟩
  have hlt := hfar _ hmem
  exact ⟨by omega, hle⟩

/-- Where the region does not begin behind the first element, there is none in front of it. -/
theorem not_joins (hl : Apart 1 (e :: l)) (hs : start.toNat ≤ e.rlEnd.toNat) :
    ¬Joins start stop (e :: l) := by
  rintro ⟨f, hf, hlt, -⟩
  rw [BitVec.lt_def] at hlt
  obtain rfl | hf := List.mem_cons.mp hf
  · omega
  · have hbehind := behind hl hf
    omega

theorem not_overlaps (hl : Apart 1 (e :: l)) (hr : start.toNat ≤ stop.toNat)
    (hs : stop.toNat < e.rlStart.toNat) : ¬Overlaps start stop (e :: l) := by
  obtain ⟨he, hfar, -⟩ := apart_cons.mp hl
  rw [overlaps_cons he hr]
  rintro (h | ⟨n, hn, h⟩)
  · omega
  · have hlt := hfar n hn
    omega

/-- What cannot fail does not change whether there is a panic. -/
theorem bind_panic_iff {α β : Type} {x : Except Fault α} {f : α → Except Fault β}
    (hf : ∀ a, ∃ b, f a = .ok b) : (x >>= f) = .error .panic ↔ x = .error .panic := by
  cases x with
  | error err => exact Iff.of_eq (congrArg _ rfl) |>.trans (by simp [bind, Except.bind])
  | ok a =>
    obtain ⟨b, hb⟩ := hf a
    rw [show ((Except.ok a : Except Fault α) >>= f) = f a from rfl, hb]
    simp

/-- The walk panics when the region shares a number with the list and is not joined to an element
in front of it. -/
theorem freeLoop_panic_iff (hl : Apart 1 l) (hr : start.toNat ≤ stop.toNat) :
    freeLoop m start stop l = .error .panic ↔
      Overlaps start stop l ∧ ¬Joins start stop l := by
  induction l with
  | nil =>
    rw [freeLoop]
    cases m <;> simp [Overlaps]
  | cons e l ih =>
    obtain ⟨he, hfar, hrest⟩ := apart_cons.mp hl
    have hover := @overlaps_cons e l start stop he hr
    rw [freeLoop]
    -- The first two tests find what the region shares with this element.
    by_cases hfront : e.rlStart ≤ start ∧ start ≤ e.rlEnd
    · rw [if_pos hfront, hover]
      simp only [BitVec.le_def] at hfront
      exact iff_of_true rfl ⟨.inl (by omega), not_joins hl hfront.2⟩
    rw [if_neg hfront]
    by_cases htail : e.rlStart ≤ stop ∧ stop ≤ e.rlEnd
    · rw [if_pos htail, hover]
      simp only [BitVec.le_def] at htail
      exact iff_of_true rfl ⟨.inl (by omega), not_joins hl (by omega)⟩
    rw [if_neg htail]
    simp only [BitVec.le_def] at hfront htail
    by_cases hadj : stop + 1 = e.rlStart
    · -- The element is joined; what is behind it cannot reach into the region.
      rw [if_pos hadj]
      apply iff_of_false
      · intro h
        cases h
      rintro ⟨ho, hj⟩
      by_cases hs : start.toNat ≤ e.rlEnd.toNat
      · exact not_overlaps hl hr (by bv_omega) ho
      · exact hj ⟨e, List.mem_cons_self, by rw [BitVec.lt_def]; omega, .inr hadj⟩
    rw [if_neg hadj]
    by_cases hbefore : stop < e.rlStart
    · rw [if_pos hbefore]
      rw [BitVec.lt_def] at hbefore
      refine iff_of_false ?_ fun h => not_overlaps hl hr hbefore h.1
      intro h
      cases m <;> cases h
    rw [if_neg hbefore]
    rw [BitVec.lt_def] at hbefore
    by_cases hnext : e.rlEnd + 1 = start
    · -- The element is joined, and the elements behind it are not looked at.
      rw [if_pos hnext]
      apply iff_of_false
      · intro h
        cases h
      · intro h
        exact h.2 ⟨e, List.mem_cons_self, by bv_omega, .inl hnext⟩
    rw [if_neg hnext]
    by_cases hafter : e.rlEnd < start
    · -- This element has nothing to do with the region.
      rw [if_pos hafter]
      have hjoins : Joins start stop (e :: l) ↔ Joins start stop l := by
        simp only [Joins, List.mem_cons, exists_eq_or_imp, hnext, hadj, or_self, and_false,
          false_or]
      rw [bind_panic_iff fun _ => ⟨_, rfl⟩, ih hrest, hover, hjoins]
      rw [BitVec.lt_def] at hafter
      have hnot : ¬(start.toNat ≤ e.rlEnd.toNat ∧ e.rlStart.toNat ≤ stop.toNat) := by omega
      simp only [hnot, false_or]
    · -- Here the region holds the whole element.
      rw [if_neg hafter, hover]
      rw [BitVec.lt_def] at hafter
      exact iff_of_true rfl ⟨.inl (by omega), not_joins hl (by omega)⟩

theorem rlistFree_panic_iff (hl : Apart 1 l) (hr : start.toNat ≤ stop.toNat) :
    rlistFree m l start stop = .error .panic ↔
      Overlaps start stop l ∧ ¬Joins start stop l := by
  rw [← @freeLoop_panic_iff m l start stop hl hr, rlistFree]
  exact bind_panic_iff fun _ => ⟨_, rfl⟩

/-- `rlist_free` panics for the regions that share a number with the list and for no other, but
that it does not look behind an element that it joins the region to. -/
theorem rlistFree_detects_iff (hl : Apart 1 l) (hr : start.toNat ≤ stop.toNat) :
    (rlistFree m l start stop = .error .panic ↔ Overlaps start stop l) ↔
      ¬(Overlaps start stop l ∧ Joins start stop l) := by
  rw [rlistFree_panic_iff hl hr]
  tauto

/-- A region in the second of two elements is found. -/
theorem rlistFree_detects_second :
    (rlistFree true [⟨100, 109⟩, ⟨120, 129⟩] 122 140 = .error .panic ↔
      Overlaps 122 140 [⟨100, 109⟩, ⟨120, 129⟩]) := by
  apply (rlistFree_detects_iff (by simp [Apart, Spaced, range]) (by decide)).mpr
  rintro ⟨-, e, he, -, hj⟩
  simp only [List.mem_cons, List.not_mem_nil, or_false] at he
  obtain rfl | rfl := he <;> revert hj <;> decide

/-- A region that begins right behind the first element and reaches into the second is not. -/
theorem rlistFree_misses : Apart 1 [⟨100, 109⟩, ⟨120, 129⟩] ∧
    Overlaps 110 125 [⟨100, 109⟩, ⟨120, 129⟩] ∧
    rlistFree true [⟨100, 109⟩, ⟨120, 129⟩] 110 125 = .ok [⟨100, 125⟩, ⟨120, 129⟩] := by
  refine ⟨by simp [Apart, Spaced, range], ⟨120, ?_, by decide, by decide⟩, rfl⟩
  simp

end Rlist
