import Mathlib.Data.List.Basic
import Mathlib.Logic.Function.Basic
import Mathlib.Tactic.Common

/-!
# Circular linked lists

Nodes linked in a circle by a `next` pointer each, entered by a pointer to the last of them.
The circle is described by the list of its nodes, first to last.

## Main definitions

* `Links next a l`: following `next` from `a` passes through the nodes of `l` in order
* `IsRing next last l`: the circle entered at `last` is `l`
* `moveToFront next lcs cs last`: the three assignments that move `cs` behind `last`

## Main results

* `IsRing.rotate`: entering one node earlier makes the last node the first
* `IsRing.moveToFront`: the assignments move an inner node to the front and change nothing else
-/

namespace Ring

variable {α : Type} {next next' : α → α} {a b last lcs cs : α} {l l' pre post : List α}

/-- Following `next` from `a` passes through the nodes of the list in order. -/
def Links (next : α → α) : α → List α → Prop
  | _, [] => True
  | a, b :: l => next a = b ∧ Links next b l

/-- The circle of pointers entered at its last node. -/
structure IsRing (next : α → α) (last : α) (l : List α) : Prop where
  links : Links next last l
  getLast : l.getLast? = some last
  nodup : l.Nodup

@[simp] theorem links_nil : Links next a [] := trivial

@[simp] theorem links_cons : Links next a (b :: l) ↔ next a = b ∧ Links next b l := Iff.rfl

instance Links.decidable [DecidableEq α] (next : α → α) :
    ∀ (a : α) (l : List α), Decidable (Links next a l)
  | _, [] => .isTrue trivial
  | a, b :: l =>
    have := Links.decidable next b l
    inferInstanceAs (Decidable (next a = b ∧ Links next b l))

theorem links_append :
    Links next a (l ++ b :: l') ↔ Links next a (l ++ [b]) ∧ Links next b l' := by
  induction l generalizing a with
  | nil => simp
  | cons c l ih => simp [ih, and_assoc]

/-- Only the pointers of nodes that another one follows matter. -/
theorem Links.congr (h : Links next a l) (hn : ∀ x ∈ (a :: l).dropLast, next' x = next x) :
    Links next' a l := by
  induction l generalizing a with
  | nil => trivial
  | cons b l ih =>
    obtain ⟨hab, hl⟩ := h
    refine ⟨?_, ih hl fun x hx => hn x ?_⟩
    · rw [hn a (by simp), hab]
    · rw [List.dropLast_cons_cons]
      exact List.mem_cons_of_mem _ hx

namespace IsRing

theorem next_last (h : IsRing next last (b :: l)) : next last = b := h.links.1

/-- Entered one node earlier, the circle starts at what was its last node. -/
theorem rotate (h : IsRing next last (pre ++ [lcs, last])) :
    IsRing next lcs (last :: (pre ++ [lcs])) := by
  obtain ⟨hpre, hlast, -⟩ := links_append.mp h.links
  refine ⟨⟨hlast, hpre⟩, by rw [← List.cons_append, List.getLast?_concat], ?_⟩
  refine (List.Perm.nodup_iff ?_).mp h.nodup
  rw [show pre ++ [lcs, last] = (pre ++ [lcs]) ++ [last] by simp]
  exact List.perm_append_comm

end IsRing

section MoveToFront

variable [DecidableEq α]

/-- `lcs->next = cs->next; cs->next = last->next; last->next = cs`, in this order. -/
def moveToFront (next : α → α) (lcs cs last : α) : α → α :=
  let next₁ := Function.update next lcs (next cs)
  let next₂ := Function.update next₁ cs (next₁ last)
  Function.update next₂ last cs

theorem IsRing.moveToFront (h : IsRing next last (pre ++ lcs :: cs :: (post ++ [last]))) :
    IsRing (moveToFront next lcs cs last) last (cs :: (pre ++ lcs :: (post ++ [last]))) := by
  have hnd : (cs :: (pre ++ lcs :: (post ++ [last]))).Nodup := by
    refine (List.Perm.nodup_iff ?_).mp h.nodup
    rw [show pre ++ lcs :: cs :: (post ++ [last]) = (pre ++ [lcs]) ++ cs :: (post ++ [last]) by simp,
      show pre ++ lcs :: (post ++ [last]) = (pre ++ [lcs]) ++ (post ++ [last]) by simp]
    exact List.perm_middle
  refine ⟨?_, by simp [List.getLast?_cons], hnd⟩
  obtain ⟨hpre, hcs, hpost⟩ := links_append.mp h.links
  -- the nodes written to are distinct, and none of them lies in `pre` or in `post`
  have hcl : lcs ≠ cs := by rintro rfl; simp at hnd
  have hll : lcs ≠ last := by rintro rfl; simp [List.nodup_append] at hnd
  have hc : cs ≠ last := by rintro rfl; simp at hnd
  have hne : ∀ x, x ≠ lcs → x ≠ cs → x ≠ last → Ring.moveToFront next lcs cs last x = next x :=
    fun x h₁ h₂ h₃ => by simp [Ring.moveToFront, h₁, h₂, h₃]
  have hout : ∀ x, x ∈ pre ∨ x ∈ post → x ≠ lcs ∧ x ≠ cs ∧ x ≠ last := by
    intro x hx
    refine ⟨?_, ?_, ?_⟩ <;> rintro rfl <;> simp [List.nodup_append] at hnd <;> grind
  have hlast : Ring.moveToFront next lcs cs last last = cs := by simp [Ring.moveToFront]
  have hlcs : Ring.moveToFront next lcs cs last lcs = next cs := by
    simp [Ring.moveToFront, hcl, hll]
  have hcs' : Ring.moveToFront next lcs cs last cs = next last := by
    simp [Ring.moveToFront, hc, hll.symm]
  rw [links_cons]
  refine ⟨hlast, links_append.mpr ⟨?_, ?_⟩⟩
  · cases hp : pre ++ [lcs] with
    | nil => trivial
    | cons b t =>
      rw [hp] at hpre
      refine ⟨by rw [hcs', hpre.1], hpre.2.congr fun x hx => ?_⟩
      rw [← hp, List.dropLast_concat] at hx
      obtain ⟨h₁, h₂, h₃⟩ := hout x (Or.inl hx)
      exact hne x h₁ h₂ h₃
  · cases hp : post ++ [last] with
    | nil => trivial
    | cons b t =>
      rw [hp] at hpost
      refine ⟨by rw [hlcs, hpost.1], hpost.2.congr fun x hx => ?_⟩
      rw [← hp, List.dropLast_concat] at hx
      obtain ⟨h₁, h₂, h₃⟩ := hout x (Or.inr hx)
      exact hne x h₁ h₂ h₃

end MoveToFront

end Ring
