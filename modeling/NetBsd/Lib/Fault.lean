import Mathlib.Tactic.Common

/-!
# Computations that may fault

Pointer code as computations that return a value or stop at a fault. Loops are given a bound
on their turns; running out of it is a fault of its own, which says nothing about the code.

## Main definitions

* `Fault`: the ways a computation stops
* `Fault.Meets F e P`: `e` returns a value with `P`, or has run out of turns, and then `F`

## Main results

* `Fault.Meets.bind`: computations in sequence
* `Fault.Meets.of_ok`, `Fault.Meets.total`: what was returned has `P`; where `F` fails,
  something is returned
-/

/-- The ways a computation stops: a call of `panic`, a pointer to no structure, and a loop
that has used up its turns. -/
inductive Fault where
  | panic
  | deref
  | loop
  deriving DecidableEq, Repr

namespace Fault

variable {α β : Type} {F F' : Prop} {e : Except Fault α} {P Q : α → Prop}

/-- The computation returns a value with `P`, or has run out of turns, and then `F` holds. -/
def Meets (F : Prop) (e : Except Fault α) (P : α → Prop) : Prop :=
  match e with
  | .ok x => P x
  | .error .loop => F
  | .error _ => False

@[simp] theorem meets_ok (x : α) : Meets F (.ok x) P ↔ P x := Iff.rfl

@[simp] theorem meets_pure (x : α) : Meets F (pure x) P ↔ P x := Iff.rfl

@[simp] theorem meets_loop : Meets F (.error .loop : Except Fault α) P ↔ F := Iff.rfl

theorem Meets.bind {f : α → Except Fault β} {R : β → Prop} (h : Meets F e P)
    (hf : ∀ x, P x → Meets F (f x) R) : Meets F (e >>= f) R := by
  rcases e with f' | x
  · cases f' <;> first | exact h.elim | exact h
  · exact hf x h

theorem Meets.imp (h : Meets F e P) (hP : ∀ x, P x → Q x) : Meets F e Q := by
  rcases e with f' | x
  · cases f' <;> exact h
  · exact hP x h

theorem Meets.mono (h : Meets F e P) (hF : F → F') : Meets F' e P := by
  rcases e with f' | x
  · cases f' <;> first | exact h.elim | exact hF h
  · exact h

theorem Meets.of_ok {x : α} (h : Meets F e P) (he : e = .ok x) : P x := by
  rw [he] at h
  exact h

theorem Meets.total (h : Meets F e P) (hF : ¬F) : ∃ x, e = .ok x ∧ P x := by
  rcases e with f' | x
  · cases f' <;> first | exact h.elim | exact (hF h).elim
  · exact ⟨x, rfl, h⟩

/-- A sequence goes on with what its first part has returned. -/
theorem ok_bind (x : α) (f : α → Except Fault β) : (.ok x : Except Fault α) >>= f = f x := rfl

/-- A sequence that returns has returned from both of its parts. -/
theorem bind_eq_ok {f : α → Except Fault β} {y : β} :
    e >>= f = .ok y ↔ ∃ x, e = .ok x ∧ f x = .ok y := by
  rcases e with f' | x
  · exact ⟨fun h => (nomatch h), fun ⟨_, h, _⟩ => (nomatch h)⟩
  · exact ⟨fun h => ⟨x, rfl, h⟩, fun ⟨_, h, hf⟩ => by cases h; exact hf⟩

end Fault
