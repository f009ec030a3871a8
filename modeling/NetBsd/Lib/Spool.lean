import Mathlib.Data.List.Basic

/-!
# Output held back

A writer that holds items back before it passes them on: what it has sent, and what it still
holds. Items are added behind those held, and passed on from their front.

## Main definitions

* `Spool.put s d`, `Spool.drain s k`: add items, and pass the first `k` held ones on
* `Spool.all s`: everything written so far
* `Spool.Writes s d t`: additions and drains that take `s` to `t` and add `d` in all

## Main results

* `Spool.Writes.all_eq`: nothing is lost, repeated or moved
* `Spool.Writes.sent_prefix`: what has been sent is a prefix of what has been written
-/

/-- What a writer has passed on, and what it holds back. -/
@[ext]
structure Spool (α : Type) where
  sent : List α
  held : List α

namespace Spool

variable {α : Type} {s t u : Spool α} {d e : List α} {k : ℕ}

def all (s : Spool α) : List α := s.sent ++ s.held

def put (s : Spool α) (d : List α) : Spool α := { s with held := s.held ++ d }

def drain (s : Spool α) (k : ℕ) : Spool α := ⟨s.sent ++ s.held.take k, s.held.drop k⟩

@[simp] theorem all_put : (s.put d).all = s.all ++ d := by simp [all, put]

@[simp] theorem all_drain : (s.drain k).all = s.all := by
  rw [all, drain, List.append_assoc, List.take_append_drop, all]

/-- Additions and drains in any order, with `d` the items added. -/
inductive Writes (s : Spool α) : List α → Spool α → Prop
  | refl : Writes s [] s
  | put {c : List α} {u : Spool α} (h : Writes s c u) (e : List α) : Writes s (c ++ e) (u.put e)
  | drain {c : List α} {u : Spool α} (h : Writes s c u) (k : ℕ) : Writes s c (u.drain k)

theorem Writes.all_eq (h : Writes s d t) : t.all = s.all ++ d := by
  induction h with
  | refl => simp
  | put _ e ih => rw [all_put, ih, List.append_assoc]
  | drain _ k ih => rw [all_drain, ih]

theorem Writes.trans (h : Writes s d t) (h' : Writes t e u) : Writes s (d ++ e) u := by
  induction h' with
  | refl => simpa using h
  | put _ e' ih => simpa using ih.put e'
  | drain _ k ih => exact ih.drain k

theorem Writes.sent_prefix (h : Writes s d t) : t.sent <+: s.all ++ d :=
  ⟨t.held, h.all_eq⟩

/-! ## The ways a buffer is used -/

/-- Everything held is passed on. -/
theorem Writes.flush (h : Writes s d t) : Writes s d ⟨t.sent ++ t.held, []⟩ := by
  have := h.drain t.held.length
  rwa [Spool.drain, List.take_length, List.drop_length] at this

/-- With nothing held, items pass by the buffer. -/
theorem Writes.direct (h : Writes s d t) (ht : t.held = []) (e : List α) :
    Writes s (d ++ e) ⟨t.sent ++ e, []⟩ := by
  have := (h.put e).flush
  simpa [Spool.put, ht] using this

end Spool
