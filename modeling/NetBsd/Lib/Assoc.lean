import Mathlib.Data.List.Basic
import Mathlib.Logic.Function.Basic

/-!
# Lists of bindings

A list whose items each bind one key at most; a key may be bound more than once, and the first
of its bindings counts.

## Main definitions

* `Assoc.find b l k`: the value of key `k` in the list `l`, where `b x k` is what item `x` binds
  it to

## Main results

* `Assoc.find_eq_some`: where a value comes from
* `Assoc.find_replace`, `Assoc.find_snoc`, `Assoc.find_filter`: a binding changed, added at the
  end, and all bindings of a key removed
-/

namespace Assoc

variable {α κ ν : Type} {b : α → κ → Option ν} {l l₁ l₂ : List α} {x y : α} {k : κ} {v w : ν}

/-- The value of a key is that of its first binding. -/
def find (b : α → κ → Option ν) (l : List α) (k : κ) : Option ν := l.findSome? (b · k)

/-- No item binds two keys. -/
def OneKey (b : α → κ → Option ν) : Prop :=
  ∀ x k k', (b x k).isSome → (b x k').isSome → k = k'

@[simp] theorem find_nil : find b [] k = none := rfl

theorem find_cons : find b (x :: l) k = (b x k).or (find b l k) := by
  rw [find, List.findSome?_cons]
  cases b x k <;> rfl

theorem find_append : find b (l₁ ++ l₂) k = (find b l₁ k).or (find b l₂ k) := by
  rw [find, List.findSome?_append]
  rfl

theorem find_eq_some (h : find b l k = some v) :
    ∃ l₁ x l₂, l = l₁ ++ x :: l₂ ∧ find b l₁ k = none ∧ b x k = some v := by
  induction l with
  | nil => cases h
  | cons x l ih =>
    rw [find_cons] at h
    cases hx : b x k with
    | some w =>
      rw [hx, Option.some_or] at h
      exact ⟨[], x, l, rfl, rfl, hx.trans h⟩
    | none =>
      rw [hx, Option.none_or] at h
      obtain ⟨l₁, y, l₂, rfl, hl, hy⟩ := ih h
      exact ⟨x :: l₁, y, l₂, rfl, by rw [find_cons, hx, hl]; rfl, hy⟩

variable [DecidableEq κ]

/-- What an item says of a key other than its own. -/
theorem OneKey.other (hb : OneKey b) (hx : b x k = some v) {k' : κ} (hk : k' ≠ k) :
    b x k' = none := by
  by_contra h
  exact hk (hb x k' k (Option.isSome_iff_ne_none.mpr h) (by rw [hx]; rfl))

theorem find_replace (hb : OneKey b) (h₁ : find b l₁ k = none) (hx : b x k = some v)
    (hy : b y k = some w) :
    find b (l₁ ++ y :: l₂) = Function.update (find b (l₁ ++ x :: l₂)) k (some w) := by
  funext k'
  by_cases hk : k' = k
  · subst hk
    rw [Function.update_self, find_append, find_cons, h₁, hy]
    rfl
  · rw [Function.update_of_ne hk, find_append, find_append, find_cons, find_cons,
      hb.other hx hk, hb.other hy hk]

theorem find_snoc (hb : OneKey b) (h : find b l k = none) (hx : b x k = some v) :
    find b (l ++ [x]) = Function.update (find b l) k (some v) := by
  funext k'
  rw [find_append, find_cons, find_nil]
  by_cases hk : k' = k
  · subst hk
    rw [Function.update_self, h, hx]
    rfl
  · rw [Function.update_of_ne hk, hb.other hx hk, Option.or_none, Option.or_none]

theorem find_filter (hb : OneKey b) :
    find b (l.filter fun x => (b x k).isNone) = Function.update (find b l) k none := by
  funext k'
  induction l with
  | nil => by_cases hk : k' = k <;> simp [hk]
  | cons x l ih =>
    cases hx : b x k with
    | none =>
      rw [List.filter_cons_of_pos (by rw [hx]; rfl), find_cons, ih]
      by_cases hk : k' = k
      · subst hk
        rw [Function.update_self, Function.update_self, hx]
        rfl
      · rw [Function.update_of_ne hk, Function.update_of_ne hk, find_cons]
    | some v =>
      rw [List.filter_cons_of_neg (by rw [hx]; simp), ih]
      by_cases hk : k' = k
      · subst hk
        rw [Function.update_self, Function.update_self]
      · rw [Function.update_of_ne hk, Function.update_of_ne hk, find_cons, hb.other hx hk]
        rfl

end Assoc
