import Mathlib

/-!
# Patterns with bracket lists

A pattern is a list of tokens, and a bracket list in it is a run of members up to a closing token. A
member is one token, or two with a dash between them. Matching is a run of steps, each of which has
the first item of the pattern take a front part of the string.

## Main definitions

* `Brackets`: the tokens with a meaning in a list, and the characters that tokens stand for
* `Member`, `scan`, `bracket`: the members of a list, and what follows it
* `Brackets.accepts`: a character is one that the list stands for
* `Matches`: a string is taken by a pattern

## Main results

* `scan_first`: where it makes no difference whether the first token may close the list
* `matches_congr`: two meanings of a pattern that differ only where matching never comes
-/

namespace Wildcard

variable {τ α : Type*}

/-- The tokens that have a meaning in a bracket list, the characters of the others, and the order
that ranges are in. -/
structure Brackets (τ α : Type*) where
  bang : τ → Bool
  dash : τ → Bool
  close : τ → Bool
  val : τ → α
  le : α → α → Bool

inductive Member (τ : Type*) where
  | single (t : τ)
  | range (a b : τ)
  deriving DecidableEq

section Lists

variable (B : Brackets τ α)

/-- The members up to the closing token, and what is behind it. With `first`, the first token is a
member whatever it is. -/
def scan : Bool → List τ → Option (List (Member τ) × List τ)
  | _, [] => none
  | first, t :: ts =>
    if !first && B.close t then some ([], ts)
    else match ts with
      | d :: e :: rest =>
        if B.dash d && !B.close e then (scan false rest).map fun r => (.range t e :: r.1, r.2)
        else (scan false (d :: e :: rest)).map fun r => (.single t :: r.1, r.2)
      | ts => (scan false ts).map fun r => (.single t :: r.1, r.2)

/-- A list, with whether it is negated. -/
def bracket (first : Bool) : List τ → Option (Bool × List (Member τ) × List τ)
  | [] => none
  | t :: ts =>
    if B.bang t then (scan B first ts).map fun r => (true, r)
    else (scan B first (t :: ts)).map fun r => (false, r)

variable [DecidableEq α]

def Member.has (c : α) : Member τ → Bool
  | .single t => B.val t = c
  | .range a b => B.le (B.val a) c && B.le c (B.val b)

def Brackets.has (ms : List (Member τ)) (c : α) : Bool := ms.any (Member.has B c)

/-- A character is in the list, or is not where the list is negated. -/
def Brackets.accepts (negate : Bool) (ms : List (Member τ)) (c : α) : Bool := B.has ms c != negate

end Lists

section Scan

variable {B : Brackets τ α} {first : Bool} {t : τ} {ts rest : List τ} {ms : List (Member τ)}

/-- The member that begins with `t`, and what is behind it. -/
def element (B : Brackets τ α) (t : τ) : List τ → Member τ × List τ
  | d :: e :: rest =>
    if B.dash d && !B.close e then (.range t e, rest) else (.single t, d :: e :: rest)
  | ts => (.single t, ts)

theorem element_length (B : Brackets τ α) (t : τ) (ts : List τ) :
    (element B t ts).2.length ≤ ts.length := by
  rcases ts with _ | ⟨d, _ | ⟨e, rest⟩⟩
  · exact le_rfl
  · exact le_rfl
  · simp only [element]
    split
    · simp only [List.length_cons]
      omega
    · exact le_rfl

@[simp] theorem scan_nil : scan B first [] = none := rfl

theorem scan_cons : scan B first (t :: ts) =
    if !first && B.close t then some ([], ts)
    else (scan B false (element B t ts).2).map fun r => ((element B t ts).1 :: r.1, r.2) := by
  rcases ts with _ | ⟨d, _ | ⟨e, rest⟩⟩
  · rw [scan.eq_def]
    simp [element]
  · rw [scan.eq_def]
    simp [element]
  · rw [scan.eq_def]
    simp only [element]
    split
    · rfl
    · split
      · rfl
      · rfl

/-- Nothing but a closing token is read differently when it comes first. -/
theorem scan_first (ht : B.close t = false) : scan B true (t :: ts) = scan B false (t :: ts) := by
  rw [scan_cons, scan_cons, ht, Bool.and_false, Bool.and_false]

theorem scan_close (ht : B.close t = true) : scan B false (t :: ts) = some ([], ts) := by
  rw [scan_cons, ht]
  rfl

theorem scan_open (ht : B.close t = false) : scan B first (t :: ts) =
    (scan B false (element B t ts).2).map fun r => ((element B t ts).1 :: r.1, r.2) := by
  rw [scan_cons, ht, Bool.and_false]
  rfl

/-- What is behind a list is shorter than what it is in. -/
theorem scan_length (n : ℕ) (hn : ts.length ≤ n) (h : scan B first ts = some (ms, rest)) :
    rest.length < ts.length := by
  induction n generalizing first ts ms with
  | zero =>
    rw [List.length_eq_zero_iff.1 (Nat.le_zero.1 hn), scan_nil] at h
    cases h
  | succ n ih =>
    rcases ts with _ | ⟨t, ts⟩
    · rw [scan_nil] at h
      cases h
    · rw [scan_cons] at h
      split at h
      · cases h
        simp
      · obtain ⟨r, hr, he⟩ := Option.map_eq_some_iff.1 h
        cases he
        have hl := element_length B t ts
        simp only [List.length_cons] at hn ⊢
        have := ih (by omega) hr
        omega

theorem element_mem (B : Brackets τ α) (t : τ) (ts : List τ) :
    ∀ u ∈ (element B t ts).2, u ∈ ts := by
  rcases ts with _ | ⟨d, _ | ⟨e, rest⟩⟩
  · exact fun u hu => hu
  · exact fun u hu => hu
  · intro u hu
    simp only [element] at hu
    split at hu
    · exact List.mem_cons_of_mem _ (List.mem_cons_of_mem _ hu)
    · exact hu

theorem scan_mem (n : ℕ) (hn : ts.length ≤ n) (h : scan B first ts = some (ms, rest)) :
    ∀ u ∈ rest, u ∈ ts := by
  induction n generalizing first ts ms with
  | zero =>
    rw [List.length_eq_zero_iff.1 (Nat.le_zero.1 hn), scan_nil] at h
    cases h
  | succ n ih =>
    rcases ts with _ | ⟨t, ts⟩
    · rw [scan_nil] at h
      cases h
    · rw [scan_cons] at h
      split at h
      · cases h
        exact fun u hu => List.mem_cons_of_mem _ hu
      · obtain ⟨r, hr, he⟩ := Option.map_eq_some_iff.1 h
        cases he
        have hl := element_length B t ts
        simp only [List.length_cons] at hn
        intro u hu
        exact List.mem_cons_of_mem _ (element_mem B t ts u (ih (by omega) hr u hu))

theorem bracket_length {negate : Bool} (h : bracket B first ts = some (negate, ms, rest)) :
    rest.length < ts.length := by
  rcases ts with _ | ⟨t, ts⟩
  · cases h
  · simp only [bracket] at h
    split at h
    · obtain ⟨r, hr, he⟩ := Option.map_eq_some_iff.1 h
      cases he
      have := scan_length _ le_rfl hr
      simp only [List.length_cons]
      omega
    · obtain ⟨r, hr, he⟩ := Option.map_eq_some_iff.1 h
      cases he
      exact scan_length _ le_rfl hr

theorem bracket_mem {negate : Bool} (h : bracket B first ts = some (negate, ms, rest)) :
    ∀ u ∈ rest, u ∈ ts := by
  rcases ts with _ | ⟨t, ts⟩
  · cases h
  · simp only [bracket] at h
    split at h
    · obtain ⟨r, hr, he⟩ := Option.map_eq_some_iff.1 h
      cases he
      exact fun u hu => List.mem_cons_of_mem _ (scan_mem _ le_rfl hr u hu)
    · obtain ⟨r, hr, he⟩ := Option.map_eq_some_iff.1 h
      cases he
      exact scan_mem _ le_rfl hr

theorem element_any (hd : ∀ d, B.dash d = true → B.close d = false) :
    (element B t ts).2.any B.close = ts.any B.close := by
  rcases ts with _ | ⟨d, _ | ⟨e, rest⟩⟩
  · rfl
  · rfl
  · simp only [element]
    split
    · rename_i h
      rw [Bool.and_eq_true, Bool.not_eq_true'] at h
      simp [hd d h.1, h.2]
    · rfl

/-- A list has an end when there is a closing token. -/
theorem scan_isSome (hd : ∀ d, B.dash d = true → B.close d = false) (n : ℕ)
    (hn : ts.length ≤ n) : (scan B false ts).isSome = ts.any B.close := by
  induction n generalizing ts with
  | zero =>
    rw [List.length_eq_zero_iff.1 (Nat.le_zero.1 hn), scan_nil]
    rfl
  | succ n ih =>
    rcases ts with _ | ⟨t, ts⟩
    · rw [scan_nil]
      rfl
    · cases ht : B.close t with
      | true => simp [scan_close ht, ht]
      | false =>
        have hl := element_length B t ts
        rw [scan_open ht, Option.isSome_map, ih (by simp only [List.length_cons] at hn; omega),
          element_any hd, List.any_cons, ht, Bool.false_or]

theorem scan_true : scan B true (t :: ts) =
    (scan B false (element B t ts).2).map fun r => ((element B t ts).1 :: r.1, r.2) := by
  rw [scan_cons]
  rfl

/-- A closing token comes first in the list. -/
def Leading (B : Brackets τ α) : List τ → Prop
  | [] => False
  | t :: ts => if B.bang t then (ts.head?.any B.close : Bool) = true else B.close t = true

/-- The two readings of a list differ only where a closing token comes first. -/
theorem bracket_first (h : ¬ Leading B ts) : bracket B true ts = bracket B false ts := by
  rcases ts with _ | ⟨t, ts⟩
  · rfl
  · simp only [Leading] at h
    simp only [bracket]
    split
    · rename_i hb
      rw [if_pos hb] at h
      rcases ts with _ | ⟨u, ts⟩
      · rfl
      · rw [scan_first (by simpa using h)]
    · rename_i hb
      rw [if_neg hb] at h
      rw [scan_first (by simpa using h)]

end Scan

/-! ### Matching -/

section Matching

variable {π σ : Type*} {takes takes' : π × σ → π × σ → Prop} {x y e : π × σ}

/-- A run of steps leads from `x` to the end `e`. -/
def Matches (takes : π × σ → π × σ → Prop) (e x : π × σ) : Prop := Relation.ReflTransGen takes x e

theorem matches_iff : Matches takes e x ↔ x = e ∨ ∃ y, takes x y ∧ Matches takes e y := by
  unfold Matches
  rw [Relation.ReflTransGen.cases_head_iff]

/-- Steps that can be told apart only at places where no run comes lead to the same ends. -/
theorem matches_congr {D : π × σ → Prop} (hD : ∀ y, Relation.ReflTransGen takes x y → ¬ D y)
    (hs : ∀ y z, ¬ D y → (takes y z ↔ takes' y z)) : Matches takes e x ↔ Matches takes' e x := by
  -- each run of the one kind is a run of the other, step by step from its start
  have hto : ∀ y, Relation.ReflTransGen takes x y → Relation.ReflTransGen takes' x y := by
    intro y hy
    induction hy with
    | refl => exact Relation.ReflTransGen.refl
    | tail hy hz ih => exact ih.tail ((hs _ _ (hD _ hy)).1 hz)
  have hfrom : ∀ y, Relation.ReflTransGen takes' x y → Relation.ReflTransGen takes x y := by
    intro y hy
    induction hy with
    | refl => exact Relation.ReflTransGen.refl
    | tail _ hz ih => exact ih.tail ((hs _ _ (hD _ ih)).2 hz)
  exact ⟨hto e, hfrom e⟩

end Matching

end Wildcard
