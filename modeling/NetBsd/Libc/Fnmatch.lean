import Mathlib
import NetBsd.Lib.Wildcard

/-!
# Matching file names

`fnmatch` of `gen/fnmatch.c` compares a name to a pattern. It goes through both, calls itself at
each place where a star may end, and takes two shorter ways: a star at the end of the pattern, and
one in front of a slash. `rangematch` has a bracket list end at the first `]`, also where that is
the first character of the list.

## Main definitions

* `rangematch`, `fnmatch`: the two functions
* `Takes`: what the first item of a pattern takes of a name
* `Accepts`: the names that a pattern stands for
* `Comes`: matching comes to a list that begins with `]`

## Main results

* `fnmatch_code`: the function decides the meaning in which the first `]` ends a list
* `fnmatch_iff`: where matching comes to no list that begins with `]`, it decides the other meaning
-/

namespace Fnmatch

open Wildcard

def question : BitVec 8 := 0x3F
def star : BitVec 8 := 0x2A
def lbrack : BitVec 8 := 0x5B
def rbrack : BitVec 8 := 0x5D
def bang : BitVec 8 := 0x21
def dash : BitVec 8 := 0x2D
def backslash : BitVec 8 := 0x5C
def slash : BitVec 8 := 0x2F

/-- `FNM_PATHNAME` and `FNM_QUOTE`. -/
structure Flags where
  pathname : Bool
  quote : Bool
  deriving DecidableEq

/-! ### The functions

A string is the list of its characters, without the NUL; characters are signed. -/

/-- The loop of `rangematch`. -/
def rangeLoop (test : BitVec 8) (negate : Bool) :
    Bool → List (BitVec 8) → Option (List (BitVec 8))
  | _, [] => none
  | ok, c :: pattern =>
    if c = rbrack then if ok = negate then none else some pattern
    else match pattern with
      | d :: c2 :: rest =>
        if d = dash ∧ c2 ≠ rbrack then rangeLoop test negate (ok || (c.sle test && test.sle c2)) rest
        else rangeLoop test negate (ok || c = test) (d :: c2 :: rest)
      | pattern => rangeLoop test negate (ok || c = test) pattern

/-- What is behind a list that `test` is in; no result stands for `NULL`. -/
def rangematch (pattern : List (BitVec 8)) (test : BitVec 8) : Option (List (BitVec 8)) :=
  match pattern with
  | [] => none
  | c :: rest =>
    if c = bang then rangeLoop test true false rest else rangeLoop test false false (c :: rest)

/-- `index`. -/
def index (c : BitVec 8) : List (BitVec 8) → Option (List (BitVec 8))
  | [] => none
  | a :: s => if a = c then some (a :: s) else index c s

/-- The rest of the pattern is tried at every place up to a slash that a star may not take. -/
def starLoop (fl : Flags) (again : List (BitVec 8) → Option ℕ) : List (BitVec 8) → Option ℕ
  | [] => some 1
  | test :: string =>
    match again (test :: string) with
    | none => none
    | some r =>
      if r = 0 then some 0
      else if test = slash ∧ fl.pathname then some 1
      else starLoop fl again string

/-- `if (c != *string++) return(1)`. -/
def literal (c : BitVec 8) (string : List (BitVec 8)) (next : List (BitVec 8) → Option ℕ) :
    Option ℕ :=
  match string with
  | [] => some 1
  | a :: string => if c ≠ a then some 1 else next string

/-- The loop of `fnmatch`, and its calls of itself; there is no result when the turns run out. -/
def loop (fl : Flags) : ℕ → List (BitVec 8) → List (BitVec 8) → Option ℕ
  | 0, _, _ => none
  | _ + 1, [], string => some (if string = [] then 0 else 1)
  | n + 1, c :: pattern, string =>
    if c = question then
      match string with
      | [] => some 1
      | test :: string =>
        if test = slash ∧ fl.pathname then some 1 else loop fl n pattern string
    else if c = star then
      -- collapse multiple stars
      match pattern.dropWhile (· = star) with
      | [] => if fl.pathname then some (if (index slash string).isSome then 1 else 0) else some 0
      | c :: pattern =>
        if c = slash ∧ fl.pathname then
          match index slash string with
          | none => some 1
          | some string => loop fl n (c :: pattern) string
        else starLoop fl (loop fl n (c :: pattern)) string
    else if c = lbrack then
      match string with
      | [] => some 1
      | test :: string =>
        if test = slash ∧ fl.pathname then some 1
        else match rangematch pattern test with
          | none => some 1
          | some pattern => loop fl n pattern string
    else if c = backslash ∧ fl.quote then
      match pattern with
      | [] => literal backslash string (loop fl n [])
      | c :: pattern => literal c string (loop fl n pattern)
    else literal c string (loop fl n pattern)

theorem loop_nil {fl : Flags} {n : ℕ} {string : List (BitVec 8)} :
    loop fl (n + 1) [] string = some (if string = [] then 0 else 1) := by
  rw [loop.eq_def]

def fnmatch (fl : Flags) (pattern string : List (BitVec 8)) : Option ℕ :=
  loop fl (pattern.length + 1) pattern string

/-! ### The meaning of a pattern -/

def brackets : Brackets (BitVec 8) (BitVec 8) where
  bang c := c = bang
  dash c := c = dash
  close c := c = rbrack
  val c := c
  le a b := a.sle b

/-- A character that an item other than itself may take. -/
def Free (fl : Flags) (a : BitVec 8) : Prop := ¬ (a = slash ∧ fl.pathname = true)

/-- The first item of a pattern takes a front part of the name. With `first`, a `]` that comes first
in a list is a member of it. -/
def Takes (fl : Flags) (first : Bool) (x y : List (BitVec 8) × List (BitVec 8)) : Prop :=
  match x.1 with
  | [] => False
  | c :: p =>
    if c = question then y.1 = p ∧ ∃ a, Free fl a ∧ x.2 = a :: y.2
    else if c = star then y.1 = p ∧ ∃ u, (∀ a ∈ u, Free fl a) ∧ x.2 = u ++ y.2
    else if c = lbrack then
      ∃ negate ms a, bracket brackets first p = some (negate, ms, y.1) ∧ Free fl a ∧
        brackets.accepts negate ms a = true ∧ x.2 = a :: y.2
    else if c = backslash ∧ fl.quote = true ∧ p ≠ [] then ∃ a, p = a :: y.1 ∧ x.2 = a :: y.2
    else y.1 = p ∧ x.2 = c :: y.2

/-- The name matches the pattern. -/
def Accepts (fl : Flags) (first : Bool) (p s : List (BitVec 8)) : Prop :=
  Matches (Takes fl first) ([], []) (p, s)

section Meaning

variable {fl : Flags} {first negate ok : Bool} {c test : BitVec 8} {p s : List (BitVec 8)}

theorem accepts_nil : Accepts fl first [] s ↔ s = [] := by
  unfold Accepts
  rw [matches_iff]
  simp [Takes]

theorem accepts_cons : Accepts fl first (c :: p) s ↔
    ∃ p' s', Takes fl first (c :: p, s) (p', s') ∧ Accepts fl first p' s' := by
  unfold Accepts
  rw [matches_iff]
  simp

theorem accepts_question : Accepts fl first (question :: p) s ↔
    ∃ a t, s = a :: t ∧ Free fl a ∧ Accepts fl first p t := by
  rw [accepts_cons]
  simp only [Takes, if_true]
  constructor
  · rintro ⟨_, t, ⟨rfl, a, ha, hs⟩, hm⟩
    exact ⟨a, t, hs, ha, hm⟩
  · rintro ⟨a, t, hs, ha, hm⟩
    exact ⟨p, t, ⟨rfl, a, ha, hs⟩, hm⟩

theorem accepts_star : Accepts fl first (star :: p) s ↔
    ∃ u t, s = u ++ t ∧ (∀ a ∈ u, Free fl a) ∧ Accepts fl first p t := by
  rw [accepts_cons]
  simp only [Takes, show star ≠ question by decide, if_false, if_true]
  constructor
  · rintro ⟨_, t, ⟨rfl, u, hu, hs⟩, hm⟩
    exact ⟨u, t, hs, hu, hm⟩
  · rintro ⟨u, t, hs, hu, hm⟩
    exact ⟨p, t, ⟨rfl, u, hu, hs⟩, hm⟩

theorem accepts_star_nil : Accepts fl first (star :: p) [] ↔ Accepts fl first p [] := by
  rw [accepts_star]
  constructor
  · rintro ⟨u, t, hs, -, hm⟩
    rw [(List.append_eq_nil_iff.1 hs.symm).2] at hm
    exact hm
  · intro hm
    exact ⟨[], [], rfl, by simp, hm⟩

theorem accepts_star_cons : Accepts fl first (star :: p) (c :: s) ↔
    Accepts fl first p (c :: s) ∨ Free fl c ∧ Accepts fl first (star :: p) s := by
  rw [accepts_star, accepts_star]
  constructor
  · rintro ⟨u, t, hs, hu, hm⟩
    rcases u with _ | ⟨a, u⟩
    · rw [List.nil_append] at hs
      rw [hs]
      exact Or.inl hm
    · rw [List.cons_append, List.cons.injEq] at hs
      obtain ⟨rfl, hs⟩ := hs
      exact Or.inr ⟨hu c (by simp), u, t, hs, fun b hb => hu b (by simp [hb]), hm⟩
  · rintro (hm | ⟨hc, u, t, hs, hu, hm⟩)
    · exact ⟨[], c :: s, rfl, by simp, hm⟩
    · refine ⟨c :: u, t, by simp [hs], ?_, hm⟩
      intro b hb
      rcases List.mem_cons.1 hb with rfl | hb
      · exact hc
      · exact hu b hb

/-- Several stars are one. -/
theorem accepts_stars : Accepts fl first (star :: star :: p) s ↔ Accepts fl first (star :: p) s := by
  induction s with
  | nil => rw [accepts_star_nil]
  | cons c s ih =>
    rw [accepts_star_cons, ih]
    constructor
    · rintro (hm | ⟨hc, hm⟩)
      · exact hm
      · exact accepts_star_cons.2 (Or.inr ⟨hc, hm⟩)
    · exact Or.inl

theorem accepts_collapse (fl : Flags) (first : Bool) (p s : List (BitVec 8)) :
    Accepts fl first (star :: p.dropWhile (· = star)) s ↔ Accepts fl first (star :: p) s := by
  induction p with
  | nil => rfl
  | cons c p ih =>
    by_cases hc : c = star
    · rw [List.dropWhile_cons, if_pos (by simpa using hc), ih, hc, accepts_stars]
    · rw [List.dropWhile_cons, if_neg (by simpa using hc)]

theorem accepts_list : Accepts fl first (lbrack :: p) s ↔
    ∃ a t negate ms rest, s = a :: t ∧ Free fl a ∧
      bracket brackets first p = some (negate, ms, rest) ∧
      brackets.accepts negate ms a = true ∧ Accepts fl first rest t := by
  rw [accepts_cons]
  simp only [Takes, show lbrack ≠ question by decide, show lbrack ≠ star by decide, if_false,
    if_true]
  constructor
  · rintro ⟨rest, t, ⟨negate, ms, a, hb, ha, hin, hs⟩, hm⟩
    exact ⟨a, t, negate, ms, rest, hs, ha, hb, hin, hm⟩
  · rintro ⟨a, t, negate, ms, rest, hs, ha, hb, hin, hm⟩
    exact ⟨rest, t, ⟨negate, ms, a, hb, ha, hin, hs⟩, hm⟩

theorem accepts_quoted (hq : fl.quote = true) : Accepts fl first (backslash :: c :: p) s ↔
    ∃ t, s = c :: t ∧ Accepts fl first p t := by
  rw [accepts_cons]
  simp only [Takes, show backslash ≠ question by decide, show backslash ≠ star by decide,
    show backslash ≠ lbrack by decide, if_false, hq, true_and, ne_eq, reduceCtorEq,
    not_false_eq_true, if_true]
  constructor
  · rintro ⟨_, t, ⟨a, hp, hs⟩, hm⟩
    cases hp
    exact ⟨t, hs, hm⟩
  · rintro ⟨t, hs, hm⟩
    exact ⟨p, t, ⟨c, rfl, hs⟩, hm⟩

/-- A character that stands for itself. -/
theorem accepts_literal (h₁ : c ≠ question) (h₂ : c ≠ star) (h₃ : c ≠ lbrack)
    (h₄ : ¬ (c = backslash ∧ fl.quote = true ∧ p ≠ [])) : Accepts fl first (c :: p) s ↔
    ∃ t, s = c :: t ∧ Accepts fl first p t := by
  rw [accepts_cons]
  simp only [Takes, if_neg h₁, if_neg h₂, if_neg h₃, if_neg h₄]
  constructor
  · rintro ⟨_, t, ⟨rfl, hs⟩, hm⟩
    exact ⟨t, hs, hm⟩
  · rintro ⟨t, hs, hm⟩
    exact ⟨p, t, ⟨rfl, hs⟩, hm⟩

/-- Only a star takes nothing. -/
theorem not_accepts_nil (hc : c ≠ star) : ¬ Accepts fl first (c :: p) [] := by
  rw [accepts_cons]
  rintro ⟨p', s', ht, -⟩
  simp only [Takes, if_neg hc] at ht
  split_ifs at ht
  · obtain ⟨-, a, -, hs⟩ := ht
    cases hs
  · obtain ⟨_, _, a, -, -, -, hs⟩ := ht
    cases hs
  · obtain ⟨a, -, hs⟩ := ht
    cases hs
  · cases ht.2

end Meaning

/-! ### The functions decide the meaning -/

section Functions

variable {fl : Flags} {negate ok : Bool} {c test : BitVec 8} {p s : List (BitVec 8)}
  {again : List (BitVec 8) → Option ℕ}

theorem rangeLoop_cons : rangeLoop test negate ok (c :: p) =
    if c = rbrack then if ok = negate then none else some p
    else rangeLoop test negate (ok || (element brackets c p).1.has brackets test)
      (element brackets c p).2 := by
  rcases p with _ | ⟨d, _ | ⟨e, rest⟩⟩
  · rw [rangeLoop.eq_def]
    rfl
  · rw [rangeLoop.eq_def]
    rfl
  · rw [rangeLoop.eq_def]
    simp only [element]
    split
    · rfl
    · by_cases hd : d = dash ∧ e ≠ rbrack
      · have hb : (brackets.dash d && !brackets.close e) = true := by simp [brackets, hd]
        rw [if_pos hd, if_pos hb]
        rfl
      · have hb : ¬ (brackets.dash d && !brackets.close e) = true := by
          simpa [brackets] using hd
        rw [if_neg hd, if_neg hb]
        rfl

/-- The loop keeps whether a member met so far is the character. -/
theorem rangeLoop_eq (n : ℕ) (hn : p.length ≤ n) : rangeLoop test negate ok p =
    (scan brackets false p).bind fun r =>
      if (ok || brackets.has r.1 test) = negate then none else some r.2 := by
  induction n generalizing ok p with
  | zero =>
    rw [List.length_eq_zero_iff.1 (Nat.le_zero.1 hn), scan_nil]
    rfl
  | succ n ih =>
    rcases p with _ | ⟨c, p⟩
    · rw [scan_nil]
      rfl
    · rw [rangeLoop_cons]
      by_cases hc : c = rbrack
      · rw [if_pos hc, scan_close (by simpa [brackets] using hc)]
        simp [Brackets.has]
      · have hl := element_length brackets c p
        rw [if_neg hc, scan_open (by simpa [brackets] using hc),
          ih (by simp only [List.length_cons] at hn; omega)]
        cases hs : scan brackets false (element brackets c p).2 with
        | none => rfl
        | some r =>
          simp only [Option.bind_some, Option.map_some, Brackets.has, List.any_cons, Bool.or_assoc]
          rfl

theorem rangematch_iff {rest : List (BitVec 8)} : rangematch p test = some rest ↔
    ∃ negate ms, bracket brackets false p = some (negate, ms, rest) ∧
      brackets.accepts negate ms test = true := by
  have hr : ∀ negate q, rangeLoop test negate false q = some rest ↔
      ∃ ms, scan brackets false q = some (ms, rest) ∧
        brackets.accepts negate ms test = true := by
    intro negate q
    rw [rangeLoop_eq _ le_rfl]
    simp only [Bool.false_or, Option.bind_eq_some_iff, Prod.exists, Brackets.accepts]
    constructor
    · rintro ⟨ms, r, hs, he⟩
      split at he
      · cases he
      · rename_i hne
        cases he
        exact ⟨ms, hs, by simpa using hne⟩
    · rintro ⟨ms, hs, hne⟩
      refine ⟨ms, rest, hs, ?_⟩
      rw [if_neg (by simpa using hne)]
  rcases p with _ | ⟨c, p⟩
  · simp [rangematch, bracket]
  · simp only [rangematch, bracket]
    have hb : brackets.bang c = decide (c = bang) := rfl
    by_cases hc : c = bang
    · rw [if_pos hc, hr, if_pos (by rw [hb]; simpa using hc)]
      simp only [Option.map_eq_some_iff, Prod.mk.injEq, Prod.exists]
      constructor
      · rintro ⟨ms, hs, hin⟩
        exact ⟨true, ms, ⟨ms, rest, hs, rfl, rfl, rfl⟩, hin⟩
      · rintro ⟨_, _, ⟨ms, _, hs, rfl, rfl, rfl⟩, hin⟩
        exact ⟨ms, hs, hin⟩
    · rw [if_neg hc, hr, if_neg (by rw [hb]; simpa using hc)]
      simp only [Option.map_eq_some_iff, Prod.mk.injEq, Prod.exists]
      constructor
      · rintro ⟨ms, hs, hin⟩
        exact ⟨false, ms, ⟨ms, rest, hs, rfl, rfl, rfl⟩, hin⟩
      · rintro ⟨_, _, ⟨ms, _, hs, rfl, rfl, rfl⟩, hin⟩
        exact ⟨ms, hs, hin⟩

/-- The result of a call: it says whether the name matches. -/
def Decides (r : Option ℕ) (P : Prop) : Prop := ∃ k, r = some k ∧ (k = 0 ↔ P)

theorem decides_one {P : Prop} (h : ¬ P) : Decides (some 1) P := ⟨1, rfl, by simp [h]⟩

theorem decides_zero {P : Prop} (h : P) : Decides (some 0) P := ⟨0, rfl, by simp [h]⟩

theorem Decides.congr {P Q : Prop} {r : Option ℕ} (h : Decides r P) (hPQ : P ↔ Q) : Decides r Q := by
  obtain ⟨k, hk, hP⟩ := h
  exact ⟨k, hk, hP.trans hPQ⟩

theorem literal_decides {P : List (BitVec 8) → Prop} (h : ∀ t, Decides (again t) (P t)) :
    Decides (literal c s again) (∃ t, s = c :: t ∧ P t) := by
  rcases s with _ | ⟨a, s⟩
  · exact decides_one (by simp)
  · simp only [literal]
    by_cases hc : c = a
    · rw [if_neg (by simpa using hc)]
      exact (h s).congr (by simp [hc])
    · rw [if_pos hc]
      exact decides_one (by simp [Ne.symm hc])

/-- The places for the end of a star are tried from the left. -/
theorem starLoop_decides (hc : c ≠ star)
    (h : ∀ t, Decides (again t) (Accepts fl false (c :: p) t)) :
    Decides (starLoop fl again s) (Accepts fl false (star :: c :: p) s) := by
  induction s with
  | nil =>
    apply decides_one
    rw [accepts_star_nil]
    exact not_accepts_nil hc
  | cons a s ih =>
    obtain ⟨k, hk, hm⟩ := h (a :: s)
    simp only [starLoop, hk]
    by_cases h0 : k = 0
    · rw [if_pos h0]
      exact decides_zero (accepts_star_cons.2 (Or.inl (hm.1 h0)))
    · have hno : ¬ Accepts fl false (c :: p) (a :: s) := fun hm' => h0 (hm.2 hm')
      rw [if_neg h0]
      by_cases ha : a = slash ∧ fl.pathname = true
      · rw [if_pos ha]
        apply decides_one
        rw [accepts_star_cons]
        rintro (hm' | ⟨hf, -⟩)
        · exact hno hm'
        · exact hf ha
      · rw [if_neg ha]
        apply ih.congr
        rw [accepts_star_cons]
        exact ⟨fun hm' => Or.inr ⟨ha, hm'⟩, fun hm' => hm'.elim (fun h => absurd h hno) And.right⟩

theorem index_isSome : (index c s).isSome = true ↔ c ∈ s := by
  induction s with
  | nil => simp [index]
  | cons a s ih =>
    simp only [index, List.mem_cons]
    split
    · rename_i ha
      simp [ha]
    · rename_i ha
      rw [ih]
      simp [Ne.symm ha]

/-- A star at the end of the pattern. -/
theorem accepts_star_end : Accepts fl false [star] s ↔ (fl.pathname = true → slash ∉ s) := by
  induction s with
  | nil => simp [accepts_star_nil, accepts_nil]
  | cons a s ih =>
    rw [accepts_star_cons, accepts_nil, ih]
    simp only [reduceCtorEq, false_or, Free, List.mem_cons, not_or]
    constructor
    · rintro ⟨hf, hs⟩ hp
      exact ⟨fun ha => hf ⟨ha.symm, hp⟩, hs hp⟩
    · intro hs
      exact ⟨fun ha => (hs ha.2).1 ha.1.symm, fun hp => (hs hp).2⟩

/-- A star in front of a slash ends at the first slash. -/
theorem star_slash_decides (hp : fl.pathname = true)
    (h : ∀ t, Decides (again t) (Accepts fl false (slash :: p) t)) :
    Decides (match index slash s with
      | none => some 1
      | some t => again t) (Accepts fl false (star :: slash :: p) s) := by
  induction s with
  | nil =>
    apply decides_one
    rw [accepts_star_nil]
    exact not_accepts_nil (by decide)
  | cons a s ih =>
    by_cases ha : a = slash
    · have hf : ¬ Free fl a := fun hf => hf ⟨ha, hp⟩
      simp only [index, if_pos ha]
      apply (h (a :: s)).congr
      rw [accepts_star_cons]
      simp [hf]
    · have hf : Free fl a := fun h => ha h.1
      -- the slash of the pattern is not here, so that the star goes on
      have hno : ¬ Accepts fl false (slash :: p) (a :: s) := by
        rw [accepts_literal (by decide) (by decide) (by decide)
          fun h => absurd h.1 (by decide)]
        rintro ⟨t, ht, -⟩
        exact ha (List.cons.inj ht).1
      simp only [index, if_neg ha]
      apply ih.congr
      rw [accepts_star_cons]
      simp [hf, hno]

section Items

variable {n : ℕ}

theorem loop_question (ih : ∀ t, Decides (loop fl n p t) (Accepts fl false p t)) :
    Decides (loop fl (n + 1) (question :: p) s) (Accepts fl false (question :: p) s) := by
  rw [loop.eq_def]
  simp only [if_true]
  rcases s with _ | ⟨a, s⟩
  · exact decides_one (not_accepts_nil (by decide))
  · by_cases ha : a = slash ∧ fl.pathname = true
    · simp only [if_pos ha]
      apply decides_one
      rw [accepts_question]
      rintro ⟨b, t, hs, hb, -⟩
      cases hs
      exact hb ha
    · simp only [if_neg ha]
      apply (ih s).congr
      rw [accepts_question]
      constructor
      · intro hm
        exact ⟨a, s, rfl, ha, hm⟩
      · rintro ⟨b, t, hs, -, hm⟩
        cases hs
        exact hm

theorem loop_star (hn : p.length < n)
    (ih : ∀ q t, q.length < n → Decides (loop fl n q t) (Accepts fl false q t)) :
    Decides (loop fl (n + 1) (star :: p) s) (Accepts fl false (star :: p) s) := by
  have hl : (p.dropWhile (· = star)).length ≤ p.length := (List.dropWhile_sublist _).length_le
  have hc := accepts_collapse fl false p s
  rw [loop.eq_def]
  simp only [show star ≠ question by decide, if_false, if_true]
  cases hw : p.dropWhile (· = star) with
  | nil =>
    rw [hw, accepts_star_end] at hc
    cases hp : fl.pathname with
    | false => exact decides_zero (hc.1 (by simp [hp]))
    | true =>
      refine ⟨_, rfl, ?_⟩
      rw [← hc, ← index_isSome]
      simp [hp]
  | cons d q =>
    rw [hw] at hc hl
    -- behind the collapsed stars there is no star, so that the rest takes a character
    have hds : d ≠ star := by
      have := List.head_dropWhile_not (p := (· = star)) (l := p) (by simp [hw])
      simpa [hw] using this
    have ihq : ∀ t, Decides (loop fl n (d :: q) t) (Accepts fl false (d :: q) t) :=
      fun t => ih _ t (by omega)
    by_cases hd : d = slash ∧ fl.pathname = true
    · simp only [if_pos hd]
      rw [hd.1] at hc ihq ⊢
      exact (star_slash_decides hd.2 ihq).congr hc
    · simp only [if_neg hd]
      exact (starLoop_decides hds ihq).congr hc

theorem loop_list (hn : p.length < n)
    (ih : ∀ q t, q.length < n → Decides (loop fl n q t) (Accepts fl false q t)) :
    Decides (loop fl (n + 1) (lbrack :: p) s) (Accepts fl false (lbrack :: p) s) := by
  rw [loop.eq_def]
  simp only [show lbrack ≠ question by decide, show lbrack ≠ star by decide, if_false, if_true]
  rcases s with _ | ⟨a, s⟩
  · exact decides_one (not_accepts_nil (by decide))
  · by_cases ha : a = slash ∧ fl.pathname = true
    · simp only [if_pos ha]
      apply decides_one
      rw [accepts_list]
      rintro ⟨b, t, _, _, _, hs, hb, -⟩
      cases hs
      exact hb ha
    · simp only [if_neg ha]
      cases hr : rangematch p a with
      | none =>
        apply decides_one
        rw [accepts_list]
        rintro ⟨b, t, negate, ms, rest, hs, -, hb, hin, -⟩
        cases hs
        rw [rangematch_iff.2 ⟨negate, ms, hb, hin⟩] at hr
        cases hr
      | some rest =>
        -- the list that the code has gone over is the one of the meaning
        obtain ⟨negate, ms, hb, hin⟩ := rangematch_iff.1 hr
        have hl := bracket_length hb
        apply (ih rest s (by omega)).congr
        rw [accepts_list]
        constructor
        · intro hm
          exact ⟨a, s, negate, ms, rest, rfl, ha, hb, hin, hm⟩
        · rintro ⟨b, t, _, _, _, hs, -, hb', -, hm⟩
          cases hs
          rw [hb] at hb'
          cases hb'
          exact hm

theorem loop_other (h₁ : c ≠ question) (h₂ : c ≠ star) (h₃ : c ≠ lbrack) (hn : p.length < n)
    (ih : ∀ q t, q.length < n → Decides (loop fl n q t) (Accepts fl false q t)) :
    Decides (loop fl (n + 1) (c :: p) s) (Accepts fl false (c :: p) s) := by
  rw [loop.eq_def]
  simp only [if_neg h₁, if_neg h₂, if_neg h₃]
  by_cases h₄ : c = backslash ∧ fl.quote = true
  · simp only [if_pos h₄]
    rcases p with _ | ⟨d, q⟩
    · apply (literal_decides fun t => ih [] t hn).congr
      rw [accepts_literal h₁ h₂ h₃ (by simp), h₄.1]
    · rw [h₄.1]
      have hq : q.length < n := by
        simp only [List.length_cons] at hn
        omega
      apply (literal_decides fun t => ih q t hq).congr
      rw [accepts_quoted h₄.2]
  · simp only [if_neg h₄]
    apply (literal_decides fun t => ih p t hn).congr
    rw [accepts_literal h₁ h₂ h₃ fun h => h₄ ⟨h.1, h.2.1⟩]

end Items

/-- As many turns as the pattern has characters are enough, and what comes back is the meaning. -/
theorem loop_decides (n : ℕ) (hn : p.length < n) :
    Decides (loop fl n p s) (Accepts fl false p s) := by
  induction n generalizing p s with
  | zero => omega
  | succ n ih =>
    rcases p with _ | ⟨c, p⟩
    · rw [loop_nil]
      refine ⟨_, rfl, ?_⟩
      rw [accepts_nil]
      split
      · rename_i h
        simp [h]
      · rename_i h
        simp [h]
    · have hp : p.length < n := by
        simp only [List.length_cons] at hn
        omega
      by_cases h₁ : c = question
      · rw [h₁]
        exact loop_question fun t => ih hp
      · by_cases h₂ : c = star
        · rw [h₂]
          exact loop_star hp fun q t hq => ih hq
        · by_cases h₃ : c = lbrack
          · rw [h₃]
            exact loop_list hp fun q t hq => ih hq
          · exact loop_other h₁ h₂ h₃ hp fun q t hq => ih hq

/-- The function decides the meaning in which the first `]` ends a list. -/
theorem fnmatch_code (fl : Flags) (p s : List (BitVec 8)) :
    Decides (fnmatch fl p s) (Accepts fl false p s) :=
  loop_decides _ (by omega)

end Functions

/-! ### Lists that begin with `]` -/

section Lists

variable {fl : Flags} {p s : List (BitVec 8)}

/-- Here a list that begins with `]` has a character to take. -/
def AtList (fl : Flags) (x : List (BitVec 8) × List (BitVec 8)) : Prop :=
  ∃ q a t, x = (lbrack :: q, a :: t) ∧ Free fl a ∧ Leading brackets q

/-- In the comparison, a list that begins with `]` comes to have a character to take. -/
def Comes (fl : Flags) (p s : List (BitVec 8)) : Prop :=
  ∃ y, Relation.ReflTransGen (Takes fl false) (p, s) y ∧ AtList fl y

theorem takes_first {x y : List (BitVec 8) × List (BitVec 8)} (h : ¬ AtList fl x) :
    Takes fl false x y ↔ Takes fl true x y := by
  obtain ⟨_ | ⟨c, p⟩, s⟩ := x
  · rfl
  · simp only [Takes]
    by_cases hc : c = lbrack
    · by_cases hl : Leading brackets p
      · -- the list has no character that it may take
        have hno : ∀ a t, s = a :: t → ¬ Free fl a :=
          fun a t hs ha => h ⟨p, a, t, by rw [hc, hs], ha, hl⟩
        rw [hc]
        simp only [show lbrack ≠ question by decide, show lbrack ≠ star by decide, if_false,
          if_true]
        constructor
        · rintro ⟨_, _, a, -, ha, -, hs⟩
          exact absurd ha (hno a _ hs)
        · rintro ⟨_, _, a, -, ha, -, hs⟩
          exact absurd ha (hno a _ hs)
      · rw [bracket_first hl]
    · simp only [if_neg hc]

/-- Where no list that begins with `]` comes to have a character to take, a pattern is compared as
the shell does: the result is zero exactly when the name matches. -/
theorem fnmatch_iff (fl : Flags) (p s : List (BitVec 8)) (h : ¬ Comes fl p s) :
    ∃ r, fnmatch fl p s = some r ∧ (r = 0 ↔ Accepts fl true p s) := by
  apply (fnmatch_code fl p s).congr
  exact matches_congr (fun y hy hd => h ⟨y, hy, hd⟩) fun y z hy => takes_first hy

end Lists

section Examples

/-- A name of one character against a list of two members. -/
theorem fnmatch_iff_list :
    ∃ r, fnmatch ⟨true, true⟩ [lbrack, bang, 0x61, 0x62, rbrack] [0x63] = some r ∧
      (r = 0 ↔ Accepts ⟨true, true⟩ true [lbrack, bang, 0x61, 0x62, rbrack] [0x63]) := by
  apply fnmatch_iff
  rintro ⟨y, hy, q, a, t, rfl, -, hl⟩
  rcases Relation.ReflTransGen.cases_head hy with he | ⟨⟨p', s'⟩, ht, hy⟩
  · cases he
    exact absurd hl (by simp [Leading, brackets, bang, rbrack])
  · -- behind the list there is nothing left of the pattern
    simp only [Takes, show lbrack ≠ question by decide, show lbrack ≠ star by decide, if_false,
      if_true] at ht
    obtain ⟨_, _, _, hb, -⟩ := ht
    have hb' : bracket brackets false [bang, 0x61, 0x62, rbrack] =
        some (true, [.single 0x61, .single 0x62], []) := by decide
    rw [hb'] at hb
    cases hb
    rcases Relation.ReflTransGen.cases_head hy with he | ⟨z, ht, -⟩
    · cases he
    · exact ht

/-- The name `]` is not found to match the pattern `[]]`. -/
theorem fnmatch_leading :
    fnmatch ⟨false, false⟩ [lbrack, rbrack, rbrack] [rbrack] = some 1 ∧
      Accepts ⟨false, false⟩ true [lbrack, rbrack, rbrack] [rbrack] := by
  refine ⟨by decide, ?_⟩
  rw [accepts_list]
  exact ⟨rbrack, [], false, [.single rbrack], [], rfl, by simp [Free], by decide, by decide,
    accepts_nil.2 rfl⟩

end Examples

end Fnmatch
