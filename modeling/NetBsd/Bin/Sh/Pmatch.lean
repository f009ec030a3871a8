import Mathlib
import NetBsd.Lib.Fault
import NetBsd.Lib.Wildcard

/-!
# Matching in the shell

`pmatch` of `expand.c` compares a string to a pattern in which each quoted character has a `CTLESC`
before it. A bracket list is gone over twice: for its end, and for the character. The second time it
takes the next character of the string without a look whether that is the NUL.

## Main definitions

* `pmatch`: the function, over the bytes up to the terminators
* `Tok`, `encode`: a pattern as characters with their quoting, and its bytes
* `Takes`, `Accepts`: what an item takes, and the strings that a pattern stands for
* `Overrun`: a list that takes NUL comes to be tried at the end of the string

## Main results

* `accepts_of_overrun`: a string that is overrun matches when its end does
* `pmatch_iff`: the function reads no further and decides the meaning, unless a string that does not
  match is overrun
-/

namespace Pmatch

open Wildcard

abbrev Byte := BitVec 8

def CTLESC : Byte := 0x81
def question : Byte := 0x3F
def star : Byte := 0x2A
def lbrack : Byte := 0x5B
def rbrack : Byte := 0x5D
def bang : Byte := 0x21
def dash : Byte := 0x2D

/-! ### The function

A pointer is the list of the bytes from it up to the terminator, which ends with the NUL. -/

/-- `*p`. -/
def deref : List Byte → Except Fault Byte
  | [] => .error .deref
  | c :: _ => .ok c

/-- `*p++`. -/
def next : List Byte → Except Fault (Byte × List Byte)
  | [] => .error .deref
  | c :: p => .ok (c, p)

/-- The loop that looks for the end of a list. -/
def closed : List Byte → Except Fault Bool
  | [] => .error .deref
  | c :: endp =>
    if c = 0 then .ok false
    else if c = CTLESC then
      match endp with
      | _ :: d :: rest => if d = rbrack then .ok true else closed (d :: rest)
      | _ => .error .deref
    else
      match endp with
      | d :: rest => if d = rbrack then .ok true else closed (d :: rest)
      | [] => .error .deref

/-- `if (c == CTLESC) c = *p++`. -/
def unescape (c : Byte) (p : List Byte) : Except Fault (Byte × List Byte) :=
  if c = CTLESC then next p else .ok (c, p)

/-- `*p == '-' && p[1] != ']'`. -/
def isRange (p : List Byte) : Except Fault Bool := do
  let d ← deref p
  if d = dash then
    let e ← deref p.tail
    return decide (e ≠ rbrack)
  else return false

/-- The end of a range, with the pointer behind it. -/
def rangeEnd (p : List Byte) : Except Fault (Byte × List Byte) := do
  let (d, p) ← next p
  unescape d p

/-- One turn of the loop over the members. -/
def member (chr c : Byte) (found : Bool) (p : List Byte) : Except Fault (Bool × List Byte) := do
  let (c, p) ← unescape c p
  let r ← isRange p
  if r then
    let (d, p) ← rangeEnd p.tail
    return (found || (c.sle chr && chr.sle d), p)
  else return (found || decide (chr = c), p)

/-- The loop over the members. -/
def members (chr : Byte) : ℕ → Byte → Bool → List Byte → Except Fault (Bool × List Byte)
  | 0, _, _, _ => .error .loop
  | n + 1, c, found, p => do
    let (found, p) ← member chr c found p
    let (c, p) ← next p
    if c = rbrack then return (found, p) else members chr n c found p

/-- `while (*q != c) { if (*q == '\0') return 0; q++; }`. -/
def skipTo (c : Byte) : List Byte → Except Fault (Option (List Byte))
  | [] => .error .deref
  | a :: q => if a = c then .ok (some (a :: q)) else if a = 0 then .ok none else skipTo c q

/-- `do { if (pmatch(p, q)) return 1; } while (*q++ != '\0'); return 0`. -/
def starLoop (again : List Byte → Except Fault ℕ) : List Byte → Except Fault ℕ
  | [] => do
    let r ← again []
    if r ≠ 0 then return 1 else .error .deref
  | a :: q => do
    let r ← again (a :: q)
    if r ≠ 0 then return 1 else if a ≠ 0 then starLoop again q else return 0

/-- `if (*q++ != c) return 0`. -/
def literal (c : Byte) (q : List Byte) (again : List Byte → Except Fault ℕ) : Except Fault ℕ := do
  let (d, q) ← next q
  if d ≠ c then return 0 else again q

/-- A list whose end has been found, at `p` behind a `!` if there is one. -/
def list (invert : Bool) (p q : List Byte) (again : List Byte → List Byte → Except Fault ℕ) :
    Except Fault ℕ := do
  let (chr, q) ← next q
  let (c, p) ← next p
  let (found, p) ← members chr (p.length + 1) c false p
  if found = invert then return 0 else again p q

def pmatch : ℕ → List Byte → List Byte → Except Fault ℕ
  | 0, _, _ => .error .loop
  | n + 1, p, q => do
    let (c, p) ← next p
    if c = 0 then
      let d ← deref q
      return if d ≠ 0 then 0 else 1
    else if c = CTLESC then
      let (d, q) ← next q
      let (e, p) ← next p
      if d ≠ e then return 0 else pmatch n p q
    else if c = question then
      let (d, q) ← next q
      if d = 0 then return 0 else pmatch n p q
    else if c = star then
      let c ← deref p
      if c ≠ CTLESC ∧ c ≠ question ∧ c ≠ star ∧ c ≠ lbrack then
        let r ← skipTo c q
        match r with
        | none => return 0
        | some q => starLoop (pmatch n p) q
      else starLoop (pmatch n p) q
    else if c = lbrack then
      let d ← deref p
      let b ← closed (if d = bang then p.tail else p)
      if b then list (decide (d = bang)) (if d = bang then p.tail else p) q (pmatch n)
      else literal c q (pmatch n p)
    else literal c q (pmatch n p)

theorem pmatch_end {n : ℕ} {a : Byte} {p q : List Byte} (ha : a ≠ 0) :
    pmatch (n + 1) (0 :: p) (a :: q) = .ok 0 := by
  rw [pmatch.eq_def]
  simp only [next, deref, bind, Except.bind, pure, Except.pure, if_true, if_pos ha]

/-! ### The meaning of a pattern -/

/-- A character of a pattern. -/
structure Tok where
  ch : Byte
  quoted : Bool
  deriving DecidableEq

/-- Neither a NUL nor a `CTLESC` that quotes nothing. -/
def Tok.Ok (t : Tok) : Prop := t.ch ≠ 0 ∧ (t.quoted = false → t.ch ≠ CTLESC)

def encode : List Tok → List Byte
  | [] => [0]
  | t :: p => if t.quoted then CTLESC :: t.ch :: encode p else t.ch :: encode p

theorem encode_plain {t : Tok} {p : List Tok} (hq : t.quoted = false) :
    encode (t :: p) = t.ch :: encode p := by
  simp [encode, hq]

def brackets : Brackets Tok Byte where
  bang t := t = ⟨bang, false⟩
  dash t := t = ⟨dash, false⟩
  close t := t = ⟨rbrack, false⟩
  val := Tok.ch
  le a b := a.sle b

/-- What an item other than a star takes one of, and the rest of the pattern. -/
def item (t : Tok) (p : List Tok) : Option ((Byte → Bool) × List Tok) :=
  if t.quoted then some (fun a => a = t.ch, p)
  else if t.ch = question then some (fun _ => true, p)
  else if t.ch = star then none
  else if t.ch = lbrack then
    match bracket brackets true p with
    | some (negate, ms, rest) => some (brackets.accepts negate ms, rest)
    | none => some (fun a => a = lbrack, p)
  else some (fun a => a = t.ch, p)

/-- The first item of a pattern takes a front part of the string. -/
def Takes (x y : List Tok × List Byte) : Prop :=
  match x.1 with
  | [] => False
  | t :: p =>
    match item t p with
    | none => y.1 = p ∧ ∃ u, x.2 = u ++ y.2
    | some (ok, rest) => y.1 = rest ∧ ∃ a, ok a = true ∧ x.2 = a :: y.2

def Accepts (p : List Tok) (s : List Byte) : Prop := Matches Takes ([], []) (p, s)

/-- A list that takes NUL, at the end of the string. -/
def AtEnd (x : List Tok × List Byte) : Prop :=
  ∃ p ok rest, x = (⟨lbrack, false⟩ :: p, []) ∧ item ⟨lbrack, false⟩ p = some (ok, rest) ∧
    ok 0 = true

def Overrun (p : List Tok) (s : List Byte) : Prop :=
  ∃ y, Relation.ReflTransGen Takes (p, s) y ∧ AtEnd y

section Meaning

variable {t : Tok} {p rest : List Tok} {s s' : List Byte} {ok : Byte → Bool} {a : Byte}

theorem accepts_nil : Accepts [] s ↔ s = [] := by
  unfold Accepts
  rw [matches_iff]
  simp [Takes]

theorem accepts_cons : Accepts (t :: p) s ↔
    ∃ p' s', Takes (t :: p, s) (p', s') ∧ Accepts p' s' := by
  unfold Accepts
  rw [matches_iff]
  simp

theorem overrun_iff : Overrun p s ↔
    AtEnd (p, s) ∨ ∃ p' s', Takes (p, s) (p', s') ∧ Overrun p' s' := by
  unfold Overrun
  constructor
  · rintro ⟨y, hy, he⟩
    rcases Relation.ReflTransGen.cases_head hy with rfl | ⟨⟨p', s'⟩, ht, hy⟩
    · exact Or.inl he
    · exact Or.inr ⟨p', s', ht, y, hy, he⟩
  · rintro (he | ⟨p', s', ht, y, hy, he⟩)
    · exact ⟨_, Relation.ReflTransGen.refl, he⟩
    · exact ⟨y, Relation.ReflTransGen.head ht hy, he⟩

theorem not_overrun_nil : ¬ Overrun [] s := by
  rw [overrun_iff]
  rintro (⟨p, _, _, he, -⟩ | ⟨_, _, ht, -⟩)
  · cases he
  · exact ht

theorem accepts_one (hi : item t p = some (ok, rest)) : Accepts (t :: p) s ↔
    ∃ a s', s = a :: s' ∧ ok a = true ∧ Accepts rest s' := by
  rw [accepts_cons]
  simp only [Takes, hi]
  constructor
  · rintro ⟨_, s', ⟨rfl, a, ha, hs⟩, hm⟩
    exact ⟨a, s', hs, ha, hm⟩
  · rintro ⟨a, s', hs, ha, hm⟩
    exact ⟨rest, s', ⟨rfl, a, ha, hs⟩, hm⟩

theorem overrun_one (hi : item t p = some (ok, rest)) : Overrun (t :: p) s ↔
    s = [] ∧ t = ⟨lbrack, false⟩ ∧ ok 0 = true ∨
    ∃ a s', s = a :: s' ∧ ok a = true ∧ Overrun rest s' := by
  rw [overrun_iff]
  simp only [Takes, hi]
  constructor
  · rintro (⟨q, ok', r, he, hi', h0⟩ | ⟨_, s', ⟨rfl, a, ha, hs⟩, hm⟩)
    · cases he
      rw [hi] at hi'
      cases hi'
      exact Or.inl ⟨rfl, rfl, h0⟩
    · exact Or.inr ⟨a, s', hs, ha, hm⟩
  · rintro (⟨hs, ht, h0⟩ | ⟨a, s', hs, ha, hm⟩)
    · subst hs ht
      exact Or.inl ⟨p, ok, rest, rfl, hi, h0⟩
    · exact Or.inr ⟨rest, s', ⟨rfl, a, ha, hs⟩, hm⟩

theorem accepts_star (hi : item t p = none) : Accepts (t :: p) s ↔
    ∃ u s', s = u ++ s' ∧ Accepts p s' := by
  rw [accepts_cons]
  simp only [Takes, hi]
  constructor
  · rintro ⟨_, s', ⟨rfl, u, hs⟩, hm⟩
    exact ⟨u, s', hs, hm⟩
  · rintro ⟨u, s', hs, hm⟩
    exact ⟨p, s', ⟨rfl, u, hs⟩, hm⟩

theorem item_none (hi : item t p = none) : t = ⟨star, false⟩ := by
  obtain ⟨ch, quoted⟩ := t
  simp only [item] at hi
  split_ifs at hi with hq h₁ h₂ h₃
  · rw [show ch = star from h₂, Bool.eq_false_iff.2 hq]
  · split at hi
    · cases hi
    · cases hi

theorem overrun_star (hi : item t p = none) : Overrun (t :: p) s ↔
    ∃ u s', s = u ++ s' ∧ Overrun p s' := by
  rw [overrun_iff]
  simp only [Takes, hi]
  constructor
  · rintro (⟨q, _, _, he, -⟩ | ⟨_, s', ⟨rfl, u, hs⟩, hm⟩)
    · cases he
      exact absurd (item_none hi) (by decide)
    · exact ⟨u, s', hs, hm⟩
  · rintro ⟨u, s', hs, hm⟩
    exact Or.inr ⟨p, s', ⟨rfl, u, hs⟩, hm⟩

theorem item_length (hi : item t p = some (ok, rest)) : rest.length ≤ p.length := by
  simp only [item] at hi
  split_ifs at hi with hq h₁ h₂ h₃
  · cases hi
    exact le_rfl
  · cases hi
    exact le_rfl
  · split at hi
    · rename_i hb
      cases hi
      exact (bracket_length hb).le
    · cases hi
      exact le_rfl
  · cases hi
    exact le_rfl

/-- A string that is overrun matches when an end of it does: all of it is taken by the items in
front of the list, and the items that take the end may start further to the left. -/
theorem accepts_of_overrun (n : ℕ) (hn : p.length ≤ n) (ho : Overrun p s) (hs : s' <:+ s)
    (ha : Accepts p s') : Accepts p s := by
  induction n generalizing p s s' with
  | zero =>
    rw [List.length_eq_zero_iff.1 (Nat.le_zero.1 hn)] at ho
    exact absurd ho not_overrun_nil
  | succ n ih =>
    rcases p with _ | ⟨t, p⟩
    · exact absurd ho not_overrun_nil
    · cases hi : item t p with
      | none =>
        rw [accepts_star hi] at ha ⊢
        obtain ⟨u, v, hv, hm⟩ := ha
        obtain ⟨w, hw⟩ := hs
        exact ⟨w ++ u, v, by rw [← hw, hv, List.append_assoc], hm⟩
      | some r =>
        obtain ⟨ok, rest⟩ := r
        have hl := item_length hi
        rw [accepts_one hi] at ha ⊢
        obtain ⟨b, v, rfl, hb, hm⟩ := ha
        rcases (overrun_one hi).1 ho with ⟨rfl, -⟩ | ⟨a, s₁, rfl, hok, ho⟩
        · cases List.suffix_nil.1 hs
        · -- the rest of the end is an end of the rest
          have hv : v <:+ s₁ := by
            rcases List.suffix_cons_iff.1 hs with he | hs
            · cases he
              exact List.suffix_rfl
            · exact (List.suffix_cons b v).trans hs
          have hp : rest.length ≤ n := by
            simp only [List.length_cons] at hn
            omega
          exact ⟨a, s₁, rfl, hok, ih hp ho hv hm⟩

end Meaning

/-! ### Reading the pattern -/

section Reading

variable {t : Tok} {p rest : List Tok} {ms : List (Member Tok)} {c chr : Byte} {found : Bool}
  {r : List Byte}

theorem encode_eq (p : List Tok) : ∃ c r, encode p = c :: r := by
  rcases p with _ | ⟨t, p⟩
  · exact ⟨0, [], rfl⟩
  · simp only [encode]
    split
    · exact ⟨_, _, rfl⟩
    · exact ⟨_, _, rfl⟩

theorem length_encode : p.length < (encode p).length := by
  induction p with
  | nil => simp [encode]
  | cons t p ih =>
    simp only [encode, List.length_cons]
    split
    · simp only [List.length_cons]
      omega
    · simp only [List.length_cons]
      omega

/-- A byte other than `CTLESC` is the first of a pattern when it is the first character, and is not
quoted. -/
theorem first_iff (hc : c ≠ 0) (hc' : c ≠ CTLESC) {d : Byte} (he : encode p = d :: r) :
    d = c ↔ ∃ q, p = ⟨c, false⟩ :: q ∧ r = encode q := by
  rcases p with _ | ⟨⟨ch, quoted⟩, p⟩
  · simp only [encode, List.cons.injEq] at he
    constructor
    · intro hd
      exact absurd (he.1.trans hd).symm hc
    · rintro ⟨q, hq, -⟩
      cases hq
  · cases quoted with
    | true =>
      simp only [encode, if_true, List.cons.injEq] at he
      simp [← he.1, Ne.symm hc']
    | false =>
      simp only [encode, Bool.false_eq_true, if_false, List.cons.injEq] at he
      constructor
      · intro hd
        exact ⟨p, by rw [he.1, hd], he.2.symm⟩
      · rintro ⟨q, hq, -⟩
        cases hq
        exact he.1.symm

theorem first_cons (hc : c ≠ 0) (hc' : c ≠ CTLESC) {d : Byte} (he : encode (t :: p) = d :: r) :
    d = c ↔ t = ⟨c, false⟩ := by
  rw [first_iff hc hc' he]
  constructor
  · rintro ⟨q, hq, -⟩
    exact (List.cons.inj hq).1
  · rintro rfl
    simp only [encode, Bool.false_eq_true, if_false, List.cons.injEq] at he
    exact ⟨p, rfl, he.2.symm⟩

/-- The byte at which a list ends, and the token. -/
theorem first_close {d : Byte} (he : encode (t :: p) = d :: r) :
    d = rbrack ↔ brackets.close t = true := by
  rw [first_cons (by decide) (by decide) he]
  simp [brackets]

theorem not_close {d : Byte} (he : encode (t :: p) = d :: r) (hd : d ≠ rbrack) :
    brackets.close t = false :=
  Bool.eq_false_iff.2 fun h => hd ((first_close he).2 h)

/-- The first byte of a pattern, and the character that it belongs to. -/
theorem unescape_eq (ht : t.Ok) (he : encode (t :: p) = c :: r) :
    unescape c r = .ok (t.ch, encode p) := by
  simp only [encode] at he
  split at he
  · cases he
    rfl
  · rename_i hq
    cases he
    rw [unescape, if_neg (ht.2 (by simpa using hq))]

theorem dash_not_close (d : Tok) (h : brackets.dash d = true) : brackets.close d = false := by
  have hd : d = ⟨dash, false⟩ := by simpa [brackets] using h
  rw [hd]
  decide

/-- A turn of the loop over the members, when the list has an end behind it. -/
theorem member_eq (hp : ∀ u ∈ t :: p, u.Ok) (he : encode (t :: p) = c :: r)
    (hs : (element brackets t p).2.any brackets.close = true) : member chr c found r =
      .ok (found || (element brackets t p).1.has brackets chr,
        encode (element brackets t p).2) := by
  have hu := unescape_eq (hp t (by simp)) he
  obtain ⟨d, r', hd⟩ := encode_eq p
  simp only [member, hu, isRange, hd, deref, bind, Except.bind, pure, Except.pure]
  have hiff := first_iff (c := dash) (by decide) (by decide) hd
  by_cases hdash : d = dash
  · obtain ⟨q, rfl, rfl⟩ := hiff.1 hdash
    rcases q with _ | ⟨e, q⟩
    · -- a dash with nothing behind it is in no list
      rw [show (element brackets t [⟨dash, false⟩]).2 = [⟨dash, false⟩] from rfl] at hs
      exact absurd hs (by decide)
    · obtain ⟨d', r'', hd'⟩ := encode_eq (e :: q)
      have hclose := first_close hd'
      have hdt : brackets.dash ⟨dash, false⟩ = true := by decide
      simp only [hdash, if_true, List.tail_cons, hd', element, hdt, Bool.true_and]
      cases hcl : brackets.close e with
      | true =>
        have hdd : encode (⟨dash, false⟩ :: e :: q) = dash :: rbrack :: r'' := by
          rw [← hclose.2 hcl, ← hd']
          rfl
        simp only [hclose.2 hcl, ne_eq, not_true_eq_false, decide_false, Bool.false_eq_true,
          if_false, Bool.not_true]
        rw [hdd]
        simp [Member.has, brackets, eq_comm]
      | false =>
        have hne : d' ≠ rbrack := fun h => by
          rw [hclose.1 h] at hcl
          cases hcl
        have hend := unescape_eq (hp e (by simp)) hd'
        simp only [ne_eq, hne, not_false_eq_true, decide_true, if_true, Bool.not_false, rangeEnd,
          next, bind, Except.bind, hend]
        simp [Member.has, brackets]
  · have hel : element brackets t p = (.single t, p) := by
      rcases p with _ | ⟨d', _ | ⟨e, q⟩⟩
      · rfl
      · rfl
      · have hnd : brackets.dash d' = false := by
          simp only [brackets, decide_eq_false_iff_not]
          exact fun hd' => hdash ((first_cons (by decide) (by decide) hd).2 hd')
        simp [element, hnd]
    simp only [hdash, if_false, Bool.false_eq_true, hel]
    rw [← hd]
    simp [Member.has, brackets, eq_comm]

/-- The loop over the members goes on to the end of the list. -/
theorem members_eq (n : ℕ) (hn : p.length ≤ n) (hp : ∀ u ∈ t :: p, u.Ok)
    (he : encode (t :: p) = c :: r) (hs : scan brackets true (t :: p) = some (ms, rest)) :
    members chr (n + 1) c found r = .ok (found || brackets.has ms chr, encode rest) := by
  induction n generalizing t p ms c r found with
  | zero =>
    rw [List.length_eq_zero_iff.1 (Nat.le_zero.1 hn), scan_true] at hs
    cases hs
  | succ n ih =>
    rw [scan_true] at hs
    obtain ⟨⟨ms', rest'⟩, hs', hms⟩ := Option.map_eq_some_iff.1 hs
    cases hms
    have hl := element_length brackets t p
    have hany : (element brackets t p).2.any brackets.close = true := by
      rw [← scan_isSome dash_not_close _ le_rfl, hs']
      rfl
    rw [members, member_eq hp he hany]
    have hmem := element_mem brackets t p
    rcases hp₁ : (element brackets t p).2 with _ | ⟨u, p₁⟩
    · rw [hp₁] at hany
      cases hany
    · rw [hp₁] at hs' hl hmem
      obtain ⟨c', r', hc'⟩ := encode_eq (u :: p₁)
      simp only [bind, Except.bind, hc', next, pure, Except.pure]
      have hiff := first_iff (c := rbrack) (by decide) (by decide) hc'
      by_cases hr : c' = rbrack
      · -- the closing token comes after this member
        obtain ⟨q, hq, hrq⟩ := hiff.1 hr
        cases hq
        rw [scan_close (by decide)] at hs'
        cases hs'
        rw [if_pos hr, hrq]
        simp [Brackets.has]
      · rw [← scan_first (not_close hc' hr)] at hs'
        have hok : ∀ v ∈ u :: p₁, v.Ok := fun v hv => hp v (by simp [hmem v hv])
        rw [if_neg hr, ih (by simp only [List.length_cons] at hl; omega) hok hc' hs']
        simp [Brackets.has, Bool.or_assoc]

/-- The loop for the end of a list finds one when there is one. -/
theorem closed_eq (hp : ∀ u ∈ p, u.Ok) :
    closed (encode p) = .ok (p.tail.any brackets.close) := by
  induction p with
  | nil => rfl
  | cons t p ih =>
    have ht := hp t (by simp)
    obtain ⟨d, r, hd⟩ := encode_eq p
    have hrest : (if d = rbrack then Except.ok true else closed (d :: r)) =
        (.ok (p.any brackets.close) : Except Fault Bool) := by
      have hiff := first_iff (c := rbrack) (by decide) (by decide) hd
      by_cases hr : d = rbrack
      · obtain ⟨q, rfl, -⟩ := hiff.1 hr
        rw [if_pos hr, List.any_cons, show brackets.close ⟨rbrack, false⟩ = true by decide,
          Bool.true_or]
      · rw [if_neg hr, ← hd, ih fun u hu => hp u (by simp [hu])]
        rcases p with _ | ⟨u, p⟩
        · rfl
        · rw [List.tail_cons, List.any_cons, not_close hd hr, Bool.false_or]
    cases hq : t.quoted with
    | true =>
      simp only [encode, hq, if_true, hd]
      rw [closed, if_neg (by decide), if_pos rfl]
      exact hrest
    | false =>
      simp only [encode, hq, Bool.false_eq_true, if_false, hd]
      rw [closed.eq_def]
      simp only [if_neg ht.1, if_neg (ht.2 hq)]
      exact hrest

end Reading

/-! ### One item -/

section Items

variable {t : Tok} {p rest : List Tok} {ok : Byte → Bool} {a : Byte} {n : ℕ}
  {q : List Byte}

/-- The list behind an optional `!`. -/
theorem bracket_bang {d : Byte} {r : List Byte} (he : encode p = d :: r) (hb : d = bang) :
    ∃ p₁, r = encode p₁ ∧ (∀ u ∈ p₁, u ∈ p) ∧
      bracket brackets true p = (scan brackets true p₁).map fun x => (true, x) := by
  obtain ⟨p₁, rfl, hr⟩ := (first_iff (c := bang) (by decide) (by decide) he).1 hb
  refine ⟨p₁, hr, fun u hu => List.mem_cons_of_mem _ hu, ?_⟩
  rw [bracket, if_pos (by decide)]

theorem bracket_plain {d : Byte} {r : List Byte} (he : encode p = d :: r) (hb : d ≠ bang) :
    bracket brackets true p = (scan brackets true p).map fun x => (false, x) := by
  rcases p with _ | ⟨t, p⟩
  · rfl
  · rw [bracket, if_neg]
    simp only [brackets, decide_eq_true_eq]
    exact fun ht => hb ((first_cons (by decide) (by decide) he).2 ht)

/-- A list takes a character, whatever it is, and then the members are gone over. -/
theorem list_eq {ms : List (Member Tok)} {invert : Bool}
    {again : List Byte → List Byte → Except Fault ℕ} (hp : ∀ u ∈ p, u.Ok)
    (hs : scan brackets true p = some (ms, rest)) : list invert (encode p) (a :: q) again =
      if brackets.accepts invert ms a = true then again (encode rest) q else .ok 0 := by
  rcases p with _ | ⟨t, p⟩
  · rw [scan_nil] at hs
    cases hs
  · obtain ⟨c, r, hr⟩ := encode_eq (t :: p)
    have hl : p.length ≤ r.length := by
      have h := length_encode (p := t :: p)
      rw [hr] at h
      simp only [List.length_cons] at h
      omega
    have hacc : brackets.accepts invert ms a = true ↔ brackets.has ms a ≠ invert := by
      simp [Brackets.accepts]
    simp only [list, next, hr, bind, Except.bind, members_eq _ hl hp hr hs, Bool.false_or, pure,
      Except.pure]
    by_cases hf : brackets.has ms a = invert
    · rw [if_pos hf, if_neg fun h => hacc.1 h hf]
    · rw [if_neg hf, if_pos (hacc.2 hf)]

theorem list_past {invert : Bool} {r : List Byte}
    {again : List Byte → List Byte → Except Fault ℕ} : list invert r [] again = .error .deref :=
  rfl

/-- A closed list, or a `[` that stands for itself. -/
theorem pmatch_bracket (hp : ∀ u ∈ p, u.Ok) : pmatch (n + 1) (lbrack :: encode p) (a :: q) =
    match bracket brackets true p with
    | some (negate, ms, rest) =>
      if brackets.accepts negate ms a = true then pmatch n (encode rest) q else .ok 0
    | none => if a = lbrack then pmatch n (encode p) q else .ok 0 := by
  obtain ⟨d, r, hd⟩ := encode_eq p
  have hscan : ∀ p₁ : List Tok, (scan brackets true p₁).isSome = p₁.tail.any brackets.close := by
    intro p₁
    rcases p₁ with _ | ⟨t, p₁⟩
    · rw [scan_nil]
      rfl
    · rw [scan_true, Option.isSome_map, scan_isSome dash_not_close _ le_rfl,
        element_any dash_not_close]
      rfl
  -- what is read of the list, with its end or without
  have hread : ∀ invert, ∀ p₁ : List Tok, (∀ u ∈ p₁, u.Ok) →
      (do
        let b ← closed (encode p₁)
        if b then list invert (encode p₁) (a :: q) (pmatch n)
        else literal lbrack (a :: q) (pmatch n (encode p))) =
      match (scan brackets true p₁).map fun x => (invert, x) with
      | some (negate, ms, rest) =>
        if brackets.accepts negate ms a = true then pmatch n (encode rest) q else .ok 0
      | none => if a = lbrack then pmatch n (encode p) q else .ok 0 := by
    intro invert p₁ hp₁
    rw [closed_eq hp₁, ← hscan]
    cases hs : scan brackets true p₁ with
    | none =>
      simp only [bind, Except.bind, Option.isSome_none, Bool.false_eq_true, if_false, literal, next,
        Option.map_none]
      by_cases ha : a = lbrack
      · simp [ha]
      · simp [ha, pure, Except.pure]
    | some x =>
      simp only [bind, Except.bind, Option.isSome_some, if_true, Option.map_some]
      rw [list_eq hp₁ hs]
  rw [pmatch.eq_def]
  simp only [next, bind, Except.bind, show lbrack ≠ 0 by decide, show lbrack ≠ CTLESC by decide,
    show lbrack ≠ question by decide, show lbrack ≠ star by decide, if_false, if_true]
  rw [show deref (encode p) = .ok d by rw [hd]; rfl]
  by_cases hb : d = bang
  · obtain ⟨p₁, hr, hmem, he⟩ := bracket_bang hd hb
    have h := hread true p₁ fun u hu => hp u (hmem u hu)
    simp only [hb, if_true, decide_true]
    rw [he, ← h, hd, List.tail_cons, hr]
    rfl
  · have h := hread false p hp
    simp only [hb, if_false, decide_false]
    rw [bracket_plain hd hb, ← h]
    rfl

/-- A character that the item must be equal to is not the NUL. -/
theorem taken_iff {c : Byte} (hc : c ≠ 0) :
    (decide (a = c) = true ∧ (a = 0 → t = ⟨lbrack, false⟩)) ↔ a = c := by
  rw [decide_eq_true_eq]
  exact ⟨And.left, fun h => ⟨h, fun ha => absurd (h ▸ ha) hc⟩⟩

theorem pmatch_quoted (hq : t.quoted = true) : pmatch (n + 1) (encode (t :: p)) (a :: q) =
    if a = t.ch then pmatch n (encode p) q else .ok 0 := by
  simp only [encode, hq, if_true]
  rw [pmatch.eq_def]
  simp only [next, bind, Except.bind, show CTLESC ≠ 0 by decide, if_false, if_true, pure,
    Except.pure]
  by_cases ha : a = t.ch
  · simp [ha]
  · simp [ha]

theorem pmatch_question : pmatch (n + 1) (question :: encode p) (a :: q) =
    if a = 0 then .ok 0 else pmatch n (encode p) q := by
  rw [pmatch.eq_def]
  simp only [next, bind, Except.bind, show question ≠ 0 by decide,
    show question ≠ CTLESC by decide, if_false, if_true, pure, Except.pure]

/-- A character with no meaning of its own. -/
theorem pmatch_literal (ht : t.Ok) (hq : t.quoted = false) (h₁ : t.ch ≠ question)
    (h₂ : t.ch ≠ star) (h₃ : t.ch ≠ lbrack) : pmatch (n + 1) (t.ch :: encode p) (a :: q) =
      if a = t.ch then pmatch n (encode p) q else .ok 0 := by
  rw [pmatch.eq_def]
  simp only [next, bind, Except.bind, if_neg ht.1, if_neg (ht.2 hq), if_neg h₁, if_neg h₂,
    if_neg h₃, literal, pure, Except.pure]
  by_cases ha : a = t.ch
  · simp [ha]
  · simp [ha]

/-- An item other than a star takes one character, but only a list can take the NUL. -/
theorem pmatch_one (hp : ∀ u ∈ t :: p, u.Ok) (hi : item t p = some (ok, rest)) :
    pmatch (n + 1) (encode (t :: p)) (a :: q) =
      if ok a = true ∧ (a = 0 → t = ⟨lbrack, false⟩) then pmatch n (encode rest) q
      else .ok 0 := by
  have ht := hp t (by simp)
  cases hq : t.quoted with
  | true =>
    simp only [item, hq, if_true, Option.some.injEq, Prod.mk.injEq] at hi
    obtain ⟨rfl, rfl⟩ := hi
    rw [pmatch_quoted hq]
    simp only [taken_iff ht.1]
  | false =>
    rw [encode_plain hq]
    by_cases h₁ : t.ch = question
    · simp only [item, hq, h₁, Bool.false_eq_true, if_false, if_true, Option.some.injEq,
        Prod.mk.injEq] at hi
      obtain ⟨rfl, rfl⟩ := hi
      have hne : t ≠ ⟨lbrack, false⟩ := by
        intro he
        rw [he] at h₁
        exact absurd h₁ (by decide)
      rw [h₁, pmatch_question]
      by_cases ha : a = 0
      · rw [if_pos ha, if_neg fun h => hne (h.2 ha)]
      · rw [if_neg ha, if_pos ⟨rfl, fun h => absurd h ha⟩]
    · by_cases h₂ : t.ch = star
      · simp [item, hq, h₂, show star ≠ question by decide] at hi
      · by_cases h₃ : t.ch = lbrack
        · have het : t = ⟨lbrack, false⟩ := by
            cases t
            simp_all
          rw [h₃, pmatch_bracket fun u hu => hp u (by simp [hu])]
          simp only [item, hq, h₃, Bool.false_eq_true, if_false, if_true,
            show lbrack ≠ question by decide, show lbrack ≠ star by decide] at hi
          -- whether the list is closed decides what it takes and what is behind it
          cases hb : bracket brackets true p with
          | none =>
            rw [hb] at hi
            cases hi
            simp [het]
          | some x =>
            obtain ⟨negate, ms, rest'⟩ := x
            rw [hb] at hi
            cases hi
            simp [het]
        · simp only [item, hq, h₁, h₂, h₃, Bool.false_eq_true, if_false, Option.some.injEq,
            Prod.mk.injEq] at hi
          obtain ⟨rfl, rfl⟩ := hi
          rw [pmatch_literal ht hq h₁ h₂ h₃]
          simp only [taken_iff ht.1]

theorem pmatch_star (hp : ∀ u ∈ p, u.Ok) {again : List Byte → Except Fault ℕ}
    (hag : again = pmatch n (encode p)) : pmatch (n + 1) (star :: encode p) q =
      match p.head? with
      | none => skipTo 0 q >>= fun r => match r with
        | none => .ok 0
        | some q => starLoop again q
      | some t =>
        if t.quoted = true ∨ t.ch = question ∨ t.ch = star ∨ t.ch = lbrack then starLoop again q
        else skipTo t.ch q >>= fun r => match r with
          | none => .ok 0
          | some q => starLoop again q := by
  subst hag
  rw [pmatch.eq_def]
  simp only [next, bind, Except.bind, show star ≠ 0 by decide, show star ≠ CTLESC by decide,
    show star ≠ question by decide, if_false, if_true]
  rcases p with _ | ⟨t, p⟩
  · simp only [encode, deref, List.head?_nil]
    rw [if_pos (by decide)]
    rfl
  · have ht := hp t (by simp)
    cases hq : t.quoted with
    | true => simp [encode, hq, deref]
    | false =>
      have hesc := ht.2 hq
      rw [encode_plain hq]
      simp only [deref, List.head?_cons, hq, Bool.false_eq_true, false_or]
      by_cases hs : t.ch = question ∨ t.ch = star ∨ t.ch = lbrack
      · rw [if_neg fun h => hs.elim h.2.1 fun hs => hs.elim h.2.2.1 h.2.2.2, if_pos hs]
      · rw [not_or, not_or] at hs
        rw [if_pos ⟨hesc, hs.1, hs.2.1, hs.2.2⟩, if_neg fun h => h.elim hs.1 fun h =>
          h.elim hs.2.1 hs.2.2]
        rfl

theorem item_mem (hi : item t p = some (ok, rest)) : ∀ u ∈ rest, u ∈ p := by
  simp only [item] at hi
  split_ifs at hi with hq h₁ h₂ h₃
  · cases hi
    exact fun u hu => hu
  · cases hi
    exact fun u hu => hu
  · split at hi
    · rename_i hb
      cases hi
      exact bracket_mem hb
    · cases hi
      exact fun u hu => hu
  · cases hi
    exact fun u hu => hu

/-- Behind the NUL of the string, nothing is found without a read there. -/
theorem pmatch_past (hn : p.length < n) (hp : ∀ u ∈ p, u.Ok) :
    pmatch n (encode p) [] = .error .deref := by
  induction n generalizing p with
  | zero => omega
  | succ n ih =>
    rcases p with _ | ⟨t, p⟩
    · rfl
    · have hp' : ∀ u ∈ p, u.Ok := fun u hu => hp u (by simp [hu])
      have hl : p.length < n := by
        simp only [List.length_cons] at hn
        omega
      cases hi : item t p with
      | none =>
        -- the rest of the pattern is tried once, and reads there
        have hloop : starLoop (pmatch n (encode p)) [] = .error .deref := by
          rw [starLoop, ih hl hp']
          rfl
        rw [item_none hi, encode_plain rfl, pmatch_star hp' rfl]
        split
        · rfl
        · split
          · exact hloop
          · rfl
      | some x =>
        cases hq : t.quoted with
        | true =>
          simp only [encode, hq, if_true]
          rfl
        | false =>
          have ht := hp t (by simp)
          rw [encode_plain hq, pmatch.eq_def]
          obtain ⟨d, r, hd⟩ := encode_eq p
          simp only [next, bind, Except.bind, if_neg ht.1, if_neg (ht.2 hq)]
          split_ifs with h₁ h₂ h₃
          · rfl
          · -- not a star, which has no item
            simp [item, hq, h₂, show star ≠ question by decide] at hi
          · rw [show deref (encode p) = .ok d by rw [hd]; rfl]
            by_cases hb : d = bang
            · obtain ⟨p₁, hr, hmem, -⟩ := bracket_bang hd hb
              simp only [hb, if_true]
              rw [hd, List.tail_cons, hr, closed_eq fun u hu => hp' u (hmem u hu)]
              simp only [list_past, literal, next, bind, Except.bind]
              split
              · rfl
              · rfl
            · simp only [hb, if_false]
              rw [closed_eq hp']
              simp only [list_past, literal, next, bind, Except.bind]
              split
              · rfl
              · rfl
          · rfl

end Items

/-! ### Whole strings -/

/-- What comes of a string that matches, of one that is overrun, and of another one. -/
structure Meets (r : Except Fault ℕ) (A O : Prop) : Prop where
  accepts : A → r = .ok 1
  overrun : ¬ A → O → r = .error .deref
  rejects : ¬ A → ¬ O → r = .ok 0

section Strings

variable {t : Tok} {p rest : List Tok} {s : List Byte} {ok : Byte → Bool} {n : ℕ}
  {again : List Byte → Except Fault ℕ} {r : Except Fault ℕ} {A A' O O' : Prop}

theorem Meets.congr (h : Meets r A O) (hA : A ↔ A') (hO : O ↔ O') : Meets r A' O' :=
  ⟨fun a => h.accepts (hA.2 a), fun a o => h.overrun (fun h => a (hA.1 h)) (hO.2 o),
    fun a o => h.rejects (fun h => a (hA.1 h)) fun h => o (hO.1 h)⟩

theorem meets_zero (hA : ¬ A) (hO : ¬ O) : Meets (.ok 0) A O :=
  ⟨fun a => absurd a hA, fun _ o => absurd o hO, fun _ _ => rfl⟩

theorem meets_deref (hA : ¬ A) (hO : O) : Meets (.error .deref) A O :=
  ⟨fun a => absurd a hA, fun _ _ => rfl, fun _ o => absurd hO o⟩

theorem meets_one (hA : A) : Meets (.ok 1) A O :=
  ⟨fun _ => rfl, fun a => absurd hA a, fun a => absurd hA a⟩

theorem accepts_star_iff {a : Byte} (hi : item t p = none) : Accepts (t :: p) (a :: s) ↔
    Accepts p (a :: s) ∨ Accepts (t :: p) s := by
  rw [accepts_star hi, accepts_star hi]
  constructor
  · rintro ⟨_ | ⟨b, u⟩, v, hv, hm⟩
    · rw [List.nil_append] at hv
      exact Or.inl (hv ▸ hm)
    · exact Or.inr ⟨u, v, (List.cons.inj hv).2, hm⟩
  · rintro (hm | ⟨u, v, hv, hm⟩)
    · exact ⟨[], a :: s, rfl, hm⟩
    · exact ⟨a :: u, v, by rw [hv, List.cons_append], hm⟩

theorem overrun_star_iff {a : Byte} (hi : item t p = none) : Overrun (t :: p) (a :: s) ↔
    Overrun p (a :: s) ∨ Overrun (t :: p) s := by
  rw [overrun_star hi, overrun_star hi]
  constructor
  · rintro ⟨_ | ⟨b, u⟩, v, hv, hm⟩
    · rw [List.nil_append] at hv
      exact Or.inl (hv ▸ hm)
    · exact Or.inr ⟨u, v, (List.cons.inj hv).2, hm⟩
  · rintro (hm | ⟨u, v, hv, hm⟩)
    · exact ⟨[], a :: s, rfl, hm⟩
    · exact ⟨a :: u, v, by rw [hv, List.cons_append], hm⟩

theorem accepts_star_nil (hi : item t p = none) : Accepts (t :: p) [] ↔ Accepts p [] := by
  rw [accepts_star hi]
  constructor
  · rintro ⟨u, v, hv, hm⟩
    rw [(List.append_eq_nil_iff.1 hv.symm).2] at hm
    exact hm
  · exact fun hm => ⟨[], [], rfl, hm⟩

theorem overrun_star_nil (hi : item t p = none) : Overrun (t :: p) [] ↔ Overrun p [] := by
  rw [overrun_star hi]
  constructor
  · rintro ⟨u, v, hv, hm⟩
    rw [(List.append_eq_nil_iff.1 hv.symm).2] at hm
    exact hm
  · exact fun hm => ⟨[], [], rfl, hm⟩

/-- The places for the end of a star are tried from the left. One at which the rest is overrun stops
the search, and then no end of the string matches. -/
theorem starLoop_meets (hi : item t p = none) (hs : ∀ a ∈ s, a ≠ 0)
    (h : ∀ v, v <:+ s → Meets (again (v ++ [0])) (Accepts p v) (Overrun p v)) :
    Meets (starLoop again (s ++ [0])) (Accepts (t :: p) s) (Overrun (t :: p) s) := by
  induction s with
  | nil =>
    have h0 := h [] List.suffix_rfl
    rw [List.nil_append] at h0 ⊢
    apply Meets.congr _ (accepts_star_nil hi).symm (overrun_star_nil hi).symm
    rw [starLoop]
    refine ⟨fun ha => ?_, fun ha ho => ?_, fun ha ho => ?_⟩
    · rw [h0.accepts ha]
      rfl
    · rw [h0.overrun ha ho]
      rfl
    · rw [h0.rejects ha ho]
      rfl
  | cons a s ih =>
    have h0 := h (a :: s) List.suffix_rfl
    have hrest := ih (fun b hb => hs b (by simp [hb]))
      fun v hv => h v (hv.trans (List.suffix_cons a s))
    rw [List.cons_append] at h0 ⊢
    rw [starLoop]
    by_cases hA : Accepts p (a :: s)
    · rw [h0.accepts hA]
      exact meets_one ((accepts_star_iff hi).2 (Or.inl hA))
    · by_cases hO : Overrun p (a :: s)
      · rw [h0.overrun hA hO]
        apply meets_deref
        · intro hm
          obtain ⟨u, v, hv, hm⟩ := (accepts_star hi).1 hm
          exact hA (accepts_of_overrun _ le_rfl hO ⟨u, hv.symm⟩ hm)
        · exact (overrun_star_iff hi).2 (Or.inl hO)
      · rw [h0.rejects hA hO]
        have ha0 : a ≠ 0 := hs a (by simp)
        apply Meets.congr (A := Accepts (t :: p) s) (O := Overrun (t :: p) s)
        · simp only [bind, Except.bind]
          rw [if_neg fun h => h rfl, if_pos ha0]
          exact hrest
        · rw [accepts_star_iff hi]
          simp [hA]
        · rw [overrun_star_iff hi]
          simp [hO]

/-- An item other than a star, on a string that does not end before it. -/
theorem one_meets (hp : ∀ u ∈ t :: p, u.Ok) (hi : item t p = some (ok, rest))
    (hn : rest.length < n) (hs : ∀ a ∈ s, a ≠ 0)
    (ih : ∀ v, (∀ a ∈ v, a ≠ 0) →
      Meets (pmatch n (encode rest) (v ++ [0])) (Accepts rest v) (Overrun rest v)) :
    Meets (pmatch (n + 1) (encode (t :: p)) (s ++ [0])) (Accepts (t :: p) s)
      (Overrun (t :: p) s) := by
  have hrest : ∀ u ∈ rest, u.Ok := fun u hu => hp u (by simp [item_mem hi u hu])
  rcases s with _ | ⟨a, s⟩
  · -- the item is tried with the NUL
    -- an item has nothing to take, but the code may not notice
    have hA : ¬ Accepts (t :: p) [] := by
      rw [accepts_one hi]
      rintro ⟨a, v, hv, -⟩
      cases hv
    have hO : Overrun (t :: p) [] ↔ t = ⟨lbrack, false⟩ ∧ ok 0 = true := by
      rw [overrun_one hi]
      simp
    rw [List.nil_append, pmatch_one hp hi]
    split
    · rename_i h
      rw [pmatch_past hn hrest]
      exact meets_deref hA (hO.2 ⟨h.2 rfl, h.1⟩)
    · rename_i h
      exact meets_zero hA fun ho => h ⟨(hO.1 ho).2, fun _ => (hO.1 ho).1⟩
  · have ha0 : a ≠ 0 := hs a (by simp)
    have hA : Accepts (t :: p) (a :: s) ↔ ok a = true ∧ Accepts rest s := by
      rw [accepts_one hi]
      constructor
      · rintro ⟨b, v, hv, hb, hm⟩
        cases hv
        exact ⟨hb, hm⟩
      · rintro ⟨hb, hm⟩
        exact ⟨a, s, rfl, hb, hm⟩
    have hO : Overrun (t :: p) (a :: s) ↔ ok a = true ∧ Overrun rest s := by
      rw [overrun_one hi]
      constructor
      · rintro (⟨hnil, -⟩ | ⟨b, v, hv, hb, hm⟩)
        · cases hnil
        · cases hv
          exact ⟨hb, hm⟩
      · rintro ⟨hb, hm⟩
        exact Or.inr ⟨a, s, rfl, hb, hm⟩
    rw [List.cons_append, pmatch_one hp hi]
    split
    · rename_i h
      apply (ih s fun b hb => hs b (by simp [hb])).congr
      · rw [hA]
        simp [h.1]
      · rw [hO]
        simp [h.1]
    · rename_i h
      have hok : ¬ ok a = true := fun hok => h ⟨hok, fun h0 => absurd h0 ha0⟩
      exact meets_zero (fun hm => hok (hA.1 hm).1) fun ho => hok (hO.1 ho).1

/-- `while (*q != c)`, for the character that comes behind a star. -/
theorem skipTo_meets {c : Byte} {u : Tok} (hi : item t p = none) (hp : p = u :: rest)
    (hc : c ≠ 0) (hu : item u rest = some (fun a => decide (a = c), rest)) (hul : u ≠ ⟨lbrack, false⟩)
    (hs : ∀ a ∈ s, a ≠ 0)
    (h : ∀ v, v <:+ s → Meets (again (v ++ [0])) (Accepts p v) (Overrun p v)) :
    Meets (skipTo c (s ++ [0]) >>= fun r => match r with
      | none => .ok 0
      | some q => starLoop again q) (Accepts (t :: p) s) (Overrun (t :: p) s) := by
  subst hp
  induction s with
  | nil =>
    rw [List.nil_append, skipTo, if_neg hc.symm, if_pos rfl]
    apply meets_zero
    · rw [accepts_star_nil hi, accepts_one hu]
      rintro ⟨a, v, hv, -⟩
      cases hv
    · rw [overrun_star_nil hi, overrun_one hu]
      rintro (⟨-, hl, -⟩ | ⟨a, v, hv, -⟩)
      · exact hul hl
      · cases hv
  | cons a s ih =>
    rw [List.cons_append, skipTo]
    by_cases ha : a = c
    · rw [if_pos ha]
      exact starLoop_meets hi hs h
    · have hrest := ih (fun b hb => hs b (by simp [hb]))
        fun v hv => h v (hv.trans (List.suffix_cons a s))
      rw [if_neg ha, if_neg (hs a (by simp))]
      apply hrest.congr
      · -- the rest of the pattern does not match here
        rw [accepts_star_iff hi, accepts_one hu]
        constructor
        · exact Or.inr
        · rintro (⟨b, v, hv, hb, -⟩ | hm)
          · cases hv
            exact absurd (of_decide_eq_true hb) ha
          · exact hm
      · rw [overrun_star_iff hi, overrun_one hu]
        constructor
        · exact Or.inr
        · rintro ((⟨-, hl, -⟩ | ⟨b, v, hv, hb, -⟩) | hm)
          · exact absurd hl hul
          · cases hv
            exact absurd (of_decide_eq_true hb) ha
          · exact hm

theorem skipTo_end (hs : ∀ a ∈ s, a ≠ 0) : skipTo 0 (s ++ [0]) = .ok (some [0]) := by
  induction s with
  | nil => rfl
  | cons a s ih =>
    rw [List.cons_append, skipTo, if_neg (hs a (by simp)), if_neg (hs a (by simp)),
      ih fun b hb => hs b (by simp [hb])]

/-- As many turns as the pattern has characters are enough. -/
theorem pmatch_meets (hn : p.length < n) (hp : ∀ u ∈ p, u.Ok) (hs : ∀ a ∈ s, a ≠ 0) :
    Meets (pmatch n (encode p) (s ++ [0])) (Accepts p s) (Overrun p s) := by
  induction n generalizing p s with
  | zero => omega
  | succ n ih =>
    rcases p with _ | ⟨t, p⟩
    · apply Meets.congr (A := s = []) (O := False) _ accepts_nil.symm
        (iff_of_false id not_overrun_nil)
      rcases s with _ | ⟨a, s⟩
      · exact meets_one rfl
      · have hr : pmatch (n + 1) (encode []) (a :: s ++ [0]) = .ok 0 := pmatch_end (hs a (by simp))
        rw [hr]
        exact meets_zero (by simp) id
    · have hl : p.length < n := by
        simp only [List.length_cons] at hn
        omega
      have hp' : ∀ u ∈ p, u.Ok := fun u hu => hp u (by simp [hu])
      cases hi : item t p with
      | some x =>
        obtain ⟨ok, rest⟩ := x
        have hx := item_length hi
        have hok : ∀ u ∈ rest, u.Ok := fun u hu => hp' u (item_mem hi u hu)
        exact one_meets hp hi (by omega) hs fun v hv => ih (by omega) hok hv
      | none =>
        have hag : ∀ v, v <:+ s →
            Meets (pmatch n (encode p) (v ++ [0])) (Accepts p v) (Overrun p v) :=
          fun v hv => ih hl hp' fun a ha => hs a (hv.subset ha)
        have hloop := starLoop_meets hi hs hag
        obtain rfl := item_none hi
        rw [encode_plain rfl, pmatch_star hp' rfl]
        rcases p with _ | ⟨u, p⟩
        · -- nothing is left of the pattern, so that the star takes all of the string
          have hend : starLoop (pmatch n (encode [])) [0] = .ok 1 := by
            obtain ⟨m, rfl⟩ := Nat.exists_eq_succ_of_ne_zero (by omega : n ≠ 0)
            rfl
          simp only [List.head?_nil, skipTo_end hs, bind, Except.bind, hend]
          exact meets_one ((accepts_star hi).2 ⟨s, [], by simp, accepts_nil.2 rfl⟩)
        · simp only [List.head?_cons]
          split
          · exact hloop
          · rename_i hu
            rw [not_or, not_or, not_or] at hu
            obtain ⟨hq, h₁, h₂, h₃⟩ := hu
            -- the first character behind the star is one that stands for itself
            have hitem : item u p = some (fun a => decide (a = u.ch), p) := by
              simp only [item, if_neg hq, if_neg h₁, if_neg h₂, if_neg h₃]
            have hne : u ≠ ⟨lbrack, false⟩ := by
              rintro rfl
              exact h₃ rfl
            exact skipTo_meets hi rfl (hp' u (by simp)).1 hitem hne hs hag

end Strings

section Results

variable {p : List Tok} {s : List Byte}

/-- The function reads no byte behind a terminator, comes to an end and says whether the string
matches: on every string that matches, and on every other one that is not overrun. -/
theorem pmatch_iff (p : List Tok) (s : List Byte) (hp : ∀ u ∈ p, u.Ok) (hs : ∀ a ∈ s, a ≠ 0) :
    (∃ r, pmatch (p.length + 1) (encode p) (s ++ [0]) = .ok r ∧ (r = 1 ↔ Accepts p s)) ↔
      (Overrun p s → Accepts p s) := by
  have h := pmatch_meets (Nat.lt_succ_self p.length) hp hs
  constructor
  · rintro ⟨r, hr, -⟩ ho
    by_contra ha
    rw [h.overrun ha ho] at hr
    cases hr
  · intro ho
    by_cases ha : Accepts p s
    · exact ⟨1, h.accepts ha, by simp [ha]⟩
    · exact ⟨0, h.rejects ha fun hO => ha (ho hO), by simp [ha]⟩

/-- A list in a pattern with a star, on a string of one character. -/
theorem pmatch_iff_star :
    (∃ r, pmatch 3 (encode [⟨star, false⟩, ⟨0x61, true⟩]) ([0x61] ++ [0]) = .ok r ∧
      (r = 1 ↔ Accepts [⟨star, false⟩, ⟨0x61, true⟩] [0x61])) ↔
    (Overrun [⟨star, false⟩, ⟨0x61, true⟩] [0x61] → Accepts [⟨star, false⟩, ⟨0x61, true⟩] [0x61]) :=
  pmatch_iff [⟨star, false⟩, ⟨0x61, true⟩] [0x61]
    (by
      intro u hu
      simp only [List.mem_cons, List.not_mem_nil, or_false] at hu
      rcases hu with rfl | rfl
      · exact ⟨by decide, by decide⟩
      · exact ⟨by decide, by decide⟩)
    (by decide)

/-- The pattern `[!a]` is compared with the empty string beyond its end. -/
theorem pmatch_beyond :
    pmatch 5 (encode [⟨lbrack, false⟩, ⟨bang, false⟩, ⟨0x61, false⟩, ⟨rbrack, false⟩]) ([] ++ [0]) =
      .error .deref ∧
    ¬ Accepts [⟨lbrack, false⟩, ⟨bang, false⟩, ⟨0x61, false⟩, ⟨rbrack, false⟩] [] := by
  refine ⟨by decide, ?_⟩
  rw [accepts_cons]
  rintro ⟨p', s', ht, -⟩
  obtain ⟨-, a, -, hs⟩ := ht
  cases hs

end Results

end Pmatch
