import Mathlib
import NetBsd.Lib.Fault

/-!
# Strings as numbers

`strtol` and `strtoul` of `stdlib`. Both accumulate the digits in 32 bits, with a cutoff that tells
when the next digit is too much. A `0x` is taken as a prefix without a look at what is behind it, and
the classes of characters are taken from a table that begins at character -1.

## Main definitions

* `scan`, `strtol`, `strtoul`: what the two functions share, and the functions
* `subject`: the sign, the base, the digits and the rest of a string
* `strtolSpec`, `strtoulSpec`: the number that a string denotes, clamped
* `EmptyHex`, `BadEnd`: a `0x` with no digit behind it, and an end at a character without a class

## Main results

* `accumulate_spec`: the cutoff tells exactly when the limit is passed
* `strtol_iff`: the functions are right except in these two cases
-/

namespace Strtol

abbrev Byte := BitVec 8

/-- A string is the list of its characters before the NUL, and a pointer the rest of the list. The
functions keep `c` as the character in front of `s`; `cur` is the pointer to `c`. -/
def char (cur : List Byte) : Byte := cur.headD 0

def isSpace (c : Byte) : Bool := c = 0x20 || (0x09 ≤ c.toNat && c.toNat ≤ 0x0D)

/-- The value of a digit or a letter. -/
def digitVal (c : Byte) : Option ℕ :=
  if 0x30 ≤ c.toNat ∧ c.toNat ≤ 0x39 then some (c.toNat - 0x30)
  else if 0x41 ≤ c.toNat ∧ c.toNat ≤ 0x5A then some (c.toNat - (0x41 - 10))
  else if 0x61 ≤ c.toNat ∧ c.toNat ≤ 0x7A then some (c.toNat - (0x61 - 10))
  else none

/-- A look at `(_ctype_ + 1)[c]`, for a signed character. -/
def lookup {α : Type} (c : Byte) (v : α) : Except Fault α :=
  if c.toInt < -1 then .error .deref else .ok v

/-! ### The functions -/

/-- `do c = *s++; while (isspace(c))`. -/
def skipSpaces : List Byte → Except Fault (List Byte)
  | [] => do
    let _ ← lookup 0 (isSpace 0)
    return []
  | c :: s => do
    let b ← lookup c (isSpace c)
    if b then skipSpaces s else return (c :: s)

/-- The sign: whether there is a minus, and the pointer behind it. -/
def sign (cur : List Byte) : Bool × List Byte :=
  if char cur = 0x2D then (true, cur.tail)
  else if char cur = 0x2B then (false, cur.tail)
  else (false, cur)

/-- `0x` or `0X`, where the base allows it. -/
def hexPrefix (base : ℕ) (cur : List Byte) : Bool :=
  (base = 0 || base = 16) && char cur = 0x30 &&
    (char cur.tail = 0x78 || char cur.tail = 0x58)

/-- The base where the string has no `0x`. -/
def plainBase (base : ℕ) (cur : List Byte) : ℕ :=
  if base = 0 then if char cur = 0x30 then 8 else 10 else base

/-- The base, and the pointer behind the prefix. -/
def basePrefix (base : ℕ) (cur : List Byte) : ℕ × List Byte :=
  if hexPrefix base cur then (16, cur.tail.tail) else (plainBase base cur, cur)

/-- What the loop keeps: `acc`, and `any`, which is negative after an overflow. -/
structure Acc where
  acc : ℕ
  any : ℤ
  deriving DecidableEq

/-- One digit; `acc` is an unsigned long. -/
def accumulate (base cutoff cutlim : ℕ) (a : Acc) (c : ℕ) : Acc :=
  if a.any < 0 ∨ a.acc > cutoff ∨ a.acc = cutoff ∧ c > cutlim then { a with any := -1 }
  else ⟨(a.acc * base + c) % 2 ^ 32, 1⟩

/-- The loop over the digits. -/
def loop (base cutoff cutlim : ℕ) : List Byte → Acc → Except Fault (Acc × List Byte)
  | [], a => do
    let _ ← lookup 0 (digitVal 0)
    return (a, [])
  | c :: s, a => do
    let d ← lookup c (digitVal c)
    match d with
    | none => return (a, c :: s)
    | some d =>
      if d ≥ base then return (a, c :: s)
      else loop base cutoff cutlim s (accumulate base cutoff cutlim a d)

/-- The part that the two functions have in common; `limit` is the largest value of `acc`. -/
def scan (limit : Bool → ℕ) (nptr : List Byte) (base : ℕ) :
    Except Fault (Bool × Acc × List Byte) := do
  let cur ← skipSpaces nptr
  let (neg, cur) := sign cur
  let (base, cur) := basePrefix base cur
  let (a, cur) ← loop base (limit neg / base) (limit neg % base) cur ⟨0, 0⟩
  return (neg, a, cur)

/-- What a call returns, the pointer that it stores through `endptr`, and whether it sets `errno`
to `ERANGE`. -/
structure Result where
  value : ℤ
  endptr : List Byte
  erange : Bool
  deriving DecidableEq

def longMax : ℕ := 2 ^ 31 - 1

def ulongMax : ℕ := 2 ^ 32 - 1

/-- `-acc` in an unsigned long. -/
def negate (acc : ℕ) : ℕ := (2 ^ 32 - acc) % 2 ^ 32

/-- An unsigned long as a long. -/
def toLong (acc : ℕ) : ℤ := if acc < 2 ^ 31 then acc else acc - 2 ^ 32

/-- `-(unsigned long)LONG_MIN` or `LONG_MAX`. -/
def longLimit (neg : Bool) : ℕ := if neg then 2 ^ 31 else longMax

def strtol (nptr : List Byte) (base : ℕ) : Except Fault Result := do
  let (neg, a, cur) ← scan longLimit nptr base
  let endptr := if a.any ≠ 0 then cur else nptr
  if a.any < 0 then return ⟨toLong (longLimit neg), endptr, true⟩
  else return ⟨toLong (if neg then negate a.acc else a.acc), endptr, false⟩

def strtoul (nptr : List Byte) (base : ℕ) : Except Fault Result := do
  let (neg, a, cur) ← scan (fun _ => ulongMax) nptr base
  let endptr := if a.any ≠ 0 then cur else nptr
  if a.any < 0 then return ⟨ulongMax, endptr, true⟩
  else return ⟨if neg then negate a.acc else a.acc, endptr, false⟩

/-! ### The number that a string denotes -/

/-- A digit below the base. -/
def below (base : ℕ) (c : Byte) : Bool := (digitVal c).any (· < base)

def digits (base : ℕ) (s : List Byte) : List ℕ := (s.takeWhile (below base)).filterMap digitVal

def value (base : ℕ) (ds : List ℕ) : ℕ := ds.foldl (fun v d => v * base + d) 0

/-- The sign, and what is behind white space and sign. -/
def signed (nptr : List Byte) : Bool × List Byte := sign (nptr.dropWhile isSpace)

/-- The base and the digits of what is behind the sign: `0x` is a prefix when a digit follows, and is
the digit 0 otherwise. -/
def subject (base : ℕ) (cur : List Byte) : ℕ × List Byte :=
  if hexPrefix base cur && below 16 (char cur.tail.tail) then (16, cur.tail.tail)
  else (plainBase base cur, cur)

/-- The longest prefix of the form: sign, value of the digits and pointer behind them, or none where
there are no digits. -/
def parse (nptr : List Byte) (base : ℕ) : Option (Bool × ℕ × List Byte) :=
  let (neg, cur) := signed nptr
  let (base, body) := subject base cur
  if digits base body = [] then none
  else some (neg, value base (digits base body), body.dropWhile (below base))

/-- An integer clamped to a range, with whether it was out of it. -/
def clamp (lo hi n : ℤ) : ℤ × Bool := (max lo (min hi n), decide (n < lo ∨ hi < n))

def strtolSpec (nptr : List Byte) (base : ℕ) : Result :=
  match parse nptr base with
  | none => ⟨0, nptr, false⟩
  | some (neg, v, endptr) =>
    let (n, out) := clamp (-2 ^ 31) (2 ^ 31 - 1) (if neg then -v else v)
    ⟨n, endptr, out⟩

/-- The number is negated, in the range of an unsigned long, when it is in the range. -/
def strtoulSpec (nptr : List Byte) (base : ℕ) : Result :=
  match parse nptr base with
  | none => ⟨0, nptr, false⟩
  | some (neg, v, endptr) =>
    let (n, out) := clamp 0 (2 ^ 32 - 1) v
    ⟨if neg && !out then -n % 2 ^ 32 else n, endptr, out⟩

/-- A `0x` that may be a prefix, with no digit behind it. -/
def EmptyHex (nptr : List Byte) (base : ℕ) : Prop :=
  hexPrefix base (signed nptr).2 = true ∧
    below 16 (char (signed nptr).2.tail.tail) = false

/-- The first character that the functions do not take: what is behind the digits, with every `0x`
that may be one taken as a prefix. -/
def stopsAt (nptr : List Byte) (base : ℕ) : Byte :=
  let (base, body) := basePrefix base (signed nptr).2
  char (body.dropWhile (below base))

/-- The functions stop at a character that is not in the table. -/
def BadEnd (nptr : List Byte) (base : ℕ) : Prop := (stopsAt nptr base).toInt < -1

/-! ### Spaces and digits -/

section Scan

variable {base limit : ℕ} {c : Byte} {s cur : List Byte} {a : Acc}

/-- Every character with a class is in the table. -/
theorem lookup_ok {α : Type} {v : α} (h : ¬ c.toInt < -1) : lookup c v = .ok v := if_neg h

theorem lookup_bad {α : Type} {v : α} (h : c.toInt < -1) : lookup c v = .error .deref := if_pos h

theorem char_cons (c : Byte) (s : List Byte) : char (c :: s) = c := rfl

theorem toNat_of_bad (h : c.toInt < -1) : 0x80 ≤ c.toNat := by
  have hlt := c.isLt
  rw [BitVec.toInt_eq_toNat_cond] at h
  split at h
  · omega
  · omega

theorem not_bad_of_lt (h : c.toNat < 0x80) : ¬ c.toInt < -1 := fun hb => by
  have := toNat_of_bad hb
  omega

theorem not_bad_of_space (h : isSpace c = true) : ¬ c.toInt < -1 := by
  apply not_bad_of_lt
  simp only [isSpace, Bool.or_eq_true, decide_eq_true_eq, Bool.and_eq_true] at h
  rcases h with rfl | h
  · decide
  · omega

theorem not_bad_of_digit {d : ℕ} (h : digitVal c = some d) : ¬ c.toInt < -1 := by
  apply not_bad_of_lt
  unfold digitVal at h
  split_ifs at h
  · omega
  · omega
  · omega

theorem not_bad_of_below (h : below base c = true) : ¬ c.toInt < -1 := by
  unfold below at h
  cases hd : digitVal c with
  | none =>
    rw [hd] at h
    cases h
  | some d => exact not_bad_of_digit hd

/-- The loop over white space stops with a fault at a character that is not in the table. -/
theorem skipSpaces_eq (s : List Byte) : skipSpaces s =
    lookup (char (s.dropWhile isSpace)) (s.dropWhile isSpace) := by
  induction s with
  | nil => rfl
  | cons c s ih =>
    rw [skipSpaces]
    cases hc : isSpace c with
    | true =>
      rw [lookup_ok (not_bad_of_space hc), List.dropWhile_cons_of_pos hc, ← ih]
      rfl
    | false =>
      rw [List.dropWhile_cons_of_neg (by simp [hc])]
      rw [char_cons]
      by_cases hbad : c.toInt < -1
      · rw [lookup_bad hbad, lookup_bad hbad]
        rfl
      · rw [lookup_ok hbad, lookup_ok hbad]
        rfl

/-- The loop over the digits, and where it stops. -/
theorem loop_eq (cutoff cutlim : ℕ) (s : List Byte) (a : Acc) : loop base cutoff cutlim s a =
    lookup (char (s.dropWhile (below base)))
      ((digits base s).foldl (accumulate base cutoff cutlim) a, s.dropWhile (below base)) := by
  induction s generalizing a with
  | nil => rfl
  | cons c s ih =>
    rw [loop]
    cases hb : below base c with
    | true =>
      obtain ⟨d, hd, hlt⟩ : ∃ d, digitVal c = some d ∧ d < base := by
        simpa [below, Option.any_eq_true] using hb
      rw [lookup_ok (not_bad_of_below hb), List.dropWhile_cons_of_pos hb]
      simp only [bind, Except.bind, hd]
      rw [if_neg (by omega), ih]
      simp only [digits, List.takeWhile_cons_of_pos hb, List.filterMap_cons, hd, List.foldl_cons]
    | false =>
      rw [List.dropWhile_cons_of_neg (by simp [hb])]
      simp only [digits, List.takeWhile_cons_of_neg (show ¬ below base c = true by simp [hb]),
        List.filterMap_nil, List.foldl_nil, lookup, char, List.headD_cons]
      split
      · rfl
      · simp only [bind, Except.bind]
        cases hd : digitVal c with
        | none => rfl
        | some d =>
          have hge : d ≥ base := by
            simpa [below, hd] using hb
          simp only [if_pos hge]
          rfl

theorem digits_lt {d : ℕ} (h : d ∈ digits base s) : d < base := by
  obtain ⟨c, hc, hd⟩ := List.mem_filterMap.1 h
  have hb := List.mem_takeWhile_imp hc
  simpa [below, hd] using hb

end Scan

/-! ### The value -/

section Value

variable {base limit v : ℕ} {ds : List ℕ} {a : Acc}

theorem value_foldl (base v : ℕ) (ds : List ℕ) :
    v ≤ ds.foldl (fun v d => v * base + d) v ∨ base = 0 := by
  by_cases hb : base = 0
  · exact Or.inr hb
  · refine Or.inl ?_
    induction ds generalizing v with
    | nil => exact le_rfl
    | cons d ds ih =>
      have hv : v * 1 ≤ v * base := Nat.mul_le_mul_left v (by omega)
      have h := ih (v * base + d)
      rw [List.foldl_cons]
      omega

/-- After an overflow the digits are only gone over. -/
theorem foldl_overflow (cutoff cutlim : ℕ) (h : a.any < 0) :
    ds.foldl (accumulate base cutoff cutlim) a = { a with any := if ds = [] then a.any else -1 } := by
  induction ds generalizing a with
  | nil => rfl
  | cons d ds ih =>
    have ha : accumulate base cutoff cutlim a d = { a with any := -1 } := by
      rw [accumulate, if_pos (Or.inl h)]
    rw [List.foldl_cons, ha, ih (by change (-1 : ℤ) < 0; decide)]
    simp

/-- The cutoff tells whether the next digit passes the limit. -/
theorem cutoff_iff {d : ℕ} (hb : 0 < base) (hd : d < base) :
    (v > limit / base ∨ v = limit / base ∧ d > limit % base) ↔ limit < v * base + d := by
  have hl := Nat.div_add_mod limit base
  have hm := Nat.mod_lt limit hb
  rw [Nat.mul_comm] at hl
  constructor
  · rintro (hv | ⟨rfl, hd'⟩)
    · have h : (limit / base + 1) * base ≤ v * base := Nat.mul_le_mul_right _ hv
      rw [Nat.succ_mul] at h
      omega
    · omega
  · intro h
    by_contra hn
    rw [not_or, not_and] at hn
    rcases Nat.lt_or_eq_of_le (Nat.le_of_not_lt hn.1) with hv | hv
    · have h' : (v + 1) * base ≤ limit / base * base := Nat.mul_le_mul_right _ hv
      rw [Nat.succ_mul] at h'
      omega
    · have := hn.2 hv
      rw [← hv] at hl
      omega

/-- The loop keeps the value of the digits up to the limit, and knows when it is passed. -/
theorem accumulate_spec (hb : 0 < base) (hlim : limit < 2 ^ 32) (hds : ∀ d ∈ ds, d < base)
    (ha : 0 ≤ a.any) (hv : a.acc ≤ limit) :
    (ds.foldl (fun v d => v * base + d) a.acc ≤ limit →
      ds.foldl (accumulate base (limit / base) (limit % base)) a =
        ⟨ds.foldl (fun v d => v * base + d) a.acc, if ds = [] then a.any else 1⟩) ∧
    (limit < ds.foldl (fun v d => v * base + d) a.acc →
      (ds.foldl (accumulate base (limit / base) (limit % base)) a).any = -1) := by
  induction ds generalizing a with
  | nil =>
    refine ⟨fun _ => rfl, fun h => ?_⟩
    rw [List.foldl_nil] at h
    omega
  | cons d ds ih =>
    have hiff : (a.acc > limit / base ∨ a.acc = limit / base ∧ d > limit % base) ↔
        limit < a.acc * base + d := cutoff_iff hb (hds d (by simp))
    simp only [List.foldl_cons]
    by_cases hover : limit < a.acc * base + d
    · -- once the limit is passed, the value stays above it
      have hle := (value_foldl base (a.acc * base + d) ds).resolve_right (by omega)
      have hacc : accumulate base (limit / base) (limit % base) a d = { a with any := -1 } := by
        rw [accumulate, if_pos (Or.inr (hiff.2 hover))]
      refine ⟨fun h => by omega, fun _ => ?_⟩
      rw [hacc, foldl_overflow _ _ (by change (-1 : ℤ) < 0; decide)]
      simp
    · have hacc : accumulate base (limit / base) (limit % base) a d =
          ⟨a.acc * base + d, 1⟩ := by
        rw [accumulate, if_neg, Nat.mod_eq_of_lt (by omega)]
        rintro (h | h)
        · omega
        · exact hover (hiff.1 h)
      obtain ⟨hin, hout⟩ := ih (a := ⟨a.acc * base + d, 1⟩) (fun e he => hds e (by simp [he]))
        (by change (0 : ℤ) ≤ 1; decide) (by change a.acc * base + d ≤ limit; omega)
      rw [hacc]
      refine ⟨fun h => ?_, hout⟩
      rw [hin h]
      simp

end Value

/-! ### The two functions -/

section Results

variable {base : ℕ} {nptr : List Byte} {l : Bool → ℕ}

/-- The digits that the functions go over. -/
def body (base : ℕ) (nptr : List Byte) : ℕ × List Byte := basePrefix base (signed nptr).2

/-- A character that is not in the table is not taken, whatever comes before it. -/
theorem stopsAt_of_bad {cur : List Byte} (h : (char cur).toInt < -1) (hs : cur = nptr.dropWhile isSpace) :
    stopsAt nptr base = char cur := by
  subst hs
  have h80 := toNat_of_bad h
  -- the character is neither a sign nor the 0 of a prefix, and no digit
  have hsign : signed nptr = (false, nptr.dropWhile isSpace) := by
    rw [signed, sign, if_neg, if_neg]
    · intro he
      rw [he] at h80
      exact absurd h80 (by decide)
    · intro he
      rw [he] at h80
      exact absurd h80 (by decide)
  have hhex : hexPrefix base (nptr.dropWhile isSpace) = false := by
    have hne : char (nptr.dropWhile isSpace) ≠ 0x30 := by
      intro he
      rw [he] at h80
      exact absurd h80 (by decide)
    rw [hexPrefix, decide_eq_false hne, Bool.and_false, Bool.false_and]
  rw [stopsAt, hsign]
  simp only [basePrefix, hhex, Bool.false_eq_true, if_false]
  cases hc : nptr.dropWhile isSpace with
  | nil => rfl
  | cons c s =>
    rw [hc] at h
    have hb : ¬ below (plainBase base (c :: s)) c = true := fun hb => not_bad_of_below hb h
    rw [List.dropWhile_cons_of_neg hb]

/-- What both functions find, unless they stop at a character that is not in the table. -/
theorem scan_eq (limit : Bool → ℕ) (nptr : List Byte) (base : ℕ) : scan limit nptr base =
    lookup (stopsAt nptr base) ((signed nptr).1,
      (digits (body base nptr).1 (body base nptr).2).foldl
        (accumulate (body base nptr).1 (limit (signed nptr).1 / (body base nptr).1)
          (limit (signed nptr).1 % (body base nptr).1)) ⟨0, 0⟩,
      (body base nptr).2.dropWhile (below (body base nptr).1)) := by
  rw [scan, skipSpaces_eq]
  by_cases hbad : (char (nptr.dropWhile isSpace)).toInt < -1
  · rw [stopsAt_of_bad hbad rfl, lookup_bad hbad, lookup_bad hbad]
    rfl
  · rw [lookup_ok hbad]
    simp only [bind, Except.bind]
    rw [loop_eq]
    simp only [body, signed, stopsAt]
    by_cases hend : (char ((basePrefix base (sign (nptr.dropWhile isSpace)).2).2.dropWhile
        (below (basePrefix base (sign (nptr.dropWhile isSpace)).2).1))).toInt < -1
    · rw [lookup_bad hend, lookup_bad hend]
    · rw [lookup_ok hend, lookup_ok hend]
      rfl

theorem body_base : 0 < (body base nptr).1 := by
  simp only [body, basePrefix]
  split
  · change 0 < 16
    omega
  · change 0 < plainBase base _
    unfold plainBase
    split_ifs
    · omega
    · omega
    · omega

/-- Where no empty `0x` is taken for a prefix, the functions go over the digits of the number. -/
theorem subject_eq (h : ¬ EmptyHex nptr base) : subject base (signed nptr).2 = body base nptr := by
  unfold EmptyHex at h
  rw [subject, body, basePrefix]
  cases hx : hexPrefix base (signed nptr).2 with
  | false => rfl
  | true =>
    have hb : below 16 (char (signed nptr).2.tail.tail) = true := by
      by_contra hn
      exact h ⟨hx, by simpa using hn⟩
    rw [hb]
    rfl

/-- What both functions find of a number that the string denotes. -/
theorem scan_some (hlim : ∀ neg, l neg < 2 ^ 32)
    (hx : ¬ EmptyHex nptr base) (hb : ¬ BadEnd nptr base) {neg : Bool} {v : ℕ}
    {endptr : List Byte} (hp : parse nptr base = some (neg, v, endptr)) :
    ∃ a, scan l nptr base = .ok (neg, a, endptr) ∧ (v ≤ l neg → a = ⟨v, 1⟩) ∧
      (l neg < v → a.any = -1) := by
  rw [scan_eq, lookup_ok hb]
  simp only [parse, subject_eq hx] at hp
  split at hp
  · cases hp
  · rename_i hne
    simp only [Option.some.injEq, Prod.mk.injEq] at hp
    obtain ⟨rfl, rfl, rfl⟩ := hp
    obtain ⟨hin, hout⟩ := accumulate_spec (a := ⟨0, 0⟩) body_base
      (hlim (signed nptr).1) (fun d hd => digits_lt hd) le_rfl (Nat.zero_le _)
    refine ⟨_, rfl, fun hv => ?_, hout⟩
    rw [hin hv, if_neg hne]
    rfl

theorem scan_none (hx : ¬ EmptyHex nptr base) (hb : ¬ BadEnd nptr base)
    (hp : parse nptr base = none) :
    ∃ endptr, scan l nptr base = .ok ((signed nptr).1, ⟨0, 0⟩, endptr) := by
  rw [scan_eq, lookup_ok hb]
  simp only [parse, subject_eq hx] at hp
  split at hp
  · rename_i hnil
    rw [hnil]
    exact ⟨_, rfl⟩
  · cases hp

/-- An empty `0x` leaves nothing to go over. -/
theorem scan_emptyHex (hx : EmptyHex nptr base) (hb : ¬ BadEnd nptr base) :
    ∃ endptr, scan l nptr base = .ok ((signed nptr).1, ⟨0, 0⟩, endptr) := by
  -- the loop begins behind the prefix, at a character that is no digit
  have hnil : digits (body base nptr).1 (body base nptr).2 = [] := by
    simp only [body, basePrefix, hx.1, if_true]
    rcases hc : (signed nptr).2.tail.tail with _ | ⟨c, s⟩
    · rfl
    · have hbel := hx.2
      rw [hc, char_cons] at hbel
      rw [digits, List.takeWhile_cons_of_neg (by simp [hbel]), List.filterMap_nil]
  rw [scan_eq, lookup_ok hb, hnil]
  exact ⟨_, rfl⟩

/-- But the string denotes the number 0, of one digit. -/
theorem parse_emptyHex (hx : EmptyHex nptr base) :
    ∃ v endptr, parse nptr base = some ((signed nptr).1, v, endptr) ∧ endptr ≠ nptr := by
  have hpre := hx.1
  have h0 : char (signed nptr).2 = 0x30 := by
    simp only [hexPrefix, Bool.and_eq_true, decide_eq_true_eq] at hpre
    exact hpre.1.2
  have hsub : subject base (signed nptr).2 = (plainBase base (signed nptr).2, (signed nptr).2) := by
    rw [subject, hx.2, Bool.and_false, if_neg (by simp)]
  rcases hc : (signed nptr).2 with _ | ⟨c, s⟩
  · rw [hc] at h0
    exact absurd h0 (by decide)
  · rw [hc, char_cons] at h0
    have hbel : below (plainBase base (c :: s)) c = true := by
      have hpos : 0 < plainBase base (c :: s) := by
        unfold plainBase
        split_ifs
        · omega
        · omega
        · omega
      have hval : digitVal c = some 0 := by
        rw [h0]
        rfl
      simpa [below, hval] using hpos
    have hd : digits (plainBase base (c :: s)) (c :: s) ≠ [] := by
      rw [digits, List.takeWhile_cons_of_pos hbel, h0]
      simp [digitVal]
    refine ⟨_, _, by simp only [parse]; rw [hsub, hc, if_neg hd], ?_⟩
    -- at least the digit 0 has been taken from the string
    have hle : (c :: s).length ≤ nptr.length := by
      rw [← hc, signed, sign]
      have hdw := (List.dropWhile_sublist (l := nptr) isSpace).length_le
      split_ifs
      · exact (List.tail_sublist _).length_le.trans hdw
      · exact (List.tail_sublist _).length_le.trans hdw
      · exact hdw
    have hlt := (List.dropWhile_sublist (l := s) (below (plainBase base (c :: s)))).length_le
    rw [List.dropWhile_cons_of_pos hbel]
    intro he
    rw [he] at hlt
    simp only [List.length_cons] at hle
    omega

theorem toLong_limit (neg : Bool) : toLong (longLimit neg) = if neg then -2 ^ 31 else 2 ^ 31 - 1 := by
  cases neg
  · rfl
  · rfl

theorem toLong_in {neg : Bool} {v : ℕ} (hv : v ≤ longLimit neg) :
    toLong (if neg then negate v else v) = if neg then -(v : ℤ) else v := by
  cases neg with
  | false =>
    simp only [longLimit, Bool.false_eq_true, if_false, longMax] at hv ⊢
    rw [toLong, if_pos (by omega)]
  | true =>
    simp only [longLimit, if_true] at hv ⊢
    unfold toLong negate
    split
    · omega
    · omega

theorem clamp_in {neg : Bool} {v : ℕ} (hv : v ≤ longLimit neg) :
    clamp (-2 ^ 31) (2 ^ 31 - 1) (if neg then -(v : ℤ) else v) =
      (if neg then -(v : ℤ) else v, false) := by
  cases neg with
  | false =>
    simp only [longLimit, Bool.false_eq_true, if_false, longMax] at hv ⊢
    simp only [clamp, Prod.mk.injEq, decide_eq_false_iff_not]
    omega
  | true =>
    simp only [longLimit, if_true] at hv ⊢
    simp only [clamp, Prod.mk.injEq, decide_eq_false_iff_not]
    omega

theorem clamp_out {neg : Bool} {v : ℕ} (hv : longLimit neg < v) :
    clamp (-2 ^ 31) (2 ^ 31 - 1) (if neg then -(v : ℤ) else v) =
      (if neg then -2 ^ 31 else 2 ^ 31 - 1, true) := by
  cases neg with
  | false =>
    simp only [longLimit, Bool.false_eq_true, if_false, longMax] at hv ⊢
    simp only [clamp, Prod.mk.injEq, decide_eq_true_eq]
    omega
  | true =>
    simp only [longLimit, if_true] at hv ⊢
    simp only [clamp, Prod.mk.injEq, decide_eq_true_eq]
    omega

theorem strtol_eq (hx : ¬ EmptyHex nptr base)
    (hb : ¬ BadEnd nptr base) : strtol nptr base = .ok (strtolSpec nptr base) := by
  have hlim : ∀ neg, longLimit neg < 2 ^ 32 := by decide
  rw [strtol, strtolSpec]
  cases hp : parse nptr base with
  | none =>
    obtain ⟨endptr, hs⟩ := scan_none (l := longLimit) hx hb hp
    rw [hs]
    cases (signed nptr).1
    · rfl
    · rfl
  | some x =>
    obtain ⟨neg, v, endptr⟩ := x
    obtain ⟨a, hs, hin, hout⟩ := scan_some hlim hx hb hp
    rw [hs]
    simp only [bind, Except.bind, pure, Except.pure]
    by_cases hv : v ≤ longLimit neg
    · obtain rfl := hin hv
      rw [if_neg (by change ¬ (1 : ℤ) < 0; decide), clamp_in hv, toLong_in hv]
      rfl
    · have hany := hout (by omega)
      have hneg : a.any < 0 := by
        rw [hany]
        decide
      have hne : a.any ≠ 0 := hneg.ne
      rw [if_pos hneg, clamp_out (by omega), toLong_limit, if_pos hne]

theorem strtoul_eq (hx : ¬ EmptyHex nptr base)
    (hb : ¬ BadEnd nptr base) : strtoul nptr base = .ok (strtoulSpec nptr base) := by
  rw [strtoul, strtoulSpec]
  cases hp : parse nptr base with
  | none =>
    obtain ⟨endptr, hs⟩ := scan_none (l := fun _ => ulongMax) hx hb hp
    rw [hs]
    cases (signed nptr).1
    · rfl
    · rfl
  | some x =>
    obtain ⟨neg, v, endptr⟩ := x
    obtain ⟨a, hs, hin, hout⟩ := scan_some (l := fun _ => ulongMax)
      (fun _ => by decide) hx hb hp
    rw [hs]
    simp only [bind, Except.bind, pure, Except.pure]
    by_cases hv : v ≤ ulongMax
    · have hc : clamp 0 (2 ^ 32 - 1) (v : ℤ) = ((v : ℤ), false) := by
        unfold ulongMax at hv
        simp only [clamp, Prod.mk.injEq, decide_eq_false_iff_not]
        omega
      obtain rfl := hin hv
      rw [if_neg (by change ¬ (1 : ℤ) < 0; decide), hc]
      cases neg with
      | false => rfl
      | true =>
        have hn : ((negate v : ℕ) : ℤ) = -(v : ℤ) % 2 ^ 32 := by
          unfold ulongMax at hv
          unfold negate
          omega
        simp [hn]
    · have hc : clamp 0 (2 ^ 32 - 1) (v : ℤ) = (2 ^ 32 - 1, true) := by
        unfold ulongMax at hv
        simp only [clamp, Prod.mk.injEq, decide_eq_true_eq]
        omega
      have hany := hout (by omega)
      have hneg : a.any < 0 := by
        rw [hany]
        decide
      have hne : a.any ≠ 0 := hneg.ne
      rw [if_pos hneg, hc, if_pos hne]
      cases neg
      · rfl
      · rfl

/-- A character that is not in the table is looked up when the functions stop there. -/
theorem scan_bad (hb : BadEnd nptr base) : scan l nptr base = .error .deref := by
  rw [scan_eq, lookup_bad hb]

/-- Both functions convert as they should when they do not stop at a character that is not in the
table, and take no `0x` for a prefix that has no digit behind it. -/
theorem strtol_iff (nptr : List Byte) (base : ℕ) :
    (strtol nptr base = .ok (strtolSpec nptr base) ↔
      ¬ BadEnd nptr base ∧ ¬ EmptyHex nptr base) ∧
    (strtoul nptr base = .ok (strtoulSpec nptr base) ↔
      ¬ BadEnd nptr base ∧ ¬ EmptyHex nptr base) := by
  by_cases hb : BadEnd nptr base
  · have hl : strtol nptr base = .error .deref := by
      rw [strtol, scan_bad hb]
      rfl
    have hu : strtoul nptr base = .error .deref := by
      rw [strtoul, scan_bad hb]
      rfl
    rw [hl, hu]
    simp [hb]
  · by_cases hx : EmptyHex nptr base
    · -- the number is 0, but the pointer is set to the start of the string
      obtain ⟨v, endptr, hp, hne⟩ := parse_emptyHex hx
      obtain ⟨e, hl⟩ := scan_emptyHex (l := longLimit) hx hb
      obtain ⟨e', hu⟩ := scan_emptyHex (l := fun _ => ulongMax) hx hb
      constructor
      · refine ⟨fun h => ?_, fun h => absurd hx h.2⟩
        rw [strtol, hl, strtolSpec, hp] at h
        have he := congrArg Result.endptr (Except.ok.inj h)
        exact absurd he.symm hne
      · refine ⟨fun h => ?_, fun h => absurd hx h.2⟩
        rw [strtoul, hu, strtoulSpec, hp] at h
        have he := congrArg Result.endptr (Except.ok.inj h)
        exact absurd he.symm hne
    · exact ⟨iff_of_true (strtol_eq hx hb) ⟨hb, hx⟩,
        iff_of_true (strtoul_eq hx hb) ⟨hb, hx⟩⟩

example : strtol [0x20, 0x2D, 0x30, 0x78, 0x61, 0x7A] 16 = .ok ⟨-10, [0x7A], false⟩ := by
  decide

/-- Of `0xg`, the digit 0 is to be taken. -/
theorem strtol_emptyHex : strtol [0x30, 0x78, 0x67] 16 = .ok ⟨0, [0x30, 0x78, 0x67], false⟩ ∧
    strtolSpec [0x30, 0x78, 0x67] 16 = ⟨0, [0x78, 0x67], false⟩ := by
  decide

end Results

end Strtol
