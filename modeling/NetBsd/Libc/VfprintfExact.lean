import Mathlib
import NetBsd.Libc.VfprintfScan

/-!
# vfprintf and the standard

`vfprintf` counts the sign or the prefix of a number among the digits that the precision asks for,
so that a number with both has too few zeros; and `%#.0o` of zero has none at all. What it writes
differs from what the standard prescribes by these zeros, and only by them.

## Main definitions

* `Conversion.lacks`: the zeros that the code does not write

## Main results

* `digits_eq_written`: the standard's digits are the code's behind the missing zeros
* `vfprintf_ansi_iff`: what is written is what the standard prescribes exactly for exact numbers
-/

namespace Vfprintf

variable {c : Conversion} {args : List Arg}

/-! ## What is missing -/

/-- The zeros that the code does not write. -/
def Conversion.missing (c : Conversion) (base : Base) (upper : Bool) (n : ℕ) : ℕ :=
  if base = .OCT ∧ c.alt ∧ n = 0 ∧ c.prec = some 0 then 1
  else
    let len := max 1 (digitsOf base upper n).length
    (c.prec.getD 0 - len) - (c.prec.getD 0 - (len + c.pre.length))

theorem zeros_add (a b : ℕ) : zeros (a + b) = zeros a ++ zeros b :=
  List.replicate_add a b '0'

theorem zeros_append_cons (a : ℕ) (l : List Char) : zeros a ++ '0' :: l = zeros (a + 1) ++ l := by
  rw [zeros_add, List.append_assoc]
  rfl

/-- The same digits behind more zeros. -/
theorem zeros_missing {a b : ℕ} (h : b ≤ a) (l : List Char) :
    zeros a ++ l = zeros (a - b) ++ (zeros b ++ l) := by
  rw [← List.append_assoc, ← zeros_add, Nat.sub_add_cancel h]

theorem digits_eq_written (c : Conversion) (base : Base) (upper : Bool) (n : ℕ)
    (hpre : base = .OCT → c.pre = []) :
    c.digits base upper n = zeros (c.missing base upper n) ++ c.written base upper n := by
  unfold Conversion.digits Conversion.written Conversion.missing converted
  dsimp only
  by_cases hn : n = 0
  · subst hn
    rw [digitsOf_zero]
    cases hprec : c.prec with
    | none =>
      by_cases hoct : base = .OCT ∧ c.alt = true
      · simp [hoct, zeros]
      · simp [zeros]
    | some p =>
      cases p with
      | zero =>
        by_cases hoct : base = .OCT ∧ c.alt = true
        · simp [hoct, zeros]
        · have hcond : ∀ P : Prop, ¬(base = .OCT ∧ c.alt = true ∧ P) :=
            fun P h => hoct ⟨h.1, h.2.1⟩
          rw [if_neg (hcond _), if_neg (hcond _)]
          simp [zeros]
      | succ p =>
        have hcore : zeros (p + 1 - 0) ++ ([] : List Char) = zeros p ++ ['0'] := by
          rw [zeros_append_cons]
          rfl
        have hhead : (zeros p ++ ['0']).head? = some '0' := by
          cases p <;> rfl
        have hlen : p + 1 - max 1 0 = p := by omega
        have hpre : p + 1 - (max 1 0 + c.pre.length) = p - c.pre.length := by omega
        have hpre' : p + 1 - (0 + 1 + c.pre.length) = p - c.pre.length := by omega
        simp only [Option.getD_some, List.length_nil, ne_eq, not_true_eq_false, and_false,
          if_false, Option.some.injEq, Nat.succ_ne_zero, not_false_eq_true, or_true, if_true,
          List.head?_cons, List.length_cons, hcore, hhead, hlen, hpre, hpre']
        exact zeros_missing (Nat.sub_le _ _) _
  · have hlen := digitsOf_pos base upper hn
    have hhead := digitsOf_head base upper hn
    have hmax : max 1 (digitsOf base upper n).length = (digitsOf base upper n).length := by omega
    have hnot : ¬(base = .OCT ∧ c.alt = true ∧ n = 0 ∧ c.prec = some 0) := fun h => hn h.2.2.1
    have hor : n ≠ 0 ∨ c.prec ≠ some 0 := .inl hn
    have hone : c.prec.getD 1 - (digitsOf base upper n).length =
        c.prec.getD 0 - (digitsOf base upper n).length := by
      cases c.prec with
      | none =>
        simp only [Option.getD_none]
        omega
      | some p => rfl
    rw [if_neg hnot, if_pos hor, if_neg hn, hmax, hone]
    by_cases hoct : base = .OCT ∧ c.alt = true
    · have hcond : base = .OCT ∧ c.alt = true ∧ (digitsOf base upper n).head? ≠ some '0' :=
        ⟨hoct.1, hoct.2, hhead⟩
      rw [if_pos hcond, hpre hoct.1, List.length_nil, Nat.add_zero, Nat.add_zero, Nat.sub_self]
      by_cases hmore : c.prec.getD 0 ≤ (digitsOf base upper n).length
      · have hnone : c.prec.getD 0 - (digitsOf base upper n).length = 0 := by omega
        have hnone' : c.prec.getD 0 - ('0' :: digitsOf base upper n).length = 0 := by
          rw [List.length_cons]
          omega
        rw [hnone, hnone', if_pos]
        · rfl
        · exact hcond
      · obtain ⟨k, hk⟩ : ∃ k, c.prec.getD 0 - (digitsOf base upper n).length = k + 1 :=
          ⟨_, (Nat.sub_add_cancel (by omega)).symm⟩
        have hk' : c.prec.getD 0 - ('0' :: digitsOf base upper n).length = k := by
          rw [List.length_cons]
          omega
        rw [hk, hk', zeros_append_cons, if_neg]
        · rfl
        · exact fun h => h.2.2 rfl
    · have hcond : ∀ P : Prop, ¬(base = .OCT ∧ c.alt = true ∧ P) := fun P h => hoct ⟨h.1, h.2.1⟩
      rw [if_neg (hcond _), if_neg (hcond _)]
      exact zeros_missing (by omega) _

theorem missing_eq_zero_iff (c : Conversion) (base : Base) (upper : Bool) (n : ℕ) :
    c.missing base upper n = 0 ↔
      (c.pre = [] ∨ c.prec.getD 0 ≤ max 1 (digitsOf base upper n).length) ∧
        ¬(base = .OCT ∧ c.alt ∧ n = 0 ∧ c.prec = some 0) := by
  rw [← List.length_eq_zero_iff]
  unfold Conversion.missing
  split_ifs with h
  · simp [h]
  · simp only [h, not_false_eq_true, and_true]
    omega

theorem missing_of_zeroPads {base : Base} {upper : Bool} {n : ℕ} (h : c.prec.isNone = true) :
    c.missing base upper n = 0 := by
  rw [Option.isNone_iff_eq_none] at h
  simp [Conversion.missing, h]

/-- The zeros that a conversion lacks. -/
def Conversion.lacks (c : Conversion) : ℕ :=
  match c.value with
  | .signed z => c.missing .DEC false z.natAbs
  | .unsigned base upper n => c.missing base upper n
  | .text _ => 0

theorem lacks_eq_zero_iff (c : Conversion) : c.lacks = 0 ↔ c.Exact := by
  unfold Conversion.lacks Conversion.Exact
  cases hv : c.value with
  | signed z =>
    dsimp only
    rw [missing_eq_zero_iff]
    simp
  | text cs => simp
  | unsigned base upper n =>
    dsimp only
    rw [missing_eq_zero_iff, and_congr_left_iff]
    intro _
    apply or_congr_right'
    intro hpre
    have hn : n ≠ 0 := by
      rintro rfl
      apply hpre
      cases base <;> simp [Conversion.pre, hv]
    have hpos := digitsOf_pos base upper hn
    rw [show max 1 (digitsOf base upper n).length = (digitsOf base upper n).length by omega]

theorem count_layout (minus : Bool) (w : ℕ) (pre body : List Char) :
    (layout minus false w pre body).count '0' = pre.count '0' + body.count '0' := by
  have hblanks : ∀ n, (blanks n).count '0' = 0 := by
    intro n
    rw [blanks, List.count_replicate]
    rfl
  unfold layout
  dsimp only
  cases minus <;> simp [hblanks]

/-- What is missing are zeros, one by one. -/
theorem ansi_code (c : Conversion) :
    c.code.length ≤ c.ansi.length ∧ c.ansi.count '0' = c.lacks + c.code.count '0' ∧
      (c.lacks = 0 → c.ansi = c.code) := by
  have hnumber : ∀ base upper n, (base = .OCT → c.pre = []) → c.body = c.digits base upper n →
      c.zeroPads = (c.zero && c.prec.isNone) →
      c.lacks = c.missing base upper n →
      c.code = layout c.minus c.zeroPads c.width c.pre (c.written base upper n) →
      c.code.length ≤ c.ansi.length ∧ c.ansi.count '0' = c.lacks + c.code.count '0' ∧
        (c.lacks = 0 → c.ansi = c.code) := by
    intro base upper n hpre hbody hpads hlacks hcode
    rw [digits_eq_written c base upper n hpre, ← hlacks] at hbody
    have hsame : c.lacks = 0 → c.ansi = c.code := by
      intro hnone
      rw [hnone] at hbody
      rw [Conversion.ansi, hbody, hcode]
      rfl
    refine ⟨?_, ?_, hsame⟩
    · rw [Conversion.ansi, hcode, length_layout, length_layout, hbody, List.length_append]
      omega
    · cases hz : c.zeroPads with
      | false =>
        rw [Conversion.ansi, hcode, hz, count_layout, count_layout, hbody, List.count_append, zeros,
          List.count_replicate_self]
        omega
      | true =>
        have hprec : c.prec.isNone = true := by
          rw [hpads, Bool.and_eq_true] at hz
          exact hz.2
        have hnone : c.lacks = 0 := by rw [hlacks, missing_of_zeroPads hprec]
        rw [hsame hnone, hnone, Nat.zero_add]
  cases hv : c.value with
  | text cs =>
    have hsame : c.ansi = c.code := by
      simp only [Conversion.ansi, Conversion.body, Conversion.code, hv]
    have hnone : c.lacks = 0 := by simp only [Conversion.lacks, hv]
    rw [hsame, hnone]
    exact ⟨le_refl _, (Nat.zero_add _).symm, fun _ => rfl⟩
  | signed z =>
    apply hnumber .DEC false z.natAbs
    · exact fun h => absurd h (by decide)
    · simp only [Conversion.body, hv]
    · simp only [Conversion.zeroPads, hv]
    · simp only [Conversion.lacks, hv]
    · simp only [Conversion.code, hv]
  | unsigned base upper n =>
    apply hnumber base upper n
    · intro hoct
      simp only [Conversion.pre, hv, hoct]
    · simp only [Conversion.body, hv]
    · simp only [Conversion.zeroPads, hv]
    · simp only [Conversion.lacks, hv]
    · simp only [Conversion.code, hv]

/-- The zeros that are missing in all. -/
def lacksAll (items : List Item) : ℕ :=
  (items.map fun
    | .ordinary _ => 0
    | .conversion c => c.lacks).sum

theorem ansi_code_all (items : List Item) :
    (items.flatMap Item.code).length ≤ (items.flatMap Item.ansi).length ∧
      (items.flatMap Item.ansi).count '0' =
        lacksAll items + (items.flatMap Item.code).count '0' ∧
      (lacksAll items = 0 ↔ ∀ i ∈ items, i.Exact) ∧
      (lacksAll items = 0 → items.flatMap Item.ansi = items.flatMap Item.code) := by
  induction items with
  | nil => simp [lacksAll]
  | cons i items ih =>
    obtain ⟨hlen, hcount, hexact, hsame⟩ := ih
    rw [List.flatMap_cons, List.flatMap_cons, List.length_append, List.length_append,
      List.count_append, List.count_append, List.forall_mem_cons]
    cases i with
    | ordinary ch =>
      have hall : lacksAll (.ordinary ch :: items) = lacksAll items := by simp [lacksAll]
      rw [hall, hcount]
      refine ⟨Nat.add_le_add (le_refl _) hlen, ?_, ?_, ?_⟩
      · exact Nat.add_left_comm _ _ _
      · rw [hexact]
        exact (and_iff_right trivial).symm
      · intro hnone
        rw [hsame hnone]
        rfl
    | conversion c =>
      obtain ⟨hclen, hccount, hcsame⟩ := ansi_code c
      have hall : lacksAll (.conversion c :: items) = c.lacks + lacksAll items := by
        simp [lacksAll]
      rw [hall, hcount, Nat.add_eq_zero_iff]
      refine ⟨Nat.add_le_add hclen hlen, ?_, ?_, ?_⟩
      · change c.ansi.count '0' + _ = _ + (c.code.count '0' + _)
        omega
      · rw [hexact, lacks_eq_zero_iff]
        rfl
      · rintro ⟨hnone, hrest⟩
        change c.ansi ++ _ = c.code ++ _
        rw [hcsame hnone, hsame hrest]

/-- `vfprintf` writes what the standard prescribes, and returns how many characters that are, exactly
when every number with a sign or prefix has the digits that its precision asks for, and no octal
zero is written with `#` and a precision of zero. -/
theorem vfprintf_ansi_iff {ps : List Piece} {items : List Item}
    (h : resolveAll ps args = some items) (hb : ∀ i ∈ items, i.Bounded)
    (hlt : (items.flatMap Item.ansi).length < 2 ^ 31) :
    ∃ o, vfprintf (render ps) args = some o ∧ o.ret = o.out.length ∧
      ((o.out = items.flatMap Item.ansi ∧ o.ret = (items.flatMap Item.ansi).length) ↔
        ∀ i ∈ items, i.Exact) := by
  obtain ⟨hlen, hcount, hexact, hsame⟩ := ansi_code_all items
  have hscan := @scan_render args ⟨[], 0⟩ ps items h hb rfl (lt_of_le_of_lt hlen hlt)
  refine ⟨_, hscan, rfl, ?_⟩
  dsimp only
  rw [List.nil_append, ← hexact]
  constructor
  · rintro ⟨hout, -⟩
    rw [hout] at hcount
    omega
  · intro hnone
    rw [hsame hnone]
    exact ⟨rfl, rfl⟩

/-- `%-6.1d` of -7, behind an ordinary character -/
theorem vfprintf_minus : ∃ o, vfprintf (render [.ordinary ⟨'a', by decide⟩,
      .directive ⟨[.minus], some (.digits 5 []), some (.digits [1]), none, .d⟩]) [.int (-7)] =
      some o ∧ o.ret = o.out.length ∧
    ((o.out = ['a', '-', '7', ' ', ' ', ' ', ' '] ∧ o.ret = 7) ↔
      (Conversion.mk true false false false false 6 (some 1) (.signed (-7))).Exact) := by
  obtain ⟨o, ho, hret, hiff⟩ := @vfprintf_ansi_iff [.int (-7)]
    [.ordinary ⟨'a', by decide⟩,
      .directive ⟨[.minus], some (.digits 5 []), some (.digits [1]), none, .d⟩]
    [.ordinary 'a', .conversion ⟨true, false, false, false, false, 6, some 1, .signed (-7)⟩] rfl
    (by simp [Item.Bounded]) (by decide)
  refine ⟨o, ho, hret, ?_⟩
  have hansi : ([.ordinary 'a', .conversion ⟨true, false, false, false, false, 6, some 1,
      .signed (-7)⟩] : List Item).flatMap Item.ansi = ['a', '-', '7', ' ', ' ', ' ', ' '] := by
    decide
  rw [hansi] at hiff
  simpa [Item.Exact] using hiff

/-- `%+.3d` of 5 -/
theorem vfprintf_plus_short : ¬∀ ps args items, resolveAll ps args = some items →
    (∀ i ∈ items, i.Bounded) → (items.flatMap Item.ansi).length < 2 ^ 31 →
    ∃ o, vfprintf (render ps) args = some o ∧ o.out = items.flatMap Item.ansi ∧
      o.ret = (items.flatMap Item.ansi).length := by
  intro hall
  have hansi : ([.conversion ⟨false, true, false, false, false, 0, some 3, .signed 5⟩] :
      List Item).flatMap Item.ansi = ['+', '0', '0', '5'] := by decide
  have hshort := hall [.directive ⟨[.plus], none, some (.digits [3]), none, .d⟩] [.int 5]
    [.conversion ⟨false, true, false, false, false, 0, some 3, .signed 5⟩] rfl
  rw [hansi] at hshort
  obtain ⟨o, ho, hout, -⟩ := hshort (by simp [Item.Bounded]) (by decide)
  have hcode : vfprintf (render [.directive ⟨[.plus], none, some (.digits [3]), none, .d⟩])
      [.int 5] = some ⟨['+', '0', '5'], 3⟩ := by decide
  rw [hcode] at ho
  rw [← Option.some.inj ho] at hout
  exact absurd hout (by decide)

end Vfprintf
