import Mathlib
import NetBsd.Libc.VfprintfAnsi

/-!
# The fields of vfprintf

What the code writes for one conversion: the digits are those of the number, but the sign or prefix
counts among the digits that the precision asks for.

## Main definitions

* `converted`, `Conversion.written`: the characters of a number in the code, without and with zeros
* `Conversion.code`: the whole field

## Main results

* `digits_eq`: the loops produce the digits of the number
* `field_eq`, `number_eq`: how a field is laid out
* `convert_eq`: every conversion writes its field, and returns its length
-/

namespace Vfprintf

/-! ## Digits -/

variable {base : Base} {upper : Bool} {n : ℕ} {cp : List Char}

theorem one_lt_radix (base : Base) : 1 < base.radix := by
  cases base <;> decide

theorem doDigits_eq {b fuel : ℕ} (hb : 1 < b) (hn : n ≠ 0) (hlt : n < b ^ fuel) :
    doDigits b upper fuel n cp = (Nat.digits b n).reverse.map (xdigit upper) ++ cp := by
  induction fuel generalizing n cp with
  | zero =>
    rw [pow_zero] at hlt
    omega
  | succ fuel ih =>
    rw [Nat.digits_def' hb (Nat.pos_of_ne_zero hn), doDigits]
    split_ifs with hrest
    · rw [ih hrest (Nat.div_lt_of_lt_mul (by rwa [pow_succ, mul_comm] at hlt))]
      simp
    · rw [not_not] at hrest
      simp [hrest]

theorem whileDigits_eq {fuel : ℕ} (hn : n ≠ 0) (hlt : n < 10 ^ fuel) :
    whileDigits fuel n cp = (Nat.digits 10 n).reverse.map (xdigit false) ++ cp := by
  induction fuel generalizing n cp with
  | zero =>
    rw [pow_zero] at hlt
    omega
  | succ fuel ih =>
    rw [Nat.digits_def' (by decide) (Nat.pos_of_ne_zero hn), whileDigits]
    split_ifs with hten
    · rw [ih (by omega) (by rw [pow_succ] at hlt; omega)]
      simp
    · have hrest : n / 10 = 0 := by omega
      have hdigit : n % 10 = n := by omega
      simp [hrest, hdigit]

/-- The digits that are written when the precision is not zero. -/
theorem digits_eq (alt : Bool) (v : BitVec 32) (hup : base ≠ .HEX → upper = false) :
    digits alt base upper v.toNat =
      let cp := if v.toNat = 0 then ['0'] else digitsOf base upper v.toNat
      if base = .OCT ∧ alt ∧ cp.head? ≠ some '0' then '0' :: cp else cp := by
  have hlt : v.toNat < 2 ^ 32 := v.isLt
  have hdo : ∀ b u, 8 ≤ b → doDigits b u 32 v.toNat [] =
      if v.toNat = 0 then ['0'] else (Nat.digits b v.toNat).reverse.map (xdigit u) := by
    intro b u hb
    split_ifs with hzero
    · rw [hzero, doDigits, Nat.zero_mod, Nat.zero_div]
      cases u <;> rfl
    · have hpow : 8 ^ 32 ≤ b ^ 32 := Nat.pow_le_pow_left hb 32
      rw [doDigits_eq (by omega) hzero (by omega), List.append_nil]
  have hwhile : whileDigits 32 v.toNat [] =
      if v.toNat = 0 then ['0'] else (Nat.digits 10 v.toNat).reverse.map (xdigit false) := by
    split_ifs with hzero
    · rw [hzero]
      rfl
    · rw [whileDigits_eq hzero (by omega), List.append_nil]
  unfold digits digitsOf
  cases base with
  | OCT =>
    rw [hup (by decide)]
    simp only [hdo 8 false (le_refl _), Base.radix, true_and]
  | DEC =>
    rw [hup (by decide)]
    simpa [Base.radix] using hwhile
  | HEX => simpa [Base.radix] using hdo 16 upper (by decide)

theorem digitsOf_head (base : Base) (upper : Bool) (hn : n ≠ 0) :
    (digitsOf base upper n).head? ≠ some '0' := by
  have hne : Nat.digits base.radix n ≠ [] := Nat.digits_ne_nil_iff_ne_zero.mpr hn
  have hlast := Nat.getLast_digit_ne_zero base.radix hn
  have hlt := Nat.digits_lt_base (one_lt_radix base) (List.getLast_mem hne)
  have hradix : base.radix ≤ 16 := by cases base <;> decide
  have hnot : ∀ u : Bool, ∀ d < 16, d ≠ 0 → xdigit u d ≠ '0' := by decide
  unfold digitsOf
  rw [List.head?_map, List.head?_reverse, List.getLast?_eq_some_getLast hne, Option.map_some]
  intro heq
  exact hnot upper _ (by omega) hlast (Option.some.inj heq)

theorem digitsOf_pos (base : Base) (upper : Bool) (hn : n ≠ 0) :
    0 < (digitsOf base upper n).length := by
  rw [digitsOf, List.length_map, List.length_reverse, List.length_pos_iff]
  exact Nat.digits_ne_nil_iff_ne_zero.mpr hn

theorem digitsOf_zero (base : Base) (upper : Bool) : digitsOf base upper 0 = [] := by
  simp [digitsOf]

/-! ## Fields -/

theorem length_layout (minus zero : Bool) (width : ℕ) (pre body : List Char) :
    (layout minus zero width pre body).length = max width (pre.length + body.length) := by
  unfold layout zeros blanks
  dsimp only
  split_ifs <;> simp only [List.length_append, List.length_replicate] <;> omega

/-- What stands before the digits. -/
def prefixOf (f : Fields) (ch : Char) : List Char :=
  match f.sign with
  | some sign => [sign]
  | none => if f.hexprefix then ['0', ch] else []

theorem field_eq (f : Fields) (dprec : ℤ) (ch : Char) (cp : List Char) (args : List Arg) {w : ℕ}
    (hw : f.width = w) :
    let body := zeros (dprec - (cp.length + (prefixOf f ch).length)).toNat ++ cp
    field f dprec ch cp args =
      .put (layout f.ladjust f.zeropad w (prefixOf f ch) body)
        (layout f.ladjust f.zeropad w (prefixOf f ch) body).length args := by
  intro body
  have hsize : (cp.length : ℤ) + (if f.sign.isSome then 1 else if f.hexprefix then 2 else 0) =
      cp.length + (prefixOf f ch).length := by
    unfold prefixOf
    cases f.sign <;> cases f.hexprefix <;> rfl
  have hbody : body.length =
      (dprec - (cp.length + (prefixOf f ch).length)).toNat + cp.length := by
    simp [body, zeros]
  have hreal : (if dprec > cp.length + (prefixOf f ch).length then dprec
      else (cp.length : ℤ) + (prefixOf f ch).length) =
      ((prefixOf f ch).length + body.length : ℕ) := by
    split_ifs <;> omega
  have hpad : ((w : ℤ) - ((prefixOf f ch).length + body.length : ℕ)).toNat =
      w - ((prefixOf f ch).length + body.length) := by
    omega
  unfold field
  dsimp only
  rw [hsize, hreal, hw, length_layout, Next.put.injEq]
  refine ⟨?_, ?_, rfl⟩
  · change _ ++ prefixOf f ch ++ _ ++ _ ++ _ ++ _ = _
    unfold pad layout
    rw [hpad]
    cases f.ladjust <;> cases f.zeropad <;>
      simp only [body, zeros, blanks, List.append_assoc, List.nil_append, List.append_nil, if_true,
        if_false, Bool.true_eq_false, Bool.false_eq_true, and_self, and_true, and_false]
  · split_ifs <;> push_cast <;> omega

/-- The characters of a number in the code: none for a zero with a precision of zero. -/
def converted (alt : Bool) (prec : Option ℕ) (base : Base) (upper : Bool) (n : ℕ) : List Char :=
  if n ≠ 0 ∨ prec ≠ some 0 then
    let cp := if n = 0 then ['0'] else digitsOf base upper n
    if base = .OCT ∧ alt ∧ cp.head? ≠ some '0' then '0' :: cp else cp
  else []

/-- The number as the code writes it: the prefix counts as digits. -/
def Conversion.written (c : Conversion) (base : Base) (upper : Bool) (n : ℕ) : List Char :=
  let cp := converted c.alt c.prec base upper n
  zeros (c.prec.getD 0 - (cp.length + c.pre.length)) ++ cp

/-- What `prec` holds. -/
def precInt (prec : Option ℕ) : ℤ := (prec.map (Nat.cast : ℕ → ℤ)).getD (-1)

theorem number_eq (f : Fields) (ch : Char) (base : Base) (upper : Bool) (v : BitVec 32)
    (args : List Arg) {w : ℕ} {prec : Option ℕ} (hw : f.width = w) (hprec : f.prec = precInt prec)
    (hup : base ≠ .HEX → upper = false) :
    let cp := converted f.alt prec base upper v.toNat
    let body := zeros (prec.getD 0 - (cp.length + (prefixOf f ch).length)) ++ cp
    let out := layout f.ladjust (f.zeropad && prec.isNone) w (prefixOf f ch) body
    number f ch base upper v args = .put out out.length args := by
  intro cp body out
  have hzero : v ≠ 0 ↔ v.toNat ≠ 0 := by
    rw [not_iff_not]
    exact ⟨fun h => by rw [h]; rfl, fun h => BitVec.eq_of_toNat_eq h⟩
  have hpzero : f.prec ≠ 0 ↔ prec ≠ some 0 := by
    rw [hprec, precInt]
    cases prec <;> simp
  have hcp : (if v ≠ 0 ∨ f.prec ≠ 0 then digits f.alt base upper v.toNat else []) = cp := by
    rw [digits_eq f.alt v hup]
    simp only [hzero, hpzero]
    rfl
  have hzeros : ∀ k : ℕ, (f.prec - k).toNat = prec.getD 0 - k := by
    intro k
    rw [hprec, precInt]
    cases prec with
    | none =>
      simp only [Option.map_none, Option.getD_none]
      omega
    | some p =>
      simp only [Option.map_some, Option.getD_some]
      omega
  unfold number
  dsimp only
  by_cases hp : 0 ≤ f.prec
  · have hsome : prec.isNone = false := by
      cases prec with
      | none => simp [hprec, precInt] at hp
      | some p => rfl
    rw [if_pos hp, hcp, field_eq { f with zeropad := false } f.prec ch cp args hw]
    simp only [← Nat.cast_add, hzeros, out, body, hsome, Bool.and_false]
    rfl
  · have hnone : prec.isNone = true := by
      cases prec with
      | none => rfl
      | some p => simp [hprec, precInt] at hp
    rw [if_neg hp, hcp, field_eq f f.prec ch cp args hw]
    simp only [← Nat.cast_add, hzeros, out, body, hnone, Bool.and_true]

/-! ## Conversions -/

/-- What `flags`, `width`, `prec` and `sign` hold in front of the letter. -/
def Conversion.fields (c : Conversion) (m : Option Modifier) : Fields where
  ladjust := c.minus
  zeropad := c.zero
  alt := c.alt
  hexprefix := false
  longint := decide (m = some .l)
  shortint := decide (m = some .h)
  width := c.width
  prec := precInt c.prec
  sign := if c.plus then some '+' else if c.space then some ' ' else none

/-- The field as the code writes it. -/
def Conversion.code (c : Conversion) : List Char :=
  layout c.minus c.zeroPads c.width c.pre
    (match c.value with
      | .signed z => c.written .DEC false z.natAbs
      | .unsigned base upper n => c.written base upper n
      | .text cs => cs)

variable {c : Conversion} {m : Option Modifier} {args args' : List Arg}

theorem sarg_toInt (c : Conversion) (v : BitVec 32) :
    (sarg (c.fields m) v).toInt = signedArg m v := by
  unfold sarg signedArg Conversion.fields
  rcases m with _ | _ | _
  · rfl
  · simp only [reduceCtorEq, Option.some.injEq, decide_false, decide_true, Bool.false_eq_true,
      if_false, if_true]
    exact BitVec.toInt_signExtend_of_le (by decide)
  · rfl

theorem uarg_toNat (c : Conversion) (v : BitVec 32) :
    (uarg (c.fields m) v).toNat = unsignedArg m v := by
  unfold uarg unsignedArg Conversion.fields
  rcases m with _ | _ | _
  · rfl
  · have hlt : v.toNat % 2 ^ 16 < 2 ^ 32 := by omega
    simpa using hlt
  · rfl

theorem signed_eq {z : ℤ} {v : BitVec 32} (ch : Char) (hv : c.value = .signed z)
    (hz : z = signedArg m v) :
    signed (c.fields m) ch v args = .put c.code c.code.length args := by
  have hcode : c.code = layout c.minus (c.zero && c.prec.isNone) c.width c.pre
      (c.written .DEC false z.natAbs) := by
    simp only [Conversion.code, Conversion.zeroPads, hv]
  have hpre : c.pre = if z < 0 then ['-'] else if c.plus then ['+'] else if c.space then [' ']
      else [] := by
    simp only [Conversion.pre, hv]
  have htoInt := @sarg_toInt m c v
  rw [← hz] at htoInt
  unfold signed
  dsimp only
  rw [htoInt, hcode]
  unfold Conversion.written
  split_ifs with hneg
  · have habs : (-sarg (c.fields m) v).toNat = z.natAbs := by
      rw [BitVec.toNat_neg]
      have hnat := BitVec.toInt_eq_toNat_cond (sarg (c.fields m) v)
      have hlt := (sarg (c.fields m) v).isLt
      split_ifs at hnat <;> omega
    have hnum := @number_eq { c.fields m with sign := some '-' } ch .DEC false
      (-sarg (c.fields m) v) args c.width c.prec rfl rfl (fun _ => rfl)
    rw [habs] at hnum
    have hminus : c.pre = prefixOf { c.fields m with sign := some '-' } ch := by
      rw [hpre, if_pos hneg]
      rfl
    rw [hminus]
    exact hnum
  · have habs : (sarg (c.fields m) v).toNat = z.natAbs := by
      have hnat := BitVec.toInt_eq_toNat_cond (sarg (c.fields m) v)
      split_ifs at hnat <;> omega
    have hnum := @number_eq (c.fields m) ch .DEC false (sarg (c.fields m) v) args c.width c.prec
      rfl rfl (fun _ => rfl)
    rw [habs] at hnum
    have hsign : c.pre = prefixOf (c.fields m) ch := by
      rw [hpre, if_neg hneg]
      unfold prefixOf Conversion.fields
      cases c.plus <;> cases c.space <;> rfl
    rw [hsign]
    exact hnum

theorem nosign_eq {base : Base} {upper : Bool} {v : BitVec 32} (f : Fields) (ch : Char)
    (hv : c.value = .unsigned base upper v.toNat) (hup : base ≠ .HEX → upper = false)
    (hf : { f with hexprefix := false } = c.fields m)
    (hpre : c.pre = if f.hexprefix then ['0', ch] else []) :
    nosign f ch base upper v args = .put c.code c.code.length args := by
  have hcode : c.code = layout c.minus (c.zero && c.prec.isNone) c.width c.pre
      (c.written base upper v.toNat) := by
    simp only [Conversion.code, Conversion.zeroPads, hv]
  have hwidth : f.width = c.width := congrArg Fields.width hf
  have hprec : f.prec = precInt c.prec := congrArg Fields.prec hf
  have hminus : f.ladjust = c.minus := congrArg Fields.ladjust hf
  have hzero : f.zeropad = c.zero := congrArg Fields.zeropad hf
  have halt : f.alt = c.alt := congrArg Fields.alt hf
  have hnum := @number_eq { f with sign := none } ch base upper v args c.width c.prec hwidth hprec hup
  have hlead : prefixOf { f with sign := none } ch = c.pre := by
    rw [hpre]
    rfl
  refine hnum.trans ?_
  dsimp only
  rw [hlead, hminus, hzero, halt, hcode]
  rfl

theorem hex_eq {upper : Bool} {v : BitVec 32} {k : ℕ}
    (hv : c.value = .unsigned .HEX upper k) (hk : k = unsignedArg m v) :
    hex (c.fields m) (if upper then 'X' else 'x') upper v args =
      .put c.code c.code.length args := by
  have hn := @uarg_toNat m c v
  rw [← hk] at hn
  have hzero : uarg (c.fields m) v ≠ 0 ↔ k ≠ 0 := by
    rw [← hn, not_iff_not]
    exact ⟨fun h => by rw [h]; rfl, fun h => BitVec.eq_of_toNat_eq h⟩
  have hpre : c.pre = if c.alt ∧ k ≠ 0 then ['0', if upper then 'X' else 'x'] else [] := by
    simp only [Conversion.pre, hv]
  unfold hex
  dsimp only
  apply nosign_eq (m := m)
  · rw [hv, hn]
  · exact fun h => absurd rfl h
  · split_ifs <;> rfl
  · have hcond : ((c.fields m).alt = true ∧ uarg (c.fields m) v ≠ 0) ↔ c.alt = true ∧ k ≠ 0 :=
      and_congr_right fun _ => hzero
    rw [hpre]
    simp only [hcond]
    by_cases hc : c.alt = true ∧ k ≠ 0
    · rw [if_pos hc, if_pos hc]
      rfl
    · rw [if_neg hc, if_neg hc]
      rfl

theorem text_eq {cs : List Char} (f : Fields) (ch : Char) (hv : c.value = .text cs)
    (hf : f = { c.fields m with sign := none }) :
    field f 0 ch cs args = .put c.code c.code.length args := by
  have hcode : c.code = layout c.minus c.zero c.width [] cs := by
    simp only [Conversion.code, Conversion.zeroPads, Conversion.pre, hv]
  have hfield := field_eq f 0 ch cs args (w := c.width) (by rw [hf]; rfl)
  have hpre : prefixOf f ch = [] := by
    rw [hf]
    rfl
  have hnone : ((0 : ℤ) - (cs.length + (prefixOf f ch).length)).toNat = 0 := by omega
  rw [hpre] at hnone hfield
  dsimp only at hfield
  rw [hnone] at hfield
  rw [hfield, hcode, hf]
  rfl

theorem take_idxOf (l : List Char) : l.take (l.idxOf nul) = l.takeWhile (· ≠ nul) := by
  induction l with
  | nil => rfl
  | cons a l ih =>
    by_cases ha : a = nul
    · simp [ha]
    · rw [List.idxOf_cons_ne _ ha, List.take_succ_cons, ih]
      simp [ha]

/-- `%s` writes the characters up to the NUL, or as many as the precision says. -/
theorem take_strSize (prec : Option ℕ) (mem : List Char) :
    mem.take (strSize (precInt prec) mem) =
      ((prec.map mem.take).getD mem).takeWhile (· ≠ nul) := by
  cases prec with
  | none => exact take_idxOf mem
  | some p =>
    have hpos : (0 : ℤ) ≤ precInt (some p) := Int.natCast_nonneg p
    have hnat : (precInt (some p)).toNat = p := Int.toNat_natCast p
    unfold strSize
    dsimp only
    rw [if_pos hpos, hnat, Option.map_some, Option.getD_some, ← take_idxOf]
    split_ifs with hmem
    · have hlt := List.idxOf_lt_length_of_mem hmem
      rw [List.length_take] at hlt
      rw [List.take_take, Nat.min_eq_left (by omega)]
    · rw [List.idxOf_eq_length hmem, List.take_length]

theorem convert_eq {conv : Conv} {value : Value}
    (h : resolveValue m c.prec args conv = some (value, args')) (hv : c.value = value) :
    convert (c.fields m) args conv.char = some (.put c.code c.code.length args') := by
  cases conv with
  | percent =>
    simp only [resolveValue, Option.some.injEq, Prod.mk.injEq] at h
    rw [← h.2]
    have hconv : convert (c.fields m) args '%' = some (chr (c.fields m) '%' args) := by
      unfold convert
      split <;> first | rfl | simp_all
    exact hconv.trans (congrArg some (text_eq _ 'c' (hv.trans h.1.symm) rfl))
  | s =>
    rcases args with _ | ⟨_ | mem, args⟩
    · cases h
    · cases h
    · simp only [resolveValue] at h
      split_ifs at h
      simp only [Option.some.injEq, Prod.mk.injEq] at h
      rw [← h.2]
      have hconv : convert (c.fields m) (.str mem :: args) 's' =
          some (str (c.fields m) mem args) := rfl
      refine hconv.trans (congrArg some (text_eq _ 's' ?_ rfl))
      rw [hv, ← h.1, ← take_strSize]
      rfl
  | c =>
    rcases args with _ | ⟨v | _, args⟩
    · cases h
    · obtain ⟨rfl, rfl⟩ := Prod.mk.inj (Option.some.inj h)
      exact congrArg some (text_eq _ 'c' hv rfl)
    · cases h
  | d =>
    rcases args with _ | ⟨v | _, args⟩
    · cases h
    · obtain ⟨rfl, rfl⟩ := Prod.mk.inj (Option.some.inj h)
      exact congrArg some (signed_eq 'd' hv rfl)
    · cases h
  | i =>
    rcases args with _ | ⟨v | _, args⟩
    · cases h
    · obtain ⟨rfl, rfl⟩ := Prod.mk.inj (Option.some.inj h)
      exact congrArg some (signed_eq 'i' hv rfl)
    · cases h
  | o =>
    rcases args with _ | ⟨v | _, args⟩
    · cases h
    · obtain ⟨rfl, rfl⟩ := Prod.mk.inj (Option.some.inj h)
      rw [← @uarg_toNat m c] at hv
      have hpre : c.pre = [] := by simp only [Conversion.pre, hv]
      exact congrArg some (nosign_eq (c.fields m) 'o' hv (fun _ => rfl) rfl hpre)
    · cases h
  | u =>
    rcases args with _ | ⟨v | _, args⟩
    · cases h
    · obtain ⟨rfl, rfl⟩ := Prod.mk.inj (Option.some.inj h)
      rw [← @uarg_toNat m c] at hv
      have hpre : c.pre = [] := by simp only [Conversion.pre, hv]
      exact congrArg some (nosign_eq (c.fields m) 'u' hv (fun _ => rfl) rfl hpre)
    · cases h
  | x =>
    rcases args with _ | ⟨v | _, args⟩
    · cases h
    · obtain ⟨rfl, rfl⟩ := Prod.mk.inj (Option.some.inj h)
      exact congrArg some (@hex_eq c m args false v _ hv rfl)
    · cases h
  | X =>
    rcases args with _ | ⟨v | _, args⟩
    · cases h
    · obtain ⟨rfl, rfl⟩ := Prod.mk.inj (Option.some.inj h)
      exact congrArg some (@hex_eq c m args true v _ hv rfl)
    · cases h

end Vfprintf
