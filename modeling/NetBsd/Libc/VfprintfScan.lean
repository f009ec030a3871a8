import Mathlib
import NetBsd.Libc.VfprintfFields

/-!
# vfprintf reads its formats

The format of a list of pieces is read as these pieces, each conversion with its arguments.

## Main results

* `scan_flags`, `scan_width`, `scan_prec`, `scan_modifier`: the parts of a conversion
* `scan_directive`: a conversion is read with its flags, width, precision and argument
* `scan_render`: so is the whole format
-/

namespace Vfprintf

variable {c : Conversion} {m : Option Modifier} {args args' : List Arg}

/-! ## The scan -/

variable {f f' : Fields} {o : Out} {ch : Char} {fmt t : List Char} {mode mode' : Mode}

theorem scan_of_scan (h : next f args ch mode = some (.scan mode' f' args')) :
    scan mode f args o (ch :: fmt) = scan mode' f' args' o fmt := by
  rw [scan, h]

theorem scan_of_put {cs : List Char} {k : ℤ} (h : next f args ch mode = some (.put cs k args')) :
    scan mode f args o (ch :: fmt) = scan .text .start args' (o.put cs k) fmt := by
  rw [scan, h]

/-- A flag. -/
def Fields.flag (f : Fields) : Flag → Fields
  | .minus => { f with ladjust := true }
  | .plus => { f with sign := some '+' }
  | .space => { f with sign := if f.sign.isNone then some ' ' else f.sign }
  | .alt => { f with alt := true }
  | .zero => { f with zeropad := true }

theorem scan_flags (flags : List Flag) :
    scan .flag f args o (flags.map Flag.char ++ t) =
      scan .flag (flags.foldl Fields.flag f) args o t := by
  induction flags generalizing f with
  | nil => rfl
  | cons fl flags ih =>
    rw [List.map_cons, List.cons_append, List.foldl_cons, ← ih]
    apply scan_of_scan
    cases fl <;> rfl

theorem foldl_flag (flags : List Flag) (f : Fields) :
    flags.foldl Fields.flag f = { f with
      ladjust := f.ladjust || decide (Flag.minus ∈ flags)
      zeropad := f.zeropad || decide (Flag.zero ∈ flags)
      alt := f.alt || decide (Flag.alt ∈ flags)
      sign := if Flag.plus ∈ flags then some '+' else
        if f.sign.isNone ∧ Flag.space ∈ flags then some ' ' else f.sign } := by
  induction flags generalizing f with
  | nil => simp
  | cons fl flags ih =>
    rw [List.foldl_cons, ih]
    cases fl
    · simp [Fields.flag]
    · simp [Fields.flag]
    · cases hs : f.sign <;> simp [Fields.flag, hs]
    · simp [Fields.flag]
    · simp [Fields.flag]

/-- What stands behind a number in the format. -/
def Behind (t : List Char) : Prop := ∃ ch t', t = ch :: t' ∧ ch.isDigit = false ∧ ch ≠ '*'

theorem isDigit_digitChar (d : Fin 10) :
    (digitChar d).isDigit = true ∧ toDigit (digitChar d) = d.val := by
  revert d
  decide

theorem le_digitsVal (n : ℕ) (ds : List (Fin 10)) : n ≤ digitsVal n ds := by
  induction ds generalizing n with
  | nil => exact le_refl n
  | cons d ds ih =>
    have hnext := ih (10 * n + d.val)
    rw [digitsVal, List.foldl_cons]
    exact le_trans (by omega) hnext

theorem wrap_digit {k : ℕ} {d : Fin 10} {ds : List (Fin 10)} (h : digitsVal k (d :: ds) < 2 ^ 31) :
    wrap (10 * k + toDigit (digitChar d)) = (10 * k + d.val : ℕ) := by
  have hle := le_digitsVal (10 * k + d.val) ds
  have hval : digitsVal k (d :: ds) = digitsVal (10 * k + d.val) ds := rfl
  rw [(isDigit_digitChar d).2, wrap, Int.bmod_eq_of_le] <;> push_cast <;> omega

theorem scan_width_digits (ds : List (Fin 10)) {k : ℕ} (h : digitsVal k ds < 2 ^ 31)
    (ht : Behind t) :
    scan (.width k) f args o (ds.map digitChar ++ t) =
      scan .flag { f with width := digitsVal k ds } args o t := by
  induction ds generalizing k with
  | nil =>
    obtain ⟨ch, t', rfl, hch, -⟩ := ht
    have hnext : next f args ch (.width k) = next { f with width := k } args ch .flag := by
      simp only [next, hch, Bool.false_eq_true, if_false]
    rw [List.map_nil, List.nil_append, scan, hnext]
    rfl
  | cons d ds ih =>
    have hnext : next f args (digitChar d) (.width k) =
        some (.scan (.width (10 * k + d.val : ℕ)) f args) := by
      rw [next, (isDigit_digitChar d).1, wrap_digit h]
      rfl
    rw [List.map_cons, List.cons_append, scan_of_scan hnext]
    exact ih h

theorem scan_prec_digits (ds : List (Fin 10)) {k : ℕ} (h : digitsVal k ds < 2 ^ 31)
    (ht : Behind t) :
    scan (.prec k) f args o (ds.map digitChar ++ t) =
      scan .flag { f with prec := digitsVal k ds } args o t := by
  induction ds generalizing k with
  | nil =>
    obtain ⟨ch, t', rfl, hch, -⟩ := ht
    have hnext : next f args ch (.prec k) = next { f with prec := k } args ch .flag := by
      have hnat : ¬(k : ℤ) < 0 := by omega
      simp only [next, hch, hnat, Bool.false_eq_true, if_false]
    rw [List.map_nil, List.nil_append, scan, hnext]
    rfl
  | cons d ds ih =>
    have hnext : next f args (digitChar d) (.prec k) =
        some (.scan (.prec (10 * k + d.val : ℕ)) f args) := by
      rw [next, (isDigit_digitChar d).1, wrap_digit h]
      rfl
    rw [List.map_cons, List.cons_append, scan_of_scan hnext]
    exact ih h

theorem scan_width {width : Option Width} {w : ℕ} {negative : Bool}
    (h : resolveWidth args width = some (w, negative, args')) (hw : w < 2 ^ 31)
    (hf : f.width = 0) (ht : Behind t) :
    scan .flag f args o (renderOpt Width.render width ++ t) =
      scan .flag { f with width := w, ladjust := negative || f.ladjust } args' o t := by
  rcases width with _ | ⟨first, rest⟩ | _
  · obtain ⟨rfl, rfl, rfl⟩ : 0 = w ∧ false = negative ∧ args = args' := by
      simpa [resolveWidth] using h
    rw [← Int.natCast_zero] at hf
    rw [← hf]
    rfl
  · obtain ⟨rfl, rfl, rfl⟩ :
        digitsVal (first + 1) rest = w ∧ false = negative ∧ args = args' := by
      simpa [resolveWidth] using h
    have hnext : next f args (digitChar first.succ) .flag =
        some (.scan (.width (first + 1 : ℕ)) f args) := by
      revert first
      intro first _ _
      fin_cases first <;> rfl
    change scan .flag f args o (digitChar first.succ :: (rest.map digitChar ++ t)) = _
    rw [scan_of_scan hnext, scan_width_digits rest hw ht]
    rfl
  · rcases args with _ | ⟨v | _, args⟩
    · cases h
    · obtain ⟨rfl, rfl, rfl⟩ :
          v.toInt.natAbs = w ∧ decide (v.toInt < 0) = negative ∧ args = args' := by
        simpa [resolveWidth] using h
      change scan .flag f (.int v :: args) o ('*' :: t) = _
      apply scan_of_scan
      change (if 0 ≤ v.toInt then some (Next.scan .flag { f with width := v.toInt } args)
        else some (.scan .flag { f with width := wrap (-v.toInt), ladjust := true } args)) = _
      by_cases hpos : 0 ≤ v.toInt
      · have habs : ((v.toInt.natAbs : ℕ) : ℤ) = v.toInt := by omega
        have hnot : ¬v.toInt < 0 := by omega
        rw [if_pos hpos, habs, decide_eq_false hnot]
        rfl
      · have habs : wrap (-v.toInt) = (v.toInt.natAbs : ℕ) := by
          rw [wrap, Int.bmod_eq_of_le] <;> omega
        rw [if_neg hpos, habs, decide_eq_true (by omega)]
        rfl
    · cases h

theorem scan_prec {prec : Option Prec} {p : Option ℕ}
    (h : resolvePrec args prec = some (p, args')) (hp : ∀ k ∈ p, k < 2 ^ 31)
    (hf : f.prec = -1) (ht : Behind t) :
    scan .flag f args o (renderOpt Prec.render prec ++ t) =
      scan .flag { f with prec := precInt p } args' o t := by
  have hdot : next f args '.' .flag = some (.scan .dot f args) := rfl
  rcases prec with _ | ds | _
  · obtain ⟨rfl, rfl⟩ : none = p ∧ args = args' := by simpa [resolvePrec] using h
    change _ = scan .flag { f with prec := -1 } args o t
    rw [← hf]
    rfl
  · obtain ⟨rfl, rfl⟩ : some (digitsVal 0 ds) = p ∧ args = args' := by
      simpa [resolvePrec] using h
    have hlt := hp _ rfl
    change scan .flag f args o ('.' :: (ds.map digitChar ++ t)) = _
    rw [scan_of_scan hdot]
    cases ds with
    | nil =>
      obtain ⟨ch, t', rfl, hch, hstar⟩ := ht
      have hnext : next f args ch .dot = next { f with prec := 0 } args ch .flag := by
        simp only [next, hch, hstar, Bool.false_eq_true, if_false]
      rw [List.map_nil, List.nil_append, scan, hnext]
      rfl
    | cons d ds =>
      have hnext : next f args (digitChar d) .dot =
          some (.scan (.prec (d.val : ℕ)) f args) := by
        clear hlt hp h
        fin_cases d <;> rfl
      have hval : digitsVal 0 (d :: ds) = digitsVal d.val ds := by
        simp [digitsVal]
      rw [hval] at hlt ⊢
      rw [List.map_cons, List.cons_append, scan_of_scan hnext, scan_prec_digits ds hlt ht]
      rfl
  · rcases args with _ | ⟨v | _, args⟩
    · cases h
    · obtain ⟨rfl, rfl⟩ :
          (if v.toInt < 0 then none else some v.toInt.toNat) = p ∧ args = args' := by
        simpa [resolvePrec] using h
      change scan .flag f (.int v :: args) o ('.' :: '*' :: t) = _
      rw [scan_of_scan (show next f (.int v :: args) '.' .flag = _ from rfl)]
      apply scan_of_scan
      change some (Next.scan .flag { f with prec := if v.toInt < 0 then -1 else v.toInt } args) = _
      congr 3
      by_cases hneg : v.toInt < 0
      · rw [if_pos hneg, if_pos hneg]
        rfl
      · rw [if_neg hneg, if_neg hneg]
        exact (Int.toNat_of_nonneg (by omega)).symm
    · cases h

theorem scan_modifier (hl : f.longint = false) (hs : f.shortint = false) :
    scan .flag f args o (renderOpt Modifier.render m ++ t) =
      scan .flag { f with longint := decide (m = some .l), shortint := decide (m = some .h) }
        args o t := by
  obtain ⟨ladjust, zeropad, alt, hexprefix, longint, shortint, width, prec, sign⟩ := f
  subst hl hs
  rcases m with _ | _ | _
  · rfl
  · exact scan_of_scan rfl
  · exact scan_of_scan rfl

/-- A conversion is read with its flags, width, precision and argument. -/
theorem scan_directive {d : Directive} (h : resolve d args = some (c, args'))
    (hw : c.width < 2 ^ 31) (hp : ∀ p ∈ c.prec, p < 2 ^ 31) :
    scan .text f args o (d.render ++ t) =
      scan .text .start args' (o.put c.code c.code.length) t := by
  unfold resolve at h
  simp only [Option.bind_eq_bind, Option.bind_eq_some_iff, Prod.exists, Option.some.injEq,
    Prod.mk.injEq] at h
  obtain ⟨width, negative, args₁, hwidth, prec, args₂, hprec, value, args₃, hvalue, hc, rfl⟩ := h
  have hconv : Behind (d.conv.char :: t) := ⟨_, _, rfl, by cases d.conv <;> decide⟩
  have hmod : Behind (renderOpt Modifier.render d.modifier ++ (d.conv.char :: t)) := by
    rcases d.modifier with _ | _ | _
    · exact hconv
    · exact ⟨_, _, rfl, by decide⟩
    · exact ⟨_, _, rfl, by decide⟩
  have hpoint : Behind (renderOpt Prec.render d.prec ++
      (renderOpt Modifier.render d.modifier ++ (d.conv.char :: t))) := by
    rcases d.prec with _ | _ | _
    · exact hmod
    · exact ⟨_, _, rfl, by decide⟩
    · exact ⟨_, _, rfl, by decide⟩
  have hrender : d.render ++ t = '%' :: (d.flags.map Flag.char ++
      (renderOpt Width.render d.width ++ (renderOpt Prec.render d.prec ++
        (renderOpt Modifier.render d.modifier ++ (d.conv.char :: t))))) := by
    simp [Directive.render, Directive.tail]
  have hcw : c.width = width := by rw [← hc]
  have hcp : c.prec = prec := by rw [← hc]
  have hcv : c.value = value := by rw [← hc]
  rw [hcw] at hw
  rw [hcp] at hp
  rw [hrender, scan_of_scan (show next f args '%' .text = some (.scan .flag .start args) from rfl),
    scan_flags, foldl_flag, scan_width hwidth hw rfl hpoint, scan_prec hprec hp rfl hmod,
    scan_modifier rfl rfl]
  apply scan_of_put
  have hfields : c.fields d.modifier = { Fields.start with
      ladjust := negative || (false || decide (Flag.minus ∈ d.flags))
      zeropad := false || decide (Flag.zero ∈ d.flags)
      alt := false || decide (Flag.alt ∈ d.flags)
      longint := decide (d.modifier = some .l)
      shortint := decide (d.modifier = some .h)
      width := width
      prec := precInt prec
      sign := if Flag.plus ∈ d.flags then some '+' else
        if (none : Option Char).isNone ∧ Flag.space ∈ d.flags then some ' ' else none } := by
    rw [← hc]
    simp [Conversion.fields, Fields.start]
  rw [← hcp] at hvalue
  have hletter := convert_eq hvalue hcv
  rw [hfields] at hletter
  rw [← hletter]
  cases d.conv <;> rfl

/-! ## The whole format -/

def Item.code : Item → List Char
  | .ordinary c => [c]
  | .conversion c => c.code

theorem put_ret {cs : List Char} (ho : o.ret = o.out.length)
    (hlt : (o.out ++ cs).length < 2 ^ 31) :
    (o.put cs cs.length).ret = (o.put cs cs.length).out.length := by
  rw [List.length_append] at hlt
  unfold Out.put
  dsimp only
  rw [ho, wrap, List.length_append, Int.bmod_eq_of_le] <;> push_cast <;> omega

theorem scan_render {ps : List Piece} {items : List Item}
    (h : resolveAll ps args = some items) (hb : ∀ i ∈ items, i.Bounded)
    (ho : o.ret = o.out.length) (hlt : (o.out ++ items.flatMap Item.code).length < 2 ^ 31) :
    scan .text .start args o (render ps) = some ⟨o.out ++ items.flatMap Item.code,
      (o.out ++ items.flatMap Item.code).length⟩ := by
  induction ps generalizing args items o with
  | nil =>
    obtain rfl : [] = items := by simpa [resolveAll] using h
    simp [render, scan, ← ho]
  | cons p ps ih =>
    cases p with
    | ordinary ch =>
      obtain ⟨items, hitems, rfl⟩ := Option.map_eq_some_iff.mp h
      rw [List.flatMap_cons, ← List.append_assoc] at hlt ⊢
      have hnext : next .start args ch.val .text = some (.put [ch.val] 1 args) :=
        if_neg ch.property.1
      change scan .text .start args o (ch.val :: render ps) = _
      rw [scan_of_put hnext]
      refine ih hitems (fun i hi => hb i (List.mem_cons_of_mem _ hi)) (put_ret ho ?_) hlt
      rw [List.length_append] at hlt
      exact lt_of_le_of_lt (Nat.le_add_right _ _) hlt
    | directive d =>
      simp only [resolveAll, Option.bind_eq_bind, Option.bind_eq_some_iff, Prod.exists,
        Option.some.injEq] at h
      obtain ⟨c, args', hres, items, hitems, rfl⟩ := h
      rw [List.flatMap_cons, ← List.append_assoc] at hlt ⊢
      obtain ⟨hw, hp⟩ := hb (.conversion c) List.mem_cons_self
      change scan .text .start args o (d.render ++ render ps) = _
      rw [scan_directive hres hw hp]
      refine ih hitems (fun i hi => hb i (List.mem_cons_of_mem _ hi)) (put_ret ho ?_) hlt
      rw [List.length_append] at hlt
      exact lt_of_le_of_lt (Nat.le_add_right _ _) hlt

end Vfprintf
