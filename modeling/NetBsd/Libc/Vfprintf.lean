import Mathlib

/-!
# vfprintf

`vfprintf` of `stdio/vfprintf.c`, on a stream without errors: the characters that `PRINT` and `PAD`
hand on, in order, and the count that is returned. The format is given without its NUL. The
conversions of floating point numbers, `%n` and `%p` are left out.

## Main definitions

* `Arg`, `Fields`: an argument; what a conversion has collected
* `number`, `field`: the conversion of a number, and the padding of every field
* `next`: what one character of the format does
* `vfprintf`: the function
-/

namespace Vfprintf

/-- An argument: an `int` or a `long`, or the characters from a pointer on. -/
inductive Arg where
  | int (n : BitVec 32)
  | str (mem : List Char)
  deriving DecidableEq, Repr

/-- The result of an `int` computation. -/
def wrap (n : ℤ) : ℤ := n.bmod (2 ^ 32)

def nul : Char := Char.ofNat 0

/-- `flags`, `width`, `prec` and `sign`. -/
structure Fields where
  ladjust : Bool
  zeropad : Bool
  alt : Bool
  hexprefix : Bool
  longint : Bool
  shortint : Bool
  width : ℤ
  prec : ℤ
  sign : Option Char
  deriving DecidableEq, Repr

/-- The fields behind a `%`. -/
def Fields.start : Fields :=
  { ladjust := false, zeropad := false, alt := false, hexprefix := false, longint := false
    shortint := false, width := 0, prec := -1, sign := none }

/-- Where the scan of the format is: in text, behind `rflag`, in the digits of a width, behind a
point, or in the digits of a precision. -/
inductive Mode where
  | text
  | flag
  | width (n : ℤ)
  | dot
  | prec (n : ℤ)
  deriving DecidableEq, Repr

/-- The scan goes on, or characters are written, which `ret` counts as so many. -/
inductive Next where
  | scan (m : Mode) (f : Fields) (args : List Arg)
  | put (cs : List Char) (n : ℤ) (args : List Arg)
  deriving DecidableEq, Repr

/-! ## Conversions -/

def pad (howmany : ℤ) (c : Char) : List Char := List.replicate howmany.toNat c

/-- From the computation of `fieldsz` on, for the converted characters `cp`. -/
def field (f : Fields) (dprec : ℤ) (ch : Char) (cp : List Char) (args : List Arg) : Next :=
  let fieldsz : ℤ := cp.length + (if f.sign.isSome then 1 else if f.hexprefix then 2 else 0)
  let realsz := if dprec > fieldsz then dprec else fieldsz
  let prefx := match f.sign with
    | some sign => [sign]
    | none => if f.hexprefix then ['0', ch] else []
  .put ((if f.ladjust = false ∧ f.zeropad = false then pad (f.width - realsz) ' ' else []) ++
      prefx ++
      (if f.ladjust = false ∧ f.zeropad then pad (f.width - realsz) '0' else []) ++
      pad (dprec - fieldsz) '0' ++
      cp ++
      (if f.ladjust then pad (f.width - realsz) ' ' else []))
    (if f.width > realsz then f.width else realsz) args

def xdigit (upper : Bool) (d : ℕ) : Char :=
  if d < 10 then Char.ofNat (48 + d) else Char.ofNat ((if upper then 55 else 87) + d)

/-- `do { *--cp = digit(_ulong % base); _ulong /= base; } while (_ulong)`. -/
def doDigits (base : ℕ) (upper : Bool) : ℕ → ℕ → List Char → List Char
  | 0, _, cp => cp
  | fuel + 1, n, cp =>
    let cp := xdigit upper (n % base) :: cp
    if n / base ≠ 0 then doDigits base upper fuel (n / base) cp else cp

/-- `while (_ulong >= 10) { *--cp = digit(_ulong % 10); _ulong /= 10; } *--cp = digit(_ulong)`. -/
def whileDigits : ℕ → ℕ → List Char → List Char
  | 0, _, cp => cp
  | fuel + 1, n, cp =>
    if 10 ≤ n then whileDigits fuel (n / 10) (xdigit false (n % 10) :: cp)
    else xdigit false n :: cp

inductive Base where
  | OCT | DEC | HEX
  deriving DecidableEq, Repr

/-- The `switch (base)`. A number of 32 bits has less than 32 digits. -/
def digits (alt : Bool) (base : Base) (upper : Bool) (n : ℕ) : List Char :=
  match base with
  | .OCT =>
    let cp := doDigits 8 false 32 n []
    if alt ∧ cp.head? ≠ some '0' then '0' :: cp else cp
  | .DEC => whileDigits 32 n []
  | .HEX => doDigits 16 upper 32 n []

/-- From `number` on. -/
def number (f : Fields) (ch : Char) (base : Base) (upper : Bool) (ulong : BitVec 32)
    (args : List Arg) : Next :=
  let f := if 0 ≤ f.prec then { f with zeropad := false } else f
  let cp := if ulong ≠ 0 ∨ f.prec ≠ 0 then digits f.alt base upper ulong.toNat else []
  field f f.prec ch cp args

/-- `SARG()` -/
def sarg (f : Fields) (n : BitVec 32) : BitVec 32 :=
  if f.longint then n else if f.shortint then (n.truncate 16).signExtend 32 else n

/-- `UARG()` -/
def uarg (f : Fields) (n : BitVec 32) : BitVec 32 :=
  if f.longint then n else if f.shortint then (n.truncate 16).zeroExtend 32 else n

/-- `%d` and `%i` -/
def signed (f : Fields) (ch : Char) (n : BitVec 32) (args : List Arg) : Next :=
  let ulong := sarg f n
  if ulong.toInt < 0 then number { f with sign := some '-' } ch .DEC false (-ulong) args
  else number f ch .DEC false ulong args

/-- `%o` and `%u`, and `%x` and `%X` but for the prefix -/
def nosign (f : Fields) (ch : Char) (base : Base) (upper : Bool) (ulong : BitVec 32)
    (args : List Arg) : Next :=
  number { f with sign := none } ch base upper ulong args

def hex (f : Fields) (ch : Char) (upper : Bool) (n : BitVec 32) (args : List Arg) : Next :=
  let ulong := uarg f n
  nosign (if f.alt ∧ ulong ≠ 0 then { f with hexprefix := true } else f) ch .HEX upper ulong args

/-- The characters of `%s`: up to the NUL, and with a precision no more than that many. -/
def strSize (prec : ℤ) (mem : List Char) : ℕ :=
  if 0 ≤ prec then
    let front := mem.take prec.toNat
    if nul ∈ front then front.idxOf nul else prec.toNat
  else mem.idxOf nul

def str (f : Fields) (mem : List Char) (args : List Arg) : Next :=
  field { f with sign := none } 0 's' (mem.take (strSize f.prec mem)) args

/-- `%c`, and a character that is no conversion -/
def chr (f : Fields) (c : Char) (args : List Arg) : Next :=
  field { f with sign := none } 0 'c' [c] args

/-- The `switch`, from the letter of a conversion on. -/
def convert (f : Fields) (args : List Arg) (ch : Char) : Option Next :=
  match ch, args with
  | 'c', .int n :: args => some (chr f (Char.ofNat (n.toNat % 256)) args)
  | 'd', .int n :: args => some (signed f ch n args)
  | 'i', .int n :: args => some (signed f ch n args)
  | 'D', .int n :: args => some (signed { f with longint := true } ch n args)
  | 'o', .int n :: args => some (nosign f ch .OCT false (uarg f n) args)
  | 'O', .int n :: args => some (nosign { f with longint := true } ch .OCT false n args)
  | 'u', .int n :: args => some (nosign f ch .DEC false (uarg f n) args)
  | 'U', .int n :: args => some (nosign { f with longint := true } ch .DEC false n args)
  | 'x', .int n :: args => some (hex f ch false n args)
  | 'X', .int n :: args => some (hex f ch true n args)
  | 's', .str mem :: args => some (str f mem args)
  -- the next argument is not the one that is asked for, or the conversion is left out
  | ch, args =>
    if ch ∈ ['c', 'd', 'i', 'D', 'o', 'O', 'u', 'U', 'x', 'X', 's', 'e', 'E', 'f', 'g', 'G', 'L', 'n',
      'p'] then none
    else some (chr f ch args)

/-! ## The format -/

def toDigit (ch : Char) : ℤ := (ch.toNat : ℤ) - 48

/-- `reswitch` -/
def switch (f : Fields) (args : List Arg) (ch : Char) : Option Next :=
  if ch = ' ' then
    some (.scan .flag { f with sign := if f.sign.isNone then some ' ' else f.sign } args)
  else if ch = '#' then some (.scan .flag { f with alt := true } args)
  else if ch = '*' then
    match args with
    | .int n :: args =>
      if 0 ≤ n.toInt then some (.scan .flag { f with width := n.toInt } args)
      else some (.scan .flag { f with width := wrap (-n.toInt), ladjust := true } args)
    | _ => none
  else if ch = '-' then some (.scan .flag { f with ladjust := true } args)
  else if ch = '+' then some (.scan .flag { f with sign := some '+' } args)
  else if ch = '.' then some (.scan .dot f args)
  else if ch = '0' then some (.scan .flag { f with zeropad := true } args)
  else if ch.isDigit then some (.scan (.width (toDigit ch)) f args)
  else if ch = 'h' then some (.scan .flag { f with shortint := true } args)
  else if ch = 'l' then some (.scan .flag { f with longint := true } args)
  else convert f args ch

/-- One character of the format. -/
def next (f : Fields) (args : List Arg) (ch : Char) : Mode → Option Next
  | .text => if ch = '%' then some (.scan .flag .start args) else some (.put [ch] 1 args)
  | .flag => switch f args ch
  | .width n =>
    if ch.isDigit then some (.scan (.width (wrap (10 * n + toDigit ch))) f args)
    else switch { f with width := n } args ch
  | .dot =>
    if ch = '*' then
      match args with
      | .int n :: args =>
        some (.scan .flag { f with prec := if n.toInt < 0 then -1 else n.toInt } args)
      | _ => none
    else if ch.isDigit then some (.scan (.prec (toDigit ch)) f args)
    else switch { f with prec := 0 } args ch
  | .prec n =>
    if ch.isDigit then some (.scan (.prec (wrap (10 * n + toDigit ch))) f args)
    else switch { f with prec := if n < 0 then -1 else n } args ch

/-- What has been written, and `ret`. -/
structure Out where
  out : List Char
  ret : ℤ
  deriving DecidableEq, Repr

def Out.put (o : Out) (cs : List Char) (n : ℤ) : Out where
  out := o.out ++ cs
  ret := wrap (o.ret + n)

def scan : Mode → Fields → List Arg → Out → List Char → Option Out
  | _, _, _, o, [] => some o
  | m, f, args, o, ch :: fmt =>
    match next f args ch m with
    | none => none
    | some (.scan m f args) => scan m f args o fmt
    | some (.put cs n args) => scan .text .start args (o.put cs n) fmt

def vfprintf (fmt : List Char) (args : List Arg) : Option Out :=
  scan .text .start args ⟨[], 0⟩ fmt

end Vfprintf
