import Mathlib
import NetBsd.Libc.Vfprintf

/-!
# Formats and the standard

Formats as ordinary characters and conversions, and the characters that X3.159 prescribes for them.

## Main definitions

* `Piece`, `render`: formats
* `Conversion`, `resolve`, `resolveAll`: conversions with their arguments
* `Conversion.ansi`: what the standard prescribes
* `Conversion.Exact`: a number without a sign or prefix, or with digits enough
-/

namespace Vfprintf

/-! ## Formats -/

inductive Flag where
  | minus | plus | space | alt | zero
  deriving DecidableEq, Repr

def Flag.char : Flag → Char
  | .minus => '-'
  | .plus => '+'
  | .space => ' '
  | .alt => '#'
  | .zero => '0'

/-- A width is a number that does not begin with a zero, or an argument. -/
inductive Width where
  | digits (first : Fin 9) (rest : List (Fin 10))
  | star
  deriving DecidableEq, Repr

inductive Prec where
  | digits (ds : List (Fin 10))
  | star
  deriving DecidableEq, Repr

inductive Modifier where
  | h | l
  deriving DecidableEq, Repr

inductive Conv where
  | d | i | o | u | x | X | c | s | percent
  deriving DecidableEq, Repr

def Conv.char : Conv → Char
  | .d => 'd'
  | .i => 'i'
  | .o => 'o'
  | .u => 'u'
  | .x => 'x'
  | .X => 'X'
  | .c => 'c'
  | .s => 's'
  | .percent => '%'

structure Directive where
  flags : List Flag
  width : Option Width
  prec : Option Prec
  modifier : Option Modifier
  conv : Conv
  deriving DecidableEq, Repr

inductive Piece where
  | ordinary (c : {c : Char // c ≠ '%' ∧ c ≠ nul})
  | directive (d : Directive)

def digitChar (d : Fin 10) : Char := Char.ofNat (48 + d)

/-- The number that begins with `n` and goes on with the digits. -/
def digitsVal (n : ℕ) (ds : List (Fin 10)) : ℕ := ds.foldl (fun n d => 10 * n + d.val) n

def Width.render : Width → List Char
  | .digits first rest => digitChar first.succ :: rest.map digitChar
  | .star => ['*']

def Prec.render : Prec → List Char
  | .digits ds => '.' :: ds.map digitChar
  | .star => ['.', '*']

def Modifier.render : Modifier → List Char
  | .h => ['h']
  | .l => ['l']

def renderOpt {α : Type} (r : α → List Char) (o : Option α) : List Char := (o.map r).getD []

/-- What stands behind the width. -/
def Directive.tail (d : Directive) : List Char :=
  renderOpt Prec.render d.prec ++ (renderOpt Modifier.render d.modifier ++ [d.conv.char])

def Directive.render (d : Directive) : List Char :=
  '%' :: (d.flags.map Flag.char ++ (renderOpt Width.render d.width ++ d.tail))

def Piece.render : Piece → List Char
  | .ordinary c => [c.val]
  | .directive d => d.render

/-- The format. -/
def render (ps : List Piece) : List Char := ps.flatMap Piece.render

/-! ## Conversions with their arguments -/

inductive Value where
  | signed (z : ℤ)
  | unsigned (base : Base) (upper : Bool) (n : ℕ)
  | text (cs : List Char)
  deriving DecidableEq, Repr

structure Conversion where
  minus : Bool
  plus : Bool
  space : Bool
  alt : Bool
  zero : Bool
  width : ℕ
  prec : Option ℕ
  value : Value
  deriving DecidableEq, Repr

/-- The width, whether it has turned into a `-` flag, and the other arguments. -/
def resolveWidth (args : List Arg) : Option Width → Option (ℕ × Bool × List Arg)
  | none => some (0, false, args)
  | some (.digits first rest) => some (digitsVal (first + 1) rest, false, args)
  | some .star =>
    match args with
    | .int n :: args => some (n.toInt.natAbs, decide (n.toInt < 0), args)
    | _ => none

/-- A negative precision is taken as if it were missing. -/
def resolvePrec (args : List Arg) : Option Prec → Option (Option ℕ × List Arg)
  | none => some (none, args)
  | some (.digits ds) => some (some (digitsVal 0 ds), args)
  | some .star =>
    match args with
    | .int n :: args => some (if n.toInt < 0 then none else some n.toInt.toNat, args)
    | _ => none

def signedArg (m : Option Modifier) (n : BitVec 32) : ℤ :=
  if m = some .h then (n.truncate 16).toInt else n.toInt

def unsignedArg (m : Option Modifier) (n : BitVec 32) : ℕ :=
  if m = some .h then n.toNat % 2 ^ 16 else n.toNat

/-- A string ends with a NUL, or is as long as the precision. -/
def StringArg (prec : Option ℕ) (mem : List Char) : Prop :=
  nul ∈ mem ∨ ∃ p ∈ prec, p ≤ mem.length

instance (prec : Option ℕ) (mem : List Char) : Decidable (StringArg prec mem) :=
  inferInstanceAs (Decidable (_ ∨ _))

def resolveValue (m : Option Modifier) (prec : Option ℕ) (args : List Arg) :
    Conv → Option (Value × List Arg)
  | .percent => some (.text ['%'], args)
  | .s =>
    match args with
    | .str mem :: args =>
      if StringArg prec mem then
        some (.text (((prec.map mem.take).getD mem).takeWhile (· ≠ nul)), args)
      else none
    | _ => none
  | conv =>
    match args with
    | .int n :: args =>
      match conv with
      | .o => some (.unsigned .OCT false (unsignedArg m n), args)
      | .u => some (.unsigned .DEC false (unsignedArg m n), args)
      | .x => some (.unsigned .HEX false (unsignedArg m n), args)
      | .X => some (.unsigned .HEX true (unsignedArg m n), args)
      | .c => some (.text [Char.ofNat (n.toNat % 256)], args)
      | _ => some (.signed (signedArg m n), args)
    | _ => none

/-- A conversion takes its arguments: the width, the precision, and the value. -/
def resolve (d : Directive) (args : List Arg) : Option (Conversion × List Arg) := do
  let (width, negative, args) ← resolveWidth args d.width
  let (prec, args) ← resolvePrec args d.prec
  let (value, args) ← resolveValue d.modifier prec args d.conv
  some ({ minus := negative || Flag.minus ∈ d.flags
          plus := Flag.plus ∈ d.flags
          space := Flag.space ∈ d.flags
          alt := Flag.alt ∈ d.flags
          zero := Flag.zero ∈ d.flags
          width := width
          prec := prec
          value := value }, args)

/-- An ordinary character, or a conversion with its arguments. -/
inductive Item where
  | ordinary (c : Char)
  | conversion (c : Conversion)

/-- The arguments match the format. -/
def resolveAll : List Piece → List Arg → Option (List Item)
  | [], _ => some []
  | .ordinary c :: ps, args => (resolveAll ps args).map (.ordinary c.val :: ·)
  | .directive d :: ps, args => do
    let (c, args) ← resolve d args
    let items ← resolveAll ps args
    some (.conversion c :: items)

/-! ## The standard -/

def Base.radix : Base → ℕ
  | .OCT => 8
  | .DEC => 10
  | .HEX => 16

/-- The digits of a number, none for zero. -/
def digitsOf (base : Base) (upper : Bool) (n : ℕ) : List Char :=
  (Nat.digits base.radix n).reverse.map (xdigit upper)

def zeros (n : ℕ) : List Char := List.replicate n '0'

def blanks (n : ℕ) : List Char := List.replicate n ' '

/-- The minimum number of digits is the precision; for an octal number, the `#` flag increases the
precision to force the first digit to be a zero. -/
def Conversion.digits (c : Conversion) (base : Base) (upper : Bool) (n : ℕ) : List Char :=
  let ds := digitsOf base upper n
  let ds := zeros (c.prec.getD 1 - ds.length) ++ ds
  if base = .OCT ∧ c.alt ∧ ds.head? ≠ some '0' then '0' :: ds else ds

def Conversion.body (c : Conversion) : List Char :=
  match c.value with
  | .signed z => c.digits .DEC false z.natAbs
  | .unsigned base upper n => c.digits base upper n
  | .text cs => cs

/-- The sign or the prefix. -/
def Conversion.pre (c : Conversion) : List Char :=
  match c.value with
  | .signed z =>
    if z < 0 then ['-'] else if c.plus then ['+'] else if c.space then [' '] else []
  | .unsigned .HEX upper n => if c.alt ∧ n ≠ 0 then ['0', if upper then 'X' else 'x'] else []
  | _ => []

/-- A precision takes the `0` flag of a number away. What the flag does for other conversions is
not prescribed, and left as it is. -/
def Conversion.zeroPads (c : Conversion) : Bool :=
  match c.value with
  | .text _ => c.zero
  | _ => c.zero && c.prec.isNone

/-- A field of at least `width` characters. -/
def layout (minus zero : Bool) (width : ℕ) (pre body : List Char) : List Char :=
  let n := width - (pre.length + body.length)
  if minus then pre ++ body ++ blanks n
  else if zero then pre ++ zeros n ++ body
  else blanks n ++ pre ++ body

def Conversion.ansi (c : Conversion) : List Char :=
  layout c.minus c.zeroPads c.width c.pre c.body

def Item.ansi : Item → List Char
  | .ordinary c => [c]
  | .conversion c => c.ansi

/-! ## Exact numbers -/

/-- A number with a sign or prefix whose precision asks for no more digits than it has, and not an
octal zero with a precision of zero and the `#` flag. -/
def Conversion.Exact (c : Conversion) : Prop :=
  match c.value with
  | .signed z => c.pre = [] ∨ c.prec.getD 0 ≤ max 1 (digitsOf .DEC false z.natAbs).length
  | .unsigned base upper n =>
    (c.pre = [] ∨ c.prec.getD 0 ≤ (digitsOf base upper n).length) ∧
      ¬(base = .OCT ∧ c.alt ∧ n = 0 ∧ c.prec = some 0)
  | .text _ => True

instance (c : Conversion) : Decidable c.Exact := by
  unfold Conversion.Exact
  split <;> infer_instance

def Item.Exact : Item → Prop
  | .ordinary _ => True
  | .conversion c => c.Exact

/-- Widths and precisions are less than `2 ^ 31`. -/
def Item.Bounded : Item → Prop
  | .ordinary _ => True
  | .conversion c => c.width < 2 ^ 31 ∧ ∀ p ∈ c.prec, p < 2 ^ 31

end Vfprintf
