import NetBsd.Lib.ByteMem

/-!
# vis and unvis

The encoder of `gen/vis.c` and the decoder of `gen/unvis.c`. `vis` writes the code of one character
at `dst`, with a NUL behind it, and returns the place of the NUL; `strvis` and `strvisx` call it for
each character. `unvis` is a state machine that takes one character at a time.

## Main definitions

* `visChars`, `vis`, `strvis`, `strvisx`: the encoder
* `unvis`, `strunvis`: the decoder
-/

namespace Vis

/-- `char`. -/
abbrev Byte := BitVec 8

/-- A character constant. -/
def ch (c : Char) : Byte := BitVec.ofNat 8 c.toNat

/-- The argument `flag` of `vis`. -/
structure Flags where
  octal : Bool
  cstyle : Bool
  sp : Bool
  tab : Bool
  nl : Bool
  safe : Bool
  noslash : Bool
  deriving DecidableEq, Repr

/-- `isascii(c) && isgraph(c)`. -/
def isgraph (c : Byte) : Bool := 0x21#8 ≤ c ∧ c ≤ 0x7e#8

/-- `iscntrl`, of a seven-bit character. -/
def iscntrl (c : Byte) : Bool := c < 0x20#8 ∨ c = 0x7f#8

/-- `isoctal`. -/
def isoctal (c : Byte) : Bool := ch '0' ≤ c ∧ c ≤ ch '7'

/-- `'\\'`. -/
def backslash : Byte := 0x5c#8

/-! ## `vis` -/

/-- The characters that `vis` leaves as they are. -/
def plain (f : Flags) (c : Byte) : Bool :=
  isgraph c || !f.sp && c == 0x20#8 || !f.tab && c == 0x09#8 || !f.nl && c == 0x0a#8 ||
    f.safe && (c == 0x08#8 || c == 0x07#8 || c == 0x0d#8)

/-- The `switch` for `VIS_CSTYLE`: what stands behind the backslash. -/
def cstyle (c nextc : Byte) : Option (List Byte) :=
  if c = 0x0a#8 then some [ch 'n']
  else if c = 0x0d#8 then some [ch 'r']
  else if c = 0x08#8 then some [ch 'b']
  else if c = 0x07#8 then some [ch 'a']
  else if c = 0x0b#8 then some [ch 'v']
  else if c = 0x09#8 then some [ch 't']
  else if c = 0x0c#8 then some [ch 'f']
  else if c = 0x20#8 then some [ch 's']
  else if c = 0 then
    some (if isoctal nextc then [ch '0', ch '0', ch '0'] else [ch '0'])
  else none

/-- The three octal digits of a character. -/
def octalDigits (c : Byte) : List Byte :=
  [(c >>> 6 &&& 7) + ch '0', (c >>> 3 &&& 7) + ch '0', (c &&& 7) + ch '0']

/-- The control and meta forms, without the backslash. -/
def metaChars (c : Byte) : List Byte :=
  let m := if c &&& 0x80#8 ≠ 0 then [ch 'M'] else []
  let c := c &&& 0x7f#8
  if iscntrl c then m ++ [ch '^', if c = 0x7f#8 then ch '?' else c + ch '@'] else m ++ [ch '-', c]

/-- What `vis` writes. -/
def visChars (f : Flags) (c nextc : Byte) : List Byte :=
  if plain f c then
    if c = backslash ∧ f.noslash = false then [c, backslash] else [c]
  else
    match if f.cstyle then cstyle c nextc else none with
    | some s => backslash :: s
    | none =>
      if c &&& 0x7f#8 = 0x20#8 ∨ f.octal = true then backslash :: octalDigits c
      else (if f.noslash then [] else [backslash]) ++ metaChars c

/-- `*dst++ = c`, for some characters. -/
def puts (m : ByteMem) (dst : ℕ) : List Byte → ByteMem × ℕ
  | [] => (m, dst)
  | c :: cs => puts (m.put8 dst c) (dst + 1) cs

/-- `vis`. -/
def vis (m : ByteMem) (dst : ℕ) (f : Flags) (c nextc : Byte) : ByteMem × ℕ :=
  let (m, dst) := puts m dst (visChars f c nextc)
  (m.put8 dst 0, dst)

/-- `strvis` of the characters before the NUL. -/
def strvis (m : ByteMem) (dst : ℕ) (f : Flags) : List Byte → ByteMem × ℕ
  | [] => (m, dst)
  | c :: src =>
    let (m, dst) := vis m dst f c (src.headD 0)
    strvis m dst f src

/-- The loop of `strvisx`, in which `src` stays where it is. -/
def strvisxLoop (f : Flags) (c nextc : Byte) : ℕ → ByteMem → ℕ → ByteMem × ℕ
  | 0, m, dst => (m, dst)
  | len + 1, m, dst =>
    let (m, dst) := vis m dst f c nextc
    strvisxLoop f c nextc len m dst

/-- `strvisx`. -/
def strvisx (m : ByteMem) (dst : ℕ) (f : Flags) (src : List Byte) : ByteMem × ℕ :=
  match src with
  | [] => (m, dst)
  | c :: rest =>
    let (m, dst) := strvisxLoop f c (rest.headD 0) rest.length m dst
    vis m dst f c 0

/-! ## `unvis` -/

/-- `*astate`. -/
inductive Astate where
  | sGround | sStart | sMeta | sMeta1 | sCtrl | sOctal2 | sOctal3
  deriving DecidableEq, Repr

/-- What `unvis` returns. -/
inductive Ret where
  | zero | valid | validpush | nochar | synbad
  deriving DecidableEq, Repr

/-- The `switch` in the state `S_START`: the new value of `*cp`, if it is set, with the new state and
the return value. -/
def unvisStart (c : Byte) : Option Byte × Astate × Ret :=
  if c = backslash then (some c, .sGround, .valid)
  else if isoctal c then (some (c - ch '0'), .sOctal2, .zero)
  else if c = ch 'M' then (some 0x80#8, .sMeta, .zero)
  else if c = ch '^' then (none, .sCtrl, .zero)
  else if c = ch 'n' then (some 0x0a#8, .sGround, .valid)
  else if c = ch 'r' then (some 0x0d#8, .sGround, .valid)
  else if c = ch 'b' then (some 0x08#8, .sGround, .valid)
  else if c = ch 'a' then (some 0x07#8, .sGround, .valid)
  else if c = ch 'v' then (some 0x0b#8, .sGround, .valid)
  else if c = ch 't' then (some 0x09#8, .sGround, .valid)
  else if c = ch 'f' then (some 0x0c#8, .sGround, .valid)
  else if c = ch 's' then (some 0x20#8, .sGround, .valid)
  else if c = ch 'E' then (some 0x1b#8, .sGround, .valid)
  else if c = 0x0a#8 then (none, .sGround, .nochar)
  else if c = ch '$' then (none, .sGround, .nochar)
  else (none, .sGround, .synbad)

/-- `unvis` without `UNVIS_END`. -/
def unvis (cp c : Byte) : Astate → Byte × Astate × Ret
  | .sGround => if c = backslash then (0, .sStart, .zero) else (c, .sGround, .valid)
  | .sStart =>
    let (cp', astate, ret) := unvisStart c
    (cp'.getD cp, astate, ret)
  | .sMeta =>
    if c = ch '-' then (cp, .sMeta1, .zero)
    else if c = ch '^' then (cp, .sCtrl, .zero)
    else (cp, .sGround, .synbad)
  | .sMeta1 => (cp ||| c, .sGround, .valid)
  | .sCtrl => (cp ||| (if c = ch '?' then 0x7f#8 else c &&& 0x1f#8), .sGround, .valid)
  | .sOctal2 =>
    if isoctal c then ((cp <<< 3) + (c - ch '0'), .sOctal3, .zero) else (cp, .sGround, .validpush)
  | .sOctal3 =>
    if isoctal c then ((cp <<< 3) + (c - ch '0'), .sGround, .valid) else (cp, .sGround, .validpush)

/-- `unvis` with `UNVIS_END`. -/
def unvisEnd : Astate → Ret
  | .sOctal2 | .sOctal3 => .valid
  | .sGround => .nochar
  | _ => .synbad

/-- The characters before `dst`, the character at `dst`, and `state`. -/
structure State where
  out : List Byte
  cp : Byte
  astate : Astate
  deriving DecidableEq, Repr

/-- `dst++`, after which `*dst` is whatever the memory holds. -/
def State.next (fresh : ℕ → Byte) (s : State) : State :=
  { s with out := s.out ++ [s.cp], cp := fresh (s.out.length + 1) }

/-- The body of the loop of `strunvis`, with the number of jumps to `again` that are left. A jump
leaves `S_GROUND`, so that there is at most one. -/
def feed (fresh : ℕ → Byte) (c : Byte) : ℕ → State → Option State
  | 0, _ => none
  | n + 1, s =>
    let (cp, astate, ret) := unvis s.cp c s.astate
    let s := { s with cp := cp, astate := astate }
    match ret with
    | .valid => some (s.next fresh)
    | .validpush => feed fresh c n (s.next fresh)
    | .zero | .nochar => some s
    | .synbad => none

/-- The end of `strunvis`: the characters that it has decoded. -/
def finish (s : State) : List Byte :=
  if unvisEnd s.astate = .valid then s.out ++ [s.cp] else s.out

/-- The loop of `strunvis` over the characters before the NUL. -/
def strunvisLoop (fresh : ℕ → Byte) : List Byte → State → Option (List Byte)
  | [], s => some (finish s)
  | c :: src, s => (feed fresh c 2 s).bind (strunvisLoop fresh src)

/-- `strunvis`; `none` is the return of -1. `fresh` is what the memory at `dst` holds. -/
def strunvis (fresh : ℕ → Byte) (src : List Byte) : Option (List Byte) :=
  strunvisLoop fresh src ⟨[], fresh 0, .sGround⟩

/-- The string at an address. -/
def IsStr (m : ByteMem) (a : ℕ) (s : List Byte) : Prop :=
  m.Holds a s ∧ m (a + s.length) = 0 ∧ 0 ∉ s

end Vis
