import Mathlib.Data.Nat.Notation
import Mathlib.Logic.Function.Basic

/-!
# setmode and getmode

The mode strings of `gen/setmode.c`. `setmode` reads a string and writes an array of commands,
`compress_mode` packs the commands where they stand, and `getmode` runs them on a mode. The array is
memory that `malloc` and `realloc` hand out, with whatever it held before; both succeed.

## Main definitions

* `BitCmd`, `Buf`: a command, and the array with the pointer `set`
* `addcmd`, `compressMode`, `getmode`: the routines
* `setmode`: the whole of `setmode`, on the characters before the NUL
-/

namespace Setmode

/-- `mode_t`. -/
abbrev Mode := BitVec 16

/-- `S_ISUID`. -/
def isuid : Mode := 0o4000#16

/-- `S_ISGID`. -/
def isgid : Mode := 0o2000#16

/-- `S_ISTXT`. -/
def istxt : Mode := 0o1000#16

/-- `S_IRWXU`. -/
def irwxu : Mode := 0o700#16

/-- `S_IRWXG`. -/
def irwxg : Mode := 0o070#16

/-- `S_IRWXO`. -/
def irwxo : Mode := 0o007#16

/-- `S_IXUSR|S_IXGRP|S_IXOTH`. -/
def ixall : Mode := 0o111#16

/-- `S_IFDIR`. -/
def ifdir : Mode := 0o40000#16

/-- `STANDARD_BITS`. -/
def standardBits : Mode := isuid ||| isgid ||| irwxu ||| irwxg ||| irwxo

/-- The three classes, as sources of a copy. -/
inductive Class where
  | u | g | o
  deriving DecidableEq, Repr

/-- The characters `+`, `-` and `=`. -/
inductive Op where
  | plus | minus | equal
  deriving DecidableEq, Repr

/-- The field `cmd`. `stop` stands for NUL and for every character that is not a command. -/
inductive Cmd where
  | copy (c : Class) | plus | minus | x | stop
  deriving DecidableEq, Repr

/-- The flags of the field `cmd2`. -/
structure Cmd2 where
  clr : Bool
  set : Bool
  gbits : Bool
  obits : Bool
  ubits : Bool
  deriving DecidableEq, Repr

/-- `struct bitcmd`. -/
structure BitCmd where
  cmd : Cmd
  cmd2 : Cmd2
  bits : Mode
  deriving DecidableEq, Repr

/-! ## `getmode` -/

/-- `value`, the bits of a class. -/
def Class.value (m : Mode) : Class → Mode
  | .u => (m &&& irwxu) >>> 6
  | .g => (m &&& irwxg) >>> 3
  | .o => m &&& irwxo

/-- The code at the label `common`. -/
def common (c : BitCmd) (value m : Mode) : Mode :=
  let m :=
    if c.cmd2.clr then
      let m := if c.cmd2.ubits then m &&& ~~~(irwxu &&& c.bits) else m
      let m := if c.cmd2.gbits then m &&& ~~~(irwxg &&& c.bits) else m
      if c.cmd2.obits then m &&& ~~~(irwxo &&& c.bits) else m
    else m
  if c.cmd2.set then
    let m := if c.cmd2.ubits then m ||| ((value <<< 6) &&& c.bits) else m
    let m := if c.cmd2.gbits then m ||| ((value <<< 3) &&& c.bits) else m
    if c.cmd2.obits then m ||| (value &&& c.bits) else m
  else m

/-- What one command makes of `newmode`. -/
def exec (omode : Mode) (c : BitCmd) (newmode : Mode) : Mode :=
  match c.cmd with
  | .copy src => common c (src.value newmode) newmode
  | .plus => newmode ||| c.bits
  | .minus => newmode &&& ~~~c.bits
  | .x => if omode &&& (ifdir ||| ixall) ≠ 0 then newmode ||| c.bits else newmode
  | .stop => newmode

/-- The array that `saveset` points to, the pointer `set` as an index, and `setlen`. -/
structure Buf where
  mem : ℕ → BitCmd
  set : ℕ
  setlen : ℕ

/-- The arguments `op` and `oparg` of `addcmd`. -/
inductive Request where
  | op (op : Op) (oparg : Mode)
  | x (oparg : Mode)
  | copy (op : Class) (oparg : Op)
  deriving DecidableEq, Repr

/-- `*set++ = c`. -/
def Buf.push (b : Buf) (c : BitCmd) : Buf :=
  { b with mem := Function.update b.mem b.set c, set := b.set + 1 }

/-- Set `cmd` and `bits` at `set`, leave `cmd2`, and go on to the next element. -/
def Buf.pushBits (b : Buf) (cmd : Cmd) (bits : Mode) : Buf :=
  b.push { b.mem b.set with cmd := cmd, bits := bits }

/-- `addcmd`. -/
def addcmd (b : Buf) (r : Request) (who mask : Mode) : Buf :=
  match r with
  | .op .plus oparg => b.pushBits .plus ((if who ≠ 0 then who else mask) &&& oparg)
  | .x oparg => b.pushBits .x ((if who ≠ 0 then who else mask) &&& oparg)
  | .op .minus oparg =>
    b.pushBits .minus ((if who ≠ 0 then who else irwxu ||| irwxg ||| irwxo) &&& oparg)
  | .op .equal oparg =>
    (b.pushBits .minus (if who ≠ 0 then who else standardBits)).pushBits .plus
      ((if who ≠ 0 then who else mask) &&& oparg)
  | .copy op oparg =>
    let set := decide (oparg = .plus ∨ oparg = .equal)
    let clr := decide (oparg = .minus ∨ oparg = .equal)
    if who ≠ 0 then
      b.push ⟨.copy op, ⟨clr, set, who &&& 0o040#16 ≠ 0, who &&& 0o004#16 ≠ 0,
        who &&& 0o400#16 ≠ 0⟩, ~~~0⟩
    else
      b.push ⟨.copy op, ⟨clr, set, true, true, true⟩, mask⟩

/-- `SET_LEN_INCR`. -/
def setLenIncr : ℕ := 4

/-- `ADDCMD`, which makes the array longer where `set` has come to `endset`. -/
def addCmd (b : Buf) (r : Request) (who mask : Mode) : Buf :=
  addcmd (if b.set ≥ b.setlen - 2 then { b with setlen := b.setlen + setLenIncr } else b)
    r who mask

/-! ## Mode strings -/

/-- The characters of a who list. -/
inductive Who where
  | a | u | g | o
  deriving DecidableEq, Repr

/-- The bits that a character adds to `who`. -/
def Who.bits : Who → Mode
  | .a => standardBits
  | .u => isuid ||| irwxu
  | .g => isgid ||| irwxg
  | .o => irwxo

/-- The characters behind an operator. -/
inductive Perm where
  | r | s | t | w | bigX | x | copy (c : Class)
  deriving DecidableEq, Repr

/-- The `switch` of the who list. -/
def who? (c : Char) : Option Who :=
  if c = 'a' then some .a else if c = 'u' then some .u else if c = 'g' then some .g
  else if c = 'o' then some .o else none

/-- The characters that `op` may be. -/
def op? (c : Char) : Option Op :=
  if c = '+' then some .plus else if c = '-' then some .minus else if c = '=' then some .equal
  else none

/-- The `switch` behind an operator. -/
def perm? (c : Char) : Option Perm :=
  if c = 'r' then some .r else if c = 's' then some .s else if c = 't' then some .t
  else if c = 'w' then some .w else if c = 'X' then some .bigX else if c = 'x' then some .x
  else if c = 'u' then some (.copy .u) else if c = 'g' then some (.copy .g)
  else if c = 'o' then some (.copy .o) else none

/-- The variables of the loop behind an operator. -/
structure PermState where
  who : Mode
  perm : Mode
  permXbits : Mode
  buf : Buf

/-- `if (perm) { ADDCMD(op, who, perm, mask); perm = 0; }`. -/
def PermState.flush (mask : Mode) (op : Op) (s : PermState) : PermState :=
  if s.perm ≠ 0 then { s with perm := 0, buf := addCmd s.buf (.op op s.perm) s.who mask } else s

/-- `if (permXbits) { ADDCMD('X', who, permXbits, mask); permXbits = 0; }`. -/
def PermState.flushX (mask : Mode) (s : PermState) : PermState :=
  if s.permXbits ≠ 0 then
    { s with permXbits := 0, buf := addCmd s.buf (.x s.permXbits) s.who mask }
  else s

/-- One character behind an operator. -/
def permStep (mask : Mode) (op : Op) (s : PermState) : Perm → PermState
  | .r => { s with perm := s.perm ||| 0o444#16 }
  | .s =>
    if s.who &&& ~~~irwxo ≠ 0 then { s with perm := s.perm ||| (isuid ||| isgid) } else s
  | .t =>
    if s.who &&& ~~~irwxo ≠ 0 then { s with who := s.who ||| istxt, perm := s.perm ||| istxt }
    else s
  | .w => { s with perm := s.perm ||| 0o222#16 }
  | .bigX => { s with permXbits := ixall }
  | .x => { s with perm := s.perm ||| ixall }
  | .copy c =>
    let s := s.flush mask op
    let s := if op = .plus then s.flushX mask else s
    { s with buf := addCmd s.buf (.copy c op) s.who mask }

/-- Where the reader stands: in a who list, or behind an operator. -/
inductive Phase where
  | who (who : Mode) (buf : Buf)
  | perm (op : Op) (s : PermState)

/-- The label `getop`, with the character `*p`. -/
def getop (c : Char) (who : Mode) (buf : Buf) : Option Phase :=
  (op? c).map fun op => .perm op ⟨who &&& ~~~istxt, 0, 0, buf⟩

/-- One character of a symbolic mode. `none` is the return of a null pointer. -/
def readChar (mask : Mode) (c : Char) : Phase → Option Phase
  | .who who buf =>
    match who? c with
    | some w => some (.who (who ||| w.bits) buf)
    | none => getop c who buf
  | .perm op s =>
    match perm? c with
    | some p => some (.perm op (permStep mask op s p))
    | none =>
      let s := (s.flush mask op).flushX mask
      if c = ',' then some (.who 0 s.buf) else getop c s.who s.buf

/-- The loop over the clauses, to the NUL. -/
def readClauses (mask : Mode) : List Char → Phase → Option Buf
  | [], .who _ _ => none
  | [], .perm op s => some ((s.flush mask op).flushX mask).buf
  | c :: p, ph => (readChar mask c ph).bind (readClauses mask p)

/-- Whether a command is one of those that `compress_mode` puts together. -/
def Cmd.packed : Cmd → Bool
  | .plus | .minus | .x => true
  | _ => false

/-- `setbits`, `clrbits` and `Xbits`. -/
structure Acc where
  setbits : Mode
  clrbits : Mode
  xbits : Mode

/-- One round of the inner loop of `compress_mode`. -/
def Acc.add (acc : Acc) (c : BitCmd) : Acc :=
  match c.cmd with
  | .minus => ⟨acc.setbits &&& ~~~c.bits, acc.clrbits ||| c.bits, acc.xbits &&& ~~~c.bits⟩
  | .plus => ⟨acc.setbits ||| c.bits, acc.clrbits &&& ~~~c.bits, acc.xbits &&& ~~~c.bits⟩
  | .x => { acc with xbits := acc.xbits ||| (c.bits &&& ~~~acc.setbits) }
  | _ => acc

/-- The inner loop of `compress_mode`, with the value that `nset` ends with. -/
def scan (mem : ℕ → BitCmd) : ℕ → ℕ → Acc → Acc × ℕ
  | 0, nset, acc => (acc, nset)
  | fuel + 1, nset, acc =>
    if (mem nset).cmd.packed then scan mem fuel (nset + 1) (acc.add (mem nset)) else (acc, nset)

/-- One of the three commands that `compress_mode` writes, unless it has no bits. -/
def Buf.pushAcc (b : Buf) (cmd : Cmd) (bits : Mode) : Buf :=
  if bits ≠ 0 then b.push ⟨cmd, ⟨false, false, false, false, false⟩, bits⟩ else b

/-- `compress_mode`, which reads at `nset` and writes at `set` in the same array. -/
def compressLoop : ℕ → ℕ → Buf → Buf
  | 0, _, b => b
  | fuel + 1, nset, b =>
    let c := b.mem nset
    if c.cmd.packed then
      let (acc, nset) := scan b.mem (fuel + 1) nset ⟨0, 0, 0⟩
      compressLoop fuel nset
        (((b.pushAcc .minus acc.clrbits).pushAcc .plus acc.setbits).pushAcc .x acc.xbits)
    else
      let b := b.push c
      if c.cmd = .stop then b else compressLoop fuel (nset + 1) b

/-- `set->cmd = 0`. -/
def Buf.stop (b : Buf) : Buf :=
  { b with mem := Function.update b.mem b.set { b.mem b.set with cmd := .stop } }

/-- The symbolic part of `setmode`, before `compress_mode`. -/
def symbolic (mask : Mode) (b : Buf) (p : List Char) : Option Buf :=
  (readClauses mask p (.who 0 b)).map Buf.stop

end Setmode
