import Mathlib
import NetBsd.Lib.Machine

/-!
# The packet filter machine

The filter interpreter `bpf_filter` and the checker `bpf_validate` of
`sys.386bsd/net/bpf_filter.c`, with the instruction encoding of `bpf.h`. Words are 32 bits
wide, as on the i386. A packet lies in one buffer or in a chain of mbufs, and the
interpreter tells the two apart by `buflen` alone. An access that the C leaves undefined
(an instruction, a packet byte or a scratch word outside its array, a division by zero) is a
fault, which ends the run.

## Main definitions

* `BpfInsn`, `Op`, `decode`: instructions, and the case label an opcode selects
* `Packet`, `mSkip`, `mXword`, `mXhalf`: packet storage, and reads from an mbuf chain
* `exec`, `step`, `bpfFilter`: one instruction, one turn of the loop, the bounded run
* `bpfValidate`: the checks made on a program before it is installed
-/

namespace Bpf

open Machine (Outcome)

abbrev Byte := BitVec 8

/-- A `u_long`, a `u_int`, or the bits of a `long`. -/
abbrev Word := BitVec 32

/-! ## Instructions -/

def BPF_CLASS (code : BitVec 16) : BitVec 16 := code &&& 0x07
def BPF_MODE (code : BitVec 16) : BitVec 16 := code &&& 0xe0
def BPF_OP (code : BitVec 16) : BitVec 16 := code &&& 0xf0

abbrev BPF_LD : BitVec 16 := 0x00
abbrev BPF_LDX : BitVec 16 := 0x01
abbrev BPF_ST : BitVec 16 := 0x02
abbrev BPF_STX : BitVec 16 := 0x03
abbrev BPF_ALU : BitVec 16 := 0x04
abbrev BPF_JMP : BitVec 16 := 0x05
abbrev BPF_RET : BitVec 16 := 0x06
abbrev BPF_MISC : BitVec 16 := 0x07

abbrev BPF_W : BitVec 16 := 0x00
abbrev BPF_H : BitVec 16 := 0x08
abbrev BPF_B : BitVec 16 := 0x10

abbrev BPF_IMM : BitVec 16 := 0x00
abbrev BPF_ABS : BitVec 16 := 0x20
abbrev BPF_IND : BitVec 16 := 0x40
abbrev BPF_MEM : BitVec 16 := 0x60
abbrev BPF_LEN : BitVec 16 := 0x80
abbrev BPF_MSH : BitVec 16 := 0xa0

abbrev BPF_ADD : BitVec 16 := 0x00
abbrev BPF_SUB : BitVec 16 := 0x10
abbrev BPF_MUL : BitVec 16 := 0x20
abbrev BPF_DIV : BitVec 16 := 0x30
abbrev BPF_OR : BitVec 16 := 0x40
abbrev BPF_AND : BitVec 16 := 0x50
abbrev BPF_LSH : BitVec 16 := 0x60
abbrev BPF_RSH : BitVec 16 := 0x70
abbrev BPF_NEG : BitVec 16 := 0x80

abbrev BPF_JA : BitVec 16 := 0x00
abbrev BPF_JEQ : BitVec 16 := 0x10
abbrev BPF_JGT : BitVec 16 := 0x20
abbrev BPF_JGE : BitVec 16 := 0x30
abbrev BPF_JSET : BitVec 16 := 0x40

abbrev BPF_K : BitVec 16 := 0x00
abbrev BPF_X : BitVec 16 := 0x08
abbrev BPF_A : BitVec 16 := 0x10

abbrev BPF_TAX : BitVec 16 := 0x00
abbrev BPF_TXA : BitVec 16 := 0x80

/-- `struct bpf_insn`. -/
structure BpfInsn where
  code : BitVec 16
  jt : Byte
  jf : Byte
  k : Word
  deriving DecidableEq, Repr

/-- The second operand of a jump or an arithmetic instruction: `pc->k` or `X`. -/
inductive Src where
  | k
  | x
  deriving DecidableEq, Repr

inductive Cond where
  | gt
  | ge
  | eq
  | set
  deriving DecidableEq, Repr

inductive AluOp where
  | add
  | sub
  | mul
  | div
  | and
  | or
  | lsh
  | rsh
  deriving DecidableEq, Repr

/-- The case labels of the switch in `bpf_filter`. -/
inductive Op where
  | retK
  | retA
  | ldWAbs
  | ldHAbs
  | ldBAbs
  | ldWLen
  | ldxWLen
  | ldWInd
  | ldHInd
  | ldBInd
  | ldxMshB
  | ldImm
  | ldxImm
  | ldMem
  | ldxMem
  | st
  | stx
  | ja
  | jmp (c : Cond) (src : Src)
  | alu (op : AluOp) (src : Src)
  | neg
  | tax
  | txa
  deriving DecidableEq, Repr

def Src.code : Src → BitVec 16
  | .k => BPF_K
  | .x => BPF_X

def Cond.code : Cond → BitVec 16
  | .gt => BPF_JGT
  | .ge => BPF_JGE
  | .eq => BPF_JEQ
  | .set => BPF_JSET

def AluOp.code : AluOp → BitVec 16
  | .add => BPF_ADD
  | .sub => BPF_SUB
  | .mul => BPF_MUL
  | .div => BPF_DIV
  | .and => BPF_AND
  | .or => BPF_OR
  | .lsh => BPF_LSH
  | .rsh => BPF_RSH

/-- The opcode of each case label. -/
def Op.code : Op → BitVec 16
  | .retK => BPF_RET ||| BPF_K
  | .retA => BPF_RET ||| BPF_A
  | .ldWAbs => BPF_LD ||| BPF_W ||| BPF_ABS
  | .ldHAbs => BPF_LD ||| BPF_H ||| BPF_ABS
  | .ldBAbs => BPF_LD ||| BPF_B ||| BPF_ABS
  | .ldWLen => BPF_LD ||| BPF_W ||| BPF_LEN
  | .ldxWLen => BPF_LDX ||| BPF_W ||| BPF_LEN
  | .ldWInd => BPF_LD ||| BPF_W ||| BPF_IND
  | .ldHInd => BPF_LD ||| BPF_H ||| BPF_IND
  | .ldBInd => BPF_LD ||| BPF_B ||| BPF_IND
  | .ldxMshB => BPF_LDX ||| BPF_MSH ||| BPF_B
  | .ldImm => BPF_LD ||| BPF_IMM
  | .ldxImm => BPF_LDX ||| BPF_IMM
  | .ldMem => BPF_LD ||| BPF_MEM
  | .ldxMem => BPF_LDX ||| BPF_MEM
  | .st => BPF_ST
  | .stx => BPF_STX
  | .ja => BPF_JMP ||| BPF_JA
  | .jmp c src => BPF_JMP ||| c.code ||| src.code
  | .alu op src => BPF_ALU ||| op.code ||| src.code
  | .neg => BPF_ALU ||| BPF_NEG
  | .tax => BPF_MISC ||| BPF_TAX
  | .txa => BPF_MISC ||| BPF_TXA

/-- The case labels in the order of the switch. -/
def Op.labels : List Op :=
  [.retK, .retA, .ldWAbs, .ldHAbs, .ldBAbs, .ldWLen, .ldxWLen, .ldWInd, .ldHInd, .ldBInd,
    .ldxMshB, .ldImm, .ldxImm, .ldMem, .ldxMem, .st, .stx, .ja,
    .jmp .gt .k, .jmp .ge .k, .jmp .eq .k, .jmp .set .k,
    .jmp .gt .x, .jmp .ge .x, .jmp .eq .x, .jmp .set .x,
    .alu .add .x, .alu .sub .x, .alu .mul .x, .alu .div .x,
    .alu .and .x, .alu .or .x, .alu .lsh .x, .alu .rsh .x,
    .alu .add .k, .alu .sub .k, .alu .mul .k, .alu .div .k,
    .alu .and .k, .alu .or .k, .alu .lsh .k, .alu .rsh .k,
    .neg, .tax, .txa]

/-- The case an opcode selects; `none` is the default case. -/
def decode (code : BitVec 16) : Option Op :=
  Op.labels.find? fun o => o.code == code

theorem code_of_decode {code : BitVec 16} {o : Op} (h : decode code = some o) :
    o.code = code := by
  simpa using List.find?_some h

theorem decode_code (o : Op) : decode o.code = some o := by
  cases o with
  | jmp c src => cases c <;> cases src <;> rfl
  | alu op src => cases op <;> cases src <;> rfl
  | _ => rfl

/-! ## Packets -/

/-- What is accessed where the C gives no meaning to the access. -/
inductive Fault where
  | fetch
  | packet
  | mem
  | divZero
  deriving DecidableEq, Repr

/-- What the argument `p` of `bpf_filter` points at: the packet's bytes, or the first mbuf
of a chain with the mbufs after it, each given by its `m_len` bytes of data. -/
inductive Packet where
  | buffer (p : List Byte)
  | chain (m : List Byte) (next : List (List Byte))
  deriving DecidableEq, Repr

/-- `p[i]`, inside the bytes `p` points at. -/
def byteAt (p : List Byte) (i : Int) : Except Fault Byte :=
  if 0 ≤ i then
    match p[i.toNat]? with
    | some b => .ok b
    | none => .error .packet
  else .error .packet

def extractShort (p : List Byte) (i : Int) : Except Fault (BitVec 16) := do
  return (← byteAt p i) ++ (← byteAt p (i + 1))

def extractLong (p : List Byte) (i : Int) : Except Fault Word := do
  return (← byteAt p i) ++ (← byteAt p (i + 1)) ++ (← byteAt p (i + 2)) ++ (← byteAt p (i + 3))

/-- The loop that opens `MINDEX`, `m_xword` and `m_xhalf`: the mbuf that `k` falls in, the
mbufs after it, and the rest of `k`; `none` when the chain ends first. -/
def mSkip (m : List Byte) (next : List (List Byte)) (k : Int) :
    Option (List Byte × List (List Byte) × Int) :=
  if k ≥ m.length then
    match next with
    | [] => none
    | m' :: next' => mSkip m' next' (k - m.length)
  else some (m, next, k)

/-- The switch of `m_xword`: a word at `k` in the mbuf `m` that ends in the mbuf `m0`. The
pointer `cp` already includes `k`, and is indexed by `k` once more. -/
def mXwordSplit (m m0 : List Byte) (k : Int) : Except Fault Word :=
  let len : Int := m.length
  let cp (i : Int) := byteAt m (k + i)
  let np (i : Int) := byteAt m0 i
  if len - k = 1 then do
    return (← cp k) ++ (← np 0) ++ (← np 1) ++ (← np 2)
  else if len - k = 2 then do
    return (← cp k) ++ (← cp (k + 1)) ++ (← np 0) ++ (← np 1)
  else do
    return (← cp k) ++ (← cp (k + 1)) ++ (← cp (k + 2)) ++ (← np 0)

/-- `m_xword`: the word at `k` of a chain, and `*err`. -/
def mXword (m : List Byte) (next : List (List Byte)) (k : Int) : Except Fault (Word × Bool) :=
  match mSkip m next k with
  | none => .ok (0, true)
  | some (m, next, k) =>
    let len : Int := m.length
    if len - k ≥ 4 then do
      return (← extractLong m k, false)
    else
      match next with
      | [] => .ok (0, true)
      | m0 :: _ =>
        if m0.length + len - k < 4 then .ok (0, true)
        else do
          return (← mXwordSplit m m0 k, false)

/-- `m_xhalf`: the half-word at `k` of a chain, and `*err`. -/
def mXhalf (m : List Byte) (next : List (List Byte)) (k : Int) : Except Fault (Word × Bool) :=
  match mSkip m next k with
  | none => .ok (0, true)
  | some (m, next, k) =>
    let len : Int := m.length
    if len - k ≥ 2 then do
      return ((← extractShort m k).setWidth 32, false)
    else
      match next with
      | [] => .ok (0, true)
      | m0 :: _ => do
        return (((← byteAt m (k + k)) ++ (← byteAt m0 0)).setWidth 32, false)

/-- `MINDEX` and the access after it; `none` is its `return 0`. -/
def mByte (m : List Byte) (next : List (List Byte)) (k : Int) : Except Fault (Option Byte) :=
  match mSkip m next k with
  | none => .ok none
  | some (m, _, k) => do
    return some (← byteAt m k)

/-- The packet loads; `none` is `return 0`. When the access is out of reach of `buflen`,
`short`, the interpreter takes `p` for an mbuf chain if `buflen` is 0. -/
def load (p : Packet) (buflen : Word) (short : Bool) (buffer : List Byte → Except Fault Word)
    (chain : List Byte → List (List Byte) → Except Fault (Option Word)) :
    Except Fault (Option Word) :=
  if short then
    if buflen ≠ 0 then .ok none
    else
      match p with
      | .buffer _ => .error .packet
      | .chain m next => chain m next
  else
    match p with
    | .buffer p => (buffer p).map some
    | .chain _ _ => .error .packet

/-- The word loads. The sum `k + sizeof(long)` is unsigned. -/
def ldWord (p : Packet) (buflen k : Word) : Except Fault (Option Word) :=
  load p buflen (buflen < k + 4) (fun p => extractLong p k.toInt) fun m next => do
    let (a, merr) ← mXword m next k.toInt
    return if merr then none else some a

/-- The half-word loads. With `checkErr` unset the error of `m_xhalf` is dropped. -/
def ldHalf (checkErr : Bool) (p : Packet) (buflen k : Word) : Except Fault (Option Word) :=
  load p buflen (buflen < k + 2) (fun p => return (← extractShort p k.toInt).setWidth 32)
    fun m next => do
      let (a, merr) ← mXhalf m next k.toInt
      return if checkErr && merr then none else some a

/-- The byte loads. A byte of a chain is widened by `ext`. -/
def ldByte (ext : Byte → Word) (p : Packet) (buflen k : Word) : Except Fault (Option Word) :=
  load p buflen (buflen ≤ k) (fun p => return (← byteAt p k.toInt).setWidth 32) fun m next =>
    return (← mByte m next k.toInt).map ext

/-- `BPF_LD|BPF_H|BPF_ABS`, which does not look at `merr`. -/
abbrev ldHalfAbs := ldHalf false

abbrev ldHalfInd := ldHalf true

abbrev ldByteAbs := ldByte fun b => b.setWidth 32

/-- `BPF_LD|BPF_B|BPF_IND`, which reads a chain through a `char *`. -/
abbrev ldByteInd := ldByte fun b => b.signExtend 32

/-- The header length of `BPF_LDX|BPF_MSH|BPF_B`. -/
def msh (b : Word) : Word := (b &&& 0xf) <<< 2

/-! ## The interpreter -/

abbrev BPF_MEMWORDS : Nat := 16

/-- The state at the head of the loop. `pc` is an index into the program. -/
structure State where
  pc : Int
  A : Word
  X : Word
  mem : Fin BPF_MEMWORDS → Word

/-- The scratch word `mem[k]`. -/
def memIndex (k : Word) : Option (Fin BPF_MEMWORDS) :=
  if 0 ≤ k.toInt then
    if h : k.toInt.toNat < BPF_MEMWORDS then some ⟨k.toInt.toNat, h⟩ else none
  else none

def Cond.test (c : Cond) (a b : Word) : Bool :=
  match c with
  | .gt => b < a
  | .ge => b ≤ a
  | .eq => a == b
  | .set => a &&& b != 0

/-- The arithmetic instructions but for division. The i386 shifts by the low five bits of
the count. -/
def AluOp.eval (op : AluOp) (a b : Word) : Word :=
  match op with
  | .add => a + b
  | .sub => a - b
  | .mul => a * b
  | .div => a / b
  | .and => a &&& b
  | .or => a ||| b
  | .lsh => a <<< (b.toNat % 32)
  | .rsh => a >>> (b.toNat % 32)

def State.operand (s : State) (i : BpfInsn) : Src → Word
  | .k => i.k
  | .x => s.X

/-- `continue`, with the `++pc` at the head of the loop. -/
def State.cont (s : State) : Outcome State Word Fault := .next { s with pc := s.pc + 1 }

/-- End a packet load: `return 0`, or go on with the value put in place by `put`. -/
def State.loaded (s : State) (v : Except Fault (Option Word)) (put : Word → State) :
    Outcome State Word Fault :=
  match v with
  | .error e => .fault e
  | .ok none => .ret 0
  | .ok (some a) => { put a with pc := s.pc }.cont

/-- The case of the switch that `o` labels. -/
def exec (p : Packet) (wirelen buflen : Word) (i : BpfInsn) (s : State) (o : Op) :
    Outcome State Word Fault :=
  match o with
  | .retK => .ret i.k
  | .retA => .ret s.A
  | .ldWAbs => s.loaded (ldWord p buflen i.k) fun a => { s with A := a }
  | .ldHAbs => s.loaded (ldHalfAbs p buflen i.k) fun a => { s with A := a }
  | .ldBAbs => s.loaded (ldByteAbs p buflen i.k) fun a => { s with A := a }
  | .ldWLen => { s with A := wirelen }.cont
  | .ldxWLen => { s with X := wirelen }.cont
  | .ldWInd => s.loaded (ldWord p buflen (s.X + i.k)) fun a => { s with A := a }
  | .ldHInd => s.loaded (ldHalfInd p buflen (s.X + i.k)) fun a => { s with A := a }
  | .ldBInd => s.loaded (ldByteInd p buflen (s.X + i.k)) fun a => { s with A := a }
  | .ldxMshB => s.loaded (ldByteAbs p buflen i.k) fun a => { s with X := msh a }
  | .ldImm => { s with A := i.k }.cont
  | .ldxImm => { s with X := i.k }.cont
  | .ldMem =>
    match memIndex i.k with
    | some j => { s with A := s.mem j }.cont
    | none => .fault .mem
  | .ldxMem =>
    match memIndex i.k with
    | some j => { s with X := s.mem j }.cont
    | none => .fault .mem
  | .st =>
    match memIndex i.k with
    | some j => { s with mem := Function.update s.mem j s.A }.cont
    | none => .fault .mem
  | .stx =>
    match memIndex i.k with
    | some j => { s with mem := Function.update s.mem j s.X }.cont
    | none => .fault .mem
  | .ja => { s with pc := s.pc + i.k.toInt }.cont
  | .jmp c src =>
    let off : Byte := if c.test s.A (s.operand i src) then i.jt else i.jf
    { s with pc := s.pc + off.toNat }.cont
  | .alu .div .x => if s.X = 0 then .ret 0 else { s with A := s.A / s.X }.cont
  | .alu .div .k => if i.k = 0 then .fault .divZero else { s with A := s.A / i.k }.cont
  | .alu op src => { s with A := op.eval s.A (s.operand i src) }.cont
  | .neg => { s with A := -s.A }.cont
  | .tax => { s with X := s.A }.cont
  | .txa => { s with A := s.X }.cont

/-- The instruction `*pc`. -/
def fetch (f : List BpfInsn) (pc : Int) : Option BpfInsn :=
  if 0 ≤ pc then f[pc.toNat]? else none

/-- One turn of the interpreter loop. An opcode without a case is `return 0`. -/
def step (f : List BpfInsn) (p : Packet) (wirelen buflen : Word) (s : State) :
    Outcome State Word Fault :=
  match fetch f s.pc with
  | none => .fault .fetch
  | some i =>
    match decode i.code with
    | none => .ret 0
    | some o => exec p wirelen buflen i s o

section Step

variable {f : List BpfInsn} {p : Packet} {wirelen buflen : Word} {i : BpfInsn} {s : State}

theorem step_of_fetch_none (hi : fetch f s.pc = none) :
    step f p wirelen buflen s = .fault .fetch := by
  simp [step, hi]

theorem step_of_decode_none (hi : fetch f s.pc = some i) (ho : decode i.code = none) :
    step f p wirelen buflen s = .ret 0 := by
  simp [step, hi, ho]

theorem step_eq_exec {o : Op} (hi : fetch f s.pc = some i) (ho : decode i.code = some o) :
    step f p wirelen buflen s = exec p wirelen buflen i s o := by
  simp [step, hi, ho]

end Step

/-- `bpf_filter` for at most `n` instructions. The registers and the scratch words are
not initialised: `A`, `X` and `mem` are what the stack holds on entry. No program at all
accepts the packet. -/
def bpfFilter (pc : Option (List BpfInsn)) (p : Packet) (wirelen buflen : Word) (A X : Word)
    (mem : Fin BPF_MEMWORDS → Word) (n : ℕ) : Outcome State Word Fault :=
  match pc with
  | none => .ret (-1)
  | some f => Machine.run (step f p wirelen buflen) n ⟨0, A, X, mem⟩

/-! ## The checker -/

/-- Addition of an `int` to an index; the sum wraps at 32 bits. -/
def addInt (from_ : Int) (k : Word) : Int := (from_ + k.toInt).bmod (2 ^ 32)

/-- The body of the loop of `bpf_validate` for the instruction at `i`. The sums with `jt` and
`jf` cannot overflow: the program fits the address space. -/
def insnOk (len : Int) (i : Int) (p : BpfInsn) : Bool :=
  let from_ := i + 1
  if BPF_CLASS p.code = BPF_JMP ∧
      (if BPF_OP p.code = BPF_JA then addInt from_ p.k ≥ len
        else from_ + p.jt.toNat ≥ len ∨ from_ + p.jf.toNat ≥ len) then false
  else if (BPF_CLASS p.code = BPF_ST ∨
        BPF_CLASS p.code = BPF_LD ∧ p.code &&& 0xe0 = BPF_MEM) ∧
      (p.k.toInt ≥ BPF_MEMWORDS ∨ p.k.toInt < 0) then false
  else if p.code = BPF_ALU ||| BPF_DIV ||| BPF_K ∧ p.k = 0 then false
  else true

/-- `bpf_validate`, for a program of at least one instruction. -/
def bpfValidate (f : List BpfInsn) : Bool :=
  (f.zipIdx.all fun (p, i) => insnOk f.length i p) &&
    match f.getLast? with
    | some p => BPF_CLASS p.code = BPF_RET
    | none => false

end Bpf
