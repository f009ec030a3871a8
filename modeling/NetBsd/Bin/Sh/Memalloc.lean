import Mathlib.Data.Int.Basic
import Mathlib.Data.List.Nodup
import Mathlib.Logic.Function.Basic
import Mathlib.Tactic.Common
import NetBsd.Lib.Fault

/-!
# The stack of the shell's memory

`memalloc.c` of the shell: storage that is given back in the order opposite to that in which it
was taken. It is a chain of blocks, of which the last one has the free space; a string that is
being made lies at the start of this space, and is moved when it outgrows it.

The users of the storage are modelled with it: the items they have, with the bytes they have
written in them, and the marks they will return to.

## Main definitions

* `Memalloc.Sh`: the variables of `memalloc.c`, the blocks and the bytes of memory
* `Memalloc.Sh.stalloc` and its companions: the routines
* `Memalloc.Users`, `Memalloc.Op`, `Memalloc.step`: the users of the storage and what they call
* `Memalloc.Op.Disciplined`: calls in the order of a stack
* `Memalloc.Op.Safe`: calls that `memalloc.c` is fit for
-/

namespace Memalloc

abbrev Byte := BitVec 8

/-- The minimum size of a block. -/
def MINSIZE : ℤ := 504

/-- The bytes of a `struct stack_block` before its `space`. -/
def header : ℤ := 4

/-- `ALIGN(nbytes)`, to multiples of `sizeof(union align)` -/
def ALIGN (nbytes : ℤ) : ℤ := (nbytes + 3) / 4 * 4

/-- `sp->space` -/
def space (sp : ℤ) : ℤ := sp + header

/-- `&stackbase`, wherever it may be -/
def stackbase : ℤ := 4096

/-- A `struct stack_block`, with the size of its `space`. -/
structure Block where
  prev : ℤ
  room : ℤ
  deriving DecidableEq

/-- The variables of `memalloc.c`, and the memory. Addresses are numbers. -/
structure Sh where
  blocks : ℤ → Option Block
  mem : ℤ → Byte
  stackp : ℤ
  stacknxt : ℤ
  stacknleft : ℤ
  sstrnleft : ℤ

/-- A `struct stackmark`. -/
structure StackMark where
  stackp : ℤ
  stacknxt : ℤ
  stacknleft : ℤ
  deriving DecidableEq

/-- `bcopy(src, dst, n)` -/
def bcopy (mem : ℤ → Byte) (src dst : ℤ) (n : ℤ) : ℤ → Byte := fun a =>
  if dst ≤ a ∧ a < dst + n then mem (src + (a - dst)) else mem a

namespace Sh

variable (s : Sh)

/-- The space that `stalloc` goes to when the block is too small: `ckmalloc` has returned `sp`. -/
def newBlock (sp : ℤ) (blocksize : ℤ) : Sh :=
  { s with
    blocks := Function.update s.blocks sp (some ⟨s.stackp, blocksize⟩)
    stacknxt := space sp
    stacknleft := blocksize
    stackp := sp }

/-- The front of the free space is taken. -/
def take (nbytes : ℤ) : Sh :=
  { s with stacknxt := s.stacknxt + nbytes, stacknleft := s.stacknleft - nbytes }

/-- `stalloc(nbytes)`, with the block that `ckmalloc` returns if it is asked -/
def stalloc (nbytes : ℤ) (sp : ℤ) : ℤ × Sh :=
  let nbytes := ALIGN nbytes
  let s := if s.stacknleft < nbytes then s.newBlock sp (max nbytes MINSIZE) else s
  (s.stacknxt, s.take nbytes)

/-- `stunalloc(p)` -/
def stunalloc (p : ℤ) : Sh :=
  { s with stacknleft := s.stacknleft + (s.stacknxt - p), stacknxt := p }

/-- `setstackmark(mark)` -/
def setstackmark : StackMark := ⟨s.stackp, s.stacknxt, s.stacknleft⟩

/-- `sp->prev` -/
def prevOf (sp : ℤ) : Except Fault ℤ :=
  match s.blocks sp with
  | none => .error .deref
  | some b => .ok b.prev

/-- `ckfree(sp)`; `stackbase` is not of `malloc`'s making. -/
def ckfree (sp : ℤ) : Except Fault Sh :=
  if sp = stackbase then .error .deref
  else
    match s.blocks sp with
    | none => .error .deref
    | some _ => .ok { s with blocks := Function.update s.blocks sp none }

/-- The loop of `popstackmark`, for at most so many turns. -/
def popBlocks (target : ℤ) : ℕ → Sh → Except Fault Sh
  | 0, s => if s.stackp = target then .ok s else .error .loop
  | turns + 1, s =>
    if s.stackp = target then .ok s
    else do
      let p ← s.prevOf s.stackp
      let s ← ckfree { s with stackp := p } s.stackp
      popBlocks target turns s

/-- `popstackmark(mark)` -/
def popstackmark (turns : ℕ) (mark : StackMark) : Except Fault Sh := do
  let s ← popBlocks mark.stackp turns s
  return { s with stacknxt := mark.stacknxt, stacknleft := mark.stacknleft }

/-- `newlen` of `growstackblock` -/
def newlen : ℤ := s.stacknleft * 2 + 100

/-- `growstackblock` grows a block that holds nothing else where it is. -/
def AtStart : Prop := s.stacknxt = space s.stackp ∧ s.stackp ≠ stackbase

instance : Decidable s.AtStart := inferInstanceAs (Decidable (_ ∧ _))

/-- `growstackblock()`, with what `ckrealloc` or `ckmalloc` returns -/
def growstackblock (sp : ℤ) : Except Fault Sh :=
  if s.AtStart then
    match s.blocks s.stackp with
    | none => .error .deref
    | some b =>
      .ok { s with
            blocks := Function.update (Function.update s.blocks s.stackp none) sp
              (some ⟨b.prev, s.newlen⟩)
            mem := bcopy s.mem s.stackp sp (header + min b.room s.newlen)
            stackp := sp
            stacknxt := space sp
            stacknleft := s.newlen }
  else
    let (p, t) := s.stalloc s.newlen sp
    .ok { t with
          mem := bcopy t.mem s.stacknxt p s.stacknleft
          stacknxt := p
          stacknleft := t.stacknleft + s.newlen }

/-- `grabstackblock(len)` -/
def grabstackblock (len : ℤ) : Sh := s.take (ALIGN len)

/-- `growstackstr()` without a here document: where the string goes on. -/
def growstackstr (sp : ℤ) : Except Fault (ℤ × Sh) := do
  let len := s.stacknleft
  let t ← s.growstackblock sp
  return (t.stacknxt + len, { t with sstrnleft := t.stacknleft - len - 1 })

/-- `makestrspace()`: where the string goes on. -/
def makestrspace (sp : ℤ) : Except Fault (ℤ × Sh) := do
  let len := s.stacknleft - s.sstrnleft
  let t ← s.growstackblock sp
  return (t.stacknxt + len, { t with sstrnleft := t.stacknleft - len })

/-- `ungrabstackstr(s, p)` -/
def ungrabstackstr (str p : ℤ) : Sh :=
  let t := s.stunalloc str
  { t with sstrnleft := t.stacknleft - (p - str) }

end Sh

/-! ## Users -/

/-- Storage that a user has: its address, the bytes in it, the block that it was taken from, and
the number of marks that there were then. -/
structure Item where
  addr : ℤ
  data : List Byte
  home : ℤ
  level : ℕ

def Item.stop (x : Item) : ℤ := x.addr + x.data.length

/-- The byte at `a` is one of the item's. -/
def Item.Covers (x : Item) (a : ℤ) : Prop := x.addr ≤ a ∧ a < x.stop

/-- The item after a user has written at `a`. -/
def Item.put (x : Item) (a : ℤ) (b : Byte) : Item :=
  if x.addr ≤ a then { x with data := x.data.set (a - x.addr).toNat b } else x

/-- The bytes from `a` on. -/
def bytesAt (mem : ℤ → Byte) (a : ℤ) (n : ℕ) : List Byte :=
  (List.range n).map fun i : ℕ => mem (a + i)

/-- A mark, with what there was when it was set. -/
structure Mark where
  saved : StackMark
  was : Sh

/-- The storage with its users: the latest items and marks come first. -/
structure Users where
  sh : Sh
  items : List Item
  marks : List Mark

/-- What users call, with the answers of `malloc` and `realloc`, and the bytes they write. A string
is made by writing and by `adjust`, which is what `STPUTC`, `STUNPUTC` and `STADJUST` do to
`sstrnleft`; `grabstackstr` is a `stalloc`. -/
inductive Op where
  | stalloc (nbytes : ℤ) (sp : ℤ)
  | stunalloc
  | setstackmark
  | popstackmark
  | growstackblock (sp : ℤ)
  | grabstackblock (len : ℤ)
  | growstackstr (sp : ℤ)
  | makestrspace (sp : ℤ)
  | ungrabstackstr (p : ℤ)
  | adjust (amount : ℤ)
  | write (a : ℤ) (b : Byte)

/-- Someone takes `n` bytes at `addr` of the block that is now current. -/
def Users.add (c : Users) (s : Sh) (addr : ℤ) (n : ℤ) : Users :=
  { c with
    sh := s
    items := ⟨addr, bytesAt s.mem addr n.toNat, s.stackp, c.marks.length⟩ :: c.items }

/-- A call, for at most so many turns of its loop. -/
def step (turns : ℕ) (op : Op) (c : Users) : Except Fault Users :=
  match op with
  | .stalloc nbytes sp =>
    let (p, s) := c.sh.stalloc nbytes sp
    .ok (c.add s p (ALIGN nbytes))
  | .stunalloc =>
    match c.items with
    | [] => .error .panic
    | x :: items => .ok { c with sh := c.sh.stunalloc x.addr, items := items }
  | .setstackmark => .ok { c with marks := ⟨c.sh.setstackmark, c.sh⟩ :: c.marks }
  | .popstackmark =>
    match c.marks with
    | [] => .error .panic
    | m :: marks => do
      let s ← c.sh.popstackmark turns m.saved
      return { sh := s, items := c.items.filter (·.level ≤ marks.length), marks := marks }
  | .growstackblock sp => do
    let s ← c.sh.growstackblock sp
    return { c with sh := s }
  | .grabstackblock len => .ok (c.add (c.sh.grabstackblock len) c.sh.stacknxt (ALIGN len))
  | .growstackstr sp => do
    let (_, s) ← c.sh.growstackstr sp
    return { c with sh := s }
  | .makestrspace sp => do
    let (_, s) ← c.sh.makestrspace sp
    return { c with sh := s }
  | .ungrabstackstr p =>
    match c.items with
    | [] => .error .panic
    | x :: items => .ok { c with sh := c.sh.ungrabstackstr x.addr p, items := items }
  | .adjust amount =>
    .ok { c with sh := { c.sh with sstrnleft := c.sh.sstrnleft - amount } }
  | .write a b =>
    .ok { c with
          sh := { c.sh with mem := Function.update c.sh.mem a b }
          items := c.items.map (·.put a b) }

/-- Where `malloc` can put a block of so many bytes: clear of the blocks there are, but for one
that `realloc` is about to move. -/
def Sh.Fresh (s : Sh) (moved : Option ℤ) (sp : ℤ) (size : ℤ) : Prop :=
  ∀ a b, some a ≠ moved → s.blocks a = some b →
    a + header + b.room ≤ sp ∨ sp + header + size ≤ a

/-- What `growstackblock` can be given by `realloc` or `malloc`. -/
def Sh.GrowsAt (s : Sh) (sp : ℤ) : Prop :=
  if s.AtStart then s.Fresh (some s.stackp) sp s.newlen
  else s.Fresh none sp (max s.newlen MINSIZE)

/-- Calls in the order of a stack: the latest item is given back, marks are returned to latest
first, and no more is grabbed than there is. -/
def Op.Disciplined (c : Users) : Op → Prop
  | .stalloc nbytes sp => 0 ≤ nbytes ∧
      (c.sh.stacknleft < ALIGN nbytes → c.sh.Fresh none sp (max (ALIGN nbytes) MINSIZE))
  | .stunalloc => c.items ≠ []
  | .setstackmark => True
  | .popstackmark => c.marks ≠ []
  | .growstackblock sp => c.sh.GrowsAt sp
  | .grabstackblock len => 0 ≤ len ∧ len ≤ c.sh.stacknleft
  | .growstackstr sp => c.sh.GrowsAt sp
  | .makestrspace sp => c.sh.GrowsAt sp
  | .ungrabstackstr p => ∃ x items, c.items = x :: items ∧ x.addr ≤ p ∧ p ≤ x.stop
  | .adjust _ => True
  | .write _ _ => True

/-- The block that grows stays where it is, or no mark is in it. -/
def Users.GrowsSafely (c : Users) (sp : ℤ) : Prop :=
  c.sh.AtStart → sp = c.sh.stackp ∨ ∀ m ∈ c.marks, m.saved.stackp ≠ c.sh.stackp

/-- The item that is given back was taken from the block that is current. -/
def Users.LatestHere (c : Users) : Prop := ∀ x ∈ c.items.head?, x.home = c.sh.stackp

/-- Calls that `memalloc.c` is fit for. -/
def Op.Safe (c : Users) : Op → Prop
  | .stunalloc => c.LatestHere
  | .ungrabstackstr _ => c.LatestHere
  | .growstackblock sp => c.GrowsSafely sp
  | .growstackstr sp => c.GrowsSafely sp
  | .makestrspace sp => c.GrowsSafely sp
  | _ => True

/-- The storage when the shell starts. -/
def Users.init (mem : ℤ → Byte) : Users where
  sh :=
    { blocks := fun a => if a = stackbase then some ⟨0, MINSIZE⟩ else none
      mem := mem
      stackp := stackbase
      stacknxt := space stackbase
      stacknleft := MINSIZE
      sstrnleft := 0 }
  items := []
  marks := []

/-- The storage after some calls, of which each is as `P` says. -/
inductive Reached (P : Users → Op → Prop) : Users → Prop where
  | init (mem : ℤ → Byte) : Reached P (Users.init mem)
  | step {turns : ℕ} {op : Op} {c c' : Users} (h : Reached P c) (hp : P c op)
      (h' : step turns op c = .ok c') : Reached P c'

end Memalloc
