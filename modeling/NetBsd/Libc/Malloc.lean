import Mathlib
import NetBsd.Lib.Threaded

/-!
# malloc

The allocator of `stdlib/malloc.c`, compiled without RCHECK and DEBUG, on a machine with 32-bit
addresses and integers. A block is a header of four bytes and the memory behind it. The header of a
free block links it to the next free block of its bucket; that of a block in use holds `MAGIC` and
the number of the bucket.

## Main definitions

* `Heap`: the static variables, the memory, and the break
* `malloc`, `morecore`, `free`, `realloc`, `findbucket`: the routines
* `Block`, `Step`, `Reached`: calls and writes of a program, with the blocks that are live
-/

namespace Malloc

open ByteMem

/-- A page size, as `getpagesize` returns it: a power of two, for which the block size of bucket
`bucket` is one page. -/
structure PageSize where
  bucket : ℕ
  lower : 1 ≤ bucket
  upper : bucket ≤ 26

/-- `getpagesize`. -/
def PageSize.size (pg : PageSize) : ℕ := 2 ^ (pg.bucket + 3)

/-- The static variables, the memory, and the break that `sbrk` moves. -/
structure Heap where
  pagesz : ℕ
  pagebucket : ℕ
  nextf : ℕ → ℕ
  mem : ByteMem
  brk : ℕ

/-- `NBUCKETS`. -/
def nBuckets : ℕ := 30

/-- `MAGIC`. -/
def magic : BitVec 8 := 0xef

/-- `sizeof (union overhead)`. -/
def overhead : ℕ := 4

/-- `sbrk`, which moves the break unless it fails. It fails where the address space ends. -/
def sbrk (h : Heap) (amt : ℕ) (ok : Bool) : Option (ℕ × Heap) :=
  if ok = true ∧ h.brk + amt < 2 ^ 32 then some (h.brk, { h with brk := h.brk + amt }) else none

/-- `while (pagesz > amt) { amt <<= 1; bucket++; }`. -/
def bucketLoop (pagesz : ℕ) : ℕ → ℕ → ℕ → ℕ
  | 0, _, bucket => bucket
  | fuel + 1, amt, bucket =>
    if pagesz > amt then bucketLoop pagesz fuel (amt * 2 % 2 ^ 32) (bucket + 1) else bucket

/-- The setup at the first call. `none` is the return after a failed `sbrk`. -/
def setup (pg : PageSize) (h : Heap) (ok : Bool) : Option Heap × Heap :=
  if h.pagesz = 0 then
    let h := { h with pagesz := pg.size }
    let n : ℤ := h.pagesz - overhead - h.brk % h.pagesz
    let n := if n < 0 then n + h.pagesz else n
    if n ≠ 0 then
      match sbrk h n.toNat ok with
      | none => (none, h)
      | some (_, h) =>
        let h := { h with pagebucket := bucketLoop h.pagesz 32 8 0 }
        (some h, h)
    else
      let h := { h with pagebucket := bucketLoop h.pagesz 32 8 0 }
      (some h, h)
  else
    (some h, h)

/-- `while (nbytes > amt + n) { amt <<= 1; if (amt == 0) return (NULL); bucket++; }`. -/
def sizeLoop (nbytes : ℕ) (n : ℤ) : ℕ → ℕ → ℕ → Option ℕ
  | 0, _, _ => none
  | fuel + 1, amt, bucket =>
    if (nbytes : ℤ) > (amt + n) % 2 ^ 32 then
      if amt * 2 % 2 ^ 32 = 0 then none
      else sizeLoop nbytes n fuel (amt * 2 % 2 ^ 32) (bucket + 1)
    else some bucket

/-- The bucket for a request. -/
def bucketFor (pagesz pagebucket nbytes : ℕ) : Option ℕ :=
  if (nbytes : ℤ) ≤ (pagesz : ℤ) - overhead then sizeLoop nbytes (-overhead) 32 8 0
  else sizeLoop nbytes ((pagesz : ℤ) - overhead) 32 pagesz pagebucket

/-- The `while` loop of `morecore`, with the number of blocks that are left. -/
def linkBlocks (sz : ℕ) : ℕ → ℕ → ByteMem → ByteMem
  | 0, _, m => m
  | n + 1, op, m => linkBlocks sz n (op + sz) (m.putPtr op (op + sz))

/-- `sz`, the size of a block in the bucket, as an `int`. -/
def blockInt (bucket : ℕ) : ℤ := (1#32 <<< (bucket + 3)).toInt

/-- How much `morecore` asks for. -/
def morecoreAmt (pagesz sz : ℕ) : ℕ := if sz < pagesz then pagesz else sz + pagesz

/-- `morecore`. -/
def morecore (h : Heap) (bucket : ℕ) (ok : Bool) : Heap :=
  if blockInt bucket ≤ 0 then h
  else
    let sz := (blockInt bucket).toNat
    let nblks := if sz < h.pagesz then h.pagesz / sz else 1
    match sbrk h (morecoreAmt h.pagesz sz) ok with
    | none => h
    | some (op, h) =>
      { h with
        nextf := Function.update h.nextf bucket op
        mem := linkBlocks sz (nblks - 1) op h.mem }

/-- The end of `malloc`: take a block off the list of the bucket. -/
def take (h : Heap) (bucket : ℕ) : Option ℕ × Heap :=
  let op := h.nextf bucket
  if op = 0 then (none, h)
  else
    (some (op + overhead), { h with
      nextf := Function.update h.nextf bucket (h.mem.getPtr op)
      mem := (h.mem.put8 op magic).put8 (op + 1) (BitVec.ofNat 8 bucket) })

/-- `malloc`. The flags say whether `sbrk` will serve the setup and `morecore`. -/
def malloc (pg : PageSize) (h : Heap) (nbytes : ℕ) (ok₀ ok₁ : Bool) : Option ℕ × Heap :=
  match setup pg h ok₀ with
  | (none, h) => (none, h)
  | (some h, _) =>
    match bucketFor h.pagesz h.pagebucket nbytes with
    | none => (none, h)
    | some bucket =>
      if h.nextf bucket = 0 then take (morecore h bucket ok₁) bucket else take h bucket

/-- `free` of a pointer that is not null. -/
def free (h : Heap) (cp : ℕ) : Heap :=
  let op := cp - overhead
  if h.mem op ≠ magic then h
  else
    let size := (h.mem (op + 1)).toNat
    { h with
      mem := h.mem.putPtr op (h.nextf size)
      nextf := Function.update h.nextf size op }

/-- Whether one of the first `srchlen` cells from `p` on is `freep`. -/
def searchList (m : ByteMem) (freep : ℕ) : ℕ → ℕ → Bool
  | 0, _ => false
  | srchlen + 1, p =>
    if p = 0 then false else if p = freep then true else searchList m freep srchlen (m.getPtr p)

/-- `findbucket`. -/
def findbucket (h : Heap) (freep srchlen : ℕ) : Option ℕ :=
  (List.range nBuckets).find? fun i => searchList h.mem freep srchlen (h.nextf i)

/-- The number of bytes in a block of the bucket, as `realloc` computes it. -/
def capacity (pagesz i : ℕ) : ℕ :=
  let onb := 2 ^ ((i + 3) % 32)
  if onb < pagesz then (onb + 2 ^ 32 - overhead) % 2 ^ 32 else onb + pagesz - overhead

/-- The bound below which a request does not stay in its block. -/
def lowerBound (pagesz i : ℕ) : ℕ :=
  if i ≠ 0 then
    if 2 ^ (i + 2) < pagesz then 2 ^ (i + 2) - overhead else 2 ^ (i + 2) + pagesz - overhead
  else 0

/-- `bcopy`. -/
def bcopy (m : ByteMem) (src dst n : ℕ) : ByteMem :=
  fun j => if dst ≤ j ∧ j < dst + n then m (src + (j - dst)) else m j

/-- `realloc`; a null pointer is `none`. `srchlen` is `realloc_srchlen`. -/
def realloc (pg : PageSize) (h : Heap) (srchlen : ℕ) (cp : Option ℕ) (nbytes : ℕ)
    (ok₀ ok₁ : Bool) : Option ℕ × Heap :=
  match cp with
  | none => malloc pg h nbytes ok₀ ok₁
  | some cp =>
    let op := cp - overhead
    let wasAlloced := h.mem op = magic
    let i := if wasAlloced then (h.mem (op + 1)).toNat
      else ((findbucket h op 1).orElse fun _ => findbucket h op srchlen).getD nBuckets
    let onb := capacity h.pagesz i
    if wasAlloced ∧ nbytes ≤ onb ∧ nbytes > lowerBound h.pagesz i then (some cp, h)
    else
      let h := if wasAlloced then free h cp else h
      match malloc pg h nbytes ok₀ ok₁ with
      | (none, h) => (none, h)
      | (some res, h) =>
        if cp ≠ res then (some res, { h with mem := bcopy h.mem cp res (min nbytes onb) })
        else (some res, h)

/-! ## Programs -/

/-- A live block: its address, its bucket, and how many bytes were asked for. -/
structure Block where
  cp : ℕ
  bucket : ℕ
  req : ℕ
  deriving DecidableEq, Repr

/-- The heap, and the live blocks. -/
structure State where
  heap : Heap
  live : List Block

/-- The block that a call returned. -/
def Block.at (h : Heap) (cp nbytes : ℕ) : Block :=
  ⟨cp, (h.mem (cp - overhead + 1)).toNat, nbytes⟩

/-- What a program does. -/
inductive Act where
  | malloc (nbytes : ℕ) (ok₀ ok₁ : Bool)
  | free (x : Block)
  | realloc (x : Option Block) (nbytes : ℕ) (ok₀ ok₁ : Bool)
  | write (x : Block) (k : ℕ) (v : BitVec 8)

/-- One action, with the pointer that it returns. The program frees, reallocates and writes live
blocks only, and writes a block only in the part that it asked for. -/
inductive Step (pg : PageSize) (srchlen : ℕ) (s : State) : Act → Option ℕ → State → Prop where
  | mallocNull (nbytes : ℕ) (ok₀ ok₁ : Bool) (h : Heap) (hn : nbytes < 2 ^ 32)
      (hrun : malloc pg s.heap nbytes ok₀ ok₁ = (none, h)) :
      Step pg srchlen s (.malloc nbytes ok₀ ok₁) none ⟨h, s.live⟩
  | malloc (nbytes : ℕ) (ok₀ ok₁ : Bool) (h : Heap) (cp : ℕ) (hn : nbytes < 2 ^ 32)
      (hrun : malloc pg s.heap nbytes ok₀ ok₁ = (some cp, h)) :
      Step pg srchlen s (.malloc nbytes ok₀ ok₁) (some cp) ⟨h, .at h cp nbytes :: s.live⟩
  | free (x : Block) (hx : x ∈ s.live) :
      Step pg srchlen s (.free x) none ⟨free s.heap x.cp, s.live.erase x⟩
  | reallocNull (x : Option Block) (nbytes : ℕ) (ok₀ ok₁ : Bool) (h : Heap)
      (hx : ∀ y ∈ x, y ∈ s.live) (hn : nbytes < 2 ^ 32)
      (hrun : realloc pg s.heap srchlen (x.map Block.cp) nbytes ok₀ ok₁ = (none, h)) :
      Step pg srchlen s (.realloc x nbytes ok₀ ok₁) none ⟨h, s.live⟩
  | realloc (x : Option Block) (nbytes : ℕ) (ok₀ ok₁ : Bool) (h : Heap) (cp : ℕ)
      (hx : ∀ y ∈ x, y ∈ s.live) (hn : nbytes < 2 ^ 32)
      (hrun : realloc pg s.heap srchlen (x.map Block.cp) nbytes ok₀ ok₁ = (some cp, h)) :
      Step pg srchlen s (.realloc x nbytes ok₀ ok₁) (some cp)
        ⟨h, .at h cp nbytes :: (x.elim s.live s.live.erase)⟩
  | write (x : Block) (k : ℕ) (v : BitVec 8) (hx : x ∈ s.live) (hk : k < x.req) :
      Step pg srchlen s (.write x k v) none
        ⟨{ s.heap with mem := s.heap.mem.put8 (x.cp + k) v }, s.live⟩

/-- The states of runs from a heap without blocks, whose actions satisfy `P`. -/
inductive Reached (pg : PageSize) (srchlen : ℕ) (P : State → Act → Prop) : State → Prop where
  | init (m : ByteMem) (brk : ℕ) (hpos : 0 < brk) (hlt : brk < 2 ^ 32)
      (hm : ∀ a, brk ≤ a → m a = 0) : Reached pg srchlen P ⟨⟨0, 0, fun _ => 0, m, brk⟩, []⟩
  | step {s s' : State} {act : Act} {v : Option ℕ} (h : Reached pg srchlen P s)
      (hstep : Step pg srchlen s act v s') (hP : P s act) : Reached pg srchlen P s'

end Malloc
