import Mathlib
import NetBsd.Kern.Rlist

/-!
# The swap pager

`vm/swap_pager.c`: the backing store of an object is an array of swap blocks, all of one size, each
a bit mask of the pages that have been written and a run of disk blocks from `swapmap`. The
operations are modelled between completed transfers: the device carries a request out when
`VOP_STRATEGY` hands it over, and an asynchronous write is done, its `swap_pager_iodone` called,
before the next operation begins. The `spc` entry it leaves on `swap_pager_inuse` is reclaimed by
the next `swap_pager_clean`.

## Main definitions

* `swapPagerAlloc`, `swapPagerDealloc`, `swapPagerHaspage`: the operations on a pager
* `swapPagerIo`: `swap_pager_io`, which `swapPagerGetpage` and `swapPagerPutpage` call
* `Step`, `Run`: the operations one after another, with the pages put last
* `Kept`: what keeps the pages
-/

namespace SwapPager

def PAGE_SIZE : ℕ := 4096
def NSWSIZES : ℕ := 16
def npendingio : ℕ := 64
def MAXDADDRS : ℕ := 64
def DMMIN : ℕ := 32
def DMMAX : ℕ := 4096

def btodb (bytes : ℕ) : ℕ := bytes / 512
def dbtob (db : ℕ) : ℕ := db * 512
def atop (x : ℕ) : ℕ := x / PAGE_SIZE

/-- `round_page` of a size below `2 ^ 32`, in 32 bits. -/
def roundPage (x : ℕ) : ℕ := (x + (PAGE_SIZE - 1)) % 2 ^ 32 / PAGE_SIZE * PAGE_SIZE

/-- `struct swtab`: objects of at most `stOsize` bytes have swap blocks of `stBsize`. -/
structure Swtab where
  stOsize : ℕ
  stBsize : ℕ

/-- The largest swap block: one bit of `swb_mask` for each page. -/
def maxbsize : ℕ := min (btodb (32 * PAGE_SIZE)) DMMAX

/-- The loop of `swap_pager_init` with `n` entries to go, and the entry behind it. -/
def swtabFrom : ℕ → ℕ → List Swtab
  | 0, bsize => [⟨0, bsize⟩]
  | n + 1, bsize =>
    if bsize ≥ maxbsize then [⟨0, bsize⟩]
    else ⟨MAXDADDRS * dbtob bsize, bsize⟩ :: swtabFrom n (bsize * 2)

def swtab : List Swtab := swtabFrom NSWSIZES (max (btodb PAGE_SIZE) DMMIN)

/-- The block size for objects of `size` bytes; an entry of size 0 ends the table. -/
def bsizeFor (size : ℕ) : List Swtab → ℕ
  | [] => 0
  | swt :: rest =>
    if swt.stOsize = 0 ∨ size ≤ swt.stOsize then swt.stBsize else bsizeFor size rest

/-- `struct swblock`. -/
structure Swblock where
  swbMask : BitVec 32
  swbBlock : BitVec 32
  deriving DecidableEq, Repr

/-- `struct swpager` with the handle of its pager; `swBlocks` has `sw_nblocks` entries. -/
structure Swpager where
  pgHandle : Option ℕ
  swOsize : ℕ
  swBsize : ℕ
  swBlocks : List Swblock
  swNamed : Bool
  deriving DecidableEq, Repr

/-- `struct swpagerclean` of a page being written, or written. -/
structure Swpagerclean where
  spcDone : Bool
  spcSwp : ℕ
  spcM : ℕ
  deriving DecidableEq, Repr

/-- A page: which one it is, `m->offset + m->object->paging_offset`, and its contents by disk
block. -/
structure VmPage (α : Type) where
  addr : ℕ
  off : ℕ
  data : Fin 8 → α
  off_lt : off < 2 ^ 32
  aligned : off % PAGE_SIZE = 0

/-- The pagers by their address, `swap_pager_list`, `swap_pager_inuse`, the number of entries on
`swap_pager_free`, `swapmap`, and the swap device. -/
structure Swap (α : Type) where
  pagers : ℕ → Option Swpager
  pagerList : List ℕ
  inuse : List Swpagerclean
  free : ℕ
  swapmap : List Rlist
  disk : ℕ → α

/-- `VM_PAGER_OK`, `VM_PAGER_FAIL` and `VM_PAGER_PEND`. -/
inductive Rv where
  | ok
  | fail
  | pend
  deriving DecidableEq, Repr

/-- `B_READ`, `B_WRITE` and `B_WRITE | B_ASYNC`. -/
inductive Flags where
  | read
  | write
  | async
  deriving DecidableEq, Repr

variable {α : Type}

/-- Replace one pager. -/
def Swap.setPager (s : Swap α) (p : ℕ) (swp : Option Swpager) : Swap α :=
  { s with pagers := Function.update s.pagers p swp }

@[simp] theorem Swap.setPager_self (s : Swap α) (p : ℕ) (swp : Option Swpager) :
    (s.setPager p swp).pagers p = swp := Function.update_self ..

theorem Swap.setPager_of_ne (s : Swap α) {p q : ℕ} (swp : Option Swpager) (hq : q ≠ p) :
    (s.setPager p swp).pagers q = s.pagers q := Function.update_of_ne hq ..

/-- `vm_pager_lookup`. -/
def vmPagerLookup (s : Swap α) (handle : ℕ) : Option ℕ :=
  s.pagerList.find? fun p => (s.pagers p).any fun swp => swp.pgHandle = some handle

/-- A pager for an object of `size` bytes, its blocks not yet allocated. -/
def newPager (handle : Option ℕ) (size : ℕ) : Swpager :=
  let size := roundPage size
  let bsize := bsizeFor size swtab
  { pgHandle := handle
    swOsize := size
    swBsize := bsize
    swBlocks := List.replicate ((btodb size + bsize - 1) / bsize) ⟨0, 0⟩
    swNamed := handle.isSome }

/-- `swap_pager_alloc`; `mem` is the address of the pager that the calls of `malloc` make, if
none of them fails. -/
def swapPagerAlloc (handle : Option ℕ) (size : ℕ) (mem : Option ℕ) (s : Swap α) :
    Option ℕ × Swap α :=
  match handle.bind (vmPagerLookup s) with
  | some p => (some p, s)
  | none =>
    match mem with
    | none => (none, s)
    | some p =>
      let s := s.setPager p (some (newPager handle size))
      (some p, if handle.isSome then { s with pagerList := s.pagerList ++ [p] } else s)

/-- `swap_pager_clean`: the entries that are done become free, and whether page `m` is on one that
is not. The loop starts over after each entry it frees; nothing runs in between. -/
def swapPagerClean (m : Option ℕ) (s : Swap α) : Bool × Swap α :=
  let busy := s.inuse.filter fun spc => !spc.spcDone
  (busy.any fun spc => m = some spc.spcM,
    { s with inuse := busy, free := s.free + (s.inuse.length - busy.length) })

/-- The transfer of a page from the disk. -/
def readPage (disk : ℕ → α) (blkno : BitVec 32) : Fin 8 → α := fun i => disk (blkno.toNat + i)

/-- The transfer of a page to the disk. -/
def writePage (disk : ℕ → α) (blkno : BitVec 32) (data : Fin 8 → α) : ℕ → α := fun n =>
  if h : n - blkno.toNat < 8 then if blkno.toNat ≤ n then data ⟨n - blkno.toNat, h⟩ else disk n
  else disk n

/-- The bit of a page in `swb_mask`. -/
def pageBit (off : ℕ) : BitVec 32 := 1#32 <<< atop off

/-- The swap block `ix` of pager `p`, allocated when it was not; `none` when `rlist_alloc` finds
no space. -/
def allocBlock (p ix : ℕ) (swp : Swpager) (swb : Swblock) (s : Swap α) :
    Option (Swpager × Swblock × Swap α) :=
  if swb.swbBlock = 0 then
    match Rlist.rlistAlloc (BitVec.ofNat 32 swp.swBsize) s.swapmap with
    | none => none
    | some (loc, map) =>
      let swb := { swb with swbBlock := loc }
      let swp := { swp with swBlocks := swp.swBlocks.set ix swb }
      some (swp, swb, { s with swapmap := map }.setPager p (some swp))
  else some (swp, swb, s)

/-- The write of `swap_pager_io` to a swap block that is allocated. An asynchronous write takes
an `spc` entry and sets the bit of the page. -/
def startWrite (fl : Flags) (p ix : ℕ) (m : VmPage α) (swp : Swpager) (swb : Swblock)
    (s : Swap α) : Rv × Swap α :=
  let off := m.off % dbtob swp.swBsize
  let blkno := swb.swbBlock + BitVec.ofNat 32 (btodb off)
  let disk := writePage s.disk blkno m.data
  if fl = .async then
    let swb := { swb with swbMask := swb.swbMask ||| pageBit off }
    let swp := { swp with swBlocks := swp.swBlocks.set ix swb }
    let s := s.setPager p (some swp)
    (.pend, { s with inuse := s.inuse ++ [⟨false, p, m.addr⟩], free := s.free - 1, disk := disk })
  else (.ok, { s with disk := disk })

/-- `swap_pager_io`: the value it returns, the page, and the state. -/
def swapPagerIo (fl : Flags) (p : ℕ) (m : VmPage α) (s : Swap α) : Rv × VmPage α × Swap α :=
  let (cleaning, s) := swapPagerClean (some m.addr) s
  if fl = .async ∧ (cleaning = true ∨ s.free = 0) then (.fail, m, s)
  else
    match s.pagers p with
    | none => (.fail, m, s)
    | some swp =>
      let ix := m.off / dbtob swp.swBsize
      match swp.swBlocks[ix]? with
      | none => (.fail, m, s)
      | some swb =>
        let off := m.off % dbtob swp.swBsize
        if fl = .read then
          if swb.swbBlock = 0 ∨ swb.swbMask &&& pageBit off = 0 then (.fail, m, s)
          else
            let blkno := swb.swbBlock + BitVec.ofNat 32 (btodb off)
            (.ok, { m with data := readPage s.disk blkno }, s)
        else
          match allocBlock p ix swp swb s with
          | none => (.fail, m, s)
          | some (swp, swb, s) =>
            let (rv, s) := startWrite fl p ix m swp swb s
            (rv, m, s)

def swapPagerGetpage (p : ℕ) (m : VmPage α) (s : Swap α) : Rv × VmPage α × Swap α :=
  swapPagerIo .read p m s

def swapPagerPutpage (p : ℕ) (m : VmPage α) (sync : Bool) (s : Swap α) : Rv × Swap α :=
  let (rv, _, s) := swapPagerIo (if sync then .write else .async) p m s
  (rv, s)

/-- `swap_pager_iodone` for the request started last, whose entry is at the end of the queue. -/
def swapPagerIodone (s : Swap α) : Swap α :=
  { s with inuse := s.inuse.modify (s.inuse.length - 1) fun spc => { spc with spcDone := true } }

def swapPagerHaspage (p off : ℕ) (s : Swap α) : Bool :=
  match s.pagers p with
  | none => false
  | some swp =>
    match swp.swBlocks[off / dbtob swp.swBsize]? with
    | none => false
    | some swb =>
      swb.swbBlock ≠ 0 ∧ swb.swbMask &&& pageBit (off % dbtob swp.swBsize) ≠ 0

/-- The loop of `swap_pager_dealloc`; `mem i` says whether `malloc` has an element for the
`rlist_free` of swap block `i`. -/
def freeBlocks (bsize : ℕ) : (ℕ → Bool) → List Swblock → List Rlist → Except Fault (List Rlist)
  | _, [], map => .ok map
  | mem, bp :: rest, map =>
    if bp.swbBlock = 0 then freeBlocks bsize (fun i => mem (i + 1)) rest map
    else do
      let map ← Rlist.rlistFree (mem 0) map bp.swbBlock
        (bp.swbBlock + BitVec.ofNat 32 bsize - 1)
      freeBlocks bsize (fun i => mem (i + 1)) rest map

/-- `swap_pager_dealloc`; the wait for `sw_poip` is over, as all writes are done. -/
def swapPagerDealloc (mem : ℕ → Bool) (p : ℕ) (s : Swap α) : Except Fault (Swap α) :=
  match s.pagers p with
  | none => .error .deref
  | some swp => do
    let s := if swp.swNamed then { s with pagerList := s.pagerList.erase p } else s
    let (_, s) := swapPagerClean none s
    let map ← freeBlocks swp.swBsize mem swp.swBlocks s.swapmap
    .ok ({ s with swapmap := map }.setPager p none)

/-! ## Runs -/

/-- What the operations did: the contents put last for each pager and offset, and the disk blocks
that each pager has taken from `swapmap`. -/
structure Ghost (α : Type) where
  last : ℕ → ℕ → Option (Fin 8 → α)
  owned : ℕ → Set ℕ

/-- A put that returned `rv` and led from `s` to `s'`. -/
def Ghost.put (g : Ghost α) (p : ℕ) (m : VmPage α) (rv : Rv) (s s' : Swap α) : Ghost α where
  last := if rv = .fail then g.last
    else Function.update g.last p (Function.update (g.last p) m.off (some m.data))
  owned := Function.update g.owned p
    (g.owned p ∪ (Rlist.set s.swapmap \ Rlist.set s'.swapmap))

/-- A pager is gone. -/
def Ghost.drop (g : Ghost α) (p : ℕ) : Ghost α where
  last := Function.update g.last p fun _ => none
  owned := Function.update g.owned p ∅

inductive Op (α : Type) where
  | alloc (handle : Option ℕ) (size : ℕ) (mem : Option ℕ)
  | dealloc (mem : ℕ → Bool) (p : ℕ)
  | put (p : ℕ) (m : VmPage α) (sync : Bool)
  | get (p : ℕ) (m : VmPage α)

/-- `swap_pager_putpage` and, when it has started a transfer, the end of the transfer. -/
def putDone (p : ℕ) (m : VmPage α) (sync : Bool) (s : Swap α) : Rv × Swap α :=
  let (rv, s) := swapPagerPutpage p m sync s
  (rv, if rv = .pend then swapPagerIodone s else s)

def step (s : Swap α) (g : Ghost α) : Op α → Except Fault (Swap α × Ghost α)
  | .alloc handle size mem => .ok ((swapPagerAlloc handle size mem s).2, g)
  | .dealloc mem p => do
    let s ← swapPagerDealloc mem p s
    .ok (s, g.drop p)
  | .put p m sync =>
    let (rv, s') := putDone p m sync s
    .ok (s', g.put p m rv s s')
  | .get p m => .ok ((swapPagerGetpage p m s).2.2, g)

/-- `malloc` gives memory that is not in use, and the other operations are given pagers. -/
def Legal (s : Swap α) : Op α → Prop
  | .alloc _ _ mem => ∀ p, mem = some p → s.pagers p = none
  | .dealloc _ p | .put p _ _ | .get p _ => s.pagers p ≠ none

/-- The pager before its first operation, with `map` the free space of the swap device. -/
def boot (map : List Rlist) (disk : ℕ → α) : Swap α := ⟨fun _ => none, [], [], npendingio, map, disk⟩

/-- The states that operations within `C` lead to. -/
inductive Run (C : Swap α → Op α → Prop) : Swap α → Ghost α → Prop
  | boot (map : List Rlist) (disk : ℕ → α) : Rlist.Canonical map →
      Run C (boot map disk) ⟨fun _ _ => none, fun _ => ∅⟩
  | step {s s' : Swap α} {g g' : Ghost α} (op : Op α) : Run C s g → Legal s op → C s op →
      step s g op = .ok (s', g') → Run C s' g'

/-- The disk blocks of a swap block. -/
def region (bsize : ℕ) (swb : Swblock) : Set ℕ := Rlist.run swb.swbBlock.toNat (BitVec.ofNat 32 bsize)

/-- Every `rlist_free` of the loop of `swap_pager_dealloc` finds an element to give to its region,
or needs none. -/
def Supplied (bsize : ℕ) : (ℕ → Bool) → List Swblock → Set ℕ → Prop
  | _, [], _ => True
  | mem, bp :: rest, free =>
    if bp.swbBlock = 0 then Supplied bsize (fun i => mem (i + 1)) rest free
    else
      (mem 0 = true ∨
        Rlist.Touches bp.swbBlock (bp.swbBlock + BitVec.ofNat 32 bsize - 1) free) ∧
      Supplied bsize (fun i => mem (i + 1)) rest (free ∪ region bsize bp)

/-- What keeps the pages: a synchronous put is of a page whose bit is set, or there is no space for
its swap block; a swap block is not allocated where the space from block 0 on is free; and
`rlist_free` has memory. -/
def Kept (s : Swap α) : Op α → Prop
  | .put p m sync => ∀ swp swb, s.pagers p = some swp →
      swp.swBlocks[m.off / dbtob swp.swBsize]? = some swb →
      (sync = true → swb.swbMask &&& pageBit (m.off % dbtob swp.swBsize) ≠ 0 ∨
        swb.swbBlock = 0 ∧ ∀ a, ¬Rlist.run a (BitVec.ofNat 32 swp.swBsize) ⊆ Rlist.set s.swapmap) ∧
      (swb.swbBlock = 0 → ¬Rlist.run 0 (BitVec.ofNat 32 swp.swBsize) ⊆ Rlist.set s.swapmap)
  | .dealloc mem p => ∀ swp, s.pagers p = some swp →
      Supplied swp.swBsize mem swp.swBlocks (Rlist.set s.swapmap)
  | _ => True

/-- The disk blocks to which the page at offset `off` of pager `p` goes. -/
def diskBlocks (s : Swap α) (p off : ℕ) : Set ℕ :=
  {n | ∃ swp swb, s.pagers p = some swp ∧ swp.swBlocks[off / dbtob swp.swBsize]? = some swb ∧
    ∃ i : Fin 8, n = (swb.swbBlock + BitVec.ofNat 32 (btodb (off % dbtob swp.swBsize))).toNat + i}

/-- The pages read as they were put last, each is on disk blocks of its own, and a pager gives back
what it took. -/
def Right (s : Swap α) (g : Ghost α) : Prop :=
  (∀ p (m : VmPage α) c, g.last p m.off = some c →
    (∃ s', swapPagerGetpage p m s = (.ok, { m with data := c }, s')) ∧
      swapPagerHaspage p m.off s = true) ∧
  (∀ p (m : VmPage α), g.last p m.off = none →
    (swapPagerGetpage p m s).1 = .fail ∧ swapPagerHaspage p m.off s = false) ∧
  (∀ p q (m m' : VmPage α) c c', g.last p m.off = some c → g.last q m'.off = some c' →
    (p, m.off) ≠ (q, m'.off) → Disjoint (diskBlocks s p m.off) (diskBlocks s q m'.off)) ∧
  ∀ p swp mem, s.pagers p = some swp →
    Supplied swp.swBsize mem swp.swBlocks (Rlist.set s.swapmap) →
    ∃ s', swapPagerDealloc mem p s = .ok s' ∧ Disjoint (Rlist.set s.swapmap) (g.owned p) ∧
      Rlist.set s'.swapmap = Rlist.set s.swapmap ∪ g.owned p

end SwapPager
