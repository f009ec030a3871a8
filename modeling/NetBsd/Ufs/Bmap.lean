import Mathlib
import NetBsd.Lib.Stateful
import NetBsd.Lib.BlockTree

/-!
# The block map of an inode

`bmap` and `balloc` of `ufs/ufs_bmap.c` with `alloc` and `realloccg` of `ufs/ufs_alloc.c`, on an
inode, the indirect blocks of its device and the buffers of its vnode. The search of the cylinder
groups, the quota and the tuning of the allocator are parameters. `i_flag` and the contents of
data blocks are left out.

## Main definitions

* `Fs`, `Inode`, `State`: superblock, inode, and what the functions read and write
* `Groups`, `Env`: the cylinder groups, and with them the device
* `levels`: the loop that finds the number of levels of indirection
* `bmapFetch`, `bmap`: from a logical block to its place on the disk
* `alloc`, `realloccg`, `extendLast`, `ballocFetch`, `balloc`: the same, allocating
-/

namespace Bmap

open Stateful

/-- `NDADDR`. -/
abbrev ndaddr : ℕ := 12

/-- `NIADDR`. -/
abbrev niaddr : ℕ := 3

scoped instance : NeZero niaddr := ⟨by decide⟩

def enospc : ℕ := 28

def efbig : ℕ := 27

def edquot : ℕ := 69

/-- An error is returned, or `panic` is called. -/
inductive Stop where
  | errno (e : ℕ)
  | panic (msg : String)
  deriving DecidableEq, Repr

/-! ## Superblock and inode -/

/-- The fields of `struct fs` that give sizes. A block is at most `MAXBSIZE` and holds at least
one pointer. -/
structure Fs where
  bshift : ℕ
  fshift : ℕ
  fsbtodb : ℕ
  size : ℤ
  fshift_le : fshift ≤ bshift
  bshift_ge : 2 ≤ bshift
  bshift_le : bshift ≤ 13

namespace Fs

variable (fs : Fs)

def bsize : ℕ := 2 ^ fs.bshift

def fsize : ℕ := 2 ^ fs.fshift

/-- `NINDIR`. -/
def nindir : ℕ := 2 ^ (fs.bshift - 2)

/-- `fsbtodb`. -/
def toDb (b : ℤ) : ℤ := b * 2 ^ fs.fsbtodb

/-- `dbtofsb`. -/
def ofDb (b : ℤ) : ℤ := b / 2 ^ fs.fsbtodb

def lblkno (loc : ℕ) : ℕ := loc / fs.bsize

def blkoff (loc : ℕ) : ℕ := loc % fs.bsize

def fragoff (loc : ℕ) : ℕ := loc % fs.fsize

def numfrags (loc : ℕ) : ℕ := loc / fs.fsize

def fragroundup (size : ℕ) : ℕ := (size + fs.fsize - 1) / fs.fsize * fs.fsize

/-- `blksize`, for an inode of the given size. -/
def blksize (isize lbn : ℕ) : ℕ :=
  if ndaddr ≤ lbn ∨ (lbn + 1) * fs.bsize ≤ isize then fs.bsize
  else fs.fragroundup (fs.blkoff isize)

end Fs

/-- `btodb`, for sectors of `DEV_BSIZE` bytes. -/
def btodb (bytes : ℕ) : ℤ := (bytes / 512 : ℕ)

/-- The fields of `struct inode` that the block map uses. -/
structure Inode where
  db : Fin ndaddr → ℤ
  ib : Fin niaddr → ℤ
  size : ℕ
  blocks : ℤ

/-- `i_db` as the array that `blkpref` reads. -/
def Inode.bap (ip : Inode) (i : ℕ) : ℤ := if h : i < ndaddr then ip.db ⟨i, h⟩ else 0

/-- A buffer as its owner sees it. -/
structure Buf where
  lblkno : ℤ
  blkno : ℤ
  size : ℕ
  deriving DecidableEq, Repr

/-- The inode, the device in blocks of pointers, `b_blkno` of the buffers that the vnode has, and
the cylinder groups with the quota. -/
structure State (α : Type) where
  ip : Inode
  dev : ℤ → ℕ → ℤ
  bufs : ℤ → Option ℤ
  cg : α

/-- The cylinder groups and the quota. `free` is what the maps say of a fragment; `noBlocks` is
`cs_nbfree == 0` and `reserved` the test of the free reserve; `optim` is whether `fs_optim` is
`FS_OPTSPACE`, if it is one of its two values. -/
structure Groups (α : Type) where
  free : α → ℤ → Prop
  noBlocks : α → Bool
  reserved : α → Bool
  optim : α → Option Bool × α
  chkdq : α → ℤ → Bool → Bool × α
  blkpref : α → Inode → ℤ → ℕ → Option (ℕ → ℤ) → ℤ
  hashalloc : α → ℤ → ℕ → ℤ × α
  fragextend : α → ℤ → ℕ → ℕ → ℤ × α
  blkfree : α → ℤ → ℕ → α

/-- The file system, its cylinder groups, the errors of its device, and the place of the inode. -/
structure Env (α : Type) where
  fs : Fs
  g : Groups α
  rdErr : ℤ → Option ℕ
  wrErr : ℤ → Option ℕ
  inode : ℤ

variable {α : Type}

abbrev Bm (α β : Type) : Type := EStateM Stop (State α) β

/-- `struct cg` and the quota after a call that changes them. -/
def setCg (a : α) : Bm α Unit := modify fun s => { s with cg := a }

/-! ## `bmap` -/

/-- The block number is that of a direct block. -/
def direct (bn : ℕ) : Option (Fin ndaddr) := if h : bn < ndaddr then some ⟨bn, h⟩ else none

/-- The loop that determines the number of levels of indirection: `j`, `sh` and `bn` at its
`break`. `sh` is an `int`. -/
def levels (nindir : BitVec 32) : ℕ → BitVec 32 → ℤ → Option (ℕ × ℤ × ℤ)
  | 0, _, _ => none
  | j + 1, sh, bn =>
    let sh := sh * nindir
    if bn < sh.toInt then some (j + 1, sh.toInt, bn) else levels nindir j sh (bn - sh.toInt)

/-- The levels of indirection of a block that is not direct. -/
def Fs.levels (fs : Fs) (bn : ℤ) : Option (ℕ × ℤ × ℤ) :=
  Bmap.levels (BitVec.ofNat 32 fs.nindir) niaddr 1 (bn - ndaddr)

/-- The entry of `i_ib` for `j`, which is `NIADDR - j`. -/
def ibOf (j : ℕ) : Fin niaddr := Fin.ofNat niaddr (niaddr - j)

/-- `bread` of a block of pointers from the device. -/
def bread (E : Env α) (blkno : ℤ) : Bm α (ℕ → ℤ) := do
  match E.rdErr blkno with
  | some e => throw (.errno e)
  | none =>
    let s ← get
    return s.dev blkno

/-- Fetch through the indirect blocks, for so many turns. -/
def bmapFetch (E : Env α) : ℕ → ℤ → ℤ → ℤ → Bm α ℤ
  | 0, nb, _, _ => return E.fs.toDb nb
  | n + 1, nb, sh, bn => do
    let bap ← bread E (E.fs.toDb nb)
    let sh := sh / E.fs.nindir
    let i := (bn / sh % E.fs.nindir).toNat
    if bap i = 0 then return -1 else bmapFetch E n (bap i) sh bn

/-- The place of a logical block on the disk, -1 for a hole. -/
def bmap (E : Env α) (bn : ℤ) : Bm α ℤ := do
  stopIf (bn < 0) (.errno efbig)
  let s ← get
  match direct bn.toNat with
  | some d => if s.ip.db d = 0 then return -1 else return E.fs.toDb (s.ip.db d)
  | none =>
    match E.fs.levels bn with
    | none => throw (.errno efbig)
    | some (j, sh, bn) =>
      if s.ip.ib (ibOf j) = 0 then return -1
      else bmapFetch E (niaddr - j + 1) (s.ip.ib (ibOf j)) sh bn

/-! ## Buffers of the vnode -/

/-- The buffer of a logical block is found or made, and told its place. -/
def setBlkno (bn blkno : ℤ) : Bm α Unit :=
  modify fun s => { s with bufs := Function.update s.bufs bn (some blkno) }

/-- A transfer of data from the disk. -/
def diskRead (E : Env α) (b : ℤ) : Bm α Unit :=
  match E.rdErr b with
  | some e => throw (.errno e)
  | none => return ()

/-- `bread` of a logical block: a buffer that is not valid goes through `ufs_strategy`, which asks
`bmap` and reads nothing for a hole. -/
def vbread (E : Env α) (bn : ℤ) (size : ℕ) : Bm α Buf := do
  let s ← get
  match s.bufs bn with
  | some b => return ⟨bn, b, size⟩
  | none =>
    let b ← bmap E bn
    runIf (b ≠ -1) (diskRead E b)
    setBlkno bn b
    return ⟨bn, b, size⟩

/-! ## `alloc` and `realloccg` -/

/-- A charge to the quota. -/
def chkdq (E : Env α) (change : ℤ) : Bm α Unit := do
  let s ← get
  setCg (E.g.chkdq s.cg change false).2
  stopIf ((E.g.chkdq s.cg change false).1 = false) (.errno edquot)

/-- The quota is restored because the allocation failed. -/
def unchkdq (E : Env α) (change : ℤ) : Bm α Unit := do
  let s ← get
  setCg (E.g.chkdq s.cg (-change) true).2

def hashalloc (E : Env α) (bpref : ℤ) (size : ℕ) : Bm α ℤ := do
  let s ← get
  let r := E.g.hashalloc s.cg (if E.fs.size ≤ bpref then 0 else bpref) size
  setCg r.2
  return r.1

/-- `i_blocks` grows. -/
def addBlocks (n : ℤ) : Bm α Unit :=
  modify fun s => { s with ip := { s.ip with blocks := s.ip.blocks + n } }

/-- Allocate a block of the given size in the file system. -/
def alloc (E : Env α) (bpref : ℤ) (size : ℕ) : Bm α ℤ := do
  stopIf (E.fs.bsize < size ∨ E.fs.fragoff size ≠ 0) (.panic "alloc: bad size")
  let s ← get
  stopIf (size = E.fs.bsize ∧ E.g.noBlocks s.cg) (.errno enospc)
  stopIf (E.g.reserved s.cg) (.errno enospc)
  chkdq E (btodb size)
  let bno ← hashalloc E bpref size
  if 0 < bno then do
    addBlocks (btodb size)
    return bno
  else do
    unchkdq E (btodb size)
    throw (.errno enospc)

def blkfree (E : Env α) (bno : ℤ) (size : ℕ) : Bm α Unit := do
  let s ← get
  setCg (E.g.blkfree s.cg bno size)

/-- The second half of `realloccg`, where the fragment could not be extended in its place: allocate
a new disk location for the block in the buffer `bp`. -/
def reallocMove (E : Env α) (lbprev : Fin ndaddr) (bprev bpref : ℤ) (osize nsize : ℕ) (bp : Buf) :
    Bm α Buf := do
  let s ← get
  setCg (E.g.optim s.cg).2
  match (E.g.optim s.cg).1 with
  | none => throw (.panic "realloccg: bad optim")
  | some space =>
    let request := if space then nsize else E.fs.bsize
    let bno ← hashalloc E bpref request
    if 0 < bno then do
      setBlkno lbprev.val (E.fs.toDb bno)
      blkfree E bprev osize
      runIf (nsize < request) (blkfree E (bno + E.fs.numfrags nsize) (request - nsize))
      addBlocks (btodb (nsize - osize))
      return ⟨bp.lblkno, E.fs.toDb bno, nsize⟩
    else do
      unchkdq E (btodb (nsize - osize))
      throw (.errno enospc)

def fragextend (E : Env α) (bprev : ℤ) (osize nsize : ℕ) : Bm α ℤ := do
  let s ← get
  let r := E.g.fragextend s.cg bprev osize nsize
  setCg r.2
  return r.1

/-- Reallocate a fragment to a bigger size. -/
def realloccg (E : Env α) (lbprev : Fin ndaddr) (bpref : ℤ) (osize nsize : ℕ) : Bm α Buf := do
  stopIf (E.fs.bsize < osize ∨ E.fs.fragoff osize ≠ 0 ∨ E.fs.bsize < nsize ∨
    E.fs.fragoff nsize ≠ 0) (.panic "realloccg: bad size")
  let s ← get
  stopIf (E.g.reserved s.cg) (.errno enospc)
  let bprev := s.ip.db lbprev
  stopIf (bprev = 0) (.panic "realloccg: bad bprev")
  let bp ← vbread E lbprev.val osize
  chkdq E (btodb (nsize - osize))
  let bno ← fragextend E bprev osize nsize
  if bno ≠ 0 then do
    stopIf (bp.blkno ≠ E.fs.toDb bno) (.panic "bad blockno")
    addBlocks (btodb (nsize - osize))
    return { bp with size := nsize }
  else reallocMove E lbprev bprev bpref osize nsize bp

/-! ## `balloc` -/

def setDb (d : Fin ndaddr) (nb : ℤ) : Bm α Unit :=
  modify fun s => { s with ip := { s.ip with db := Function.update s.ip.db d nb } }

def setIb (r : Fin niaddr) (nb : ℤ) : Bm α Unit :=
  modify fun s => { s with ip := { s.ip with ib := Function.update s.ip.ib r nb } }

def setSize (n : ℕ) : Bm α Unit := modify fun s => { s with ip := { s.ip with size := n } }

/-- The block of pointers is written. -/
def setDev (blkno : ℤ) (w : ℕ → ℤ) : Bm α Unit :=
  modify fun s => { s with dev := Function.update s.dev blkno w }

/-- `bap[i] = nb` and the write of the block. -/
def setPtr (E : Env α) (b : ℤ) (i : ℕ) (nb : ℤ) : Bm α Unit := do
  let s ← get
  setDev (E.fs.toDb b) (Function.update (s.dev (E.fs.toDb b)) i nb)

/-- A new indirect block is written before anything points to it. -/
def allocIndir (E : Env α) (pref : ℤ) : Bm α ℤ := do
  let newb ← alloc E pref E.fs.bsize
  setDev (E.fs.toDb newb) fun _ => 0
  match E.wrErr (E.fs.toDb newb) with
  | some e =>
    blkfree E newb E.fs.bsize
    throw (.errno e)
  | none => return newb

/-- The fragment `d` at the end of the file is extended to a full block. -/
def extendTo (E : Env α) (d : Fin ndaddr) (osize : ℕ) : Bm α Unit := do
  let s ← get
  let pref := E.g.blkpref s.cg s.ip d.val d (some s.ip.bap)
  let bp ← realloccg E d pref osize E.fs.bsize
  setSize ((d + 1) * E.fs.bsize)
  setDb d (E.fs.ofDb bp.blkno)

/-- If the next write will extend the file into a new block, a fragment at its end has to be
extended to be a full block. -/
def extendLast (E : Env α) (bn : ℤ) : Bm α Unit := do
  let s ← get
  let nb := E.fs.lblkno s.ip.size
  match direct nb with
  | none => return ()
  | some d =>
    let osize := E.fs.blksize s.ip.size nb
    runIf (nb < bn ∧ osize < E.fs.bsize ∧ 0 < osize) (extendTo E d osize)

/-- A direct block that is not wholly inside the file, or is not there yet. -/
def ballocFrag (E : Env α) (bn : Fin ndaddr) (size : ℕ) : Bm α Buf := do
  let s ← get
  let pref := E.g.blkpref s.cg s.ip bn.val bn (some s.ip.bap)
  if s.ip.db bn ≠ 0 then
    let osize := E.fs.fragroundup (E.fs.blkoff s.ip.size)
    let nsize := E.fs.fragroundup size
    if nsize ≤ osize then vbread E bn.val osize else realloccg E bn pref osize nsize
  else do
    let nsize := if s.ip.size < (bn + 1) * E.fs.bsize then E.fs.fragroundup size else E.fs.bsize
    let newb ← alloc E pref nsize
    setBlkno bn.val (E.fs.toDb newb)
    return ⟨bn.val, E.fs.toDb newb, nsize⟩

/-- The case of a direct block. -/
def ballocDirect (E : Env α) (bn : Fin ndaddr) (size : ℕ) : Bm α Buf := do
  let s ← get
  if s.ip.db bn ≠ 0 ∧ (bn + 1) * E.fs.bsize ≤ s.ip.size then vbread E bn.val E.fs.bsize
  else do
    let bp ← ballocFrag E bn size
    setDb bn (E.fs.ofDb bp.blkno)
    return bp

/-- Fetch through the indirect blocks, allocating as necessary: the last of them, the index in it
and the preference, with so many blocks still to go through. -/
def ballocFetch (E : Env α) (lbn : ℤ) : ℕ → ℤ → ℤ → ℤ → ℤ → Bm α (ℤ × ℕ × ℤ)
  | 0, nb, sh, bn, pref => do
    let _ ← bread E (E.fs.toDb nb)
    let sh := sh / E.fs.nindir
    return (nb, (bn / sh % E.fs.nindir).toNat, pref)
  | n + 1, nb, sh, bn, pref => do
    let bap ← bread E (E.fs.toDb nb)
    let sh := sh / E.fs.nindir
    let i := (bn / sh % E.fs.nindir).toNat
    if bap i ≠ 0 then ballocFetch E lbn n (bap i) sh bn pref
    else do
      let s ← get
      let pref := if pref = 0 then E.g.blkpref s.cg s.ip lbn 0 none else pref
      let newb ← allocIndir E pref
      setPtr E nb i newb
      ballocFetch E lbn n newb sh bn pref

/-- Get the data block, allocating if necessary. -/
def ballocData (E : Env α) (lbn : ℤ) (b : ℤ) (i : ℕ) (clrbuf : Bool) : Bm α Buf := do
  let s ← get
  let bap := s.dev (E.fs.toDb b)
  if bap i = 0 then do
    let newb ← alloc E (E.g.blkpref s.cg s.ip lbn i (some bap)) E.fs.bsize
    setBlkno lbn (E.fs.toDb newb)
    setPtr E b i newb
    return ⟨lbn, E.fs.toDb newb, E.fs.bsize⟩
  else if clrbuf then vbread E lbn E.fs.bsize
  else do
    setBlkno lbn (E.fs.toDb (bap i))
    return ⟨lbn, E.fs.toDb (bap i), E.fs.bsize⟩

/-- Fetch the first indirect block, allocating if necessary: the block and the preference. -/
def ballocFirst (E : Env α) (lbn : ℤ) (r : Fin niaddr) : Bm α (ℤ × ℤ) := do
  let s ← get
  if s.ip.ib r = 0 then do
    let pref := E.g.blkpref s.cg s.ip lbn 0 none
    let newb ← allocIndir E pref
    setIb r newb
    return (newb, pref)
  else return (s.ip.ib r, 0)

/-- The case of a block behind `NIADDR - j + 1` levels of indirect blocks. -/
def ballocIndir (E : Env α) (lbn : ℤ) (j : ℕ) (sh bn : ℤ) (clrbuf : Bool) : Bm α Buf := do
  let (nb, pref) ← ballocFirst E lbn (ibOf j)
  let (p, i, _) ← ballocFetch E lbn (niaddr - j) nb sh bn pref
  ballocData E lbn p i clrbuf

/-- The case of a block that is not direct. -/
def ballocLevels (E : Env α) (bn : ℤ) (clrbuf : Bool) : Bm α Buf :=
  match E.fs.levels bn with
  | none => throw (.errno efbig)
  | some (j, sh, b) => ballocIndir E bn j sh b clrbuf

/-- `balloc`; `clrbuf` is the flag `B_CLRBUF`, and `B_SYNC` only says when the writes happen. -/
def balloc (E : Env α) (bn : ℤ) (size : ℕ) (clrbuf : Bool) : Bm α Buf := do
  stopIf (bn < 0) (.errno efbig)
  extendLast E bn
  match direct bn.toNat with
  | some d => ballocDirect E d size
  | none => ballocLevels E bn clrbuf

end Bmap
