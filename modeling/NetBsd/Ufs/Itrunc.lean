import Mathlib
import NetBsd.Ufs.Bmap

/-!
# Truncation of an inode

`itrunc` and `indirtrunc` of `ufs/ufs_inode.c` over the model of the block map. Errors of the
device are collected and do not stop the truncation. The contents of data blocks, the pager and
`getinoquota` are left out.

## Main definitions

* `freeEntries`, `truncBlock`, `indirtrunc`: release what an indirect block points to
* `lastblock`, `lastiblock`: the last block that is kept, below each root
* `itruncTail`: the block that holds the new end is made to be there
* `truncLevels`, `truncDirect`, `truncFrag`, `itruncDone`: the stages of `itrunc`
* `itrunc`
-/

namespace Bmap

open Stateful

variable {α : Type}

/-! ## `indirtrunc` -/

/-- A truncation below an indirect block: its address and the last block to be kept, to the last
error and the sectors released. -/
abbrev Trunc (α : Type) : Type := ℤ → ℤ → Bm α (Option ℕ × ℤ)

/-- Everything below `nb` is truncated. Below a block of data there is nothing. -/
def truncAll (sub : Option (Trunc α)) (nb : ℤ) : Bm α (Option ℕ × ℤ) :=
  match sub with
  | some f => f nb (-1)
  | none => return (none, 0)

/-- The loop that frees totally unused blocks, at the indices from `lo + n - 1` down to `lo`. -/
def freeEntries (E : Env α) (sub : Option (Trunc α)) (copy : ℕ → ℤ) (lo : ℕ) :
    ℕ → Option ℕ → ℤ → Bm α (Option ℕ × ℤ)
  | 0, err, released => return (err, released)
  | n + 1, err, released => do
    let nb := copy (lo + n)
    if nb = 0 then freeEntries E sub copy lo n err released
    else do
      let r ← truncAll sub nb
      blkfree E nb E.fs.bsize
      freeEntries E sub copy lo n (r.1.or err) (released + r.2 + btodb E.fs.bsize)

/-- The last partial block `nb`. -/
def truncLast (sub : Option (Trunc α)) (lastbn factor nb : ℤ) (r : Option ℕ × ℤ) :
    Bm α (Option ℕ × ℤ) :=
  match sub with
  | none => return r
  | some f =>
    if 0 ≤ lastbn ∧ nb ≠ 0 then do
      let q ← f nb (lastbn % factor)
      return (q.1.or r.1, r.2 + q.2)
    else return r

/-- The body of `indirtrunc`: `sub` is `indirtrunc` for the level below, if there is one. -/
def truncBlock (E : Env α) (level : ℕ) (sub : Option (Trunc α)) : Trunc α := fun bn lastbn => do
  let factor : ℤ := (E.fs.nindir : ℤ) ^ level
  let last := if 0 < lastbn then lastbn / factor else lastbn
  match E.rdErr (E.fs.toDb bn) with
  | some e => return (some e, 0)
  | none =>
    let s ← get
    let copy := s.dev (E.fs.toDb bn)
    setDev (E.fs.toDb bn) fun i => if last < i then 0 else copy i
    let lo := (last + 1).toNat
    let r ← freeEntries E sub copy lo (E.fs.nindir - lo) (E.wrErr (E.fs.toDb bn)) 0
    truncLast sub lastbn factor (copy last.toNat) r

/-- `indirtrunc`; the level `SINGLE` is 0. -/
def indirtrunc (E : Env α) : ℕ → Trunc α
  | 0 => truncBlock E 0 none
  | level + 1 => truncBlock E (level + 1) (some (indirtrunc E level))

/-! ## `itrunc` -/

/-- The last block to be kept, -1 when the file is truncated to nothing. The sum is a word. -/
def Fs.lastblock (fs : Fs) (length : ℕ) : ℤ :=
  ((BitVec.ofNat 32 (length + fs.bsize - 1)).toNat / fs.bsize : ℕ) - 1

/-- `lastiblock` before it is normalized. -/
def Fs.lastiblock (fs : Fs) (length : ℕ) : Fin niaddr → ℤ
  | 0 => fs.lastblock length - ndaddr
  | 1 => fs.lastblock length - ndaddr - fs.nindir
  | 2 => fs.lastblock length - ndaddr - fs.nindir - fs.nindir * fs.nindir

/-- The inode is written to the disk. -/
def iupdat (E : Env α) : Bm α (Option ℕ) := return (E.rdErr E.inode).or (E.wrErr E.inode)

/-- The size of the file is updated. A partial block at its end is brought in to be zeroed there. -/
def itruncTail (E : Env α) (length : ℕ) : Bm α Unit := do
  if E.fs.blkoff length = 0 then setSize length
  else do
    let _ ← balloc E (E.fs.lblkno length) (E.fs.blkoff length) true
    setSize length

/-- The pointers that are given up are cleared, and the buffers of the vnode invalidated. -/
def itruncClear (E : Env α) (length : ℕ) : Bm α Unit :=
  modify fun s => { s with
    ip := { s.ip with
      ib := fun level => if E.fs.lastiblock length level < 0 then 0 else s.ip.ib level
      db := fun i => if E.fs.lastblock length < i.val then 0 else s.ip.db i }
    bufs := fun _ => none }

/-- What the stages of `itrunc` hand on: the copy of the inode, the last error and the sectors
released. -/
structure Progress where
  tip : Inode
  err : Option ℕ
  released : ℤ

/-- One level of indirect blocks. -/
def truncLevel (E : Env α) (length : ℕ) (level : Fin niaddr) (p : Progress) : Bm α Progress := do
  let bn := p.tip.ib level
  if bn = 0 then return p
  else do
    let r ← indirtrunc E level bn (max (E.fs.lastiblock length level) (-1))
    let p := { p with err := r.1.or p.err, released := p.released + r.2 }
    if E.fs.lastiblock length level < 0 then do
      blkfree E bn E.fs.bsize
      return { p with
        tip := { p.tip with ib := Function.update p.tip.ib level 0 }
        released := p.released + btodb E.fs.bsize }
    else return p

/-- Indirect blocks first, until a level has something to keep. The flag says that one has. -/
def truncLevels (E : Env α) (length : ℕ) : List (Fin niaddr) → Progress → Bm α (Progress × Bool)
  | [], p => return (p, false)
  | level :: levels, p => do
    let p ← truncLevel E length level p
    if 0 ≤ E.fs.lastiblock length level then return (p, true)
    else truncLevels E length levels p

/-- All whole direct blocks or frags. -/
def truncDirect (E : Env α) (length : ℕ) : List (Fin ndaddr) → Progress → Bm α Progress
  | [], p => return p
  | i :: is, p =>
    if E.fs.lastblock length < i.val then
      let bn := p.tip.db i
      if bn = 0 then truncDirect E length is p
      else do
        let bsize := E.fs.blksize p.tip.size i
        blkfree E bn bsize
        truncDirect E length is { p with
          tip := { p.tip with db := Function.update p.tip.db i 0 }
          released := p.released + btodb bsize }
    else return p

/-- A change in size of the last direct block releases any frags. -/
def truncFrag (E : Env α) (length : ℕ) (p : Progress) : Bm α Progress :=
  if E.fs.lastblock length < 0 then return p
  else match direct (E.fs.lastblock length).toNat with
    | none => return p
    | some d => do
      let bn := p.tip.db d
      if bn = 0 then return p
      else do
        let oldspace := E.fs.blksize p.tip.size d
        let newspace := E.fs.blksize length d
        stopIf (newspace = 0) (.panic "itrunc: newspace")
        let p := { p with tip := { p.tip with size := length } }
        if newspace < oldspace then do
          blkfree E (bn + E.fs.numfrags newspace) (oldspace - newspace)
          return { p with released := p.released + btodb (oldspace - newspace) }
        else return p

def setBlocks (n : ℤ) : Bm α Unit := modify fun s => { s with ip := { s.ip with blocks := n } }

/-- The checks at the end, and the account of the blocks. -/
def itruncDone (E : Env α) (p : Progress) : Bm α Unit := do
  let s ← get
  stopIf (¬∀ level, p.tip.ib level = s.ip.ib level) (.panic "itrunc1")
  stopIf (¬∀ i, p.tip.db i = s.ip.db i) (.panic "itrunc2")
  let blocks := s.ip.blocks - p.released
  setBlocks (if blocks < 0 then 0 else blocks)
  setCg (E.g.chkdq s.cg (-p.released) false).2

/-- `itrunc`: the last error that the device reported. -/
def itrunc (E : Env α) (length : ℕ) : Bm α (Option ℕ) := do
  let s ← get
  if s.ip.size ≤ length then iupdat E
  else do
    let osize := s.ip.size
    itruncTail E length
    let s ← get
    let tip := { s.ip with size := osize }
    itruncClear E length
    let err ← iupdat E
    let (p, stop) ← truncLevels E length [2, 1, 0] ⟨tip, err, 0⟩
    if stop then do
      itruncDone E p
      return p.err
    else do
      let p ← truncDirect E length (List.finRange ndaddr).reverse p
      let p ← truncFrag E length p
      itruncDone E p
      return p.err

end Bmap
