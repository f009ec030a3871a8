import Mathlib
import NetBsd.Lib.InsQueue
import NetBsd.Lib.TailQueue

/-!
# The name cache

The cache of names in directories of `kern/vfs_cache.c`. An entry is known by the order in which it
was allocated. All entries are on a chain in the order of their last use, and each is in the circle
of its hash bucket or in one of its own. The statistics are left out.

## Main definitions

* `Namecache`, `State`: an entry, and the cache with the identifiers of vnodes
* `cacheLookup`, `cacheEnter`, `cachePurge`, `cachePurgevfs`, `nchinit`: the functions of the file
* `Op`, `step`, `Run`: a call of one of them, and sequences of calls
-/

namespace NameCache

open InsQueue TailQueue

variable {ν : Type}

/-! ## The cache -/

abbrev Name : Type := List UInt8

/-- `NCHNAMLEN`. -/
def nchnamlen : ℕ := 31

/-- `ENOENT`. -/
def enoent : ℤ := 2

/-- The hash of a name that `namei` computes. -/
def nameHash (name : Name) : BitVec 32 := (name.map fun c => c.toBitVec.setWidth 32).sum

/-- An entry; `nc_name` has `nc_nlen` bytes. -/
structure Namecache (ν : Type) where
  ncDvp : Option ν
  ncDvpid : BitVec 32
  ncVp : Option ν
  ncVpid : BitVec 32
  ncName : Name

/-- What `nc_forw` and `nc_back` point to: the head of a bucket, or an entry. -/
inductive Node where
  | bucket (h : ℕ)
  | entry (e : ℕ)
  deriving DecidableEq

/-- The variables of the cache: `lru` has `nchhead`, `nchtail`, `nc_nxt` and `nc_prev`, and `hash`
the table, `nc_forw` and `nc_back`. -/
structure State (ν : Type) where
  doingcache : Bool
  nchash : BitVec 32
  numcache : ℕ
  lru : Queue ℕ
  hash : Links Node
  ent : ℕ → Namecache ν
  vId : ν → BitVec 32
  nextvnodeid : BitVec 32

/-- What the functions use of `struct nameidata`: `niCreate` is `(ni_nameiop & OPMASK) == CREATE`,
and the name has `ni_namelen` bytes. -/
structure Nameidata (ν : Type) where
  niDvp : ν
  niVp : Option ν
  niName : Name
  niMakeentry : Bool
  niCreate : Bool

/-- The bucket of a name. -/
def bucketOf (s : State ν) (name : Name) : ℕ := (nameHash name &&& s.nchash).toNat

/-- What a lookup returns, with `ni_makeentry` and `ni_vp` as it leaves them. -/
structure Answer (ν : Type) where
  status : ℤ
  niMakeentry : Bool
  niVp : Option ν

/-- An entry moves to the end of the chain, if it is not there. -/
def toTail (lru : Queue ℕ) (e : ℕ) : Queue ℕ :=
  match lru.links.next e with
  | some _ => insertTail (remove lru e) e
  | none => lru

/-- An entry moves to the head of the chain, and to a circle of its own. -/
def drop (s : State ν) (e : ℕ) : Except Fault (State ν) := do
  let lru := remove s.lru e
  let hash ← remque s.hash (.entry e)
  match lru.links.head () with
  | none => .error .deref
  | some first =>
    .ok { s with lru := insertHead lru e first, hash := alone hash (.entry e) }

section Functions

variable [DecidableEq ν]

/-- The entry is for the name in the directory as it is now. -/
def isFor (s : State ν) (ndp : Nameidata ν) (ncp : Namecache ν) : Bool :=
  ncp.ncDvp = some ndp.niDvp && ncp.ncDvpid = s.vId ndp.niDvp && ncp.ncName = ndp.niName

/-- The search in a bucket, which goes on until it meets the head; `k` bounds the turns. -/
def search (s : State ν) (ndp : Nameidata ν) (head : Node) :
    ℕ → Option Node → Except Fault (Option ℕ)
  | 0, _ => .error .loop
  | _ + 1, none => .error .deref
  | k + 1, some n =>
    if n = head then .ok none
    else
      match n with
      | .bucket _ => .error .deref
      | .entry e => if isFor s ndp (s.ent e) then .ok (some e)
          else search s ndp head k (s.hash.forw (.entry e))

/-- The entry that a lookup finds. -/
def find (s : State ν) (ndp : Nameidata ν) : Except Fault (Option ℕ) :=
  let head := Node.bucket (bucketOf s ndp.niName)
  search s ndp head (s.numcache + 1) (s.hash.forw head)

/-- A lookup may use an entry that it has found. -/
def usable (s : State ν) (ndp : Nameidata ν) (ncp : Namecache ν) : Bool :=
  ndp.niMakeentry &&
    match ncp.ncVp with
    | none => !ndp.niCreate
    | some vp => ncp.ncVpid = s.vId vp

def cacheLookup (s : State ν) (ndp : Nameidata ν) : Except Fault (Answer ν × State ν) :=
  let zero : Answer ν := ⟨0, ndp.niMakeentry, ndp.niVp⟩
  if !s.doingcache then .ok (zero, s)
  else if ndp.niName.length > nchnamlen then .ok ({ zero with niMakeentry := false }, s)
  else do
    match ← find s ndp with
    | none => .ok (zero, s)
    | some e =>
      if usable s ndp (s.ent e) then
        let s' := { s with lru := toTail s.lru e }
        match (s.ent e).ncVp with
        | none => .ok ({ zero with status := enoent }, s')
        | some vp => .ok ({ zero with status := -1, niVp := some vp }, s')
      else do
        let s' ← drop s e
        .ok (zero, s')

/-- What an entry is filled with. -/
def fill (s : State ν) (ndp : Nameidata ν) : Namecache ν where
  ncDvp := some ndp.niDvp
  ncDvpid := s.vId ndp.niDvp
  ncVp := ndp.niVp
  ncVpid := match ndp.niVp with
    | none => 0
    | some vp => s.vId vp
  ncName := ndp.niName

/-- The entry goes to the end of the chain and into the bucket of its name. -/
def place (s : State ν) (ndp : Nameidata ν) (e : ℕ) : Except Fault (State ν) := do
  let hash ← insque s.hash (.entry e) (.bucket (bucketOf s ndp.niName))
  .ok { s with
    ent := Function.update s.ent e (fill s ndp), lru := insertTail s.lru e, hash := hash }

/-- A new entry while there are fewer than `desiredvnodes`, else the least recently used one. -/
def cacheEnter (s : State ν) (desiredvnodes : ℤ) (ndp : Nameidata ν) : Except Fault (State ν) :=
  if !s.doingcache then .ok s
  else if (s.numcache : ℤ) < desiredvnodes then
    place { s with numcache := s.numcache + 1 } ndp s.numcache
  else
    match s.lru.links.head () with
    | none => .ok s
    | some e => do
      let hash ← remque s.hash (.entry e)
      place { s with lru := remove s.lru e, hash := hash } ndp e

/-- The identifiers of an entry are cleared. -/
def Namecache.clear (ncp : Namecache ν) : Namecache ν := { ncp with ncVpid := 0, ncDvpid := 0 }

/-- The identifiers of the entries in a bucket are cleared. -/
def clearBucket (hash : Links Node) (head : Node) :
    ℕ → Option Node → (ℕ → Namecache ν) → Except Fault (ℕ → Namecache ν)
  | 0, _, _ => .error .loop
  | _ + 1, none, _ => .error .deref
  | k + 1, some n, ent =>
    if n = head then .ok ent
    else
      match n with
      | .bucket _ => .error .deref
      | .entry e => clearBucket hash head k (hash.forw (.entry e))
          (Function.update ent e (ent e).clear)

/-- The identifiers of the entries in the first `n` buckets are cleared, last bucket first. -/
def clearTable (hash : Links Node) (k : ℕ) :
    ℕ → (ℕ → Namecache ν) → Except Fault (ℕ → Namecache ν)
  | 0, ent => .ok ent
  | n + 1, ent => do
    let ent ← clearBucket hash (.bucket n) k (hash.forw (.bucket n)) ent
    clearTable hash k n ent

def cachePurge (s : State ν) (vp : ν) : Except Fault (State ν) :=
  let next := s.nextvnodeid + 1
  let s := { s with nextvnodeid := next, vId := Function.update s.vId vp next }
  if next ≠ 0 then .ok s
  else do
    let ent ← clearTable s.hash (s.numcache + 1) (s.nchash.toNat + 1) s.ent
    .ok { s with
      ent := ent, nextvnodeid := next + 1, vId := Function.update s.vId vp (next + 1) }

/-- The entry is for a name in a directory of the file system. -/
def isOn (onMp : ν → Bool) (ncp : Namecache ν) : Bool :=
  match ncp.ncDvp with
  | none => false
  | some dvp => onMp dvp

/-- An entry gives its vnodes free. -/
def Namecache.release (ncp : Namecache ν) : Namecache ν := { ncp with ncVp := none, ncDvp := none }

/-- The loop over the chain, which begins again after each entry that it drops. -/
def purgeLoop (onMp : ν → Bool) : ℕ → Option ℕ → State ν → Except Fault (State ν)
  | _, none, s => .ok s
  | 0, some _, _ => .error .loop
  | k + 1, some e, s =>
    if !isOn onMp (s.ent e) then purgeLoop onMp k (s.lru.links.next e) s
    else do
      let nxtcp := (remove s.lru e).links.head ()
      let s' ← drop { s with ent := Function.update s.ent e (s.ent e).release } e
      purgeLoop onMp k nxtcp s'

/-- `onMp` tells the directories of the file system, those with its `v_mount`. -/
def cachePurgevfs (s : State ν) (onMp : ν → Bool) : Except Fault (State ν) :=
  purgeLoop onMp ((s.numcache + 1) * (s.numcache + 1)) (s.lru.links.head ()) s

/-- The cache at boot, with the mask that `nchinit` computes for its table. -/
def nchinit (nchash : BitVec 32) : State ν where
  doingcache := true
  nchash := nchash
  numcache := 0
  lru := ⟨⟨fun _ => none, fun _ => none⟩, fun _ => .head (), .head ()⟩
  hash := ⟨some, some⟩
  ent := fun _ => ⟨none, 0, none, 0, []⟩
  vId := fun _ => 0
  nextvnodeid := 0

/-- A call. Names that are entered are not longer than `NCHNAMLEN`: the lookup of a longer one
clears `ni_makeentry`. -/
inductive Op (ν : Type) where
  | lookup (ndp : Nameidata ν)
  | enter (desiredvnodes : ℤ) (ndp : Nameidata ν) (h : ndp.niName.length ≤ nchnamlen)
  | purge (vp : ν)
  | purgevfs (onMp : ν → Bool)

/-- What a call returns, when it is a lookup, and the cache that it leaves. -/
def step (s : State ν) : Op ν → Except Fault (Option (Answer ν) × State ν)
  | .lookup ndp => (fun r => (some r.1, r.2)) <$> cacheLookup s ndp
  | .enter desiredvnodes ndp _ => (none, ·) <$> cacheEnter s desiredvnodes ndp
  | .purge vp => (none, ·) <$> cachePurge s vp
  | .purgevfs onMp => (none, ·) <$> cachePurgevfs s onMp

/-- The caches that calls lead to from `s₀`, with the calls, first to last. -/
inductive Run (ok : State ν → Op ν → Prop) (s₀ : State ν) : List (Op ν) → State ν → Prop
  | start : Run ok s₀ [] s₀
  | step {ops : List (Op ν)} {s s' : State ν} {op : Op ν} {a : Option (Answer ν)}
      (h : Run ok s₀ ops s) (hok : ok s op) (hs : step s op = .ok (a, s')) :
      Run ok s₀ (ops ++ [op]) s'

end Functions

end NameCache
