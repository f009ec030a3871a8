import Mathlib.Data.Int.Notation
import Mathlib.Logic.Function.Basic
import NetBsd.Lib.Chained

/-!
# The LRU page cache of the btree library

`lruget`, `lrugetnew`, `lruwrite`, `lrusync` and `lrurelease`, with the routines under them: a list
of buffers from the most to the least recently requested, and a chained hash table from page
numbers to buffers. A buffer that is free and oldest is flushed and reused when the cache may not
grow; with no free buffer the cache grows by one.

## Main definitions

* `Cache`: the list, the hash table and the sizes
* `Env`: what the allocations, seeks, reads and writes of one call come to
* `lruflush`, `lrugetpg`, `lruget`, `lrugetnew`, `lruwrite`, `lrusync`, `lrurelease`
* `World`, `step`: the calls of a user who writes to the buffers he holds
-/

namespace Lru

/-- `LRU_ENT`, with its address: a buffer, its page, and its flags. -/
structure Ent (P : Type) where
  addr : ℕ
  l_buffer : P
  l_pgno : ℕ
  free : Bool
  dirty : Bool

/-- `CACHE_ENT`, less the chain: a page and the address of its list entry. -/
structure CacheEnt where
  c_pgno : ℕ
  c_lruent : ℕ
  deriving DecidableEq

/-- `LRUCACHE`: the list from head to tail, the hash table, the number of buffers, and the size of
a page. `lru_csize` is the length of the table. `fresh` is the next address `malloc` answers. -/
structure Cache (P : Type) where
  lru_psize : ℤ
  list : List (Ent P)
  lru_cache : Chained.Table CacheEnt
  lru_cursz : ℕ
  fresh : ℕ

/-- The pages of the file. -/
abbrev Disk (P : Type) := ℕ → Option P

/-- What a seek and a write come to. A write that fails may leave anything on the page. -/
inductive Write (P : Type) where
  | done
  | noSeek
  | short (page : Option P)

/-- What a seek and a read come to. A read that fails may leave anything in the buffer. -/
inductive Read (P : Type) where
  | done
  | noSeek
  | short (buffer : P) (nread : ℤ)

/-- What the system does for one call: the allocations that succeed, what a new buffer holds, the
writes by page, and the read, with the one before it when the call is made again from inside. -/
structure Env (P : Type) where
  mallocBuffer : Bool
  mallocEnt : Bool
  mallocHash : Bool
  mallocTable : Bool
  garbage : P
  write : ℕ → Write P
  read : Read P
  readInner : Read P

variable {P : Type}

/-- The largest size of the cache. -/
def Cache.lru_csize (l : Cache P) : ℕ := l.lru_cache.length

/-- `lruhashget`. -/
def lruhashget (l : Cache P) (pgno : ℕ) : Option CacheEnt :=
  Chained.find CacheEnt.c_pgno l.lru_cache pgno

/-- `lruhashput`, with what the allocation comes to. -/
def lruhashput (ok : Bool) (pgno lruent : ℕ) (l : Cache P) : Cache P :=
  if ok then { l with lru_cache := Chained.put CacheEnt.c_pgno l.lru_cache ⟨pgno, lruent⟩ } else l

/-- `lruhashdel`; none when there is no entry to delete. -/
def lruhashdel (l : Cache P) (pgno : ℕ) : Option (Cache P) :=
  match lruhashget l pgno with
  | none => none
  | some _ => some { l with lru_cache := Chained.del CacheEnt.c_pgno l.lru_cache pgno }

/-- The list entry at an address changes. -/
def Cache.change (l : Cache P) (a : ℕ) (f : Ent P → Ent P) : Cache P :=
  { l with list := l.list.map fun e => if e.addr = a then f e else e }

/-- `lruhead`: the entry at an address goes to the head of the list. -/
def lruhead (a : ℕ) (list : List (Ent P)) : List (Ent P) :=
  match list.find? (·.addr = a) with
  | none => list
  | some e => e :: list.eraseP (·.addr = a)

/-- `lrugrow`: one more chain, and all entries hashed again. -/
def lrugrow (l : Cache P) : Cache P :=
  { l with lru_cache := Chained.rehash CacheEnt.c_pgno l.lru_cache (l.lru_csize + 1) }

section Procs

/- The routines called when a buffer is read and when it is written. -/
variable (inproc outproc : P → P)

/-- `lruflush`: the entry and the file after it, and whether it succeeded. -/
def lruflush (w : Write P) (e : Ent P) (disk : Disk P) : Ent P × Disk P × Bool :=
  let e := { e with l_buffer := outproc e.l_buffer }
  match w with
  | .noSeek => (e, disk, false)
  | .short page => (e, Function.update disk e.l_pgno page, false)
  | .done =>
    ({ e with l_buffer := inproc e.l_buffer, dirty := false },
      Function.update disk e.l_pgno (some e.l_buffer), true)

/-- The first part of `lrugetpg`: a new buffer for a page, at the head of the list. -/
def newPage (env : Env P) (pgno : ℕ) (l : Cache P) : Cache P × Option ℕ :=
  if env.mallocBuffer = false ∨ env.mallocEnt = false then (l, none)
  else
    let lruent : Ent P := ⟨l.fresh, env.garbage, pgno, false, false⟩
    let l := { l with list := lruent :: l.list, fresh := l.fresh + 1 }
    let l := lruhashput env.mallocHash pgno lruent.addr l
    ({ l with lru_cursz := l.lru_cursz + 1 }, some lruent.addr)

/-- The oldest unused buffer. -/
def oldest (list : List (Ent P)) : Option (Ent P) := list.reverse.find? (·.free)

/-- The second part of `lrugetpg`: a free buffer, flushed when it is dirty, is reused. -/
def reuse (env : Env P) (pgno : ℕ) (e : Ent P) (l : Cache P) (disk : Disk P) :
    Cache P × Disk P × Option ℕ :=
  match lruhashdel l e.l_pgno with
  | none => (l, disk, none)
  | some l =>
    let (e', disk, ok) :=
      if e.dirty then lruflush inproc outproc (env.write e.l_pgno) e disk else (e, disk, true)
    let l := l.change e.addr fun _ => e'
    if ok = false then (l, disk, none)
    else
      let l := l.change e.addr fun e => { e with l_pgno := pgno }
      let l := { l with list := lruhead e.addr l.list }
      let l := lruhashput env.mallocHash pgno e.addr l
      (l.change e.addr fun e => { e with free := false }, disk, some e.addr)

/-- What follows `lrugetpg` in `lruget`: the buffer is read and converted. Past the end of the file
a read leaves the buffer as it is. -/
def fill (read : Read P) (pgno a : ℕ) (l : Cache P) (disk : Disk P) :
    Cache P × Option (ℕ × ℤ) :=
  match read with
  | .noSeek => (l, none)
  | .short buffer nread =>
    (l.change a fun e => { e with l_buffer := inproc buffer }, some (a, nread))
  | .done =>
    match disk pgno with
    | none => (l.change a fun e => { e with l_buffer := inproc e.l_buffer }, some (a, 0))
    | some page => (l.change a fun e => { e with l_buffer := inproc page }, some (a, l.lru_psize))

/-- `lruget` after its `lrugetpg`. -/
def fillIf (read : Read P) (pgno : ℕ) (l : Cache P) (disk : Disk P) :
    Option ℕ → Cache P × Option (ℕ × ℤ)
  | none => (l, none)
  | some a => fill inproc read pgno a l disk

/-- `lrugetpg`, for its callers `lruget` and `lrugetnew`. When it grows the cache it calls its
caller again, which finds room for a new buffer, and fills it when it is `lruget`. -/
def lrugetpg (new : Bool) (env : Env P) (pgno : ℕ) (l : Cache P) (disk : Disk P) :
    Cache P × Disk P × Option ℕ :=
  if l.lru_cursz < l.lru_csize then
    let (l, r) := newPage env pgno l
    (l, disk, r)
  else
    match oldest l.list with
    | none =>
      if env.mallocTable = false then (l, disk, none)
      else
        let (l, r) := newPage env pgno (lrugrow l)
        if new then (l, disk, r)
        else
          let (l, r) := fillIf inproc env.readInner pgno l disk r
          (l, disk, r.map Prod.fst)
    | some e => reuse inproc outproc env pgno e l disk

/-- `lruget`: the cache and the file after it, and the buffer with the bytes read. -/
def lruget (env : Env P) (pgno : ℕ) (l : Cache P) (disk : Disk P) :
    Cache P × Disk P × Option (ℕ × ℤ) :=
  match lruhashget l pgno with
  | some ce =>
    let l := l.change ce.c_lruent fun e => { e with free := false }
    ({ l with list := lruhead ce.c_lruent l.list }, disk, some (ce.c_lruent, l.lru_psize))
  | none =>
    let (l, disk, r) := lrugetpg inproc outproc false env pgno l disk
    let (l, r) := fillIf inproc env.read pgno l disk r
    (l, disk, r)

/-- `lrugetnew`. -/
def lrugetnew (env : Env P) (pgno : ℕ) (l : Cache P) (disk : Disk P) :
    Cache P × Disk P × Option (ℕ × ℤ) :=
  let (l, disk, r) := lrugetpg inproc outproc true env pgno l disk
  (l, disk, r.map (·, 0))

/-- The loop of `lrusync` over a part of the list. -/
def syncLoop (env : Env P) : List (Ent P) → Disk P → List (Ent P) × Disk P × Bool
  | [], disk => ([], disk, true)
  | le :: rest, disk =>
    if le.dirty then
      match lruflush inproc outproc (env.write le.l_pgno) le disk with
      | (le, disk, false) => (le :: rest, disk, false)
      | (le, disk, true) =>
        let (rest, disk, ok) := syncLoop env rest disk
        (le :: rest, disk, ok)
    else
      let (rest, disk, ok) := syncLoop env rest disk
      (le :: rest, disk, ok)

/-- `lrusync`. -/
def lrusync (env : Env P) (l : Cache P) (disk : Disk P) : Cache P × Disk P × Bool :=
  let (list, disk, ok) := syncLoop inproc outproc env l.list disk
  ({ l with list := list }, disk, ok)

end Procs

/-- `lruwrite`: the buffer of a page is marked dirty. -/
def lruwrite (pgno : ℕ) (l : Cache P) : Cache P × Bool :=
  match lruhashget l pgno with
  | none => (l, false)
  | some ce =>
    (l.change ce.c_lruent fun e => { e with dirty := true }, true)

/-- `lrurelease`: the buffer of a page is free. -/
def lrurelease (pgno : ℕ) (l : Cache P) : Cache P × Bool :=
  match lruhashget l pgno with
  | none => (l, false)
  | some ce =>
    (l.change ce.c_lruent fun e => { e with free := true }, true)

/-- `lruinit`, with `cachesz` buffers. -/
def lruinit (cachesz : ℕ) (pagesz : ℤ) : Cache P := ⟨pagesz, [], List.replicate cachesz [], 0, 0⟩

/-! ### The user -/

/-- The calls of a user. A write puts contents into the buffer he holds for a page, and calls
`lruwrite`. -/
inductive Event (P : Type) where
  | get (pgno : ℕ) (env : Env P)
  | getnew (pgno : ℕ) (env : Env P)
  | write (pgno : ℕ) (page : P)
  | release (pgno : ℕ)
  | sync (env : Env P)

/-- The cache and its file, the buffers the user holds for pages, and the last contents of each
page, none where a page is new and not written yet. -/
structure World (P : Type) where
  cache : Cache P
  disk : Disk P
  held : ℕ → Option ℕ
  last : ℕ → Option P

/-- What a call answers: a buffer or none, or success. -/
inductive Answer where
  | buffer (r : Option (ℕ × ℤ))
  | status (ok : Bool)
  deriving DecidableEq

/-- The buffer the user holds for a page, after a call that answers one. -/
def hold (held : ℕ → Option ℕ) (pgno : ℕ) : Option (ℕ × ℤ) → ℕ → Option ℕ
  | none => held
  | some (a, _) => Function.update held pgno (some a)

variable (inproc outproc : P → P)

/-- One call. Every call but `lrusync` takes the page number modulo the size of the cache, which
faults when that is zero. -/
def step (w : World P) : Event P → Option (World P × Answer)
  | .get pgno env =>
    if w.cache.lru_csize = 0 then none
    else
      let (l, disk, r) := lruget inproc outproc env pgno w.cache w.disk
      some ({ w with cache := l, disk := disk, held := hold w.held pgno r }, .buffer r)
  | .getnew pgno env =>
    if w.cache.lru_csize = 0 then none
    else
      let (l, disk, r) := lrugetnew inproc outproc env pgno w.cache w.disk
      some (⟨l, disk, hold w.held pgno r, Function.update w.last pgno none⟩, .buffer r)
  | .write pgno page =>
    if w.cache.lru_csize = 0 then none
    else
      match w.held pgno with
      | none => some (w, .status false)
      | some a =>
        let l := w.cache.change a fun e => { e with l_buffer := page }
        let (l, ok) := lruwrite pgno l
        some ({ w with cache := l, last := Function.update w.last pgno (some page) }, .status ok)
  | .release pgno =>
    if w.cache.lru_csize = 0 then none
    else
      let (l, ok) := lrurelease pgno w.cache
      some ({ w with cache := l, held := Function.update w.held pgno none }, .status ok)
  | .sync env =>
    let (l, disk, ok) := lrusync inproc outproc env w.cache w.disk
    some ({ w with cache := l, disk := disk }, .status ok)

/-- A new cache of `cachesz` buffers on a file. -/
def initial (cachesz : ℕ) (pagesz : ℤ) (disk : Disk P) : World P :=
  ⟨lruinit cachesz pagesz, disk, fun _ => none, fun pgno => (disk pgno).map inproc⟩

end Lru
