import Mathlib.Logic.Function.Basic
import NetBsd.Lib.Fault
import NetBsd.Lib.Segments

/-!
# Address maps

`vm/vm_map.c`: address maps as lists of entries between a header, with the two cached pointers
`hint` and `first_free`. An entry is known by its address, `none` is the address of the header of
its map, and `vm_map_entry_create` gives addresses that are not in use. The objects behind the
entries, and the pages, are a layer of their own, which the maps only call. Locks and the physical
maps are left out: one operation runs at a time.

## Main definitions

* `Entry`, `VmMap`, `Kernel`: entries, maps, and what the maps have in common
* `ObjectLayer`: what the maps call
* `lookupEntry`: `vm_map_lookup_entry`
* `startRange`, `overRange`: how an operation on a range finds its first entry, and its loop
* `vmMapInsert`, `vmMapFind`, `vmMapRemove`, `vmMapProtect`, `vmMapInherit`, `vmMapPageable`,
  `vmMapSimplify`, `vmspaceFork`: the operations
* `World.op`, `World.fork`: one operation on one of the main maps
-/

namespace AddressMap

/-- `vm_inherit_t`, the values an entry can have. -/
inductive Inherit where
  | share
  | copy
  | none
  deriving DecidableEq, Repr

/-- The inheritance that a caller asks for, when `vm_map_inherit` accepts it. -/
def Inherit.ofInt (n : BitVec 32) : Option Inherit :=
  if n = 0 then some .share else if n = 1 then some .copy else if n = 2 then some .none else none

/-- `union vm_map_object` with `is_a_map`: a VM object or none, or a sharing map. -/
inductive Backing where
  | object (o : Option ℕ)
  | shareMap (s : ℕ)
  deriving DecidableEq, Repr

/-- `struct vm_map_entry`, at address `addr`. -/
structure Entry where
  addr : ℕ
  start : BitVec 32
  stop : BitVec 32
  object : Backing
  offset : BitVec 32
  copyOnWrite : Bool
  needsCopy : Bool
  protection : BitVec 32
  maxProtection : BitVec 32
  inheritance : Inherit
  wiredCount : ℤ
  deriving DecidableEq, Repr

/-- `struct vm_map` but for the entries. -/
structure Header where
  nentries : ℤ
  size : BitVec 32
  isMainMap : Bool
  refCount : ℤ
  minOffset : BitVec 32
  maxOffset : BitVec 32
  hint : Option ℕ
  firstFree : Option ℕ
  deriving DecidableEq, Repr

/-- `struct vm_map`. -/
structure VmMap extends Header where
  entries : List Entry
  deriving DecidableEq, Repr

/-- The return values. `other` is what `vm_fault_wire` leaves for its caller, which declares
no value. -/
inductive Kern where
  | success
  | invalidAddress
  | protectionFailure
  | noSpace
  | invalidArgument
  | other (rv : BitVec 32)
  deriving DecidableEq, Repr

/-- What the maps have in common: the sharing maps, the next address of a map and of an entry, and
the objects. -/
structure Kernel (O : Type) where
  shareMap : ℕ → Option VmMap
  nextMap : ℕ
  nextEntry : ℕ
  objects : O

/-- A map in the middle of an operation, which holds the entries itself. -/
structure Ctx (O : Type) where
  head : Header
  kernel : Kernel O

/-- `VM_PROT_WRITE`. -/
def protWrite : BitVec 32 := 2

/-- `VM_PROT_DEFAULT`. -/
def protDefault : BitVec 32 := 7

/-- What the maps call on the objects `O`. -/
structure ObjectLayer (O : Type) where
  /-- `vm_object_coalesce` with no next object: previous object, its offset, its size, next size -/
  coalesce : O → Option ℕ → BitVec 32 → BitVec 32 → BitVec 32 → Except Fault (Bool × O)
  /-- `vm_object_reference` -/
  reference : O → Option ℕ → Except Fault O
  /-- `vm_object_deallocate` -/
  deallocate : O → Option ℕ → Except Fault O
  /-- `vm_object_shadow`: object, offset, length -/
  shadow : O → Option ℕ → BitVec 32 → BitVec 32 → Except Fault (ℕ × BitVec 32 × O)
  /-- `vm_object_allocate` -/
  allocate : O → BitVec 32 → Except Fault (ℕ × O)
  /-- `vm_object_copy`: object, offset, size; the copy, its offset, whether the source needs one -/
  copy : O → Option ℕ → BitVec 32 → BitVec 32 → Except Fault (Option ℕ × BitVec 32 × Bool × O)
  /-- `vm_fault_wire` on the range of an entry -/
  wire : O → Entry → Except Fault (BitVec 32 × O)
  /-- `vm_fault_unwire` on the range of an entry -/
  unwire : O → Entry → Except Fault O
  /-- `vm_fault_copy_entry` from a wired entry: the object of the copy -/
  copyWired : O → Entry → Except Fault (ℕ × O)
  /-- what `vm_map_delete` does to the pages of an entry of a main map, or of a sharing map -/
  removePages : O → Bool → Entry → Except Fault O
  /-- `vm_map_copy` out of a sharing map into the range of an entry just linked -/
  copyShared : Kernel O → ℕ → BitVec 32 → Entry → Except Fault (List Entry × Kernel O)

section

variable {O : Type}

/-- Change the objects. -/
def Kernel.setObjects (k : Kernel O) (o : O) : Kernel O := { k with objects := o }

/-- Replace a sharing map. -/
def Kernel.setShareMap (k : Kernel O) (s : ℕ) (m : Option VmMap) : Kernel O :=
  { k with shareMap := Function.update k.shareMap s m }

/-- Change the objects. -/
def Ctx.setObjects (c : Ctx O) (o : O) : Ctx O := { c with kernel := c.kernel.setObjects o }

/-- `vm_map_entry_create` and `vm_map_entry_link`, of an entry at the next address. -/
def Ctx.link (c : Ctx O) : Ctx O :=
  { head := { c.head with nentries := c.head.nentries + 1 }
    kernel := { c.kernel with nextEntry := c.kernel.nextEntry + 1 } }

/-- `vm_map_entry_unlink`, and the space no longer mapped. -/
def Ctx.unlink (c : Ctx O) (length : BitVec 32) : Ctx O :=
  { c with head :=
    { c.head with nentries := c.head.nentries - 1, size := c.head.size - length } }

/-- `SAVE_HINT`. -/
def Header.saveHint (h : Header) (p : Option ℕ) : Header := { h with hint := p }

/-- Change `first_free`. -/
def Header.setFirstFree (h : Header) (p : Option ℕ) : Header := { h with firstFree := p }

/-- The address of the last entry of a list, or of the header. -/
def lastAddr (l : List Entry) : Option ℕ := l.getLast?.map Entry.addr

/-! ## Lookup -/

/-- The result of `vm_map_lookup_entry`, with the entries on both sides. Between two entries the
result is the last one of `pre`, or the header. -/
inductive Lookup where
  | found (pre : List Entry) (entry : Entry) (post : List Entry)
  | between (pre post : List Entry)

/-- `*entry`. -/
def Lookup.addr : Lookup → Option ℕ
  | .found _ e _ => some e.addr
  | .between pre _ => lastAddr pre

/-- The linear search, from the entry after `pre` to the one that `last` begins with. -/
def search (address : BitVec 32) (last : List Entry) : List Entry → List Entry → Lookup
  | pre, [] => .between pre last
  | pre, cur :: rest =>
    if cur.stop > address then
      if address ≥ cur.start then .found pre cur (rest ++ last)
      else .between pre (cur :: rest ++ last)
    else search address last (pre ++ [cur]) rest

/-- The list at an entry: what is before it, and what begins with it. At the header, the whole
list is after it. -/
def seek (l : List Entry) : Option ℕ → Except Fault (List Entry × List Entry)
  | none => .ok ([], l)
  | some a =>
    match l.dropWhile fun e => e.addr ≠ a with
    | [] => .error .deref
    | post => .ok (l.takeWhile fun e => e.addr ≠ a, post)

/-- `vm_map_lookup_entry`. -/
def lookupEntry (m : VmMap) (address : BitVec 32) : Except Fault (VmMap × Lookup) := do
  let (pre, post) ← seek m.entries m.hint
  match post with
  | [] =>
    let r := Lookup.between pre []
    return ({ m with hint := r.addr }, r)
  | cur :: rest =>
    if address ≥ cur.start then
      if cur.stop > address then return (m, .found pre cur rest)
      else
        let r := search address [] pre (cur :: rest)
        return ({ m with hint := r.addr }, r)
    else
      let r := search address rest [] (pre ++ [cur])
      return ({ m with hint := r.addr }, r)

/-! ## Ranges -/

/-- `vm_map_reference` or `vm_object_reference`. -/
def reference (L : ObjectLayer O) (k : Kernel O) : Backing → Except Fault (Kernel O)
  | .object o => do
    let objects ← L.reference k.objects o
    return k.setObjects objects
  | .shareMap s =>
    match k.shareMap s with
    | none => .error .deref
    | some m => .ok (k.setShareMap s (some { m with refCount := m.refCount + 1 }))

/-- `vm_map_clip_start`: the new front part, if any, and the entry. -/
def clipStart (L : ObjectLayer O) (e : Entry) (start : BitVec 32) (c : Ctx O) :
    Except Fault (List Entry × Entry × Ctx O) :=
  if start > e.start then do
    let kernel ← reference L c.link.kernel e.object
    return ([{ e with addr := c.kernel.nextEntry, stop := start }],
      { e with offset := e.offset + (start - e.start), start := start },
      { c.link with kernel := kernel })
  else return ([], e, c)

/-- `vm_map_clip_end`: the entry, and the new back part, if any. -/
def clipEnd (L : ObjectLayer O) (e : Entry) (stop : BitVec 32) (c : Ctx O) :
    Except Fault (Entry × List Entry × Ctx O) :=
  if stop < e.stop then do
    let kernel ← reference L c.link.kernel e.object
    return ({ e with stop := stop },
      [{ e with
          addr := c.kernel.nextEntry, start := stop, offset := e.offset + (stop - e.start) }],
      { c.link with kernel := kernel })
  else return (e, [], c)

/-- `VM_MAP_RANGE_CHECK`. -/
def rangeCheck (h : Header) (start stop : BitVec 32) : BitVec 32 × BitVec 32 :=
  let start := if start < h.minOffset then h.minOffset else start
  let stop := if stop > h.maxOffset then h.maxOffset else stop
  (if start > stop then stop else start, stop)

/-- How an operation begins on the range from `start` on: whether `start` is in an entry, the
entries before the range, and from the range on. -/
def startRange (L : ObjectLayer O) (m : VmMap) (k : Kernel O) (start : BitVec 32) :
    Except Fault (Bool × List Entry × List Entry × Ctx O) := do
  let (m, r) ← lookupEntry m start
  match r with
  | .found pre e post => do
    let (front, e, c) ← clipStart L e start ⟨m.toHeader, k⟩
    return (true, pre ++ front, e :: post, c)
  | .between pre post => return (false, pre, post, ⟨m.toHeader, k⟩)

/-- The loop of an operation over the entries that begin before `stop`. The entry behind a clipped
one begins at `stop`, where the loop ends. -/
def overRange (L : ObjectLayer O) (body : Entry → Ctx O → Except Fault (List Entry × Ctx O))
    (stop : BitVec 32) : List Entry → Ctx O → Except Fault (List Entry × Ctx O)
  | [], c => .ok ([], c)
  | e :: rest, c =>
    if e.start < stop then do
      let (e, back, c) ← clipEnd L e stop c
      let (kept, c) ← body e c
      let (rest, c) ← (if back = [] then overRange L body stop rest c else .ok (back ++ rest, c))
      return (kept ++ rest, c)
    else .ok (e :: rest, c)

/-- The entries that a loop without clipping goes over. -/
def inRange (stop : BitVec 32) (l : List Entry) : List Entry :=
  l.takeWhile fun e => e.start < stop

/-! ## Insertion -/

/-- Whether the new range extends the previous entry, and its object. -/
def extendPrev (L : ObjectLayer O) (h : Header) (o : O) (object : Option ℕ) (prev : Option Entry)
    (start stop : BitVec 32) : Except Fault (Bool × O) :=
  match object, prev with
  | none, some p =>
    match p.object with
    | .object po =>
      if p.stop = start ∧ h.isMainMap ∧ p.inheritance = .copy ∧ p.protection = protDefault ∧
          p.maxProtection = protDefault ∧ p.wiredCount = 0 then
        L.coalesce o po p.offset (p.stop - p.start) (stop - p.stop)
      else .ok (false, o)
    | .shareMap _ => .ok (false, o)
  | _, _ => .ok (false, o)

/-- The entry that `vm_map_insert` makes. -/
def newEntry (addr : ℕ) (object : Option ℕ) (offset start stop : BitVec 32) : Entry where
  addr := addr
  start := start
  stop := stop
  object := .object object
  offset := offset
  copyOnWrite := false
  needsCopy := false
  protection := protDefault
  maxProtection := protDefault
  inheritance := .copy
  wiredCount := 0

/-- The end of the entry before, or of the header. -/
def prevStop (h : Header) (pre : List Entry) : BitVec 32 :=
  (pre.getLast?.map Entry.stop).getD h.maxOffset

/-- `vm_map_insert`, once the place is known. -/
def insertBetween (L : ObjectLayer O) (m : VmMap) (k : Kernel O) (object : Option ℕ)
    (offset start stop : BitVec 32) (pre post : List Entry) :
    Except Fault (Kern × VmMap × Kernel O) := do
  let (extended, objects) ← extendPrev L m.toHeader k.objects object pre.getLast? start stop
  let k := k.setObjects objects
  match extended, pre.getLast? with
  | true, some p =>
    return (.success,
      { m with
        size := m.size + (stop - p.stop)
        entries := pre.dropLast ++ { p with stop := stop } :: post }, k)
  | _, _ =>
    let e := newEntry k.nextEntry object offset start stop
    return (.success,
      { m with
        nentries := m.nentries + 1
        size := m.size + (stop - start)
        firstFree :=
          if m.firstFree = lastAddr pre ∧ prevStop m.toHeader pre ≥ start then some e.addr
          else m.firstFree
        entries := pre ++ e :: post }, { k with nextEntry := k.nextEntry + 1 })

/-- `vm_map_insert`, for a main map. -/
def vmMapInsert (L : ObjectLayer O) (m : VmMap) (k : Kernel O) (object : Option ℕ)
    (offset start stop : BitVec 32) : Except Fault (Kern × VmMap × Kernel O) :=
  if start < m.minOffset ∨ stop > m.maxOffset ∨ start ≥ stop then
    return (.invalidAddress, m, k)
  else do
    let (m, r) ← lookupEntry m start
    match r with
    | .found .. => return (.noSpace, m, k)
    | .between pre post =>
      if post.head?.any (fun next => next.start < stop) then return (.noSpace, m, k)
      else insertBetween L m k object offset start stop pre post

/-- The loop of `vm_map_find`, behind the entry at `entry`: the place found, and the entry before
it. -/
def fit (length maxOffset : BitVec 32) : BitVec 32 → Option ℕ → List Entry →
    Option (BitVec 32 × Option ℕ)
  | start, entry, [] =>
    if start + length > maxOffset ∨ start + length < start then none else some (start, entry)
  | start, entry, next :: rest =>
    if start + length > maxOffset ∨ start + length < start then none
    else if next.start ≥ start + length then some (start, entry)
    else fit length maxOffset next.stop (some next.addr) rest

/-- Where `vm_map_find` begins to look: the address, the entry before it, and the entries behind
that. -/
def firstPlace (m : VmMap) (start : BitVec 32) :
    Except Fault (VmMap × BitVec 32 × Option ℕ × List Entry) :=
  if start = m.minOffset then do
    let (_, post) ← seek m.entries m.firstFree
    match m.firstFree, post with
    | some a, e :: post => return (m, e.stop, some a, post)
    | _, _ => return (m, start, none, post)
  else do
    let (m, r) ← lookupEntry m start
    match r with
    | .found _ e post => return (m, e.stop, some e.addr, post)
    | .between pre post => return (m, start, lastAddr pre, post)

/-- `vm_map_find`: the result, `*addr`, and the map. -/
def vmMapFind (L : ObjectLayer O) (m : VmMap) (k : Kernel O) (object : Option ℕ)
    (offset addr length : BitVec 32) (findSpace : Bool) :
    Except Fault (Kern × BitVec 32 × VmMap × Kernel O) :=
  if findSpace then
    let start := if addr < m.minOffset then m.minOffset else addr
    if start > m.maxOffset then return (.noSpace, addr, m, k)
    else do
      let (m, start, entry, post) ← firstPlace m start
      match fit length m.maxOffset start entry post with
      | none => return (.noSpace, addr, m, k)
      | some (start, entry) => do
        let (r, m, k) ←
          vmMapInsert L { m with hint := entry } k object offset start (start + length)
        return (r, start, m, k)
  else do
    let (r, m, k) ← vmMapInsert L m k object offset addr (addr + length)
    return (r, addr, m, k)

/-! ## Removal -/

/-- `vm_map_entry_unwire`, if the entry is wired. -/
def unwireEntry (L : ObjectLayer O) (e : Entry) (o : O) : Except Fault O :=
  if e.wiredCount ≠ 0 then L.unwire o e else .ok o

/-- One turn of the loop of `vm_map_delete`; `release` drops a reference. -/
def deleteEntry (L : ObjectLayer O) (release : Kernel O → Backing → Except Fault (Kernel O))
    (e : Entry) (c : Ctx O) : Except Fault (List Entry × Ctx O) := do
  let o ← unwireEntry L e c.kernel.objects
  let o ← L.removePages o c.head.isMainMap e
  let c := (c.setObjects o).unlink (e.stop - e.start)
  let kernel ← release c.kernel e.object
  return ([], { c with kernel := kernel })

/-- The start of the entry at an address, or of the header. -/
def startOf (h : Header) (l : List Entry) : Option ℕ → Except Fault (BitVec 32)
  | none => .ok h.minOffset
  | some a =>
    match l.find? fun e => e.addr = a with
    | none => .error .deref
    | some e => .ok e.start

/-- The two cached pointers, before the entries behind `pre` are deleted. -/
def dropPointers (found : Bool) (start firstFreeStart : BitVec 32) (pre : List Entry)
    (h : Header) : Header :=
  let h := if found then h.saveHint (lastAddr pre) else h
  if firstFreeStart ≥ start then h.setFirstFree (lastAddr pre) else h

/-- `vm_map_delete`. -/
def vmMapDelete (L : ObjectLayer O) (release : Kernel O → Backing → Except Fault (Kernel O))
    (m : VmMap) (k : Kernel O) (start stop : BitVec 32) : Except Fault (VmMap × Kernel O) := do
  let (found, pre, rest, c) ← startRange L m k start
  let firstFreeStart ← startOf c.head (pre ++ rest) c.head.firstFree
  let c := { c with head := dropPointers found start firstFreeStart pre c.head }
  let (rest, c) ← overRange L (deleteEntry L release) stop rest c
  return (⟨c.head, pre ++ rest⟩, c.kernel)

/-- Drop a reference of an entry of a sharing map, which has objects only. -/
def releaseObject (L : ObjectLayer O) (k : Kernel O) : Backing → Except Fault (Kernel O)
  | .object o => do
    let objects ← L.deallocate k.objects o
    return k.setObjects objects
  | .shareMap _ => .error .loop

/-- `vm_map_deallocate`, for a sharing map. -/
def vmMapDeallocate (L : ObjectLayer O) (k : Kernel O) (s : ℕ) : Except Fault (Kernel O) :=
  match k.shareMap s with
  | none => .error .deref
  | some m =>
    if m.refCount - 1 > 0 then
      .ok (k.setShareMap s (some { m with refCount := m.refCount - 1 }))
    else do
      let (_, k) ← vmMapDelete L (releaseObject L) m k m.minOffset m.maxOffset
      return k.setShareMap s none

/-- Drop a reference of an entry: `vm_map_deallocate` or `vm_object_deallocate`. -/
def release (L : ObjectLayer O) (k : Kernel O) : Backing → Except Fault (Kernel O)
  | .object o => releaseObject L k (.object o)
  | .shareMap s => vmMapDeallocate L k s

/-- `vm_map_remove`. -/
def vmMapRemove (L : ObjectLayer O) (m : VmMap) (k : Kernel O) (start stop : BitVec 32) :
    Except Fault (VmMap × Kernel O) :=
  let (start, stop) := rangeCheck m.toHeader start stop
  vmMapDelete L (release L) m k start stop

/-! ## Attributes -/

/-- One turn of the second loop of `vm_map_protect`. -/
def protectEntry (newProt : BitVec 32) (setMax : Bool) (e : Entry) : Entry :=
  if setMax then { e with maxProtection := newProt, protection := newProt &&& e.protection }
  else { e with protection := newProt }

/-- `vm_map_protect`. -/
def vmMapProtect (L : ObjectLayer O) (m : VmMap) (k : Kernel O) (start stop newProt : BitVec 32)
    (setMax : Bool) : Except Fault (Kern × VmMap × Kernel O) := do
  let (start, stop) := rangeCheck m.toHeader start stop
  let (_, pre, rest, c) ← startRange L m k start
  if (inRange stop rest).any (fun e => newProt &&& e.maxProtection ≠ newProt) then
    return (.protectionFailure, ⟨c.head, pre ++ rest⟩, c.kernel)
  else do
    let (rest, c) ←
      overRange L (fun e c => .ok ([protectEntry newProt setMax e], c)) stop rest c
    return (.success, ⟨c.head, pre ++ rest⟩, c.kernel)

/-- `vm_map_inherit`. -/
def vmMapInherit (L : ObjectLayer O) (m : VmMap) (k : Kernel O)
    (start stop newInheritance : BitVec 32) : Except Fault (Kern × VmMap × Kernel O) :=
  match Inherit.ofInt newInheritance with
  | none => return (.invalidArgument, m, k)
  | some i => do
    let (start, stop) := rangeCheck m.toHeader start stop
    let (_, pre, rest, c) ← startRange L m k start
    let (rest, c) ← overRange L (fun e c => .ok ([{ e with inheritance := i }], c)) stop rest c
    return (.success, ⟨c.head, pre ++ rest⟩, c.kernel)

/-! ## Wiring -/

/-- One turn of the loop that unwires. -/
def unwireTurn (L : ObjectLayer O) (e : Entry) (c : Ctx O) :
    Except Fault (List Entry × Ctx O) :=
  if e.wiredCount - 1 = 0 then do
    let o ← L.unwire c.kernel.objects e
    return ([{ e with wiredCount := e.wiredCount - 1 }], c.setObjects o)
  else return ([{ e with wiredCount := e.wiredCount - 1 }], c)

/-- `vm_map_pageable` with `new_pageable` set. -/
def vmMapUnwire (L : ObjectLayer O) (m : VmMap) (k : Kernel O) (start stop : BitVec 32) :
    Except Fault (Kern × VmMap × Kernel O) := do
  let (start, stop) := rangeCheck m.toHeader start stop
  let (_, pre, rest, c) ← startRange L m k start
  if (inRange stop rest).any (fun e => e.wiredCount = 0) then
    return (.invalidArgument, ⟨c.head, pre ++ rest⟩, c.kernel)
  else do
    let (rest, c) ← overRange L (unwireTurn L) stop rest c
    return (.success, ⟨c.head, pre ++ rest⟩, c.kernel)

/-- The object that a newly wired entry needs: a shadow of an object to be copied, or a new one. -/
def makeObject (L : ObjectLayer O) (e : Entry) (o : O) : Except Fault (Entry × O) :=
  match e.object with
  | .shareMap _ => .ok (e, o)
  | .object object =>
    if e.needsCopy ∧ e.protection &&& protWrite ≠ 0 then do
      let (n, offset, o) ← L.shadow o object e.offset (e.stop - e.start)
      return ({ e with object := .object (some n), offset := offset, needsCopy := false }, o)
    else if object = none then do
      let (n, o) ← L.allocate o (e.stop - e.start)
      return ({ e with object := .object (some n), offset := 0 }, o)
    else .ok (e, o)

/-- One turn of the first pass of wiring. -/
def wireTurn (L : ObjectLayer O) (e : Entry) (c : Ctx O) : Except Fault (List Entry × Ctx O) :=
  if e.wiredCount + 1 = 1 then do
    let (e, o) ← makeObject L { e with wiredCount := e.wiredCount + 1 } c.kernel.objects
    return ([e], c.setObjects o)
  else return ([{ e with wiredCount := e.wiredCount + 1 }], c)

/-- The second pass of wiring. `failed` is the value of a wiring that failed, and its start. The
lookups of `vm_fault` leave the hint at the entry. -/
def wirePass (L : ObjectLayer O) (stop : BitVec 32) : Option (BitVec 32 × BitVec 32) →
    List Entry → Ctx O → Except Fault (Option (BitVec 32 × BitVec 32) × List Entry × Ctx O)
  | failed, [], c => .ok (failed, [], c)
  | failed, e :: rest, c =>
    if e.start < stop then
      match failed with
      | some f => do
        let (failed, rest, c) ← wirePass L stop (some f) rest c
        return (failed, { e with wiredCount := e.wiredCount - 1 } :: rest, c)
      | none =>
        if e.wiredCount = 1 then do
          let (rv, o) ← L.wire c.kernel.objects e
          let c := { c.setObjects o with head := c.head.saveHint (some e.addr) }
          let e' := if rv ≠ 0 then { e with wiredCount := e.wiredCount - 1 } else e
          let (failed, rest, c) ←
            wirePass L stop (if rv ≠ 0 then some (rv, e.start) else none) rest c
          return (failed, e' :: rest, c)
        else do
          let (failed, rest, c) ← wirePass L stop none rest c
          return (failed, e :: rest, c)
    else .ok (failed, e :: rest, c)

/-- `vm_map_pageable`. -/
def vmMapPageable (L : ObjectLayer O) (m : VmMap) (k : Kernel O) (start stop : BitVec 32)
    (newPageable : Bool) : Except Fault (Kern × VmMap × Kernel O) :=
  if newPageable then vmMapUnwire L m k start stop
  else do
    let (start, stop) := rangeCheck m.toHeader start stop
    let (_, pre, rest, c) ← startRange L m k start
    let (rest, c) ← overRange L (wireTurn L) stop rest c
    let (failed, rest, c) ← wirePass L stop none rest c
    let m : VmMap := ⟨c.head, pre ++ rest⟩
    match failed with
    | none => return (.success, m, c.kernel)
    | some (rv, first) => do
      let (_, m, k) ← vmMapUnwire L m c.kernel start first
      return (.other rv, m, k)

/-! ## Simplification -/

/-- Whether an entry continues the one before it. -/
def Continues (p e : Entry) : Prop :=
  p.inheritance = e.inheritance ∧ p.protection = e.protection ∧
    p.maxProtection = e.maxProtection ∧ p.wiredCount = e.wiredCount ∧
    p.copyOnWrite = e.copyOnWrite ∧ p.needsCopy = e.needsCopy ∧ p.object = e.object ∧
    p.offset + (p.stop - p.start) = e.offset

instance (p e : Entry) : Decidable (Continues p e) := inferInstanceAs (Decidable (_ ∧ _))

/-- The object of an entry that has no sharing map. -/
def Backing.object? : Backing → Option (Option ℕ)
  | .object o => some o
  | .shareMap _ => none

/-- `vm_map_simplify`. -/
def vmMapSimplify (L : ObjectLayer O) (m : VmMap) (k : Kernel O) (start : BitVec 32) :
    Except Fault (VmMap × Kernel O) := do
  let (m, r) ← lookupEntry m start
  match r with
  | .between .. => return (m, k)
  | .found pre e post =>
    match pre.getLast?, e.object.object? with
    | some p, some object =>
      if p.stop = start ∧ m.isMainMap ∧ Continues p e then do
        let objects ← L.deallocate k.objects object
        return (
          { m with
            firstFree := if m.firstFree = some e.addr then some p.addr else m.firstFree
            hint := some p.addr
            nentries := m.nentries - 1
            entries := pre.dropLast ++ { p with stop := e.stop } :: post },
          k.setObjects objects)
      else return (m, k)
    | _, _ => return (m, k)

/-! ## Fork -/

/-- `vm_map_init`. -/
def vmMapInit (minOffset maxOffset : BitVec 32) : VmMap where
  nentries := 0
  size := 0
  isMainMap := true
  refCount := 1
  minOffset := minOffset
  maxOffset := maxOffset
  hint := none
  firstFree := none
  entries := []

/-- `vm_map_copy_entry`, into an entry just made. -/
def vmMapCopyEntry (L : ObjectLayer O) (src dst : Entry) (object : Option ℕ) (o : O) :
    Except Fault (Entry × Entry × O) :=
  if src.wiredCount = 0 then do
    let (copy, offset, srcNeedsCopy, o) ← L.copy o object src.offset (src.stop - src.start)
    return ({ src with needsCopy := src.needsCopy || srcNeedsCopy, copyOnWrite := true },
      { dst with
        object := .object copy, offset := offset, needsCopy := true, copyOnWrite := true }, o)
  else do
    let (n, o) ← L.copyWired o src
    return (src, { dst with object := .object (some n), offset := 0 }, o)

/-- The sharing map of an entry: its own, or a new one with the entry in it. -/
def shareEntry (old : Entry) (k : Kernel O) : ℕ × Entry × Kernel O :=
  match old.object with
  | .shareMap s => (s, old, k)
  | .object _ =>
    let shared : VmMap :=
      { vmMapInit old.start old.stop with
        isMainMap := false
        nentries := 1
        entries := [{ old with addr := k.nextEntry }] }
    (k.nextMap, { old with object := .shareMap k.nextMap, offset := old.start },
      { k.setShareMap k.nextMap (some shared) with
        nextMap := k.nextMap + 1, nextEntry := k.nextEntry + 1 })

/-- One turn of the loop of `vmspace_fork`: the entry of the parent, and those of the child. -/
def forkEntry (L : ObjectLayer O) (old : Entry) (c : Ctx O) :
    Except Fault (Entry × List Entry × Ctx O) :=
  match old.inheritance with
  | .none => return (old, [], c)
  | .share => do
    let (s, old, k) := shareEntry old c.kernel
    let new := { old with addr := k.nextEntry }
    let c := Ctx.link { c with kernel := k }
    let k ← reference L c.kernel (.shareMap s)
    return (old, [new], { c with kernel := k })
  | .copy =>
    let new := { old with addr := c.kernel.nextEntry, wiredCount := 0, object := .object none }
    let c := c.link
    match old.object with
    | .shareMap s => do
      let (news, k) ← L.copyShared c.kernel s old.offset new
      return (old, news,
        { head := { c.head with nentries := c.head.nentries - 1 + news.length }, kernel := k })
    | .object object => do
      let (old, new, o) ← vmMapCopyEntry L old new object c.kernel.objects
      return (old, [new], c.setObjects o)

/-- The loop of `vmspace_fork`. -/
def forkEntries (L : ObjectLayer O) :
    List Entry → Ctx O → Except Fault (List Entry × List Entry × Ctx O)
  | [], c => .ok ([], [], c)
  | e :: rest, c => do
    let (e, new, c) ← forkEntry L e c
    let (rest, news, c) ← forkEntries L rest c
    return (e :: rest, new ++ news, c)

/-- `vmspace_fork`: the map of the parent, and of the child. -/
def vmspaceFork (L : ObjectLayer O) (old : VmMap) (k : Kernel O) :
    Except Fault (VmMap × VmMap × Kernel O) := do
  let child := vmMapInit old.minOffset old.maxOffset
  let (olds, news, c) ← forkEntries L old.entries ⟨child.toHeader, k⟩
  return ({ old with entries := olds }, ⟨{ c.head with size := old.size }, news⟩, c.kernel)

/-! ## The system -/

/-- The main maps, and what they have in common. -/
structure World (O : Type) where
  space : ℕ → Option VmMap
  kernel : Kernel O

/-- The operations on a main map. -/
inductive Op where
  | insert (object : Option ℕ) (offset start stop : BitVec 32)
  | find (object : Option ℕ) (offset addr length : BitVec 32) (findSpace : Bool)
  | remove (start stop : BitVec 32)
  | protect (start stop newProt : BitVec 32) (setMax : Bool)
  | inherit (start stop newInheritance : BitVec 32)
  | pageable (start stop : BitVec 32) (newPageable : Bool)
  | simplify (start : BitVec 32)

/-- An operation that changes its map only: the result, and the address of the range. -/
def Op.run (L : ObjectLayer O) (m : VmMap) (k : Kernel O) :
    Op → Except Fault (Kern × BitVec 32 × VmMap × Kernel O)
  | .insert object offset start stop => do
    let (r, m, k) ← vmMapInsert L m k object offset start stop
    return (r, start, m, k)
  | .find object offset addr length findSpace =>
    vmMapFind L m k object offset addr length findSpace
  | .remove start stop => do
    let (m, k) ← vmMapRemove L m k start stop
    return (.success, start, m, k)
  | .protect start stop newProt setMax => do
    let (r, m, k) ← vmMapProtect L m k start stop newProt setMax
    return (r, start, m, k)
  | .inherit start stop newInheritance => do
    let (r, m, k) ← vmMapInherit L m k start stop newInheritance
    return (r, start, m, k)
  | .pageable start stop newPageable => do
    let (r, m, k) ← vmMapPageable L m k start stop newPageable
    return (r, start, m, k)
  | .simplify start => do
    let (m, k) ← vmMapSimplify L m k start
    return (.success, start, m, k)

/-- An operation on the main map `i`. -/
def World.op (L : ObjectLayer O) (w : World O) (i : ℕ) (op : Op) :
    Except Fault (Kern × BitVec 32 × World O) :=
  match w.space i with
  | none => .error .deref
  | some m => do
    let (r, addr, m, k) ← op.run L m w.kernel
    return (r, addr, { space := Function.update w.space i (some m), kernel := k })

/-- `vmspace_fork` of the main map `i`. The child gets the next address. -/
def World.fork (L : ObjectLayer O) (w : World O) (i : ℕ) : Except Fault (World O) :=
  match w.space i with
  | none => .error .deref
  | some m => do
    let child := w.kernel.nextMap
    let (m, m', k) ← vmspaceFork L m { w.kernel with nextMap := child + 1 }
    return {
      space := Function.update (Function.update w.space i (some m)) child (some m')
      kernel := k }

end

end AddressMap
