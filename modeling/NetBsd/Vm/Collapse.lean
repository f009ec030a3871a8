import Mathlib
import NetBsd.Lib.Fault
import NetBsd.Lib.Machine

/-!
# Collapsing VM objects

`vm_object_collapse` of `vm/vm_object.c`, on the graph of objects that their shadow pointers make.
An object is found by its address, and `vm_object_list` is the set of the addresses in use; to
follow a pointer to an object that has been freed is a fault. A pager is a number, and what the
pagers hold does not change while objects are collapsed.

## Main definitions

* `collapseStep`: one turn of the loop of `vm_object_collapse`
* `vmObjectCollapse`: the function
* `Found`: what searching an object for an offset finds
* `Graph`: objects with exact reference counts, each with its window of its shadow in it
-/

namespace Collapse

variable {P : Type}

/-- `struct vm_page`, as far as an object is concerned. -/
structure VmPage (P : Type) where
  offset : BitVec 32
  fake : Bool
  data : P

/-- `struct vm_object`. -/
structure VmObject (P : Type) where
  memq : List (VmPage P)
  refCount : ℤ
  size : BitVec 32
  copy : Option ℕ
  pager : Option ℕ
  pagingOffset : BitVec 32
  shadow : Option ℕ
  shadowOffset : BitVec 32
  pagingInProgress : ℕ
  internal : Bool

/-- The objects: `vm_object_list` has the addresses in use. -/
structure Vm (P : Type) where
  objectList : Finset ℕ
  object : ℕ → VmObject P

/-- Replace one object. -/
def Vm.set (s : Vm P) (x : ℕ) (obj : VmObject P) : Vm P :=
  { s with object := Function.update s.object x obj }

@[simp] theorem Vm.set_objectList (s : Vm P) (x : ℕ) (obj : VmObject P) :
    (s.set x obj).objectList = s.objectList := rfl

@[simp] theorem Vm.set_self (s : Vm P) (x : ℕ) (obj : VmObject P) :
    (s.set x obj).object x = obj := Function.update_self ..

theorem Vm.set_of_ne (s : Vm P) {x y : ℕ} (obj : VmObject P) (hy : y ≠ x) :
    (s.set x obj).object y = s.object y := Function.update_of_ne hy ..

/-- `vm_page_lookup` on the pages of an object. -/
def vmPageLookup (memq : List (VmPage P)) (off : BitVec 32) : Option (VmPage P) :=
  memq.find? fun p => p.offset = off

/-- The loop that empties the queue of the backing object into the queue of its parent, which has
`size` bytes from `backingOffset` on. -/
def movePages (backingOffset size : BitVec 32) :
    List (VmPage P) → List (VmPage P) → Except Fault (List (VmPage P))
  | [], memq => .ok memq
  | p :: rest, memq =>
    let newOffset := p.offset - backingOffset
    if p.offset < backingOffset ∨ newOffset ≥ size then movePages backingOffset size rest memq
    else
      match vmPageLookup memq newOffset with
      | some pp =>
        if pp.fake then .error .panic else movePages backingOffset size rest memq
      | none => movePages backingOffset size rest (memq ++ [{ p with offset := newOffset }])

/-- Whether the parent has a page for each page of the backing object. -/
def allShadowed (backingOffset size : BitVec 32) (memq : List (VmPage P)) :
    List (VmPage P) → Bool
  | [] => true
  | p :: rest =>
    let newOffset := p.offset - backingOffset
    if p.offset ≥ backingOffset ∧ newOffset ≤ size ∧
        (vmPageLookup memq newOffset).all (fun pp => pp.fake) then false
    else allShadowed backingOffset size memq rest

/-- `shadow->copy`, for a shadow that may be missing. -/
def shadowCopy (s : Vm P) : Option ℕ → Except Fault (Option ℕ)
  | none => .ok none
  | some c => if c ∈ s.objectList then .ok (s.object c).copy else .error .deref

/-- `vm_object_reference`. -/
def vmObjectReference (s : Vm P) : Option ℕ → Vm P
  | none => s
  | some c => s.set c { s.object c with refCount := (s.object c).refCount + 1 }

/-- The backing object has no other reference: its pages and its pager move to the parent, and it
is freed. -/
def collapseInto (o b : ℕ) (s : Vm P) : Machine.Outcome (Vm P) (Vm P) Fault :=
  let object := s.object o
  let backing := s.object b
  match movePages object.shadowOffset object.size backing.memq object.memq with
  | .error e => .fault e
  | .ok memq =>
    let object' : VmObject P :=
      { object with
        memq := memq
        pager := backing.pager
        pagingOffset :=
          if backing.pager.isSome then backing.pagingOffset + object.shadowOffset
          else object.pagingOffset
        shadow := backing.shadow
        shadowOffset := object.shadowOffset + backing.shadowOffset }
    match shadowCopy s backing.shadow with
    | .error e => .fault e
    | .ok (some _) => .fault .panic
    | .ok none => .next { (s.set o object') with objectList := s.objectList.erase b }

/-- The backing object has other references: the parent shadows the next object in the chain, if
it has all the pages it needs. -/
def bypass (o b : ℕ) (s : Vm P) : Machine.Outcome (Vm P) (Vm P) Fault :=
  let object := s.object o
  let backing := s.object b
  if backing.pager.isSome then .ret s
  else if allShadowed object.shadowOffset object.size object.memq backing.memq then
    let s := s.set o { object with
      shadow := backing.shadow, shadowOffset := object.shadowOffset + backing.shadowOffset }
    let s := vmObjectReference s backing.shadow
    let backing := s.object b
    .next (s.set b { backing with
      copy := if backing.copy = some o then none else backing.copy
      refCount := backing.refCount - 1 })
  else .ret s

/-- One turn of the loop of `vm_object_collapse`. -/
def collapseStep (o : ℕ) (s : Vm P) : Machine.Outcome (Vm P) (Vm P) Fault :=
  if o ∉ s.objectList then .fault .deref
  else if (s.object o).pagingInProgress ≠ 0 ∨ (s.object o).pager.isSome then .ret s
  else
    match (s.object o).shadow with
    | none => .ret s
    | some b =>
      if b ∉ s.objectList then .fault .deref
      else if (s.object b).internal = false ∨ (s.object b).pagingInProgress ≠ 0 then .ret s
      else
        match shadowCopy s (s.object b).shadow with
        | .error e => .fault e
        | .ok (some _) => .ret s
        | .ok none => if (s.object b).refCount = 1 then collapseInto o b s else bypass o b s

/-- `vm_object_collapse`, for at most `n` turns of its loop. -/
def vmObjectCollapse (allowed : Bool) (n : ℕ) (o : Option ℕ) (s : Vm P) :
    Machine.Outcome (Vm P) (Vm P) Fault :=
  if allowed then
    match o with
    | none => .ret s
    | some o => Machine.run (collapseStep o) n s
  else .ret s

/-! ## The search -/

/-- The page of an object itself: a resident page, else what its pager has. -/
def here (pagers : ℕ → BitVec 32 → Option P) (obj : VmObject P) (off : BitVec 32) : Option P :=
  match vmPageLookup obj.memq off with
  | some p => some p.data
  | none => obj.pager.bind fun g => pagers g (off + obj.pagingOffset)

/-- Searching object `x` for the page at an offset finds `r`: the page of the object itself, else
what searching its shadow at the added offset finds. -/
inductive Found (pagers : ℕ → BitVec 32 → Option P) (s : Vm P) : ℕ → BitVec 32 → Option P → Prop
  | here {x off p} : here pagers (s.object x) off = some p → Found pagers s x off (some p)
  | shadow {x off y r} : here pagers (s.object x) off = none → (s.object x).shadow = some y →
      Found pagers s y (off + (s.object x).shadowOffset) r → Found pagers s x off r
  | none {x off} : here pagers (s.object x) off = none → (s.object x).shadow = none →
      Found pagers s x off none

/-! ## Graphs of objects -/

/-- The objects that shadow `x`. -/
def shadowing (s : Vm P) (x : ℕ) : Finset ℕ :=
  s.objectList.filter fun z => (s.object z).shadow = some x

/-- The shadow of an object has a smaller number than the object. -/
def Deep (depth : ℕ → ℕ) (s : Vm P) : Prop :=
  ∀ x ∈ s.objectList, ∀ y, (s.object x).shadow = some y → depth y < depth x

/-- `ref_count` is the number of references: those from outside, and the shadow pointers. What is
referenced has not been freed, and no object shadows itself through others. -/
structure Counted (ext : ℕ → ℕ) (s : Vm P) : Prop where
  referenced : ∀ x, ext x ≠ 0 → x ∈ s.objectList
  shadows : ∀ x ∈ s.objectList, ∀ y, (s.object x).shadow = some y → y ∈ s.objectList
  exact : ∀ x ∈ s.objectList, (s.object x).refCount = ext x + (shadowing s x).card
  acyclic : ∃ depth, Deep depth s

/-- The window that an object has of its shadow is in the shadow, and ends within the address
space. Objects that are not internal have no shadow. The resident pages have contents, except in an
object with paging in progress. -/
structure Windows (s : Vm P) : Prop where
  inside : ∀ x ∈ s.objectList, ∀ y, (s.object x).shadow = some y →
    (s.object x).shadowOffset.toNat + (s.object x).size.toNat ≤
      if (s.object y).internal then (s.object y).size.toNat else 2 ^ 32
  bottom : ∀ x ∈ s.objectList, (s.object x).internal = false → (s.object x).shadow = none
  real : ∀ x ∈ s.objectList, (s.object x).pagingInProgress = 0 → ∀ p ∈ (s.object x).memq,
    p.fake = false

/-- Every object that is left reads as before, at every offset inside its size. -/
def ReadsAs (pagers : ℕ → BitVec 32 → Option P) (s s' : Vm P) : Prop :=
  ∀ x ∈ s'.objectList, ∀ off, off < (s.object x).size → ∀ r,
    Found pagers s' x off r ↔ Found pagers s x off r

end Collapse
