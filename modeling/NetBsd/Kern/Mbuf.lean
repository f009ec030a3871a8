import Mathlib

/-!
# Mbufs

An mbuf of `sys/mbuf.h` as a value: what its header says of it, and its data, which are the
`m_len` bytes from `m_data` on. A packet is the list of the mbufs that `m_next` leads to.

## Main definitions

* `Mbuf`: an mbuf without its links
* `lens l`, `stores l`, `bytes l`: the length, the storage and the bytes of a packet
* `mAdj`, `mAdjTail`: `m_adj` for bytes at the head and at the tail of a packet

## Main results

* `bytes_mAdj`: `m_adj` takes the first bytes away
-/

/-- The types of an mbuf. -/
inductive MType where
  | free
  | data
  | header
  | socket
  | pcb
  | rtable
  | htable
  | atable
  | soname
  | soopts
  | ftable
  | rights
  | ifaddr
  | control
  | oobdata
  deriving DecidableEq, Repr

/-- An mbuf without its links: `ext` is `m_ext.ext_size` when `M_EXT` is set, `pkthdr` the length
in the packet header when `M_PKTHDR` is, `eor` the flag `M_EOR`, and `off` the distance of
`m_data` from `m_dat`. -/
structure Mbuf where
  mType : MType
  ext : Option ℕ
  pkthdr : Option ℤ
  eor : Bool
  off : ℕ
  data : List UInt8
  deriving DecidableEq, Repr

namespace Mbuf

variable {m : Mbuf} {l k : List Mbuf}

/-- `MSIZE`. -/
def msize : ℕ := 128

/-- `MLEN`, `MSIZE` less the header of an mbuf. -/
def mlen : ℕ := 108

/-- `m_len`. -/
def len (m : Mbuf) : ℤ := m.data.length

/-- What an mbuf adds to `sb_mbcnt`. -/
def storage (m : Mbuf) : ℤ := msize + m.ext.getD 0

/-- The `m_len` of the mbufs together. -/
def lens (l : List Mbuf) : ℤ := (l.map len).sum

/-- The bytes of the mbufs. -/
def bytes (l : List Mbuf) : List UInt8 := l.flatMap data

/-- The storage of the mbufs. -/
def stores (l : List Mbuf) : ℤ := (l.map storage).sum

@[simp] theorem bytes_nil : bytes [] = [] := rfl
@[simp] theorem bytes_cons : bytes (m :: l) = m.data ++ bytes l := rfl

@[simp] theorem bytes_append : bytes (l ++ k) = bytes l ++ bytes k := List.flatMap_append

@[simp] theorem lens_nil : lens [] = 0 := rfl
@[simp] theorem lens_cons : lens (m :: l) = m.len + lens l := List.sum_cons

@[simp] theorem lens_append : lens (l ++ k) = lens l + lens k := by
  simp [lens]

@[simp] theorem stores_nil : stores [] = 0 := rfl
@[simp] theorem stores_cons : stores (m :: l) = m.storage + stores l := List.sum_cons

@[simp] theorem stores_append : stores (l ++ k) = stores l + stores k := by
  simp [stores]

theorem lens_eq (l : List Mbuf) : lens l = (bytes l).length := by
  induction l with
  | nil => rfl
  | cons m l ih => simp [ih, len]

theorem storage_pos (m : Mbuf) : 0 < m.storage := by
  simp only [storage, msize]
  omega

theorem stores_nonneg (l : List Mbuf) : 0 ≤ stores l := by
  induction l with
  | nil => simp
  | cons m l ih =>
    have := storage_pos m
    simp only [stores_cons]
    omega

theorem stores_eq_zero (h : stores l = 0) : l = [] := by
  cases l with
  | nil => rfl
  | cons m l =>
    have := storage_pos m
    have := stores_nonneg l
    simp only [stores_cons] at h
    omega

/-! ## Trimming -/

/-- The loop of `m_adj` for `len` bytes at the head; the mbufs it empties stay in the chain. -/
def adjLoop (len : ℤ) : List Mbuf → List Mbuf
  | [] => []
  | m :: l =>
    if 0 < len then
      if m.len ≤ len then { m with data := [] } :: adjLoop (len - m.len) l
      else { m with off := m.off + len.toNat, data := m.data.drop len.toNat } :: l
    else m :: l

/-- `m_adj` with `0 ≤ len`: the length in the packet header goes down by what was found. -/
def mAdj (l : List Mbuf) (len : ℤ) : List Mbuf :=
  match adjLoop len l with
  | [] => []
  | m :: k => { m with pkthdr := m.pkthdr.map (· - min len (lens l)) } :: k

theorem bytes_adjLoop (len : ℤ) (l : List Mbuf) :
    bytes (adjLoop len l) = (bytes l).drop len.toNat := by
  induction l generalizing len with
  | nil => simp [adjLoop]
  | cons m l ih =>
    unfold adjLoop
    split
    next hpos =>
      split
      next hle =>
        simp only [Mbuf.len] at hle
        have hcut : m.data.drop len.toNat = [] := List.drop_eq_nil_of_le (by omega)
        rw [bytes_cons, List.nil_append, ih, bytes_cons, List.drop_append, hcut, List.nil_append,
          Mbuf.len]
        congr 1
        omega
      next hlt =>
        simp only [Mbuf.len] at hlt
        rw [bytes_cons, bytes_cons, List.drop_append_of_le_length (by omega)]
    next hneg =>
      rw [show len.toNat = 0 by omega, List.drop_zero]

/-- `m_adj` takes the first bytes away. -/
theorem bytes_mAdj (l : List Mbuf) (len : ℤ) : bytes (mAdj l len) = (bytes l).drop len.toNat := by
  rw [← bytes_adjLoop, mAdj]
  split
  next h => rw [h]
  next h =>
    rw [h]
    rfl

/-- The mbufs up to `count` bytes keep their data, the others become empty. -/
def cutAt (count : ℤ) : List Mbuf → List Mbuf
  | [] => []
  | m :: l =>
    if m.len ≥ count then
      { m with data := m.data.take count.toNat } :: l.map fun k => { k with data := [] }
    else m :: cutAt (count - m.len) l

/-- `m_adj` with `-len`, for `0 ≤ len`: the last mbuf alone is cut when it is long enough. -/
def mAdjTail (l : List Mbuf) (len : ℤ) : List Mbuf :=
  match l.getLast? with
  | none => []
  | some k =>
    if k.len ≥ len then
      l.dropLast ++ [{ k with
        data := k.data.take (k.len - len).toNat, pkthdr := k.pkthdr.map (· - len) }]
    else
      let count := max (lens l - len) 0
      match cutAt count l with
      | [] => []
      | m :: l => { m with pkthdr := m.pkthdr.map fun _ => count } :: l

end Mbuf
