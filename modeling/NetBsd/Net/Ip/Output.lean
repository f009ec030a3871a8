import Mathlib.Algebra.Order.Ring.Int
import Mathlib.Data.List.Nodup
import Mathlib.Order.Basic
import Mathlib.Tactic.Common
import NetBsd.Net.Ip.Dooptions

/-!
# The mbufs of a packet in `ip_output`

`ip_output` and `ip_insertoptions` of `netinet/ip_output.c`, with `m_copym` for the data of a
fragment, as far as they are about mbufs and about the ways out of the function. Two ways lose
mbufs. A packet that is refused is freed from the mbuf on that was given, which a new mbuf for the
header is in front of. And the mbuf for the header of a fragment is not in the chain of fragments
yet when the data cannot be copied.

## Main definitions

* `Pool`: what has been allocated, freed and handed to the interface
* `ipInsertoptions`, `refusal`, `mCopy`, `fragLoop`, `sendorfree`, `ipOutput`: the code
* `Disposed`: each mbuf is freed once or handed over once
* `Loses`: the two ways that lose mbufs

## Main results

* `fragLoop_spec`: the mbufs of the fragments, and when one is lost
* `ipOutput_disposed_iff`: the packet is disposed of except in these two ways
-/

namespace Ip

/-! ## Mbufs -/

/-- An mbuf of the packet that is given, or the one that an attempt to allocate has made. -/
inductive Id where
  | given (i : ℕ)
  | made (n : ℕ)
  deriving DecidableEq, Repr

/-- The attempts to allocate so far, those that succeeded, the mbufs that have been freed and the
chains that have been handed to the interface. -/
structure Pool where
  tries : ℕ := 0
  made : List ℕ := []
  freed : List Id := []
  sent : List (List Id) := []
  deriving DecidableEq, Repr

variable (alloc : ℕ → Bool)

/-- `MGET` and `MGETHDR`; `alloc` says which attempts succeed. -/
def mget (p : Pool) : Option Id × Pool :=
  if alloc p.tries then
    (some (.made p.tries), { p with tries := p.tries + 1, made := p.made ++ [p.tries] })
  else (none, { p with tries := p.tries + 1 })

/-- `m_freem` -/
def mFreem (p : Pool) (m : List Id) : Pool := { p with freed := p.freed ++ m }

/-! ## The packet and its surroundings -/

/-- What is asked of an interface. -/
structure Ifnet where
  broadcast : Bool
  mtu : ℤ
  deriving DecidableEq, Repr

/-- What is asked of a route. -/
structure Rtentry where
  up : Bool
  ifp : Ifnet
  gateway : Option Addr
  deriving DecidableEq, Repr

/-- The flags, the route that is given, the results of the lookups (`ifOf` is that of
`ifa_ifwithdstaddr` or `in_iaonnetof`), and the result of each call of `if_output`. -/
structure Out where
  forwarding : Bool
  routetoif : Bool
  allowbroadcast : Bool
  roRt : Option Rtentry
  roDst : Addr
  rtalloc : Addr → Option Rtentry
  ifOf : Addr → Option Ifnet
  inBroadcast : Addr → Bool
  ifOutput : ℕ → ℤ

/-- The mbufs of a packet with their lengths, whether the first has external data and how far its
data are from its start, and the fields of the header; `ipLen` is the unsigned value. -/
structure Packet where
  chain : List (Id × ℤ)
  ext : Bool
  lead : ℤ
  ipLen : ℕ
  ipHl : ℕ
  ipDst : Addr
  df : Bool
  deriving DecidableEq, Repr

def Packet.ids (x : Packet) : List Id := x.chain.map Prod.fst

/-- The mbuf with options: its length, and the first address of a source route or 0. -/
structure Ipoption where
  len : ℕ
  dst : Addr
  deriving DecidableEq, Repr

def ENETUNREACH : ℤ := 51
def EHOSTUNREACH : ℤ := 65
def EADDRNOTAVAIL : ℤ := 49
def EACCES : ℤ := 13
def EMSGSIZE : ℤ := 40
def ENOBUFS : ℤ := 55

/-! ## Options -/

/-- `optlen` of `ip_insertoptions`, which is unsigned. -/
def optlen (opt : Ipoption) : ℕ := (opt.len + 2 ^ 32 - 4) % 2 ^ 32

/-- The packet would be longer than `IP_MAXPACKET`; the sum is unsigned. -/
def TooLong (x : Packet) (opt : Ipoption) : Prop := (optlen opt + x.ipLen) % 2 ^ 32 > 65535

instance (x : Packet) (opt : Ipoption) : Decidable (TooLong x opt) :=
  inferInstanceAs (Decidable (_ < _))

/-- `ip_insertoptions`: the packet, the length of its header if it is set, and the pool. -/
def ipInsertoptions (x : Packet) (opt : Ipoption) (p : Pool) : Packet × Option ℤ × Pool :=
  if TooLong x opt then (x, none, p)
  else
    let x := if opt.dst ≠ 0 then { x with ipDst := opt.dst } else x
    if x.ext ∨ x.lead - optlen opt < 0 then
      match mget alloc p with
      | (none, p) => (x, none, p)
      | (some n, p) =>
        let rest := match x.chain with
          | [] => []
          | (m, l) :: k => (m, l - 20) :: k
        ({ x with chain := (n, (optlen opt + 20 : ℤ)) :: rest, ipLen := x.ipLen + optlen opt },
          some (20 + optlen opt), p)
    else
      let chain := match x.chain with
        | [] => []
        | (m, l) :: k => (m, l + optlen opt) :: k
      ({ x with chain := chain, lead := x.lead - optlen opt, ipLen := x.ipLen + optlen opt },
        some (20 + optlen opt), p)

/-! ## The ways out -/

/-- The interface and the address to send to, or the error when there is no route. -/
def routed (e : Out) (x : Packet) : Except ℤ (Ifnet × Addr) :=
  let roRt := match e.roRt with
    | some rt => if rt.up ∧ e.roDst = x.ipDst then some rt else none
    | none => none
  if e.routetoif then
    match e.ifOf x.ipDst with
    | none => .error ENETUNREACH
    | some ifp => .ok (ifp, x.ipDst)
  else
    let roRt := match roRt with
      | some rt => some rt
      | none => e.rtalloc x.ipDst
    match roRt with
    | none => .error EHOSTUNREACH
    | some rt => .ok (rt.ifp, rt.gateway.getD x.ipDst)

/-- The interface, or the error with which a packet is refused that need not be cut. -/
def admitted (e : Out) (x : Packet) : Except ℤ Ifnet :=
  match routed e x with
  | .error err => .error err
  | .ok (ifp, dst) =>
    if e.inBroadcast dst then
      if ifp.broadcast = false then .error EADDRNOTAVAIL
      else if e.allowbroadcast = false then .error EACCES
      else if (x.ipLen : ℤ) > ifp.mtu then .error EMSGSIZE
      else .ok ifp
    else .ok ifp

/-- What is done with a packet. -/
inductive Plan where
  | refuse (error : ℤ)
  | send
  | fragment (len : ℤ)
  deriving DecidableEq, Repr

/-- The decision about a packet with a header of `hlen` bytes. -/
def plan (e : Out) (x : Packet) (hlen : ℤ) : Plan :=
  match admitted e x with
  | .error err => .refuse err
  | .ok ifp =>
    if (x.ipLen : ℤ) ≤ ifp.mtu then .send
    else if x.df then .refuse EMSGSIZE
    else
      -- the length of the data of a fragment is cut to a multiple of eight
      let len := (ifp.mtu - hlen) / 8 * 8
      if len < 8 then .refuse EMSGSIZE else .fragment len

/-! ## Fragments -/

/-- The loop of `m_copym` that looks for the first byte; none when it panics. -/
def skip (off : ℤ) : List ℤ → Option (ℤ × List ℤ)
  | [] => if off > 0 then none else some (off, [])
  | l :: ls => if off > 0 ∧ ¬off < l then skip (off - l) ls else some (off, l :: ls)

/-- The loop of `m_copym` that copies; the mbufs of the copy, if there is one. -/
def copyLoop (off len : ℤ) (top : List Id) (p : Pool) : List ℤ → Option (Option (List Id) × Pool)
  | [] => if len ≤ 0 then some (if top = [] then none else some top, p) else none
  | l :: ls =>
    if len ≤ 0 then some (if top = [] then none else some top, p)
    else match mget alloc p with
    | (none, p) => some (none, mFreem p top)
    | (some n, p) => copyLoop 0 (len - min len (l - off)) (top ++ [n]) p ls

/-- `m_copy`; none when it panics. -/
def mCopy (lens : List ℤ) (off len : ℤ) (p : Pool) : Option (Option (List Id) × Pool) :=
  if off < 0 ∨ len < 0 then none
  else match skip off lens with
  | none => none
  | some (off, ls) => copyLoop alloc off len [] p ls

/-- Why there is no result: a panic, or a bound for the turns of the loop that is too small. -/
inductive Trap where
  | panic
  | turns
  deriving DecidableEq, Repr

/-- The loop that makes the fragments after the first: whether an mbuf was missing, the chain of
fragments, and the pool. -/
def fragLoop (lens : List ℤ) (ipLen : ℤ) :
    ℕ → ℤ → ℤ → List (List Id) → Pool → Except Trap (Bool × List (List Id) × Pool)
  | 0, _, _, _, _ => .error .turns
  | n + 1, off, len, frags, p =>
    if off < ipLen then
      match mget alloc p with
      | (none, p) => .ok (true, frags, p)
      | (some m, p) =>
        let len := if off + len ≥ ipLen then ipLen - off else len
        match mCopy alloc lens off len p with
        | none => .error .panic
        -- the chain of fragments does not have `m` yet
        | some (none, p) => .ok (true, frags, p)
        | some (some data, p) => fragLoop lens ipLen n (off + len) len (frags ++ [m :: data]) p
    else .ok (false, frags, p)

/-- The loop at `sendorfree`. -/
def sendorfree (ifOutput : ℕ → ℤ) : ℤ → List (List Id) → Pool → ℤ × Pool
  | error, [], p => (error, p)
  | error, m :: ms, p =>
    if error = 0 then
      sendorfree ifOutput (ifOutput p.sent.length) ms { p with sent := p.sent ++ [m] }
    else sendorfree ifOutput error ms (mFreem p m)

/-! ## The function -/

/-- The packet with its options, the length of its header if it is set, and the pool. -/
def withOptions (x : Packet) : Option Ipoption → Packet × Option ℤ × Pool
  | none => (x, some 20, {})
  | some opt => ipInsertoptions alloc x opt {}

/-- The packet with its options, the length of its header and the pool; `junk` is what is in the
variable for this length when it is not set. -/
def prepared (e : Out) (junk : ℤ) (x : Packet) (opt : Option Ipoption) : Packet × ℤ × Pool :=
  let r := withOptions alloc x opt
  (r.1, if e.forwarding then 4 * x.ipHl else r.2.1.getD junk, r.2.2)

/-- `ip_output` -/
def ipOutput (e : Out) (junk : ℤ) (x : Packet) (opt : Option Ipoption) : Except Trap (ℤ × Pool) :=
  let r := prepared alloc e junk x opt
  match plan e r.1 r.2.1 with
  | .refuse error => .ok (error, mFreem r.2.2 x.ids)
  | .send => .ok (e.ifOutput 0, { r.2.2 with sent := [r.1.ids] })
  | .fragment len =>
    match fragLoop alloc (r.1.chain.map Prod.snd) r.1.ipLen (r.1.ipLen + 1) (r.2.1 + len) len
      [r.1.ids] r.2.2 with
    | .error t => .error t
    | .ok (missing, frags, p) =>
      .ok (sendorfree e.ifOutput (if missing then ENOBUFS else 0) frags p)

/-! ## What becomes of the mbufs -/

/-- Each mbuf, of the packet or allocated, has been freed once or handed to the interface once. -/
def Disposed (base : List Id) (p : Pool) : Prop :=
  ∀ i ∈ base ++ p.made.map Id.made, p.freed.count i + p.sent.flatten.count i = 1

/-- A new mbuf is put in front of the packet for its header. -/
def Grows (x : Packet) : Option Ipoption → Prop
  | none => False
  | some opt => ¬TooLong x opt ∧ (x.ext ∨ x.lead - optlen opt < 0) ∧ alloc 0 = true

/-- The mbufs that a copy of `len` bytes from `off` on takes. -/
def piecesFrom (off len : ℤ) : List ℤ → ℕ
  | [] => 0
  | l :: ls => if len ≤ 0 then 0 else 1 + piecesFrom 0 (len - min len (l - off)) ls

def pieces (lens : List ℤ) (off len : ℤ) : ℕ :=
  match skip off lens with
  | none => 0
  | some (off, ls) => piecesFrom off len ls

/-- The attempts to allocate before the `i`th fragment, when `t` have been made before the one at
`off` and all succeed: one for the header and one for each mbuf of the data. -/
def fragTries (lens : List ℤ) (ipLen len : ℤ) : ℤ → ℕ → ℕ → ℕ
  | _, t, 0 => t
  | off, t, i + 1 =>
    fragTries lens ipLen len (off + len) (t + 1 + pieces lens off (min len (ipLen - off))) i

/-- The first attempt that fails, from the `t`th on, is one for the data of a fragment. -/
def CopyFails (lens : List ℤ) (ipLen len off : ℤ) (t : ℕ) : Prop :=
  ∃ i j : ℕ, off + len * i < ipLen ∧
    j < pieces lens (off + len * i) (min len (ipLen - (off + len * i))) ∧
    alloc (fragTries lens ipLen len off t i + 1 + j) = false ∧
    ∀ n, t ≤ n → n < fragTries lens ipLen len off t i + 1 + j → alloc n = true

/-- The packet has a new mbuf for its header and is refused, or it is cut into fragments and the
first attempt to allocate that fails is for the data of one. -/
def Loses (e : Out) (junk : ℤ) (x : Packet) (opt : Option Ipoption) : Prop :=
  let r := prepared alloc e junk x opt
  Grows alloc x opt ∧ (∃ error, plan e r.1 r.2.1 = .refuse error) ∨
    ∃ len, plan e r.1 r.2.1 = .fragment len ∧
      CopyFails alloc (r.1.chain.map Prod.snd) r.1.ipLen len (r.2.1 + len) r.2.2.tries

/-! ## Accounts -/

/-- The mbufs of the packet and those made are those freed, those sent and those in `owned`. -/
structure Acc (base : List Id) (p : Pool) (owned : List Id) : Prop where
  count : ∀ i, p.freed.count i + p.sent.flatten.count i + owned.count i =
    base.count i + (p.made.map Id.made).count i
  nodup : p.made.Nodup
  lt : ∀ n ∈ p.made, n < p.tries

section Accounts

variable {alloc} {base owned : List Id} {p p' : Pool} {m : Id}

theorem Acc.congr (h : Acc base p owned) (rest : List Id)
    (hrest : ∀ i, rest.count i = owned.count i) :
    Acc base p rest :=
  ⟨fun i => by rw [hrest]; exact h.count i, h.nodup, h.lt⟩

theorem Acc.free {l : List Id} (h : Acc base p (l ++ owned)) : Acc base (mFreem p l) owned := by
  refine ⟨?_, h.nodup, h.lt⟩
  intro i
  have := h.count i
  rw [List.count_append] at this
  simp only [mFreem, List.count_append]
  omega

theorem Acc.send {l : List Id} (h : Acc base p (l ++ owned)) :
    Acc base { p with sent := p.sent ++ [l] } owned := by
  refine ⟨?_, h.nodup, h.lt⟩
  intro i
  have := h.count i
  rw [List.count_append] at this
  simp only [List.flatten_append, List.flatten_cons, List.flatten_nil, List.append_nil,
    List.count_append]
  omega

theorem mget_some (hm : mget alloc p = (some m, p')) :
    alloc p.tries = true ∧ m = .made p.tries ∧ p'.tries = p.tries + 1 := by
  unfold mget at hm
  split_ifs at hm with ha
  · simp only [Prod.mk.injEq, Option.some.injEq] at hm
    rw [← hm.2]
    exact ⟨ha, hm.1.symm, rfl⟩
  · simp at hm

theorem mget_none (hm : mget alloc p = (none, p')) : alloc p.tries = false := by
  unfold mget at hm
  split_ifs at hm with ha
  · simp at hm
  · simpa using ha

theorem mget_sent (p : Pool) : (mget alloc p).2.sent = p.sent := by
  unfold mget
  split_ifs <;> rfl

theorem Acc.made (h : Acc base p owned) (hm : mget alloc p = (some m, p')) :
    Acc base p' (m :: owned) := by
  unfold mget at hm
  split_ifs at hm
  · simp only [Prod.mk.injEq, Option.some.injEq] at hm
    obtain ⟨rfl, rfl⟩ := hm
    refine ⟨?_, ?_, ?_⟩
    · intro i
      have := h.count i
      simp only [List.map_append, List.map_cons, List.map_nil, List.count_append, List.count_cons,
        List.count_nil]
      omega
    · rw [List.nodup_append]
      refine ⟨h.nodup, by simp, ?_⟩
      intro a ha b hb
      rw [List.mem_singleton] at hb
      exact hb ▸ Nat.ne_of_lt (h.lt a ha)
    · intro n hn
      rw [List.mem_append, List.mem_singleton] at hn
      obtain hn | rfl := hn
      · exact Nat.lt_succ_of_lt (h.lt n hn)
      · exact Nat.lt_succ_self _
  · simp at hm

theorem Acc.failed (h : Acc base p owned) (hm : mget alloc p = (none, p')) :
    Acc base p' owned := by
  unfold mget at hm
  split_ifs at hm
  · simp at hm
  · simp only [Prod.mk.injEq, true_and] at hm
    rw [← hm]
    exact ⟨h.count, h.nodup, fun n hn => Nat.lt_succ_of_lt (h.lt n hn)⟩

/-- Nothing may be owned at the end. -/
theorem Acc.disposed_iff (h : Acc base p owned) (hbase : base.Nodup)
    (hgiven : ∀ n, Id.made n ∉ base) : Disposed base p ↔ owned = [] := by
  have hone : ∀ i ∈ base ++ p.made.map Id.made,
      base.count i + (p.made.map Id.made).count i = 1 := by
    have hnodup : (base ++ p.made.map Id.made).Nodup := by
      rw [List.nodup_append]
      refine ⟨hbase, h.nodup.map (fun a b hab => Id.made.inj hab), ?_⟩
      intro a ha b hb
      obtain ⟨n, -, rfl⟩ := List.mem_map.mp hb
      rintro rfl
      exact hgiven n ha
    intro i hi
    rw [← List.count_append]
    exact List.count_eq_one_of_mem hnodup hi
  constructor
  · intro hd
    apply List.eq_nil_iff_forall_not_mem.mpr
    intro i hi
    have hcount := h.count i
    have hpos := List.count_pos_iff.mpr hi
    have hmem : i ∈ base ++ p.made.map Id.made := by
      rw [← List.count_pos_iff, List.count_append]
      omega
    have := hd i hmem
    have := hone i hmem
    omega
  · rintro rfl i hi
    have hcount := h.count i
    rw [List.count_nil] at hcount
    have := hone i hi
    omega

/-! ## Copies and fragments -/

variable {lens : List ℤ} {ipLen len off : ℤ}

/-- A copy that is made takes its mbufs, and one that is not made has met an attempt that fails and
keeps nothing. -/
theorem copyLoop_spec (ls : List ℤ) {top : List Id} {r : Option (List Id)}
    (h : copyLoop alloc off len top p ls = some (r, p')) (hacc : Acc base p (owned ++ top))
    (htop : top = [] → 0 < len) :
    (∃ c, r = some c ∧ Acc base p' (owned ++ c) ∧ p'.tries = p.tries + piecesFrom off len ls ∧
      ∀ j < piecesFrom off len ls, alloc (p.tries + j) = true) ∨
    (r = none ∧ Acc base p' owned ∧ ∃ j < piecesFrom off len ls, alloc (p.tries + j) = false ∧
      ∀ k < j, alloc (p.tries + k) = true) := by
  have hdone : len ≤ 0 → some (if top = [] then none else some top, p) = some (r, p') →
      ∃ c, r = some c ∧ Acc base p' (owned ++ c) ∧ p'.tries = p.tries + 0 ∧
        ∀ j < 0, alloc (p.tries + j) = true := by
    intro hle hr
    have hne : top ≠ [] := fun he => absurd (htop he) (by omega)
    rw [if_neg hne] at hr
    simp only [Option.some.injEq, Prod.mk.injEq] at hr
    obtain ⟨rfl, rfl⟩ := hr
    exact ⟨top, rfl, hacc, rfl, by simp⟩
  induction ls generalizing off len top p with
  | nil =>
    unfold copyLoop at h
    by_cases hle : len ≤ 0
    · rw [if_pos hle] at h
      exact .inl (hdone hle h)
    · rw [if_neg hle] at h
      cases h
  | cons l ls ih =>
    unfold copyLoop at h
    unfold piecesFrom
    by_cases hle : len ≤ 0
    · rw [if_pos hle] at h ⊢
      exact .inl (hdone hle h)
    rw [if_neg hle] at h ⊢
    rcases hm : mget alloc p with ⟨_ | n, q⟩
    · rw [hm] at h
      simp only [Option.some.injEq, Prod.mk.injEq] at h
      obtain ⟨rfl, rfl⟩ := h
      have hfree := (hacc.failed hm).congr (top ++ owned) (by
        intro i
        rw [List.count_append, List.count_append, Nat.add_comm])
      exact .inr ⟨rfl, hfree.free, 0, by omega, mget_none hm, by simp⟩
    · rw [hm] at h
      dsimp only at h
      obtain ⟨ha, -, htries⟩ := mget_some hm
      have hnext := (hacc.made hm).congr (owned ++ (top ++ [n])) (by
        intro i
        simp only [List.count_append, List.count_cons, List.count_nil]
        omega)
      have hstep := ih h hnext (by simp) (by
        intro hle' hr
        rw [if_neg (by simp)] at hr
        simp only [Option.some.injEq, Prod.mk.injEq] at hr
        obtain ⟨rfl, rfl⟩ := hr
        exact ⟨_, rfl, hnext, rfl, by simp⟩)
      rw [htries] at hstep
      have hshift : ∀ k, alloc (p.tries + 1 + k) = alloc (p.tries + (k + 1)) := by
        intro k
        rw [Nat.add_assoc, Nat.add_comm 1 k]
      obtain ⟨c, hr, hc, ht, hall⟩ | ⟨hr, hc, j, hj, hfail, hbefore⟩ := hstep
      · refine .inl ⟨c, hr, hc, by omega, ?_⟩
        intro j hj
        cases j with
        | zero => exact ha
        | succ j => rw [← hshift]; exact hall j (by omega)
      · refine .inr ⟨hr, hc, j + 1, by omega, by rw [← hshift]; exact hfail, ?_⟩
        intro k hk
        cases k with
        | zero => exact ha
        | succ k => rw [← hshift]; exact hbefore k (by omega)

/-- The same for `m_copy`. -/
theorem mCopy_spec {r : Option (List Id)} (h : mCopy alloc lens off len p = some (r, p'))
    (hacc : Acc base p owned) (hlen : 0 < len) :
    (∃ c, r = some c ∧ Acc base p' (owned ++ c) ∧ p'.tries = p.tries + pieces lens off len ∧
      ∀ j < pieces lens off len, alloc (p.tries + j) = true) ∨
    (r = none ∧ Acc base p' owned ∧ ∃ j < pieces lens off len, alloc (p.tries + j) = false ∧
      ∀ k < j, alloc (p.tries + k) = true) := by
  unfold mCopy at h
  unfold pieces
  split_ifs at h
  rcases hs : skip off lens with _ | ⟨off', ls⟩
  · rw [hs] at h
    simp at h
  · rw [hs] at h
    exact copyLoop_spec ls h (by simpa using hacc) (fun _ => hlen)

theorem le_fragTries (lens : List ℤ) (ipLen len off : ℤ) (t i : ℕ) :
    t ≤ fragTries lens ipLen len off t i := by
  induction i generalizing off t with
  | zero => exact Nat.le_refl t
  | succ i ih => exact Nat.le_trans (by omega) (ih _ _)

/-- The attempts for the fragment at `off`, and those for the fragments behind it. -/
theorem copyFails_iff (lens : List ℤ) (ipLen off : ℤ) (t : ℕ) (hlen : 0 < len) :
    CopyFails alloc lens ipLen len off t ↔ off < ipLen ∧ alloc t = true ∧
      ((∃ j < pieces lens off (min len (ipLen - off)), alloc (t + 1 + j) = false ∧
          ∀ k < j, alloc (t + 1 + k) = true) ∨
        (∀ j < pieces lens off (min len (ipLen - off)), alloc (t + 1 + j) = true) ∧
        CopyFails alloc lens ipLen len (off + len)
          (t + 1 + pieces lens off (min len (ipLen - off)))) := by
  have hoff : ∀ i : ℕ, off + len * (i + 1 : ℕ) = off + len + len * i := by
    intro i
    rw [Int.natCast_succ, mul_add, mul_one, add_assoc, add_comm len]
  constructor
  · rintro ⟨i, j, hlt, hj, hfail, hbefore⟩
    cases i with
    | zero =>
      simp only [Nat.cast_zero, mul_zero, add_zero] at hlt hj
      refine ⟨hlt, hbefore t (Nat.le_refl t) (by simp only [fragTries]; omega), .inl ⟨j, hj, hfail,
        fun k hk => hbefore _ (by omega) (by simp only [fragTries]; omega)⟩⟩
    | succ i =>
      have hle := le_fragTries lens ipLen len (off + len)
        (t + 1 + pieces lens off (min len (ipLen - off))) i
      rw [hoff] at hlt hj
      have hpos : 0 ≤ len * i := Int.mul_nonneg (by omega) (by omega)
      refine ⟨by omega, hbefore t (Nat.le_refl t) (by simp only [fragTries]; omega), .inr ⟨?_, ?_⟩⟩
      · intro k hk
        exact hbefore _ (by omega) (by simp only [fragTries]; omega)
      · exact ⟨i, j, hlt, hj, hfail, fun n hn hn' => hbefore n (by omega) hn'⟩
  · rintro ⟨hlt, ha, ⟨j, hj, hfail, hbefore⟩ | ⟨hall, i, j, hlt', hj, hfail, hbefore⟩⟩
    · refine ⟨0, j, by simpa using hlt, by simpa using hj, hfail, ?_⟩
      intro n hn hn'
      simp only [fragTries] at hn'
      obtain rfl | hgt := Nat.eq_or_lt_of_le hn
      · exact ha
      · rw [show n = t + 1 + (n - t - 1) by omega]
        exact hbefore _ (by omega)
    · refine ⟨i + 1, j, by rw [hoff]; exact hlt', by rw [hoff]; exact hj, hfail, ?_⟩
      intro n hn hn'
      obtain rfl | hgt := Nat.eq_or_lt_of_le hn
      · exact ha
      · by_cases hfirst : n < t + 1 + pieces lens off (min len (ipLen - off))
        · rw [show n = t + 1 + (n - t - 1) by omega]
          exact hall _ (by omega)
        · exact hbefore n (by omega) hn'

/-- The loop does not run out of turns, and it loses an mbuf when the first attempt that fails is
one for data. -/
theorem fragLoop_spec (n : ℕ) {frags : List (List Id)} (hn : 0 < n)
    (hoff : off < 0 ∨ ipLen - off < n) (hlen : 0 < len) (hacc : Acc base p frags.flatten) :
    fragLoop alloc lens ipLen n off len frags p ≠ .error .turns ∧
    ∀ missing frags' p', fragLoop alloc lens ipLen n off len frags p = .ok (missing, frags', p') →
      ∃ lost, Acc base p' (frags'.flatten ++ lost) ∧
        (lost ≠ [] ↔ CopyFails alloc lens ipLen len off p.tries) := by
  induction n generalizing off frags p with
  | zero => omega
  | succ n ih =>
    rw [copyFails_iff lens ipLen off p.tries hlen]
    unfold fragLoop
    by_cases hmore : off < ipLen
    swap
    · rw [if_neg hmore]
      refine ⟨by simp, ?_⟩
      intro missing frags' p' h
      simp only [Except.ok.injEq, Prod.mk.injEq] at h
      obtain ⟨-, rfl, rfl⟩ := h
      exact ⟨[], by simpa using hacc, by simp [hmore]⟩
    rw [if_pos hmore]
    rcases hm : mget alloc p with ⟨_ | m, q⟩
    · refine ⟨by simp, ?_⟩
      intro missing frags' p' h
      simp only [Except.ok.injEq, Prod.mk.injEq] at h
      obtain ⟨-, rfl, rfl⟩ := h
      exact ⟨[], by simpa using hacc.failed hm, by simp [mget_none hm]⟩
    obtain ⟨ha, -, htries⟩ := mget_some hm
    have hheader := hacc.made hm
    have hcut : (if off + len ≥ ipLen then ipLen - off else len) = min len (ipLen - off) := by
      split_ifs <;> omega
    dsimp only
    rw [hcut]
    rcases hc : mCopy alloc lens off (min len (ipLen - off)) q with _ | ⟨r, q'⟩
    · exact ⟨by simp, by simp⟩
    have hoff0 : 0 ≤ off := by
      by_contra hneg
      unfold mCopy at hc
      rw [if_pos (.inl (by omega))] at hc
      cases hc
    obtain ⟨c, rfl, hcopy, ht, hall⟩ | ⟨rfl, hcopy, j, hj, hfail, hbefore⟩ :=
      mCopy_spec hc hheader (by omega)
    · rw [htries] at ht hall
      dsimp only
      have hnext : Acc base q' (frags ++ [m :: c]).flatten := by
        apply hcopy.congr
        intro i
        simp only [List.flatten_append, List.flatten_cons, List.flatten_nil, List.append_nil,
          List.count_append, List.count_cons]
        omega
      have hnofail : ¬∃ j < pieces lens off (min len (ipLen - off)),
          alloc (p.tries + 1 + j) = false ∧ ∀ k < j, alloc (p.tries + 1 + k) = true := by
        rintro ⟨j, hj, hfail, -⟩
        rw [hall j hj] at hfail
        cases hfail
      by_cases hlast : off + len ≥ ipLen
      · -- the next turn is the last one
        rw [show off + min len (ipLen - off) = ipLen by omega]
        have hend : fragLoop alloc lens ipLen n ipLen (min len (ipLen - off)) (frags ++ [m :: c])
            q' = .ok (false, frags ++ [m :: c], q') := by
          cases n with
          | zero => omega
          | succ n =>
            unfold fragLoop
            rw [if_neg (lt_irrefl ipLen)]
        rw [hend]
        refine ⟨by simp, ?_⟩
        intro missing frags' p' h
        simp only [Except.ok.injEq, Prod.mk.injEq] at h
        obtain ⟨-, rfl, rfl⟩ := h
        refine ⟨[], by simpa using hnext, ?_⟩
        rw [copyFails_iff lens ipLen (off + len) _ hlen]
        simp only [ne_eq, not_true_eq_false, false_iff]
        rintro ⟨-, -, hf | ⟨-, hlt, -⟩⟩
        · exact hnofail hf
        · omega
      · rw [show min len (ipLen - off) = len by omega] at ht hall hnofail ⊢
        obtain ⟨hturns, hrest⟩ := @ih _ (off + len) _ (by omega) (by omega) hnext
        refine ⟨hturns, ?_⟩
        intro missing frags' p' h
        obtain ⟨lost, hacc', hiff⟩ := hrest missing frags' p' h
        refine ⟨lost, hacc', hiff.trans ?_⟩
        rw [ht]
        constructor
        · exact fun hf => ⟨hmore, ha, .inr ⟨hall, hf⟩⟩
        · rintro ⟨-, -, hf | ⟨-, hf⟩⟩
          · exact absurd hf hnofail
          · exact hf
    · rw [htries] at hfail hbefore
      refine ⟨by simp, ?_⟩
      intro missing frags' p' h
      simp only [Except.ok.injEq, Prod.mk.injEq] at h
      obtain ⟨-, rfl, rfl⟩ := h
      refine ⟨[m], hcopy.congr _ (by
        intro i
        simp only [List.count_append, List.count_cons, List.count_nil]
        omega), ?_⟩
      simp only [ne_eq, List.cons_ne_nil, not_false_eq_true, true_iff]
      exact ⟨hmore, ha, .inl ⟨j, hj, hfail, hbefore⟩⟩

theorem sendorfree_acc (ifOutput : ℕ → ℤ) (error : ℤ) (ms : List (List Id))
    (h : Acc base p (ms.flatten ++ owned)) : Acc base (sendorfree ifOutput error ms p).2 owned := by
  induction ms generalizing error p with
  | nil => exact h
  | cons m ms ih =>
    rw [List.flatten_cons, List.append_assoc] at h
    unfold sendorfree
    split_ifs
    · exact ih _ h.send
    · exact ih _ h.free

/-! ## The function -/

theorem acc_start (x : Packet) : Acc x.ids {} x.ids := ⟨by simp, by simp, by simp⟩

/-- The options leave the packet as it is, or put one new mbuf in front of it. -/
theorem ipInsertoptions_spec (x : Packet) (opt : Ipoption) :
    ∃ new, (ipInsertoptions alloc x opt {}).1.ids = new ++ x.ids ∧
      Acc x.ids (ipInsertoptions alloc x opt {}).2.2 (new ++ x.ids) ∧
      (ipInsertoptions alloc x opt {}).2.2.sent = [] ∧ (new ≠ [] ↔ Grows alloc x (some opt)) := by
  unfold ipInsertoptions Grows
  dsimp only
  by_cases hmax : TooLong x opt
  · rw [if_pos hmax]
    exact ⟨[], rfl, acc_start x, rfl, fun h => absurd rfl h, fun h => absurd hmax h.1⟩
  rw [if_neg hmax]
  have hdst : ∀ y : Packet, y = (if opt.dst ≠ 0 then { x with ipDst := opt.dst } else x) →
      y.chain = x.chain ∧ y.ext = x.ext ∧ y.lead = x.lead := by
    intro y hy
    rw [hy]
    split_ifs <;> exact ⟨rfl, rfl, rfl⟩
  generalize hy : (if opt.dst ≠ 0 then { x with ipDst := opt.dst } else x) = y
  obtain ⟨hchain, hext, hlead⟩ := hdst y hy.symm
  have hids : y.ids = x.ids := by rw [Packet.ids, hchain, Packet.ids]
  rw [hext, hlead, hchain]
  by_cases hroom : x.ext = true ∨ x.lead - optlen opt < 0
  · rw [if_pos hroom]
    have hsent : (mget alloc {}).2.sent = [] := mget_sent {}
    rcases hm : mget alloc {} with ⟨_ | n, p⟩
    · rw [hm] at hsent
      have ha := mget_none hm
      refine ⟨[], hids, (acc_start x).failed hm, hsent, fun h => absurd rfl h, fun h => ?_⟩
      exact absurd (ha.symm.trans h.2.2) Bool.false_ne_true
    · rw [hm] at hsent
      have ha := (mget_some hm).1
      refine ⟨[n], ?_, (acc_start x).made hm, hsent, ?_⟩
      · unfold Packet.ids
        cases x.chain <;> rfl
      · simp only [ne_eq, List.cons_ne_nil, not_false_eq_true, true_iff]
        exact ⟨hmax, hroom, ha⟩
  · rw [if_neg hroom]
    refine ⟨[], ?_, acc_start x, rfl, fun h => absurd rfl h, fun h => absurd h.2.1 hroom⟩
    unfold Packet.ids
    cases x.chain <;> rfl

/-- The chain that is freed may have mbufs in front of it that are not. -/
theorem Acc.free_behind {ids new : List Id} (h : Acc base p (new ++ ids)) :
    Acc base (mFreem p ids) new := by
  apply Acc.free
  apply h.congr
  intro i
  rw [List.count_append, List.count_append, Nat.add_comm]

/-- Fragments have bytes, so that there are no more of them than bytes of the packet. -/
theorem plan_fragment {e : Out} {x : Packet} {hlen len : ℤ} (h : plan e x hlen = .fragment len) :
    0 < len ∧ (hlen + len < 0 ∨ (x.ipLen : ℤ) - (hlen + len) < x.ipLen + 1) := by
  unfold plan at h
  split at h
  · simp at h
  · dsimp only at h
    split_ifs at h
    simp only [Plan.fragment.injEq] at h
    omega

theorem withOptions_spec (x : Packet) (opt : Option Ipoption) :
    ∃ new, (withOptions alloc x opt).1.ids = new ++ x.ids ∧
      Acc x.ids (withOptions alloc x opt).2.2 (new ++ x.ids) ∧
      (withOptions alloc x opt).2.2.sent = [] ∧ (new ≠ [] ↔ Grows alloc x opt) := by
  cases opt with
  | none => exact ⟨[], rfl, acc_start x, rfl, by simp [Grows]⟩
  | some opt => exact ipInsertoptions_spec x opt

end Accounts

/-- There is a result unless `m_copym` panics, and the packet is disposed of unless one of the two
ways is taken that lose an mbuf. -/
theorem ipOutput_disposed_iff (e : Out) (junk : ℤ) (x : Packet) (opt : Option Ipoption)
    (hids : x.ids = (List.range x.chain.length).map Id.given) :
    ipOutput alloc e junk x opt ≠ .error .turns ∧
    ∀ error p, ipOutput alloc e junk x opt = .ok (error, p) →
      (Disposed x.ids p ↔ ¬Loses alloc e junk x opt) := by
  have hnodup : x.ids.Nodup := by
    rw [hids]
    exact List.nodup_range.map (fun a b hab => Id.given.inj hab)
  have hgiven : ∀ n, Id.made n ∉ x.ids := by
    intro n
    simp [hids]
  obtain ⟨new, hprep, hacc, hsent, hnew⟩ := @withOptions_spec alloc x opt
  have hpacket : (prepared alloc e junk x opt).1 = (withOptions alloc x opt).1 := rfl
  have hpool : (prepared alloc e junk x opt).2.2 = (withOptions alloc x opt).2.2 := rfl
  rw [← hpacket] at hprep
  rw [← hpool, ← hprep] at hacc
  rw [← hpool] at hsent
  unfold ipOutput Loses
  dsimp only
  generalize prepared alloc e junk x opt = r at hprep hacc hsent
  cases hplan : plan e r.1 r.2.1 with
  | refuse err =>
    refine ⟨by simp, ?_⟩
    intro error p h
    simp only [Except.ok.injEq, Prod.mk.injEq] at h
    obtain ⟨-, rfl⟩ := h
    have hleft : Acc x.ids (mFreem r.2.2 x.ids) new := by
      rw [hprep] at hacc
      exact hacc.free_behind
    rw [hleft.disposed_iff hnodup hgiven, ← hnew]
    simp
  | send =>
    refine ⟨by simp, ?_⟩
    intro error p h
    simp only [Except.ok.injEq, Prod.mk.injEq] at h
    obtain ⟨-, rfl⟩ := h
    have hleft : Acc x.ids { r.2.2 with sent := r.2.2.sent ++ [r.1.ids] } [] :=
      Acc.send (by rw [List.append_nil]; exact hacc)
    rw [hsent, List.nil_append] at hleft
    rw [hleft.disposed_iff hnodup hgiven]
    simp
  | fragment len =>
    have hlen := plan_fragment hplan
    have hloop' : Acc x.ids r.2.2 [r.1.ids].flatten := by simpa using hacc
    obtain ⟨hturns, hloop⟩ := @fragLoop_spec alloc x.ids r.2.2 (r.1.chain.map Prod.snd) r.1.ipLen
      len (r.2.1 + len) (r.1.ipLen + 1) [r.1.ids] (Nat.succ_pos _) (by push_cast; exact hlen.2)
      hlen.1 hloop'
    dsimp only
    rcases hr : fragLoop alloc (r.1.chain.map Prod.snd) r.1.ipLen (r.1.ipLen + 1) (r.2.1 + len) len
      [r.1.ids] r.2.2 with t | ⟨missing, frags, q⟩
    · rw [hr] at hturns
      refine ⟨fun h => hturns (by simpa using h), ?_⟩
      intro error p h
      cases h
    · refine ⟨by simp, ?_⟩
      intro error p h
      simp only [Except.ok.injEq] at h
      obtain ⟨lost, hfrags, hiff⟩ := hloop missing frags q hr
      have hleft := sendorfree_acc e.ifOutput (if missing then ENOBUFS else 0) frags hfrags
      rw [h] at hleft
      rw [hleft.disposed_iff hnodup hgiven, ← not_iff_not, ← ne_eq, hiff, not_not]
      constructor
      · exact fun hf => .inr ⟨len, rfl, hf⟩
      · rintro (⟨-, err, herr⟩ | ⟨len', hlen', hf⟩)
        · cases herr
        · cases hlen'
          exact hf

/-- Routing with the given result, to be told that nothing is a broadcast address. -/
def routes (rt : Option Rtentry) : Out where
  forwarding := false
  routetoif := false
  allowbroadcast := false
  roRt := none
  roDst := 0
  rtalloc := fun _ => rt
  ifOf := fun _ => none
  inBroadcast := fun _ => false
  ifOutput := fun _ => 0

/-- 200 bytes in two mbufs, the first of which is a cluster. -/
def twoMbufs : Packet := ⟨[(.given 0, 20), (.given 1, 180)], true, 0, 200, 5, 0x0a000001, false⟩

/-- A packet for which there is no route loses the mbuf for its header with options. -/
theorem ipOutput_header : ∃ p,
    ipOutput (fun _ => true) (routes none) 0 twoMbufs (some ⟨8, 0⟩) = .ok (EHOSTUNREACH, p) ∧
      ¬Disposed twoMbufs.ids p := by
  refine ⟨⟨1, [0], [.given 0, .given 1], []⟩, by decide +kernel, ?_⟩
  intro h
  exact absurd (h (.made 0) (by decide)) (by decide)

/-- A packet that is cut into three fragments, the first with options. -/
theorem ipOutput_disposed_three : ∃ p, ipOutput (fun _ => true)
      (routes (some ⟨true, ⟨false, 96⟩, none⟩)) 0 twoMbufs (some ⟨8, 0⟩) = .ok (0, p) ∧
    p.sent.length = 3 ∧ Disposed twoMbufs.ids p := by
  refine ⟨⟨5, [0, 1, 2, 3, 4], [], [[.made 0, .given 0, .given 1], [.made 1, .made 2],
    [.made 3, .made 4]]⟩, by decide +kernel, rfl, ?_⟩
  refine ((ipOutput_disposed_iff (fun _ => true) (routes (some ⟨true, ⟨false, 96⟩, none⟩)) 0
    twoMbufs (some ⟨8, 0⟩) rfl).2 0 _ (by decide +kernel)).mpr ?_
  have hplan : plan (routes (some ⟨true, ⟨false, 96⟩, none⟩))
      (prepared (fun _ => true) (routes (some ⟨true, ⟨false, 96⟩, none⟩)) 0 twoMbufs
        (some ⟨8, 0⟩)).1
      (prepared (fun _ => true) (routes (some ⟨true, ⟨false, 96⟩, none⟩)) 0 twoMbufs
        (some ⟨8, 0⟩)).2.1 = .fragment 72 := by
    decide +kernel
  rintro (⟨-, error, herr⟩ | ⟨len, -, i, j, -, -, hfail, -⟩)
  · rw [hplan] at herr
    cases herr
  · cases hfail

end Ip
