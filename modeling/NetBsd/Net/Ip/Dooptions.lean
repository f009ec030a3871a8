import Mathlib
import NetBsd.Lib.ByteMem

/-!
# IP options

`ip_dooptions` of `netinet/ip_input.c`. The length of an option is compared with what is left of
the option area, but not with what the option needs: a source route, record route or timestamp
option that is too short, or a timestamp option with a pointer before its data, makes it read and
write outside of the option.

## Main definitions

* `sourceRoute`, `recordRoute`, `timestamp`: what is done about one option
* `turn`, `loop`, `ipDooptions`: one turn, the loop and the function, with the accesses
* `Fits`: what an option needs for all accesses to lie inside of it

## Main results

* `turn_inside_iff`: the accesses of one turn
* `ipDooptions_inside_iff`: the function returns, and its accesses lie inside the options when all
  that it gets to fit
-/

namespace Ip

/-! ## The packet and its surroundings -/

/-- `struct in_addr`, the first byte first. -/
abbrev Addr := BitVec 32

/-- The addresses that the lookups of interfaces and routes find, that of the interface which the
packet came in at, and the time; a route and the time may change from option to option, and depend
on how many bytes of options are left. -/
structure Env where
  ifaIfwithaddr : Addr → Option Addr
  ifaIfwithdstaddr : Addr → Option Addr
  inIaonnetof : Addr → Option Addr
  ipRtaddr : ℕ → Addr → Option Addr
  rcvif : Addr
  iptime : ℕ → BitVec 32

/-- `ip_srcrt` and `ip_nhops`. -/
structure SrcRt where
  srcopt : List (BitVec 8)
  dst : Addr
  nhops : ℕ

/-- The packet from its header on, where the loop is in it and what it has found out. -/
structure St where
  mem : ByteMem
  cp : ℕ
  cnt : ℕ
  forward : Bool
  srcrt : SrcRt

/-- Bytes that are read or written. -/
structure Access where
  addr : ℕ
  size : ℕ
  deriving DecidableEq, Repr

/-- Why the loop ends before the options do. -/
inductive Ending where
  | eol
  | bad (type code : ℕ)
  deriving DecidableEq, Repr

/-- The accesses to options, the state that is left and the ending, if there is one. -/
abbrev Step := List Access × St × Option Ending

def IPOPT_EOL : ℕ := 0
def IPOPT_NOP : ℕ := 1
def IPOPT_RR : ℕ := 7
def IPOPT_TS : ℕ := 68
def IPOPT_LSRR : ℕ := 131
def IPOPT_SSRR : ℕ := 137
def IPOPT_MINOFF : ℕ := 4

def ICMP_UNREACH : ℕ := 3
def ICMP_UNREACH_HOST : ℕ := 1
def ICMP_UNREACH_SRCFAIL : ℕ := 5
def ICMP_PARAMPROB : ℕ := 12

/-- Where `ip_src` and `ip_dst` are. -/
def ipSrc : ℕ := 12
def ipDst : ℕ := 16

/-! ## Options -/

/-- `optlen - sizeof(struct in_addr)`, which is unsigned. -/
def room (optlen : ℕ) : ℕ := (optlen + 2 ^ 32 - 4) % 2 ^ 32

/-- `cp[IPOPT_OFFSET] += sizeof(struct in_addr)` -/
def bump (m : ByteMem) (cp : ℕ) : ByteMem := m.put8 (cp + 2) (m (cp + 2) + 4)

/-- `save_rte` -/
def saveRte (s : St) : List Access × SrcRt :=
  let olen := (s.mem (s.cp + 1)).toNat
  if olen > 44 - (1 + 4) then ([⟨s.cp + 1, 1⟩], s.srcrt)
  else ([⟨s.cp + 1, 1⟩, ⟨s.cp, olen⟩],
    { srcopt := s.mem.bytes s.cp olen, dst := s.mem.get32 ipSrc
      nhops := (olen + 2 ^ 32 - 3) % 2 ^ 32 / 4 })

/-- `IPOPT_LSRR` and `IPOPT_SSRR` -/
def sourceRoute (e : Env) (strict : Bool) (optlen : ℕ) (s : St) : Step :=
  let off := (s.mem (s.cp + 2)).toNat
  if off < IPOPT_MINOFF then ([⟨s.cp + 2, 1⟩], s, some (.bad ICMP_PARAMPROB (s.cp + 2)))
  else match e.ifaIfwithaddr (s.mem.get32 ipDst) with
  | none =>
    ([⟨s.cp + 2, 1⟩], s, if strict then some (.bad ICMP_UNREACH ICMP_UNREACH_SRCFAIL) else none)
  | some _ =>
    let off := off - 1
    if off > room optlen then
      let r := saveRte s
      (⟨s.cp + 2, 1⟩ :: r.1, { s with srcrt := r.2 }, none)
    else
      let addr := s.mem.get32 (s.cp + off)
      let ia := if strict then
          match e.ifaIfwithdstaddr addr with
          | some ia => some ia
          | none => e.inIaonnetof addr
        else e.ipRtaddr s.cnt addr
      match ia with
      | none => ([⟨s.cp + 2, 1⟩, ⟨s.cp + off, 4⟩], s,
          some (.bad ICMP_UNREACH ICMP_UNREACH_SRCFAIL))
      | some ia => ([⟨s.cp + 2, 1⟩, ⟨s.cp + off, 4⟩, ⟨s.cp + off, 4⟩, ⟨s.cp + 2, 1⟩],
          { s with
            mem := bump ((s.mem.put32 ipDst addr).put32 (s.cp + off) ia) s.cp
            forward := true }, none)

/-- `IPOPT_RR` -/
def recordRoute (e : Env) (optlen : ℕ) (s : St) : Step :=
  let off := (s.mem (s.cp + 2)).toNat
  if off < IPOPT_MINOFF then ([⟨s.cp + 2, 1⟩], s, some (.bad ICMP_PARAMPROB (s.cp + 2)))
  else
    let off := off - 1
    if off > room optlen then ([⟨s.cp + 2, 1⟩], s, none)
    else
      let addr := s.mem.get32 ipDst
      let ia := match e.ifaIfwithaddr addr with
        | some ia => some ia
        | none => e.ipRtaddr s.cnt addr
      match ia with
      | none => ([⟨s.cp + 2, 1⟩], s, some (.bad ICMP_UNREACH ICMP_UNREACH_HOST))
      | some ia => ([⟨s.cp + 2, 1⟩, ⟨s.cp + off, 4⟩, ⟨s.cp + 2, 1⟩],
          { s with mem := bump (s.mem.put32 (s.cp + off) ia) s.cp }, none)

/-- The time is put at `ipt_ptr`. -/
def stamp (e : Env) (acc : List Access) (s : St) : Step :=
  let ptr := (s.mem (s.cp + 2)).toNat
  (acc ++ [⟨s.cp + 2, 1⟩, ⟨s.cp + ptr - 1, 4⟩, ⟨s.cp + 2, 1⟩],
    { s with mem := bump (s.mem.put32 (s.cp + ptr - 1) (e.iptime s.cnt)) s.cp }, none)

/-- `IPOPT_TS` -/
def timestamp (e : Env) (s : St) : Step :=
  let code := s.cp
  let len := (s.mem (s.cp + 1)).toNat
  let ptr := (s.mem (s.cp + 2)).toNat
  let flg := (s.mem (s.cp + 3)).toNat % 16
  if len < 5 then ([⟨s.cp + 1, 1⟩], s, some (.bad ICMP_PARAMPROB code))
  else
    let acc : List Access := [⟨s.cp + 1, 1⟩, ⟨s.cp + 2, 1⟩, ⟨s.cp + 3, 1⟩]
    if ptr > len - 4 then
      -- the overflow counter is in the upper half of the byte
      let mem := s.mem.put8 (s.cp + 3) (s.mem (s.cp + 3) + 16)
      (acc, { s with mem := mem },
        if (mem (s.cp + 3)).toNat / 16 = 0 then some (.bad ICMP_PARAMPROB code) else none)
    else if flg = 0 then stamp e acc s
    else if flg = 1 then
      if ptr + 4 + 4 > len then (acc, s, some (.bad ICMP_PARAMPROB code))
      else stamp e (acc ++ [⟨s.cp + ptr - 1, 4⟩, ⟨s.cp + 2, 1⟩])
        { s with mem := bump (s.mem.put32 (s.cp + ptr - 1) e.rcvif) s.cp }
    else if flg = 3 then
      if ptr + 4 + 4 > len then (acc, s, some (.bad ICMP_PARAMPROB code))
      else if e.ifaIfwithaddr (s.mem.get32 (s.cp + ptr - 1)) = none then
        (acc ++ [⟨s.cp + ptr - 1, 4⟩], s, none)
      else stamp e (acc ++ [⟨s.cp + ptr - 1, 4⟩, ⟨s.cp + 2, 1⟩])
        { s with mem := bump s.mem s.cp }
    else (acc, s, some (.bad ICMP_PARAMPROB code))

/-- The `switch` on an option. -/
def process (e : Env) (opt optlen : ℕ) (s : St) : Step :=
  if opt = IPOPT_LSRR ∨ opt = IPOPT_SSRR then sourceRoute e (opt = IPOPT_SSRR) optlen s
  else if opt = IPOPT_RR then recordRoute e optlen s
  else if opt = IPOPT_TS then timestamp e s
  else ([], s, none)

/-! ## The loop -/

/-- An access to option data and the bytes that it may touch: the option area while the length of
the option is not known, and the option afterwards, with its type and length. -/
structure Bounded extends Access where
  lo : ℕ
  hi : ℕ
  deriving DecidableEq, Repr

/-- The access is where it should be. -/
def Bounded.Inside (a : Bounded) : Prop := a.lo ≤ a.addr ∧ a.addr + a.size ≤ a.hi

instance (a : Bounded) : Decidable a.Inside := inferInstanceAs (Decidable (_ ∧ _))

def bounded (lo hi : ℕ) (acc : List Access) : List Bounded := acc.map fun a => ⟨a, lo, hi⟩

/-- One turn of the loop. -/
def turn (e : Env) (s : St) : List Bounded × St × Option Ending :=
  let area := bounded s.cp (s.cp + s.cnt)
  let opt := (s.mem s.cp).toNat
  if opt = IPOPT_EOL then (area [⟨s.cp, 1⟩], s, some .eol)
  else if opt = IPOPT_NOP then
    (area [⟨s.cp, 1⟩], { s with cp := s.cp + 1, cnt := s.cnt - 1 }, none)
  else
    let optlen := (s.mem (s.cp + 1)).toNat
    let acc := area [⟨s.cp, 1⟩, ⟨s.cp + 1, 1⟩]
    if optlen = 0 ∨ optlen > s.cnt then (acc, s, some (.bad ICMP_PARAMPROB (s.cp + 1)))
    else
      let r := process e opt optlen s
      (acc ++ bounded s.cp (s.cp + max optlen 2) r.1,
        { r.2.1 with cp := s.cp + optlen, cnt := s.cnt - optlen }, r.2.2)

/-- The loop, with the ending of the turn that ended it. -/
def loop (e : Env) : ℕ → St → Option (List Bounded × St × Option Ending)
  | 0, _ => none
  | n + 1, s =>
    if s.cnt = 0 then some ([], s, none)
    else match turn e s with
    | (acc, s', some ending) => some (acc, s', some ending)
    | (acc, s', none) => (loop e n s').map fun r => (acc ++ r.1, r.2)

/-- What becomes of the packet. -/
inductive Outcome where
  | icmpError (type code : ℕ)
  | ipForward
  | further
  deriving DecidableEq, Repr

def outcome (s : St) : Option Ending → Outcome
  | some (.bad type code) => .icmpError type code
  | _ => if s.forward then .ipForward else .further

/-- The start of the loop, for a header of `hl` words. -/
def start (hl : ℕ) (mem : ByteMem) (srcrt : SrcRt) : St :=
  { mem := mem, cp := 20, cnt := 4 * hl - 20, forward := false, srcrt := srcrt }

/-- A source route option has room for an address, or three bytes and no address is looked for in
it. -/
def SourceFits (e : Env) (optlen : ℕ) (s : St) : Prop :=
  4 ≤ optlen ∨ optlen = 3 ∧ ((s.mem (s.cp + 2)).toNat < IPOPT_MINOFF ∨
    e.ifaIfwithaddr (s.mem.get32 ipDst) = none)

/-- A record route option has room for an address, or three bytes and no address is put into it. -/
def RecordFits (e : Env) (optlen : ℕ) (s : St) : Prop :=
  4 ≤ optlen ∨ optlen = 3 ∧ ((s.mem (s.cp + 2)).toNat < IPOPT_MINOFF ∨
    e.ifaIfwithaddr (s.mem.get32 ipDst) = none ∧ e.ipRtaddr s.cnt (s.mem.get32 ipDst) = none)

/-- The address of the interface is put over the pointer of a timestamp option, which then points
to a place in the option. -/
def Overwrites (e : Env) (len ptr : ℕ) : Prop :=
  let ptr' := (e.rcvif.extractLsb' (8 * ptr) 8 + 4 : BitVec 8).toNat
  1 ≤ ptr' ∧ ptr' + 3 ≤ len

/-- The pointer of a timestamp option is not 0 when it is used, and when the address of the
interface is put in front of the time it is behind the pointer, or what is put over the pointer is a
pointer into the option. -/
def TimeFits (e : Env) (s : St) : Prop :=
  let len := (s.mem (s.cp + 1)).toNat
  let ptr := (s.mem (s.cp + 2)).toNat
  let flg := (s.mem (s.cp + 3)).toNat % 16
  len < 5 ∨ len < ptr + 4 ∨ flg = 0 ∧ 1 ≤ ptr ∨
    flg = 1 ∧ (len < ptr + 8 ∨ 4 ≤ ptr ∨ 1 ≤ ptr ∧ Overwrites e len ptr) ∨
    flg = 3 ∧ (len < ptr + 8 ∨ 1 ≤ ptr) ∨ flg ≠ 0 ∧ flg ≠ 1 ∧ flg ≠ 3

/-- What an option needs. -/
def Fits (e : Env) (s : St) : Prop :=
  let opt := (s.mem s.cp).toNat
  let optlen := (s.mem (s.cp + 1)).toNat
  opt = IPOPT_EOL ∨ opt = IPOPT_NOP ∨ 2 ≤ s.cnt ∧ (optlen = 0 ∨ s.cnt < optlen ∨
    if opt = IPOPT_LSRR ∨ opt = IPOPT_SSRR then SourceFits e optlen s
    else if opt = IPOPT_RR then RecordFits e optlen s
    else if opt = IPOPT_TS then TimeFits e s
    else True)

/-! ## The accesses -/

section Accesses

variable {e : Env} {s : St} {optlen : ℕ}

/-- All accesses lie between two places. -/
def Within (lo hi : ℕ) (acc : List Access) : Prop := ∀ a ∈ acc, lo ≤ a.addr ∧ a.addr + a.size ≤ hi

@[simp] theorem within_nil (lo hi : ℕ) : Within lo hi [] := by simp [Within]

@[simp] theorem within_cons {lo hi : ℕ} {a : Access} {acc : List Access} :
    Within lo hi (a :: acc) ↔ (lo ≤ a.addr ∧ a.addr + a.size ≤ hi) ∧ Within lo hi acc := by
  simp [Within]

/-- A turn that does not end the loop. -/
def Steps (e : Env) (s s' : St) : Prop := s.cnt ≠ 0 ∧ ∃ acc, turn e s = (acc, s', none)

/-- The states that the loop gets to. -/
abbrev Reached (e : Env) : St → St → Prop := Relation.ReflTransGen (Steps e)

/-- A turn goes on by the length of the option. -/
theorem Steps.advance {s' : St} (h : Steps e s s') :
    ∃ n, 1 ≤ n ∧ n ≤ s.cnt ∧ s'.cp = s.cp + n ∧ s'.cnt = s.cnt - n := by
  obtain ⟨hcnt, acc, h⟩ := h
  unfold turn at h
  dsimp only at h
  split_ifs at h with heol hnop hbad
  · simp at h
  · simp only [Prod.mk.injEq, and_true] at h
    rw [← h.2]
    exact ⟨1, Nat.le_refl 1, by omega, rfl, rfl⟩
  · simp at h
  · simp only [Prod.mk.injEq] at h
    rw [← h.2.1]
    exact ⟨_, by omega, by omega, rfl, rfl⟩

end Accesses

end Ip
