import NetBsd.Lib.Fault
import NetBsd.Kern.Mbuf

/-!
# Socket buffers

The queue of mbufs behind a socket, `kern/uipc_socket2.c`: records linked by `m_nextpkt` from
their first mbuf, the mbufs of a record by `m_next`. Every mbuf is held by one link only, so a
chain is a tree of values, and a change behind a link is the chain with another tree there.

## Main definitions

* `Chain`: the mbufs that a link leads to
* `Sockbuf`: `struct sockbuf`
* `sbappend`, `sbappendrecord`, `sbinsertoob`, `sbappendaddr`, `sbappendcontrol`, `sbdrop`,
  `sbdroprecord`, `sbflush`: the operations as the code computes them
-/

namespace Sockbuf

open Mbuf

/-- What a link to an mbuf leads to, with `m_next` and `m_nextpkt`. -/
inductive Chain where
  | null
  | mbuf (m : Mbuf) (next nextpkt : Chain)
  deriving DecidableEq, Repr

/-- The mbufs of a packet, without record links. -/
def Chain.ofList : List Mbuf → Chain
  | [] => .null
  | m :: l => .mbuf m (ofList l) .null

end Sockbuf

/-- `struct sockbuf`; `sbLock` is the flag `SB_LOCK`. -/
structure Sockbuf where
  sbCc : ℤ
  sbHiwat : ℤ
  sbMbcnt : ℤ
  sbMbmax : ℤ
  sbMb : Sockbuf.Chain
  sbLock : Bool
  deriving DecidableEq, Repr

namespace Sockbuf

open Mbuf

def sbspace (sb : Sockbuf) : ℤ := min (sb.sbHiwat - sb.sbCc) (sb.sbMbmax - sb.sbMbcnt)

def sballoc (sb : Sockbuf) (m : Mbuf) : Sockbuf :=
  { sb with sbCc := sb.sbCc + m.len, sbMbcnt := sb.sbMbcnt + m.storage }

def sbfree (sb : Sockbuf) (m : Mbuf) : Sockbuf :=
  { sb with sbCc := sb.sbCc - m.len, sbMbcnt := sb.sbMbcnt - m.storage }

/-! ## Appending -/

/-- `sbcompress` leaves the empty mbuf `m` out: it carries no end of record, or the mbuf next to
it can. -/
def skips (eor : Bool) (n : Option Mbuf) (m : Mbuf) (rest : List Mbuf) : Bool :=
  m.len = 0 && (!eor || match rest.head?.or n with
    | some o => o.mType = m.mType
    | none => false)

/-- The data of `m` go into the free space of `n`. -/
def merges (n m : Mbuf) : Bool :=
  n.ext.isNone && !n.eor && n.off + n.len + m.len < mlen && n.mType = m.mType

/-- The loop of `sbcompress` behind the mbuf `n`, which is the buffer's last: the new counts, and
the mbufs that stand for `n` and the rest of `m`. -/
def compressLoop (sb : Sockbuf) (eor : Bool) (n : Option Mbuf) :
    List Mbuf → Sockbuf × List Mbuf
  | [] =>
    (sb, match n with
      | none => []
      | some n => [if eor then { n with eor := true } else n])
  | m :: rest =>
    let eor := eor || m.eor
    if skips eor n m rest then compressLoop sb eor n rest
    else
      match n with
      | none => compressLoop (sballoc sb m) eor (some { m with eor := false }) rest
      | some n =>
        if merges n m then
          compressLoop { sb with sbCc := sb.sbCc + m.len } eor
            (some { n with data := n.data ++ m.data }) rest
        else
          let r := compressLoop (sballoc sb m) eor (some { m with eor := false }) rest
          (r.1, n :: r.2)

/-- The mbufs of a record with its record link. -/
def attach (nextpkt : Chain) : List Mbuf → Chain
  | [] => nextpkt
  | m :: l => .mbuf m (.ofList l) nextpkt

/-- `sbcompress` with `n` the last mbuf of the record. -/
def sbcompress (sb : Sockbuf) (l : List Mbuf) : Chain → Sockbuf × Chain
  | .null =>
    let r := compressLoop sb false none l
    (r.1, attach .null r.2)
  | .mbuf n .null nextpkt =>
    let r := compressLoop sb false (some n) l
    (r.1, attach nextpkt r.2)
  | .mbuf n (.mbuf m next np) nextpkt =>
    let r := sbcompress sb l (.mbuf m next np)
    (r.1, .mbuf n r.2 nextpkt)

/-- An mbuf of the record has `M_EOR`. -/
def hasEor : Chain → Bool
  | .null => false
  | .mbuf m next _ => m.eor || hasEor next

/-- The end of record of the first mbuf moves on to the second. -/
def passEor (m : Mbuf) : List Mbuf → Mbuf × List Mbuf
  | [] => (m, [])
  | k :: l => if m.eor then ({ m with eor := false }, { k with eor := true } :: l) else (m, k :: l)

/-- The record `t` linked behind the last one. -/
def linkLast (t : Chain) : Chain → Chain
  | .null => t
  | .mbuf m next nextpkt => .mbuf m next (linkLast t nextpkt)

def sbappendrecord (sb : Sockbuf) (m0 : List Mbuf) : Sockbuf :=
  match m0 with
  | [] => sb
  | m :: l =>
    let p := passEor m l
    let r := compressLoop (sballoc sb m) false (some p.1) p.2
    { r.1 with sbMb := linkLast (attach .null r.2) sb.sbMb }

/-- The last record goes through `f`. -/
def onLast (f : Chain → Sockbuf × Chain) : Chain → Sockbuf × Chain
  | .mbuf m next (.mbuf m' next' np) =>
    let r := onLast f (.mbuf m' next' np)
    (r.1, .mbuf m next r.2)
  | t => f t

/-- The last record. -/
def lastRecord : Chain → Chain
  | .mbuf _ _ (.mbuf m next np) => lastRecord (.mbuf m next np)
  | t => t

def sbappend (sb : Sockbuf) (m : List Mbuf) : Sockbuf :=
  if m = [] then sb
  else if hasEor (lastRecord sb.sbMb) then sbappendrecord sb m
  else
    let r := onLast (sbcompress sb m) sb.sbMb
    { r.1 with sbMb := r.2 }

/-- The record is out-of-band data, behind its control mbufs. -/
def isOob : Chain → Bool
  | .null => false
  | .mbuf m next _ =>
    match m.mType with
    | .oobdata => true
    | .control => isOob next
    | _ => false

/-- The record `l` linked in front of the first one that is not out-of-band data. -/
def linkOob (l : List Mbuf) : Chain → Chain
  | .null => attach .null l
  | .mbuf m next nextpkt =>
    if isOob (.mbuf m next nextpkt) then .mbuf m next (linkOob l nextpkt)
    else attach (.mbuf m next nextpkt) l

def sbinsertoob (sb : Sockbuf) (m0 : List Mbuf) : Sockbuf :=
  match m0 with
  | [] => sb
  | m :: l =>
    let p := passEor m l
    let r := compressLoop (sballoc sb m) false (some p.1) p.2
    { r.1 with sbMb := linkOob r.2 sb.sbMb }

/-- `sbappendaddr` with the address `asa`; `got` says whether `MGET` gives an mbuf. -/
def sbappendaddr (sb : Sockbuf) (asa : List UInt8) (m0 control : List Mbuf) (got : Bool) :
    Except Fault (Bool × Sockbuf) :=
  if m0 ≠ [] ∧ (m0.head?.bind Mbuf.pkthdr) = none then .error .panic
  else
    let space := asa.length + ((m0.head?.bind Mbuf.pkthdr).getD 0 + lens control)
    if space > sbspace sb then .ok (false, sb)
    else if asa.length > mlen then .ok (false, sb)
    else if !got then .ok (false, sb)
    else
      let l := ⟨.soname, none, none, false, 0, asa⟩ :: (control ++ m0)
      .ok (true, { l.foldl sballoc sb with sbMb := linkLast (.ofList l) sb.sbMb })

def sbappendcontrol (sb : Sockbuf) (m0 control : List Mbuf) : Except Fault (Bool × Sockbuf) :=
  if control = [] then .error .panic
  else if lens control + lens m0 > sbspace sb then .ok (false, sb)
  else
    let l := control ++ m0
    .ok (true, { l.foldl sballoc sb with sbMb := linkLast (.ofList l) sb.sbMb })

/-! ## Dropping -/

/-- The loop of `sbdrop` in one record: the chain where it stops, or the bytes still to drop when
the record has run out. -/
def dropChain (sb : Sockbuf) (len : ℤ) : Chain → Sockbuf × (ℤ ⊕ Chain)
  | .null => (sb, .inl len)
  | .mbuf m next nextpkt =>
    if len ≤ 0 then (sb, .inr (.mbuf m next nextpkt))
    else if m.len > len then
      ({ sb with sbCc := sb.sbCc - len },
        .inr (.mbuf { m with off := m.off + len.toNat, data := m.data.drop len.toNat }
          next nextpkt))
    else dropChain (sbfree sb m) (len - m.len) next

/-- Empty mbufs in front are freed. -/
def freeEmpty (sb : Sockbuf) : Chain → Sockbuf × Chain
  | .null => (sb, .null)
  | .mbuf m next nextpkt =>
    if m.len = 0 then freeEmpty (sbfree sb m) next else (sb, .mbuf m next nextpkt)

/-- The chain with the record link `nextpkt`, or the next record when nothing is left. -/
def relink (nextpkt : Chain) : Chain → Chain
  | .null => nextpkt
  | .mbuf m next _ => .mbuf m next nextpkt

/-- `sbdrop` with `m` on the first mbuf of a record. -/
def dropFrom (sb : Sockbuf) (len : ℤ) : Chain → Except Fault Sockbuf
  | .null => if len > 0 then .error .panic else .ok { sb with sbMb := .null }
  | .mbuf m next nextpkt =>
    match dropChain sb len (.mbuf m next nextpkt) with
    | (sb, .inr t) =>
      let r := freeEmpty sb t
      .ok { r.1 with sbMb := relink nextpkt r.2 }
    | (sb, .inl len) =>
      if len > 0 then dropFrom sb len nextpkt else .ok { sb with sbMb := nextpkt }

def sbdrop (sb : Sockbuf) (len : ℤ) : Except Fault Sockbuf := dropFrom sb len sb.sbMb

/-- All mbufs of a record are freed. -/
def freeChain (sb : Sockbuf) : Chain → Sockbuf
  | .null => sb
  | .mbuf m next _ => freeChain (sbfree sb m) next

def sbdroprecord (sb : Sockbuf) : Sockbuf :=
  match sb.sbMb with
  | .null => sb
  | .mbuf m next nextpkt =>
    { freeChain sb (.mbuf m next nextpkt) with sbMb := nextpkt }

/-- The loop of `sbflush`, with a bound on its turns. -/
def flushLoop : ℕ → Sockbuf → Except Fault Sockbuf
  | 0, sb => if sb.sbMbcnt = 0 then .ok sb else .error .loop
  | n + 1, sb =>
    if sb.sbMbcnt = 0 then .ok sb
    else do
      let sb ← sbdrop sb sb.sbCc
      flushLoop n sb

def sbflush (n : ℕ) (sb : Sockbuf) : Except Fault Sockbuf :=
  if sb.sbLock then .error .panic
  else do
    let sb ← flushLoop n sb
    if sb.sbCc ≠ 0 ∨ sb.sbMb ≠ .null then .error .panic else .ok sb

end Sockbuf
