import Mathlib
import NetBsd.Lib.ByteMem
import NetBsd.Lib.Ring

/-!
# TCP/IP header compression on a serial line

The sender `sl_compress_tcp` and the receiver `sl_uncompress_tcp` of
`sys.386bsd/net/slcompress.c`, for the i386: `ip_hl` and `th_off` are the low half of byte 0
of the IP header and the high half of byte 12 of the TCP header. Both keep, for each of 16
conversations, the header of the last packet. The statistics counters are left out.

## Main definitions

* `Cstate`, `Slcompress`: a conversation, and the two sets of them on one line
* `slCompressInit`: the state both ends start from
* `slSearch`, `slDeltas`, `slCompressTcp`: the sender
* `decodeU`, `decodeS`, `decodeL`, `slWalk`, `slUncompressTcp`: the receiver

A copy past the end of a saved header, which the C leaves undefined, ends the model's run:
`slCompressTcp` gives `none` and `slUncompressTcp` returns `overrun`.
-/

namespace Slip

abbrev MAX_STATES : ℕ := 16
abbrev MLEN : ℕ := 108
abbrev MAX_HDR : ℕ := MLEN

theorem max_states_ne : MAX_STATES ≠ 0 := by decide

scoped instance : NeZero MAX_STATES := ⟨max_states_ne⟩

abbrev IPPROTO_TCP : BitVec 8 := 6

abbrev TH_FIN : BitVec 8 := 0x01
abbrev TH_SYN : BitVec 8 := 0x02
abbrev TH_RST : BitVec 8 := 0x04
abbrev TH_PUSH : BitVec 8 := 0x08
abbrev TH_ACK : BitVec 8 := 0x10
abbrev TH_URG : BitVec 8 := 0x20

abbrev NEW_C : BitVec 8 := 0x40
abbrev NEW_I : BitVec 8 := 0x20
abbrev TCP_PUSH_BIT : BitVec 8 := 0x10
abbrev NEW_S : BitVec 8 := 0x08
abbrev NEW_A : BitVec 8 := 0x04
abbrev NEW_W : BitVec 8 := 0x02
abbrev NEW_U : BitVec 8 := 0x01

abbrev SPECIAL_I : BitVec 8 := NEW_S ||| NEW_W ||| NEW_U
abbrev SPECIAL_D : BitVec 8 := NEW_S ||| NEW_A ||| NEW_W ||| NEW_U
abbrev SPECIALS_MASK : BitVec 8 := NEW_S ||| NEW_A ||| NEW_W ||| NEW_U

/-- The packet types `TYPE_IP`, `TYPE_UNCOMPRESSED_TCP`, `TYPE_COMPRESSED_TCP`, `TYPE_ERROR`. -/
inductive PktType where
  | ip
  | uncompressedTcp
  | compressedTcp
  | error
  deriving DecidableEq, Repr

/-! ## Headers

The TCP header `th` of a packet starts `4 * ip_hl` bytes after its IP header. -/

def ipHl (ip : ByteMem) : ℕ := (ip 0).toNat % 16

/-- `th_off` of the TCP header at offset `th`. -/
def thOff (ip : ByteMem) (th : ℕ) : ℕ := (ip (th + 12)).toNat / 16

/-- The `hlen` both ends compute: the length of the IP and TCP headers together. -/
def hdrLen (ip : ByteMem) : ℕ := 4 * (ipHl ip + thOff ip (4 * ipHl ip))

/-! ## State -/

/-- `struct cstate`. -/
structure Cstate where
  cs_next : Fin MAX_STATES
  cs_hlen : BitVec 16
  cs_id : BitVec 8
  cs_hdr : ByteMem

/-- `struct slcompress`. While frames are not being tossed, `last_recv` is a conversation. -/
structure Slcompress where
  last_cs : Fin MAX_STATES
  last_recv : BitVec 8
  last_xmit : BitVec 8
  toss : Bool
  tstate : Fin MAX_STATES → Cstate
  rstate : Fin MAX_STATES → Cstate
  recv_lt : toss = false → last_recv.toNat < MAX_STATES

/-- `sl_compress_init`. -/
def slCompressInit : Slcompress where
  last_cs := 0
  last_recv := 255
  last_xmit := 255
  toss := true
  tstate i :=
    { cs_next := if i = 0 then 15 else i - 1
      cs_hlen := 0
      cs_id := BitVec.ofNat 8 i
      cs_hdr := fun _ => 0 }
  rstate _ := { cs_next := 0, cs_hlen := 0, cs_id := 0, cs_hdr := fun _ => 0 }
  recv_lt := by simp

/-- The first mbuf of a packet, and the bytes in the mbufs after it. The storage of the
first goes on past its `m_len` bytes. -/
structure Mbuf where
  m_data : ByteMem
  m_len : ℕ
  rest : List (BitVec 8)

/-- The bytes of the packet. -/
def Mbuf.packet (m : Mbuf) : List (BitVec 8) := m.m_data.bytes 0 m.m_len ++ m.rest

/-! ## The sender -/

/-- `ENCODE`: a number known not to be zero, in one byte or in three. -/
def encode (n : BitVec 16) : List (BitVec 8) :=
  if n.toNat ≥ 256 then [0, n.extractLsb' 8 8, n.extractLsb' 0 8] else [n.extractLsb' 0 8]

/-- `ENCODEZ`: zero takes the long form. -/
def encodeZ (n : BitVec 16) : List (BitVec 8) :=
  if n.toNat ≥ 256 ∨ n = 0 then [0, n.extractLsb' 8 8, n.extractLsb' 0 8]
  else [n.extractLsb' 0 8]

/-- The saved header `hdr` belongs to the conversation of the packet: same addresses, and the
same word of ports, each found by its own header length. -/
def slMatch (ip hdr : ByteMem) : Prop :=
  ip.get32 12 = hdr.get32 12 ∧ ip.get32 16 = hdr.get32 16 ∧
    ip.get32 (4 * ipHl ip) = hdr.get32 (4 * ipHl hdr)

instance (ip hdr : ByteMem) : Decidable (slMatch ip hdr) := by unfold slMatch; infer_instance

/-- The `do` loop over the list: `lcs`, the state after it, and whether that one matches.
`none` when `n` turns do not end it. -/
def slSearch (tstate : Fin MAX_STATES → Cstate) (ip : ByteMem) (lastcs : Fin MAX_STATES) :
    ℕ → Fin MAX_STATES → Option (Fin MAX_STATES × Fin MAX_STATES × Bool)
  | 0, _ => none
  | n + 1, lcs =>
    let cs := (tstate lcs).cs_next
    if slMatch ip (tstate cs).cs_hdr then some (lcs, cs, true)
    else if cs ≠ lastcs then slSearch tstate ip lastcs n cs
    else some (lcs, cs, false)

/-- Only what is expected to change has changed: version, header length and type of service,
fragment flags, time to live and protocol, TCP header length, IP options, TCP options. -/
def slSameShape (ip hdr : ByteMem) : Prop :=
  let hl := ipHl ip
  let off := thOff ip (4 * hl)
  ip.get16 0 = hdr.get16 0 ∧ ip.get16 6 = hdr.get16 6 ∧ ip.get16 8 = hdr.get16 8 ∧
    off = thOff hdr (4 * hl) ∧
    (hl > 5 → ip.bytes 20 (4 * (hl - 5)) = hdr.bytes 20 (4 * (hl - 5))) ∧
    (off > 5 → ip.bytes (4 * hl + 20) (4 * (off - 5)) = hdr.bytes (4 * hl + 20) (4 * (off - 5)))

instance (ip hdr : ByteMem) : Decidable (slSameShape ip hdr) := by
  unfold slSameShape; infer_instance

/-- The packet has `TH_URG` set. -/
def Urgent (ip : ByteMem) : Prop := ip (4 * ipHl ip + 13) &&& TH_URG ≠ 0

instance (ip : ByteMem) : Decidable (Urgent ip) := by unfold Urgent; infer_instance

def urp (ip m : ByteMem) : BitVec 16 := m.get16 (4 * ipHl ip + 18)

def deltaW (ip hdr : ByteMem) : BitVec 16 :=
  let th := 4 * ipHl ip
  ip.get16 (th + 14) - hdr.get16 (th + 14)

def deltaA (ip hdr : ByteMem) : BitVec 32 :=
  let th := 4 * ipHl ip
  ip.get32 (th + 8) - hdr.get32 (th + 8)

def deltaS (ip hdr : ByteMem) : BitVec 32 :=
  let th := 4 * ipHl ip
  ip.get32 (th + 4) - hdr.get32 (th + 4)

/-- `ntohs(cs->cs_ip.ip_len) - hlen`: what the last packet carried, by which the receiver
moves on in the special cases. -/
def carried (ip hdr : ByteMem) : BitVec 32 :=
  (hdr.get16 2).setWidth 32 - BitVec.ofNat 32 (hdrLen ip)

/-- The changes of the four TCP numbers, as a change mask and the encoded numbers. `none`
stands for `goto uncompressed`. -/
def slDeltas (ip hdr : ByteMem) : Option (BitVec 8 × List (BitVec 8)) :=
  let dW := deltaW ip hdr
  let dA := deltaA ip hdr
  let dS := deltaS ip hdr
  if ¬ Urgent ip ∧ urp ip ip ≠ urp ip hdr then none
  else if dA.toNat > 0xffff ∨ dS.toNat > 0xffff then none
  else
    let changes : BitVec 8 :=
      (if Urgent ip then NEW_U else 0) ||| (if dW ≠ 0 then NEW_W else 0) |||
        (if dA ≠ 0 then NEW_A else 0) ||| (if dS ≠ 0 then NEW_S else 0)
    let new_seq :=
      (if Urgent ip then encodeZ (urp ip ip) else []) ++ (if dW ≠ 0 then encode dW else []) ++
        (if dA ≠ 0 then encode (dA.setWidth 16) else []) ++
        (if dS ≠ 0 then encode (dS.setWidth 16) else [])
    if changes = 0 then
      if ip.get16 2 ≠ hdr.get16 2 ∧ (hdr.get16 2).toNat = hdrLen ip then some (changes, new_seq)
      else none
    else if changes = SPECIAL_I ∨ changes = SPECIAL_D then none
    else if changes = NEW_S ||| NEW_A ∧ dS = dA ∧ dS = carried ip hdr then some (SPECIAL_I, [])
    else if changes = NEW_S ∧ dS = carried ip hdr then some (SPECIAL_D, [])
    else some (changes, new_seq)

/-- The change of the IP id and the push bit added to the changes of the TCP numbers. -/
def slDeltaId (ip hdr : ByteMem) (d : BitVec 8 × List (BitVec 8)) : BitVec 8 × List (BitVec 8) :=
  let deltaI := (ip.get16 4).setWidth 32 - (hdr.get16 4).setWidth 32
  let push := if ip (4 * ipHl ip + 13) &&& TH_PUSH ≠ 0 then TCP_PUSH_BIT else 0
  if deltaI ≠ 1 then (d.1 ||| NEW_I ||| push, d.2 ++ encodeZ (deltaI.setWidth 16))
  else (d.1 ||| push, d.2)

/-- The label `uncompressed`: the packet goes out with the conversation in `ip_p`. -/
def slUncompressed (m : Mbuf) (comp : Slcompress) (cs : Fin MAX_STATES) :
    Option (PktType × Mbuf × Slcompress) :=
  let c := comp.tstate cs
  let hlen := hdrLen m.m_data
  if hlen > MAX_HDR then none
  else some (.uncompressedTcp, { m with m_data := m.m_data.put8 9 c.cs_id },
    { comp with
      last_xmit := c.cs_id
      tstate := Function.update comp.tstate cs
        { c with cs_hdr := m.m_data.copy hlen c.cs_hdr } })

/-- What takes the place of the headers: the change mask, with the conversation `cs` where it is
not the last one, the TCP checksum, the encoded numbers. -/
def slFront (ip : ByteMem) (comp : Slcompress) (cs : Fin MAX_STATES) (compress_cid : Int)
    (d : BitVec 8 × List (BitVec 8)) : List (BitVec 8) :=
  let id := (comp.tstate cs).cs_id
  let sum := ip.get16 (4 * ipHl ip + 16)
  (if compress_cid = 0 ∨ comp.last_xmit ≠ id then [d.1 ||| NEW_C, id] else [d.1]) ++
    ([sum.extractLsb' 8 8, sum.extractLsb' 0 8] ++ d.2)

/-- The packet goes out with its headers replaced by the changes `d` and the checksum. -/
def slCompressed (m : Mbuf) (comp : Slcompress) (cs : Fin MAX_STATES) (compress_cid : Int)
    (d : BitVec 8 × List (BitVec 8)) : Option (PktType × Mbuf × Slcompress) :=
  let c := comp.tstate cs
  let ip := m.m_data
  let hlen := hdrLen ip
  let front := slFront ip comp cs compress_cid d
  -- the second test: the new front has to fit where the headers were
  if hlen > MAX_HDR ∨ hlen < front.length then none
  else some (.compressedTcp,
    { m with
      m_data := fun i => if h : i < front.length then front[i] else ip (hlen - front.length + i)
      m_len := m.m_len - (hlen - front.length) },
    { comp with
      last_xmit := c.cs_id
      tstate := Function.update comp.tstate cs { c with cs_hdr := ip.copy hlen c.cs_hdr } })

/-- The part of `sl_compress_tcp` after the conversation `cs` was found. -/
def slFound (m : Mbuf) (comp : Slcompress) (cs : Fin MAX_STATES) (compress_cid : Int) :
    Option (PktType × Mbuf × Slcompress) :=
  let ip := m.m_data
  let hdr := (comp.tstate cs).cs_hdr
  if hdrLen ip > m.m_len then some (.ip, m, comp)
  else if ¬ slSameShape ip hdr then slUncompressed m comp cs
  else match slDeltas ip hdr with
    | none => slUncompressed m comp cs
    | some d => slCompressed m comp cs compress_cid (slDeltaId ip hdr d)

/-- Move the state `cs`, which follows `lcs`, to the front of the list. -/
def slToFront (comp : Slcompress) (lcs cs : Fin MAX_STATES) : Slcompress :=
  let lastcs := comp.last_cs
  if cs = lastcs then { comp with last_cs := lcs }
  else
    let next := Ring.moveToFront (fun i => (comp.tstate i).cs_next) lcs cs lastcs
    { comp with tstate := fun i => { comp.tstate i with cs_next := next i } }

/-- `sl_compress_tcp`. -/
def slCompressTcp (m : Mbuf) (comp : Slcompress) (compress_cid : Int) :
    Option (PktType × Mbuf × Slcompress) :=
  let ip := m.m_data
  let cs := (comp.tstate comp.last_cs).cs_next
  if ip.get16 6 &&& 0x3fff ≠ 0 ∨ m.m_len < 40 then some (.ip, m, comp)
  else if ip (4 * ipHl ip + 13) &&& (TH_SYN ||| TH_FIN ||| TH_RST ||| TH_ACK) ≠ TH_ACK then
    some (.ip, m, comp)
  else if slMatch ip (comp.tstate cs).cs_hdr then slFound m comp cs compress_cid
  else match slSearch comp.tstate ip comp.last_cs MAX_STATES cs with
    | none => none
    | some (lcs, cs, true) => slFound m (slToFront comp lcs cs) cs compress_cid
    | some (lcs, cs, false) =>
      let comp := { comp with last_cs := lcs }
      if hdrLen ip > m.m_len then some (.ip, m, comp) else slUncompressed m comp cs

/-! ## The receiver -/

/-- The receiver on its way through a frame: how far it is, the saved header as changed so
far, and one past the last byte of the frame that it read. -/
structure Walk where
  cp : ℕ
  hdr : ByteMem
  seen : ℕ

/-- Read up to offset `n` and go on from there. -/
def Walk.to (w : Walk) (n : ℕ) : Walk := { w with cp := n, seen := max w.seen n }

/-- Change the saved header. -/
def Walk.set (w : Walk) (f : ByteMem → ByteMem) : Walk := { w with hdr := f w.hdr }

/-- The number at `cp`, and where it ends. -/
def decode (buf : ByteMem) (cp : ℕ) : BitVec 16 × ℕ :=
  if buf cp = 0 then (buf.get16 (cp + 1), cp + 3) else ((buf cp).setWidth 16, cp + 1)

/-- `DECODEU`: the number replaces the field at `f`. -/
def decodeU (buf : ByteMem) (f : ℕ) (w : Walk) : Walk :=
  let (n, cp) := decode buf w.cp
  (w.to cp).set fun hdr => hdr.put16 f n

/-- `DECODES`: the number is added to the short field at `f`. -/
def decodeS (buf : ByteMem) (f : ℕ) (w : Walk) : Walk :=
  let (n, cp) := decode buf w.cp
  (w.to cp).set fun hdr => hdr.put16 f (hdr.get16 f + n)

/-- `DECODEL`: the number is added to the long field at `f`. -/
def decodeL (buf : ByteMem) (f : ℕ) (w : Walk) : Walk :=
  let (n, cp) := decode buf w.cp
  (w.to cp).set fun hdr => hdr.put32 f (hdr.get32 f + n.setWidth 32)

theorem decodeU_eq (buf : ByteMem) (f : ℕ) (w : Walk) :
    decodeU buf f w =
      (w.to (decode buf w.cp).2).set fun hdr => hdr.put16 f (decode buf w.cp).1 := rfl

theorem decodeS_eq (buf : ByteMem) (f : ℕ) (w : Walk) :
    decodeS buf f w = (w.to (decode buf w.cp).2).set fun hdr =>
      hdr.put16 f (hdr.get16 f + (decode buf w.cp).1) := rfl

theorem decodeL_eq (buf : ByteMem) (f : ℕ) (w : Walk) :
    decodeL buf f w = (w.to (decode buf w.cp).2).set fun hdr =>
      hdr.put32 f (hdr.get32 f + (decode buf w.cp).1.setWidth 32) := rfl

/-- The `default` case: `TH_URG` and the four numbers of the TCP header at `th`. -/
def slNumbers (buf : ByteMem) (changes : BitVec 8) (th : ℕ) (w : Walk) : Walk :=
  let w :=
    if changes &&& NEW_U ≠ 0 then
      decodeU buf (th + 18) (w.set fun hdr => hdr.put8 (th + 13) (hdr (th + 13) ||| TH_URG))
    else w.set fun hdr => hdr.put8 (th + 13) (hdr (th + 13) &&& ~~~TH_URG)
  let w := if changes &&& NEW_W ≠ 0 then decodeS buf (th + 14) w else w
  let w := if changes &&& NEW_A ≠ 0 then decodeL buf (th + 8) w else w
  if changes &&& NEW_S ≠ 0 then decodeL buf (th + 4) w else w

/-- The `switch` over the special cases. -/
def slSpecials (buf : ByteMem) (changes : BitVec 8) (cs_hlen : BitVec 16) (th : ℕ) (w : Walk) :
    Walk :=
  let carried := (w.hdr.get16 2).setWidth 32 - cs_hlen.setWidth 32
  if changes &&& SPECIALS_MASK = SPECIAL_I then
    (w.set fun hdr => hdr.put32 (th + 8) (hdr.get32 (th + 8) + carried)).set fun hdr =>
      hdr.put32 (th + 4) (hdr.get32 (th + 4) + carried)
  else if changes &&& SPECIALS_MASK = SPECIAL_D then
    w.set fun hdr => hdr.put32 (th + 4) (hdr.get32 (th + 4) + carried)
  else slNumbers buf changes th w

/-- The IP id: a number, or one more than the last. -/
def slIpId (buf : ByteMem) (changes : BitVec 8) (w : Walk) : Walk :=
  if changes &&& NEW_I ≠ 0 then decodeS buf 4 w
  else w.set fun hdr => hdr.put16 4 (hdr.get16 4 + 1)

/-- From the checksum, at `cp`, to the first byte of data. -/
def slWalk (buf : ByteMem) (changes : BitVec 8) (cs : Cstate) (cp : ℕ) : Walk :=
  let th := 4 * ipHl cs.cs_hdr
  let w : Walk := { cp, hdr := cs.cs_hdr, seen := cp }
  let w := (w.to (cp + 2)).set fun hdr => hdr.put16 (th + 16) (buf.get16 cp)
  let w := w.set fun hdr =>
    if changes &&& TCP_PUSH_BIT ≠ 0 then hdr.put8 (th + 13) (hdr (th + 13) ||| TH_PUSH)
    else hdr.put8 (th + 13) (hdr (th + 13) &&& ~~~TH_PUSH)
  slIpId buf changes (slSpecials buf changes cs.cs_hlen th w)

/-- A word as the i386 reads it: the second byte is the high one. -/
def hostWord (m : ByteMem) (i : ℕ) : BitVec 16 := m (i + 1) ++ m i

/-- Sum of the first `n` words. -/
def hostSum (m : ByteMem) : ℕ → ℕ
  | 0 => 0
  | n + 1 => hostSum m n + (hostWord m (2 * n)).toNat

/-- `(changes & 0xffff) + (changes >> 16)`. -/
def fold (changes : ℕ) : ℕ := changes % 65536 + changes / 65536

/-- What a call of `sl_uncompress_tcp` comes to: `return (0)` at the label `bad` or because
frames are being tossed, or the packet at `*bufp`. -/
inductive Ret where
  | bad
  | tossed
  | packet (p : List (BitVec 8))
  | overrun
  deriving DecidableEq, Repr

/-- Outcome of a call: its return, the state after it, and one past the last byte read from
the frame's storage. -/
structure Got where
  ret : Ret
  comp : Slcompress
  seen : ℕ

/-- The label `bad`. -/
def slBad (comp : Slcompress) (seen : ℕ) : Got :=
  ⟨.bad, { comp with toss := true, recv_lt := by simp }, seen⟩

/-- A frame of type `TYPE_UNCOMPRESSED_TCP`. -/
def slUncompressedIn (buf : ByteMem) (len : ℕ) (comp : Slcompress) : Got :=
  if h : (buf 9).toNat ≥ MAX_STATES then slBad comp 10
  else
    let id : Fin MAX_STATES := ⟨(buf 9).toNat, Nat.not_le.mp h⟩
    let ip := buf.put8 9 IPPROTO_TCP
    let hlen := hdrLen ip
    let seen := max (max 10 (4 * ipHl ip + 13)) hlen
    if hlen > MAX_HDR then ⟨.overrun, comp, seen⟩
    else
      let cs := comp.rstate id
      ⟨.packet (ip.bytes 0 len),
        { comp with
          last_recv := buf 9
          toss := false
          recv_lt := fun _ => id.isLt
          rstate := Function.update comp.rstate id
            { cs with
              cs_hdr := (ip.copy hlen cs.cs_hdr).put16 10 0
              cs_hlen := BitVec.ofNat 16 hlen } },
        seen⟩

/-- The data starts at `cp`: move it down to a word boundary, `addr` being the address of the
frame, prepend the header and recompute its checksum. -/
def slRebuild (buf : ByteMem) (addr len cp : ℕ) (cs_hlen : ℕ) (hdr : ByteMem) :
    List (BitVec 8) × ℕ :=
  let down := (addr + cp) % 4
  let data : ByteMem := fun i => if i < len - cp then buf (cp + i) else buf (cp - down + i)
  let out : ByteMem := fun i => if i < cs_hlen then hdr i else data (i - cs_hlen)
  let hlen := 4 * ipHl hdr
  let sum := ~~~BitVec.ofNat 16 (fold (fold (hostSum out (hlen / 2))))
  (((out.put8 10 (sum.extractLsb' 0 8)).put8 11 (sum.extractLsb' 8 8)).bytes 0
      (len - cp + cs_hlen),
    if hlen > cs_hlen then cp - down + (hlen - cs_hlen) else 0)

/-- The part of `sl_uncompress_tcp` after the conversation `cs` was found, from offset `cp`. -/
def slCompressedIn (buf : ByteMem) (addr len : ℕ) (comp : Slcompress) (changes : BitVec 8)
    (cs : Fin MAX_STATES) (cp : ℕ) : Got :=
  let c := comp.rstate cs
  let w := slWalk buf changes c cp
  let comp' (hdr : ByteMem) : Slcompress :=
    { comp with rstate := Function.update comp.rstate cs { c with cs_hdr := hdr } }
  if len < w.cp then slBad (comp' w.hdr) w.seen
  else
    let hlen := c.cs_hlen.toNat
    let hdr := w.hdr.put16 2 (BitVec.ofNat 16 (len - w.cp + hlen))
    let (p, seen) := slRebuild buf addr len w.cp hlen hdr
    ⟨.packet p, comp' hdr, max w.seen seen⟩

/-- `sl_uncompress_tcp` on a frame of `len` bytes in storage at address `addr`. -/
def slUncompressTcp (buf : ByteMem) (addr len : ℕ) (type : PktType) (comp : Slcompress) : Got :=
  match type with
  | .uncompressedTcp => slUncompressedIn buf len comp
  | .compressedTcp =>
    let changes := buf 0
    if changes &&& NEW_C ≠ 0 then
      if h : (buf 1).toNat ≥ MAX_STATES then slBad comp 2
      else
        let comp :=
          { comp with toss := false, last_recv := buf 1, recv_lt := fun _ => Nat.not_le.mp h }
        slCompressedIn buf addr len comp changes ⟨(buf 1).toNat, Nat.not_le.mp h⟩ 2
    else if h : comp.toss = true then ⟨.tossed, comp, 1⟩
    else
      let cs : Fin MAX_STATES := ⟨comp.last_recv.toNat, comp.recv_lt (by simpa using h)⟩
      slCompressedIn buf addr len comp changes cs 1
  | _ => slBad comp 0

end Slip
