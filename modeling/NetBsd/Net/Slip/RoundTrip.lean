import NetBsd.Net.Slip.Checksum
import NetBsd.Net.Slip.Deltas
import NetBsd.Net.Slip.Sender

/-!
# A compressed line

Packets go through the sender, and its frames in order and without loss through the
receiver. While every packet is clear of the cases in which a header does not survive, the
receiver hands up the packets that were sent, byte for byte.

## Main definitions

* `TcpIp p`: a TCP/IP packet with a valid header
* `Clear s m`: the packet is clear of the cases above in the sender's state `s`
* `slLine`, `slRun`: one packet over the line, and a sequence of packets
* `Linked s r`: what holds of the two ends between packets

## Main results

* `slLine_step`: a clear packet arrives as it was sent, and the two ends stay linked
* `slRun_delivers`: a run of clear packets delivers them
-/

namespace Slip

open ByteMem (Holds ofList)

variable {m : Mbuf} {s s' r : Slcompress} {ip buf : ByteMem} {cs : Fin MAX_STATES}
  {d : BitVec 8 × List (BitVec 8)} {cid : Int}

/-! ## The line -/

/-- A packet with nothing behind it. -/
def packetMem (p : List (BitVec 8)) : ByteMem := ofList p fun _ => 0

/-- A TCP/IP packet: version 4, its length the one in the header, a valid header checksum, TCP
inside, and the reserved bits of the TCP header zero. -/
structure TcpIp (p : List (BitVec 8)) : Prop where
  version : (packetMem p 0).toNat / 16 = 4
  hl : 5 ≤ ipHl (packetMem p)
  len : ((packetMem p).get16 2).toNat = p.length
  proto : packetMem p 9 = IPPROTO_TCP
  sum : wordSum (packetMem p) (2 * ipHl (packetMem p)) % 65535 = 0
  x2 : (packetMem p (4 * ipHl (packetMem p) + 12)).toNat % 16 = 0
  flags : (packetMem p (4 * ipHl (packetMem p) + 13)).toNat < 64

instance (p : List (BitVec 8)) : Decidable (TcpIp p) :=
  decidable_of_iff
    ((packetMem p 0).toNat / 16 = 4 ∧ 5 ≤ ipHl (packetMem p) ∧
      ((packetMem p).get16 2).toNat = p.length ∧ packetMem p 9 = IPPROTO_TCP ∧
      wordSum (packetMem p) (2 * ipHl (packetMem p)) % 65535 = 0 ∧
      (packetMem p (4 * ipHl (packetMem p) + 12)).toNat % 16 = 0 ∧
      (packetMem p (4 * ipHl (packetMem p) + 13)).toNat < 64)
    ⟨fun ⟨h₁, h₂, h₃, h₄, h₅, h₆, h₇⟩ => ⟨h₁, h₂, h₃, h₄, h₅, h₆, h₇⟩,
      fun ⟨h₁, h₂, h₃, h₄, h₅, h₆, h₇⟩ => ⟨h₁, h₂, h₃, h₄, h₅, h₆, h₇⟩⟩

/-- A packet whose header survives. A packet sent with its conversation has a TCP header of at
least 20 bytes, and headers that fit into the saved one; and where it is sent as changes to a
saved header, its checksum is not the all-ones form of zero, and no special case hides the loss
of `TH_URG`. -/
structure Clear (s : Slcompress) (m : Mbuf) : Prop where
  hdr : Eligible m → 5 ≤ thOff m.m_data (4 * ipHl m.m_data) ∧ hdrLen m.m_data ≤ MAX_HDR
  saved : Eligible m → ∀ i, slMatch m.m_data (s.tstate i).cs_hdr →
    slSameShape m.m_data (s.tstate i).cs_hdr → slDeltas m.m_data (s.tstate i).cs_hdr ≠ none →
    hostWord m.m_data 10 ≠ 0xffff ∧ ¬ UrgLost m.m_data (s.tstate i).cs_hdr

instance (s : Slcompress) (m : Mbuf) : Decidable (Clear s m) :=
  decidable_of_iff
    (Eligible m → (5 ≤ thOff m.m_data (4 * ipHl m.m_data) ∧ hdrLen m.m_data ≤ MAX_HDR) ∧
      ∀ i, slMatch m.m_data (s.tstate i).cs_hdr → slSameShape m.m_data (s.tstate i).cs_hdr →
        slDeltas m.m_data (s.tstate i).cs_hdr ≠ none →
        hostWord m.m_data 10 ≠ 0xffff ∧ ¬ UrgLost m.m_data (s.tstate i).cs_hdr)
    ⟨fun h => ⟨fun he => (h he).1, fun he => (h he).2⟩, fun h he => ⟨h.hdr he, h.saved he⟩⟩

/-- A packet on its way: the mbufs, the caller's `compress_cid`, and at the other end the
address of the frame and what is in storage behind it. -/
structure Sent where
  m : Mbuf
  compress_cid : Int
  addr : ℕ
  junk : ByteMem

/-- One packet over the line: the sender's and the receiver's state after it, and what is handed
up. Frames of type `TYPE_IP` are passed through. -/
def slLine (s r : Slcompress) (x : Sent) :
    Option (Slcompress × Slcompress × Option (List (BitVec 8))) :=
  match slCompressTcp x.m s x.compress_cid with
  | none => none
  | some (.ip, m, s') => some (s', r, some m.packet)
  | some (type, m, s') =>
    let g := slUncompressTcp (ofList m.packet x.junk) x.addr m.packet.length type r
    match g.ret with
    | .overrun => none
    | .packet p => some (s', g.comp, some p)
    | _ => some (s', g.comp, none)

/-- A sequence of packets over the line. -/
def slRun (s r : Slcompress) : List Sent → Option (List (Option (List (BitVec 8))))
  | [] => some []
  | x :: xs =>
    match slLine s r x with
    | none => none
    | some (s', r', p) => (slRun s' r' xs).map (p :: ·)

/-- Every packet of the run is clear in the state in which the sender gets it. -/
def RunClear (s r : Slcompress) : List Sent → Prop
  | [] => True
  | x :: xs => Clear s x.m ∧ ∀ s' r' p, slLine s r x = some (s', r', p) → RunClear s' r' xs

/-! ## The two ends between packets -/

/-- What the two ends save for a conversation: the header of the last packet, the receiver's
with its checksum cleared. -/
structure Saved (s r : Cstate) : Prop where
  header : Header s.cs_hdr
  hlen : r.cs_hlen.toNat = hdrLen s.cs_hdr
  hdr : ∀ j < hdrLen s.cs_hdr, r.cs_hdr j = clearSum s.cs_hdr j

/-- What holds of the two ends between packets. A state not used yet has no version in its
header; once a conversation was sent, it is the receiver's last one too. -/
structure Linked (s r : Slcompress) : Prop where
  states : LinkedStates s
  id : ∀ i, (s.tstate i).cs_id = BitVec.ofNat 8 i
  saved : ∀ i, ((s.tstate i).cs_hdr 0).toNat / 16 ≠ 4 ∨ Saved (s.tstate i) (r.rstate i)
  sync : s.last_xmit.toNat < MAX_STATES → r.toss = false ∧ r.last_recv = s.last_xmit

theorem Linked.reorder (h : Linked s r) (hs : Reordered s s') : Linked s' r where
  states := hs.linked
  id i := by rw [hs.id, h.id]
  saved i := by
    rcases h.saved i with hv | hsv
    · left
      rwa [hs.hdr]
    · right
      refine ⟨?_, ?_, ?_⟩ <;> rw [hs.hdr]
      · exact hsv.header
      · exact hsv.hlen
      · exact hsv.hdr
  sync hx := by
    rw [hs.xmit] at hx ⊢
    exact h.sync hx

/-- The header fields of two memories that agree on the headers. -/
theorem hdrLen_congr {P Q : ByteMem} (h₀ : Q 0 = P 0)
    (h : Q (4 * ipHl P + 12) = P (4 * ipHl P + 12)) : ipHl Q = ipHl P ∧ hdrLen Q = hdrLen P := by
  have hhl : ipHl Q = ipHl P := by rw [ipHl, ipHl, h₀]
  refine ⟨hhl, ?_⟩
  rw [hdrLen, hdrLen, hhl, thOff, thOff, h]

theorem Header.congr {P Q : ByteMem} (hP : Header P) (h : ∀ j < hdrLen P, Q j = P j) :
    Header Q ∧ hdrLen Q = hdrLen P := by
  have hle := hP.le_hdrLen
  obtain ⟨hhl, hlen⟩ := hdrLen_congr (h 0 (by omega)) (h (4 * ipHl P + 12) (by omega))
  refine ⟨⟨?_, ?_, ?_, ?_, ?_⟩, hlen⟩
  · rw [hhl]
    exact hP.hl
  · rw [hhl, thOff, h _ (by omega)]
    exact hP.off
  · rw [hlen]
    exact hP.len
  · rw [hhl, h _ (by omega)]
    exact hP.x2
  · rw [hhl, h _ (by omega)]
    exact hP.flags

/-- A header just saved by both ends. -/
theorem Header.saved {P Q : ByteMem} {c c' : Cstate} (hP : Header P)
    (hQ : ∀ j < hdrLen P, Q j = clearSum P j) (hc : c.cs_hdr = P.copy (hdrLen P) c'.cs_hdr) {R : Cstate}
    (hR : R.cs_hdr = Q) (hlen : R.cs_hlen.toNat = hdrLen P) : Saved c R := by
  have hcopy : ∀ j < hdrLen P, c.cs_hdr j = P j := by
    intro j hj
    rw [hc, ByteMem.copy, if_pos hj]
  obtain ⟨hh, hl⟩ := hP.congr hcopy
  refine ⟨hh, by rw [hlen, hl], fun j hj => ?_⟩
  rw [hl] at hj
  rw [hR, hQ j hj]
  by_cases h10 : j = 10
  · rw [h10]
    rfl
  by_cases h11 : j = 11
  · rw [h11]
    rfl
  rw [clearSum_of_ne h10 h11, clearSum_of_ne h10 h11, hcopy j hj]

/-! ## The packets -/

section Packet

/-- Memory that agrees with the first mbuf up to `m_len` and goes on with the rest. -/
theorem bytes_eq_packet (h : ∀ j < m.m_len, ip j = m.m_data j) (hrest : Holds ip m.m_len m.rest) :
    ip.bytes 0 (m.m_len + m.rest.length) = m.packet := by
  rw [ByteMem.bytes_add, Mbuf.packet, Nat.zero_add, hrest.bytes_eq]
  congr 1
  exact ByteMem.bytes_congr fun j hj => by rw [Nat.zero_add, h j hj]

theorem length_packet (m : Mbuf) : m.packet.length = m.m_len + m.rest.length := by
  rw [Mbuf.packet, List.length_append, ByteMem.length_bytes]

/-- The storage of a packet: its first mbuf, then the rest. -/
theorem ofList_packet (m : Mbuf) (junk : ByteMem) :
    (∀ j < m.m_len, ofList m.packet junk j = m.m_data j) ∧
      Holds (ofList m.packet junk) m.m_len m.rest := by
  have h := ByteMem.holds_ofList m.packet junk
  rw [Mbuf.packet, ByteMem.holds_append, ByteMem.length_bytes, Nat.zero_add] at h
  refine ⟨fun j hj => ?_, h.2⟩
  have := h.1 j (by rwa [ByteMem.length_bytes])
  rwa [Nat.zero_add, ByteMem.getElem_bytes, Nat.zero_add] at this

/-- What is known of the packets that are sent with their conversation. -/
structure Sendable (m : Mbuf) : Prop where
  header : Header m.m_data
  version : (m.m_data 0).toNat / 16 = 4
  len : (m.m_data.get16 2).toNat = m.m_len + m.rest.length
  proto : m.m_data 9 = IPPROTO_TCP
  sum : wordSum m.m_data (2 * ipHl m.m_data) % 65535 = 0
  hdr : hdrLen m.m_data ≤ m.m_len

theorem wordSum_congr {P Q : ByteMem} {n : ℕ} (h : ∀ j < 2 * n, P j = Q j) :
    wordSum P n = wordSum Q n := by
  induction n with
  | zero => rfl
  | succ n ih =>
    rw [wordSum, wordSum, ih fun j hj => h j (by omega),
      ByteMem.get16_eq_iff.mpr ⟨h _ (by omega), h _ (by omega)⟩]

/-- The flags of a packet that is eligible and has its reserved bits zero. -/
theorem flags_of_eligible {x : BitVec 8} (hx : x.toNat < 64)
    (h : x &&& (TH_SYN ||| TH_FIN ||| TH_RST ||| TH_ACK) = TH_ACK) :
    x &&& ~~~(TH_PUSH ||| TH_URG) = TH_ACK := by
  revert x
  decide +kernel

theorem sendable_of_eligible (hp : TcpIp m.packet) (he : Eligible m) (hc : Clear s m) :
    Sendable m := by
  have hmem : ∀ j < m.m_len, packetMem m.packet j = m.m_data j :=
    (ofList_packet m fun _ => 0).1
  obtain ⟨hoff, hmax⟩ := hc.hdr he
  have h40 := he.len
  have hle := he.hdr
  have hhl : ipHl (packetMem m.packet) = ipHl m.m_data := by
    rw [ipHl, ipHl, hmem 0 (by omega)]
  have h5 := hp.hl
  have hx2 := hp.x2
  have hfl := hp.flags
  have hsum := hp.sum
  rw [hhl] at h5 hx2 hfl hsum
  have hth : 4 * ipHl m.m_data + 20 ≤ m.m_len := by
    rw [hdrLen] at hle
    omega
  rw [hmem _ (by omega)] at hx2 hfl
  refine ⟨⟨h5, hoff, hmax, hx2, flags_of_eligible hfl he.flags⟩, ?_, ?_, ?_, ?_, hle⟩
  · rw [← hmem 0 (by omega)]
    exact hp.version
  · rw [← length_packet, ← hp.len, ByteMem.get16_eq_iff.mpr
      ⟨hmem 2 (by omega), hmem 3 (by omega)⟩]
  · rw [← hmem 9 (by omega)]
    exact hp.proto
  · rw [← hsum, wordSum_congr fun j hj => hmem j (by omega)]

end Packet

/-! ## One packet -/

/-- Both ends save a header for the conversation `cs`. -/
theorem Linked.save {r' : Slcompress} {H : ByteMem} {R : Cstate} (h : Linked s r)
    (hlast : s'.last_cs = s.last_cs)
    (ht : s'.tstate = Function.update s.tstate cs { s.tstate cs with cs_hdr := H })
    (hr : r'.rstate = Function.update r.rstate cs R) (hx : r'.last_recv = s'.last_xmit)
    (htoss : r'.toss = false)
    (hsaved : Saved { s.tstate cs with cs_hdr := H } R) : Linked s' r' := by
  have hrest : ∀ i, i ≠ cs → s'.tstate i = s.tstate i := fun i hi => by
    rw [ht, Function.update_of_ne hi]
  have hcs : s'.tstate cs = { s.tstate cs with cs_hdr := H } := by rw [ht, Function.update_self]
  refine ⟨h.states.congr hlast fun i => ?_, fun i => ?_, fun i => ?_, fun _ => ⟨htoss, hx⟩⟩
  · by_cases hi : i = cs
    · rw [hi, hcs]
    · rw [hrest i hi]
  · rw [← h.id i]
    by_cases hi : i = cs
    · rw [hi, hcs]
    · rw [hrest i hi]
  · by_cases hi : i = cs
    · right
      rw [hi, hcs, hr, Function.update_self]
      exact hsaved
    · rw [hrest i hi, hr, Function.update_of_ne hi]
      exact h.saved i

theorem toNat_id (h : Linked s r) (cs : Fin MAX_STATES) : (s.tstate cs).cs_id.toNat = cs := by
  have hw : MAX_STATES = 16 := rfl
  have := cs.isLt
  rw [h.id, BitVec.toNat_ofNat]
  omega

/-- A packet sent whole arrives as it was, and both ends save its header. -/
theorem uncompressed_step (h : Linked s r) (hm : Sendable m) (cs : Fin MAX_STATES)
    (junk : ByteMem) (addr : ℕ) :
    ∃ m' s', slUncompressed m s cs = some (.uncompressedTcp, m', s') ∧
      (slUncompressTcp (ofList m'.packet junk) addr m'.packet.length .uncompressedTcp r).ret =
        .packet m.packet ∧
      Linked s'
        (slUncompressTcp (ofList m'.packet junk) addr m'.packet.length .uncompressedTcp r).comp := by
  have hmax := hm.header.len
  have hle := hm.header.le_hdrLen
  have hml := hm.hdr
  have h5 := hm.header.hl
  have hlen' : ∀ d : ByteMem, ({ m with m_data := d } : Mbuf).packet.length = m.m_len + m.rest.length :=
    fun d => length_packet _
  unfold slUncompressed
  dsimp only
  rw [if_neg (Nat.not_lt.mpr hmax)]
  refine ⟨_, _, rfl, ?_⟩
  set buf := ofList ({ m with m_data := m.m_data.put8 9 (s.tstate cs).cs_id } : Mbuf).packet junk
    with hbuf
  obtain ⟨hdata, hrest⟩ :=
    ofList_packet { m with m_data := m.m_data.put8 9 (s.tstate cs).cs_id } junk
  rw [← hbuf] at hdata hrest
  dsimp only at hdata hrest
  have hid : buf 9 = (s.tstate cs).cs_id := by
    rw [hdata 9 (by omega), ByteMem.put8_same]
  -- what the receiver has after it put the protocol back
  have hip : ∀ j < m.m_len, buf.put8 9 IPPROTO_TCP j = m.m_data j := by
    intro j hj
    by_cases h9 : j = 9
    · rw [h9, ByteMem.put8_same, hm.proto]
    · rw [ByteMem.put8_of_ne h9, hdata j hj, ByteMem.put8_of_ne h9]
  have hiprest : Holds (buf.put8 9 IPPROTO_TCP) m.m_len m.rest := by
    intro j hj
    rw [ByteMem.put8_of_ne (by omega), hrest j hj]
  obtain ⟨-, hhdr⟩ := hdrLen_congr (hip 0 (by omega)) (hip (4 * ipHl m.m_data + 12) (by omega))
  have hlt : ¬ (buf 9).toNat ≥ MAX_STATES := by
    rw [hid, toNat_id h]
    exact Nat.not_le.mpr cs.isLt
  have hnat : (buf 9).toNat = cs := by rw [hid, toNat_id h]
  have hcs : (⟨(buf 9).toNat, Nat.not_le.mp hlt⟩ : Fin MAX_STATES) = cs := Fin.ext hnat
  rw [hlen', slUncompressTcp, slUncompressedIn, dif_neg hlt]
  dsimp only
  rw [hhdr, if_neg (Nat.not_lt.mpr hmax)]
  refine ⟨by rw [bytes_eq_packet hip hiprest], ?_⟩
  refine h.save rfl rfl (by dsimp only; rw [hcs]) hid rfl ?_
  refine hm.header.saved ?_ rfl rfl ?_
  · intro j hj
    by_cases h10 : j = 10
    · rw [h10]
      rfl
    by_cases h11 : j = 11
    · rw [h11]
      rfl
    dsimp only
    rw [clearSum_of_ne h10 h11, ByteMem.put16_of_ne h10 h11, ByteMem.copy, if_pos hj,
      hip j (by omega)]
  · have hw : MAX_HDR = 108 := rfl
    rw [BitVec.toNat_ofNat]
    omega

theorem length_encodeZ_le (x : BitVec 16) : (encodeZ x).length ≤ 3 := by
  unfold encodeZ
  split
  · exact le_rfl
  · exact Nat.le_add_left 1 2

theorem length_encode_le (x : BitVec 16) : (encode x).length ≤ 3 := by
  unfold encode
  split
  · exact le_rfl
  · exact Nat.le_add_left 1 2

/-- The numbers take at most the 15 bytes that the receiver's comment allows for them. -/
theorem length_slDeltaId_le {P S : ByteMem} (h : slDeltas P S = some d) :
    (slDeltaId P S d).2.length ≤ 15 := by
  have hd : d.2.length ≤ 12 := by
    obtain ⟨-, -, -, hch⟩ := slDeltas_cases h
    cases hch with
    | echo => exact Nat.zero_le _
    | data => exact Nat.zero_le _
    | plain =>
      have hu := length_encodeZ_le (urp P P)
      have hw := length_encode_le (deltaW P S)
      have ha := length_encode_le ((deltaA P S).setWidth 16)
      have hs := length_encode_le ((deltaS P S).setWidth 16)
      have hopt : ∀ (c : Prop) [Decidable c] (l : List (BitVec 8)), l.length ≤ 3 →
          (if c then l else []).length ≤ 3 := by
        intro c _ l hl
        split
        · exact hl
        · exact Nat.zero_le _
      have hu' := hopt (Urgent P) _ hu
      have hw' := hopt (deltaW P S ≠ 0) _ hw
      have ha' := hopt (deltaA P S ≠ 0) _ ha
      have hs' := hopt (deltaS P S ≠ 0) _ hs
      simp only [plainSeq, List.length_append]
      omega
  have hi := length_encodeZ_le ((deltaI P S).setWidth 16)
  rw [slDeltaId_eq]
  dsimp only
  rw [List.length_append]
  split
  · omega
  · rw [List.length_nil]
    omega

theorem lo_hostWord (P : ByteMem) (i : ℕ) : (hostWord P i).extractLsb' 0 8 = P i := by
  apply BitVec.eq_of_toNat_eq
  have := (P i).isLt
  rw [BitVec.extractLsb'_toNat, toNat_hostWord, Nat.shiftRight_zero]
  omega

theorem hi_hostWord (P : ByteMem) (i : ℕ) : (hostWord P i).extractLsb' 8 8 = P (i + 1) := by
  apply BitVec.eq_of_toNat_eq
  have := (P i).isLt
  have := (P (i + 1)).isLt
  rw [BitVec.extractLsb'_toNat, toNat_hostWord, Nat.shiftRight_eq_div_pow]
  omega

/-- With the header that was sent in front of the data, and its checksum computed again, the
receiver has the packet that was sent. -/
theorem slRebuild_sent {hdr : ByteMem} {cp len : ℕ} (hm : Sendable m)
    (hneg : hostWord m.m_data 10 ≠ 0xffff)
    (hhdr : ∀ j < hdrLen m.m_data, hdr j = clearSum m.m_data j)
    (hbuf : Holds buf cp
      (m.m_data.bytes (hdrLen m.m_data) (m.m_len - hdrLen m.m_data) ++ m.rest))
    (hlen : len = cp + (m.m_len - hdrLen m.m_data) + m.rest.length) (addr : ℕ) :
    (slRebuild buf addr len cp (hdrLen m.m_data) hdr).1 = m.packet := by
  have hle := hm.header.le_hdrLen
  have h5 := hm.header.hl
  have hml := hm.hdr
  have hlt : ipHl m.m_data < 16 := Nat.mod_lt _ (by omega)
  have hhl : ipHl hdr = ipHl m.m_data := by
    rw [ipHl, ipHl, hhdr 0 (by omega), clearSum_of_ne (by omega) (by omega)]
  unfold slRebuild
  dsimp only
  rw [hhl, show 4 * ipHl m.m_data / 2 = 2 * ipHl m.m_data by omega]
  set n := hdrLen m.m_data with hn
  set out : ByteMem := fun i => if i < n then hdr i else
    if i - n < len - cp then buf (cp + (i - n)) else buf (cp - (addr + cp) % 4 + (i - n)) with hout
  have houthdr : ∀ j < n, out j = clearSum m.m_data j := by
    intro j hj
    rw [hout]
    dsimp only
    rw [if_pos hj, hhdr j hj]
  have hsum := sum_recomputed (m := m.m_data) (q := out) (by omega) (by omega) hm.sum
    (by
      intro h0
      have := hm.version
      rw [h0] at this
      exact absurd this (by decide))
    (fun i hi h10 h11 => by rw [houthdr i (by omega), clearSum_of_ne h10 h11])
    (by rw [houthdr 10 (by omega)]; rfl) (by rw [houthdr 11 (by omega)]; rfl) hneg
  rw [hsum, lo_hostWord, hi_hostWord]
  obtain ⟨hdata, hrest⟩ := ByteMem.holds_append.mp hbuf
  rw [ByteMem.length_bytes] at hrest
  have houtdata : ∀ j, n ≤ j → j - n < len - cp →
      ((out.put8 10 (m.m_data 10)).put8 11 (m.m_data 11)) j = buf (cp + (j - n)) := by
    intro j hj hjlen
    rw [ByteMem.put8_of_ne (by omega), ByteMem.put8_of_ne (by omega), hout]
    dsimp only
    rw [if_neg (Nat.not_lt.mpr hj), if_pos hjlen]
  rw [show len - cp + n = m.m_len + m.rest.length by omega]
  refine bytes_eq_packet (fun j hj => ?_) fun j hj => ?_
  · by_cases hjn : j < n
    · by_cases h11 : j = 11
      · rw [h11, ByteMem.put8_same]
      · rw [ByteMem.put8_of_ne h11]
        by_cases h10 : j = 10
        · rw [h10, ByteMem.put8_same]
        · rw [ByteMem.put8_of_ne h10, houthdr j hjn, clearSum_of_ne h10 h11]
    · rw [houtdata j (by omega) (by omega), hdata (j - n) (by rw [ByteMem.length_bytes]; omega),
        ByteMem.getElem_bytes]
      congr 1
      omega
  · rw [houtdata _ (by omega) (by omega), ← hrest j hj]
    congr 1
    omega

/-- The receiver on the part of a compressed frame that follows the conversation. -/
theorem slCompressedIn_sent {c : Bool} {cp len : ℕ} {S R : Cstate} (hm : Sendable m)
    (hS : Saved S R) (hcs : r.rstate cs = R) (hmatch : slMatch m.m_data S.cs_hdr)
    (hshape : slSameShape m.m_data S.cs_hdr) (hd : slDeltas m.m_data S.cs_hdr = some d)
    (hlost : ¬ UrgLost m.m_data S.cs_hdr) (hneg : hostWord m.m_data 10 ≠ 0xffff)
    (hsum : buf.get16 cp = m.m_data.get16 (4 * ipHl m.m_data + 16))
    (hbuf : Holds buf (cp + 2) ((slDeltaId m.m_data S.cs_hdr d).2 ++
      (m.m_data.bytes (hdrLen m.m_data) (m.m_len - hdrLen m.m_data) ++ m.rest)))
    (hlen : len = cp + 2 + (slDeltaId m.m_data S.cs_hdr d).2.length +
      (m.m_len - hdrLen m.m_data) + m.rest.length) (addr : ℕ) :
    let changes := (slDeltaId m.m_data S.cs_hdr d).1 ||| bit c NEW_C
    (slCompressedIn buf addr len r changes cs cp).ret = .packet m.packet ∧
      ∃ H, (∀ j < hdrLen m.m_data, H j = clearSum m.m_data j) ∧
        (slCompressedIn buf addr len r changes cs cp).comp =
          { r with rstate := Function.update r.rstate cs { R with cs_hdr := H } } := by
  have hmc := hm.len
  have hml := hm.hdr
  obtain ⟨hrest, hcp, hhdr⟩ := slWalk_sent (c := c) hm.header hS.header hmatch hshape hd hlost
    hS.hlen hS.hdr hsum hbuf
  obtain ⟨-, hhl, -⟩ := eq_of_slSameShape hm.header hS.header hmatch hshape
  have hRlen : R.cs_hlen.toNat = hdrLen m.m_data := by rw [hS.hlen, hhl]
  have hiplen : BitVec.ofNat 16 (len - (cp + 2 + (slDeltaId m.m_data S.cs_hdr d).2.length) +
      hdrLen m.m_data) = m.m_data.get16 2 := by
    apply BitVec.eq_of_toNat_eq
    have := (m.m_data.get16 2).isLt
    rw [BitVec.toNat_ofNat, hmc]
    omega
  intro changes
  unfold slCompressedIn
  dsimp only
  rw [hcs, hcp, if_neg (by omega), hRlen, hiplen]
  rw [hcp] at hrest
  refine ⟨?_, _, hhdr, rfl⟩
  rw [slRebuild_sent hm hneg hhdr hrest (by omega) addr]

/-- A frame that names its conversation. -/
theorem slUncompressTcp_explicit {addr len : ℕ} (hc : buf 0 &&& NEW_C ≠ 0)
    (hid : (buf 1).toNat = cs) :
    slUncompressTcp buf addr len .compressedTcp r =
      slCompressedIn buf addr len
        { r with toss := false, last_recv := buf 1, recv_lt := fun _ => by rw [hid]; exact cs.isLt }
        (buf 0) cs 2 := by
  have hlt : ¬ (buf 1).toNat ≥ MAX_STATES := by
    rw [hid]
    exact Nat.not_le.mpr cs.isLt
  unfold slUncompressTcp
  dsimp only
  rw [if_pos hc, dif_neg hlt]
  congr 1
  exact Fin.ext hid

/-- A frame for the last conversation. -/
theorem slUncompressTcp_implicit {addr len : ℕ} (hc : buf 0 &&& NEW_C = 0) (ht : r.toss = false)
    (hid : r.last_recv.toNat = cs) :
    slUncompressTcp buf addr len .compressedTcp r =
      slCompressedIn buf addr len r (buf 0) cs 1 := by
  unfold slUncompressTcp
  dsimp only
  rw [if_neg (not_not.mpr hc), dif_neg (by rw [ht]; exact Bool.false_ne_true)]
  congr 1
  exact Fin.ext hid

/-- The mbuf in which `front` takes the place of the headers. -/
theorem packet_front {front : List (BitVec 8)} {n : ℕ} (hf : front.length ≤ n) (hn : n ≤ m.m_len) :
    ({ m with
        m_data := fun i => if h : i < front.length then front[i] else m.m_data (n - front.length + i)
        m_len := m.m_len - (n - front.length) } : Mbuf).packet =
      front ++ (m.m_data.bytes n (m.m_len - n) ++ m.rest) := by
  rw [Mbuf.packet, ← List.append_assoc]
  dsimp only
  congr 1
  rw [show m.m_len - (n - front.length) = front.length + (m.m_len - n) by omega,
    ByteMem.bytes_add]
  congr 1
  · apply List.ext_getElem
    · simp
    · intro j h₁ h₂
      rw [ByteMem.getElem_bytes, Nat.zero_add, dif_pos h₂]
  · refine List.map_congr_left fun j _ => ?_
    dsimp only
    rw [dif_neg (by omega)]
    congr 1
    omega

theorem slDeltaId_and_NEW_C {P S : ByteMem} (h : slDeltas P S = some d) :
    (slDeltaId P S d).1 &&& NEW_C = 0 ∧ ((slDeltaId P S d).1 ||| NEW_C) &&& NEW_C ≠ 0 := by
  obtain ⟨u, w, a, b, hmask⟩ := (slDeltas_cases h).2.2.2.mask
  have hbit : ∀ c, (slDeltaId P S d).1 ||| bit c NEW_C =
      mask u w a b (deltaI P S ≠ 1) (P (4 * ipHl P + 13) &&& TH_PUSH ≠ 0) c := by
    intro c
    rw [slDeltaId_eq, hmask, mask_or]
  have hbits := fun c =>
    (mask_and u w a b (deltaI P S ≠ 1) (P (4 * ipHl P + 13) &&& TH_PUSH ≠ 0) c).2.2.2.2.2.2
  constructor
  · have := (hbits false).not.mpr Bool.false_ne_true
    rw [← hbit, not_not] at this
    rwa [show (slDeltaId P S d).1 ||| bit false NEW_C = (slDeltaId P S d).1 from
      BitVec.or_zero] at this
  · have := (hbits true).mpr rfl
    rwa [← hbit] at this

/-- The checksum and the numbers behind the change mask and the conversation. -/
theorem holds_sum {sum : BitVec 16} {l : List (BitVec 8)} {cp : ℕ}
    (h : Holds buf cp ([sum.extractLsb' 8 8, sum.extractLsb' 0 8] ++ l)) :
    buf.get16 cp = sum ∧ Holds buf (cp + 2) l := by
  simp only [List.cons_append, List.nil_append, ByteMem.holds_cons] at h
  obtain ⟨h₀, h₁, h₂⟩ := h
  refine ⟨?_, h₂⟩
  apply BitVec.eq_of_toNat_eq
  have := sum.isLt
  rw [ByteMem.toNat_get16, h₀, h₁, BitVec.extractLsb'_toNat, BitVec.extractLsb'_toNat,
    Nat.shiftRight_eq_div_pow, Nat.shiftRight_zero]
  omega

/-- A saved header of the packet's shape is not one of a state that was never used. -/
theorem Linked.saved_of_shape (h : Linked s r) (hm : Sendable m)
    (hshape : slSameShape m.m_data (s.tstate cs).cs_hdr) : Saved (s.tstate cs) (r.rstate cs) := by
  refine (h.saved cs).resolve_left fun hv => hv ?_
  rw [← ByteMem.eq_of_get16_eq hshape.1 le_rfl (by omega)]
  exact hm.version

/-- The frame made of the sender's front and the data is turned back into the packet. -/
theorem received (h : Linked s r) (hm : Sendable m)
    (hmatch : slMatch m.m_data (s.tstate cs).cs_hdr)
    (hshape : slSameShape m.m_data (s.tstate cs).cs_hdr)
    (hd : slDeltas m.m_data (s.tstate cs).cs_hdr = some d)
    (hlost : ¬ UrgLost m.m_data (s.tstate cs).cs_hdr) (hneg : hostWord m.m_data 10 ≠ 0xffff)
    {frame : List (BitVec 8)}
    (hframe : frame = slFront m.m_data s cs cid (slDeltaId m.m_data (s.tstate cs).cs_hdr d) ++
      (m.m_data.bytes (hdrLen m.m_data) (m.m_len - hdrLen m.m_data) ++ m.rest))
    (junk : ByteMem) (addr : ℕ) :
    let g := slUncompressTcp (ofList frame junk) addr frame.length .compressedTcp r
    g.ret = .packet m.packet ∧ g.comp.last_recv = (s.tstate cs).cs_id ∧ g.comp.toss = false ∧
      ∃ H, (∀ j < hdrLen m.m_data, H j = clearSum m.m_data j) ∧
        g.comp.rstate = Function.update r.rstate cs { r.rstate cs with cs_hdr := H } := by
  have h5 := hm.header.hl
  have hS := h.saved_of_shape hm hshape
  obtain ⟨hC, hC'⟩ := slDeltaId_and_NEW_C hd
  have hbuf := ByteMem.holds_ofList frame junk
  have hlen := congrArg List.length hframe
  generalize ofList frame junk = buf at hbuf ⊢
  rw [hframe] at hbuf
  simp only [slFront, List.append_assoc] at hbuf
  simp only [slFront, List.length_append, List.length_cons, List.length_nil,
    ByteMem.length_bytes] at hlen
  by_cases hcid : cid = 0 ∨ s.last_xmit ≠ (s.tstate cs).cs_id
  · rw [if_pos hcid] at hbuf hlen
    simp only [List.length_cons, List.length_nil] at hlen
    obtain ⟨h₀, hbuf⟩ := ByteMem.holds_cons.mp hbuf
    obtain ⟨h₁, htail⟩ := ByteMem.holds_cons.mp hbuf
    obtain ⟨hsum, htail⟩ := holds_sum htail
    have hnat : (buf 1).toNat = cs := by rw [h₁, toNat_id h]
    obtain ⟨hret, H, hH, hcomp⟩ := slCompressedIn_sent (c := true)
      (r := { r with toss := false, last_recv := buf 1, recv_lt := fun _ => by rw [hnat]; exact cs.isLt })
      hm hS rfl hmatch hshape hd hlost hneg hsum htail (show frame.length = _ by omega) addr
    rw [slUncompressTcp_explicit (by rw [h₀]; exact hC') hnat, h₀]
    refine ⟨hret, ?_, ?_, H, hH, ?_⟩
    · exact (congrArg Slcompress.last_recv hcomp).trans h₁
    · exact congrArg Slcompress.toss hcomp
    · exact congrArg Slcompress.rstate hcomp
  · rw [if_neg hcid] at hbuf hlen
    simp only [List.length_cons, List.length_nil] at hlen
    rw [not_or, not_not] at hcid
    obtain ⟨h₀, htail⟩ := ByteMem.holds_cons.mp hbuf
    obtain ⟨hsum, htail⟩ := holds_sum htail
    have hid := toNat_id h cs
    obtain ⟨htoss, hlast⟩ := h.sync (by rw [hcid.2, hid]; exact cs.isLt)
    obtain ⟨hret, H, hH, hcomp⟩ := slCompressedIn_sent (c := false) hm hS rfl hmatch hshape hd hlost
      hneg hsum htail (show frame.length = _ by omega) addr
    rw [slUncompressTcp_implicit (by rw [h₀]; exact hC) htoss (by rw [hlast, hcid.2, hid]), h₀]
    rw [show (slDeltaId m.m_data (s.tstate cs).cs_hdr d).1 ||| bit false NEW_C =
      (slDeltaId m.m_data (s.tstate cs).cs_hdr d).1 from BitVec.or_zero] at hret hcomp
    refine ⟨hret, ?_, ?_, H, hH, ?_⟩
    · exact (congrArg Slcompress.last_recv hcomp).trans (hlast.trans hcid.2)
    · exact (congrArg Slcompress.toss hcomp).trans htoss
    · exact congrArg Slcompress.rstate hcomp

/-- A packet sent as changes arrives as it was, and both ends save its header. -/
theorem compressed_step (h : Linked s r) (hm : Sendable m)
    (hmatch : slMatch m.m_data (s.tstate cs).cs_hdr)
    (hshape : slSameShape m.m_data (s.tstate cs).cs_hdr)
    (hd : slDeltas m.m_data (s.tstate cs).cs_hdr = some d)
    (hlost : ¬ UrgLost m.m_data (s.tstate cs).cs_hdr) (hneg : hostWord m.m_data 10 ≠ 0xffff)
    (junk : ByteMem) (addr : ℕ) (cid : Int) :
    ∃ m' s',
      slCompressed m s cs cid (slDeltaId m.m_data (s.tstate cs).cs_hdr d) =
        some (.compressedTcp, m', s') ∧
      (slUncompressTcp (ofList m'.packet junk) addr m'.packet.length .compressedTcp r).ret =
        .packet m.packet ∧
      Linked s'
        (slUncompressTcp (ofList m'.packet junk) addr m'.packet.length .compressedTcp r).comp := by
  have hw : MAX_HDR = 108 := rfl
  have hmax := hm.header.len
  have hle := hm.header.le_hdrLen
  have h5 := hm.header.hl
  have h15 := length_slDeltaId_le hd
  have hfront : (slFront m.m_data s cs cid
      (slDeltaId m.m_data (s.tstate cs).cs_hdr d)).length ≤ hdrLen m.m_data := by
    simp only [slFront, List.length_append, List.length_cons, List.length_nil]
    split <;> simp only [List.length_cons, List.length_nil] <;> omega
  unfold slCompressed
  dsimp only
  rw [if_neg (by omega)]
  refine ⟨_, _, rfl, ?_⟩
  obtain ⟨hret, hlast, htoss, H, hH, hr⟩ := received h hm hmatch hshape hd hlost hneg
    (packet_front hfront hm.hdr) junk addr
  refine ⟨hret, h.save rfl rfl hr hlast htoss ?_⟩
  have hS := h.saved_of_shape hm hshape
  obtain ⟨-, hhl, -⟩ := eq_of_slSameShape hm.header hS.header hmatch hshape
  refine hm.header.saved hH rfl rfl ?_
  rw [hS.hlen, hhl]

/-- A clear packet arrives as it was sent, and the two ends stay linked. -/
theorem slLine_step {x : Sent} (h : Linked s r) (hp : TcpIp x.m.packet) (hc : Clear s x.m) :
    ∃ s' r', slLine s r x = some (s', r', some x.m.packet) ∧ Linked s' r' := by
  obtain ⟨s', hs, hip | ⟨he, cs, hcs⟩⟩ := slCompressTcp_cases h.states x.m x.compress_cid
  · refine ⟨s', r, ?_, h.reorder hs⟩
    unfold slLine
    rw [hip]
  have hm := sendable_of_eligible hp he hc
  have h' := h.reorder hs
  rcases hcs with hun | ⟨d, hmatch, hshape, hd, hcomp⟩
  · obtain ⟨m', s'', hsend, hret, hl⟩ := uncompressed_step h' hm cs x.junk x.addr
    refine ⟨s'', _, ?_, hl⟩
    unfold slLine
    rw [hun, hsend]
    dsimp only
    rw [hret]
  · obtain ⟨hneg, hlost⟩ := hc.saved he cs hmatch hshape (by rw [hd]; exact Option.some_ne_none d)
    rw [← hs.hdr cs] at hmatch hshape hd hlost hcomp
    obtain ⟨m', s'', hsend, hret, hl⟩ :=
      compressed_step h' hm hmatch hshape hd hlost hneg x.junk x.addr x.compress_cid
    refine ⟨s'', _, ?_, hl⟩
    unfold slLine
    rw [hcomp, hsend]
    dsimp only
    rw [hret]

/-! ## A run -/

theorem linked_init : Linked slCompressInit slCompressInit where
  states := ⟨[15, 14, 13, 12, 11, 10, 9, 8, 7, 6, 5, 4, 3, 2, 1, 0],
    ⟨by decide, rfl, by decide⟩, rfl⟩
  id _ := rfl
  saved _ := Or.inl (by change (0 : BitVec 8).toNat / 16 ≠ 4; decide)
  sync h := absurd h (by decide)

/-- The packets of a run from linked states arrive as they were sent. -/
theorem slRun_linked {xs : List Sent} (h : Linked s r) (hp : ∀ x ∈ xs, TcpIp x.m.packet)
    (hc : RunClear s r xs) : slRun s r xs = some (xs.map fun x => some x.m.packet) := by
  induction xs generalizing s r with
  | nil => rfl
  | cons x xs ih =>
    obtain ⟨hx, hxs⟩ := hc
    obtain ⟨s', r', hline, hl⟩ := slLine_step h (hp x (List.mem_cons_self ..)) hx
    rw [slRun, hline]
    dsimp only
    rw [ih hl (fun y hy => hp y (List.mem_cons_of_mem _ hy)) (hxs s' r' _ hline)]
    rfl

/-- Every run of clear packets from the initial states delivers each packet as it was sent. -/
theorem slRun_delivers (xs : List Sent) (hp : ∀ x ∈ xs, TcpIp x.m.packet)
    (hc : RunClear slCompressInit slCompressInit xs) :
    slRun slCompressInit slCompressInit xs = some (xs.map fun x => some x.m.packet) :=
  slRun_linked linked_init hp hc

/-- A segment of one byte: the low bytes of its id, header checksum and sequence number, and its
flags. -/
def segment (id sum seq flags : BitVec 8) : List (BitVec 8) :=
  [0x45, 0, 0, 41, 0, id, 0, 0, 64, 6, 0x66, sum, 10, 0, 0, 1, 10, 0, 0, 2,
    3, 0xe8, 0, 23, 0, 0, 0, seq, 0, 0, 0, 1, 0x50, flags, 2, 0, 0xab, 0xcd, 0, 9, 7]

def send (p : List (BitVec 8)) : Sent := ⟨⟨ofList p fun _ => 0, p.length, []⟩, 1, 0, fun _ => 0⟩

/-- Two segments, the second sent as changes to the first. -/
theorem slRun_delivers_two :
    slRun slCompressInit slCompressInit
        [send (segment 1 0xcc 1 0x10), send (segment 2 0xcb 2 0x18)] =
      some [some (segment 1 0xcc 1 0x10), some (segment 2 0xcb 2 0x18)] := by
  refine slRun_delivers _ ?_ ⟨?_, fun s r p h => ⟨?_, fun _ _ _ _ => trivial⟩⟩
  · decide +kernel
  · decide +kernel
  · have hs : s = ((slLine slCompressInit slCompressInit (send (segment 1 0xcc 1 0x10))).get
        (by decide +kernel)).1 := by
      rw [Option.get_of_eq_some _ h]
    rw [hs]
    decide +kernel

/-- After an urgent segment, one that moves on by what that one carried is handed up as urgent. -/
theorem slRun_urgLost :
    let xs := [send (segment 1 0xcc 1 0x30), send (segment 2 0xcb 2 0x10)]
    (∀ x ∈ xs, TcpIp x.m.packet) ∧
      slRun slCompressInit slCompressInit xs =
        some [some (segment 1 0xcc 1 0x30), some (segment 2 0xcb 2 0x30)] ∧
      slRun slCompressInit slCompressInit xs ≠ some (xs.map fun x => some x.m.packet) := by
  decide +kernel

end Slip
