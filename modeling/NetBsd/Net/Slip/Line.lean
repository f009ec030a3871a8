import Mathlib
import NetBsd.Net.Slip.Framing

/-!
# A serial line

Packets that one end frames are handed up at the other, in order, while the characters of the ring
are delivered one at a time and as long as `ipintrq` has room. Whatever is delivered, the receiver
writes in its buffer only, and it begins every frame in the same state. This is for a receiver
without header compression.

## Main definitions

* `Got`: what the receiver holds of a frame
* `Frames`: characters that are the frames of some packets
* `Line`, `Reached`: two ends, and the states of their runs
* `Fed`: the states of a receiver with any input

## Main results

* `Reached.inv`: what was sent is what was handed up, and what is under way
* `Alike.slinput`: receivers that hold the same of a frame make the same of a character
* `line_delivers`: the behaviour of a line
-/

namespace SlipLine

open Slip TtyRing

variable {h h' h₁ h₂ : Host} {inp : Input} {c : Byte} {e : Bool} {got p s s' : List Byte}
  {ps : List (List Byte)} {rb : Ringb}

/-! ## The receiver -/

/-- The receiver holds the characters `got` of a frame; the flag says that a `FRAME_ESCAPE` came
behind them. -/
structure Got (h : Host) (got : List Byte) (e : Bool) : Prop where
  room : slMax ≤ h.sc.scEp
  buf : h.sc.scBuf = h.sc.scEp - slMax
  mp : h.sc.scMp = h.sc.scBuf + got.length
  holds : h.mem.Holds h.sc.scBuf got
  escape : h.sc.scEscape = e
  error : h.sc.scError = false

theorem newpack_buf (sc : Softc) : (newpack sc).scBuf = (newpack sc).scEp - slMax := by
  simp only [newpack]

theorem newpack_mp (sc : Softc) : (newpack sc).scMp = (newpack sc).scBuf := by
  simp only [newpack]

/-- The receiver at the beginning of a frame. -/
theorem Got.newpack {sc : Softc} (hsc : h.sc = SlipLine.newpack sc) (hroom : slMax ≤ sc.scEp)
    (herr : sc.scError = false) : Got h [] false := by
  refine ⟨?_, ?_, ?_, ByteMem.Holds.nil _ _, ?_, ?_⟩
  · simpa only [hsc, SlipLine.newpack] using hroom
  · rw [hsc, newpack_buf]
  · rw [hsc, newpack_mp, List.length_nil, Nat.add_zero]
  · simp only [hsc, SlipLine.newpack]
  · simpa only [hsc, SlipLine.newpack] using herr

/-- A character is stored behind those of the frame. -/
theorem Got.store (hg : Got h got e) (hlen : got.length < slMax) (c : Byte) :
    Got (slStore h c) (got ++ [c]) false ∧ (slStore h c).up = h.up ∧
      (slStore h c).ifqLen = h.ifqLen := by
  obtain ⟨hroom, hbuf, hmp, hholds, hesc, herr⟩ := hg
  have hlt : h.sc.scMp < h.sc.scEp := by omega
  rw [slStore, if_pos hlt]
  refine ⟨⟨hroom, hbuf, ?_, ?_, rfl, herr⟩, rfl, rfl⟩
  · rw [List.length_append]
    change h.sc.scMp + 1 = h.sc.scBuf + (got.length + 1)
    omega
  · intro j hj
    rw [List.length_append, List.length_singleton] at hj
    change h.mem.put8 h.sc.scMp c (h.sc.scBuf + j) = _
    by_cases hend : j = got.length
    · subst hend
      rw [← hmp, ByteMem.put8_same, List.getElem_concat_length rfl]
    · rw [ByteMem.put8_of_ne (by omega), List.getElem_append_left (by omega)]
      exact hholds j (by omega)

/-- The input of a character without an error, with memory for mbufs. -/
def char (c : Byte) (cl : ℕ) : Input := ⟨c, false, true, some cl⟩

variable {cl : ℕ}

/-- A character that stands for itself. -/
theorem slinput_plain (hg : Got h got false) (hc : special c = false) :
    slinput h (char c cl) = some (slStore h c) := by
  rw [special, decide_eq_false_iff_not, not_or] at hc
  have hesc := hg.escape
  simp only [slinput, char, hesc, hc.1, hc.2, Bool.false_eq_true, if_false]
  split_ifs <;> rfl

variable (cl) in
theorem slinput_escape (hg : Got h got e) : ∃ h', slinput h (char frameEscape cl) = some h' ∧
    Got h' got true ∧ h'.up = h.up ∧ h'.ifqLen = h.ifqLen :=
  ⟨_, rfl, ⟨hg.room, hg.buf, hg.mp, hg.holds, rfl, hg.error⟩, rfl, rfl⟩

/-- A character behind a `FRAME_ESCAPE`. -/
theorem slinput_trans (hg : Got h got true) (hc : special c = true) :
    slinput h (char (if c = frameEscape then transFrameEscape else transFrameEnd) cl) =
      some (slStore h c) := by
  have hesc := hg.escape
  rw [special, decide_eq_true_iff] at hc
  have hne : transFrameEnd ≠ transFrameEscape := by decide
  obtain rfl | rfl := hc
  · simp only [slinput, char, hesc, if_true]
    rfl
  · have hne' : frameEnd ≠ frameEscape := by decide
    simp only [slinput, char, hesc, hne, hne', if_true, if_false]
    rfl

theorem frameEnd_input (hin : inp.error = false) (hc : inp.c = frameEnd) :
    slinput h inp = slEnd h inp := by
  have h₁ : frameEnd ≠ transFrameEscape := by decide
  have h₂ : frameEnd ≠ transFrameEnd := by decide
  have h₃ : frameEnd ≠ frameEscape := by decide
  simp only [slinput, hin, hc, h₁, h₂, h₃, if_true, if_false]
  rfl

variable (cl) in
/-- A `FRAME_END` behind less than three characters. -/
theorem slinput_short (hg : Got h [] e) : ∃ h', slinput h (char frameEnd cl) = some h' ∧
    Got h' [] false ∧ h'.up = h.up ∧ h'.ifqLen = h.ifqLen := by
  have hlen : h.sc.scMp - h.sc.scBuf < 3 := by
    have hmp := hg.mp
    rw [List.length_nil] at hmp
    omega
  refine ⟨{ h with sc := newpack h.sc }, ?_, Got.newpack rfl hg.room hg.error, rfl, rfl⟩
  rw [frameEnd_input rfl rfl, slEnd]
  simp only [hg.error, hlen, if_true, Bool.false_eq_true, if_false]

/-- A packet of version 4 of IP. -/
structure IsPacket (p : List Byte) : Prop where
  ge : 3 ≤ p.length
  le : p.length ≤ slMtu
  version : p.headD 0 &&& 0xf0 = 0x40

variable (cl) in
/-- A `FRAME_END` hands the packet up. -/
theorem slinput_end (hg : Got h p e) (hp : IsPacket p) (hq : h.ifqLen < ifqMaxlen) :
    ∃ h', slinput h (char frameEnd cl) = some h' ∧ Got h' [] false ∧ h'.up = h.up ++ [p] := by
  have hlen : h.sc.scMp - h.sc.scBuf = p.length := by
    have hmp := hg.mp
    omega
  have hshort : ¬ p.length < 3 := by
    have hge := hp.ge
    omega
  have hbytes : h.mem.bytes h.sc.scBuf p.length = p := hg.holds.bytes_eq
  have hversion : h.mem h.sc.scBuf &&& 0xf0 = 0x40 := by
    have hfirst := hg.holds 0 (by omega)
    have hhead : p.headD 0 = p[0] := by
      cases p with
      | nil => exact absurd hp.ge (by decide)
      | cons c p => rfl
    rw [Nat.add_zero] at hfirst
    rw [hfirst, ← hhead]
    exact hp.version
  rw [frameEnd_input rfl rfl, slEnd]
  simp only [hg.error, hlen, hshort, hversion, hbytes, Bool.false_eq_true, if_true, if_false]
  rw [slUp, slBtom]
  have hfull : ¬ h.ifqLen ≥ ifqMaxlen := Nat.not_le.mpr hq
  by_cases hbig : p.length ≥ mhlen
  · simp only [char, Bool.not_true, Bool.false_eq_true, if_false, hbig, if_true, Option.map_some,
      hfull]
    refine ⟨_, rfl, Got.newpack rfl ?_ hg.error, rfl⟩
    change slMax ≤ cl + slBufSize
    have hsize : slBufSize = slMax + bufOffset := rfl
    omega
  · simp only [char, Bool.not_true, Bool.false_eq_true, if_false, hbig, hfull]
    exact ⟨_, rfl, Got.newpack rfl hg.room hg.error, rfl⟩

/-! ## Two ends -/

/-- The frames of some packets, with a `FRAME_END` here and there between them. -/
inductive Frames : List Byte → List (List Byte) → Prop where
  | nil : Frames [] []
  | idle {s : List Byte} {ps : List (List Byte)} (hs : Frames s ps) : Frames (frameEnd :: s) ps
  | packet {p s : List Byte} {ps : List (List Byte)} (hp : IsPacket p) (hs : Frames s ps) :
      Frames (frame p ++ s) (p :: ps)

theorem Frames.append {ps' : List (List Byte)} (hs : Frames s ps) (hs' : Frames s' ps') :
    Frames (s ++ s') (ps ++ ps') := by
  induction hs with
  | nil => exact hs'
  | idle _ ih => exact .idle ih
  | packet hp _ ih =>
    rw [List.append_assoc]
    exact .packet hp ih

/-- An interface that was opened, with the flags as they were left. -/
structure Opened (h : Host) : Prop where
  room : slMax ≤ h.sc.scEp
  buf : h.sc.scBuf = h.sc.scEp - slMax
  mp : h.sc.scMp = h.sc.scBuf

/-- What is under way: the characters `s` bring the packets `ps` to the receiver. -/
inductive Coming : Host → List Byte → List (List Byte) → Prop where
  | opened {h : Host} {s : List Byte} {ps : List (List Byte)} (hh : Opened h)
      (hs : s = [] ∧ ps = [] ∨ ∃ s', s = frameEnd :: s' ∧ Frames s' ps) : Coming h s ps
  | fresh {h : Host} {s : List Byte} {ps : List (List Byte)} (hh : Got h [] false)
      (hs : Frames s ps) : Coming h s ps
  | mid {h : Host} {got q s : List Byte} {ps : List (List Byte)} (hh : Got h got false)
      (hp : IsPacket (got ++ q)) (hs : Frames s ps) :
      Coming h (q.flatMap escape ++ frameEnd :: s) ((got ++ q) :: ps)
  | escaped {h : Host} {got q s : List Byte} {c : Byte} {ps : List (List Byte)}
      (hh : Got h got true) (hc : special c = true) (hp : IsPacket (got ++ c :: q))
      (hs : Frames s ps) :
      Coming h ((if c = frameEscape then transFrameEscape else transFrameEnd) ::
        (q.flatMap escape ++ frameEnd :: s)) ((got ++ c :: q) :: ps)

/-- A character was received: some packets are up, and the others are still to come. -/
def Received (h : Host) (s : List Byte) (ps : List (List Byte)) (o : Option Host) : Prop :=
  ∃ h' ps₁ ps₂, o = some h' ∧ ps = ps₁ ++ ps₂ ∧ h'.up = h.up ++ ps₁ ∧ Coming h' s ps₂

theorem slMtu_lt : slMtu < slMax := by decide

/-- A character of a packet. -/
theorem mid_received {q : List Byte} (hh : Got h got false) (hp : IsPacket (got ++ q))
    (hs : Frames s' ps) (hq : c = frameEnd → h.ifqLen < ifqMaxlen)
    (heq : q.flatMap escape ++ frameEnd :: s' = c :: s) :
    Received h s ((got ++ q) :: ps) (slinput h (char c cl)) := by
  have hlen : got.length + q.length < slMax := by
    have hle := hp.le
    have hmtu := slMtu_lt
    rw [List.length_append] at hle
    omega
  cases q with
  | nil =>
    obtain ⟨rfl, rfl⟩ := List.cons.inj heq
    rw [List.append_nil] at hp ⊢
    obtain ⟨h', hin, hg, hup⟩ := slinput_end cl hh hp (hq rfl)
    exact ⟨h', [got], ps, hin, rfl, hup, .fresh hg hs⟩
  | cons d q =>
    rw [List.length_cons] at hlen
    rw [List.flatMap_cons, List.append_assoc] at heq
    by_cases hd : special d = true
    · rw [escape_special hd] at heq
      obtain ⟨rfl, rfl⟩ := List.cons.inj heq
      obtain ⟨h', hin, hg, hup, -⟩ := slinput_escape cl hh
      exact ⟨h', [], _, hin, rfl, by rw [hup, List.append_nil], .escaped hg hd hp hs⟩
    · have hplain := eq_false_of_ne_true hd
      rw [escape_plain hplain] at heq
      obtain ⟨rfl, rfl⟩ := List.cons.inj heq
      obtain ⟨hg, hup, -⟩ := hh.store (by omega) d
      refine ⟨_, [], _, slinput_plain hh hplain, rfl, by rw [hup, List.append_nil], ?_⟩
      rw [List.append_cons] at hp
      rw [List.append_cons got]
      exact .mid hg hp hs

variable (cl) in
theorem Opened.end_received (hh : Opened h) :
    ∃ h', slinput h (char frameEnd cl) = some h' ∧ Got h' [] false ∧ h'.up = h.up := by
  have hlen : h.sc.scMp - h.sc.scBuf < 3 := by
    have hmp := hh.mp
    omega
  rw [frameEnd_input rfl rfl, slEnd]
  by_cases herr : h.sc.scError = true
  · simp only [herr, if_true]
    exact ⟨_, rfl, Got.newpack rfl hh.room rfl, rfl⟩
  · simp only [herr, hlen, if_true, Bool.false_eq_true, if_false]
    exact ⟨_, rfl, Got.newpack rfl hh.room (eq_false_of_ne_true herr), rfl⟩

variable (cl) in
/-- Whatever is under way, the next character is received as it was meant. -/
theorem Coming.received (hc : Coming h (c :: s) ps) (hq : c = frameEnd → h.ifqLen < ifqMaxlen) :
    Received h s ps (slinput h (char c cl)) := by
  generalize hstream : c :: s = stream at hc
  cases hc with
  | opened hh hs =>
    obtain ⟨rfl, -⟩ | ⟨s', rfl, hs⟩ := hs
    · exact nomatch hstream
    · obtain ⟨rfl, rfl⟩ := List.cons.inj hstream
      obtain ⟨h', hin, hg, hup⟩ := hh.end_received cl
      exact ⟨h', [], ps, hin, rfl, by rw [hup, List.append_nil], .fresh hg hs⟩
  | fresh hh hs =>
    cases hs with
    | nil => exact nomatch hstream
    | idle hs =>
      obtain ⟨rfl, rfl⟩ := List.cons.inj hstream
      obtain ⟨h', hin, hg, hup, -⟩ := slinput_short cl hh
      exact ⟨h', [], ps, hin, rfl, by rw [hup, List.append_nil], .fresh hg hs⟩
    | packet hp hs =>
      rw [frame, List.append_assoc] at hstream
      exact mid_received hh hp hs hq hstream.symm
  | mid hh hp hs => exact mid_received hh hp hs hq hstream.symm
  | @escaped got q s' d ps hh hd hp hs =>
    obtain ⟨rfl, rfl⟩ := List.cons.inj hstream
    have hlen : got.length < slMax := by
      have hle := hp.le
      have hmtu := slMtu_lt
      rw [List.length_append] at hle
      omega
    obtain ⟨hg, hup, -⟩ := hh.store hlen d
    refine ⟨_, [], _, slinput_trans hh hd, rfl, by rw [hup, List.append_nil], ?_⟩
    rw [List.append_cons] at hp
    rw [List.append_cons got]
    exact .mid hg hp hs

/-- A packet is sent behind what is under way. -/
theorem Coming.sent (hc : Coming h s ps) (hp : IsPacket p) :
    Coming h (s ++ (if s = [] then [frameEnd] else []) ++ frame p) (ps ++ [p]) := by
  have hone : Frames (frame p) [p] := by
    rw [← List.append_nil (frame p)]
    exact .packet hp .nil
  cases hc with
  | opened hh hs =>
    refine .opened hh (Or.inr ?_)
    obtain ⟨rfl, rfl⟩ | ⟨s', rfl, hs⟩ := hs
    · exact ⟨frame p, rfl, hone⟩
    · refine ⟨s' ++ frame p, ?_, hs.append hone⟩
      rw [if_neg (List.cons_ne_nil _ _), List.append_nil, List.cons_append]
  | fresh hh hs =>
    apply Coming.fresh hh
    split_ifs with hnil
    · rw [List.append_assoc]
      exact hs.append (.idle hone)
    · rw [List.append_nil]
      exact hs.append hone
  | mid hh hgq hs =>
    rw [if_neg (by simp), List.append_nil, List.append_assoc, List.cons_append]
    exact .mid hh hgq (hs.append hone)
  | escaped hh hd hgq hs =>
    rw [if_neg (List.cons_ne_nil _ _), List.append_nil, List.cons_append, List.append_assoc,
      List.cons_append]
    exact .escaped hh hd hgq (hs.append hone)

/-- Nothing is under way in an empty ring. -/
theorem Coming.nil (hc : Coming h [] ps) : ps = [] := by
  generalize hstream : ([] : List Byte) = stream at hc
  cases hc with
  | opened hh hs =>
    obtain ⟨-, rfl⟩ | ⟨s', rfl, -⟩ := hs
    · rfl
    · cases hstream
  | fresh hh hs =>
    cases hs with
    | nil => rfl
    | idle hs => cases hstream
    | packet hp hs => simp [frame] at hstream
  | mid hh hp hs => simp at hstream
  | escaped hh hd hp hs => cases hstream

/-- The output ring of the sender, the receiver, and the packets that were sent. -/
structure Line where
  rb : Ringb
  host : Host
  sent : List (List Byte)

/-- The states of a line: the interface is opened, packets are sent when there is room for them,
the characters are delivered in order, and packets leave `ipintrq`. -/
inductive Reached : Line → Prop where
  | init (sc : Softc) (addr : ℕ) (mem : ByteMem) (n : ℕ) {rb : Ringb} (hrb : bytes rb = []) :
      Reached ⟨rb, ⟨slinit sc addr, mem, n, []⟩, []⟩
  | start {l : Line} (hl : Reached l) {m : List (List Byte)} (hroom : hasRoom l.rb = true)
      (hm : IsPacket m.flatten) :
      Reached { l with rb := slPacket l.rb m, sent := l.sent ++ [m.flatten] }
  | deliver {l : Line} (hl : Reached l) {c : Byte} {rb : Ringb} (cl : ℕ) {host : Host}
      (hget : getc l.rb = ((c.toNat : ℤ), rb))
      (hq : c = frameEnd → l.host.ifqLen < ifqMaxlen)
      (hin : slinput l.host (char c cl) = some host) : Reached { l with rb, host }
  | ipintr {l : Line} (hl : Reached l) {n : ℕ} (hn : n ≤ l.host.ifqLen) :
      Reached { l with host := { l.host with ifqLen := n } }

/-- What was sent is up or under way. -/
def Line.Inv (l : Line) : Prop :=
  ∃ ps, l.sent = l.host.up ++ ps ∧ Coming l.host (content l.rb) ps

/-- The first character of a ring. -/
theorem content_getc {rb' : Ringb} (h : getc rb = ((c.toNat : ℤ), rb')) :
    content rb = c :: content rb' := by
  have hget := getc_deque rb
  rw [h] at hget
  rw [content, content]
  cases hb : bytes rb with
  | nil =>
    rw [hb] at hget
    have hfst := congrArg Prod.fst hget
    change (c.toNat : ℤ) = -1 at hfst
    omega
  | cons b l =>
    rw [hb] at hget
    obtain ⟨hfst, hsnd⟩ := Prod.mk.inj hget
    have hc : c.toNat = b.toNat := Int.ofNat.inj hfst
    rw [hsnd, List.map_cons]
    congr 1
    exact (BitVec.eq_of_toNat_eq hc).symm

theorem Opened.slinit (sc : Softc) (addr : ℕ) (mem : ByteMem) (n : ℕ) (up : List (List Byte)) :
    Opened ⟨SlipLine.slinit sc addr, mem, n, up⟩ := by
  refine ⟨?_, rfl, rfl⟩
  have hsize : slBufSize = slMax + bufOffset := rfl
  change slMax ≤ addr + slBufSize
  omega

theorem Got.ipintr (hg : Got h got e) (n : ℕ) : Got { h with ifqLen := n } got e :=
  ⟨hg.room, hg.buf, hg.mp, hg.holds, hg.escape, hg.error⟩

theorem Coming.ipintr (hc : Coming h s ps) (n : ℕ) : Coming { h with ifqLen := n } s ps := by
  cases hc with
  | opened hh hs => exact .opened ⟨hh.room, hh.buf, hh.mp⟩ hs
  | fresh hh hs => exact .fresh (hh.ipintr n) hs
  | mid hh hp hs => exact .mid (hh.ipintr n) hp hs
  | escaped hh hd hp hs => exact .escaped (hh.ipintr n) hd hp hs

theorem Reached.inv {l : Line} (hl : Reached l) : l.Inv := by
  induction hl with
  | init sc addr mem n hrb =>
    refine ⟨[], rfl, ?_⟩
    rw [content, hrb]
    exact .opened (Opened.slinit sc addr mem n []) (Or.inl ⟨rfl, rfl⟩)
  | @start l _ m hroom hm ih =>
    obtain ⟨ps, hsent, hc⟩ := ih
    refine ⟨ps ++ [m.flatten], ?_, ?_⟩
    · rw [← List.append_assoc, ← hsent]
    · rw [content_slPacket hroom hm.le]
      exact hc.sent hm
  | deliver _ cl hget hq hin ih =>
    obtain ⟨ps, hsent, hc⟩ := ih
    rw [content_getc hget] at hc
    obtain ⟨h', ps₁, ps₂, hin', hps, hup, hc'⟩ := hc.received cl hq
    obtain rfl := Option.some.inj (hin.symm.trans hin')
    refine ⟨ps₂, ?_, hc'⟩
    rw [hsent, hps, hup, List.append_assoc]
  | ipintr _ _ ih =>
    obtain ⟨ps, hsent, hc⟩ := ih
    exact ⟨ps, hsent, hc.ipintr _⟩

/-! ## Any input -/

/-- An interface whose pointers are in its buffer, without header compression. -/
structure Sized (h : Host) : Prop where
  room : slMax ≤ h.sc.scEp
  buf : h.sc.scBuf = h.sc.scEp - slMax
  ge : h.sc.scBuf ≤ h.sc.scMp
  le : h.sc.scMp ≤ h.sc.scEp
  compress : h.sc.scCompress = false
  autocomp : h.sc.scAutocomp = false

/-- Two interfaces that hold the same of a frame. -/
structure Alike (h₁ h₂ : Host) : Prop where
  left : Sized h₁
  right : Sized h₂
  len : h₁.sc.scMp - h₁.sc.scBuf = h₂.sc.scMp - h₂.sc.scBuf
  holds : ∀ i < h₁.sc.scMp - h₁.sc.scBuf,
    h₁.mem (h₁.sc.scBuf + i) = h₂.mem (h₂.sc.scBuf + i)
  escape : h₁.sc.scEscape = h₂.sc.scEscape
  error : h₁.sc.scError = h₂.sc.scError

theorem Sized.reset (hh : Sized h) {sc : Softc} (mem : ByteMem) (n : ℕ) (up : List (List Byte))
    (hep : slMax ≤ sc.scEp) (hcompress : sc.scCompress = h.sc.scCompress)
    (hauto : sc.scAutocomp = h.sc.scAutocomp) : Sized ⟨newpack sc, mem, n, up⟩ := by
  refine ⟨?_, newpack_buf sc, Nat.le_of_eq (newpack_mp sc).symm, ?_, ?_, ?_⟩
  · simpa only [newpack] using hep
  · simp only [newpack_mp, newpack_buf, Nat.sub_le]
  · simpa only [newpack] using hcompress.trans hh.compress
  · simpa only [newpack] using hauto.trans hh.autocomp

/-- Interfaces at the beginning of a frame. -/
theorem Alike.reset {sc₁ sc₂ : Softc} {mem₁ mem₂ : ByteMem} {n₁ n₂ : ℕ}
    {up₁ up₂ : List (List Byte)} (h₁ : Sized ⟨newpack sc₁, mem₁, n₁, up₁⟩)
    (h₂ : Sized ⟨newpack sc₂, mem₂, n₂, up₂⟩) (herr : sc₁.scError = sc₂.scError) :
    Alike ⟨newpack sc₁, mem₁, n₁, up₁⟩ ⟨newpack sc₂, mem₂, n₂, up₂⟩ := by
  refine ⟨h₁, h₂, ?_, ?_, ?_, ?_⟩
  · simp only [newpack_mp, Nat.sub_self]
  · intro i hi
    simp only [newpack_mp, Nat.sub_self] at hi
    exact absurd hi (Nat.not_lt_zero i)
  · simp only [newpack]
  · simpa only [newpack] using herr

/-- What a character stored leaves of the memory. -/
theorem Sized.store (hh : Sized h) (c : Byte) : Sized (slStore h c) ∧
    ∀ i, (slStore h c).mem i ≠ h.mem i → h.sc.scBuf ≤ i ∧ i < h.sc.scEp := by
  obtain ⟨hroom, hbuf, hge, hle, hcompress, hauto⟩ := id hh
  rw [slStore]
  split_ifs with hlt
  · refine ⟨⟨hroom, hbuf, Nat.le_succ_of_le hge, hlt, hcompress, hauto⟩, ?_⟩
    intro i hi
    by_cases heq : i = h.sc.scMp
    · exact ⟨heq ▸ hge, heq ▸ hlt⟩
    · exact absurd (ByteMem.put8_of_ne heq c) hi
  · exact ⟨hh.reset _ _ _ hroom rfl rfl, fun i hi => absurd rfl hi⟩

theorem Alike.store (hh : Alike h₁ h₂) (c : Byte) : Alike (slStore h₁ c) (slStore h₂ c) := by
  obtain ⟨hl, hr, hlen, hholds, -, herr⟩ := id hh
  have hl' := (hl.store c).1
  have hr' := (hr.store c).1
  obtain ⟨hroom₁, hbuf₁, hge₁, hle₁, -, -⟩ := hl
  obtain ⟨hroom₂, hbuf₂, hge₂, hle₂, -, -⟩ := hr
  by_cases hlt : h₁.sc.scMp < h₁.sc.scEp
  · have hlt' : h₂.sc.scMp < h₂.sc.scEp := by omega
    rw [slStore, if_pos hlt] at hl' ⊢
    rw [slStore, if_pos hlt'] at hr' ⊢
    refine ⟨hl', hr', ?_, ?_, rfl, herr⟩
    · change h₁.sc.scMp + 1 - h₁.sc.scBuf = h₂.sc.scMp + 1 - h₂.sc.scBuf
      omega
    · intro i hi
      change h₁.mem.put8 h₁.sc.scMp c (h₁.sc.scBuf + i) = h₂.mem.put8 h₂.sc.scMp c (h₂.sc.scBuf + i)
      change i < h₁.sc.scMp + 1 - h₁.sc.scBuf at hi
      by_cases hend : i = h₁.sc.scMp - h₁.sc.scBuf
      · rw [show h₁.sc.scBuf + i = h₁.sc.scMp by omega,
          show h₂.sc.scBuf + i = h₂.sc.scMp by omega, ByteMem.put8_same, ByteMem.put8_same]
      · rw [ByteMem.put8_of_ne (by omega), ByteMem.put8_of_ne (by omega)]
        exact hholds i (by omega)
  · have hlt' : ¬ h₂.sc.scMp < h₂.sc.scEp := by omega
    rw [slStore, if_neg hlt] at hl' ⊢
    rw [slStore, if_neg hlt'] at hr' ⊢
    exact Alike.reset hl' hr' rfl

/-- A packet of another version, without header compression: it is dropped. -/
def slDrop (h : Host) : Host :=
  { h with
    sc := newpack h.sc
    mem := if h.mem h.sc.scBuf &&& 0x80 ≠ 0 then h.mem
      else if h.mem h.sc.scBuf &&& 0xf0 = 0x70 then
        h.mem.put8 h.sc.scBuf (h.mem h.sc.scBuf &&& 0x4f)
      else h.mem }

theorem slDrop_up (h : Host) : (slDrop h).up = h.up := by
  simp only [slDrop]

/-- A `FRAME_END` without header compression. -/
theorem Sized.slEnd_eq (hh : Sized h) (inp : Input) : slEnd h inp = some (
    if h.sc.scError then { h with sc := newpack { h.sc with scError := false } }
    else if h.sc.scMp - h.sc.scBuf < 3 then { h with sc := newpack h.sc }
    else if h.mem h.sc.scBuf &&& 0xf0 = 0x40 then
      slUp h inp (h.mem.bytes h.sc.scBuf (h.sc.scMp - h.sc.scBuf))
    else slDrop h) := by
  rw [slEnd]
  by_cases herr : h.sc.scError = true
  · rw [if_pos herr, if_pos herr]
  rw [if_neg herr, if_neg herr]
  by_cases hlen : h.sc.scMp - h.sc.scBuf < 3
  · rw [if_pos hlen, if_pos hlen]
  rw [if_neg hlen, if_neg hlen]
  by_cases hversion : h.mem h.sc.scBuf &&& 0xf0 = 0x40
  · rw [if_pos hversion, if_pos hversion]
  rw [if_neg hversion, if_neg hversion, slDrop]
  dsimp only
  -- with both flags off the type of the packet only decides whether its version is masked
  by_cases hcomp : h.mem h.sc.scBuf &&& 0x80 ≠ 0
  · simp only [if_pos hcomp, hh.compress, hh.autocomp, false_and, reduceCtorEq,
      Bool.false_eq_true, if_false]
  · by_cases hun : h.mem h.sc.scBuf &&& 0xf0 = 0x70
    · simp only [if_neg hcomp, if_pos hun, hh.compress, hh.autocomp, if_true, false_and,
        Bool.false_eq_true, if_false]
    · simp only [if_neg hcomp, if_neg hun, hh.compress, hh.autocomp, reduceCtorEq, false_and,
        Bool.false_eq_true, if_false]

theorem slBtom_eq {sc sc' : Softc} {len : ℕ} (h : slBtom inp sc len = some sc')
    (hroom : slMax ≤ sc.scEp) : ∃ ep, slMax ≤ ep ∧ sc' = { sc with scEp := ep } := by
  rw [slBtom] at h
  split_ifs at h with hget hbig
  · obtain ⟨cl, -, hsc⟩ := Option.map_eq_some_iff.mp h
    refine ⟨cl + slBufSize, ?_, hsc.symm⟩
    have hsize : slBufSize = slMax + bufOffset := rfl
    omega
  · exact ⟨sc.scEp, hroom, (Option.some.inj h).symm⟩

/-- A packet handed up, or lost for want of an mbuf or of room in `ipintrq`. -/
theorem Sized.up (hh : Sized h) (inp : Input) (p : List Byte) :
    Sized (slUp h inp p) ∧ (slUp h inp p).mem = h.mem := by
  rw [slUp]
  cases hb : slBtom inp h.sc p.length with
  | none => exact ⟨hh.reset _ _ _ hh.room rfl rfl, rfl⟩
  | some sc =>
    obtain ⟨ep, hep, rfl⟩ := slBtom_eq hb hh.room
    dsimp only
    split_ifs
    · exact ⟨hh.reset _ _ _ hep rfl rfl, rfl⟩
    · exact ⟨hh.reset _ _ _ hep rfl rfl, rfl⟩

theorem Sized.drop (hh : Sized h) : Sized (slDrop h) ∧
    ∀ i, (slDrop h).mem i ≠ h.mem i → i = h.sc.scBuf := by
  refine ⟨hh.reset _ _ _ hh.room rfl rfl, ?_⟩
  intro i hi
  by_contra hne
  apply hi
  simp only [slDrop]
  split_ifs
  · rfl
  · exact ByteMem.put8_of_ne hne _
  · rfl

/-- A packet handed up, or not: the next one is begun. -/
theorem slUp_sc (hh : Sized h) (inp : Input) (p : List Byte) :
    ∃ sc, (slUp h inp p).sc = newpack sc ∧ sc.scError = h.sc.scError := by
  rw [slUp]
  cases hb : slBtom inp h.sc p.length with
  | none => exact ⟨h.sc, rfl, rfl⟩
  | some sc =>
    obtain ⟨ep, -, rfl⟩ := slBtom_eq hb hh.room
    dsimp only
    split_ifs
    · exact ⟨_, rfl, rfl⟩
    · exact ⟨_, rfl, rfl⟩

/-- The receiver after a `FRAME_END`: it begins a frame, and it wrote in its buffer only. -/
theorem Sized.atEnd (hh : Sized h) (inp : Input) : ∃ h' sc, slEnd h inp = some h' ∧ Sized h' ∧
    h'.sc = newpack sc ∧ sc.scError = false ∧
    ∀ i, h'.mem i ≠ h.mem i → h.sc.scBuf ≤ i ∧ i < h.sc.scEp := by
  have heq := hh.slEnd_eq inp
  have hroom := hh.room
  have hbuf := hh.buf
  split_ifs at heq with herr hlen hversion
  · exact ⟨_, _, heq, hh.reset _ _ _ hroom rfl rfl, rfl, rfl, fun i hi => absurd rfl hi⟩
  · exact ⟨_, _, heq, hh.reset _ _ _ hroom rfl rfl, rfl, eq_false_of_ne_true herr,
      fun i hi => absurd rfl hi⟩
  · obtain ⟨hup, hmem⟩ := hh.up inp (h.mem.bytes h.sc.scBuf (h.sc.scMp - h.sc.scBuf))
    obtain ⟨sc, hsc, herr'⟩ := slUp_sc hh inp (h.mem.bytes h.sc.scBuf (h.sc.scMp - h.sc.scBuf))
    exact ⟨_, sc, heq, hup, hsc, herr'.trans (eq_false_of_ne_true herr),
      fun i hi => absurd (congrFun hmem i) hi⟩
  · obtain ⟨hdrop, hmem⟩ := hh.drop
    refine ⟨_, _, heq, hdrop, rfl, eq_false_of_ne_true herr, ?_⟩
    intro i hi
    have hslmax : 0 < slMax := by decide
    rw [hmem i hi]
    omega

/-- A character that is no `FRAME_END`, or that comes with an error. -/
def Input.Body (inp : Input) : Prop := inp.error = true ∨ inp.c ≠ frameEnd

/-- Every input moves the receiver, and only inside of its buffer. -/
theorem Sized.slinput (hh : Sized h) (inp : Input) : ∃ h', SlipLine.slinput h inp = some h' ∧
    Sized h' ∧ ∀ i, h'.mem i ≠ h.mem i → h.sc.scBuf ≤ i ∧ i < h.sc.scEp := by
  rw [SlipLine.slinput]
  split_ifs
  · exact ⟨_, rfl, ⟨hh.room, hh.buf, hh.ge, hh.le, hh.compress, hh.autocomp⟩,
      fun i hi => absurd rfl hi⟩
  · exact ⟨_, rfl, hh.store _⟩
  · exact ⟨_, rfl, hh.store _⟩
  · exact ⟨_, rfl, hh.store _⟩
  · exact ⟨_, rfl, hh.store _⟩
  · exact ⟨_, rfl, ⟨hh.room, hh.buf, hh.ge, hh.le, hh.compress, hh.autocomp⟩,
      fun i hi => absurd rfl hi⟩
  · obtain ⟨h', -, hin, hh', -, -, hmem⟩ := hh.atEnd inp
    exact ⟨h', hin, hh', hmem⟩
  · exact ⟨_, rfl, hh.store _⟩

/-- The same input but for the cluster. -/
structure Input.Same (i₁ i₂ : Input) : Prop where
  c : i₁.c = i₂.c
  error : i₁.error = i₂.error
  mget : i₁.mget = i₂.mget
  mclget : i₁.mclget.isSome = i₂.mclget.isSome

variable {i₁ i₂ : Input}

@[simp] theorem slStore_up (h : Host) (c : Byte) : (slStore h c).up = h.up := by
  rw [slStore]
  split_ifs <;> rfl

@[simp] theorem slStore_ifqLen (h : Host) (c : Byte) : (slStore h c).ifqLen = h.ifqLen := by
  rw [slStore]
  split_ifs <;> rfl

/-- Interfaces that hold the same of a frame store the same, and hand nothing up. -/
theorem Alike.body (hh : Alike h₁ h₂) (hsame : i₁.Same i₂) (hbody : i₁.Body) :
    ∃ h₁' h₂', slinput h₁ i₁ = some h₁' ∧ slinput h₂ i₂ = some h₂' ∧ Alike h₁' h₂' ∧
      (h₁'.up = h₁.up ∧ h₁'.ifqLen = h₁.ifqLen) ∧ h₂'.up = h₂.up ∧ h₂'.ifqLen = h₂.ifqLen := by
  have hstore (c : Byte) : Alike (slStore h₁ c) (slStore h₂ c) ∧
      ((slStore h₁ c).up = h₁.up ∧ (slStore h₁ c).ifqLen = h₁.ifqLen) ∧
      (slStore h₂ c).up = h₂.up ∧ (slStore h₂ c).ifqLen = h₂.ifqLen :=
    ⟨hh.store c, ⟨slStore_up h₁ c, slStore_ifqLen h₁ c⟩, slStore_up h₂ c, slStore_ifqLen h₂ c⟩
  have hl := hh.left
  have hr := hh.right
  rw [slinput, slinput, ← hsame.c, ← hsame.error, ← hh.escape]
  split_ifs with herr htesc hesc htend hesc' hfesc hend
  · exact ⟨_, _, rfl, rfl, ⟨⟨hl.room, hl.buf, hl.ge, hl.le, hl.compress, hl.autocomp⟩,
      ⟨hr.room, hr.buf, hr.ge, hr.le, hr.compress, hr.autocomp⟩, hh.len, hh.holds, hh.escape, rfl⟩,
      ⟨rfl, rfl⟩, rfl, rfl⟩
  · exact ⟨_, _, rfl, rfl, hstore _⟩
  · exact ⟨_, _, rfl, rfl, hstore _⟩
  · exact ⟨_, _, rfl, rfl, hstore _⟩
  · exact ⟨_, _, rfl, rfl, hstore _⟩
  · exact ⟨_, _, rfl, rfl, ⟨⟨hl.room, hl.buf, hl.ge, hl.le, hl.compress, hl.autocomp⟩,
      ⟨hr.room, hr.buf, hr.ge, hr.le, hr.compress, hr.autocomp⟩, hh.len, hh.holds, rfl, hh.error⟩,
      ⟨rfl, rfl⟩, rfl, rfl⟩
  · exact absurd hend (hbody.resolve_left herr)
  · exact ⟨_, _, rfl, rfl, hstore _⟩

/-- What is handed up does not depend on the cluster. -/
theorem Input.Same.up (hsame : i₁.Same i₂) (hq₁ : h₁.ifqLen < ifqMaxlen)
    (hq₂ : h₂.ifqLen < ifqMaxlen) (p : List Byte) :
    ∃ ps, (slUp h₁ i₁ p).up = h₁.up ++ ps ∧ (slUp h₂ i₂ p).up = h₂.up ++ ps := by
  have hsome : (slBtom i₁ h₁.sc p.length).isSome = (slBtom i₂ h₂.sc p.length).isSome := by
    rw [slBtom, slBtom, ← hsame.mget]
    split_ifs
    · rfl
    · rw [Option.isSome_map, Option.isSome_map, hsame.mclget]
    · rfl
  rw [slUp, slUp]
  cases hb₁ : slBtom i₁ h₁.sc p.length with
  | none =>
    rw [hb₁] at hsome
    have hb₂ := Option.isSome_eq_false_iff.mp hsome.symm
    rw [Option.isNone_iff_eq_none.mp hb₂]
    exact ⟨[], (List.append_nil _).symm, (List.append_nil _).symm⟩
  | some sc₁ =>
    rw [hb₁] at hsome
    obtain ⟨sc₂, hb₂⟩ := Option.isSome_iff_exists.mp hsome.symm
    rw [hb₂]
    dsimp only
    rw [if_neg (Nat.not_le.mpr hq₁), if_neg (Nat.not_le.mpr hq₂)]
    exact ⟨[p], rfl, rfl⟩

/-- Interfaces that hold the same of a frame hand the same up. -/
theorem Alike.atEnd (hh : Alike h₁ h₂) (hsame : i₁.Same i₂) (hq₁ : h₁.ifqLen < ifqMaxlen)
    (hq₂ : h₂.ifqLen < ifqMaxlen) : ∃ h₁' h₂' ps, slEnd h₁ i₁ = some h₁' ∧
      slEnd h₂ i₂ = some h₂' ∧ h₁'.up = h₁.up ++ ps ∧ h₂'.up = h₂.up ++ ps := by
  have hnil (l : List (List Byte)) : l = l ++ [] := (List.append_nil l).symm
  have heq₁ := hh.left.slEnd_eq i₁
  have heq₂ := hh.right.slEnd_eq i₂
  rw [← hh.error, ← hh.len] at heq₂
  by_cases herr : h₁.sc.scError = true
  · rw [if_pos herr] at heq₁ heq₂
    exact ⟨_, _, [], heq₁, heq₂, hnil h₁.up, hnil h₂.up⟩
  rw [if_neg herr] at heq₁ heq₂
  by_cases hlen : h₁.sc.scMp - h₁.sc.scBuf < 3
  · rw [if_pos hlen] at heq₁ heq₂
    exact ⟨_, _, [], heq₁, heq₂, hnil h₁.up, hnil h₂.up⟩
  rw [if_neg hlen] at heq₁ heq₂
  have hfirst : h₁.mem h₁.sc.scBuf = h₂.mem h₂.sc.scBuf := hh.holds 0 (by omega)
  have hbytes : h₁.mem.bytes h₁.sc.scBuf (h₁.sc.scMp - h₁.sc.scBuf) =
      h₂.mem.bytes h₂.sc.scBuf (h₁.sc.scMp - h₁.sc.scBuf) :=
    List.map_congr_left fun j hj => hh.holds j (List.mem_range.mp hj)
  rw [← hfirst, ← hbytes] at heq₂
  by_cases hversion : h₁.mem h₁.sc.scBuf &&& 0xf0 = 0x40
  · rw [if_pos hversion] at heq₁ heq₂
    obtain ⟨ps, hup₁, hup₂⟩ := hsame.up hq₁ hq₂
      (h₁.mem.bytes h₁.sc.scBuf (h₁.sc.scMp - h₁.sc.scBuf))
    exact ⟨_, _, ps, heq₁, heq₂, hup₁, hup₂⟩
  · rw [if_neg hversion] at heq₁ heq₂
    refine ⟨_, _, [], heq₁, heq₂, ?_, ?_⟩
    · rw [slDrop_up, List.append_nil]
    · rw [slDrop_up, List.append_nil]

/-- The states of a receiver without header compression, with any input. -/
inductive Fed : Host → Prop where
  | init {sc : Softc} (addr : ℕ) (mem : ByteMem) (n : ℕ) (hcompress : sc.scCompress = false)
      (hauto : sc.scAutocomp = false) : Fed ⟨slinit sc addr, mem, n, []⟩
  | input {h h' : Host} (hh : Fed h) (inp : Input) (hin : slinput h inp = some h') : Fed h'
  | ipintr {h : Host} (hh : Fed h) {n : ℕ} (hn : n ≤ h.ifqLen) : Fed { h with ifqLen := n }

theorem Fed.sized (hh : Fed h) : Sized h := by
  induction hh with
  | @init sc addr mem n hcompress hauto =>
    have hopen : Opened ⟨slinit sc addr, mem, n, []⟩ := Opened.slinit sc addr mem n []
    refine ⟨hopen.room, hopen.buf, Nat.le_of_eq hopen.mp.symm, ?_, ?_, ?_⟩
    · rw [hopen.mp, hopen.buf]
      exact Nat.sub_le _ _
    · simpa only [slinit] using hcompress
    · simpa only [slinit] using hauto
  | input _ inp hin ih =>
    obtain ⟨h', hin', hh', -⟩ := ih.slinput inp
    obtain rfl := Option.some.inj (hin.symm.trans hin')
    exact hh'
  | ipintr _ _ ih => exact ⟨ih.room, ih.buf, ih.ge, ih.le, ih.compress, ih.autocomp⟩

/-- The receiver has just taken a `FRAME_END`. -/
def AtFrame (h : Host) : Prop :=
  ∃ h₀ inp, Fed h₀ ∧ inp.error = false ∧ inp.c = frameEnd ∧ slinput h₀ inp = some h

/-- Whatever came before a `FRAME_END`, the state after it is the same. -/
theorem AtFrame.alike (hh₁ : AtFrame h₁) (hh₂ : AtFrame h₂) : Alike h₁ h₂ := by
  have hfresh {h : Host} (hh : AtFrame h) : Sized h ∧ ∃ sc, h.sc = newpack sc ∧
      sc.scError = false := by
    obtain ⟨h₀, inp, hfed, herr, hc, hin⟩ := hh
    rw [frameEnd_input herr hc] at hin
    obtain ⟨h', sc, hin', hh', hsc, herr', -⟩ := hfed.sized.atEnd inp
    obtain rfl := Option.some.inj (hin.symm.trans hin')
    exact ⟨hh', sc, hsc, herr'⟩
  obtain ⟨hs₁, sc₁, hsc₁, herr₁⟩ := hfresh hh₁
  obtain ⟨hs₂, sc₂, hsc₂, herr₂⟩ := hfresh hh₂
  cases h₁
  cases h₂
  subst hsc₁ hsc₂
  exact Alike.reset hs₁ hs₂ (herr₁.trans herr₂.symm)

/-- `slinput` of one input after the other. -/
def feed (h : Host) (inps : List Input) : Option Host := inps.foldlM slinput h

/-- A frame, as it comes to two receivers. -/
structure Input.SameFrame (is₁ is₂ : List Input) (e₁ e₂ : Input) : Prop where
  body : List.Forall₂ (fun i₁ i₂ => i₁.Same i₂ ∧ i₁.Body) is₁ is₂
  last : e₁.Same e₂
  error : e₁.error = false
  c : e₁.c = frameEnd

/-- The next frame is decoded alike. -/
theorem Alike.frame {is₁ is₂ : List Input} {e₁ e₂ : Input} (hh : Alike h₁ h₂)
    (hq₁ : h₁.ifqLen < ifqMaxlen) (hq₂ : h₂.ifqLen < ifqMaxlen)
    (hf : Input.SameFrame is₁ is₂ e₁ e₂) : ∃ h₁' h₂' ps, feed h₁ (is₁ ++ [e₁]) = some h₁' ∧
      feed h₂ (is₂ ++ [e₂]) = some h₂' ∧ h₁'.up = h₁.up ++ ps ∧ h₂'.up = h₂.up ++ ps := by
  obtain ⟨hbody, hlast, herr, hc⟩ := hf
  induction hbody generalizing h₁ h₂ with
  | nil =>
    obtain ⟨h₁', h₂', ps, hin₁, hin₂, hups⟩ := hh.atEnd hlast hq₁ hq₂
    rw [← frameEnd_input herr hc] at hin₁
    rw [← frameEnd_input (hlast.error ▸ herr) (hlast.c ▸ hc)] at hin₂
    refine ⟨h₁', h₂', ps, ?_, ?_, hups⟩
    · simp [feed, hin₁]
    · simp [feed, hin₂]
  | cons hone _ ih =>
    obtain ⟨m₁, m₂, hin₁, hin₂, hm, ⟨hup₁, hq₁'⟩, hup₂, hq₂'⟩ := hh.body hone.1 hone.2
    obtain ⟨h₁', h₂', ps, hfeed₁, hfeed₂, hups⟩ := ih hm (by omega) (by omega)
    rw [hup₁, hup₂] at hups
    refine ⟨h₁', h₂', ps, ?_, ?_, hups⟩
    · rw [feed, List.cons_append, List.foldlM_cons, hin₁]
      exact hfeed₁
    · rw [feed, List.cons_append, List.foldlM_cons, hin₂]
      exact hfeed₂

/-- On a line whose `ipintrq` has room at every `FRAME_END`, the packets sent come up in order.
Without header compression the receiver stores in its buffer only, whatever it is given, and what a
frame comes to does not depend on what was before the last `FRAME_END`. -/
theorem line_delivers :
    (∀ l, Reached l → l.host.up <+: l.sent ∧ (bytes l.rb = [] → l.host.up = l.sent) ∧
      ∀ c rb cl, getc l.rb = ((c.toNat : ℤ), rb) → (c = frameEnd → l.host.ifqLen < ifqMaxlen) →
        ∃ h', slinput l.host (char c cl) = some h') ∧
    (∀ h, Fed h → ∀ inp, ∃ h', slinput h inp = some h' ∧
      ∀ i, h'.mem i ≠ h.mem i → h.sc.scBuf ≤ i ∧ i < h.sc.scEp) ∧
    ∀ h₁ h₂, AtFrame h₁ → AtFrame h₂ → h₁.ifqLen < ifqMaxlen → h₂.ifqLen < ifqMaxlen →
      ∀ is₁ is₂ e₁ e₂, Input.SameFrame is₁ is₂ e₁ e₂ →
        ∃ h₁' h₂' ps, feed h₁ (is₁ ++ [e₁]) = some h₁' ∧ feed h₂ (is₂ ++ [e₂]) = some h₂' ∧
          h₁'.up = h₁.up ++ ps ∧ h₂'.up = h₂.up ++ ps := by
  refine ⟨?_, ?_, ?_⟩
  · intro l hl
    obtain ⟨ps, hsent, hc⟩ := hl.inv
    refine ⟨⟨ps, hsent.symm⟩, ?_, ?_⟩
    · intro hempty
      rw [content, hempty] at hc
      rw [hsent, hc.nil, List.append_nil]
    · intro c rb cl hget hq
      rw [content_getc hget] at hc
      obtain ⟨h', -, -, hin, -⟩ := hc.received cl hq
      exact ⟨h', hin⟩
  · intro h hh inp
    obtain ⟨h', hin, -, hmem⟩ := hh.sized.slinput inp
    exact ⟨h', hin, hmem⟩
  · intro h₁ h₂ hh₁ hh₂ hq₁ hq₂ is₁ is₂ e₁ e₂ hf
    exact (hh₁.alike hh₂).frame hq₁ hq₂ hf

/-- A packet that was just sent: the first character on the line is received. -/
theorem line_delivers_sent : ∃ l : Line, l.sent = [[0x45, 0, 0]] ∧ l.host.up <+: l.sent ∧
    ∃ h', slinput l.host (char frameEnd 0) = some h' := by
  have hget {rb : Ringb} (h : (getc rb).1 = (frameEnd.toNat : ℤ)) :
      getc rb = ((frameEnd.toNat : ℤ), (getc rb).2) := Prod.ext h rfl
  let l : Line := ⟨⟨0, 0, fun _ => 0⟩,
    ⟨slinit ⟨0, 0, 0, false, false, true, true, slCompressInit⟩ 0, fun _ => 0, 0, []⟩, []⟩
  have hl : Reached l := .init _ _ _ _ (by decide +kernel)
  have hpacket : IsPacket [0x45, 0, 0] := ⟨by decide, by decide, by decide⟩
  have hstart := hl.start (m := [[0x45], [0, 0]]) (by decide +kernel) hpacket
  obtain ⟨hup, -, hnext⟩ := line_delivers.1 _ hstart
  refine ⟨_, rfl, hup, hnext frameEnd _ 0 (hget ?_) ?_⟩
  · decide +kernel
  · intro _
    decide +kernel

/-- An interface that is opened, with `n` packets in `ipintrq`. -/
def opened (compress : Bool) (n : ℕ) : Host :=
  ⟨slinit ⟨0, 0, 0, false, false, compress, false, slCompressInit⟩ 0, fun _ => 0, n, []⟩

/-- The characters of a line that has been idle, and what is up after them. -/
def deliver (h : Host) (s : List Byte) : Option Host := feed h (s.map (char · 0))

/-- A TCP header of 40 bytes, as a frame of `TYPE_UNCOMPRESSED_TCP`. -/
def header : List Byte := 0x75 :: List.replicate 31 0 ++ 0x50 :: List.replicate 7 0

/-- A frame of `TYPE_COMPRESSED_TCP`. -/
def changes : List Byte := [0x80, 0, 0, 1]

/-- A full `ipintrq` loses a packet. With header compression a frame is tossed or not by what came
before it, and its header goes in front of the buffer. -/
theorem not_line_delivers :
    (hasRoom ⟨0, 0, fun _ => 0⟩ = true ∧ IsPacket [0x45, 0, 0] ∧
      (deliver (opened false 50) (content (slPacket ⟨0, 0, fun _ => 0⟩ [[0x45, 0, 0]]))).map
        (·.up) = some []) ∧
    (deliver (opened true 0) (frame changes)).map (·.up.length) = some 0 ∧
    (deliver (opened true 0) (frame header)).map (fun h => (h.up.length, h.sc.scBuf, h.mem 92)) =
      some (1, 132, 0) ∧
    (deliver (opened true 0) (frame header ++ frame changes)).map
      (fun h => (h.up.length, h.mem 92)) = some (2, 0x45) := by
  refine ⟨⟨by decide +kernel, ⟨by decide, by decide, by decide⟩, by decide +kernel⟩, ?_, ?_, ?_⟩
  · decide +kernel
  · decide +kernel
  · decide +kernel

end SlipLine
