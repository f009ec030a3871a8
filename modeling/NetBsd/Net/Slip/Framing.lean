import Mathlib
import NetBsd.Kern.TtyRing
import NetBsd.Net.Slip.Compress

/-!
# Frames on a serial line

`slstart` and `slinput` of `net/if_sl.c`, without the packet filter and without the abort sequence.
The sender puts one packet into the output ring of the terminal; the receiver takes one character
at a time and hands packets up to `ipintrq`. The counters of the interface are left out.

## Main definitions

* `slinit`: an interface that is opened
* `slPacket`: one round of the loop of `slstart`, with header compression off
* `Softc`, `Host`: the receiver's side of an interface
* `slinput`: the receiver

## Main results

* `content_slMbuf`, `content_slPacket`: what an mbuf and a packet add to the ring
-/

namespace SlipLine

open Slip TtyRing

/-- `u_char`. -/
abbrev Byte := BitVec 8

/-- `FRAME_END`. -/
def frameEnd : Byte := 0xc0

/-- `FRAME_ESCAPE`. -/
def frameEscape : Byte := 0xdb

/-- `TRANS_FRAME_END`. -/
def transFrameEnd : Byte := 0xdc

/-- `TRANS_FRAME_ESCAPE`. -/
def transFrameEscape : Byte := 0xdd

/-- `MHLEN`. -/
def mhlen : ℕ := 100

/-- `BUFOFFSET`, with a pointer of 4 bytes. -/
def bufOffset : ℕ := 128 + 4

/-- `SLMAX`: `MCLBYTES` less `BUFOFFSET`. -/
def slMax : ℕ := 1024 - bufOffset

/-- `SLBUFSIZE`. -/
def slBufSize : ℕ := slMax + bufOffset

/-- `SLMTU`. -/
def slMtu : ℕ := 296

/-- `ifq_maxlen` of `ipintrq`. -/
def ifqMaxlen : ℕ := 50

/-! ## `slstart` -/

/-- `putc` of an unsigned character. -/
def put (c : Byte) (rb : Ringb) : ℤ × Ringb := putc c.toNat rb

/-- A character that a frame does not hold as it is. -/
def special (c : Byte) : Bool := c = frameEscape ∨ c = frameEnd

/-- The loop over the characters of an mbuf. -/
def slMbuf : ℕ → Ringb → List Byte → Ringb
  | 0, rb, _ => rb
  | fuel + 1, rb, l =>
    if l = [] then rb
    else
      let bp := l.takeWhile (!special ·)
      let rb := if bp = [] then rb else (rbWrite rb (bp.map UInt8.ofBitVec)).2
      match l.dropWhile (!special ·) with
      | [] => rb
      | c :: cp =>
        let r := put frameEscape rb
        if r.1 ≠ 0 then r.2
        else
          let r := put (if c = frameEscape then transFrameEscape else transFrameEnd) r.2
          if r.1 ≠ 0 then (unputc r.2).2 else slMbuf fuel r.2 cp

/-- There is room for a packet. -/
def hasRoom (rb : Ringb) : Bool := !((rbsz : ℤ) - rbLen rb < 2 * slMtu + 2)

/-- A packet, as the list of what its mbufs hold, put into the output ring. -/
def slPacket (rb : Ringb) (m : List (List Byte)) : Ringb :=
  let rb := if rbLen rb = 0 then (put frameEnd rb).2 else rb
  let rb := m.foldl (fun rb l => slMbuf (l.length + 1) rb l) rb
  let r := put frameEnd rb
  if r.1 ≠ 0 then (put frameEnd (unputc r.2).2).2 else r.2

/-! ## `slinput` -/

/-- What `slinput` uses of `struct sl_softc`: the buffer, and of the flags `SC_ERROR`, `SC_COMPRESS`
and `SC_AUTOCOMP`. -/
structure Softc where
  scBuf : ℕ
  scMp : ℕ
  scEp : ℕ
  scEscape : Bool
  scError : Bool
  scCompress : Bool
  scAutocomp : Bool
  scComp : Slcompress

/-- The interface, the memory of the mbufs, the length of `ipintrq`, and the packets that were put
into it. -/
structure Host where
  sc : Softc
  mem : ByteMem
  ifqLen : ℕ
  up : List (List Byte)

/-- A call of `slinput`: the character, whether it comes with an error or without a carrier, whether
there is an mbuf, and the cluster that there is. -/
structure Input where
  c : Byte
  error : Bool
  mget : Bool
  mclget : Option ℕ

/-- The label `newpack`. -/
def newpack (sc : Softc) : Softc :=
  { sc with scBuf := sc.scEp - slMax, scMp := sc.scEp - slMax, scEscape := false }

/-- `slinit` of an interface with a new buffer at `p`. -/
def slinit (sc : Softc) (p : ℕ) : Softc :=
  { sc with
    scEp := p + slBufSize
    scBuf := p + slBufSize - slMax
    scMp := p + slBufSize - slMax
    scComp := slCompressInit }

/-- `sl_btom`: the interface afterwards. A packet that fills an mbuf keeps the cluster it is in. -/
def slBtom (inp : Input) (sc : Softc) (len : ℕ) : Option Softc :=
  if !inp.mget then none
  else if len ≥ mhlen then inp.mclget.map fun cl => { sc with scEp := cl + slBufSize }
  else some sc

/-- A packet handed up. -/
def slUp (h : Host) (inp : Input) (p : List Byte) : Host :=
  match slBtom inp h.sc p.length with
  | none => { h with sc := newpack h.sc }
  | some sc =>
    if h.ifqLen ≥ ifqMaxlen then { h with sc := newpack sc }
    else { h with sc := newpack sc, ifqLen := h.ifqLen + 1, up := h.up ++ [p] }

/-- Where `sl_uncompress_tcp` leaves a packet of `n` bytes: the data goes down to a word boundary,
and the header in front of it. -/
def slBufp (buf : ByteMem) (addr len n : ℕ) (type : PktType) (comp comp' : Slcompress) : ℕ :=
  if type = .compressedTcp then
    let cs := comp.rstate (Fin.ofNat MAX_STATES comp'.last_recv.toNat)
    let cp := (slWalk buf (buf 0) cs (if buf 0 &&& NEW_C ≠ 0 then 2 else 1)).cp
    addr + cp - (addr + cp) % 4 - (n - (len - cp))
  else addr

/-- A packet that is to be decompressed; `none` when the header overruns its room. -/
def slExpand (h : Host) (inp : Input) (len : ℕ) (type : PktType) (compress : Bool) : Option Host :=
  let buf : ByteMem := fun i => h.mem (h.sc.scBuf + i)
  let got := slUncompressTcp buf h.sc.scBuf len type h.sc.scComp
  let sc := { h.sc with scComp := got.comp }
  match got.ret with
  | .overrun => none
  | .packet (c :: p) =>
    let bufp := slBufp buf h.sc.scBuf len (p.length + 1) type h.sc.scComp got.comp
    let mem : ByteMem := fun i =>
      if i < bufp then h.mem i
      else ByteMem.ofList (c :: p) (fun j => h.mem (bufp + j)) (i - bufp)
    some (slUp { h with sc := { sc with scCompress := compress }, mem } inp (c :: p))
  | _ => some { h with sc := newpack sc }

/-- A `FRAME_END`. -/
def slEnd (h : Host) (inp : Input) : Option Host :=
  let len := h.sc.scMp - h.sc.scBuf
  if h.sc.scError then some { h with sc := newpack { h.sc with scError := false } }
  else if len < 3 then some { h with sc := newpack h.sc }
  else
    let b := h.mem h.sc.scBuf
    if b &&& 0xf0 = 0x40 then some (slUp h inp (h.mem.bytes h.sc.scBuf len))
    else
      let type : PktType := if b &&& 0x80 ≠ 0 then .compressedTcp
        else if b &&& 0xf0 = 0x70 then .uncompressedTcp else .error
      let h := if type = .uncompressedTcp then
        { h with mem := h.mem.put8 h.sc.scBuf (b &&& 0x4f) } else h
      if h.sc.scCompress then slExpand h inp len type true
      else if h.sc.scAutocomp ∧ type = .uncompressedTcp ∧ len ≥ 40 then slExpand h inp len type true
      else some { h with sc := newpack h.sc }

/-- A character of the packet. -/
def slStore (h : Host) (c : Byte) : Host :=
  if h.sc.scMp < h.sc.scEp then
    { h with
      mem := h.mem.put8 h.sc.scMp c
      sc := { h.sc with scMp := h.sc.scMp + 1, scEscape := false } }
  else { h with sc := newpack { h.sc with scError := true } }

def slinput (h : Host) (inp : Input) : Option Host :=
  if inp.error then some { h with sc := { h.sc with scError := true } }
  else if inp.c = transFrameEscape then
    some (slStore h (if h.sc.scEscape then frameEscape else inp.c))
  else if inp.c = transFrameEnd then
    some (slStore h (if h.sc.scEscape then frameEnd else inp.c))
  else if inp.c = frameEscape then some { h with sc := { h.sc with scEscape := true } }
  else if inp.c = frameEnd then slEnd h inp
  else some (slStore h inp.c)

/-! ## A packet in the ring -/

/-- A character in a frame. -/
def escape (c : Byte) : List Byte :=
  if c = frameEscape then [frameEscape, transFrameEscape]
  else if c = frameEnd then [frameEscape, transFrameEnd]
  else [c]

/-- The characters in a ring. -/
def content (rb : Ringb) : List Byte := (bytes rb).map UInt8.toBitVec

variable {rb : Ringb} {c : Byte} {l : List Byte} {fuel : ℕ}

@[simp] theorem length_content : (content rb).length = (bytes rb).length := List.length_map ..

/-- A character goes into a ring that is not full. -/
theorem put_room (h : (content rb).length < rbsz - 1) :
    (put c rb).1 = 0 ∧ content (put c rb).2 = content rb ++ [c] := by
  have hput := putc_deque c.toNat rb
  rw [length_content] at h
  rw [Deque.apply, if_neg (by omega)] at hput
  obtain ⟨hret, hbytes⟩ := Prod.mk.inj hput
  refine ⟨hret, ?_⟩
  rw [content, put, hbytes, List.map_append, content]
  congr 1
  change [BitVec.ofInt 8 c.toNat] = [c]
  rw [BitVec.ofInt_natCast, BitVec.ofNat_toNat, BitVec.setWidth_eq]

theorem content_rbWrite (h : (content rb).length + l.length < rbsz - 1) :
    content (rbWrite rb (l.map UInt8.ofBitVec)).2 = content rb ++ l := by
  rw [length_content] at h
  rw [content, bytes_rbWrite rb _ (by rw [List.length_map]; exact h), List.map_append, List.map_map,
    content]
  congr 1
  exact List.map_id l

theorem escape_plain (h : special c = false) : escape c = [c] := by
  rw [special, decide_eq_false_iff_not, not_or] at h
  rw [escape, if_neg h.1, if_neg h.2]

theorem escape_special (h : special c = true) :
    escape c = [frameEscape, if c = frameEscape then transFrameEscape else transFrameEnd] := by
  rw [special, decide_eq_true_iff] at h
  rw [escape]
  split_ifs with h₁ h₂
  · rfl
  · rfl
  · exact absurd h (not_or.mpr ⟨h₁, h₂⟩)

theorem flatMap_plain (h : ∀ c ∈ l, special c = false) : l.flatMap escape = l := by
  induction l with
  | nil => rfl
  | cons c l ih =>
    rw [List.flatMap_cons, escape_plain (h c List.mem_cons_self),
      ih fun c hc => h c (List.mem_cons_of_mem _ hc)]
    rfl

/-- What an mbuf adds to the ring. -/
theorem content_slMbuf (hfuel : l.length < fuel)
    (h : (content rb).length + (l.flatMap escape).length < rbsz - 1) :
    content (slMbuf fuel rb l) = content rb ++ l.flatMap escape := by
  induction fuel generalizing l rb with
  | zero => exact absurd hfuel (Nat.not_lt_zero _)
  | succ fuel ih =>
    rw [slMbuf]
    by_cases hl : l = []
    · rw [if_pos hl, hl, List.flatMap_nil, List.append_nil]
    rw [if_neg hl]
    -- the characters up to the first special one go into the ring in one piece
    have hplain : ∀ c ∈ l.takeWhile (!special ·), special c = false := by
      intro c hc
      have hp := List.all_eq_true.mp List.all_takeWhile c hc
      rwa [Bool.not_eq_true'] at hp
    have hsplit : l.flatMap escape =
        l.takeWhile (!special ·) ++ (l.dropWhile (!special ·)).flatMap escape := by
      rw [← flatMap_plain hplain, ← List.flatMap_append, List.takeWhile_append_dropWhile]
    have hlen : (l.takeWhile (!special ·)).length + (l.dropWhile (!special ·)).length =
        l.length := by
      rw [← List.length_append, List.takeWhile_append_dropWhile]
    have hhead := List.head?_dropWhile_not (!special ·) l
    rw [hsplit] at h ⊢
    rw [List.length_append] at h
    generalize l.takeWhile (!special ·) = bp at *
    generalize l.dropWhile (!special ·) = cp at *
    have hbp : content (if bp = [] then rb else (rbWrite rb (bp.map UInt8.ofBitVec)).2) =
        content rb ++ bp := by
      split_ifs with hnil
      · rw [hnil, List.append_nil]
      · exact content_rbWrite (by omega)
    dsimp only
    generalize (if bp = [] then rb else (rbWrite rb (bp.map UInt8.ofBitVec)).2) = rb₁ at hbp ⊢
    cases cp with
    | nil => rw [hbp, List.flatMap_nil, List.append_nil]
    | cons c cp =>
      have hc : special c = true := by simpa using hhead
      have hesc := escape_special hc
      rw [List.flatMap_cons, hesc, List.length_append, List.length_cons, List.length_cons,
        List.length_nil] at h
      have hroom : (content rb₁).length < rbsz - 1 := by
        rw [hbp, List.length_append]
        omega
      obtain ⟨hret, hcont⟩ := put_room (c := frameEscape) hroom
      have hroom' : (content (put frameEscape rb₁).2).length < rbsz - 1 := by
        rw [hcont, hbp, List.length_append, List.length_append, List.length_singleton]
        omega
      obtain ⟨hret', hcont'⟩ := put_room
        (c := if c = frameEscape then transFrameEscape else transFrameEnd) hroom'
      simp only [hret, hret', ne_eq, not_true_eq_false, if_false]
      rw [ih (by rw [List.length_cons] at hlen; omega), hcont', hcont, hbp, List.flatMap_cons, hesc]
      · simp only [List.append_assoc, List.cons_append, List.nil_append]
      · rw [hcont', hcont, hbp]
        simp only [List.length_append, List.length_singleton]
        omega

/-- A frame: the characters of the packet, and `FRAME_END`. -/
def frame (p : List Byte) : List Byte := p.flatMap escape ++ [frameEnd]

theorem length_escape (c : Byte) : (escape c).length ≤ 2 := by
  unfold escape
  split_ifs <;> simp

theorem length_flatMap_escape (p : List Byte) : (p.flatMap escape).length ≤ 2 * p.length := by
  induction p with
  | nil => exact Nat.le_refl _
  | cons c p ih =>
    have hone := length_escape c
    rw [List.flatMap_cons, List.length_append, List.length_cons]
    omega

theorem content_foldl {m : List (List Byte)}
    (h : (content rb).length + (m.flatten.flatMap escape).length < rbsz - 1) :
    content (m.foldl (fun rb l => slMbuf (l.length + 1) rb l) rb) =
      content rb ++ m.flatten.flatMap escape := by
  induction m generalizing rb with
  | nil => exact (List.append_nil _).symm
  | cons l m ih =>
    rw [List.flatten_cons, List.flatMap_append, List.length_append] at h
    have hone : content (slMbuf (l.length + 1) rb l) = content rb ++ l.flatMap escape :=
      content_slMbuf (Nat.lt_succ_self _) (by omega)
    rw [List.foldl_cons, ih, hone, List.flatten_cons, List.flatMap_append, List.append_assoc]
    rw [hone, List.length_append]
    omega

/-- What a packet adds to the ring: its frame, and a `FRAME_END` before it if the ring was empty. -/
theorem content_slPacket {m : List (List Byte)} (hroom : hasRoom rb = true)
    (hlen : m.flatten.length ≤ slMtu) :
    content (slPacket rb m) =
      content rb ++ (if content rb = [] then [frameEnd] else []) ++ frame m.flatten := by
  have hmtu : slMtu = 296 := rfl
  have hsz : rbsz = 1024 := rfl
  have hrb := (bytes_measures rb).rbLen
  rw [← length_content] at hrb
  have hesc := length_flatMap_escape m.flatten
  have hfree : (content rb).length + 2 * slMtu + 2 ≤ rbsz := by
    rw [hasRoom, Bool.not_eq_true', decide_eq_false_iff_not, hrb] at hroom
    omega
  have hfirst : content (if rbLen rb = 0 then (put frameEnd rb).2 else rb) =
      content rb ++ (if content rb = [] then [frameEnd] else []) := by
    have hiff : rbLen rb = 0 ↔ content rb = [] := by
      rw [hrb, ← List.length_eq_zero_iff]
      omega
    by_cases hnil : content rb = []
    · rw [if_pos (hiff.mpr hnil), if_pos hnil]
      exact (put_room (by omega)).2
    · rw [if_neg fun h => hnil (hiff.mp h), if_neg hnil, List.append_nil]
  rw [slPacket]
  generalize (if rbLen rb = 0 then (put frameEnd rb).2 else rb) = rb₁ at hfirst ⊢
  have hless : (content rb₁).length + (m.flatten.flatMap escape).length < rbsz - 1 := by
    rw [hfirst, List.length_append]
    split_ifs with hnil
    · rw [hnil, List.length_nil, List.length_singleton]
      omega
    · rw [List.length_nil]
      omega
  have hmid := content_foldl hless
  have hend : (content (m.foldl (fun rb l => slMbuf (l.length + 1) rb l) rb₁)).length <
      rbsz - 1 := by
    rw [hmid, List.length_append]
    exact hless
  obtain ⟨hret, hcont⟩ := put_room (c := frameEnd) hend
  simp only [hret, ne_eq, not_true_eq_false, if_false]
  rw [hcont, hmid, hfirst, frame, List.append_assoc, List.append_assoc]

end SlipLine
