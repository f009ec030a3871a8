import Mathlib
import NetBsd.Net.Slip.Compress

/-!
# Damaged frames

The receiver changes the saved header field by field while it walks through a compressed
frame, and compares lengths after that. How far the walk goes is set by the frame's change
mask and by the first byte of each number. A frame shorter than that is read past its end,
and rejected when the saved header is already changed; every other frame is read within its
length, and changes nothing when it is rejected.

## Main definitions

* `tcpNumbers changes`, `numbers changes`: which numbers the frame carries, in order
* `numsEnd buf l cp`: where these numbers end
* `frameNeed`: the bytes the frame needs to have

## Main results

* `slWalk_spec`: the walk reads up to the end of the numbers, and leaves `ip_hl` as it was
* `slUncompressTcp_safe_iff`: a call reads its frame only and rejects without a trace exactly
  when the frame has the bytes it needs
-/

namespace Slip

variable {buf : ByteMem} {addr len cp th : ℕ} {changes : BitVec 8} {type : PktType}
  {comp : Slcompress} {w : Walk}

/-! ## What a frame needs -/

/-- Length of the number at `cp`, by its first byte. -/
def numLen (buf : ByteMem) (cp : ℕ) : ℕ := if buf cp = 0 then 3 else 1

/-- Where numbers that start at `cp` end; `false` stands for a number left out. -/
def numsEnd (buf : ByteMem) : List Bool → ℕ → ℕ
  | [], cp => cp
  | b :: l, cp => numsEnd buf l (if b then cp + numLen buf cp else cp)

/-- Urgent pointer, window, ack and sequence, which the special cases leave out. -/
def tcpNumbers (changes : BitVec 8) : List Bool :=
  if changes &&& SPECIALS_MASK = SPECIAL_I ∨ changes &&& SPECIALS_MASK = SPECIAL_D then []
  else [NEW_U, NEW_W, NEW_A, NEW_S].map fun bit => decide (changes &&& bit ≠ 0)

/-- The numbers that follow the checksum, the IP id last. -/
def numbers (changes : BitVec 8) : List Bool :=
  tcpNumbers changes ++ [decide (changes &&& NEW_I ≠ 0)]

/-- Bytes needed by a compressed frame of conversation `c`, its checksum at `cp`: up to the end
of the numbers, and, where the saved header is shorter than its own `ip_hl` says, up to the end
of the words that go into the header checksum. -/
def compressedNeed (buf : ByteMem) (addr : ℕ) (c : Cstate) (cp : ℕ) : ℕ :=
  let e := numsEnd buf (numbers (buf 0)) (cp + 2)
  if 4 * ipHl c.cs_hdr > c.cs_hlen.toNat then
    max e (e - (addr + e) % 4 + (4 * ipHl c.cs_hdr - c.cs_hlen.toNat))
  else e

theorem connNumber_lt {buf : ByteMem} (h : ¬(buf 1).toNat ≥ MAX_STATES) :
    (buf 1).toNat < MAX_STATES := Nat.not_le.mp h

theorem lastRecv_lt {comp : Slcompress} (h : ¬comp.toss = true) :
    comp.last_recv.toNat < MAX_STATES := comp.recv_lt (eq_false_of_ne_true h)

/-- The bytes a frame needs to have. -/
def frameNeed (buf : ByteMem) (addr : ℕ) (type : PktType) (comp : Slcompress) : ℕ :=
  match type with
  | .uncompressedTcp =>
    if (buf 9).toNat ≥ MAX_STATES then 10 else max (max 10 (4 * ipHl buf + 13)) (hdrLen buf)
  | .compressedTcp =>
    if buf 0 &&& NEW_C ≠ 0 then
      if h : (buf 1).toNat ≥ MAX_STATES then 2
      else compressedNeed buf addr (comp.rstate ⟨(buf 1).toNat, connNumber_lt h⟩) 2
    else if h : comp.toss = true then 1
    else
      compressedNeed buf addr
        (comp.rstate ⟨comp.last_recv.toNat, lastRecv_lt h⟩) 1
  | _ => 0

/-- The call reads only the frame, and when it rejects the frame it leaves the saved
headers and the last conversation as they were. -/
def SafeOn (len : ℕ) (comp : Slcompress) (g : Got) : Prop :=
  g.seen ≤ len ∧
    (g.ret = .bad ∨ g.ret = .tossed → g.comp.rstate = comp.rstate ∧
      g.comp.last_recv = comp.last_recv)

theorem numsEnd_append (l l' : List Bool) (cp : ℕ) :
    numsEnd buf (l ++ l') cp = numsEnd buf l' (numsEnd buf l cp) := by
  induction l generalizing cp with
  | nil => rfl
  | cons b l ih => exact ih _

/-! ## The walk -/

/-- The walk `w'` goes on from `w` and ends at `n`: it has read all bytes up to there, and the
first byte of the header is the one `w` had. -/
structure Walk.Moves (w w' : Walk) (n : ℕ) : Prop where
  cp : w'.cp = n
  seen : w'.seen = n
  hdr : w'.hdr 0 = w.hdr 0

theorem decode_snd (buf : ByteMem) (cp : ℕ) : (decode buf cp).2 = cp + numLen buf cp := by
  unfold decode numLen
  split <;> rfl

namespace Walk.Moves

variable {w₁ w₂ : Walk} {n k f : ℕ}

theorem trans (h₁ : Moves w w₁ n) (h₂ : Moves w₁ w₂ k) : Moves w w₂ k :=
  ⟨h₂.cp, h₂.seen, h₂.hdr.trans h₁.hdr⟩

theorem set (h : Moves w w₁ n) {g : ByteMem → ByteMem} (hg : ∀ m, g m 0 = m 0) :
    Moves w (w₁.set g) n :=
  ⟨h.cp, h.seen, (hg _).trans h.hdr⟩

theorem goto (h : Moves w w₁ n) (hk : n ≤ k) : Moves w (w₁.to k) k := by
  refine ⟨rfl, ?_, h.hdr⟩
  change max w₁.seen k = k
  rw [h.seen, Nat.max_eq_right hk]

theorem decode_set (h : Moves w w₁ n) {g : ByteMem → ByteMem} (hg : ∀ m, g m 0 = m 0) :
    Moves w ((w₁.to (decode buf w₁.cp).2).set g) (n + numLen buf n) := by
  rw [h.cp, decode_snd]
  exact (h.goto (Nat.le_add_right _ _)).set hg

theorem decodeU (h : Moves w w₁ n) (buf : ByteMem) (hf : 0 < f) :
    Moves w (decodeU buf f w₁) (n + numLen buf n) := by
  rw [decodeU_eq]
  exact h.decode_set fun m => ByteMem.put16_of_ne (by omega) (by omega) _

theorem decodeS (h : Moves w w₁ n) (buf : ByteMem) (hf : 0 < f) :
    Moves w (decodeS buf f w₁) (n + numLen buf n) := by
  rw [decodeS_eq]
  exact h.decode_set fun m => ByteMem.put16_of_ne (by omega) (by omega) _

theorem decodeL (h : Moves w w₁ n) (buf : ByteMem) (hf : 0 < f) :
    Moves w (decodeL buf f w₁) (n + numLen buf n) := by
  rw [decodeL_eq]
  exact h.decode_set fun m => ByteMem.put32_of_ne (by omega) _

/-- A step taken when `p` holds moves over the number that `p` announces. -/
theorem ite {g : Walk → Walk} (h : Moves w w₁ n) (p : Prop) [Decidable p]
    (hg : Moves w (g w₁) (n + numLen buf n)) :
    Moves w (if p then g w₁ else w₁) (if p then n + numLen buf n else n) := by
  split
  · exact hg
  · exact h

end Walk.Moves

theorem slSpecials_moves (buf : ByteMem) (changes : BitVec 8) (cs_hlen : BitVec 16) (th : ℕ)
    {w₁ : Walk} {n : ℕ} (h : w.Moves w₁ n) :
    w.Moves (slSpecials buf changes cs_hlen th w₁)
      (numsEnd buf (tcpNumbers changes) n) := by
  unfold slSpecials tcpNumbers
  by_cases hI : changes &&& SPECIALS_MASK = SPECIAL_I
  · rw [if_pos hI, if_pos (Or.inl hI)]
    exact (h.set fun m => ByteMem.put32_of_ne (by omega) _).set fun m =>
      ByteMem.put32_of_ne (by omega) _
  by_cases hD : changes &&& SPECIALS_MASK = SPECIAL_D
  · rw [if_neg hI, if_pos hD, if_pos (Or.inr hD)]
    exact h.set fun m => ByteMem.put32_of_ne (by omega) _
  rw [if_neg hI, if_neg hD, if_neg (not_or.mpr ⟨hI, hD⟩)]
  unfold slNumbers
  have hU : w.Moves
      (if changes &&& NEW_U ≠ 0 then
        decodeU buf (th + 18) (w₁.set fun hdr => hdr.put8 (th + 13) (hdr (th + 13) ||| TH_URG))
      else w₁.set fun hdr => hdr.put8 (th + 13) (hdr (th + 13) &&& ~~~TH_URG))
      (if changes &&& NEW_U ≠ 0 then n + numLen buf n else n) := by
    split
    · exact (h.set fun m => ByteMem.put8_of_ne (by omega) _).decodeU buf (by omega)
    · exact h.set fun m => ByteMem.put8_of_ne (by omega) _
  have hW := hU.ite (changes &&& NEW_W ≠ 0) (hU.decodeS buf (f := th + 14) (by omega))
  have hA := hW.ite (changes &&& NEW_A ≠ 0) (hW.decodeL buf (f := th + 8) (by omega))
  have hS := hA.ite (changes &&& NEW_S ≠ 0) (hA.decodeL buf (f := th + 4) (by omega))
  simp only [List.map_cons, List.map_nil, numsEnd, decide_eq_true_eq]
  exact hS

/-- The walk reads up to the end of the numbers, and leaves `ip_hl` as it was. -/
theorem slWalk_spec (buf : ByteMem) (changes : BitVec 8) (cs : Cstate) (cp : ℕ) :
    Walk.Moves ⟨cp, cs.cs_hdr, cp⟩ (slWalk buf changes cs cp)
      (numsEnd buf (numbers changes) (cp + 2)) := by
  have h₀ : Walk.Moves ⟨cp, cs.cs_hdr, cp⟩ ⟨cp, cs.cs_hdr, cp⟩ cp := ⟨rfl, rfl, rfl⟩
  have h₁ := (h₀.goto (Nat.le_add_right cp 2)).set
    (g := fun hdr => hdr.put16 (4 * ipHl cs.cs_hdr + 16) (buf.get16 cp))
    fun m => ByteMem.put16_of_ne (by omega) (by omega) _
  have h₂ := h₁.set
    (g := fun hdr =>
      if changes &&& TCP_PUSH_BIT ≠ 0 then
        hdr.put8 (4 * ipHl cs.cs_hdr + 13) (hdr (4 * ipHl cs.cs_hdr + 13) ||| TH_PUSH)
      else hdr.put8 (4 * ipHl cs.cs_hdr + 13) (hdr (4 * ipHl cs.cs_hdr + 13) &&& ~~~TH_PUSH))
    fun m => by split <;> exact ByteMem.put8_of_ne (by omega) _
  have h₃ := slSpecials_moves buf changes cs.cs_hlen (4 * ipHl cs.cs_hdr) h₂
  rw [numbers, numsEnd_append]
  simp only [numsEnd, decide_eq_true_eq]
  unfold slWalk slIpId
  by_cases hI : changes &&& NEW_I ≠ 0
  · rw [if_pos hI, if_pos hI]
    exact h₃.decodeS buf (by omega)
  · rw [if_neg hI, if_neg hI]
    exact h₃.set fun m => ByteMem.put16_of_ne (by omega) (by omega) _

/-! ## One call -/

theorem safeOn_compressedIn_iff (cs : Fin MAX_STATES) (comp₀ : Slcompress) :
    SafeOn len comp₀ (slCompressedIn buf addr len comp (buf 0) cs cp) ↔
      compressedNeed buf addr (comp.rstate cs) cp ≤ len := by
  obtain ⟨hcp, hseen, hhdr⟩ := slWalk_spec buf (buf 0) (comp.rstate cs) cp
  have hle : numsEnd buf (numbers (buf 0)) (cp + 2) ≤ compressedNeed buf addr (comp.rstate cs) cp := by
    unfold compressedNeed
    dsimp only
    split
    · exact Nat.le_max_left _ _
    · exact Nat.le_refl _
  unfold slCompressedIn
  dsimp only
  rw [hcp]
  split
  · -- the walk went past the frame's end before the lengths were compared
    constructor
    · rintro ⟨hs, -⟩
      have : (slWalk buf (buf 0) (comp.rstate cs) cp).seen ≤ len := hs
      omega
    · intro h
      omega
  · have hh : ∀ v, ipHl ((slWalk buf (buf 0) (comp.rstate cs) cp).hdr.put16 2 v) =
        ipHl (comp.rstate cs).cs_hdr := by
      intro v
      rw [ipHl, ipHl, ByteMem.put16_of_ne (by omega) (by omega), hhdr]
    simp only [SafeOn, slRebuild, hh, hseen, compressedNeed]
    split <;> simp

/-- A call reads only its frame, and rejects it without a trace, exactly when the frame has the
bytes that its own change mask, or its own headers, call for. -/
theorem slUncompressTcp_safe_iff (buf : ByteMem) (addr len : ℕ) (type : PktType)
    (comp : Slcompress) :
    SafeOn len comp (slUncompressTcp buf addr len type comp) ↔
      frameNeed buf addr type comp ≤ len := by
  rcases type with _ | _ | _ | _
  · simp [SafeOn, slUncompressTcp, frameNeed, slBad]
  · rw [slUncompressTcp, slUncompressedIn, frameNeed]
    split
    · simp [SafeOn, slBad]
    · have hh : ipHl (buf.put8 9 IPPROTO_TCP) = ipHl buf := by
        rw [ipHl, ipHl, ByteMem.put8_of_ne (by omega)]
      have hl : hdrLen (buf.put8 9 IPPROTO_TCP) = hdrLen buf := by
        rw [hdrLen, hdrLen, hh, thOff, thOff, ByteMem.put8_of_ne (by omega)]
      dsimp only
      rw [hh, hl]
      split <;> simp [SafeOn]
  · rw [slUncompressTcp, frameNeed]
    dsimp only
    split
    · split
      · simp [SafeOn, slBad]
      · exact safeOn_compressedIn_iff _ _
    · split
      · simp [SafeOn]
      · exact safeOn_compressedIn_iff _ _
  · simp [SafeOn, slUncompressTcp, frameNeed, slBad]

/-- The change mask and the conversation number of a compressed frame, and zeros after them. -/
def cutFrame : ByteMem := fun i => if i = 0 then NEW_C else 0

/-- Two bytes of a frame in the first state: the checksum is read past them, and the frame is
rejected with the IP id and the last conversation already changed. -/
theorem slUncompressTcp_cutFrame :
    ¬ SafeOn 2 slCompressInit (slUncompressTcp cutFrame 0 2 .compressedTcp slCompressInit) ∧
      let g := slUncompressTcp cutFrame 0 2 .compressedTcp slCompressInit
      g.ret = .bad ∧ g.seen = 4 ∧ g.comp.last_recv ≠ slCompressInit.last_recv ∧
        (g.comp.rstate 0).cs_hdr 5 ≠ (slCompressInit.rstate 0).cs_hdr 5 := by
  refine ⟨fun h => absurd h.1 (by decide), ?_⟩
  decide

end Slip
