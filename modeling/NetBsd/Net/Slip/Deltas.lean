import NetBsd.Net.Slip.Compress

/-!
# Numbers and changes

What the sender's differences are, and how the receiver's walk undoes them: starting from
the saved header of the last packet, it arrives at the header of the packet that was sent.

## Main definitions

* `mask u w a s i p c`: a change mask by its bits
* `clearSum m`: a header as the receiver saves it, with its checksum cleared
* `UrgLost ip hdr`: a special case after an urgent packet
* `Synced`: the walk has decoded all but the bytes `l`, and patched the fields `U`

## Main results

* `decode_encodeZ`: a number is decoded to what was encoded
* `slDeltas_cases`: the three forms of the sender's changes
* `slWalk_sent`: the receiver's walk arrives at the header that was sent
-/

namespace Slip

open ByteMem (Holds Patched)

variable {buf ip hdr m P S : ByteMem} {cp n k f t th : ℕ} {d : BitVec 8 × List (BitVec 8)}
  {l : List (BitVec 8)} {w : Walk} {U : ℕ → Prop} {v : BitVec 8}

/-! ## Numbers -/

theorem encode_eq_encodeZ {x : BitVec 16} (hx : x ≠ 0) : encode x = encodeZ x := by
  have h : x.toNat ≥ 256 ∨ x = 0 ↔ x.toNat ≥ 256 := or_iff_left hx
  rw [encode, encodeZ, if_congr h rfl rfl]

/-- A number is decoded to what was encoded, and ends where its bytes end. -/
theorem decode_encodeZ {x : BitVec 16} (h : Holds buf cp (encodeZ x ++ l)) :
    decode buf cp = (x, cp + (encodeZ x).length) := by
  unfold encodeZ at h ⊢
  split at h
  · rename_i hx
    simp only [List.cons_append, List.nil_append, ByteMem.holds_cons] at h
    obtain ⟨h₀, h₁, h₂, -⟩ := h
    have hv : buf.get16 (cp + 1) = x := by
      apply BitVec.eq_of_toNat_eq
      have := x.isLt
      rw [ByteMem.toNat_get16, h₁, h₂, BitVec.extractLsb'_toNat, BitVec.extractLsb'_toNat,
        Nat.shiftRight_eq_div_pow, Nat.shiftRight_zero]
      omega
    rw [decode, if_pos h₀, hv, if_pos hx]
    rfl
  · rename_i hx
    rw [not_or] at hx
    obtain ⟨h₀, -⟩ := ByteMem.holds_cons.mp h
    have hn : x.toNat ≠ 0 := fun h' => hx.2 (BitVec.eq_of_toNat_eq h')
    have ht : (buf cp).toNat = x.toNat := by
      rw [h₀, BitVec.extractLsb'_toNat, Nat.shiftRight_zero]
      omega
    have hne : buf cp ≠ 0 := by
      intro h'
      rw [h'] at ht
      exact hn ht.symm
    have hv : (buf cp).setWidth 16 = x := by
      apply BitVec.eq_of_toNat_eq
      rw [BitVec.toNat_setWidth, ht]
      exact Nat.mod_eq_of_lt x.isLt
    rw [decode, if_neg hne, hv, if_neg (not_or.mpr hx)]
    rfl

/-! ## Change masks -/

def bit (b : Bool) (x : BitVec 8) : BitVec 8 := if b then x else 0

/-- A change mask by its bits. -/
def mask (u w a s i p c : Bool) : BitVec 8 :=
  bit u NEW_U ||| bit w NEW_W ||| bit a NEW_A ||| bit s NEW_S ||| bit i NEW_I |||
    bit p TCP_PUSH_BIT ||| bit c NEW_C

section Mask

variable (u w a s i p c : Bool)

theorem mask_or : mask u w a s false false false ||| bit i NEW_I ||| bit p TCP_PUSH_BIT |||
    bit c NEW_C = mask u w a s i p c := by
  simp [mask, bit]

theorem mask_and :
    (mask u w a s i p c &&& NEW_U ≠ 0 ↔ u) ∧ (mask u w a s i p c &&& NEW_W ≠ 0 ↔ w) ∧
    (mask u w a s i p c &&& NEW_A ≠ 0 ↔ a) ∧ (mask u w a s i p c &&& NEW_S ≠ 0 ↔ s) ∧
    (mask u w a s i p c &&& NEW_I ≠ 0 ↔ i) ∧ (mask u w a s i p c &&& TCP_PUSH_BIT ≠ 0 ↔ p) ∧
    (mask u w a s i p c &&& NEW_C ≠ 0 ↔ c) := by
  revert u w a s i p c
  decide +kernel

theorem mask_specials :
    mask u w a s i p c &&& SPECIALS_MASK = mask u w a s false false false := by
  revert u w a s i p c
  decide

end Mask

/-! ## What the sender sends -/

/-- A special case that hides the loss of `TH_URG`: the last packet was urgent, this one is not,
and the sequence number, alone or together with the ack, moved by what the last one carried. -/
def UrgLost (ip hdr : ByteMem) : Prop :=
  hdr (4 * ipHl ip + 13) &&& TH_URG ≠ 0 ∧ ¬ Urgent ip ∧ deltaW ip hdr = 0 ∧ deltaS ip hdr ≠ 0 ∧
    deltaS ip hdr = carried ip hdr ∧ (deltaA ip hdr = 0 ∨ deltaA ip hdr = deltaS ip hdr)

instance (ip hdr : ByteMem) : Decidable (UrgLost ip hdr) := by unfold UrgLost; infer_instance

/-- The bits of the numbers that changed. -/
def plainMask (ip hdr : ByteMem) (i p c : Bool) : BitVec 8 :=
  mask (Urgent ip) (deltaW ip hdr ≠ 0) (deltaA ip hdr ≠ 0) (deltaS ip hdr ≠ 0) i p c

/-- The encoding of the numbers that changed. -/
def plainSeq (ip hdr : ByteMem) : List (BitVec 8) :=
  (if Urgent ip then encodeZ (urp ip ip) else []) ++
    (if deltaW ip hdr ≠ 0 then encode (deltaW ip hdr) else []) ++
    (if deltaA ip hdr ≠ 0 then encode ((deltaA ip hdr).setWidth 16) else []) ++
    (if deltaS ip hdr ≠ 0 then encode ((deltaS ip hdr).setWidth 16) else [])

/-- The sender's changes: one of the two special cases, or the numbers that changed. -/
inductive Changes (ip hdr : ByteMem) : BitVec 8 × List (BitVec 8) → Prop where
  | echo (hu : ¬ Urgent ip) (hw : deltaW ip hdr = 0) (ha : deltaA ip hdr = carried ip hdr)
      (hs : deltaS ip hdr = carried ip hdr) (hne : deltaS ip hdr ≠ 0) :
      Changes ip hdr (SPECIAL_I, [])
  | data (hu : ¬ Urgent ip) (hw : deltaW ip hdr = 0) (ha : deltaA ip hdr = 0)
      (hs : deltaS ip hdr = carried ip hdr) (hne : deltaS ip hdr ≠ 0) :
      Changes ip hdr (SPECIAL_D, [])
  | plain (hI : plainMask ip hdr false false false ≠ SPECIAL_I)
      (hD : plainMask ip hdr false false false ≠ SPECIAL_D) :
      Changes ip hdr (plainMask ip hdr false false false, plainSeq ip hdr)

theorem plainMask_eq (ip hdr : ByteMem) :
    (if Urgent ip then NEW_U else 0) ||| (if deltaW ip hdr ≠ 0 then NEW_W else 0) |||
        (if deltaA ip hdr ≠ 0 then NEW_A else 0) ||| (if deltaS ip hdr ≠ 0 then NEW_S else 0) =
      plainMask ip hdr false false false := by
  simp [plainMask, mask, bit]

/-- The four bits of `NEW_S|NEW_A` and of `NEW_S`. -/
theorem mask_eq_iff (u w a s : Bool) :
    (mask u w a s false false false = NEW_S ||| NEW_A ↔ !u && !w && a && s) ∧
      (mask u w a s false false false = NEW_S ↔ !u && !w && !a && s) := by
  revert u w a s
  decide +kernel

theorem slDeltas_cases (h : slDeltas ip hdr = some d) :
    (¬ Urgent ip → urp ip ip = urp ip hdr) ∧ (deltaA ip hdr).toNat ≤ 0xffff ∧
      (deltaS ip hdr).toNat ≤ 0xffff ∧ Changes ip hdr d := by
  unfold slDeltas at h
  dsimp only at h
  rw [plainMask_eq] at h
  by_cases hU : ¬ Urgent ip ∧ urp ip ip ≠ urp ip hdr
  · rw [if_pos hU] at h
    cases h
  rw [if_neg hU] at h
  by_cases hA : (deltaA ip hdr).toNat > 0xffff ∨ (deltaS ip hdr).toNat > 0xffff
  · rw [if_pos hA] at h
    cases h
  rw [if_neg hA] at h
  rw [not_or, Nat.not_lt, Nat.not_lt] at hA
  refine ⟨fun hu => not_not.mp fun hne => hU ⟨hu, hne⟩, hA.1, hA.2, ?_⟩
  by_cases h₀ : plainMask ip hdr false false false = 0
  · rw [if_pos h₀] at h
    split at h
    · cases h
      exact .plain (by rw [h₀]; decide) (by rw [h₀]; decide)
    · cases h
  rw [if_neg h₀] at h
  by_cases hsp : plainMask ip hdr false false false = SPECIAL_I ∨
      plainMask ip hdr false false false = SPECIAL_D
  · rw [if_pos hsp] at h
    cases h
  rw [if_neg hsp] at h
  rw [not_or] at hsp
  split at h
  · rename_i hI
    obtain ⟨hm, hSA, hS⟩ := hI
    have := (mask_eq_iff _ _ _ _).1.mp hm
    simp only [Bool.and_eq_true, Bool.not_eq_true', decide_eq_false_iff_not, decide_eq_true_eq,
      ne_eq, not_not] at this
    cases h
    exact .echo this.1.1.1 this.1.1.2 (hSA ▸ hS) hS this.2
  split at h
  · rename_i hD
    obtain ⟨hm, hS⟩ := hD
    have := (mask_eq_iff _ _ _ _).2.mp hm
    simp only [Bool.and_eq_true, Bool.not_eq_true', decide_eq_false_iff_not, decide_eq_true_eq,
      ne_eq, not_not] at this
    cases h
    exact .data this.1.1.1 this.1.1.2 this.1.2 hS this.2
  · cases h
    exact .plain hsp.1 hsp.2

/-! ## The walk -/

/-- Of the frame the walk has still to decode `l`, which ends at `k`. The header is the new
one on `U` and the old one elsewhere, except for the flags, which are `v`. -/
structure Synced (buf new old : ByteMem) (n t : ℕ) (v : BitVec 8) (U : ℕ → Prop) (k : ℕ)
    (l : List (BitVec 8)) (w : Walk) : Prop where
  rest : Holds buf w.cp l
  pos : w.cp + l.length = k
  hdr : Patched (fun i => i = t) U new old n w.hdr
  flag : w.hdr t = v

namespace Synced

variable {new old : ByteMem} {g : ByteMem → ByteMem} {x : BitVec 16}

theorem mono {V : ℕ → Prop} (h : Synced buf new old n t v U k l w) (hV : ∀ j, U j ↔ V j) :
    Synced buf new old n t v V k l w :=
  ⟨h.rest, h.pos, h.hdr.mono hV, h.flag⟩

/-- Write the flags. -/
theorem setFlag (h : Synced buf new old n t v U k l w) {y : BitVec 8}
    (hg : g w.hdr = w.hdr.put8 t y) : Synced buf new old n t y U k l (w.set g) := by
  have hh : (w.set g).hdr = w.hdr.put8 t y := hg
  refine ⟨h.rest, h.pos, ?_, ?_⟩
  · rw [hh]
    exact h.hdr.put8 rfl y
  · rw [hh, ByteMem.put8_same]

/-- Write a short field of the new header. -/
theorem set16 (h : Synced buf new old n t v U k l w) (hg : g w.hdr = w.hdr.put16 f (new.get16 f))
    (ht : t < f ∨ f + 2 ≤ t) :
    Synced buf new old n t v (fun j => U j ∨ (f ≤ j ∧ j < f + 2)) k l (w.set g) := by
  have hh : (w.set g).hdr = w.hdr.put16 f (new.get16 f) := hg
  refine ⟨h.rest, h.pos, ?_, ?_⟩
  · rw [hh]
    exact h.hdr.put16 rfl
  · rw [hh, ByteMem.put16_of_ne (by omega) (by omega), h.flag]

/-- Write a long field of the new header. -/
theorem set32 (h : Synced buf new old n t v U k l w) (hg : g w.hdr = w.hdr.put32 f (new.get32 f))
    (ht : t < f ∨ f + 4 ≤ t) :
    Synced buf new old n t v (fun j => U j ∨ (f ≤ j ∧ j < f + 4)) k l (w.set g) := by
  have hh : (w.set g).hdr = w.hdr.put32 f (new.get32 f) := hg
  refine ⟨h.rest, h.pos, ?_, ?_⟩
  · rw [hh]
    exact h.hdr.put32 rfl
  · rw [hh, ByteMem.put32_of_ne (by omega), h.flag]

/-- A short field that the two headers share. -/
theorem keep16 (h : Synced buf new old n t v U k l w) (hf : new.get16 f = old.get16 f) :
    Synced buf new old n t v (fun j => U j ∨ (f ≤ j ∧ j < f + 2)) k l w :=
  ⟨h.rest, h.pos, h.hdr.keep16 hf, h.flag⟩

theorem keep32 (h : Synced buf new old n t v U k l w) (hf : new.get32 f = old.get32 f) :
    Synced buf new old n t v (fun j => U j ∨ (f ≤ j ∧ j < f + 4)) k l w :=
  ⟨h.rest, h.pos, h.hdr.keep32 hf, h.flag⟩

/-- Add the difference to a long field. -/
theorem add32 (h : Synced buf new old n t v U k l w) {y : BitVec 32}
    (hg : g w.hdr = w.hdr.put32 f (w.hdr.get32 f + y)) (hy : y = new.get32 f - old.get32 f)
    (ht : t < f ∨ f + 4 ≤ t) (hf : f + 3 < n) (hU : ∀ j, f ≤ j → j < f + 4 → ¬ U j) :
    Synced buf new old n t v (fun j => U j ∨ (f ≤ j ∧ j < f + 4)) k l (w.set g) := by
  refine h.set32 ?_ ht
  rw [hg, h.hdr.get32 hf fun j h₁ h₂ => ⟨by omega, hU j h₁ h₂⟩, hy, BitVec.add_comm,
    BitVec.sub_add_cancel]

/-- Read a number. -/
theorem next (h : Synced buf new old n t v U k (encodeZ x ++ l) w) :
    (decode buf w.cp).1 = x ∧ Synced buf new old n t v U k l (w.to (decode buf w.cp).2) := by
  rw [decode_encodeZ h.rest]
  refine ⟨rfl, (ByteMem.holds_append.mp h.rest).2, ?_, h.hdr, h.flag⟩
  rw [← h.pos, List.length_append, ← Nat.add_assoc]
  rfl

theorem decodeU (h : Synced buf new old n t v U k (encodeZ x ++ l) w) (hx : x = new.get16 f)
    (ht : t < f ∨ f + 2 ≤ t) :
    Synced buf new old n t v (fun j => U j ∨ (f ≤ j ∧ j < f + 2)) k l (decodeU buf f w) := by
  obtain ⟨hval, hw⟩ := h.next
  rw [decodeU_eq]
  exact hw.set16 (by rw [hval, hx]) ht

theorem decodeS (h : Synced buf new old n t v U k (encodeZ x ++ l) w)
    (hx : old.get16 f + x = new.get16 f) (ht : t < f ∨ f + 2 ≤ t) (hf : f + 1 < n)
    (hU : ¬ U f ∧ ¬ U (f + 1)) :
    Synced buf new old n t v (fun j => U j ∨ (f ≤ j ∧ j < f + 2)) k l (decodeS buf f w) := by
  obtain ⟨hval, hw⟩ := h.next
  rw [decodeS_eq]
  refine hw.set16 ?_ ht
  rw [hval, hw.hdr.get16 hf (by omega) hU, hx]

theorem decodeL (h : Synced buf new old n t v U k (encodeZ x ++ l) w)
    (hx : x.setWidth 32 = new.get32 f - old.get32 f) (ht : t < f ∨ f + 4 ≤ t) (hf : f + 3 < n)
    (hU : ∀ j, f ≤ j → j < f + 4 → ¬ U j) :
    Synced buf new old n t v (fun j => U j ∨ (f ≤ j ∧ j < f + 4)) k l (decodeL buf f w) := by
  obtain ⟨hval, hw⟩ := h.next
  rw [decodeL_eq]
  exact hw.add32 (by rw [hval]) hx ht hf hU

/-- A short field whose change is sent when it is not zero. -/
theorem short {c : Prop} [Decidable c]
    (h : Synced buf new old n t v U k ((if x ≠ 0 then encode x else []) ++ l) w)
    (hx : x = new.get16 f - old.get16 f) (hc : c ↔ x ≠ 0) (ht : t < f ∨ f + 2 ≤ t)
    (hf : f + 1 < n) (hU : ¬ U f ∧ ¬ U (f + 1)) :
    Synced buf new old n t v (fun j => U j ∨ (f ≤ j ∧ j < f + 2)) k l
      (if c then Slip.decodeS buf f w else w) := by
  by_cases h₀ : x = 0
  · rw [if_neg (not_not.mpr h₀)] at h
    rw [if_neg (hc.not.mpr (not_not.mpr h₀))]
    have heq : new.get16 f = old.get16 f := by
      rw [h₀] at hx
      exact (BitVec.sub_eq_iff_eq_add.mp hx.symm).trans (BitVec.zero_add _)
    exact h.keep16 heq
  · rw [if_pos h₀, encode_eq_encodeZ h₀] at h
    rw [if_pos (hc.mpr h₀)]
    refine h.decodeS ?_ ht hf hU
    rw [hx, BitVec.add_comm, BitVec.sub_add_cancel]

/-- A long field whose change is sent when it is not zero, and fits into 16 bits. -/
theorem long {c : Prop} [Decidable c] {y : BitVec 32}
    (h : Synced buf new old n t v U k ((if y ≠ 0 then encode (y.setWidth 16) else []) ++ l) w)
    (hy : y = new.get32 f - old.get32 f) (hle : y.toNat ≤ 0xffff) (hc : c ↔ y ≠ 0)
    (ht : t < f ∨ f + 4 ≤ t) (hf : f + 3 < n) (hU : ∀ j, f ≤ j → j < f + 4 → ¬ U j) :
    Synced buf new old n t v (fun j => U j ∨ (f ≤ j ∧ j < f + 4)) k l
      (if c then Slip.decodeL buf f w else w) := by
  by_cases h₀ : y = 0
  · rw [if_neg (not_not.mpr h₀)] at h
    rw [if_neg (hc.not.mpr (not_not.mpr h₀))]
    have heq : new.get32 f = old.get32 f := by
      rw [h₀] at hy
      exact (BitVec.sub_eq_iff_eq_add.mp hy.symm).trans (BitVec.zero_add _)
    exact h.keep32 heq
  · have hw : (y.setWidth 16).setWidth 32 = y := by
      apply BitVec.eq_of_toNat_eq
      rw [BitVec.toNat_setWidth, BitVec.toNat_setWidth]
      omega
    have hne : y.setWidth 16 ≠ 0 := by
      intro h'
      rw [h'] at hw
      exact h₀ hw.symm
    rw [if_pos h₀, encode_eq_encodeZ hne] at h
    rw [if_pos (hc.mpr h₀)]
    exact h.decodeL (by rw [hw, hy]) ht hf hU

end Synced

/-- A header as the receiver keeps it: its checksum cleared. -/
def clearSum (m : ByteMem) : ByteMem := m.put16 10 0

theorem clearSum_of_ne (h : f ≠ 10) (h' : f ≠ 11) : clearSum m f = m f :=
  ByteMem.put16_of_ne h h' 0

theorem clearSum_get16 (h : 12 ≤ f ∨ f + 1 < 10) : (clearSum m).get16 f = m.get16 f :=
  ByteMem.get16_eq_iff.mpr
    ⟨clearSum_of_ne (by omega) (by omega), clearSum_of_ne (by omega) (by omega)⟩

theorem clearSum_get32 (h : 12 ≤ f) : (clearSum m).get32 f = m.get32 f :=
  ByteMem.get32_eq_iff.mpr ⟨clearSum_get16 (by omega), clearSum_get16 (by omega)⟩

theorem deltaW_eq (hth : th = 4 * ipHl P) :
    deltaW P S = (clearSum P).get16 (th + 14) - (clearSum S).get16 (th + 14) := by
  rw [deltaW, clearSum_get16 (by omega), clearSum_get16 (by omega), hth]

theorem deltaA_eq (hth : th = 4 * ipHl P) (h : 20 ≤ th) :
    deltaA P S = (clearSum P).get32 (th + 8) - (clearSum S).get32 (th + 8) := by
  rw [deltaA, clearSum_get32 (by omega), clearSum_get32 (by omega), hth]

theorem deltaS_eq (hth : th = 4 * ipHl P) (h : 20 ≤ th) :
    deltaS P S = (clearSum P).get32 (th + 4) - (clearSum S).get32 (th + 4) := by
  rw [deltaS, clearSum_get32 (by omega), clearSum_get32 (by omega), hth]

/-- The flags after the receiver's assignments to `TH_URG`. -/
def urgFlag (ip : ByteMem) (v : BitVec 8) : BitVec 8 :=
  if Urgent ip then v ||| TH_URG else v &&& ~~~TH_URG

/-- The bytes of the TCP numbers that the change mask is about, the flags aside. -/
def TcpNums (th j : ℕ) : Prop := (th + 4 ≤ j ∧ j < th + 12) ∨ (th + 14 ≤ j ∧ j < th + 20)

/-- What the receiver adds in the special cases. -/
theorem Synced.carried_eq {cs_hlen : BitVec 16} {new : ByteMem}
    (h : Synced buf new (clearSum S) n t v U k l w) (hn : 4 < n) (ht : 4 < t)
    (hU : ¬ U 2 ∧ ¬ U 3) (hlen : cs_hlen.toNat = hdrLen P) :
    (w.hdr.get16 2).setWidth 32 - cs_hlen.setWidth 32 = carried P S := by
  have hc : cs_hlen.setWidth 32 = BitVec.ofNat 32 (hdrLen P) := by
    apply BitVec.eq_of_toNat_eq
    rw [BitVec.toNat_setWidth, BitVec.toNat_ofNat, hlen]
  rw [h.hdr.get16 (by omega) (by omega) hU, clearSum_get16 (by omega), carried, hc]

/-- The switch moves the walk over the numbers, and patches their fields. -/
theorem slSpecials_sent {cs_hlen : BitVec 16} {i p c : Bool} (hth : th = 4 * ipHl P)
    (h20 : 20 ≤ th) (hn : th + 20 ≤ n) (hlen : cs_hlen.toNat = hdrLen P)
    (hu : ¬ Urgent P → urp P P = urp P S) (hA : (deltaA P S).toNat ≤ 0xffff)
    (hS : (deltaS P S).toNat ≤ 0xffff) (hd : Changes P S d)
    (h : Synced buf (clearSum P) (clearSum S) n (th + 13) v
      (fun j => th + 16 ≤ j ∧ j < th + 18) k (d.2 ++ l) w) :
    ∃ v', (v' = urgFlag P v ∨ v' = v ∧ ¬ Urgent P ∧ deltaW P S = 0 ∧ deltaS P S ≠ 0 ∧
        deltaS P S = carried P S ∧ (deltaA P S = 0 ∨ deltaA P S = deltaS P S)) ∧
      Synced buf (clearSum P) (clearSum S) n (th + 13) v' (TcpNums th) k l
        (slSpecials buf (d.1 ||| bit i NEW_I ||| bit p TCP_PUSH_BIT ||| bit c NEW_C) cs_hlen th
          w) := by
  have hcar := h.carried_eq (by omega) (by omega) (by omega) hlen
  have hwin : deltaW P S = 0 →
      (clearSum P).get16 (th + 14) = (clearSum S).get16 (th + 14) := by
    intro hw
    rw [deltaW_eq hth] at hw
    exact (BitVec.sub_eq_iff_eq_add.mp hw).trans (BitVec.zero_add _)
  have hurp : ¬ Urgent P → (clearSum P).get16 (th + 18) = (clearSum S).get16 (th + 18) := by
    intro hu'
    have := hu hu'
    rw [clearSum_get16 (by omega), clearSum_get16 (by omega)]
    rwa [urp, urp, ← hth] at this
  unfold slSpecials
  dsimp only
  rw [hcar]
  cases hd with
  | echo hu' hw ha hs hne =>
    refine ⟨v, Or.inr ⟨rfl, hu', hw, hne, hs, Or.inr (ha.trans hs.symm)⟩, ?_⟩
    rw [show SPECIAL_I = mask true true false true false false false from rfl, mask_or,
      mask_specials, if_pos rfl]
    have h₁ := h.add32 (f := th + 8)
      (g := fun hdr => hdr.put32 (th + 8) (hdr.get32 (th + 8) + carried P S)) rfl
      (by rw [← ha, deltaA_eq hth h20]) (by omega) (by omega) (by omega)
    have h₂ := h₁.add32 (f := th + 4)
      (g := fun hdr => hdr.put32 (th + 4) (hdr.get32 (th + 4) + carried P S)) rfl
      (by rw [← hs, deltaS_eq hth h20]) (by omega) (by omega) (by omega)
    refine ((h₂.keep16 (hwin hw)).keep16 (hurp hu')).mono fun j => ?_
    unfold TcpNums
    omega
  | data hu' hw ha hs hne =>
    refine ⟨v, Or.inr ⟨rfl, hu', hw, hne, hs, Or.inl ha⟩, ?_⟩
    rw [show SPECIAL_D = mask true true true true false false false from rfl, mask_or,
      mask_specials, if_neg (by decide), if_pos rfl]
    have hack : (clearSum P).get32 (th + 8) = (clearSum S).get32 (th + 8) := by
      rw [deltaA_eq hth h20] at ha
      exact (BitVec.sub_eq_iff_eq_add.mp ha).trans (BitVec.zero_add _)
    have h₁ := h.add32 (f := th + 4)
      (g := fun hdr => hdr.put32 (th + 4) (hdr.get32 (th + 4) + carried P S)) rfl
      (by rw [← hs, deltaS_eq hth h20]) (by omega) (by omega) (by omega)
    refine (((h₁.keep32 hack).keep16 (hwin hw)).keep16 (hurp hu')).mono fun j => ?_
    unfold TcpNums
    omega
  | plain hI hD =>
    refine ⟨urgFlag P v, Or.inl rfl, ?_⟩
    have hm := mask_and (Urgent P) (deltaW P S ≠ 0) (deltaA P S ≠ 0) (deltaS P S ≠ 0) i p c
    simp only [decide_eq_true_eq] at hm
    obtain ⟨hU, hW, hA', hS', -, -, -⟩ := hm
    unfold plainMask at hI hD ⊢
    rw [mask_or, mask_specials, if_neg hI, if_neg hD]
    simp only [plainSeq, List.append_assoc] at h
    unfold slNumbers
    -- the flags and the urgent pointer
    have h₁ : ∃ w₁, Synced buf (clearSum P) (clearSum S) n (th + 13) (urgFlag P v)
        (fun j => (th + 16 ≤ j ∧ j < th + 18) ∨ (th + 18 ≤ j ∧ j < th + 18 + 2)) k
        ((if deltaW P S ≠ 0 then encode (deltaW P S) else []) ++
          ((if deltaA P S ≠ 0 then encode ((deltaA P S).setWidth 16) else []) ++
            ((if deltaS P S ≠ 0 then encode ((deltaS P S).setWidth 16) else []) ++ l))) w₁ ∧
        w₁ = if mask (Urgent P) (deltaW P S ≠ 0) (deltaA P S ≠ 0) (deltaS P S ≠ 0) i p c &&&
            NEW_U ≠ 0 then
          decodeU buf (th + 18) (w.set fun hdr => hdr.put8 (th + 13) (hdr (th + 13) ||| TH_URG))
        else w.set fun hdr => hdr.put8 (th + 13) (hdr (th + 13) &&& ~~~TH_URG) := by
      refine ⟨_, ?_, rfl⟩
      by_cases hu' : Urgent P
      · rw [if_pos hu'] at h
        rw [if_pos (hU.mpr hu'), urgFlag, if_pos hu']
        refine (h.setFlag ?_).decodeU ?_ (by omega)
        · rw [h.flag]
        · rw [clearSum_get16 (by omega), hth, urp]
      · rw [if_neg hu'] at h
        rw [if_neg (hU.not.mpr hu'), urgFlag, if_neg hu']
        refine (h.setFlag ?_).keep16 (hurp hu')
        rw [h.flag]
    obtain ⟨w₁, h₁, hw₁⟩ := h₁
    dsimp only
    rw [← hw₁]
    have h₂ := h₁.short (f := th + 14) (deltaW_eq hth) hW (by omega) (by omega) (by omega)
    have h₃ := h₂.long (f := th + 8) (deltaA_eq hth h20) hA hA' (by omega) (by omega) (by omega)
    have h₄ := h₃.long (f := th + 4) (deltaS_eq hth h20) hS hS' (by omega) (by omega) (by omega)
    refine h₄.mono fun j => ?_
    unfold TcpNums
    omega

/-! ## Headers of one shape -/

/-- The header of a packet that the sender may compress: its lengths are those of a TCP/IP
header that fits the saved one, the reserved bits are zero, and of the control bits only
`TH_ACK`, with `TH_PUSH` and `TH_URG` perhaps, is set. -/
structure Header (m : ByteMem) : Prop where
  hl : 5 ≤ ipHl m
  off : 5 ≤ thOff m (4 * ipHl m)
  len : hdrLen m ≤ MAX_HDR
  x2 : (m (4 * ipHl m + 12)).toNat % 16 = 0
  flags : m (4 * ipHl m + 13) &&& ~~~(TH_PUSH ||| TH_URG) = TH_ACK

theorem Header.le_hdrLen (h : Header m) : 4 * ipHl m + 20 ≤ hdrLen m := by
  have := h.off
  rw [hdrLen]
  omega

/-- The fields that may differ between two headers of one shape. -/
def Differ (th j : ℕ) : Prop := (2 ≤ j ∧ j < 6) ∨ j = 10 ∨ j = 11 ∨ TcpNums th j ∨ j = th + 13

theorem eq_of_slSameShape (hP : Header P) (hS : Header S) (hm : slMatch P S)
    (hs : slSameShape P S) : ipHl S = ipHl P ∧ hdrLen S = hdrLen P ∧
      ∀ j < hdrLen P, ¬ Differ (4 * ipHl P) j → P j = S j := by
  obtain ⟨hv, hf, htp, hoff, hio, hto⟩ := hs
  have h₀ : P 0 = S 0 := ByteMem.eq_of_get16_eq hv (Nat.le_refl _) (by omega)
  have hhl : ipHl S = ipHl P := by rw [ipHl, ipHl, h₀]
  have hlen : hdrLen S = hdrLen P := by rw [hdrLen, hdrLen, hhl, hoff]
  refine ⟨hhl, hlen, fun j hj hd => ?_⟩
  obtain ⟨hsrc, hdst, hport⟩ := hm
  rw [hhl] at hport
  have hx := hP.x2
  have hx' := hS.x2
  rw [hhl] at hx'
  have hl := hP.hl
  simp only [Differ, TcpNums, not_or] at hd
  rw [hdrLen] at hj
  -- the fields in the order in which they lie in the header
  by_cases h2 : j < 2
  · exact ByteMem.eq_of_get16_eq hv (Nat.zero_le _) h2
  by_cases h8 : j < 8
  · exact ByteMem.eq_of_get16_eq hf (by omega) h8
  by_cases h10 : j < 10
  · exact ByteMem.eq_of_get16_eq htp (by omega) h10
  by_cases h16 : j < 16
  · exact ByteMem.eq_of_get32_eq hsrc (by omega) h16
  by_cases h20 : j < 20
  · exact ByteMem.eq_of_get32_eq hdst (by omega) h20
  by_cases hth : j < 4 * ipHl P
  · exact ByteMem.eq_of_bytes_eq (hio (by omega)) (by omega) (by omega)
  by_cases hpo : j < 4 * ipHl P + 4
  · exact ByteMem.eq_of_get32_eq hport (by omega) hpo
  by_cases h12 : j = 4 * ipHl P + 12
  · subst h12
    apply BitVec.eq_of_toNat_eq
    simp only [thOff] at hoff
    omega
  · exact ByteMem.eq_of_bytes_eq (hto (by omega)) (by omega) (by omega)

/-! ## From header to header -/

/-- The flags a compressible packet may have. -/
theorem flags_cases {x : BitVec 8} (h : x &&& ~~~(TH_PUSH ||| TH_URG) = TH_ACK) :
    x = 0x10 ∨ x = 0x18 ∨ x = 0x30 ∨ x = 0x38 := by
  revert x
  decide +kernel

/-- The flags after the receiver's assignments to `TH_PUSH`. -/
def pushFlag (x v : BitVec 8) : BitVec 8 :=
  if x &&& TH_PUSH ≠ 0 then v ||| TH_PUSH else v &&& ~~~TH_PUSH

/-- The flags `y` of the last packet become those of this one, unless a special case keeps a
`TH_URG` that was set. -/
theorem flags_restored {x y : BitVec 8} (hx : x &&& ~~~(TH_PUSH ||| TH_URG) = TH_ACK)
    (hy : y &&& ~~~(TH_PUSH ||| TH_URG) = TH_ACK) :
    (if x &&& TH_URG ≠ 0 then pushFlag x y ||| TH_URG else pushFlag x y &&& ~~~TH_URG) = x ∧
      (x &&& TH_URG = 0 → y &&& TH_URG = 0 → pushFlag x y = x) := by
  rcases flags_cases hx with rfl | rfl | rfl | rfl <;>
    rcases flags_cases hy with rfl | rfl | rfl | rfl <;> decide

theorem Changes.mask (h : Changes P S d) : ∃ u w a s, d.1 = mask u w a s false false false := by
  cases h with
  | echo => exact ⟨true, true, false, true, rfl⟩
  | data => exact ⟨true, true, true, true, rfl⟩
  | plain => exact ⟨_, _, _, _, rfl⟩

def deltaI (ip hdr : ByteMem) : BitVec 32 :=
  (ip.get16 4).setWidth 32 - (hdr.get16 4).setWidth 32

theorem slDeltaId_eq (P S : ByteMem) (d : BitVec 8 × List (BitVec 8)) :
    slDeltaId P S d = (d.1 ||| bit (deltaI P S ≠ 1) NEW_I |||
        bit (P (4 * ipHl P + 13) &&& TH_PUSH ≠ 0) TCP_PUSH_BIT,
      d.2 ++ if deltaI P S ≠ 1 then encodeZ ((deltaI P S).setWidth 16) else []) := by
  unfold slDeltaId deltaI bit
  simp only [decide_eq_true_eq]
  split
  · rfl
  · rw [show d.1 ||| (0 : BitVec 8) = d.1 from BitVec.or_zero, List.append_nil]

/-- The change of the IP id, wrapped to its 16 bits. -/
theorem setWidth_deltaI (P S : ByteMem) :
    (deltaI P S).setWidth 16 = P.get16 4 - S.get16 4 := by
  apply BitVec.eq_of_toNat_eq
  rw [deltaI, BitVec.toNat_setWidth, BitVec.toNat_sub, BitVec.toNat_setWidth,
    BitVec.toNat_setWidth, BitVec.toNat_sub]
  omega

/-- The IP id, sent when it did not go up by one. -/
theorem slIpId_sent {changes : BitVec 8} {new old : ByteMem} (h : Synced buf new old n t v U k
      ((if deltaI P S ≠ 1 then encodeZ ((deltaI P S).setWidth 16) else []) ++ l) w)
    (hnew : new.get16 4 = P.get16 4) (hold : old.get16 4 = S.get16 4) (hc : changes &&& NEW_I ≠ 0 ↔ deltaI P S ≠ 1)
    (ht : 6 ≤ t) (hn : 5 < n) (hU : ¬ U 4 ∧ ¬ U 5) :
    Synced buf new old n t v (fun j => U j ∨ (4 ≤ j ∧ j < 6)) k l (slIpId buf changes w) := by
  have hid : old.get16 4 + (deltaI P S).setWidth 16 = new.get16 4 := by
    rw [hnew, hold, setWidth_deltaI, BitVec.add_comm, BitVec.sub_add_cancel]
  unfold slIpId
  by_cases hI : deltaI P S = 1
  · rw [if_neg (hc.not.mpr (not_not.mpr hI))]
    rw [if_neg (not_not.mpr hI)] at h
    refine h.set16 ?_ (by omega)
    rw [h.hdr.get16 hn (by omega) hU, ← hid, hI]
    rfl
  · rw [if_pos (hc.mpr hI)]
    rw [if_pos hI] at h
    exact h.decodeS hid (by omega) hn hU

/-- The receiver's walk over what the sender put in front of the data arrives at the header
that was sent, its checksum aside, and at the data. -/
theorem slWalk_sent {cs : Cstate} {c : Bool} (hP : Header P) (hS : Header S) (hm : slMatch P S)
    (hs : slSameShape P S) (hd : slDeltas P S = some d) (hlost : ¬ UrgLost P S)
    (hlen : cs.cs_hlen.toNat = hdrLen S) (hR : ∀ j < hdrLen S, cs.cs_hdr j = clearSum S j)
    (hsum : buf.get16 cp = P.get16 (4 * ipHl P + 16))
    (hbuf : Holds buf (cp + 2) ((slDeltaId P S d).2 ++ l)) :
    let w := slWalk buf ((slDeltaId P S d).1 ||| bit c NEW_C) cs cp
    Holds buf w.cp l ∧ w.cp = cp + 2 + (slDeltaId P S d).2.length ∧
      ∀ j < hdrLen P, (w.hdr.put16 2 (P.get16 2)) j = clearSum P j := by
  obtain ⟨hhl, hlen', hsame⟩ := eq_of_slSameShape hP hS hm hs
  obtain ⟨hu, hA, hS', hch⟩ := slDeltas_cases hd
  obtain ⟨u, w', a, s, hmask⟩ := hch.mask
  have hle := hP.le_hdrLen
  have h5 := hP.hl
  rw [hlen'] at hlen hR
  have hth : 4 * ipHl cs.cs_hdr = 4 * ipHl P := by
    rw [ipHl, hR 0 (by omega), clearSum_of_ne (by omega) (by omega), ← hhl, ipHl]
  rw [slDeltaId_eq] at hbuf ⊢
  dsimp only at hbuf ⊢
  rw [List.append_assoc] at hbuf
  set i : Bool := decide (deltaI P S ≠ 1) with hi
  set p : Bool := decide (P (4 * ipHl P + 13) &&& TH_PUSH ≠ 0) with hp
  obtain ⟨-, -, -, -, hbI, hbP, -⟩ := mask_and u w' a s i p c
  rw [← mask_or, ← hmask] at hbI hbP
  set changes := d.1 ||| bit i NEW_I ||| bit p TCP_PUSH_BIT ||| bit c NEW_C with hchanges
  set ids := if deltaI P S ≠ 1 then encodeZ ((deltaI P S).setWidth 16) else [] with hids
  set th := 4 * ipHl P with hth'
  set k := cp + 2 + (d.2 ++ (ids ++ l)).length with hk
  -- before the switch: the checksum and `TH_PUSH`
  have h₀ : Synced buf (clearSum P) (clearSum S) (hdrLen P) (th + 13) (S (th + 13))
      (fun _ => False) k (d.2 ++ (ids ++ l)) ((⟨cp, cs.cs_hdr, cp⟩ : Walk).to (cp + 2)) :=
    ⟨hbuf, rfl, ByteMem.Patched.start fun j hj _ => (hR j hj).symm, by
      rw [← clearSum_of_ne (m := S) (f := th + 13) (by omega) (by omega)]
      exact hR _ (by omega)⟩
  have h₁ := (h₀.set16 (f := th + 16) (g := fun hdr => hdr.put16 (th + 16) (buf.get16 cp))
    (by rw [hsum, clearSum_get16 (by omega)]) (by omega)).mono
    (V := fun j => th + 16 ≤ j ∧ j < th + 18) fun j => by rw [false_or]
  have h₂ := h₁.setFlag (y := pushFlag (P (th + 13)) (S (th + 13)))
    (g := fun hdr =>
      if changes &&& TCP_PUSH_BIT ≠ 0 then hdr.put8 (th + 13) (hdr (th + 13) ||| TH_PUSH)
      else hdr.put8 (th + 13) (hdr (th + 13) &&& ~~~TH_PUSH)) (by
        rw [h₁.flag, pushFlag]
        by_cases hpush : P (th + 13) &&& TH_PUSH ≠ 0
        · rw [if_pos (hbP.mpr (decide_eq_true hpush)), if_pos hpush]
        · rw [if_neg (hbP.not.mpr (by simpa [hp] using hpush)), if_neg hpush])
  obtain ⟨v', hv', h₃⟩ := slSpecials_sent (i := i) (p := p) (c := c) hth' (by omega) hle hlen hu
    hA hS' hch h₂
  -- the special cases leave `TH_URG` as it is, which is right unless it is lost
  have hflag : v' = P (th + 13) := by
    have hfS := hS.flags
    rw [hhl] at hfS
    obtain ⟨hset, hkeep⟩ := flags_restored hP.flags hfS
    rcases hv' with rfl | ⟨rfl, hu', hw, hne, hcar, hack⟩
    · exact hset
    · refine hkeep (not_not.mp hu') (not_not.mp fun hurg => ?_)
      exact hlost ⟨hurg, hu', hw, hne, hcar, hack⟩
  have h₄ := slIpId_sent h₃ (clearSum_get16 (by omega)) (clearSum_get16 (by omega))
    (hbI.trans decide_eq_true_iff) (by omega) (by omega) (by unfold TcpNums; omega)
  have h₅ : Synced buf (clearSum P) (clearSum S) (hdrLen P) (th + 13) v'
      (fun j => TcpNums th j ∨ (4 ≤ j ∧ j < 6)) k l (slWalk buf changes cs cp) := by
    unfold slWalk
    rw [hth]
    exact h₄
  refine ⟨h₅.rest, ?_, ?_⟩
  · have := h₅.pos
    rw [hk, List.length_append, List.length_append] at this
    rw [List.length_append]
    omega
  · have h₆ := h₅.set16 (f := 2) (g := fun hdr => hdr.put16 2 (P.get16 2))
      (by rw [clearSum_get16 (by omega)]) (by omega)
    intro j hj
    by_cases ht : j = th + 13
    · subst ht
      rw [clearSum_of_ne (by omega) (by omega), ← hflag]
      exact h₆.flag
    · refine (h₆.hdr.finish (fun j hj hE hU => ?_) j hj ht).symm
      by_cases h10 : j = 10 ∨ j = 11
      · rcases h10 with rfl | rfl <;> rfl
      · rw [clearSum_of_ne (by omega) (by omega), clearSum_of_ne (by omega) (by omega)]
        refine hsame j hj ?_
        unfold Differ
        unfold TcpNums at hU ⊢
        omega

end Slip
