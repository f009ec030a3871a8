import NetBsd.Net.Bpf.Safety

/-!
# Filtering an mbuf chain

`bpf_mtap` runs the filter on an mbuf chain with `buflen` 0, `bpf_tap` on the packet's bytes in
one buffer. The two runs agree as long as every load does: its offset is not negative, a word
or half-word lies in one mbuf or starts an mbuf and ends in the next, a half-word at an
absolute offset lies inside the packet, and a byte at an indexed offset is below 128. Where a
load straddles two mbufs in any other way, `m_xword` and `m_xhalf` look in the wrong place or
give up.

## Main definitions

* `WordFits`, `HalfFits`: the cuttings of the packet a load gets through
* `ChainOk`: the load about to run gets through

## Main results

* `mSkip_eq_none_iff`, `mSkip_spec`: the loop that walks the chain finds the mbuf of a byte
* `bpfFilter_chain_eq`: under `ChainOk` the run on the chain is the run on the buffer
-/

namespace Bpf

open Machine (Outcome Reached)

/-! ## Walking the chain -/

theorem mSkip_eq_none_iff {m : List Byte} {next : List (List Byte)} {k : Int} :
    mSkip m next k = none ↔ ((m ++ next.flatten).length : Int) ≤ k := by
  induction next generalizing m k with
  | nil =>
    unfold mSkip
    split <;> simp <;> omega
  | cons m' next ih =>
    unfold mSkip
    split
    · rw [ih, List.flatten_cons]
      simp only [List.length_append, Nat.cast_add]
      omega
    · rw [List.flatten_cons]
      simp only [List.length_append, Nat.cast_add, reduceCtorEq, false_iff]
      omega

/-- The mbuf the walk stops at holds the byte at `k`, and the mbufs after it the rest. -/
theorem mSkip_spec {m : List Byte} {next : List (List Byte)} {k : Int} {m' : List Byte}
    {next' : List (List Byte)} {r : Int} (hk : 0 ≤ k)
    (h : mSkip m next k = some (m', next', r)) :
    0 ≤ r ∧ r < m'.length ∧ ∃ pre : List Byte, k = pre.length + r ∧
      m ++ next.flatten = pre ++ (m' ++ next'.flatten) := by
  induction next generalizing m k with
  | nil =>
    unfold mSkip at h
    split at h
    · cases h
    · cases h
      exact ⟨hk, by omega, [], by simp, by simp⟩
  | cons m₁ next ih =>
    unfold mSkip at h
    split at h
    · obtain ⟨h₀, h₁, pre, hpre, heq⟩ := ih (by omega) h
      exact ⟨h₀, h₁, m ++ pre, by simp; omega, by simp [heq]⟩
    · cases h
      exact ⟨hk, by omega, [], by simp, by simp⟩

theorem byteAt_append_right (pre l : List Byte) {i : Int} (hi : 0 ≤ i) :
    byteAt (pre ++ l) (pre.length + i) = byteAt l i := by
  have h : ((pre.length : Int) + i).toNat = pre.length + i.toNat := by omega
  rw [byteAt, byteAt, if_pos (by omega), if_pos hi, h,
    List.getElem?_append_right (by omega : pre.length ≤ pre.length + i.toNat),
    Nat.add_sub_cancel_left]

theorem byteAt_append_left (l l' : List Byte) {i : Int} (hi : i < l.length) :
    byteAt (l ++ l') i = byteAt l i := by
  by_cases h : 0 ≤ i
  · simp [byteAt, h, List.getElem?_append_left (by omega : i.toNat < l.length)]
  · simp [byteAt, h]

/-- The bytes of an mbuf and of the one after it, in the packet. -/
theorem byteAt_append_append {l m : List Byte} (l' : List Byte) {i : Int} (h₀ : l.length ≤ i)
    (h₁ : i - l.length < m.length) : byteAt (l ++ (m ++ l')) i = byteAt m (i - l.length) := by
  have h := byteAt_append_right l (m ++ l') (i := i - l.length) (by omega)
  rw [show (l.length : Int) + (i - l.length) = i by omega] at h
  rw [h, byteAt_append_left _ _ h₁]

/-! ## One load -/

/-- A word that starts at `r` in the mbuf `m`, with the mbufs `next` after it: it lies in `m`,
or starts `m` and ends in the next mbuf, or runs past the end of the packet. -/
def WordFits (m : List Byte) (next : List (List Byte)) (r : Int) : Prop :=
  r + 4 ≤ m.length ∨
    (r = 0 ∧ 4 ≤ m.length + (next.headD []).length) ∨
    ((m ++ next.flatten).length : Int) < r + 4

/-- A half-word that starts at `r` in the mbuf `m`: it lies in `m`, or starts `m` and ends in
the next mbuf. -/
def HalfFits (m : List Byte) (next : List (List Byte)) (r : Int) : Prop :=
  r + 2 ≤ m.length ∨ (r = 0 ∧ next.headD [] ≠ [])

/-- At the start of an mbuf the word of `m_xword` is the right one. -/
theorem mXwordSplit_zero {m m0 : List Byte} (l : List Byte) (hm : 0 < m.length)
    (hm' : m.length < 4) (h : 4 ≤ m.length + m0.length) :
    mXwordSplit m m0 0 = extractLong (m ++ (m0 ++ l)) 0 := by
  have hcp (i : Int) (hi : i < m.length) : byteAt (m ++ (m0 ++ l)) i = byteAt m i :=
    byteAt_append_left m (m0 ++ l) hi
  have hnp (i : Int) (hi : m.length ≤ i) (hi' : i < 4) :
      byteAt (m ++ (m0 ++ l)) i = byteAt m0 (i - m.length) :=
    byteAt_append_append l hi (by omega)
  unfold mXwordSplit extractLong
  simp only [Int.zero_add, Int.sub_zero]
  obtain hl | hl | hl : m.length = 1 ∨ m.length = 2 ∨ m.length = 3 := by omega
  · rw [hcp 0 (by omega), hnp 1 (by omega) (by omega), hnp 2 (by omega) (by omega),
      hnp 3 (by omega) (by omega), hl]
    rfl
  · rw [hcp 0 (by omega), hcp 1 (by omega), hnp 2 (by omega) (by omega),
      hnp 3 (by omega) (by omega), hl]
    rfl
  · rw [hcp 0 (by omega), hcp 1 (by omega), hcp 2 (by omega), hnp 3 (by omega) (by omega), hl]
    rfl

variable {m : List Byte} {next : List (List Byte)} {k : Int}

theorem mXword_eq (hk : 0 ≤ k)
    (hfit : ∀ m' next' r, mSkip m next k = some (m', next', r) → WordFits m' next' r) :
    mXword m next k =
      if k + 4 ≤ (m ++ next.flatten).length then
        (extractLong (m ++ next.flatten) k).map fun a => (a, false)
      else .ok (0, true) := by
  unfold mXword
  cases hs : mSkip m next k with
  | none =>
    have := mSkip_eq_none_iff.mp hs
    rw [if_neg (by omega)]
  | some x =>
    obtain ⟨m', next', r⟩ := x
    obtain ⟨hr₀, hr₁, pre, hpre, heq⟩ := mSkip_spec hk hs
    have hfit := hfit m' next' r hs
    -- the four bytes, read from the mbuf on
    have hlong : extractLong (m ++ next.flatten) k = extractLong (m' ++ next'.flatten) r := by
      rw [heq, hpre]
      simp only [extractLong, Int.add_assoc]
      rw [byteAt_append_right _ _ hr₀, byteAt_append_right _ _ (by omega),
        byteAt_append_right _ _ (by omega), byteAt_append_right _ _ (by omega)]
    have hlen : ((m ++ next.flatten).length : Int) =
        pre.length + (m' ++ next'.flatten).length := by
      rw [heq]
      simp
    have hlong_ok (h : r + 4 ≤ m'.length) :
        extractLong (m' ++ next'.flatten) r = extractLong m' r := by
      simp only [extractLong]
      rw [byteAt_append_left _ _ (by omega), byteAt_append_left _ _ (by omega),
        byteAt_append_left _ _ (by omega), byteAt_append_left _ _ (by omega)]
    have hrest : ((m' ++ next'.flatten).length : Int) = m'.length + next'.flatten.length := by
      simp
    dsimp only
    obtain hin | ⟨rfl, hsum⟩ | hend := hfit
    · rw [if_pos (by omega), if_pos (by omega), hlong, hlong_ok hin]
      rfl
    · by_cases hin : (0 : Int) + 4 ≤ m'.length
      · rw [if_pos (by omega), if_pos (by omega), hlong, hlong_ok hin]
        rfl
      · cases next' with
        | nil => simp at hsum; omega
        | cons m0 rest =>
          simp only [List.headD_cons] at hsum
          have hflat : (m0 :: rest).flatten = m0 ++ rest.flatten := rfl
          have hlen' : ((m0 :: rest).flatten.length : Int) = m0.length + rest.flatten.length := by
            simp
          rw [if_neg (by omega)]
          simp only
          rw [if_neg (by omega), if_pos (by omega), hlong, hflat,
            mXwordSplit_zero rest.flatten (by omega) (by omega) hsum]
          rfl
    · rw [if_neg (by omega), if_neg (by omega)]
      cases next' with
      | nil => rfl
      | cons m0 rest =>
        have : ((m0 :: rest).flatten.length : Int) = m0.length + rest.flatten.length := by simp
        exact if_pos (by omega)

theorem mXhalf_eq (hk : 0 ≤ k)
    (hfit : ∀ m' next' r, mSkip m next k = some (m', next', r) →
      HalfFits m' next' r ∨ next' = []) :
    mXhalf m next k =
      if k + 2 ≤ (m ++ next.flatten).length then
        (extractShort (m ++ next.flatten) k).map fun a => (a.setWidth 32, false)
      else .ok (0, true) := by
  unfold mXhalf
  cases hs : mSkip m next k with
  | none =>
    have := mSkip_eq_none_iff.mp hs
    rw [if_neg (by omega)]
  | some x =>
    obtain ⟨m', next', r⟩ := x
    obtain ⟨hr₀, hr₁, pre, hpre, heq⟩ := mSkip_spec hk hs
    have hshort : extractShort (m ++ next.flatten) k = extractShort (m' ++ next'.flatten) r := by
      rw [heq, hpre]
      simp only [extractShort, Int.add_assoc]
      rw [byteAt_append_right _ _ hr₀, byteAt_append_right _ _ (by omega)]
    have hlen : ((m ++ next.flatten).length : Int) =
        pre.length + (m' ++ next'.flatten).length := by
      rw [heq]
      simp
    have hrest : ((m' ++ next'.flatten).length : Int) = m'.length + next'.flatten.length := by
      simp
    dsimp only
    by_cases hin : r + 2 ≤ m'.length
    · have hshort_ok : extractShort (m' ++ next'.flatten) r = extractShort m' r := by
        simp only [extractShort]
        rw [byteAt_append_left _ _ (by omega), byteAt_append_left _ _ (by omega)]
      rw [if_pos (by omega), if_pos (by omega), hshort, hshort_ok]
      cases extractShort m' r <;> rfl
    · rw [if_neg (by omega)]
      obtain (hin' | ⟨rfl, hne⟩) | rfl := hfit m' next' r hs
      · exact absurd hin' hin
      · cases next' with
        | nil => exact absurd rfl hne
        | cons m0 rest =>
          have hflat : (m0 :: rest).flatten = m0 ++ rest.flatten := rfl
          have hm0 : 0 < m0.length := List.length_pos_iff.mpr hne
          have hlen' : ((m0 :: rest).flatten.length : Int) = m0.length + rest.flatten.length := by
            simp
          have h₁ : byteAt (m' ++ (m0 ++ rest.flatten)) (0 + 1) = byteAt m0 0 := by
            rw [byteAt_append_append _ (by omega) (by omega),
              show (0 : Int) + 1 - m'.length = 0 by omega]
          rw [if_pos (by omega), hshort, hflat]
          simp only [extractShort]
          rw [h₁, byteAt_append_left _ _ (by omega), Int.add_zero]
          cases byteAt m' 0 <;> cases byteAt m0 0 <;> rfl
      · have hnil : ([] : List (List Byte)).flatten.length = 0 := rfl
        rw [if_neg (by omega)]

theorem mByte_eq (hk : 0 ≤ k) :
    mByte m next k =
      if k < (m ++ next.flatten).length then (byteAt (m ++ next.flatten) k).map some
      else .ok none := by
  unfold mByte
  cases hs : mSkip m next k with
  | none =>
    have := mSkip_eq_none_iff.mp hs
    rw [if_neg (by omega)]
  | some x =>
    obtain ⟨m', next', r⟩ := x
    obtain ⟨hr₀, hr₁, pre, hpre, heq⟩ := mSkip_spec hk hs
    have hlen : ((m ++ next.flatten).length : Int) =
        pre.length + (m' ++ next'.flatten).length := by
      rw [heq]
      simp
    have hrest : ((m' ++ next'.flatten).length : Int) = m'.length + next'.flatten.length := by
      simp
    have hbyte : byteAt (m ++ next.flatten) k = byteAt m' r := by
      rw [heq, hpre, byteAt_append_right _ _ hr₀, byteAt_append_left _ _ hr₁]
    rw [if_pos (by omega), hbyte]
    rfl

/-! ## The two ways of holding a packet -/

section Load

variable {buflen k : Word} (hp : (m ++ next.flatten).length = buflen.toNat) (hk : 0 ≤ k.toInt)
include hp hk

/-- The length test of a word or half-word load, at an offset that is not negative. -/
theorem lt_add_iff (size : ℕ) (hsize : size < 2 ^ 31) :
    buflen < k + BitVec.ofNat 32 size ↔ ((m ++ next.flatten).length : Int) < k.toInt + size := by
  have := k.isLt
  rw [BitVec.lt_def, BitVec.toNat_add, BitVec.toNat_ofNat]
  rw [BitVec.toInt_eq_toNat_cond] at hk ⊢
  split at hk
  · rw [if_pos ‹_›]
    omega
  · omega

theorem le_iff : buflen ≤ k ↔ ((m ++ next.flatten).length : Int) ≤ k.toInt := by
  have := k.isLt
  rw [BitVec.le_def]
  rw [BitVec.toInt_eq_toNat_cond] at hk ⊢
  split at hk
  · rw [if_pos ‹_›]
    omega
  · omega

omit hp hk in
/-- A load takes the chain for what it is when its length test fails, and agrees with the load
from the buffer when both fetch the same. -/
theorem load_chain_eq (size : Int) {short short₀ : Bool}
    {buffer : List Byte → Except Fault Word}
    {chain : List Byte → List (List Byte) → Except Fault (Option Word)}
    (hb : buflen ≠ 0)
    (hshort : short = true ↔ ((m ++ next.flatten).length : Int) < k.toInt + size)
    (hshort₀ : short₀ = true)
    (heq : chain m next =
      if k.toInt + size ≤ (m ++ next.flatten).length then (buffer (m ++ next.flatten)).map some
      else .ok none) :
    load (.chain m next) 0 short₀ buffer chain =
      load (.buffer (m ++ next.flatten)) buflen short buffer chain := by
  subst hshort₀
  unfold load
  rw [if_pos rfl, if_neg (by simp)]
  simp only
  rw [heq]
  by_cases h : short = true
  · rw [if_pos h, if_pos hb, if_neg (by have := hshort.mp h; omega)]
  · rw [if_neg h, if_pos (by
      have := mt hshort.mpr h
      omega)]

omit hp in
theorem zero_lt_add (size : ℕ) (h₀ : 0 < size) (hsize : size < 2 ^ 31) :
    (0 : Word) < k + BitVec.ofNat 32 size := by
  have := k.isLt
  rw [BitVec.lt_def, BitVec.toNat_add, BitVec.toNat_ofNat]
  rw [BitVec.toInt_eq_toNat_cond] at hk
  split at hk
  · simp
    omega
  · omega

theorem ldWord_chain_eq (hb : buflen ≠ 0)
    (hfit : ∀ m' next' r, mSkip m next k.toInt = some (m', next', r) → WordFits m' next' r) :
    ldWord (.chain m next) 0 k = ldWord (.buffer (m ++ next.flatten)) buflen k := by
  refine load_chain_eq (k := k) 4 hb ?_ ?_ ?_
  · simpa using lt_add_iff hp hk 4 (by decide)
  · exact decide_eq_true (zero_lt_add hk 4 (by decide) (by decide))
  · rw [mXword_eq hk hfit]
    by_cases hin : k.toInt + 4 ≤ (m ++ next.flatten).length
    · rw [if_pos hin, if_pos hin]
      cases extractLong (m ++ next.flatten) k.toInt <;> rfl
    · rw [if_neg hin, if_neg hin]
      rfl

theorem ldHalf_chain_eq (hb : buflen ≠ 0) (checkErr : Bool)
    (hin : checkErr = false → k.toInt + 2 ≤ (m ++ next.flatten).length)
    (hfit : ∀ m' next' r, mSkip m next k.toInt = some (m', next', r) →
      HalfFits m' next' r ∨ next' = []) :
    ldHalf checkErr (.chain m next) 0 k =
      ldHalf checkErr (.buffer (m ++ next.flatten)) buflen k := by
  refine load_chain_eq (k := k) 2 hb ?_ ?_ ?_
  · simpa using lt_add_iff hp hk 2 (by decide)
  · exact decide_eq_true (zero_lt_add hk 2 (by decide) (by decide))
  · rw [mXhalf_eq hk hfit]
    by_cases hin' : k.toInt + 2 ≤ (m ++ next.flatten).length
    · rw [if_pos hin', if_pos hin']
      cases extractShort (m ++ next.flatten) k.toInt with
      | error e => rfl
      | ok a => cases checkErr <;> rfl
    · rw [if_neg hin', if_neg hin']
      cases checkErr with
      | false => exact absurd (hin rfl) hin'
      | true => rfl

theorem ldByte_chain_eq (hb : buflen ≠ 0) {ext : Byte → Word}
    (hext : ∀ b, byteAt (m ++ next.flatten) k.toInt = .ok b → ext b = b.setWidth 32) :
    ldByte ext (.chain m next) 0 k = ldByte ext (.buffer (m ++ next.flatten)) buflen k := by
  refine load_chain_eq (k := k) 1 hb ?_ ?_ ?_
  · have := le_iff hp hk
    rw [decide_eq_true_iff, this]
    omega
  · exact decide_eq_true (by rw [BitVec.le_def]; simp)
  · rw [mByte_eq hk]
    by_cases hin : k.toInt + 1 ≤ (m ++ next.flatten).length
    · rw [if_pos hin, if_pos (by omega)]
      cases hbyte : byteAt (m ++ next.flatten) k.toInt with
      | error e => rfl
      | ok b => simp [Except.map, bind, Except.bind, pure, Except.pure, hext b hbyte]
    · rw [if_neg hin, if_neg (by omega)]
      rfl

end Load

/-! ## The run -/

/-- The load of the instruction `i` gets through the chain: the packet is not empty and the
offset not negative; a word fits where it falls, and so does a half-word, unless the chain ends
within it; a half-word at an absolute offset is inside the packet; a byte at an indexed offset
is below 128. -/
def ChainOk (m : List Byte) (next : List (List Byte)) (i : BpfInsn) (s : State) : Op → Prop
  | .ldWAbs => WordOk i.k
  | .ldWInd => WordOk (s.X + i.k)
  | .ldHAbs => HalfOk i.k ∧ i.k.toInt + 2 ≤ (m ++ next.flatten).length
  | .ldHInd => HalfOk (s.X + i.k)
  | .ldBAbs | .ldxMshB => ByteOk i.k
  | .ldBInd => ByteOk (s.X + i.k) ∧
      ∀ b, byteAt (m ++ next.flatten) (s.X + i.k).toInt = .ok b → b.toNat < 128
  | _ => True
where
  ByteOk (k : Word) : Prop := m ++ next.flatten ≠ [] ∧ 0 ≤ k.toInt
  WordOk (k : Word) : Prop := ByteOk k ∧
    ∀ m' next' r, mSkip m next k.toInt = some (m', next', r) → WordFits m' next' r
  HalfOk (k : Word) : Prop := ByteOk k ∧
    ∀ m' next' r, mSkip m next k.toInt = some (m', next', r) → HalfFits m' next' r ∨ next' = []

/-- The load about to run gets through the chain. -/
def LoadsOk (f : List BpfInsn) (m : List Byte) (next : List (List Byte)) (s : State) : Prop :=
  ∀ i o, fetch f s.pc = some i → decode i.code = some o → ChainOk m next i s o

theorem exec_chain_eq {buflen wirelen : Word} {i : BpfInsn} {s : State} {o : Op}
    (hp : (m ++ next.flatten).length = buflen.toNat) (h : ChainOk m next i s o) :
    exec (.chain m next) wirelen 0 i s o =
      exec (.buffer (m ++ next.flatten)) wirelen buflen i s o := by
  have hb (hne : m ++ next.flatten ≠ []) : buflen ≠ 0 := by
    rintro rfl
    exact hne (List.length_eq_zero_iff.mp (by simpa using hp))
  cases o with
  | ldWAbs | ldWInd =>
    obtain ⟨⟨hne, hk⟩, hfit⟩ := h
    simp only [exec, ldWord_chain_eq hp hk (hb hne) hfit]
  | ldHAbs =>
    obtain ⟨⟨⟨hne, hk⟩, hfit⟩, hin⟩ := h
    simp only [exec, ldHalfAbs, ldHalf_chain_eq hp hk (hb hne) false (fun _ => hin) hfit]
  | ldHInd =>
    obtain ⟨⟨hne, hk⟩, hfit⟩ := h
    have := ldHalf_chain_eq hp hk (hb hne) true (fun hf => by cases hf) hfit
    simp only [exec, ldHalfInd, this]
  | ldBAbs | ldxMshB =>
    obtain ⟨hne, hk⟩ := h
    simp only [exec, ldByteAbs, ldByte_chain_eq hp hk (hb hne) fun _ _ => rfl]
  | ldBInd =>
    obtain ⟨⟨hne, hk⟩, hlow⟩ := h
    have hext (b : Byte) (hbyte : byteAt (m ++ next.flatten) (s.X + i.k).toInt = .ok b) :
        b.signExtend 32 = b.setWidth 32 := by
      have := hlow b hbyte
      exact BitVec.signExtend_eq_setWidth_of_msb_false (by
        rw [BitVec.msb_eq_false_iff_two_mul_lt]
        omega)
    simp only [exec, ldByteInd, ldByte_chain_eq hp hk (hb hne) hext]
  | alu op src => cases op <;> cases src <;> rfl
  | _ => rfl

/-- A run on an mbuf chain is the run on the packet's bytes in one buffer, as long as every
load of the latter gets through the chain. -/
theorem bpfFilter_chain_eq (f : List BpfInsn) (m : List Byte) (next : List (List Byte))
    (wirelen buflen A X : Word) (mem : Fin BPF_MEMWORDS → Word)
    (hp : (m ++ next.flatten).length = buflen.toNat)
    (h : ∀ s, Reached (step f (.buffer (m ++ next.flatten)) wirelen buflen) ⟨0, A, X, mem⟩ s →
      LoadsOk f m next s) (n : ℕ) :
    bpfFilter (some f) (.chain m next) wirelen 0 A X mem n =
      bpfFilter (some f) (.buffer (m ++ next.flatten)) wirelen buflen A X mem n := by
  have hrel := Machine.run_rel (R := Eq)
    (step f (.buffer (m ++ next.flatten)) wirelen buflen)
    (step f (.chain m next) wirelen 0) (s := ⟨0, A, X, mem⟩) rfl (by
      rintro s _ hs rfl
      have hstep : step f (.chain m next) wirelen 0 s =
          step f (.buffer (m ++ next.flatten)) wirelen buflen s := by
        cases hi : fetch f s.pc with
        | none => rw [step_of_fetch_none hi, step_of_fetch_none hi]
        | some i =>
          cases ho : decode i.code with
          | none => rw [step_of_decode_none hi ho, step_of_decode_none hi ho]
          | some o =>
            rw [step_eq_exec hi ho, step_eq_exec hi ho]
            exact exec_chain_eq hp (h s hs i o hi ho)
      rw [hstep]
      exact .of_eq (fun _ => rfl) _) n
  simp only [bpfFilter]
  generalize Machine.run (step f (.chain m next) wirelen 0) n ⟨0, A, X, mem⟩ = a at hrel ⊢
  generalize Machine.run (step f (.buffer (m ++ next.flatten)) wirelen buflen) n ⟨0, A, X, mem⟩ = b
    at hrel ⊢
  cases hrel with
  | next hs => rw [hs]
  | ret v => rfl
  | fault e => rfl

/-- A word at offset 0, half of it in each of two mbufs. -/
theorem bpfFilter_chain_eq_split_word :
    bpfFilter (some [⟨Op.ldWAbs.code, 0, 0, 0⟩, ⟨Op.retA.code, 0, 0, 0⟩])
        (.chain [1, 2] [[3, 4]]) 4 0 0 0 (fun _ => 0) 2 =
      bpfFilter (some [⟨Op.ldWAbs.code, 0, 0, 0⟩, ⟨Op.retA.code, 0, 0, 0⟩])
        (.buffer ([1, 2] ++ [[3, 4]].flatten)) 4 4 0 0 (fun _ => 0) 2 := by
  refine bpfFilter_chain_eq _ _ _ _ _ _ _ _ (by decide) ?_ 2
  intro s _ i o hi ho
  have := mem_of_fetch hi
  simp only [List.mem_cons, List.not_mem_nil, or_false] at this
  obtain rfl | rfl := this <;> rw [decode_code] at ho <;> cases ho
  · refine ⟨⟨by decide, by decide⟩, fun m' next' r hs => ?_⟩
    cases hs
    exact .inr (.inl ⟨rfl, by decide⟩)
  · trivial

/-- A word over three mbufs is not found in the chain. -/
theorem bpfFilter_chain_ne :
    ¬ ∀ (f : List BpfInsn) (m : List Byte) (next : List (List Byte)) (wirelen buflen A X : Word)
      (mem : Fin BPF_MEMWORDS → Word) (n : ℕ) (v : Word),
      (m ++ next.flatten).length = buflen.toNat →
      (bpfFilter (some f) (.chain m next) wirelen 0 A X mem n = .ret v ↔
        bpfFilter (some f) (.buffer (m ++ next.flatten)) wirelen buflen A X mem n = .ret v) := by
  intro h
  have hret := h [⟨Op.ldWAbs.code, 0, 0, 0⟩, ⟨Op.retA.code, 0, 0, 0⟩] [1] [[2], [3, 4]] 4 4 0 0
    (fun _ => 0) 2 0x01020304 (by decide)
  have h₂ := hret.mpr rfl
  cases h₂

end Bpf
