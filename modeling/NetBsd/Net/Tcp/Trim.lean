import NetBsd.Kern.Madj
import NetBsd.Net.Tcp.Predict

/-!
# Trimming a segment to the window

The part of `tcp_input` between the check of the state and the check of the RST bit. It cuts a
segment down to the receive window, with two exceptions. A SYN in the window is not stepped over,
so that the data behind it are taken to be one byte earlier than they are. And a segment half the
sequence space away seems to end before the window, so that nothing of it is dropped.

## Main definitions

* `trim`: the three steps of the trimming
* `InWindow`, `seqOf`, `inWindow`: the bytes of a segment that belong to the window
* `Trimmed`: what is left of a segment is what belongs to the window
* `Misjudged`: the two exceptions

## Main results

* `generalPath_trim`: the general path begins with the trimming
* `trim_trimmed_iff`: the trimming is right except for these
-/

namespace Tcp

open Mbuf

variable {fr fr' : Frame}

/-- The segment is trimmed at its front and at its end. -/
def trim (fr : Frame) : Except Stop Frame := do
  let fr ← trimFrontOf fr
  let fr ← checkGone fr
  trimEnd fr

theorem generalPath_trim (gs : List Given) (x : Conn) (ti : Tcpiphdr) :
    generalPath gs x ti = (do
      let fr ← trim (start x ti)
      let fr ← checkFlags gs fr
      let fr ← acceptSyn fr
      let fr ← ackProcessing gs fr
      fromStep6 fr) := by
  simp only [trim, bind_assoc]
  rfl

/-! ## The bytes of a segment -/

/-- The number of the `i`th byte of data; a SYN comes before the data. -/
def seqOf (fr : Frame) (i : ℕ) : Seq :=
  seqAdd fr.ti.tiSeq (if fr.tiflags.syn then i + 1 else i)

/-- A sequence number in the receive window. -/
def InWindow (tp : Tcpcb) (s : Seq) : Prop :=
  0 ≤ seqDiff s tp.rcvNxt ∧ seqDiff s tp.rcvNxt < tp.rcvWnd

instance (tp : Tcpcb) (s : Seq) : Decidable (InWindow tp s) := inferInstanceAs (Decidable (_ ∧ _))

/-- The data of a segment in the window. -/
def inWindow (fr : Frame) : List UInt8 :=
  ((bytes fr.ti.m).zipIdx.filter fun p => InWindow fr.x.tp (seqOf fr p.2)).map Prod.fst

/-- What is left of the segment is what is in the window, and a FIN is left only when no data
behind the window have been dropped. -/
structure Trimmed (fr fr' : Frame) : Prop where
  data : bytes fr'.ti.m = inWindow fr
  seq : ∀ i < (bytes fr.ti.m).length, InWindow fr.x.tp (seqOf fr i) →
    (∀ j < i, ¬InWindow fr.x.tp (seqOf fr j)) → fr'.ti.tiSeq = seqOf fr i
  len : fr'.ti.tiLen = (bytes fr'.ti.m).length
  nonneg : 0 ≤ fr'.ti.tiLen
  fin : fr'.tiflags.fin = true → ∀ i < (bytes fr.ti.m).length,
    seqDiff (seqOf fr i) fr.x.tp.rcvNxt < fr.x.tp.rcvWnd

/-- The user processes are gone and the segment has data. -/
def Gone (fr : Frame) : Prop :=
  fr.x.so.noFdRef ∧ fr.x.tp.tState.ctorIdx > TState.closeWait.ctorIdx ∧ fr.ti.tiLen ≠ 0

instance (fr : Frame) : Decidable (Gone fr) := inferInstanceAs (Decidable (_ ∧ _))

/-- The data come after a SYN in the window, or end half the sequence space behind the window or
further. -/
def Misjudged (fr : Frame) : Prop :=
  let d := seqDiff fr.ti.tiSeq fr.x.tp.rcvNxt
  0 < fr.ti.tiLen ∧ ¬Gone fr ∧
    (0 ≤ d ∧ (fr.tiflags.syn = true ∧ d < fr.x.tp.rcvWnd ∨
        2 ^ 31 ≤ d + fr.ti.tiLen - fr.x.tp.rcvWnd) ∨
      d = -2 ^ 31 ∧ fr.x.tp.rcvWnd ≤ fr.ti.tiLen)

instance (fr : Frame) : Decidable (Misjudged fr) := inferInstanceAs (Decidable (_ ∧ _))

/-- The elements whose indices lie in an interval. -/
theorem filter_zipIdx_eq {α : Type} (bs : List α) (k a b : ℕ) (p : ℕ → Prop) [DecidablePred p]
    (h : ∀ i < bs.length, p (k + i) ↔ a ≤ k + i ∧ k + i < b) :
    ((bs.zipIdx k).filter fun q => p q.2).map Prod.fst = (bs.take (b - k)).drop (a - k) := by
  induction bs generalizing k with
  | nil => simp
  | cons c bs ih =>
    have hrest := ih (k + 1) (by
      intro i hi
      have := h (i + 1) (by simpa using hi)
      rwa [show k + (i + 1) = k + 1 + i by omega] at this)
    have hk := h 0 (by simp)
    rw [Nat.add_zero] at hk
    rw [List.zipIdx_cons, List.filter_cons]
    by_cases hp : p k
    · rw [if_pos (by simpa using hp), List.map_cons, hrest]
      obtain ⟨h1, h2⟩ := hk.mp hp
      rw [show b - k = b - (k + 1) + 1 by omega, show a - k = 0 by omega,
        show a - (k + 1) = 0 by omega]
      rfl
    · rw [if_neg (by simpa using hp), hrest]
      rw [hk, not_and, not_lt] at hp
      by_cases ha : a ≤ k
      · rw [show b - (k + 1) = 0 by have := hp ha; omega, show b - k = 0 by have := hp ha; omega]
        simp
      · by_cases hb : b ≤ k
        · rw [show b - (k + 1) = 0 by omega, show b - k = 0 by omega]
          simp
        · rw [show b - k = b - (k + 1) + 1 by omega, show a - k = a - (k + 1) + 1 by omega]
          rfl

/-! ## Offsets -/

theorem seqDiff_over (r : Seq) {a b : ℤ} (h : 2 ^ 31 ≤ a - b) (h' : a - b < 2 ^ 32) :
    seqDiff (seqAdd r a) (seqAdd r b) = a - b - 2 ^ 32 := by
  rw [seqDiff_seqAdd_bmod, ← Int.sub_bmod_right]
  apply Int.bmod_eq_of_le <;> omega

theorem seqDiff_under (r : Seq) {a b : ℤ} (h : -2 ^ 32 ≤ a - b) (h' : a - b < -2 ^ 31) :
    seqDiff (seqAdd r a) (seqAdd r b) = a - b + 2 ^ 32 := by
  rw [seqDiff_seqAdd_bmod, ← Int.add_bmod_right]
  apply Int.bmod_eq_of_le <;> omega

/-! ## The steps -/

theorem dropSyn_spec (fr : Frame) :
    (dropSyn fr).x = fr.x ∧ (dropSyn fr).ti.m = fr.ti.m ∧ (dropSyn fr).ti.tiLen = fr.ti.tiLen ∧
      (dropSyn fr).tiflags.fin = fr.tiflags.fin ∧
      (dropSyn fr).ti.tiSeq = seqAdd fr.ti.tiSeq (if fr.tiflags.syn then 1 else 0) := by
  unfold dropSyn
  by_cases hsyn : fr.tiflags.syn = true
  · rw [if_pos hsyn, if_pos hsyn]
    dsimp only
    split_ifs <;> exact ⟨rfl, rfl, rfl, rfl, rfl⟩
  · rw [if_neg hsyn, if_neg hsyn, seqAdd_zero]
    exact ⟨rfl, rfl, rfl, rfl, rfl⟩

theorem dropLeading_spec (fr : Frame) (todrop : ℤ) :
    (dropLeading fr todrop).x = fr.x ∧
      bytes (dropLeading fr todrop).ti.m = (bytes fr.ti.m).drop todrop.toNat ∧
      (dropLeading fr todrop).ti.tiLen = fr.ti.tiLen - todrop ∧
      (dropLeading fr todrop).tiflags.fin = fr.tiflags.fin ∧
      (dropLeading fr todrop).ti.tiSeq = seqAdd fr.ti.tiSeq todrop := by
  unfold dropLeading
  dsimp only
  split_ifs <;> exact ⟨rfl, bytes_mAdj _ _, rfl, rfl, rfl⟩

theorem checkGone_eq (fr : Frame) :
    checkGone fr = if Gone fr then .error (.dropwithreset none) else .ok fr := rfl

theorem trim_ok (h : trim fr = .ok fr') :
    ∃ f, trimFrontOf fr = .ok f ∧ ¬Gone f ∧ trimEnd f = .ok fr' := by
  unfold trim at h
  cases hf : trimFrontOf fr with
  | error e =>
    rw [hf] at h
    exact absurd h (by simp [bind, Except.bind])
  | ok f =>
    rw [hf] at h
    change (checkGone f >>= _) = _ at h
    rw [checkGone_eq] at h
    split_ifs at h with hgone
    · exact absurd h (by simp [bind, Except.bind])
    · exact ⟨f, rfl, hgone, h⟩

/-- The segment has been cut to `n` bytes of data. -/
structure CutTo (fr fr' : Frame) (n : ℤ) : Prop where
  data : bytes fr'.ti.m = (bytes fr.ti.m).take n.toNat
  len : fr'.ti.tiLen = n
  seq : fr'.ti.tiSeq = fr.ti.tiSeq
  fin : fr'.tiflags.fin = false

theorem dropTrailing_cutTo (fr : Frame) (x : Conn) (hlen : fr.ti.tiLen = (bytes fr.ti.m).length)
    (todrop : ℤ) : CutTo fr (dropTrailing { fr with x := x } todrop) (fr.ti.tiLen - todrop) := by
  refine ⟨?_, rfl, rfl, rfl⟩
  rw [hlen, ← lens_eq]
  exact bytes_mAdjTail _ _

/-- What becomes of the end of a segment, `e` bytes behind `rcv_nxt`. -/
theorem trimEnd_ok {e : ℤ} (hlen : fr.ti.tiLen = (bytes fr.ti.m).length)
    (hseq : fr.ti.tiSeq = seqAdd fr.x.tp.rcvNxt e)
    (hlow : -2 ^ 31 ≤ e + fr.ti.tiLen - fr.x.tp.rcvWnd)
    (hhigh : e + fr.ti.tiLen - fr.x.tp.rcvWnd < 2 ^ 31) :
    (e + fr.ti.tiLen ≤ fr.x.tp.rcvWnd → trimEnd fr = .ok fr) ∧
    (fr.x.tp.rcvWnd < e + fr.ti.tiLen →
      (e < fr.x.tp.rcvWnd → ∃ fr', trimEnd fr = .ok fr') ∧
      ∀ fr', trimEnd fr = .ok fr' → (e < fr.x.tp.rcvWnd ∨
        fr.x.tp.rcvWnd = 0 ∧ fr.ti.tiSeq = fr.x.tp.rcvNxt) ∧
        CutTo fr fr' (fr.x.tp.rcvWnd - e)) := by
  have htodrop : seqDiff (seqAdd fr.ti.tiSeq fr.ti.tiLen)
      (seqAdd fr.x.tp.rcvNxt fr.x.tp.rcvWnd) = e + fr.ti.tiLen - fr.x.tp.rcvWnd := by
    rw [hseq, seqAdd_seqAdd]
    exact seqDiff_seqAdd _ hlow hhigh
  have hcut : ∀ x, CutTo fr (dropTrailing { fr with x := x }
      (e + fr.ti.tiLen - fr.x.tp.rcvWnd)) (fr.x.tp.rcvWnd - e) := by
    intro x
    have h := dropTrailing_cutTo fr x hlen (e + fr.ti.tiLen - fr.x.tp.rcvWnd)
    rwa [show fr.ti.tiLen - (e + fr.ti.tiLen - fr.x.tp.rcvWnd) = fr.x.tp.rcvWnd - e by omega] at h
  unfold trimEnd
  dsimp only
  rw [htodrop]
  refine ⟨fun hle => if_neg (by omega), ?_⟩
  intro hlt
  constructor
  · intro he
    rw [if_pos (by omega), if_neg (by omega)]
    exact ⟨_, rfl⟩
  · intro fr' h
    rw [if_pos (by omega)] at h
    split_ifs at h with hall hnew hclosed
    · rw [← Except.ok.inj h]
      exact ⟨.inr hclosed, hcut _⟩
    · rw [← Except.ok.inj h]
      exact ⟨.inl (by omega), hcut fr.x⟩

/-- A segment that seems to end before the window. -/
theorem trimEnd_far (hlen : 0 ≤ fr.ti.tiLen) (hlt : fr.ti.tiLen < 2 ^ 15)
    (hwnd : fr.x.tp.rcvWnd < 2 ^ 16)
    (hfar : 2 ^ 31 ≤ seqDiff fr.ti.tiSeq fr.x.tp.rcvNxt + fr.ti.tiLen - fr.x.tp.rcvWnd ∨
      seqDiff fr.ti.tiSeq fr.x.tp.rcvNxt = -2 ^ 31 ∧ fr.x.tp.rcvWnd ≤ fr.ti.tiLen) :
    trimEnd fr = .ok fr := by
  have hd : seqDiff fr.ti.tiSeq fr.x.tp.rcvNxt < 2 ^ 31 := BitVec.toInt_lt
  have hseq := (seqAdd_seqDiff fr.ti.tiSeq fr.x.tp.rcvNxt).symm
  apply trimEnd_fits
  generalize seqDiff fr.ti.tiSeq fr.x.tp.rcvNxt = d at hfar hd hseq
  rw [hseq, seqAdd_seqAdd]
  obtain hfar | ⟨rfl, hle⟩ := hfar
  · rw [seqDiff_over _ hfar (by omega)]
    omega
  · rw [seqDiff_seqAdd _ (by omega) (by omega)]
    omega

/-! ## The whole -/

/-- Where the data begin, from `rcv_nxt` on. -/
def dataOff (fr : Frame) : ℤ :=
  seqDiff fr.ti.tiSeq fr.x.tp.rcvNxt + if fr.tiflags.syn then 1 else 0

theorem seqOf_eq (fr : Frame) (i : ℕ) : seqOf fr i = seqAdd fr.x.tp.rcvNxt (dataOff fr + i) := by
  unfold seqOf dataOff
  conv_lhs => rw [← seqAdd_seqDiff fr.ti.tiSeq fr.x.tp.rcvNxt, seqAdd_seqAdd]
  congr 1
  split_ifs <;> omega

theorem dataOff_bounds (fr : Frame) : -2 ^ 31 ≤ dataOff fr ∧ dataOff fr ≤ 2 ^ 31 := by
  have hlow : -2 ^ 31 ≤ seqDiff fr.ti.tiSeq fr.x.tp.rcvNxt := BitVec.le_toInt _
  have hhigh : seqDiff fr.ti.tiSeq fr.x.tp.rcvNxt < 2 ^ 31 := BitVec.toInt_lt
  unfold dataOff
  split_ifs <;> omega

theorem seqDiff_seqOf (fr : Frame) {i : ℕ} (hi : i < 2 ^ 15) :
    seqDiff (seqOf fr i) fr.x.tp.rcvNxt = dataOff fr + i ∧ dataOff fr + i < 2 ^ 31 ∨
      seqDiff (seqOf fr i) fr.x.tp.rcvNxt < 0 ∧ 2 ^ 31 ≤ dataOff fr + i := by
  have hoff := dataOff_bounds fr
  rw [seqOf_eq]
  nth_rewrite 2 [← seqAdd_zero fr.x.tp.rcvNxt]
  nth_rewrite 4 [← seqAdd_zero fr.x.tp.rcvNxt]
  by_cases h : dataOff fr + i < 2 ^ 31
  · rw [seqDiff_seqAdd _ (by omega) (by omega)]
    omega
  · rw [seqDiff_over _ (by omega) (by omega)]
    omega

theorem inWindow_iff (hwnd : fr.x.tp.rcvWnd < 2 ^ 16) {i : ℕ} (hi : i < 2 ^ 15) :
    InWindow fr.x.tp (seqOf fr i) ↔ 0 ≤ dataOff fr + i ∧ dataOff fr + i < fr.x.tp.rcvWnd := by
  unfold InWindow
  obtain ⟨h, h'⟩ | ⟨h, h'⟩ := seqDiff_seqOf fr hi <;> omega

/-- The data in the window are a piece of the data. -/
theorem inWindow_eq (hwnd : fr.x.tp.rcvWnd < 2 ^ 16) (hlt : (bytes fr.ti.m).length < 2 ^ 15) :
    inWindow fr = ((bytes fr.ti.m).take (fr.x.tp.rcvWnd - dataOff fr).toNat).drop
      (-dataOff fr).toNat := by
  unfold inWindow
  have h := filter_zipIdx_eq (bytes fr.ti.m) 0 (-dataOff fr).toNat
    (fr.x.tp.rcvWnd - dataOff fr).toNat (fun i => InWindow fr.x.tp (seqOf fr i)) (by
      intro i hi
      rw [Nat.zero_add, inWindow_iff hwnd (by omega)]
      omega)
  exact h

/-- A segment that begins before the window loses what is before it. -/
theorem trimFrontOf_before (hlen : fr.ti.tiLen = (bytes fr.ti.m).length)
    (hd : -2 ^ 31 < seqDiff fr.ti.tiSeq fr.x.tp.rcvNxt)
    (hd' : seqDiff fr.ti.tiSeq fr.x.tp.rcvNxt < 0) (h : trimFrontOf fr = .ok fr') :
    fr'.x.tp.rcvNxt = fr.x.tp.rcvNxt ∧ fr'.x.tp.rcvWnd = fr.x.tp.rcvWnd ∧
      bytes fr'.ti.m = (bytes fr.ti.m).drop (-dataOff fr).toNat ∧
      (-dataOff fr ≤ fr.ti.tiLen ∧ fr'.ti.tiLen = fr.ti.tiLen + dataOff fr ∧
          fr'.ti.tiSeq = fr.x.tp.rcvNxt ∨
        -dataOff fr = fr.ti.tiLen + 1 ∧ fr'.ti.tiLen = 0 ∧
          fr'.ti.tiSeq = seqAdd fr.x.tp.rcvNxt (-1)) := by
  have hseq := seqAdd_seqDiff fr.ti.tiSeq fr.x.tp.rcvNxt
  have htodrop : seqDiff fr.x.tp.rcvNxt fr.ti.tiSeq =
      -seqDiff fr.ti.tiSeq fr.x.tp.rcvNxt := by
    have h0 := seqDiff_seqAdd fr.x.tp.rcvNxt (a := 0)
      (b := seqDiff fr.ti.tiSeq fr.x.tp.rcvNxt) (by omega) (by omega)
    rw [seqAdd_zero, hseq] at h0
    omega
  obtain ⟨hx, hm, hl, hfin, hs⟩ := dropSyn_spec fr
  have hsyn : (if fr.tiflags.syn = true then seqDiff fr.x.tp.rcvNxt fr.ti.tiSeq - 1
      else seqDiff fr.x.tp.rcvNxt fr.ti.tiSeq) = -dataOff fr := by
    unfold dataOff
    split_ifs <;> omega
  have hstart : (dropSyn fr).ti.tiSeq = seqAdd fr.x.tp.rcvNxt (dataOff fr) := by
    rw [hs]
    nth_rewrite 1 [← hseq]
    rw [seqAdd_seqAdd]
    rfl
  unfold trimFrontOf at h
  dsimp only at h
  rw [if_pos (by omega), hsyn] at h
  split_ifs at h with hold hlast
  · -- only a FIN is at the edge of the window
    obtain ⟨hx', hm', hl', -, hs'⟩ := dropLeading_spec { dropSyn fr with
      tiflags := { (dropSyn fr).tiflags with fin := false }, x.tp.ackNow := true }
      (dropSyn fr).ti.tiLen
    rw [← Except.ok.inj h, hx', hm', hl', hs', hstart, seqAdd_seqAdd]
    dsimp only
    rw [hx, hm, hl]
    rw [hl] at hlast
    refine ⟨rfl, rfl, ?_, .inr ⟨hlast.2, by omega, by congr 1; omega⟩⟩
    rw [List.drop_of_length_le (by omega), List.drop_of_length_le (by omega)]
  · obtain ⟨hx', hm', hl', -, hs'⟩ := dropLeading_spec (dropSyn fr) (-dataOff fr)
    rw [not_or, hl] at hold
    rw [← Except.ok.inj h, hx', hm', hl', hs', hstart, seqAdd_seqAdd, hx, hm, hl]
    refine ⟨rfl, rfl, rfl, .inl ⟨by omega, by omega, ?_⟩⟩
    rw [show dataOff fr + -dataOff fr = 0 by omega, seqAdd_zero]

/-- The first byte of the data in the window is the one at its edge, or the first of all. -/
theorem first_inWindow (hwnd : fr.x.tp.rcvWnd < 2 ^ 16) {i : ℕ} (hi : i < 2 ^ 15)
    (hin : InWindow fr.x.tp (seqOf fr i)) (hfirst : ∀ j < i, ¬InWindow fr.x.tp (seqOf fr j)) :
    (i : ℤ) = max (-dataOff fr) 0 := by
  rw [inWindow_iff hwnd hi] at hin
  by_contra hne
  apply hfirst (i - 1) (by omega)
  rw [inWindow_iff hwnd (by omega)]
  omega

theorem seqDiff_seqOf_lt (hwnd : fr.x.tp.rcvWnd < 2 ^ 16) {i : ℕ} (hi : i < 2 ^ 15)
    (h : dataOff fr + i < fr.x.tp.rcvWnd) :
    seqDiff (seqOf fr i) fr.x.tp.rcvNxt < fr.x.tp.rcvWnd := by
  obtain ⟨h', -⟩ | ⟨h', -⟩ := seqDiff_seqOf fr hi <;> omega

/-- The segment begins before the window. -/
theorem trim_before (hlen : fr.ti.tiLen = (bytes fr.ti.m).length) (hlt : fr.ti.tiLen < 2 ^ 15)
    (hwnd : fr.x.tp.rcvWnd < 2 ^ 16) (hd : -2 ^ 31 < seqDiff fr.ti.tiSeq fr.x.tp.rcvNxt)
    (hd' : seqDiff fr.ti.tiSeq fr.x.tp.rcvNxt < 0) {f : Frame} (hf : trimFrontOf fr = .ok f)
    (h : trimEnd f = .ok fr') : Trimmed fr fr' := by
  obtain ⟨hnxt, hwin, hm, hcase⟩ := trimFrontOf_before hlen hd hd' hf
  have hoff : dataOff fr ≤ 0 := by
    unfold dataOff
    split_ifs <;> omega
  have hdata := inWindow_eq hwnd (by omega)
  rw [List.drop_take] at hdata
  have hflen : f.ti.tiLen = (bytes f.ti.m).length := by
    rw [hm, List.length_drop]
    omega
  obtain ⟨hle, hl, hs⟩ | ⟨hlast, hl, hs⟩ := hcase
  · have hs0 : f.ti.tiSeq = seqAdd f.x.tp.rcvNxt 0 := by rw [hs, hnxt, seqAdd_zero]
    obtain ⟨hfits, hcut⟩ := trimEnd_ok hflen hs0 (by omega) (by omega)
    have hseq : ∀ i < (bytes fr.ti.m).length, InWindow fr.x.tp (seqOf fr i) →
        (∀ j < i, ¬InWindow fr.x.tp (seqOf fr j)) → f.ti.tiSeq = seqOf fr i := by
      intro i hi hin hfirst
      rw [seqOf_eq, first_inWindow hwnd (by omega) hin hfirst,
        show dataOff fr + max (-dataOff fr) 0 = 0 by omega, seqAdd_zero, hs]
    by_cases hend : 0 + f.ti.tiLen ≤ f.x.tp.rcvWnd
    · rw [hfits hend] at h
      have he := Except.ok.inj h
      subst he
      refine ⟨?_, hseq, hflen, by omega, ?_⟩
      · rw [hdata, hm, List.take_of_length_le (by rw [List.length_drop]; omega)]
      · intro _ i hi
        exact seqDiff_seqOf_lt hwnd (by omega) (by omega)
    · obtain ⟨-, hc⟩ := (hcut (by omega)).2 fr' h
      refine ⟨?_, by rw [hc.seq]; exact hseq, ?_, by rw [hc.len]; omega, by simp [hc.fin]⟩
      · rw [hc.data, hm, hdata]
        congr 1
        omega
      · rw [hc.len, hc.data, List.length_take]
        omega
  · obtain ⟨hfits, -⟩ := trimEnd_ok (e := -1) hflen (by rw [hs, hnxt]) (by omega) (by omega)
    rw [hfits (by omega)] at h
    have he := Except.ok.inj h
    subst he
    refine ⟨?_, ?_, hflen, by omega, ?_⟩
    · rw [hdata, hm, List.drop_of_length_le (by omega), List.take_nil]
    · intro i hi hin
      rw [inWindow_iff hwnd (by omega)] at hin
      omega
    · intro _ i hi
      exact seqDiff_seqOf_lt hwnd (by omega) (by omega)

theorem trimFrontOf_inside (hd : seqDiff fr.ti.tiSeq fr.x.tp.rcvNxt = -2 ^ 31 ∨
    0 ≤ seqDiff fr.ti.tiSeq fr.x.tp.rcvNxt) : trimFrontOf fr = .ok fr := by
  have hhigh : seqDiff fr.ti.tiSeq fr.x.tp.rcvNxt < 2 ^ 31 := BitVec.toInt_lt
  have hseq := seqAdd_seqDiff fr.ti.tiSeq fr.x.tp.rcvNxt
  apply if_neg
  generalize seqDiff fr.ti.tiSeq fr.x.tp.rcvNxt = d at hd hhigh hseq
  rw [← hseq]
  nth_rewrite 1 [← seqAdd_zero fr.x.tp.rcvNxt]
  obtain rfl | hd := hd
  · rw [seqDiff_over _ (by omega) (by omega)]
    omega
  · rw [seqDiff_seqAdd _ (by omega) (by omega)]
    omega

/-- The segment does not begin before the window, and is none of the exceptions. -/
theorem trim_inside (hlen : fr.ti.tiLen = (bytes fr.ti.m).length) (hlt : fr.ti.tiLen < 2 ^ 15)
    (hwnd : fr.x.tp.rcvWnd < 2 ^ 16) (hd : 0 ≤ seqDiff fr.ti.tiSeq fr.x.tp.rcvNxt)
    (hgone : ¬Gone fr) (hm : ¬Misjudged fr) (h : trimEnd fr = .ok fr') : Trimmed fr fr' := by
  have hhigh : seqDiff fr.ti.tiSeq fr.x.tp.rcvNxt < 2 ^ 31 := BitVec.toInt_lt
  have hseq := (seqAdd_seqDiff fr.ti.tiSeq fr.x.tp.rcvNxt).symm
  have hoff : dataOff fr = seqDiff fr.ti.tiSeq fr.x.tp.rcvNxt +
    if fr.tiflags.syn then 1 else 0 := rfl
  have hdata := inWindow_eq hwnd (by omega)
  simp only [Misjudged, hgone, not_false_eq_true, true_and, not_and, not_or] at hm
  have hfirst : ∀ i < (bytes fr.ti.m).length, InWindow fr.x.tp (seqOf fr i) →
      (∀ j < i, ¬InWindow fr.x.tp (seqOf fr j)) → fr.ti.tiSeq = seqOf fr i := by
    intro i hi hin hfirst
    have hin' := (inWindow_iff hwnd (by omega)).mp hin
    have hsyn : ¬fr.tiflags.syn = true := by
      intro hsyn
      have := (hm (by omega)).1 hd
      rw [if_pos hsyn] at hoff
      exact this.1 hsyn (by omega)
    rw [if_neg hsyn] at hoff
    rw [seqOf_eq, first_inWindow hwnd (by omega) hin hfirst,
      show dataOff fr + max (-dataOff fr) 0 = seqDiff fr.ti.tiSeq fr.x.tp.rcvNxt by omega]
    exact hseq
  have hwrap : seqDiff fr.ti.tiSeq fr.x.tp.rcvNxt + fr.ti.tiLen - fr.x.tp.rcvWnd < 2 ^ 31 := by
    by_cases hpos : 0 < fr.ti.tiLen
    · have := ((hm hpos).1 hd).2
      omega
    · omega
  have hsyn : 0 < fr.ti.tiLen → seqDiff fr.ti.tiSeq fr.x.tp.rcvNxt < fr.x.tp.rcvWnd →
      dataOff fr = seqDiff fr.ti.tiSeq fr.x.tp.rcvNxt := by
    intro hpos hlt
    have := ((hm hpos).1 hd).1
    rw [hoff, if_neg (fun hsyn => this hsyn hlt), add_zero]
  obtain ⟨hfits, hcut⟩ := trimEnd_ok hlen hseq (by omega) hwrap
  by_cases hend : seqDiff fr.ti.tiSeq fr.x.tp.rcvNxt + fr.ti.tiLen ≤ fr.x.tp.rcvWnd
  · rw [hfits hend] at h
    have he := Except.ok.inj h
    subst he
    refine ⟨?_, hfirst, hlen, by omega, ?_⟩
    · rw [hdata]
      by_cases hpos : 0 < fr.ti.tiLen
      · have := hsyn hpos (by omega)
        rw [List.take_of_length_le (by omega), show (-dataOff fr).toNat = 0 by omega,
          List.drop_zero]
      · rw [List.eq_nil_of_length_eq_zero (l := bytes fr.ti.m) (by omega), List.take_nil,
          List.drop_nil]
    · intro _ i hi
      have := hsyn (by omega) (by omega)
      exact seqDiff_seqOf_lt hwnd (by omega) (by omega)
  · obtain ⟨hwhere, hc⟩ := (hcut (by omega)).2 fr' h
    refine ⟨?_, by rw [hc.seq]; exact hfirst, ?_, ?_, by simp [hc.fin]⟩
    · rw [hc.data, hdata]
      obtain hopen | ⟨hclosed, hsame⟩ := hwhere
      · have := hsyn (by omega) hopen
        rw [this, show (-seqDiff fr.ti.tiSeq fr.x.tp.rcvNxt).toNat = 0 by omega, List.drop_zero]
      · rw [show (fr.x.tp.rcvWnd - dataOff fr).toNat = 0 by split_ifs at hoff <;> omega,
          show (fr.x.tp.rcvWnd - seqDiff fr.ti.tiSeq fr.x.tp.rcvNxt).toNat = 0 by omega]
        simp
    · rw [hc.len, hc.data, List.length_take]
      obtain hopen | ⟨hclosed, hsame⟩ := hwhere
      · omega
      · rw [hsame, seqDiff_self] at hend ⊢
        omega
    · rw [hc.len]
      obtain hopen | ⟨hclosed, hsame⟩ := hwhere
      · omega
      · rw [hsame, seqDiff_self]
        omega

/-- The segment begins half the sequence space away, and is none of the exceptions. -/
theorem trim_half (hlen : fr.ti.tiLen = (bytes fr.ti.m).length) (hlt : fr.ti.tiLen < 2 ^ 15)
    (hwnd : fr.x.tp.rcvWnd < 2 ^ 16) (hd : seqDiff fr.ti.tiSeq fr.x.tp.rcvNxt = -2 ^ 31)
    (hgone : ¬Gone fr) (hm : ¬Misjudged fr) (h : trimEnd fr = .ok fr') : Trimmed fr fr' := by
  simp only [Misjudged, hgone, not_false_eq_true, true_and, not_and, not_or] at hm
  have hdata := inWindow_eq hwnd (by omega)
  by_cases hle : fr.x.tp.rcvWnd ≤ fr.ti.tiLen
  · have hzero : fr.ti.tiLen = 0 := by
      by_contra hne
      exact (hm (by omega)).2 hd hle
    rw [trimEnd_far (by omega) hlt hwnd (.inr ⟨hd, hle⟩)] at h
    have he := Except.ok.inj h
    subst he
    have hnil : bytes fr.ti.m = [] := List.eq_nil_of_length_eq_zero (by omega)
    refine ⟨?_, ?_, hlen, by omega, ?_⟩
    · rw [hdata, hnil, List.take_nil, List.drop_nil]
    · simp [hnil]
    · simp [hnil]
  · -- the end comes out far behind the window, and the segment is dropped
    have htodrop : seqDiff (seqAdd fr.ti.tiSeq fr.ti.tiLen)
        (seqAdd fr.x.tp.rcvNxt fr.x.tp.rcvWnd) = 2 ^ 31 + fr.ti.tiLen - fr.x.tp.rcvWnd := by
      conv_lhs => rw [← seqAdd_seqDiff fr.ti.tiSeq fr.x.tp.rcvNxt, hd, seqAdd_seqAdd]
      rw [seqDiff_under _ (by omega) (by omega)]
      omega
    unfold trimEnd at h
    dsimp only at h
    rw [htodrop, if_pos (by omega), if_pos (by omega)] at h
    split_ifs at h with hnew hclosed
    omega

/-- A misjudged segment is not trimmed as it should be. -/
theorem Misjudged.not_trimmed (hlen : fr.ti.tiLen = (bytes fr.ti.m).length)
    (hlt : fr.ti.tiLen < 2 ^ 15) (hwnd : fr.x.tp.rcvWnd < 2 ^ 16) (h : Misjudged fr) :
    ∃ fr', trim fr = .ok fr' ∧ ¬Trimmed fr fr' := by
  obtain ⟨hpos, hgone, hcase⟩ := h
  have hhigh : seqDiff fr.ti.tiSeq fr.x.tp.rcvNxt < 2 ^ 31 := BitVec.toInt_lt
  have hdata := inWindow_eq hwnd (by omega)
  have hoff : dataOff fr = seqDiff fr.ti.tiSeq fr.x.tp.rcvNxt +
    if fr.tiflags.syn then 1 else 0 := rfl
  have htrim : trim fr = trimEnd fr := by
    unfold trim
    rw [trimFrontOf_inside (by omega)]
    change (checkGone fr >>= _) = _
    rw [checkGone_eq, if_neg hgone]
    rfl
  rw [htrim]
  by_cases hfar : 2 ^ 31 ≤ seqDiff fr.ti.tiSeq fr.x.tp.rcvNxt + fr.ti.tiLen - fr.x.tp.rcvWnd ∨
      seqDiff fr.ti.tiSeq fr.x.tp.rcvNxt = -2 ^ 31 ∧ fr.x.tp.rcvWnd ≤ fr.ti.tiLen
  · -- nothing is dropped, and nothing is in the window
    refine ⟨fr, trimEnd_far (by omega) hlt hwnd hfar, ?_⟩
    intro ht
    have hlens := congrArg List.length (ht.data.trans hdata)
    rw [List.length_drop, List.length_take] at hlens
    split_ifs at hoff <;> omega
  · obtain ⟨hd, ⟨hsyn, hin⟩ | hwrap⟩ | hhalf := hcase
    · -- the data are one byte behind where they are taken to be
      rw [if_pos hsyn] at hoff
      have hseq := (seqAdd_seqDiff fr.ti.tiSeq fr.x.tp.rcvNxt).symm
      obtain ⟨hfits, hcut⟩ := trimEnd_ok hlen hseq (by omega) (by omega)
      by_cases hend : seqDiff fr.ti.tiSeq fr.x.tp.rcvNxt + fr.ti.tiLen ≤ fr.x.tp.rcvWnd
      · refine ⟨fr, hfits hend, ?_⟩
        intro ht
        by_cases hone : dataOff fr < fr.x.tp.rcvWnd
        · have hfirst := ht.seq 0 (by omega) ((inWindow_iff hwnd (by omega)).mpr (by omega))
            (by simp)
          have hself := seqDiff_self fr.ti.tiSeq
          nth_rewrite 1 [hfirst] at hself
          rw [seqOf, if_pos hsyn] at hself
          nth_rewrite 2 [← seqAdd_zero fr.ti.tiSeq] at hself
          rw [seqDiff_seqAdd _ (by omega) (by omega)] at hself
          omega
        · have hlens := congrArg List.length (ht.data.trans hdata)
          rw [List.length_drop, List.length_take] at hlens
          omega
      · obtain ⟨fr', hfr'⟩ := (hcut (by omega)).1 hin
        refine ⟨fr', hfr', ?_⟩
        intro ht
        have hc := ((hcut (by omega)).2 fr' hfr').2
        have hlens := congrArg List.length (hc.data.symm.trans (ht.data.trans hdata))
        rw [List.length_drop, List.length_take, List.length_take] at hlens
        omega
    · exact absurd (.inl hwrap) hfar
    · exact absurd (.inr hhalf) hfar

/-- What is left of a segment is what belongs to the window, unless the segment is misjudged. -/
theorem trim_trimmed_iff (hlen : fr.ti.tiLen = (bytes fr.ti.m).length)
    (hlt : fr.ti.tiLen < 2 ^ 15) (hwnd : fr.x.tp.rcvWnd < 2 ^ 16) :
    (∀ fr', trim fr = .ok fr' → Trimmed fr fr') ↔ ¬Misjudged fr := by
  constructor
  · intro h hm
    obtain ⟨fr', hok, hnot⟩ := hm.not_trimmed hlen hlt hwnd
    exact hnot (h fr' hok)
  · intro hm fr' h
    obtain ⟨f, hf, hgone, h⟩ := trim_ok h
    have hlow : -2 ^ 31 ≤ seqDiff fr.ti.tiSeq fr.x.tp.rcvNxt := BitVec.le_toInt _
    by_cases hbefore : -2 ^ 31 < seqDiff fr.ti.tiSeq fr.x.tp.rcvNxt ∧
        seqDiff fr.ti.tiSeq fr.x.tp.rcvNxt < 0
    · exact trim_before hlen hlt hwnd hbefore.1 hbefore.2 hf h
    · rw [trimFrontOf_inside (by omega)] at hf
      rw [← Except.ok.inj hf] at hgone h
      by_cases hhalf : seqDiff fr.ti.tiSeq fr.x.tp.rcvNxt = -2 ^ 31
      · exact trim_half hlen hlt hwnd hhalf hgone hm h
      · exact trim_inside hlen hlt hwnd (by omega) hgone hm h

/-- A segment of `n` bytes with a FIN, `d` bytes behind byte 1000, for a connection that expects
this byte and has a window of four bytes. -/
def segment (d : ℤ) (n : ℕ) : Frame where
  x := { idle 1000 false with tp.rcvWnd := 4 }
  ti := {
    tiSeq := seqAdd 1000 d, tiAck := 0, tiLen := n
    tiFlags := ⟨true, false, false, false, true, false⟩, tiWin := 0, tiUrp := 0
    m := [⟨.data, none, none, false, 0, List.replicate n 7⟩] }
  tiflags := ⟨true, false, false, false, true, false⟩
  needoutput := false

/-- Eight bytes two gigabytes behind a window of four bytes go through as they are. -/
theorem trim_passes : ¬∀ fr', trim (segment (2 ^ 31 - 1) 8) = .ok fr' →
    Trimmed (segment (2 ^ 31 - 1) 8) fr' := by
  intro h
  have ht := h (segment (2 ^ 31 - 1) 8) (by decide +kernel)
  exact absurd ht.data (by decide +kernel)

/-- Of eight bytes from two before the window on, the four in the window are left. -/
theorem trim_trimmed_eight : ∃ fr', trim (segment (-2) 8) = .ok fr' ∧
    Trimmed (segment (-2) 8) fr' ∧ fr'.ti.tiLen = 4 := by
  have h := (@trim_trimmed_iff (segment (-2) 8) (by decide) (by decide) (by decide)).mpr
    (by decide +kernel)
  have hlen : (trim (segment (-2) 8)).toOption.map (fun f => f.ti.tiLen) = some 4 := by
    decide +kernel
  cases htrim : trim (segment (-2) 8) with
  | error e =>
    rw [htrim] at hlen
    cases hlen
  | ok fr' =>
    rw [htrim] at hlen
    exact ⟨fr', rfl, h fr' htrim, Option.some.inj hlen⟩

end Tcp
