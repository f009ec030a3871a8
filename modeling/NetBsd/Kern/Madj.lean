import Mathlib.Algebra.BigOperators.Group.List.Basic
import Mathlib.Algebra.Order.Group.Int
import Mathlib.Tactic.NormNum
import NetBsd.Kern.Mbuf

/-!
# Trimming a packet

`m_adj` as a whole: a length to be taken from the head of a packet, or a negative one to be taken
from its end. The bytes come out right in either case. The length in the packet header does not
when the bytes are all in the last of several mbufs: then the header of the last mbuf is looked
for, and not the one of the first.

## Main definitions

* `mAdjust`: `m_adj`
* `Adjusted`: the bytes and the packet header are as they should be

## Main results

* `bytes_mAdjTail`: the bytes that are left when the end is trimmed
* `mAdjust_adjusted_iff`: when the bytes and the header are both right
-/

namespace Mbuf

variable {m : Mbuf} {l k : List Mbuf} {count len : ℤ}

theorem lens_nonneg (l : List Mbuf) : 0 ≤ lens l := by
  rw [lens_eq]
  exact Int.natCast_nonneg _

theorem bytes_map_empty (l : List Mbuf) : bytes (l.map fun k => { k with data := [] }) = [] := by
  induction l with
  | nil => rfl
  | cons m l ih => simpa using ih

/-! ## The end of a packet -/

theorem bytes_cutAt (l : List Mbuf) {count : ℤ} (hcount : 0 ≤ count) :
    bytes (cutAt count l) = (bytes l).take count.toNat := by
  induction l generalizing count with
  | nil => simp [cutAt]
  | cons m l ih =>
    unfold cutAt
    split_ifs with hge
    · simp only [Mbuf.len] at hge
      rw [bytes_cons, bytes_map_empty, List.append_nil, bytes_cons,
        List.take_append_of_le_length (by omega)]
    · simp only [Mbuf.len] at hge
      have hm : m.data.take count.toNat = m.data := List.take_of_length_le (by omega)
      rw [bytes_cons, ih (by simp only [Mbuf.len]; omega), bytes_cons, List.take_append, hm,
        Mbuf.len]
      congr 2
      omega

theorem bytes_head (m : Mbuf) (l : List Mbuf) (h : Option ℤ) :
    bytes ({ m with pkthdr := h } :: l) = bytes (m :: l) := rfl

/-- `m_adj` takes the last bytes away. -/
theorem bytes_mAdjTail (l : List Mbuf) (len : ℤ) :
    bytes (mAdjTail l len) = (bytes l).take (lens l - len).toNat := by
  unfold mAdjTail
  cases hlast : l.getLast? with
  | none =>
    rw [List.getLast?_eq_none_iff.mp hlast]
    simp
  | some k =>
    dsimp only
    have hl : l.dropLast ++ [k] = l := List.dropLast_append_getLast? k hlast
    split_ifs with hge
    · simp only [Mbuf.len] at hge
      have hsum : lens l = (bytes l.dropLast).length + k.data.length := by
        conv_lhs => rw [← hl]
        rw [lens_append, lens_eq l.dropLast]
        simp [Mbuf.len]
      have hcut : (lens l - len).toNat =
          (bytes l.dropLast).length + (k.len - len).toNat := by
        rw [hsum]
        simp only [Mbuf.len]
        omega
      conv_rhs => rw [hcut, ← hl, bytes_append]
      simp [List.take_append]
    · have hbytes := bytes_cutAt l (le_max_right (lens l - len) 0)
      have hmax : (max (lens l - len) 0).toNat = (lens l - len).toNat := by omega
      rw [hmax] at hbytes
      rw [← hbytes]
      cases cutAt (max (lens l - len) 0) l with
      | nil => rfl
      | cons m k => exact bytes_head m k _

/-! ## The packet header -/

/-- The length in the packet header, if there is one. -/
def hdrLen (l : List Mbuf) : Option ℤ := l.head?.bind pkthdr

theorem hdrLen_mAdj (h : hdrLen l = some (lens l)) (hlen : 0 ≤ len) :
    hdrLen (mAdj l len) = some (lens (mAdj l len)) := by
  rw [lens_eq, bytes_mAdj, List.length_drop]
  have hlens := lens_eq l
  cases l with
  | nil => simp [hdrLen] at h
  | cons m l =>
    have hm : m.pkthdr = some (lens (m :: l)) := h
    unfold mAdj adjLoop hdrLen
    split_ifs <;> simp only [List.head?_cons, Option.bind_some, hm, Option.map_some,
      Option.some.injEq] <;> omega

theorem head_cutAt (m : Mbuf) (l : List Mbuf) (count : ℤ) :
    ∃ k r, cutAt count (m :: l) = k :: r ∧ k.pkthdr = m.pkthdr := by
  unfold cutAt
  split_ifs
  · exact ⟨_, _, rfl, rfl⟩
  · exact ⟨_, _, rfl, rfl⟩

/-- The header of the packet is lost sight of when the last of several mbufs has all the bytes that
are to go. -/
theorem hdrLen_mAdjTail (h : hdrLen l = some (lens l)) (hlen : 0 < len) :
    hdrLen (mAdjTail l len) = some (lens (mAdjTail l len)) ↔
      ¬(1 < l.length ∧ ∃ k, l.getLast? = some k ∧ len ≤ k.len) := by
  have hlens := lens_eq (mAdjTail l len)
  rw [bytes_mAdjTail l len, List.length_take] at hlens
  rw [hlens]
  have hl := lens_eq l
  have hlast_le : ∀ k, l.getLast? = some k → k.len ≤ lens l := by
    intro k hk
    rw [← List.dropLast_append_getLast? k hk, lens_append]
    have := lens_nonneg l.dropLast
    simp only [lens_cons, lens_nil]
    omega
  cases l with
  | nil => simp [hdrLen] at h
  | cons m l =>
    have hm : m.pkthdr = some (lens (m :: l)) := h
    unfold mAdjTail hdrLen
    cases hlast : (m :: l).getLast? with
    | none => simp at hlast
    | some k =>
      have hk := hlast_le k hlast
      dsimp only
      split_ifs with hge
      · cases l with
        | nil =>
          -- the last mbuf is the first one
          have hmk : m = k := by simpa using hlast
          subst hmk
          simp only [List.dropLast_singleton, List.nil_append, List.head?_cons,
            Option.bind_some, hm, Option.map_some, Option.some.injEq, List.length_singleton,
            lt_self_iff_false, false_and, not_false_eq_true, iff_true]
          omega
        | cons n l =>
          have hno : ¬(1 < (m :: n :: l).length ∧
              ∃ k', some k = some k' ∧ len ≤ k'.len) ↔ False := by
            simp only [iff_false, not_not]
            exact ⟨by simp, k, rfl, hge⟩
          rw [hno, iff_false]
          simp only [List.dropLast_cons_cons, List.cons_append, List.head?_cons, Option.bind_some,
            hm, Option.some.injEq]
          omega
      · obtain ⟨q, r, hcut, -⟩ := head_cutAt m l (max (lens (m :: l) - len) 0)
        simp only [hcut, List.head?_cons, Option.bind_some]
        have hq : q.pkthdr = some (lens (m :: l)) := by
          obtain ⟨q', r', hcut', hq'⟩ := head_cutAt m l (max (lens (m :: l) - len) 0)
          rw [hcut] at hcut'
          rw [(List.cons.inj hcut').1, hq', hm]
        simp only [hq, Option.map_some, Option.some.injEq]
        constructor
        · rintro - ⟨-, k', hk', hle⟩
          rw [← hk'] at hle
          omega
        · intro _
          omega

/-! ## The whole function -/

/-- `m_adj`. The least `int` is its own negative: the length of the last mbuf becomes negative, and
the chain is no packet any more. -/
def mAdjust (l : List Mbuf) (reqLen : BitVec 32) : Option (List Mbuf) :=
  if 0 ≤ reqLen.toInt then some (mAdj l reqLen.toInt)
  else if reqLen.toInt = -2 ^ 31 then if l = [] then some [] else none
  else some (mAdjTail l (-reqLen.toInt))

/-- The bytes that are left when `req` are to go. -/
def left (bs : List UInt8) (req : ℤ) : List UInt8 :=
  if 0 ≤ req then bs.drop (min req bs.length).toNat
  else bs.take (bs.length - min (-req) bs.length).toNat

/-- What is left of the packet `l`, with its length in its header. -/
def Adjusted (l : List Mbuf) (req : ℤ) (r : Option (List Mbuf)) : Prop :=
  ∃ k, r = some k ∧ bytes k = left (bytes l) req ∧ hdrLen k = some (lens k)

/-- `m_adj` does its work unless all of the bytes at the end are in the last of several mbufs, or
the length has no negative. -/
theorem mAdjust_adjusted_iff (h : hdrLen l = some (lens l)) (reqLen : BitVec 32) :
    Adjusted l reqLen.toInt (mAdjust l reqLen) ↔
      (reqLen.toInt < 0 → reqLen.toInt ≠ -2 ^ 31 ∧
        ¬(1 < l.length ∧ ∃ k, l.getLast? = some k ∧ -reqLen.toInt ≤ k.len)) := by
  have hlens := lens_eq l
  unfold mAdjust Adjusted left
  split_ifs with hpos hmin hnil
  · have hno : ¬reqLen.toInt < 0 := not_lt.mpr hpos
    simp only [Option.some.injEq, exists_eq_left', hno, false_implies, iff_true]
    refine ⟨?_, hdrLen_mAdj h hpos⟩
    rw [bytes_mAdj]
    by_cases hle : reqLen.toInt ≤ (bytes l).length
    · rw [min_eq_left hle]
    · rw [min_eq_right (by omega), List.drop_eq_nil_of_le (by omega),
        List.drop_eq_nil_of_le (by simp)]
  · simp [hnil, hdrLen] at h
  · simp [hmin]
  · have hneg : reqLen.toInt < 0 := not_le.mp hpos
    simp only [Option.some.injEq, exists_eq_left', hneg, true_implies, ne_eq, hmin,
      not_false_eq_true, true_and]
    rw [hdrLen_mAdjTail h (by omega), bytes_mAdjTail l (-reqLen.toInt)]
    have hcut : (lens l - -reqLen.toInt).toNat =
        ((bytes l).length - min (-reqLen.toInt) (bytes l).length).toNat := by omega
    rw [hcut]
    simp

/-- Ten bytes in one mbuf, and ten in another. -/
def twoTens : List Mbuf :=
  [⟨.data, none, some 20, false, 8, List.replicate 10 1⟩,
    ⟨.data, none, none, false, 0, List.replicate 10 2⟩]

/-- When four bytes are taken from the end of two times ten, the header still says 20. -/
theorem mAdjust_header : ¬Adjusted twoTens (-4) (mAdjust twoTens (-4)) := by
  rintro ⟨k, hk, -, hlen⟩
  have hk' : k = mAdjTail twoTens 4 := (Option.some.inj hk).symm
  rw [hk'] at hlen
  exact absurd hlen (by decide)

/-- Twelve bytes are taken from the end as they should be. -/
theorem mAdjust_adjusted_twelve : Adjusted twoTens (-12) (mAdjust twoTens (-12)) :=
  (mAdjust_adjusted_iff (l := twoTens) (by decide) (-12)).mpr (by decide)

end Mbuf
