import Mathlib.Data.List.Count
import NetBsd.Kern.Descrip

/-!
# What the descriptor routines do to a table and to the counts

The invariant of a descriptor table, and for every routine: it keeps the invariant, it neither
panics nor leaves the tables, and it moves the reference counts by what it does to the slots.

## Main definitions

* `Good t`: the cached bounds of a table are right
* `Exact F g`: the files have the reference counts `g`
* `Fits t lim want`: the lowest free descriptor from `want` on has a number below `2 ^ 16`
* `Splits t`: the copy of a table at fork loses its last descriptor

## Main results

* `fdalloc_spec`: the descriptor `fdalloc` finds is the lowest free one
* `dup2_fair`, `allocAssign_fair`, `openFile_fair`, `close_fair`, `fdcloseexec_fair`: the calls
  keep the invariants
* `fdcopy_fair`: the child's table has every descriptor of the parent's
-/

namespace Descrip

/-! ### Slots -/

section Slots

variable (t : Filedesc) (i j : ℕ) (x : Option FileId) (f : BitVec 8)

theorem slot_eq_none_iff : t.slot i = none ↔ t.fd_ofiles[i]? = none ∨ t.fd_ofiles[i]? = some none := by
  unfold Filedesc.slot
  rcases t.fd_ofiles[i]? with _ | _ | _ <;> simp

theorem slot_eq_some_iff {fp : FileId} :
    t.slot i = some fp ↔ t.fd_ofiles[i]? = some (some fp) := by
  unfold Filedesc.slot
  rcases t.fd_ofiles[i]? with _ | _ | _ <;> simp

theorem slot_of_le (h : t.fd_nfiles ≤ i) : t.slot i = none := by
  rw [slot_eq_none_iff, List.getElem?_eq_none_iff]
  exact .inl h

theorem lt_of_slot {fp : FileId} (h : t.slot i = some fp) : i < t.fd_nfiles := by
  by_contra hn
  rw [slot_of_le t i (by omega)] at h
  cases h

theorem slot_setFile (h : i < t.fd_nfiles) :
    (t.setFile i x).slot j = if j = i then x else t.slot j := by
  unfold Filedesc.slot Filedesc.setFile
  by_cases hj : j = i
  · subst hj
    have hlt : j < t.fd_ofiles.length := h
    simp [hlt]
  · simp [hj, List.getElem?_set_ne (Ne.symm hj)]

@[simp] theorem slot_setFlag : (t.setFlag i f).slot j = t.slot j := rfl

@[simp] theorem slot_raise : (t.raise i).slot j = t.slot j := by
  unfold Filedesc.raise
  split <;> rfl

@[simp] theorem slot_lowerFree : (t.lowerFree i).slot j = t.slot j := by
  unfold Filedesc.lowerFree
  split <;> rfl

@[simp] theorem slot_unmapIf : (t.unmapIf i).slot j = t.slot j := by
  unfold Filedesc.unmapIf
  split <;> rfl

@[simp] theorem slot_dropLast : t.dropLast.slot j = t.slot j := rfl

@[simp] theorem nfiles_setFile : (t.setFile i x).fd_nfiles = t.fd_nfiles := List.length_set

@[simp] theorem nfiles_setFlag : (t.setFlag i f).fd_nfiles = t.fd_nfiles := rfl

@[simp] theorem nfiles_raise : (t.raise i).fd_nfiles = t.fd_nfiles := by
  unfold Filedesc.raise
  split <;> rfl

@[simp] theorem nfiles_lowerFree : (t.lowerFree i).fd_nfiles = t.fd_nfiles := by
  unfold Filedesc.lowerFree
  split <;> rfl

@[simp] theorem nfiles_unmapIf : (t.unmapIf i).fd_nfiles = t.fd_nfiles := by
  unfold Filedesc.unmapIf
  split <;> rfl

/-- How often a file is in a table. -/
def Filedesc.refs (t : Filedesc) (fp : FileId) : ℕ := t.fd_ofiles.count (some fp)

@[simp] theorem refs_setFlag (fp : FileId) : (t.setFlag i f).refs fp = t.refs fp := rfl

@[simp] theorem refs_raise (fp : FileId) : (t.raise i).refs fp = t.refs fp := by
  unfold Filedesc.raise
  split <;> rfl

@[simp] theorem refs_lowerFree (fp : FileId) : (t.lowerFree i).refs fp = t.refs fp := by
  unfold Filedesc.lowerFree
  split <;> rfl

@[simp] theorem refs_unmapIf (fp : FileId) : (t.unmapIf i).refs fp = t.refs fp := by
  unfold Filedesc.unmapIf
  split <;> rfl

/-- A slot that changes takes one reference from its old file and gives one to its new. -/
theorem refs_setFile (h : i < t.fd_nfiles) (fp : FileId) :
    (t.setFile i x).refs fp + (if t.slot i = some fp then 1 else 0) =
      t.refs fp + (if x = some fp then 1 else 0) := by
  have hlt : i < t.fd_ofiles.length := h
  have hslot : t.slot i = t.fd_ofiles[i] := by simp [Filedesc.slot, List.getElem?_eq_getElem hlt]
  have hpos : t.fd_ofiles[i] = some fp → 0 < t.fd_ofiles.count (some fp) := fun he =>
    List.count_pos_iff.mpr (he ▸ List.getElem_mem hlt)
  unfold Filedesc.refs Filedesc.setFile
  rw [hslot]
  simp only [List.count_set hlt, beq_iff_eq]
  by_cases he : t.fd_ofiles[i] = some fp
  · have := hpos he
    simp only [he, if_true]
    split <;> omega
  · simp only [he, if_false]
    split <;> omega

theorem refs_pos {fp : FileId} (h : t.slot i = some fp) : 0 < t.refs fp :=
  List.count_pos_iff.mpr (List.mem_of_getElem? ((slot_eq_some_iff t i).mp h))

end Slots

/-! ### The invariant of a table -/

/-- The cached bounds of a descriptor table are right, and its size is one `fdalloc` makes. -/
structure Good (t : Filedesc) : Prop where
  flags : t.fd_ofileflags.length = t.fd_nfiles
  free : ∀ j < t.fd_freefile.toNat, t.slot j ≠ none
  last : ∀ j fp, t.slot j = some fp → j ≤ t.fd_lastfile.toNat
  bound : t.fd_lastfile.toNat < t.fd_nfiles
  size : t.fd_nfiles = NDFILE ∨ ∃ k, t.fd_nfiles = NDEXTENT * 2 ^ k

variable {t : Filedesc} {i : ℕ}

theorem emptyTable_slot (j : ℕ) : emptyTable.slot j = none := by
  rw [slot_eq_none_iff]
  unfold emptyTable
  rw [List.getElem?_replicate]
  split
  · exact .inr rfl
  · exact .inl rfl

theorem emptyTable_good : Good emptyTable where
  flags := rfl
  free := fun j hj => absurd hj (Nat.not_lt_zero j)
  last := fun j fp h => by rw [emptyTable_slot] at h; cases h
  bound := by decide
  size := .inl rfl

theorem Good.le_nfiles (hg : Good t) : NDFILE ≤ t.fd_nfiles := by
  rcases hg.size with h | ⟨k, h⟩
  · exact h.ge
  · have := Nat.one_le_two_pow (n := k)
    simp only [NDFILE, NDEXTENT] at *
    omega

theorem Good.setFlag (hg : Good t) (f : BitVec 8) : Good (t.setFlag i f) where
  flags := List.length_set.trans hg.flags
  free := hg.free
  last := hg.last
  bound := hg.bound
  size := hg.size

theorem Good.unmapIf (hg : Good t) : Good (t.unmapIf i) := by
  unfold Filedesc.unmapIf
  split
  · exact hg.setFlag _
  · exact hg

theorem lastfile_raise (h : i < 2 ^ 16) :
    (t.raise i).fd_lastfile.toNat = max t.fd_lastfile.toNat i := by
  unfold Filedesc.raise
  split
  · rw [BitVec.toNat_ofNat, Nat.mod_eq_of_lt h]; omega
  · omega

theorem freefile_raise : (t.raise i).fd_freefile = t.fd_freefile := by
  unfold Filedesc.raise
  split <;> rfl

theorem flags_raise : (t.raise i).fd_ofileflags = t.fd_ofileflags := by
  unfold Filedesc.raise
  split <;> rfl

theorem Good.raise (hg : Good t) (hi : i < t.fd_nfiles) (hlt : i < 2 ^ 16) : Good (t.raise i) where
  flags := by rw [flags_raise, nfiles_raise]; exact hg.flags
  free := fun j hj => by rw [freefile_raise] at hj; rw [slot_raise]; exact hg.free j hj
  last := fun j fp h => by
    rw [slot_raise] at h
    rw [lastfile_raise hlt]
    exact (hg.last j fp h).trans (le_max_left _ _)
  bound := by
    rw [lastfile_raise hlt, nfiles_raise]
    exact max_lt hg.bound hi
  size := by rw [nfiles_raise]; exact hg.size

/-- A descriptor below the high-water mark may get a file. -/
theorem Good.setFile (hg : Good t) (hi : i ≤ t.fd_lastfile.toNat) (fp : FileId) :
    Good (t.setFile i (some fp)) where
  flags := by rw [nfiles_setFile]; exact hg.flags
  free := fun j hj => by
    rw [slot_setFile t i j _ (hi.trans_lt hg.bound)]
    split
    · exact Option.some_ne_none fp
    · exact hg.free j hj
  last := fun j g h => by
    rw [slot_setFile t i j _ (hi.trans_lt hg.bound)] at h
    split at h
    · next he => exact he.trans_le hi
    · exact hg.last j g h
  bound := by rw [nfiles_setFile]; exact hg.bound
  size := by rw [nfiles_setFile]; exact hg.size

/-- What `dup2` does to a table, with the high-water mark raised first. -/
theorem raise_setFile (fp : Option FileId) (f : BitVec 8) :
    ((t.setFile i fp).setFlag i f).raise i = ((t.raise i).setFile i fp).setFlag i f := by
  unfold Filedesc.raise Filedesc.setFile Filedesc.setFlag
  split <;> rfl

theorem Good.assign (hg : Good t) (hi : i < t.fd_nfiles) (hlt : i < 2 ^ 16) (fp : FileId)
    (f : BitVec 8) : Good (((t.setFile i (some fp)).setFlag i f).raise i) := by
  rw [raise_setFile]
  refine ((hg.raise hi hlt).setFile ?_ fp).setFlag f
  rw [lastfile_raise hlt]
  exact le_max_right _ _

/-! ### Allocation -/

theorem searchFrom_some {l : List (Option FileId)} {i n k : ℕ} (h : searchFrom l i n = some k) :
    i ≤ k ∧ k < i + n ∧ l[k]? = some none ∧ ∀ j, i ≤ j → j < k → l[j]? ≠ some none := by
  induction n generalizing i with
  | zero => cases h
  | succ n ih =>
    rw [searchFrom] at h
    split at h
    · next hi =>
      obtain rfl := Option.some.inj h
      exact ⟨le_refl _, by omega, hi, fun j h₁ h₂ => absurd h₂ (by omega)⟩
    · next hi =>
      obtain ⟨h₁, h₂, h₃, h₄⟩ := ih h
      refine ⟨by omega, by omega, h₃, fun j hj hk => ?_⟩
      rcases Nat.eq_or_lt_of_le hj with rfl | hj
      · exact hi
      · exact h₄ j hj hk

theorem searchFrom_none {l : List (Option FileId)} {i n : ℕ} (h : searchFrom l i n = none) :
    ∀ j, i ≤ j → j < i + n → l[j]? ≠ some none := by
  induction n generalizing i with
  | zero => intro j h₁ h₂; omega
  | succ n ih =>
    rw [searchFrom] at h
    split at h
    · cases h
    · next hi =>
      intro j hj hlt
      rcases Nat.eq_or_lt_of_le hj with rfl | hj
      · exact hi
      · exact ih h j hj (by omega)

theorem slot_ne_none {j : ℕ} (hj : j < t.fd_nfiles) (h : t.fd_ofiles[j]? ≠ some none) :
    t.slot j ≠ none := by
  rw [Ne, slot_eq_none_iff]
  rintro (hn | hn)
  · exact absurd (List.getElem?_eq_none_iff.mp hn) (Nat.not_le.mpr hj)
  · exact h hn

theorem expand_nfiles (hg : Good t) :
    t.fd_nfiles < (expand t).fd_nfiles ∧
      ((expand t).fd_nfiles = NDFILE ∨ ∃ k, (expand t).fd_nfiles = NDEXTENT * 2 ^ k) := by
  have hlen : (expand t).fd_nfiles =
      t.fd_nfiles + ((if t.fd_nfiles < NDEXTENT then NDEXTENT else 2 * t.fd_nfiles) -
        t.fd_nfiles) := by
    simp [expand, Filedesc.fd_nfiles]
  have hle := hg.le_nfiles
  rcases hg.size with h | ⟨k, h⟩
  · rw [h, if_pos (by decide)] at hlen
    refine ⟨by rw [hlen, h]; decide, .inr ⟨0, ?_⟩⟩
    rw [hlen]
    decide
  · have hk := Nat.one_le_two_pow (n := k)
    have hne : ¬ t.fd_nfiles < NDEXTENT := by rw [h]; exact Nat.not_lt.mpr (Nat.le_mul_of_pos_right _ hk)
    rw [if_neg hne] at hlen
    simp only [NDFILE] at hle
    exact ⟨by omega, .inr ⟨k + 1, by rw [pow_succ, ← mul_assoc, ← h]; omega⟩⟩

theorem join_replicate (n j : ℕ) : (List.replicate n (none : Option FileId))[j]?.join = none := by
  rw [List.getElem?_replicate]
  split <;> rfl

theorem expand_slot (j : ℕ) : (expand t).slot j = t.slot j := by
  unfold Filedesc.slot expand
  dsimp only
  rcases Nat.lt_or_ge j t.fd_ofiles.length with h | h
  · rw [List.getElem?_append_left h]
  · rw [List.getElem?_append_right h, List.getElem?_eq_none h]
    exact join_replicate _ _

theorem expand_refs (fp : FileId) : (expand t).refs fp = t.refs fp := by
  have hzero : (List.replicate ((if t.fd_nfiles < NDEXTENT then NDEXTENT else 2 * t.fd_nfiles) -
      t.fd_nfiles) (none : Option FileId)).count (some fp) = 0 :=
    List.count_eq_zero.mpr fun h => by cases List.eq_of_mem_replicate h
  unfold Filedesc.refs expand
  dsimp only
  rw [List.count_append, hzero, Nat.add_zero]

theorem Good.expand (hg : Good t) : Good (expand t) where
  flags := by
    have := hg.flags
    simp only [Descrip.expand, List.length_append, List.length_replicate, Filedesc.fd_nfiles] at *
    rw [this]
  free := fun j hj => by rw [expand_slot]; exact hg.free j hj
  last := fun j fp h => by rw [expand_slot] at h; exact hg.last j fp h
  bound := hg.bound.trans (expand_nfiles hg).1
  size := (expand_nfiles hg).2

/-- The lowest free descriptor from `want` on, if the limit allows it, has a number below
`2 ^ 16`; and under a negative limit the table has none. -/
structure Fits (t : Filedesc) (lim : BitVec 32) (want : ℤ) : Prop where
  lowest : ∀ i : ℕ, want ≤ i → i < lim.toInt → t.slot i = none →
    (∀ j : ℕ, want ≤ j → j < i → t.slot j ≠ none) → i < 2 ^ 16
  negative : lim.toInt < 0 → ∀ j : ℕ, want ≤ j → j < t.fd_nfiles → t.slot j ≠ none

/-- What `fdalloc` is to do: the lowest free descriptor from `want` on within the limit, and a
table that holds what it held, with room for the descriptor below its high-water mark. -/
structure Allocated (lim : BitVec 32) (want : ℤ) (t t' : Filedesc) (r : Option ℕ) : Prop where
  good : Good t'
  slot : ∀ j, t'.slot j = t.slot j
  refs : ∀ fp, t'.refs fp = t.refs fp
  lowest : ∀ i : ℕ, r = some i → want ≤ i ∧ i < lim.toInt ∧ t.slot i = none ∧
    (∀ j : ℕ, want ≤ j → j < i → t.slot j ≠ none) ∧ i ≤ t'.fd_lastfile.toNat
  full : r = none → ∀ j : ℕ, want ≤ j → j < lim.toInt → t.slot j ≠ none

theorem le_searchStart (want : ℤ) (t : Filedesc) {j : ℕ} :
    searchStart want t ≤ j ↔ want ≤ j ∧ t.fd_freefile.toNat ≤ j := by
  unfold searchStart
  split <;> omega

/-- A free descriptor found goes below the high-water mark, and the bound on free descriptors
moves up to it when none is free before it. -/
theorem take_allocated {lim : BitVec 32} {want : ℤ} (hg : Good t) (hf : Fits t lim want)
    (hlim : lim.toInt = lim.toNat)
    (h : searchFrom t.fd_ofiles (searchStart want t) (min t.fd_nfiles lim.toNat - searchStart want t)
      = some i) : Allocated lim want t (take want i t) (some i) := by
  obtain ⟨h₁, h₂, h₃, h₄⟩ := searchFrom_some h
  obtain ⟨hwant, hfree⟩ := (le_searchStart want t).mp h₁
  have hi : i < t.fd_nfiles := by omega
  have hnone : t.slot i = none := (slot_eq_none_iff t i).mpr (.inr h₃)
  have hbelow : ∀ j : ℕ, want ≤ j → j < i → t.slot j ≠ none := by
    intro j hw hj
    rcases Nat.lt_or_ge j t.fd_freefile.toNat with hlt | hge
    · exact hg.free j hlt
    · exact slot_ne_none (by omega) (h₄ j ((le_searchStart want t).mpr ⟨hw, hge⟩) hj)
  have hlt : i < 2 ^ 16 := hf.lowest i hwant (by omega) hnone hbelow
  have hraise : Good ((t.setFlag i 0).raise i) := (hg.setFlag 0).raise hi hlt
  have hlast : i ≤ ((t.setFlag i 0).raise i).fd_lastfile.toNat := by
    rw [lastfile_raise hlt]; exact le_max_right _ _
  unfold take
  dsimp only
  split
  · next hle =>
    rw [freefile_raise] at hle
    refine ⟨⟨hraise.flags, ?_, hraise.last, hraise.bound, hraise.size⟩, ?_, ?_, ?_, ?_⟩
    · intro j hj
      rw [BitVec.toNat_ofNat, Nat.mod_eq_of_lt hlt] at hj
      show ((t.setFlag i 0).raise i).slot j ≠ none
      rw [slot_raise, slot_setFlag]
      rcases Nat.lt_or_ge j t.fd_freefile.toNat with hlt | hge
      · exact hg.free j hlt
      · have hle' : want ≤ (t.fd_freefile.toNat : ℤ) := hle
        exact hbelow j (by omega) hj
    · intro j
      show ((t.setFlag i 0).raise i).slot j = _
      simp
    · intro fp
      show ((t.setFlag i 0).raise i).refs fp = _
      simp
    · rintro _ ⟨⟩
      exact ⟨hwant, by omega, hnone, hbelow, hlast⟩
    · intro hn; cases hn
  · refine ⟨hraise, by simp, by simp, ?_, fun hn => by cases hn⟩
    rintro _ ⟨⟩
    exact ⟨hwant, by omega, hnone, hbelow, hlast⟩

/-- With no free descriptor found in a table as large as the limit, none is free. -/
theorem full_allocated {lim : BitVec 32} {want : ℤ} (hg : Good t) (hlim : lim.toInt = lim.toNat)
    (h : searchFrom t.fd_ofiles (searchStart want t)
      (min t.fd_nfiles lim.toNat - searchStart want t) = none)
    (hle : lim.toNat ≤ t.fd_nfiles) : Allocated lim want t t none := by
  refine ⟨hg, fun _ => rfl, fun _ => rfl, (fun i hi => by cases hi), fun _ j hw hj => ?_⟩
  rcases Nat.lt_or_ge j t.fd_freefile.toNat with hlt | hge
  · exact hg.free j hlt
  · have hstart := (le_searchStart want t).mpr ⟨hw, hge⟩
    exact slot_ne_none (by omega) (searchFrom_none h j hstart (by omega))

theorem fdallocLoop_spec {lim : BitVec 32} {want : ℤ} (hlim : lim.toInt = lim.toNat) {n : ℕ}
    (hg : Good t) (hf : Fits t lim want) (hn : lim.toNat ≤ t.fd_nfiles + n) :
    Allocated lim want t (fdallocLoop lim want (n + 1) t).1 (fdallocLoop lim want (n + 1) t).2 := by
  induction n generalizing t with
  | zero =>
    rw [fdallocLoop]
    cases hs : searchFrom t.fd_ofiles (searchStart want t)
        (min t.fd_nfiles lim.toNat - searchStart want t) with
    | some i => exact take_allocated hg hf hlim hs
    | none =>
      have hle : lim.toInt ≤ t.fd_nfiles := by omega
      simp only [hle, if_true]
      exact full_allocated hg hlim hs (by omega)
  | succ n ih =>
    rw [fdallocLoop]
    cases hs : searchFrom t.fd_ofiles (searchStart want t)
        (min t.fd_nfiles lim.toNat - searchStart want t) with
    | some i => exact take_allocated hg hf hlim hs
    | none =>
      by_cases hle : lim.toInt ≤ t.fd_nfiles
      · simp only [hle, if_true]
        exact full_allocated hg hlim hs (by omega)
      · simp only [hle, if_false]
        have hsize := (expand_nfiles hg).1
        have hf' : Fits (expand t) lim want :=
          ⟨by simpa only [expand_slot] using hf.lowest, fun hneg => by omega⟩
        have := ih hg.expand hf' (by omega)
        exact ⟨this.good, fun j => (this.slot j).trans (expand_slot j),
          fun fp => (this.refs fp).trans (expand_refs fp),
          by simpa only [expand_slot] using this.lowest,
          by simpa only [expand_slot] using this.full⟩

/-- **`fdalloc` finds the lowest free descriptor** not below `want` within the limit. -/
theorem fdalloc_spec {lim : BitVec 32} {want : ℤ} (hg : Good t) (hf : Fits t lim want) :
    Allocated lim want t (fdalloc lim want t).1 (fdalloc lim want t).2 := by
  have hcond := lim.toInt_eq_toNat_cond
  have hbits := lim.isLt
  rcases lt_or_ge lim.toInt 0 with hneg | hpos
  · -- The search is bounded by the table, since the limit counts as a large one there.
    rw [fdalloc, fdallocLoop]
    cases hs : searchFrom t.fd_ofiles (searchStart want t)
        (min t.fd_nfiles lim.toNat - searchStart want t) with
    | some i =>
      obtain ⟨h₁, h₂, h₃, -⟩ := searchFrom_some hs
      have hi : i < t.fd_nfiles := by omega
      refine absurd ((slot_eq_none_iff t i).mpr (.inr h₃))
        (hf.negative hneg i ((le_searchStart want t).mp h₁).1 hi)
    | none =>
      have hle : lim.toInt ≤ t.fd_nfiles := by omega
      simp only [hle, if_true]
      exact ⟨hg, fun _ => rfl, fun _ => rfl, (fun i hi => by cases hi),
        fun _ j _ hj => absurd hj (by omega)⟩
  · exact fdallocLoop_spec (by split at hcond <;> omega) hg hf (by omega)

/-! ### Reference counts -/

/-- The open files have the reference counts `g`, and what is not open has none. -/
structure Exact (F : Files) (g : FileId → ℕ) : Prop where
  some : ∀ fp f, F.file fp = .some f → f.f_count.toInt = g fp
  none : ∀ fp, F.file fp = .none → g fp = 0
  fresh : ∀ fp, F.fresh ≤ fp → F.file fp = .none

theorem toInt_add_one {x : BitVec 16} (h₀ : 0 ≤ x.toInt) (h : x.toInt < 32767) :
    (x + 1).toInt = x.toInt + 1 := by
  have h₁ := x.toInt_eq_toNat_cond
  have h₂ := (x + 1).toInt_eq_toNat_cond
  have h₃ : (x + 1).toNat = (x.toNat + 1) % 2 ^ 16 := BitVec.toNat_add x 1
  have h₄ := x.isLt
  split at h₁ <;> split at h₂ <;> omega

theorem toInt_sub_one {x : BitVec 16} (h : 0 < x.toInt) : (x - 1).toInt = x.toInt - 1 := by
  have h₁ := x.toInt_eq_toNat_cond
  have h₂ := (x - 1).toInt_eq_toNat_cond
  have h₄ := x.isLt
  have h₃ : (x - 1).toNat = x.toNat - 1 := BitVec.toNat_sub_of_le (BitVec.le_def.mpr (by
    show 1 ≤ x.toNat
    split at h₁ <;> omega))
  split at h₁ <;> split at h₂ <;> omega

section Counts

variable {F : Files} {g k : FileId → ℕ} {p : FileId}

theorem Exact.exists (h : Exact F g) (hpos : 0 < g p) : ∃ f, F.file p = .some f := by
  cases hf : F.file p with
  | none => exact absurd (h.none p hf) (by omega)
  | some f => exact ⟨f, rfl⟩

theorem Exact.congr (h : Exact F g) (he : ∀ x, k x = g x) : Exact F k := by
  obtain rfl : k = g := funext he
  exact h

/-- A file that is open gets another count. -/
theorem Exact.put (h : Exact F g) {f f' : File} (hf : F.file p = .some f)
    (hc : f'.f_count.toInt = k p) (hother : ∀ x, x ≠ p → k x = g x) :
    Exact (F.put p (.some f')) k where
  some := fun x y hx => by
    by_cases he : x = p
    · subst he
      obtain rfl : f' = y := by simpa [Files.put] using hx
      exact hc
    · rw [hother x he]
      exact h.some x y (by simpa [Files.put, he] using hx)
  none := fun x hx => by
    have hne : x ≠ p := by rintro rfl; simp [Files.put] at hx
    rw [hother x hne]
    exact h.none x (by simpa [Files.put, hne] using hx)
  fresh := fun x hx => by
    have hne : x ≠ p := by rintro rfl; rw [h.fresh x hx] at hf; cases hf
    simpa [Files.put, hne] using h.fresh x hx

/-- A file goes. -/
theorem Exact.ffree (h : Exact F g) (hz : k p = 0) (hother : ∀ x, x ≠ p → k x = g x) :
    Exact (ffree p F) k where
  some := fun x y hx => by
    have hne : x ≠ p := by rintro rfl; simp [Descrip.ffree, Files.put] at hx
    rw [hother x hne]
    exact h.some x y (by simpa [Descrip.ffree, Files.put, hne] using hx)
  none := fun x hx => by
    by_cases he : x = p
    · rw [he, hz]
    · rw [hother x he]
      exact h.none x (by simpa [Descrip.ffree, Files.put, he] using hx)
  fresh := fun x hx => by
    have hx' : F.file x = .none := h.fresh x hx
    by_cases he : x = p <;> simp [Descrip.ffree, Files.put, he, hx']

/-- A reference is counted. -/
theorem hold_spec (h : Exact F g) (hpos : 0 < g p) (hroom : g p < 32767)
    (hk : ∀ x, k x = g x + if x = p then 1 else 0) :
    ∃ F', hold p F = .ok F' ∧ Exact F' k := by
  obtain ⟨f, hf⟩ := h.exists hpos
  have hc := h.some p f hf
  have hfp : k p = g p + 1 := by simpa using hk p
  refine ⟨F.put p (.some { f with f_count := f.f_count + 1 }), by rw [hold, hf], h.put hf ?_ ?_⟩
  · show (f.f_count + 1).toInt = _
    rw [toInt_add_one (by omega) (by omega), hc, hfp]
    push_cast
    rfl
  · intro x hx
    simpa [hx] using hk x

/-- A reference is given back, the last one with the file. -/
theorem closef_spec (h : Exact F g) (hpos : 0 < g p)
    (hk : ∀ x, g x = k x + if x = p then 1 else 0) :
    ∃ F', closef p F = .ok F' ∧ Exact F' k := by
  obtain ⟨f, hf⟩ := h.exists hpos
  have hc := h.some p f hf
  have hsub : (f.f_count - 1).toInt = f.f_count.toInt - 1 := toInt_sub_one (by omega)
  have hfp : g p = k p + 1 := by simpa using hk p
  have hother : ∀ x, x ≠ p → k x = g x := fun x hx => by simpa [hx] using (hk x).symm
  by_cases hlast : 0 < (f.f_count - 1).toInt
  · refine ⟨F.put p (.some { f with f_count := f.f_count - 1 }), ?_, h.put hf ?_ hother⟩
    · rw [closef, hf]
      exact if_pos hlast
    · show (f.f_count - 1).toInt = _
      omega
  · refine ⟨ffree p F, ?_, h.ffree (by omega) hother⟩
    rw [closef, hf]
    dsimp only
    rw [if_neg hlast, if_neg (by omega)]

end Counts

/-! ### The calls -/

/-- What holds at a call: the table is good, and the counts are the references from elsewhere
with those of the table. -/
structure Fair (o : FileId → ℕ) (t : Filedesc) (F : Files) : Prop where
  good : Good t
  exact : Exact F fun fp => o fp + t.refs fp

/-- A call neither panics nor leaves the tables, and keeps the invariants. -/
def Keeps (o : FileId → ℕ) (c : Outcome) : Prop :=
  ∃ t F r, c = .ok (t, F, r) ∧ Fair o t F

/-- One more reference to the file fits its count. -/
def Room (o : FileId → ℕ) (t : Filedesc) (fp : FileId) : Prop := o fp + t.refs fp < 32767

/-- The limit leaves a free descriptor from `want` on. -/
def Grants (t : Filedesc) (lim : BitVec 32) (want : ℤ) : Prop :=
  ∃ i : ℕ, want ≤ i ∧ i < lim.toInt ∧ t.slot i = none

variable {o : FileId → ℕ} {F : Files} {lim : BitVec 32}

/-- Giving a slot a file, when the counts are those without what the slot held. -/
theorem assign_keeps (hg : Good t) {old new : ℕ} {fp : FileId} {g : FileId → ℕ} (hex : Exact F g)
    (hgo : ∀ x, g x + (if t.slot new = some x then 1 else 0) = o x + t.refs x)
    (hold : t.slot old = some fp) (hne : old ≠ new) (hnew : new < t.fd_nfiles)
    (hlt : new < 2 ^ 16) (hroom : g fp < 32767) : Keeps o (assign old new fp t F) := by
  have hpos : 0 < g fp := by
    -- The slot of `old` still holds the file when that of `new` is emptied.
    have hkept : (t.setFile new none).slot old = some fp := by
      rw [slot_setFile t new old none hnew, if_neg hne, hold]
    have hset := refs_setFile t new none hnew fp
    have := refs_pos _ _ hkept
    have := hgo fp
    simp only [reduceCtorEq, if_false] at hset
    omega
  obtain ⟨F', hF', hex'⟩ := hold_spec (k := fun x => o x + (t.setFile new (some fp)).refs x) hex
    hpos hroom (fun x => by
      have hset := refs_setFile t new (some fp) hnew x
      have := hgo x
      simp only [Option.some.injEq, eq_comm (a := fp)] at hset
      omega)
  refine ⟨_, F', _, by rw [assign, hF']; rfl, hg.assign hnew hlt fp _, ?_⟩
  simpa using hex'

/-- What keeps `dup2` right: the descriptor it allocates, or sets, is below `2 ^ 16`, and one more
reference fits the count. -/
structure Dup2Ok (o : FileId → ℕ) (t : Filedesc) (lim old new : BitVec 32) : Prop where
  beyond : ∀ fp, t.slot old.toNat = some fp → old ≠ new → new.toNat < lim.toNat →
    t.fd_nfiles ≤ new.toNat → Fits t lim new.toInt ∧ (Grants t lim new.toInt → Room o t fp)
  within : ∀ fp, t.slot old.toNat = some fp → old ≠ new → new.toNat < lim.toNat →
    new.toNat < t.fd_nfiles → new.toNat < 2 ^ 16 ∧ (t.slot new.toNat = some fp ∨ Room o t fp)

theorem Fair.of_allocated {want : ℤ} {t' : Filedesc} {r : Option ℕ}
    (hf : Fair o t F) (h : Allocated lim want t t' r) : Fair o t' F :=
  ⟨h.good, hf.exact.congr fun x => by rw [h.refs]⟩

/-- The file of a descriptor goes into a slot just allocated. -/
theorem assign_allocated {want : ℤ} {t' : Filedesc} {i old : ℕ} {fp : FileId}
    (h : Allocated lim want t t' (some i)) (hf : Fair o t F) (hold : t.slot old = some fp)
    (hroom : Room o t fp) : Keeps o (assign old i fp t' F) := by
  obtain ⟨-, -, hnone, -, hlast⟩ := h.lowest i rfl
  have hne : old ≠ i := by
    rintro rfl
    rw [hold] at hnone
    cases hnone
  have hbits := t'.fd_lastfile.isLt
  refine assign_keeps h.good (hf.of_allocated h).exact (fun x => ?_) ((h.slot old).trans hold) hne
    (hlast.trans_lt h.good.bound) (by omega) (by rw [h.refs]; exact hroom)
  rw [h.slot, hnone]
  simp

theorem dup2_keeps (hf : Fair o t F) {old new : BitVec 32} (hok : Dup2Ok o t lim old new) :
    Keeps o (dup2 lim old new t F) := by
  unfold dup2
  cases hold : t.slot old.toNat with
  | none => exact ⟨t, F, _, rfl, hf⟩
  | some fp =>
    dsimp only
    by_cases hlim : lim.toNat ≤ new.toNat
    · rw [if_pos hlim]; exact ⟨t, F, _, rfl, hf⟩
    rw [if_neg hlim]
    by_cases heq : old = new
    · rw [if_pos heq]; exact ⟨t, F, _, rfl, hf⟩
    rw [if_neg heq]
    by_cases hbeyond : t.fd_nfiles ≤ new.toNat
    · rw [if_pos hbeyond]
      obtain ⟨hfits, hroom⟩ := hok.beyond fp hold heq (by omega) hbeyond
      have halloc := fdalloc_spec hf.good hfits
      rcases hres : fdalloc lim new.toInt t with ⟨t', _ | i⟩
      · rw [hres] at halloc
        exact ⟨t', F, _, rfl, hf.of_allocated halloc⟩
      · rw [hres] at halloc
        obtain ⟨hwant, hilim, hnone, hbelow, -⟩ := halloc.lowest i rfl
        have hnat : new.toInt = new.toNat := by
          have h₁ := lim.toInt_eq_toNat_cond
          have h₂ := new.toInt_eq_toNat_cond
          split at h₁ <;> split at h₂ <;> omega
        -- A descriptor beyond the table is free, so it is the lowest one from itself on.
        have hi : new.toNat = i := by
          by_contra hne
          exact hbelow new.toNat hnat.le (by omega) (slot_of_le t _ hbeyond)
        subst hi
        dsimp only
        rw [if_neg (not_not_intro rfl)]
        exact assign_allocated halloc hf hold (hroom ⟨_, hwant, hilim, hnone⟩)
    · rw [if_neg hbeyond]
      obtain ⟨hlt, hroom⟩ := hok.within fp hold heq (by omega) (by omega)
      have hne : old.toNat ≠ new.toNat := fun h => heq (BitVec.eq_of_toNat_eq h)
      cases hnew : t.slot new.toNat with
      | none =>
        refine assign_keeps hf.good hf.exact (fun x => by simp [hnew]) hold hne (by omega) hlt ?_
        rcases hroom with hsame | hroom
        · rw [hnew] at hsame; cases hsame
        · exact hroom
      | some g =>
        have hg := refs_pos t _ hnew
        obtain ⟨F₁, hF₁, hex₁⟩ := closef_spec
          (k := fun x => o x + t.refs x - if x = g then 1 else 0) hf.exact
          (p := g) (by omega) (fun x => by
            by_cases hx : x = g
            · subst hx; simp only [if_true]; omega
            · simp [hx])
        dsimp only
        rw [hF₁]
        refine assign_keeps hf.good.unmapIf hex₁ (fun x => ?_) ((slot_unmapIf t _ _).trans hold) hne
          (by rw [nfiles_unmapIf]; omega) hlt ?_
        · rw [slot_unmapIf, refs_unmapIf, hnew]
          by_cases hx : x = g
          · subst hx; simp only [if_true]; omega
          · simp [hx, Ne.symm hx]
        · have hbits : o fp + t.refs fp ≤ 32767 := by
            obtain ⟨f, hfile⟩ := hf.exact.exists (p := fp) (by have := refs_pos t _ hold; omega)
            have := hf.exact.some fp f hfile
            have := f.f_count.toInt_lt
            omega
          rcases hroom with hsame | hroom
          · obtain rfl := Option.some.inj (hnew.symm.trans hsame)
            simp only [if_true]
            omega
          · have : o fp + t.refs fp < 32767 := hroom
            omega

/-- What keeps an allocation of one more descriptor of `fp` right. -/
structure AllocOk (o : FileId → ℕ) (t : Filedesc) (lim : BitVec 32) (want : ℤ) (fp : FileId) :
    Prop where
  fits : Fits t lim want
  room : Grants t lim want → Room o t fp

theorem allocAssign_keeps (hf : Fair o t F) {want : ℤ} {old : ℕ} {fp : FileId}
    (hold : t.slot old = some fp) (hok : AllocOk o t lim want fp) :
    Keeps o (allocAssign lim want old fp t F) := by
  have halloc := fdalloc_spec hf.good hok.fits
  unfold allocAssign
  rcases hres : fdalloc lim want t with ⟨t', _ | i⟩
  · rw [hres] at halloc
    exact ⟨t', F, _, rfl, hf.of_allocated halloc⟩
  · rw [hres] at halloc
    obtain ⟨hwant, hilim, hnone, -⟩ := halloc.lowest i rfl
    exact assign_allocated halloc hf hold (hok.room ⟨i, hwant, hilim, hnone⟩)

/-- What keeps `dup` right. -/
structure DupOk (o : FileId → ℕ) (t : Filedesc) (lim i following : BitVec 32) : Prop where
  low : i &&& ~~~63 = 0 → ∀ fp, t.slot i.toNat = some fp → AllocOk o t lim 0 fp
  high : i &&& ~~~63 ≠ 0 → Dup2Ok o t lim (i &&& 63) following

theorem dup_keeps (hf : Fair o t F) {i following : BitVec 32} (hok : DupOk o t lim i following) :
    Keeps o (dup lim i following t F) := by
  unfold dup
  by_cases hlow : i &&& ~~~63 = 0
  · rw [if_neg (not_not_intro hlow)]
    cases hold : t.slot i.toNat with
    | none => exact ⟨t, F, _, rfl, hf⟩
    | some fp => exact allocAssign_keeps hf hold (hok.low hlow fp hold)
  · rw [if_pos hlow]
    exact dup2_keeps hf (hok.high hlow)

theorem dupfd_keeps (hf : Fair o t F) {fd arg : BitVec 32}
    (hok : ∀ fp, t.slot fd.toNat = some fp → arg.toNat < lim.toNat → AllocOk o t lim arg.toInt fp) :
    Keeps o (dupfd lim fd arg t F) := by
  unfold dupfd
  cases hold : t.slot fd.toNat with
  | none => exact ⟨t, F, _, rfl, hf⟩
  | some fp =>
    dsimp only
    by_cases hlim : lim.toNat ≤ arg.toNat
    · rw [if_pos hlim]; exact ⟨t, F, _, rfl, hf⟩
    · rw [if_neg hlim]
      exact allocAssign_keeps hf hold (hok fp hold (by omega))

theorem setfd_keeps (hf : Fair o t F) (fd arg : BitVec 32) : Keeps o (setfd fd arg t F) := by
  unfold setfd
  cases t.slot fd.toNat with
  | none => exact ⟨t, F, _, rfl, hf⟩
  | some fp => exact ⟨_, F, _, rfl, hf.good.setFlag _, hf.exact⟩

/-! ### Closing -/

theorem freefile_lowerFree (h : i < 2 ^ 16) :
    (t.lowerFree i).fd_freefile.toNat = min t.fd_freefile.toNat i := by
  unfold Filedesc.lowerFree
  split
  · rw [BitVec.toNat_ofNat, Nat.mod_eq_of_lt h]; omega
  · omega

theorem lowerFree_fields :
    (t.lowerFree i).fd_ofiles = t.fd_ofiles ∧ (t.lowerFree i).fd_ofileflags = t.fd_ofileflags ∧
      (t.lowerFree i).fd_lastfile = t.fd_lastfile := by
  unfold Filedesc.lowerFree
  split <;> exact ⟨rfl, rfl, rfl⟩

/-- A descriptor is cleared, and the bound on free descriptors is lowered to it. -/
theorem Good.clear (hg : Good t) (hi : i ≤ t.fd_lastfile.toNat) (f : BitVec 8) :
    Good (((t.setFile i none).setFlag i f).lowerFree i) := by
  obtain ⟨hfiles, hflags, hlast⟩ := lowerFree_fields (t := (t.setFile i none).setFlag i f) (i := i)
  have hbits := t.fd_lastfile.isLt
  have hin : i < t.fd_nfiles := hi.trans_lt hg.bound
  refine ⟨?_, fun j hj => ?_, fun j fp h => ?_, ?_, ?_⟩
  · rw [hflags, nfiles_lowerFree, nfiles_setFlag, nfiles_setFile]
    exact List.length_set.trans hg.flags
  · rw [freefile_lowerFree (by omega)] at hj
    have hj' : j < t.fd_freefile.toNat := hj.trans_le (min_le_left _ _)
    rw [slot_lowerFree, slot_setFlag, slot_setFile _ _ _ _ hin, if_neg (by omega)]
    exact hg.free j hj'
  · rw [slot_lowerFree, slot_setFlag, slot_setFile _ _ _ _ hin] at h
    rw [hlast]
    split at h
    · cases h
    · exact hg.last j fp h
  · rw [hlast, nfiles_lowerFree, nfiles_setFlag, nfiles_setFile]
    exact hg.bound
  · rw [nfiles_lowerFree, nfiles_setFlag, nfiles_setFile]
    exact hg.size

theorem lowerLast_spec (l : List (Option FileId)) (n : ℕ) :
    lowerLast l n ≤ n ∧ ∀ j ≤ n, lowerLast l n < j → l[j]? = some none := by
  induction n with
  | zero => exact ⟨le_refl _, fun j hj h => absurd h (by omega)⟩
  | succ n ih =>
    rw [lowerLast]
    split
    · next hn =>
      refine ⟨ih.1.trans (Nat.le_succ n), fun j hj h => ?_⟩
      rcases Nat.eq_or_lt_of_le hj with rfl | hj
      · exact hn
      · exact ih.2 j (by omega) h
    · exact ⟨le_refl _, fun j hj h => absurd h (by omega)⟩

theorem Good.dropLast (hg : Good t) : Good t.dropLast := by
  obtain ⟨hle, habove⟩ := lowerLast_spec t.fd_ofiles t.fd_lastfile.toNat
  have hlast : t.dropLast.fd_lastfile.toNat = lowerLast t.fd_ofiles t.fd_lastfile.toNat := by
    have hbits := t.fd_lastfile.isLt
    show (BitVec.ofNat 16 _).toNat = _
    rw [BitVec.toNat_ofNat, Nat.mod_eq_of_lt (by omega)]
  refine ⟨hg.flags, hg.free, fun j fp h => ?_, ?_, hg.size⟩
  · rw [hlast]
    by_contra hn
    have h' := (slot_eq_some_iff t j).mp h
    rw [habove j (hg.last j fp h) (by omega)] at h'
    cases h'
  · rw [hlast]
    exact hle.trans_lt hg.bound

/-- `close` clears its descriptor before it lowers the bounds. -/
theorem close_order :
    (((t.setFile i none).dropLast).lowerFree i).setFlag i 0 =
      (((t.setFile i none).setFlag i 0).lowerFree i).dropLast := by
  unfold Filedesc.lowerFree Filedesc.setFlag Filedesc.dropLast
  dsimp only
  split <;> rfl

/-- Clearing a slot gives back the reference it held. -/
theorem refs_clear (hi : i < t.fd_nfiles) {fp : FileId} (h : t.slot i = some fp) (x : FileId) :
    o x + t.refs x = o x + (t.setFile i none).refs x + if x = fp then 1 else 0 := by
  have hset := refs_setFile t i none hi x
  rw [h] at hset
  simp only [Option.some.injEq, reduceCtorEq, if_false, eq_comm (a := fp)] at hset
  omega

theorem close_keeps (hf : Fair o t F) (fd : BitVec 32) : Keeps o (close fd t F) := by
  unfold close
  cases hold : t.slot fd.toNat with
  | none => exact ⟨t, F, _, rfl, hf⟩
  | some fp =>
    dsimp only
    have hg := hf.good.unmapIf (i := fd.toNat)
    have hslot : (t.unmapIf fd.toNat).slot fd.toNat = some fp := (slot_unmapIf t _ _).trans hold
    have hlast := hg.last _ _ hslot
    obtain ⟨F', hF', hex⟩ := closef_spec (p := fp)
      (k := fun x => o x + ((t.unmapIf fd.toNat).setFile fd.toNat none).refs x) hf.exact
      (by have := refs_pos t _ hold; omega) (fun x => by
        rw [← refs_clear (hlast.trans_lt hg.bound) hslot, refs_unmapIf])
    refine ⟨_, F', _, by rw [hF']; rfl, ?_, ?_⟩
    · rw [close_order]
      exact (hg.clear hlast 0).dropLast
    · refine hex.congr fun x => ?_
      rw [refs_setFlag, refs_lowerFree]
      rfl

theorem closeexecLoop_keeps {n : ℕ} (hf : Fair o t F) (hn : i + n ≤ t.fd_lastfile.toNat + 1) :
    ∃ t' F', closeexecLoop i n t F = .ok (t', F') ∧ Fair o t' F' := by
  induction n generalizing i t F with
  | zero => exact ⟨t, F, rfl, hf⟩
  | succ n ih =>
    rw [closeexecLoop]
    have hi : i < t.fd_nfiles := by have := hf.good.bound; omega
    have hget : t.fd_ofiles[i]? = some (t.slot i) := by
      have hlt : i < t.fd_ofiles.length := hi
      simp [Filedesc.slot, hlt]
    rw [hget]
    cases hslot : t.slot i with
    | none => exact ih hf (by omega)
    | some fp =>
      dsimp only
      split
      · exact ih hf (by omega)
      · have hg := hf.good.unmapIf (i := i)
        have hslot' : (t.unmapIf i).slot i = some fp := (slot_unmapIf t _ _).trans hslot
        have hlast := hg.last _ _ hslot'
        obtain ⟨F', hF', hex⟩ := closef_spec (p := fp)
          (k := fun x => o x + ((t.unmapIf i).setFile i none).refs x) hf.exact
          (by have := refs_pos t _ hslot; omega) (fun x => by
            rw [← refs_clear (hlast.trans_lt hg.bound) hslot', refs_unmapIf])
        rw [hF']
        refine ih ⟨hg.clear hlast 0, hex.congr fun x => ?_⟩ ?_
        · rw [refs_lowerFree, refs_setFlag]
        · obtain ⟨-, -, hlast'⟩ := lowerFree_fields (i := i)
            (t := ((t.unmapIf i).setFile i none).setFlag i 0)
          have hkeep : (t.unmapIf i).fd_lastfile = t.fd_lastfile := by
            unfold Filedesc.unmapIf
            split <;> rfl
          rw [hlast']
          show i + 1 + n ≤ (t.unmapIf i).fd_lastfile.toNat + 1
          rw [hkeep]
          omega

theorem fdcloseexec_keeps (hf : Fair o t F) : Keeps o (fdcloseexec t F) := by
  obtain ⟨t', F', hloop, hf'⟩ := closeexecLoop_keeps (i := 0)
    (n := t.fd_lastfile.toNat + 1) hf (by omega)
  exact ⟨t'.dropLast, F', _, by rw [fdcloseexec, hloop]; rfl, hf'.good.dropLast, hf'.exact⟩

/-! ### Opening -/

theorem setFile_setFile (x y : Option FileId) : (t.setFile i x).setFile i y = t.setFile i y := by
  unfold Filedesc.setFile
  rw [List.set_set]

/-- What `falloc` does: it fails and keeps the invariants, or it puts a new file into a free
descriptor of a table that keeps them. -/
theorem falloc_cases (hf : Fair o t F) (hfits : Fits t lim 0) :
    (∃ t' e, falloc lim t F = (t', F, .error e) ∧ Fair o t' F) ∨
      ∃ t' i, falloc lim t F = (t'.setFile i (some F.fresh),
          { F.put F.fresh (some ⟨0, 1⟩) with fresh := F.fresh + 1, nfiles := F.nfiles + 1 },
          .ok (F.fresh, i)) ∧
        Allocated lim 0 t t' (some i) ∧ F.nfiles < F.maxfiles := by
  have halloc := fdalloc_spec hf.good hfits
  unfold falloc
  rcases hres : fdalloc lim 0 t with ⟨t', _ | i⟩
  · rw [hres] at halloc
    exact .inl ⟨t', _, rfl, hf.of_allocated halloc⟩
  · rw [hres] at halloc
    by_cases hmax : F.maxfiles ≤ F.nfiles
    · exact .inl ⟨t', .ENFILE, by simp only [hmax, if_true], hf.of_allocated halloc⟩
    · exact .inr ⟨t', i, by simp only [hmax, if_false], halloc, by omega⟩

section Opening

variable {t' : Filedesc} {i : ℕ} {f : File}

/-- The files with a new one, and a table with that one in a free slot. -/
theorem fair_new (hf : Fair o t F) (h : Allocated lim 0 t t' (some i)) (hc : f.f_count = 1) :
    Fair o (t'.setFile i (some F.fresh))
      { F.put F.fresh (some f) with fresh := F.fresh + 1, nfiles := F.nfiles + 1 } := by
  obtain ⟨-, -, hnone, -, hlast⟩ := h.lowest i rfl
  have hzero := hf.exact.none _ (hf.exact.fresh _ (le_refl _))
  refine ⟨h.good.setFile hlast _, fun x y hx => ?_, fun x hx => ?_, fun x hx => ?_⟩
  · have hset := refs_setFile t' i (some F.fresh) (hlast.trans_lt h.good.bound) x
    rw [h.slot, hnone, h.refs] at hset
    simp only [reduceCtorEq, if_false, Option.some.injEq] at hset
    by_cases he : x = F.fresh
    · subst he
      obtain rfl : f = y := by simpa [Files.put] using hx
      simp only [if_true] at hset
      rw [hc]
      show (1 : ℤ) = _
      omega
    · have hx' : F.file x = some y := by simpa [Files.put, he] using hx
      have := hf.exact.some x y hx'
      simp only [Ne.symm he, if_false] at hset
      omega
  · have hne : x ≠ F.fresh := by rintro rfl; simp [Files.put] at hx
    have hset := refs_setFile t' i (some F.fresh) (hlast.trans_lt h.good.bound) x
    rw [h.slot, hnone, h.refs] at hset
    simp only [reduceCtorEq, if_false, Option.some.injEq, Ne.symm hne] at hset
    have := hf.exact.none x (by simpa [Files.put, hne] using hx)
    omega
  · have hlt : F.fresh + 1 ≤ x := hx
    have hne : x ≠ F.fresh := Nat.ne_of_gt hlt
    simpa [Files.put, hne] using hf.exact.fresh x (Nat.le_of_succ_le hlt)

/-- Without its new file, the files are as they were. -/
theorem exact_ffree_new (hf : Fair o t F) (h : Allocated lim 0 t t' (some i)) :
    Exact (ffree F.fresh
      { F.put F.fresh (some f) with fresh := F.fresh + 1, nfiles := F.nfiles + 1 })
      fun x => o x + t'.refs x where
  some := fun x y hx => by
    have hne : x ≠ F.fresh := by rintro rfl; simp [ffree, Files.put] at hx
    rw [h.refs]
    exact hf.exact.some x y (by simpa [ffree, Files.put, hne] using hx)
  none := fun x hx => by
    rw [h.refs]
    by_cases he : x = F.fresh
    · rw [he]
      exact hf.exact.none _ (hf.exact.fresh _ (le_refl _))
    · exact hf.exact.none x (by simpa [ffree, Files.put, he] using hx)
  fresh := fun x hx => by
    have hlt : F.fresh + 1 ≤ x := hx
    have hne : x ≠ F.fresh := Nat.ne_of_gt hlt
    simpa [ffree, Files.put, hne] using hf.exact.fresh x (Nat.le_of_succ_le hlt)

/-- An allocated slot that is empty again. -/
theorem Allocated.unset (h : Allocated lim 0 t t' (some i)) (fp : FileId) :
    (t'.setFile i (some fp)).setFile i none = t' := by
  obtain ⟨-, -, hnone, -, hlast⟩ := h.lowest i rfl
  have hlt : i < t'.fd_ofiles.length := hlast.trans_lt h.good.bound
  have hget : t'.fd_ofiles[i] = none := by
    have hslot := (h.slot i).trans hnone
    simpa [Filedesc.slot, List.getElem?_eq_getElem hlt] using hslot
  rw [setFile_setFile]
  unfold Filedesc.setFile
  rw [← hget, List.set_getElem_self]

end Opening

/-- What keeps `open` right: the descriptor it allocates, and with `/dev/fd` one more reference to
the file it is to share. -/
structure OpenOk (o : FileId → ℕ) (t : Filedesc) (F : Files) (lim : BitVec 32) (mode : BitVec 16)
    (opened : Opened) : Prop where
  fits : Fits t lim 0
  room : ∀ dfd wfp w, opened = .fdopen dfd → t.slot dfd.toNat = some wfp → F.file wfp = some w →
    (mode &&& FRDWR) ||| w.f_flag = w.f_flag → F.nfiles < F.maxfiles → Grants t lim 0 →
    Room o t wfp

theorem openFile_keeps (hf : Fair o t F) {mode : BitVec 16} {opened : Opened}
    (hok : OpenOk o t F lim mode opened) : Keeps o (openFile lim mode opened t F) := by
  unfold openFile
  rcases falloc_cases hf hok.fits with ⟨t', e, heq, hf'⟩ | ⟨t', i, heq, halloc, hmax⟩
  · rw [heq]
    exact ⟨t', F, _, rfl, hf'⟩
  rw [heq]
  obtain ⟨hwant, hilim, hnone, -, hlast⟩ := halloc.lowest i rfl
  have hin : i < t'.fd_nfiles := hlast.trans_lt halloc.good.bound
  have hfree : Exact (ffree F.fresh _) _ := exact_ffree_new (f := ⟨0, 1⟩) hf halloc
  cases opened with
  | vnode =>
    refine ⟨_, _, _, rfl, ?_⟩
    have hnew := fair_new (f := ⟨0, 1⟩) hf halloc rfl
    refine ⟨hnew.good, hnew.exact.put (f := ⟨0, 1⟩) (by simp [Files.put]) ?_ fun _ _ => rfl⟩
    exact hnew.exact.some F.fresh ⟨0, 1⟩ (by simp [Files.put])
  | failed e =>
    refine ⟨_, _, _, rfl, ?_⟩
    rw [halloc.unset]
    exact ⟨halloc.good, hfree⟩
  | fdopen dfd =>
    dsimp only
    have hslot : ∀ j, (t'.setFile i (some F.fresh)).slot j =
        if j = i then some F.fresh else t.slot j := fun j => by
      rw [slot_setFile _ _ _ _ hin, halloc.slot]
    have hback : Fair o ((t'.setFile i (some F.fresh)).setFile i none) (ffree F.fresh
        { F.put F.fresh (some ⟨0, 1⟩) with fresh := F.fresh + 1, nfiles := F.nfiles + 1 }) := by
      rw [halloc.unset]
      exact ⟨halloc.good, hfree⟩
    unfold dupfdopen
    rw [hslot i, if_pos rfl, hslot dfd.toNat]
    by_cases hsame : dfd.toNat = i
    · rw [if_pos hsame]
      simp only [if_true]
      exact ⟨_, _, _, rfl, hback⟩
    rw [if_neg hsame]
    cases hwfp : t.slot dfd.toNat with
    | none => exact ⟨_, _, _, rfl, hback⟩
    | some wfp =>
      have hpos := refs_pos t _ hwfp
      have hne : F.fresh ≠ wfp := by
        rintro rfl
        have := hf.exact.none _ (hf.exact.fresh _ (le_refl _))
        omega
      simp only [Option.some.injEq, hne, if_false]
      obtain ⟨w, hw⟩ := hfree.exists (p := wfp) (by rw [halloc.refs]; omega)
      rw [hw]
      dsimp only
      by_cases hmode : (mode &&& FRDWR) ||| w.f_flag = w.f_flag
      · rw [if_neg (not_not_intro hmode)]
        have hw' : F.file wfp = some w := by simpa [ffree, Files.put, Ne.symm hne] using hw
        have hroom := hok.room dfd wfp w rfl hwfp hw' hmode hmax ⟨i, hwant, hilim, hnone⟩
        obtain ⟨F', hF', hex⟩ := hold_spec (p := wfp)
          (k := fun x => o x + (t'.setFile i (some wfp)).refs x) hfree
          (by rw [halloc.refs]; omega) (by rw [halloc.refs]; exact hroom) (fun x => by
            have hset := refs_setFile t' i (some wfp) hin x
            rw [halloc.slot, hnone] at hset
            simp only [reduceCtorEq, if_false, Option.some.injEq, eq_comm (a := wfp)] at hset
            omega)
        rw [hF', setFile_setFile]
        have hbits := t'.fd_lastfile.isLt
        exact ⟨_, F', _, rfl, halloc.good.assign hin (by omega) wfp _, by simpa using hex⟩
      · rw [if_pos hmode]
        exact ⟨_, _, _, rfl, hback⟩

/-! ### Copying -/

/-- The table shrinks at fork until its last descriptor is the first one left out. -/
def Splits (t : Filedesc) : Prop :=
  ∃ k, t.fd_lastfile.toNat = 2 * NDEXTENT * 2 ^ k ∧ 2 * t.fd_lastfile.toNat ≤ t.fd_nfiles

/-- Unless the table splits, the smaller table has room for the last descriptor. -/
theorem shrinkLoop_spec {lastfile k n : ℕ} (hlast : lastfile < NDEXTENT * 2 ^ k)
    (hn : NDEXTENT * 2 ^ k ≤ n)
    (hsplit : ∀ m, lastfile = 2 * NDEXTENT * 2 ^ m → NDEXTENT * 2 ^ k < 2 * lastfile) :
    ∃ k', shrinkLoop lastfile n (NDEXTENT * 2 ^ k) = NDEXTENT * 2 ^ k' ∧
      lastfile < NDEXTENT * 2 ^ k' ∧ k' ≤ k := by
  induction k generalizing n with
  | zero =>
    cases n with
    | zero => exact ⟨0, rfl, hlast, le_refl _⟩
    | succ n =>
      rw [shrinkLoop, if_neg fun h => absurd h.1 (by decide)]
      exact ⟨0, rfl, hlast, le_refl _⟩
  | succ k ih =>
    have hpos : 0 < 2 ^ k := Nat.two_pow_pos k
    have hdouble : NDEXTENT * 2 ^ (k + 1) = 2 * (NDEXTENT * 2 ^ k) := by
      rw [pow_succ, Nat.mul_comm (2 ^ k) 2, Nat.mul_left_comm]
    cases n with
    | zero => exact absurd hn (by rw [hdouble]; simp only [NDEXTENT]; omega)
    | succ n =>
      rw [shrinkLoop]
      by_cases hc : 2 * NDEXTENT < NDEXTENT * 2 ^ (k + 1) ∧ lastfile * 2 ≤ NDEXTENT * 2 ^ (k + 1)
      · rw [if_pos hc, hdouble, Nat.mul_div_cancel_left _ (by decide)]
        have hk : lastfile ≠ NDEXTENT * 2 ^ k := by
          intro he
          -- The size is twice the last descriptor, which is then itself a size beyond the first.
          obtain ⟨m, rfl⟩ : ∃ m, k = m + 1 := by
            refine Nat.exists_eq_succ_of_ne_zero ?_
            rintro rfl
            simp [NDEXTENT] at hc
          have := hsplit m (by
            rw [he, pow_succ, Nat.mul_comm (2 ^ m) 2, ← Nat.mul_assoc, Nat.mul_comm NDEXTENT 2])
          omega
        obtain ⟨k', h₁, h₂, h₃⟩ := ih (n := n) (by omega) (by omega) (fun m hm => by
          have := hsplit m hm
          omega)
        exact ⟨k', h₁, h₂, by omega⟩
      · rw [if_neg hc]
        exact ⟨k + 1, rfl, hlast, le_refl _⟩

theorem copySize_spec (hg : Good t) (hs : ¬ Splits t) :
    t.fd_lastfile.toNat < copySize t ∧ copySize t ≤ t.fd_nfiles ∧
      (copySize t = NDFILE ∨ ∃ k, copySize t = NDEXTENT * 2 ^ k) := by
  unfold copySize
  split
  · next h => exact ⟨h, hg.le_nfiles, .inl rfl⟩
  · next h =>
    rcases hg.size with hsize | ⟨k, hsize⟩
    · exact absurd (hsize ▸ hg.bound) h
    · have hbound := hg.bound
      rw [hsize] at hbound ⊢
      obtain ⟨k', h₁, h₂, h₃⟩ := shrinkLoop_spec hbound (le_refl _) (fun m hm => by
        by_contra hle
        exact hs ⟨m, hm, by omega⟩)
      rw [h₁]
      exact ⟨h₂, Nat.mul_le_mul_left _ (Nat.pow_le_pow_right (by decide) h₃), .inr ⟨k', rfl⟩⟩

/-- The loop that counts the child's references meets no end of the table before its last
descriptor, and counts what it goes over. -/
theorem countLoop_spec {l : List (Option FileId)} {n : ℕ} {g k : FileId → ℕ}
    (hex : Exact F g) (hn : i + n ≤ l.length)
    (hk : ∀ x, k x = g x + ((l.drop i).take n).count (some x))
    (hpos : ∀ x, some x ∈ l → 0 < g x) (hroom : ∀ x, k x ≤ 32767) :
    ∃ F', countLoop l i n F = .ok F' ∧ Exact F' k := by
  induction n generalizing i F g with
  | zero => exact ⟨F, rfl, hex.congr fun x => by simpa using hk x⟩
  | succ n ih =>
    have hi : i < l.length := by omega
    have htake : (l.drop i).take (n + 1) = l[i] :: (l.drop (i + 1)).take n := by
      rw [List.drop_eq_getElem_cons hi, List.take_succ_cons]
    rw [countLoop, List.getElem?_eq_getElem hi]
    simp only [htake, List.count_cons, beq_iff_eq] at hk
    cases hfile : l[i] with
    | none =>
      simp only [hfile, reduceCtorEq, if_false, Nat.add_zero] at hk
      exact ih hex (by omega) hk hpos
    | some fp =>
      simp only [hfile, Option.some.injEq] at hk
      have hmem : some fp ∈ l := hfile ▸ List.getElem_mem hi
      have hfp := hk fp
      simp only [if_true] at hfp
      obtain ⟨F₁, hF₁, hex₁⟩ := hold_spec (k := fun x => g x + if x = fp then 1 else 0) hex
        (hpos fp hmem) (by have := hroom fp; omega) fun x => rfl
      dsimp only
      rw [hF₁]
      refine ih hex₁ (by omega) (fun x => ?_) (fun x hx => ?_)
      · rw [hk x, Nat.add_right_comm]
        simp only [eq_comm (a := fp), Nat.add_comm, Nat.add_left_comm]
      · have := hpos x hx
        omega

/-- The references of a table are all before its last descriptor. -/
theorem count_take {n : ℕ} (h : ∀ j fp, t.slot j = some fp → j < n) (x : FileId) :
    (t.fd_ofiles.take n).count (some x) = t.refs x := by
  have hdrop : (t.fd_ofiles.drop n).count (some x) = 0 := by
    refine List.count_eq_zero.mpr fun hmem => ?_
    obtain ⟨j, hj⟩ := List.mem_iff_getElem?.mp hmem
    rw [List.getElem?_drop] at hj
    have := h (n + j) x ((slot_eq_some_iff t _).mpr hj)
    omega
  have happ := congrArg (List.count (some x)) (List.take_append_drop n t.fd_ofiles)
  rw [List.count_append, hdrop, Nat.add_zero] at happ
  exact happ

/-- What keeps `fdcopy` right. -/
structure ForkOk (o : FileId → ℕ) (t : Filedesc) : Prop where
  keeps : ¬ Splits t
  room : ∀ fp, o fp + t.refs fp + t.refs fp ≤ 32767

/-- **The child has every descriptor of the parent**, in a table that keeps the invariant, and the
references of both are counted. -/
theorem fdcopy_spec (hf : Fair o t F) (hok : ForkOk o t) :
    ∃ child F', fdcopy t F = .ok (child, F') ∧ Good child ∧ (∀ j, child.slot j = t.slot j) ∧
      (∀ j fp, t.slot j = some fp → child.flag j = t.flag j) ∧
      Exact F' fun x => o x + t.refs x + child.refs x := by
  obtain ⟨hlast, hle, hsize⟩ := copySize_spec hf.good hok.keeps
  set child : Filedesc :=
    { t with
      fd_ofiles := t.fd_ofiles.take (copySize t)
      fd_ofileflags := t.fd_ofileflags.take (copySize t) } with hchild
  have hn : child.fd_nfiles = copySize t := by
    show (t.fd_ofiles.take _).length = _
    rw [List.length_take]
    exact min_eq_left hle
  have hslot : ∀ j, child.slot j = t.slot j := by
    intro j
    rcases Nat.lt_or_ge j (copySize t) with hj | hj
    · show (t.fd_ofiles.take _)[j]?.join = _
      rw [List.getElem?_take_of_lt hj]
      rfl
    · rw [slot_of_le child j (by omega)]
      cases hs : t.slot j with
      | none => rfl
      | some fp => exact absurd (hf.good.last j fp hs) (by omega)
  have hrefs : ∀ x, child.refs x = t.refs x := fun x =>
    count_take (fun j fp hj => (hf.good.last j fp hj).trans_lt hlast) x
  have hgood : Good child := by
    refine ⟨?_, fun j hj => ?_, fun j fp h => ?_, hn ▸ hlast, hn ▸ hsize⟩
    · rw [hn]
      show (t.fd_ofileflags.take _).length = _
      rw [List.length_take, hf.good.flags]
      exact min_eq_left hle
    · rw [hslot]; exact hf.good.free j hj
    · rw [hslot] at h; exact hf.good.last j fp h
  obtain ⟨F', hF', hex⟩ := countLoop_spec (i := 0) (l := child.fd_ofiles)
    (n := t.fd_lastfile.toNat + 1) (k := fun x => o x + t.refs x + child.refs x) hf.exact
    (by have := hgood.bound; show 0 + _ ≤ child.fd_nfiles; omega)
    (fun x => by
      rw [List.drop_zero, count_take (fun j fp hj => Nat.lt_succ_of_le (hgood.last j fp hj))])
    (fun x hx => by
      have : 0 < child.refs x := List.count_pos_iff.mpr hx
      rw [hrefs] at this
      omega)
    (fun x => by rw [hrefs]; exact hok.room x)
  refine ⟨child, F', ?_, hgood, hslot, fun j fp hj => ?_, hex⟩
  · show Except.map _ (countLoop child.fd_ofiles 0 (t.fd_lastfile.toNat + 1) F) = _
    rw [hF']
    rfl
  · have hlt := (hf.good.last j fp hj).trans_lt hlast
    show (t.fd_ofileflags.take _).getD j 0 = t.fd_ofileflags.getD j 0
    rw [List.getD_eq_getElem?_getD, List.getD_eq_getElem?_getD, List.getElem?_take_of_lt hlt]

end Descrip
