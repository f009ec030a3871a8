import Mathlib
import NetBsd.Vm.SwapPager

/-!
# Runs of the swap pager

In every run in which synchronous puts are of pages with their bit set, no swap block is allocated
at block 0, and `rlist_free` has the memory it needs, the pages put last are the pages read, they
lie on disk blocks of their own, and `swap_pager_dealloc` gives back what the pager took.

## Main definitions

* `Slot s p ix b swb`: entry `ix` of the swap blocks of pager `p`
* `Inv`: what the operations keep

## Main results

* `Inv.acquire`, `Inv.write`: a swap block is allocated, and a page is written to one
* `dealloc_spec`: what `swap_pager_dealloc` gives back
* `swap_right`: the pages are right in every run within `Kept`
* `not_swap`: a page put synchronously is lost
-/

namespace SwapPager

open Rlist

variable {α : Type} {s s' : Swap α} {g g' : Ghost α} {p q ix jx b c off off' : ℕ}
  {swp : Swpager} {swb swc : Swblock} {m m' : VmPage α}

/-! ## Offsets and bits -/

/-- The sizes of swap blocks: whole pages, at most one for each bit of the mask. -/
def Sized (b : ℕ) : Prop := ∃ k, b = 8 * k ∧ 0 < k ∧ k ≤ 32

theorem bsizeFor_mem (size : ℕ) {tab : List Swtab} (hend : ∃ t ∈ tab, t.stOsize = 0) :
    ∃ t ∈ tab, bsizeFor size tab = t.stBsize := by
  induction tab with
  | nil => simp at hend
  | cons t rest ih =>
    simp only [bsizeFor]
    split
    next => exact ⟨t, List.mem_cons_self, rfl⟩
    next hlarge =>
      have hrest : ∃ t ∈ rest, t.stOsize = 0 := by
        obtain ⟨u, hu, hz⟩ := hend
        rcases List.mem_cons.mp hu with rfl | hu
        · exact absurd (.inl hz) hlarge
        · exact ⟨u, hu, hz⟩
      obtain ⟨u, hu, heq⟩ := ih hrest
      exact ⟨u, List.mem_cons_of_mem _ hu, heq⟩

theorem bsizeFor_sized (size : ℕ) : Sized (bsizeFor size swtab) := by
  have htab : swtab = [⟨64 * (32 * 512), 32⟩, ⟨64 * (64 * 512), 64⟩, ⟨64 * (128 * 512), 128⟩,
    ⟨0, 256⟩] := rfl
  obtain ⟨t, ht, heq⟩ := @bsizeFor_mem size swtab ⟨⟨0, 256⟩, by simp [htab], rfl⟩
  rw [heq]
  simp only [htab, List.mem_cons, List.not_mem_nil, or_false] at ht
  rcases ht with rfl | rfl | rfl | rfl
  · exact ⟨4, rfl, by decide, by decide⟩
  · exact ⟨8, rfl, by decide, by decide⟩
  · exact ⟨16, rfl, by decide, by decide⟩
  · exact ⟨32, rfl, by decide, by decide⟩

theorem Sized.lt (hb : Sized b) : b < 2 ^ 32 := by
  obtain ⟨k, rfl, -, hk⟩ := hb
  omega

theorem Sized.pos (hb : Sized b) : 0 < b := by
  obtain ⟨k, rfl, hk, -⟩ := hb
  omega

theorem Sized.toNat (hb : Sized b) : (BitVec.ofNat 32 b).toNat = b := by
  rw [BitVec.toNat_ofNat, Nat.mod_eq_of_lt hb.lt]

/-- A page lies within its swap block, and its bit within the mask. -/
theorem Sized.within (hb : Sized b) (hoff : off % PAGE_SIZE = 0) :
    btodb (off % dbtob b) = 8 * atop (off % dbtob b) ∧ btodb (off % dbtob b) + 8 ≤ b ∧
      atop (off % dbtob b) < 32 := by
  obtain ⟨k, rfl, hk0, hk⟩ := hb
  obtain ⟨j, rfl⟩ := Nat.dvd_of_mod_eq_zero hoff
  have hmod : PAGE_SIZE * j % dbtob (8 * k) = 4096 * (j % k) := by
    rw [← Nat.mul_mod_mul_left]
    congr 1
    simp only [dbtob]
    omega
  have hlt := Nat.mod_lt j hk0
  rw [hmod]
  simp only [btodb, atop, PAGE_SIZE]
  omega

/-- Two pages of one swap block have different bits. -/
theorem Sized.inj (hb : Sized b) (hoff : off % PAGE_SIZE = 0) (hoff' : off' % PAGE_SIZE = 0)
    (hix : off / dbtob b = off' / dbtob b) (hbit : atop (off % dbtob b) = atop (off' % dbtob b)) :
    off = off' := by
  obtain ⟨hsec, -⟩ := hb.within hoff
  obtain ⟨hsec', -⟩ := hb.within hoff'
  obtain ⟨k, rfl, hk0, -⟩ := hb
  have hdvd : PAGE_SIZE ∣ dbtob (8 * k) := ⟨k, by simp only [dbtob, PAGE_SIZE]; omega⟩
  have hrem : off % dbtob (8 * k) % PAGE_SIZE = 0 := by rw [Nat.mod_mod_of_dvd _ hdvd, hoff]
  have hrem' : off' % dbtob (8 * k) % PAGE_SIZE = 0 := by rw [Nat.mod_mod_of_dvd _ hdvd, hoff']
  have heq : off % dbtob (8 * k) = off' % dbtob (8 * k) := by
    simp only [atop, PAGE_SIZE] at hbit hrem hrem'
    omega
  rw [← Nat.div_add_mod off (dbtob (8 * k)), hix, heq, Nat.div_add_mod]

/-- The bit of the page at `off` is set. -/
def Bit (mask : BitVec 32) (off : ℕ) : Prop := mask &&& pageBit off ≠ 0

theorem bit_iff {mask : BitVec 32} (hoff : atop off < 32) :
    Bit mask off ↔ mask.getLsbD (atop off) = true := by
  have htwo : pageBit off = BitVec.twoPow 32 (atop off) := (BitVec.twoPow_eq ..).symm
  rw [Bit, htwo, BitVec.and_twoPow]
  split
  next hset =>
    simp only [hset, iff_true]
    intro hz
    have := congrArg (fun x : BitVec 32 => x.getLsbD (atop off)) hz
    simp [hoff] at this
  next hset => simp [hset]

theorem bit_or {mask : BitVec 32} (hoff : atop off < 32) (hoff' : atop off' < 32) :
    Bit (mask ||| pageBit off') off ↔ Bit mask off ∨ atop off = atop off' := by
  have htwo : pageBit off' = BitVec.twoPow 32 (atop off') := (BitVec.twoPow_eq ..).symm
  rw [bit_iff hoff, bit_iff hoff, htwo, BitVec.getLsbD_or, BitVec.getLsbD_twoPow]
  simp only [hoff', decide_true, Bool.true_and, Bool.or_eq_true, decide_eq_true_eq]
  exact or_congr Iff.rfl eq_comm

theorem or_of_bit {mask : BitVec 32} (hoff : atop off < 32) (hset : Bit mask off) :
    mask ||| pageBit off = mask := by
  have htwo : pageBit off = BitVec.twoPow 32 (atop off) := (BitVec.twoPow_eq ..).symm
  rw [bit_iff hoff] at hset
  rw [htwo]
  apply BitVec.eq_of_getLsbD_eq
  intro i hi
  rw [BitVec.getLsbD_or, BitVec.getLsbD_twoPow]
  by_cases heq : atop off = i
  · subst heq
    simp [hset]
  · simp [heq]

theorem not_bit_zero : ¬Bit 0 off := by simp [Bit]

/-! ## Transfers -/

theorem readPage_writePage (disk : ℕ → α) (blkno : BitVec 32) (data : Fin 8 → α) :
    readPage (writePage disk blkno data) blkno = data := by
  funext i
  have hi : blkno.toNat + (i : ℕ) - blkno.toNat < 8 := by
    rw [Nat.add_sub_cancel_left]
    exact i.isLt
  unfold readPage writePage
  rw [dif_pos hi, if_pos (Nat.le_add_right ..)]
  exact congrArg data (Fin.ext (Nat.add_sub_cancel_left ..))

/-- A write leaves the pages that are elsewhere. -/
theorem readPage_of_apart (disk : ℕ → α) {blkno blkno' : BitVec 32} (data : Fin 8 → α)
    (hd : blkno'.toNat + 8 ≤ blkno.toNat ∨ blkno.toNat + 8 ≤ blkno'.toNat) :
    readPage (writePage disk blkno data) blkno' = readPage disk blkno' := by
  funext i
  have hi := i.isLt
  simp only [readPage, writePage]
  split_ifs
  · omega
  · rfl
  · rfl

/-! ## Swap blocks -/

/-- Entry `ix` of the swap blocks of pager `p`, which has blocks of size `b`. -/
def Slot (s : Swap α) (p ix b : ℕ) (swb : Swblock) : Prop :=
  ∃ swp, s.pagers p = some swp ∧ swp.swBsize = b ∧ swp.swBlocks[ix]? = some swb

theorem Slot.congr (hp : s'.pagers = s.pagers) : Slot s' p ix b swb ↔ Slot s p ix b swb := by
  simp only [Slot, hp]

theorem Slot.unique (h : Slot s p ix b swb) (h' : Slot s p ix c swc) : b = c ∧ swb = swc := by
  obtain ⟨swp, hp, rfl, hb⟩ := h
  obtain ⟨swq, hq, rfl, hc⟩ := h'
  obtain rfl := Option.some.inj (hp.symm.trans hq)
  exact ⟨rfl, Option.some.inj (hb.symm.trans hc)⟩

/-- One entry is replaced. -/
theorem slot_set (hp : s.pagers p = some swp) (hb : swp.swBlocks[ix]? = some swb)
    (hs : s'.pagers =
      Function.update s.pagers p (some { swp with swBlocks := swp.swBlocks.set ix swc })) {swd} :
    Slot s' q jx b swd ↔
      (q = p ∧ jx = ix) ∧ b = swp.swBsize ∧ swd = swc ∨
        ¬(q = p ∧ jx = ix) ∧ Slot s q jx b swd := by
  have hlt : ix < swp.swBlocks.length := (List.getElem?_eq_some_iff.mp hb).1
  simp only [Slot, hs]
  by_cases hq : q = p
  · subst hq
    by_cases hj : jx = ix
    · subst hj
      simp [hlt, eq_comm]
    · simp [hj, Ne.symm hj, List.getElem?_set_ne, hp]
  · simp [hq]

/-- The disk block where the page at `off` begins. -/
def blkno (swb : Swblock) (b off : ℕ) : BitVec 32 :=
  swb.swbBlock + BitVec.ofNat 32 (btodb (off % dbtob b))

/-- What the operations keep. -/
structure Inv (s : Swap α) (g : Ghost α) : Prop where
  canonical : Canonical s.swapmap
  sized : ∀ {p swp}, s.pagers p = some swp → Sized swp.swBsize
  fits : ∀ {p ix b swb}, Slot s p ix b swb → swb.swbBlock ≠ 0 → swb.swbBlock.toNat + b < 2 ^ 32
  taken : ∀ {p ix b swb}, Slot s p ix b swb → swb.swbBlock ≠ 0 →
    Disjoint (region b swb) (set s.swapmap)
  apart : ∀ {p ix b swb q jx c swc}, Slot s p ix b swb → Slot s q jx c swc →
    swb.swbBlock ≠ 0 → swc.swbBlock ≠ 0 → ¬(q = p ∧ jx = ix) →
    Disjoint (region b swb) (region c swc)
  clear : ∀ {p ix b swb}, Slot s p ix b swb → swb.swbBlock = 0 → swb.swbMask = 0
  put : ∀ {p off x}, g.last p off = some x → off % PAGE_SIZE = 0 ∧ ∃ b swb,
    Slot s p (off / dbtob b) b swb ∧ Bit swb.swbMask (off % dbtob b) ∧
      readPage s.disk (blkno swb b off) = x
  bit : ∀ {p off b swb}, Slot s p (off / dbtob b) b swb → off % PAGE_SIZE = 0 →
    Bit swb.swbMask (off % dbtob b) → ∃ x, g.last p off = some x
  owned : ∀ {p n}, n ∈ g.owned p ↔ ∃ ix b swb, Slot s p ix b swb ∧ swb.swbBlock ≠ 0 ∧
    n ∈ region b swb

theorem Inv.slot_sized (h : Inv s g) (hs : Slot s p ix b swb) : Sized b := by
  obtain ⟨swp, hp, rfl, -⟩ := hs
  exact h.sized hp

/-- First fit on the free space, for a swap block. -/
theorem Inv.allocated (h : Inv s g) (hp : s.pagers p = some swp) :
    Allocated (BitVec.ofNat 32 swp.swBsize) s.swapmap
      (rlistAlloc (BitVec.ofNat 32 swp.swBsize) s.swapmap) := by
  apply rlistAlloc_meets h.canonical
  rw [(h.sized hp).toNat]
  exact (h.sized hp).pos

theorem mem_region (hb : Sized b) {n : ℕ} :
    n ∈ region b swb ↔ swb.swbBlock.toNat ≤ n ∧ n < swb.swbBlock.toNat + b := by
  have hpos := hb.pos
  simp only [region, run, hb.toNat, Set.mem_Icc]
  omega

theorem Inv.congr (h : Inv s g) (hp : s'.pagers = s.pagers) (hm : s'.swapmap = s.swapmap)
    (hd : s'.disk = s.disk) : Inv s' g where
  canonical := hm ▸ h.canonical
  sized := fun hs => h.sized (hp ▸ hs)
  fits := fun hs => h.fits ((Slot.congr hp).mp hs)
  taken := fun hs => hm ▸ h.taken ((Slot.congr hp).mp hs)
  apart := fun hs hs' => h.apart ((Slot.congr hp).mp hs) ((Slot.congr hp).mp hs')
  clear := fun hs => h.clear ((Slot.congr hp).mp hs)
  put := fun hl => by
    obtain ⟨hoff, b, swb, hs, hbit, hread⟩ := h.put hl
    exact ⟨hoff, b, swb, (Slot.congr hp).mpr hs, hbit, hd ▸ hread⟩
  bit := fun hs => h.bit ((Slot.congr hp).mp hs)
  owned := by
    intro p n
    simp only [Slot.congr hp]
    exact h.owned

/-- A page within its swap block. -/
theorem Inv.blkno_within (h : Inv s g) (hs : Slot s p (off / dbtob b) b swb)
    (hz : swb.swbBlock ≠ 0) (hoff : off % PAGE_SIZE = 0) :
    (blkno swb b off).toNat = swb.swbBlock.toNat + btodb (off % dbtob b) ∧
      ∀ i < 8, (blkno swb b off).toNat + i ∈ region b swb := by
  have hb := h.slot_sized hs
  have hfit := h.fits hs hz
  obtain ⟨-, hwithin, -⟩ := hb.within hoff
  have hlt := hb.lt
  have hno : (blkno swb b off).toNat = swb.swbBlock.toNat + btodb (off % dbtob b) := by
    rw [blkno, BitVec.toNat_add, BitVec.toNat_ofNat,
      Nat.mod_eq_of_lt (show btodb (off % dbtob b) < 2 ^ 32 by omega)]
    exact Nat.mod_eq_of_lt (by omega)
  refine ⟨hno, ?_⟩
  intro i hi
  rw [mem_region hb, hno]
  omega

/-- Two pages that are put have disk blocks of their own. -/
theorem Inv.blkno_apart (h : Inv s g) (hs : Slot s p (off / dbtob b) b swb)
    (hs' : Slot s q (off' / dbtob c) c swc) (hz : swb.swbBlock ≠ 0) (hz' : swc.swbBlock ≠ 0)
    (hoff : off % PAGE_SIZE = 0) (hoff' : off' % PAGE_SIZE = 0) (hne : ¬(q = p ∧ off' = off)) :
    (blkno swc c off').toNat + 8 ≤ (blkno swb b off).toNat ∨
      (blkno swb b off).toNat + 8 ≤ (blkno swc c off').toNat := by
  obtain ⟨hno, hin⟩ := h.blkno_within hs hz hoff
  obtain ⟨hno', hin'⟩ := h.blkno_within hs' hz' hoff'
  by_cases hsame : q = p ∧ off' / dbtob c = off / dbtob b
  · -- two pages of one swap block
    obtain ⟨rfl, hix⟩ := hsame
    rw [hix] at hs'
    obtain ⟨rfl, rfl⟩ := hs.unique hs'
    have hb := h.slot_sized hs
    have hbit : atop (off % dbtob b) ≠ atop (off' % dbtob b) := by
      intro heq
      exact hne ⟨rfl, (hb.inj hoff hoff' hix.symm heq).symm⟩
    obtain ⟨hsec, -⟩ := hb.within hoff
    obtain ⟨hsec', -⟩ := hb.within hoff'
    omega
  · have hd := Set.disjoint_left.mp (h.apart hs hs' hz hz' hsame)
    by_contra hc
    -- the later of the two beginnings is on both
    rcases Nat.le_total (blkno swb b off).toNat (blkno swc c off').toNat with hle | hle
    · have hmem := hin ((blkno swc c off').toNat - (blkno swb b off).toNat) (by omega)
      rw [Nat.add_sub_cancel' hle] at hmem
      exact hd hmem (hin' 0 (by decide))
    · have hmem := hin' ((blkno swb b off).toNat - (blkno swc c off').toNat) (by omega)
      rw [Nat.add_sub_cancel' hle] at hmem
      exact hd (hin 0 (by decide)) hmem

/-! ## Allocation and writing -/

theorem Inv.ghost (h : Inv s g) (hl : g'.last = g.last)
    (ho : ∀ p n, n ∈ g'.owned p ↔ n ∈ g.owned p) : Inv s g' where
  canonical := h.canonical
  sized := h.sized
  fits := h.fits
  taken := h.taken
  apart := h.apart
  clear := h.clear
  put := fun hx => h.put (hl ▸ hx)
  bit := fun hs hoff hb => hl ▸ h.bit hs hoff hb
  owned := by
    intro p n
    rw [ho]
    exact h.owned

/-- A swap block gets its disk blocks. -/
theorem Inv.acquire (h : Inv s g) (hp : s.pagers p = some swp) (hb : swp.swBlocks[ix]? = some swb)
    (hz : swb.swbBlock = 0) {loc : BitVec 32} {map : List Rlist}
    (hal : rlistAlloc (BitVec.ofNat 32 swp.swBsize) s.swapmap = some (loc, map)) (hloc : loc ≠ 0)
    (hs : s'.pagers = Function.update s.pagers p
      (some { swp with swBlocks := swp.swBlocks.set ix { swb with swbBlock := loc } }))
    (hmap : s'.swapmap = map) (hdisk : s'.disk = s.disk) :
    Inv s' ⟨g.last, Function.update g.owned p (g.owned p ∪ (set s.swapmap \ set s'.swapmap))⟩ := by
  have hsize := h.sized hp
  have hslot : Slot s p ix swp.swBsize swb := ⟨swp, hp, rfl, hb⟩
  have hmask := h.clear hslot hz
  have hspec := h.allocated hp
  rw [hal] at hspec
  obtain ⟨hcan, hsub, -, hset⟩ := hspec
  have hreg : region swp.swBsize { swb with swbBlock := loc } =
      run loc.toNat (BitVec.ofNat 32 swp.swBsize) := rfl
  rw [← hreg] at hsub hset
  have hother {q jx b swd} (hsl : Slot s' q jx b swd) :
      (q = p ∧ jx = ix) ∧ b = swp.swBsize ∧ swd = { swb with swbBlock := loc } ∨
        ¬(q = p ∧ jx = ix) ∧ Slot s q jx b swd := (slot_set hp hb hs).mp hsl
  refine ⟨hmap ▸ hcan, ?_, ?_, ?_, ?_, ?_, ?_, ?_, ?_⟩
  · intro q swq hq
    rw [hs] at hq
    by_cases hqp : q = p
    · subst hqp
      rw [Function.update_self] at hq
      obtain rfl := Option.some.inj hq
      exact hsize
    · rw [Function.update_of_ne hqp] at hq
      exact h.sized hq
  · intro q jx b swd hsl hnz
    rcases hother hsl with ⟨-, rfl, rfl⟩ | ⟨-, hold⟩
    · have hmem : loc.toNat + swp.swBsize - 1 ∈ set s.swapmap := by
        apply hsub
        have := hsize.pos
        exact (mem_region hsize).mpr ⟨by dsimp only; omega, by dsimp only; omega⟩
      have := h.canonical.2 _ hmem
      simp only
      omega
    · exact h.fits hold hnz
  · intro q jx b swd hsl hnz
    rw [hmap, hset]
    rcases hother hsl with ⟨-, rfl, rfl⟩ | ⟨-, hold⟩
    · exact Set.disjoint_sdiff_right
    · exact (h.taken hold hnz).mono_right Set.sdiff_subset
  · intro q jx b swd q' jx' b' swd' hsl hsl' hnz hnz' hne
    rcases hother hsl with ⟨⟨rfl, rfl⟩, rfl, rfl⟩ | ⟨-, hold⟩
    · rcases hother hsl' with ⟨heq, -⟩ | ⟨-, hold'⟩
      · exact absurd heq hne
      · exact ((h.taken hold' hnz').mono_right hsub).symm
    · rcases hother hsl' with ⟨-, rfl, rfl⟩ | ⟨-, hold'⟩
      · exact (h.taken hold hnz).mono_right hsub
      · exact h.apart hold hold' hnz hnz' hne
  · intro q jx b swd hsl hzero
    rcases hother hsl with ⟨-, rfl, rfl⟩ | ⟨-, hold⟩
    · exact absurd hzero hloc
    · exact h.clear hold hzero
  · intro q off x hx
    obtain ⟨hoff, b, swd, hold, hbit, hread⟩ := h.put hx
    refine ⟨hoff, b, swd, (slot_set hp hb hs).mpr (.inr ⟨?_, hold⟩), hbit, hdisk ▸ hread⟩
    -- no page of the swap block has been put
    rintro ⟨rfl, rfl⟩
    obtain ⟨rfl, rfl⟩ := hold.unique hslot
    rw [hmask] at hbit
    exact not_bit_zero hbit
  · intro q off b swd hsl hoff hbit
    rcases hother hsl with ⟨-, rfl, rfl⟩ | ⟨-, hold⟩
    · rw [show ({ swb with swbBlock := loc } : Swblock).swbMask = 0 from hmask] at hbit
      exact absurd hbit not_bit_zero
    · exact h.bit hold hoff hbit
  · intro q n
    have hdiff : Rlist.set s.swapmap \ Rlist.set s'.swapmap =
        region swp.swBsize { swb with swbBlock := loc } := by
      rw [hmap, hset, Set.sdiff_sdiff_right_self]
      exact Set.inter_eq_self_of_subset_right hsub
    by_cases hqp : q = p
    · subst hqp
      simp only [Function.update_self, Set.mem_union, hdiff]
      constructor
      · rintro (hn | hn)
        · obtain ⟨jx, b, swd, hold, hnz, hmem⟩ := h.owned.mp hn
          refine ⟨jx, b, swd, (slot_set hp hb hs).mpr (.inr ⟨?_, hold⟩), hnz, hmem⟩
          rintro ⟨-, rfl⟩
          obtain ⟨-, rfl⟩ := hold.unique hslot
          exact hnz hz
        · exact ⟨ix, _, _, (slot_set hp hb hs).mpr (.inl ⟨⟨rfl, rfl⟩, rfl, rfl⟩), hloc, hn⟩
      · rintro ⟨jx, b, swd, hsl, hnz, hmem⟩
        rcases hother hsl with ⟨-, rfl, rfl⟩ | ⟨-, hold⟩
        · exact .inr hmem
        · exact .inl (h.owned.mpr ⟨jx, b, swd, hold, hnz, hmem⟩)
    · simp only [Function.update_of_ne hqp]
      rw [h.owned]
      simp only [slot_set hp hb hs, hqp, false_and, not_false_eq_true, true_and, false_or]

/-- A page is written to a swap block that has disk blocks, and its bit is set. -/
theorem Inv.write (h : Inv s g) (hp : s.pagers p = some swp)
    (hb : swp.swBlocks[m.off / dbtob swp.swBsize]? = some swb) (hz : swb.swbBlock ≠ 0)
    (hs : s'.pagers = Function.update s.pagers p (some { swp with
      swBlocks := swp.swBlocks.set (m.off / dbtob swp.swBsize)
        { swb with swbMask := swb.swbMask ||| pageBit (m.off % dbtob swp.swBsize) } }))
    (hmap : s'.swapmap = s.swapmap)
    (hdisk : s'.disk = writePage s.disk (blkno swb swp.swBsize m.off) m.data) :
    Inv s' ⟨Function.update g.last p (Function.update (g.last p) m.off (some m.data)), g.owned⟩ := by
  have hsize := h.sized hp
  have hslot : Slot s p (m.off / dbtob swp.swBsize) swp.swBsize swb := ⟨swp, hp, rfl, hb⟩
  have hbitlt := (hsize.within m.aligned).2.2
  -- an entry now was one before, with the same disk blocks
  have hold {q jx b swd} (hsl : Slot s' q jx b swd) :
      ∃ swd', Slot s q jx b swd' ∧ swd'.swbBlock = swd.swbBlock := by
    rcases (slot_set hp hb hs).mp hsl with ⟨⟨rfl, rfl⟩, rfl, rfl⟩ | ⟨-, hsl'⟩
    · exact ⟨swb, hslot, rfl⟩
    · exact ⟨swd, hsl', rfl⟩
  have hreg {b} {x y : Swblock} (hxy : x.swbBlock = y.swbBlock) : region b x = region b y := by
    rw [region, hxy, region]
  refine ⟨hmap ▸ h.canonical, ?_, ?_, ?_, ?_, ?_, ?_, ?_, ?_⟩
  · intro q swq hq
    rw [hs] at hq
    by_cases hqp : q = p
    · subst hqp
      rw [Function.update_self] at hq
      obtain rfl := Option.some.inj hq
      exact hsize
    · rw [Function.update_of_ne hqp] at hq
      exact h.sized hq
  · intro q jx b swd hsl hnz
    obtain ⟨swd', hsl', heq⟩ := hold hsl
    rw [← heq] at hnz ⊢
    exact h.fits hsl' hnz
  · intro q jx b swd hsl hnz
    obtain ⟨swd', hsl', heq⟩ := hold hsl
    rw [← hreg heq, hmap]
    exact h.taken hsl' (heq ▸ hnz)
  · intro q jx b swd q' jx' b' swe hsl hsl' hnz hnz' hne
    obtain ⟨swd', hsd, heq⟩ := hold hsl
    obtain ⟨swe', hse, heq'⟩ := hold hsl'
    rw [← hreg heq, ← hreg heq']
    exact h.apart hsd hse (heq ▸ hnz) (heq' ▸ hnz') hne
  · intro q jx b swd hsl hzero
    rcases (slot_set hp hb hs).mp hsl with ⟨-, rfl, rfl⟩ | ⟨-, hsl'⟩
    · exact absurd hzero hz
    · exact h.clear hsl' hzero
  · intro q off x hx
    by_cases hpage : q = p ∧ off = m.off
    · obtain ⟨rfl, rfl⟩ := hpage
      simp only [Function.update_self, Option.some.injEq] at hx
      subst hx
      refine ⟨m.aligned, swp.swBsize, _, (slot_set hp hb hs).mpr (.inl ⟨⟨rfl, rfl⟩, rfl, rfl⟩), ?_, ?_⟩
      · exact (bit_or hbitlt hbitlt).mpr (.inr rfl)
      · rw [hdisk]
        exact readPage_writePage ..
    · have hx' : g.last q off = some x := by
        by_cases hqp : q = p
        · subst hqp
          have hne : off ≠ m.off := fun heq => hpage ⟨rfl, heq⟩
          simpa [Function.update_of_ne hne] using hx
        · simpa [Function.update_of_ne hqp] using hx
      obtain ⟨hoff, b, swd, hsl, hbit, hread⟩ := h.put hx'
      have hnz : swd.swbBlock ≠ 0 := by
        intro hzero
        rw [h.clear hsl hzero] at hbit
        exact not_bit_zero hbit
      have hkeep : readPage s'.disk (blkno swd b off) = x := by
        rw [hdisk, readPage_of_apart _ _ (h.blkno_apart hslot hsl hz hnz m.aligned hoff hpage)]
        exact hread
      by_cases hsame : q = p ∧ off / dbtob b = m.off / dbtob swp.swBsize
      · obtain ⟨rfl, hix⟩ := hsame
        have hsl' := hsl
        rw [hix] at hsl'
        obtain ⟨rfl, rfl⟩ := hsl'.unique hslot
        refine ⟨hoff, swp.swBsize, _, (slot_set hp hb hs).mpr (.inl ⟨⟨rfl, hix⟩, rfl, rfl⟩), ?_, hkeep⟩
        exact (bit_or (hsize.within hoff).2.2 hbitlt).mpr (.inl hbit)
      · exact ⟨hoff, b, swd, (slot_set hp hb hs).mpr (.inr ⟨hsame, hsl⟩), hbit, hkeep⟩
  · intro q off b swd hsl hoff hbit
    by_cases hpage : q = p ∧ off = m.off
    · obtain ⟨rfl, rfl⟩ := hpage
      exact ⟨m.data, by simp⟩
    · have hset : ∃ x, g.last q off = some x := by
        rcases (slot_set hp hb hs).mp hsl with ⟨⟨rfl, hix⟩, rfl, rfl⟩ | ⟨-, hsl'⟩
        · rcases (bit_or (hsize.within hoff).2.2 hbitlt).mp hbit with hbit | heq
          · exact h.bit (hix ▸ hslot) hoff hbit
          · exact absurd ⟨rfl, hsize.inj hoff m.aligned hix heq⟩ hpage
        · exact h.bit hsl' hoff hbit
      obtain ⟨x, hx⟩ := hset
      refine ⟨x, ?_⟩
      by_cases hqp : q = p
      · subst hqp
        have hne : off ≠ m.off := fun heq => hpage ⟨rfl, heq⟩
        simpa [Function.update_of_ne hne] using hx
      · simpa [Function.update_of_ne hqp] using hx
  · intro q n
    rw [h.owned]
    constructor
    · rintro ⟨jx, b, swd, hsl, hnz, hmem⟩
      by_cases hsame : q = p ∧ jx = m.off / dbtob swp.swBsize
      · obtain ⟨rfl, rfl⟩ := hsame
        obtain ⟨rfl, rfl⟩ := hsl.unique hslot
        exact ⟨_, _, _, (slot_set hp hb hs).mpr (.inl ⟨⟨rfl, rfl⟩, rfl, rfl⟩), hz, hmem⟩
      · exact ⟨jx, b, swd, (slot_set hp hb hs).mpr (.inr ⟨hsame, hsl⟩), hnz, hmem⟩
    · rintro ⟨jx, b, swd, hsl, hnz, hmem⟩
      obtain ⟨swd', hsl', heq⟩ := hold hsl
      exact ⟨jx, b, swd', hsl', heq ▸ hnz, hreg heq ▸ hmem⟩

/-! ## The operations -/

/-- The writes are done, and every `spc` entry is on one of the two queues. -/
def Idle (s : Swap α) : Prop :=
  (∀ spc ∈ s.inuse, spc.spcDone = true) ∧ s.inuse.length + s.free = npendingio

theorem clean_idle (hi : Idle s) (o : Option ℕ) :
    swapPagerClean o s = (false, { s with inuse := [], free := npendingio }) := by
  have hnil : (s.inuse.filter fun spc => !spc.spcDone) = [] := by
    apply List.filter_eq_nil_iff.mpr
    intro spc hspc
    simp [hi.1 spc hspc]
  have hfree : s.free + (s.inuse.length - 0) = npendingio := by
    have := hi.2
    omega
  simp only [swapPagerClean, hnil, List.any_nil, List.length_nil, hfree]

/-- The state after `swap_pager_clean`. -/
def cleaned (s : Swap α) : Swap α := { s with inuse := [], free := npendingio }

theorem idle_cleaned : Idle (cleaned s) := ⟨by simp [cleaned], by simp [cleaned]⟩

theorem Inv.cleaned (h : Inv s g) : Inv (cleaned s) g := h.congr rfl rfl rfl

theorem getpage_idle (hi : Idle s) : swapPagerGetpage p m s =
    match s.pagers p with
    | none => (.fail, m, SwapPager.cleaned s)
    | some swp =>
      match swp.swBlocks[m.off / dbtob swp.swBsize]? with
      | none => (.fail, m, SwapPager.cleaned s)
      | some swb =>
        if swb.swbBlock = 0 ∨ swb.swbMask &&& pageBit (m.off % dbtob swp.swBsize) = 0 then
          (.fail, m, SwapPager.cleaned s)
        else
          (.ok, { m with data := readPage s.disk (blkno swb swp.swBsize m.off) },
            SwapPager.cleaned s) := by
  rw [swapPagerGetpage, swapPagerIo, clean_idle hi]
  rfl

/-- A page that has been put is read. -/
theorem getpage_put (h : Inv s g) (hi : Idle s) {x : Fin 8 → α} (hx : g.last p m.off = some x) :
    swapPagerGetpage p m s = (.ok, { m with data := x }, SwapPager.cleaned s) ∧
      swapPagerHaspage p m.off s = true := by
  obtain ⟨-, b, swb, hsl, hbit, hread⟩ := h.put hx
  have hnz : swb.swbBlock ≠ 0 := by
    intro hzero
    rw [h.clear hsl hzero] at hbit
    exact not_bit_zero hbit
  obtain ⟨swp, hp, rfl, hb⟩ := hsl
  constructor
  · simp only [getpage_idle hi, hp, hb]
    rw [if_neg (not_or.mpr ⟨hnz, hbit⟩), hread]
  · simp only [swapPagerHaspage, hp, hb]
    exact decide_eq_true ⟨hnz, hbit⟩

/-- A page that has not been put is not. -/
theorem getpage_never (h : Inv s g) (hi : Idle s) (hx : g.last p m.off = none) :
    (swapPagerGetpage p m s).1 = .fail ∧ swapPagerHaspage p m.off s = false := by
  rw [getpage_idle hi, swapPagerHaspage]
  cases hp : s.pagers p with
  | none => exact ⟨rfl, rfl⟩
  | some swp =>
    simp only
    cases hb : swp.swBlocks[m.off / dbtob swp.swBsize]? with
    | none => exact ⟨rfl, rfl⟩
    | some swb =>
      have hclear : ¬Bit swb.swbMask (m.off % dbtob swp.swBsize) := by
        intro hbit
        obtain ⟨x, hx'⟩ := h.bit ⟨swp, hp, rfl, hb⟩ m.aligned hbit
        rw [hx] at hx'
        cases hx'
      have hmask := not_not.mp hclear
      constructor
      · simp only [hmask, or_true, if_true]
      · simp [hmask]

theorem pages_apart (h : Inv s g) {x y : Fin 8 → α} (hx : g.last p m.off = some x)
    (hy : g.last q m'.off = some y) (hne : (p, m.off) ≠ (q, m'.off)) :
    Disjoint (diskBlocks s p m.off) (diskBlocks s q m'.off) := by
  have hput {q} {m : VmPage α} {x} (hx : g.last q m.off = some x) : ∃ b swb,
      Slot s q (m.off / dbtob b) b swb ∧ swb.swbBlock ≠ 0 ∧
        ∀ n ∈ diskBlocks s q m.off, ∃ i : Fin 8, n = (blkno swb b m.off).toNat + i := by
    obtain ⟨-, b, swb, hsl, hbit, -⟩ := h.put hx
    refine ⟨b, swb, hsl, ?_, ?_⟩
    · intro hzero
      rw [h.clear hsl hzero] at hbit
      exact not_bit_zero hbit
    · rintro n ⟨swp, swb', hp, hb, i, hi⟩
      obtain ⟨swp', hp', rfl, hb'⟩ := hsl
      obtain rfl := Option.some.inj (hp.symm.trans hp')
      obtain rfl := Option.some.inj (hb.symm.trans hb')
      exact ⟨i, hi⟩
  obtain ⟨b, swb, hsl, hnz, hin⟩ := hput hx
  obtain ⟨c, swc, hsl', hnz', hin'⟩ := hput hy
  have hapart := h.blkno_apart hsl hsl' hnz hnz' m.aligned m'.aligned
    (by rintro ⟨rfl, heq⟩; exact hne (by rw [heq]))
  apply Set.disjoint_left.mpr
  intro n hn hn'
  obtain ⟨i, rfl⟩ := hin n hn
  obtain ⟨j, hj⟩ := hin' _ hn'
  have := i.isLt
  have := j.isLt
  omega

theorem putDone_idle (hi : Idle s) (sync : Bool) : putDone p m sync s =
    match s.pagers p with
    | none => (.fail, cleaned s)
    | some swp =>
      let ix := m.off / dbtob swp.swBsize
      match swp.swBlocks[ix]? with
      | none => (.fail, cleaned s)
      | some swb =>
        match allocBlock p ix swp swb (cleaned s) with
        | none => (.fail, cleaned s)
        | some (swp, swb, t) =>
          let (rv, t) := startWrite (if sync then .write else .async) p ix m swp swb t
          (rv, if rv = .pend then swapPagerIodone t else t) := by
  have hfree : ¬npendingio = 0 := by decide
  rw [putDone, swapPagerPutpage, swapPagerIo, clean_idle hi]
  simp only [hfree, Bool.false_eq_true, or_self, and_false, if_false, cleaned]
  cases s.pagers p with
  | none => rfl
  | some swp =>
    simp only
    cases swp.swBlocks[m.off / dbtob swp.swBsize]? with
    | none => rfl
    | some swb =>
      have hwrite : (if sync = true then Flags.write else .async) ≠ .read := by
        cases sync <;> decide
      simp only [if_neg hwrite]
      cases allocBlock p (m.off / dbtob swp.swBsize) swp swb
        { s with inuse := [], free := npendingio } with
      | none => rfl
      | some r => rfl

theorem iodone_idle (p a : ℕ) (hi : s.inuse = [] ∧ s.free = npendingio) :
    Idle (swapPagerIodone { s with inuse := s.inuse ++ [⟨false, p, a⟩], free := s.free - 1 }) := by
  obtain ⟨hinuse, hfree⟩ := hi
  constructor
  · simp [swapPagerIodone, hinuse]
  · simp [swapPagerIodone, hinuse, hfree, npendingio]

/-- A put that has failed. -/
theorem Inv.failed (h : Inv s g) : Inv (SwapPager.cleaned s)
    (g.put p m .fail s (SwapPager.cleaned s)) := by
  apply h.cleaned.ghost
  · rfl
  · intro q n
    by_cases hqp : q = p
    · subst hqp
      simp [Ghost.put, SwapPager.cleaned]
    · simp [Ghost.put, Function.update_of_ne hqp]

/-- The write of a put, to a swap block with disk blocks. -/
theorem startWrite_spec (h : Inv s g) (hi : s.inuse = [] ∧ s.free = npendingio)
    (hp : s.pagers p = some swp) (hb : swp.swBlocks[m.off / dbtob swp.swBsize]? = some swb)
    (hz : swb.swbBlock ≠ 0) {sync : Bool}
    (hsync : sync = true → Bit swb.swbMask (m.off % dbtob swp.swBsize)) :
    ∃ rv t, startWrite (if sync then .write else .async) p (m.off / dbtob swp.swBsize) m swp swb s =
        (rv, t) ∧ rv ≠ .fail ∧ t.swapmap = s.swapmap ∧
      Idle (if rv = .pend then swapPagerIodone t else t) ∧
      Inv (if rv = .pend then swapPagerIodone t else t)
        ⟨Function.update g.last p (Function.update (g.last p) m.off (some m.data)), g.owned⟩ := by
  cases sync with
  | false =>
    refine ⟨.pend, _, rfl, by decide, rfl, ?_, ?_⟩
    · exact iodone_idle p m.addr hi
    · exact h.write hp hb hz rfl rfl rfl
  | true =>
    refine ⟨.ok, _, rfl, by decide, rfl, ?_, ?_⟩
    · exact ⟨by simp [hi.1], by simp [hi]⟩
    · have hmask := or_of_bit ((h.sized hp).within m.aligned).2.2 (hsync rfl)
      have hset : swp.swBlocks.set (m.off / dbtob swp.swBsize) swb = swp.swBlocks := by
        obtain ⟨hlt, heq⟩ := List.getElem?_eq_some_iff.mp hb
        rw [← heq, List.set_getElem_self hlt]
      refine h.write hp hb hz ?_ rfl rfl
      -- the bit was set before
      rw [hmask, hset, ← hp, Function.update_eq_self]
      rfl

/-- A swap block in hand for the write, with what has been taken from `swapmap` so far. -/
structure Ready (s : Swap α) (g : Ghost α) (p : ℕ) (m : VmPage α) (sync : Bool) (swp : Swpager)
    (swb : Swblock) (t : Swap α) : Prop where
  pager : t.pagers p = some swp
  block : swp.swBlocks[m.off / dbtob swp.swBsize]? = some swb
  nonzero : swb.swbBlock ≠ 0
  idle : t.inuse = [] ∧ t.free = npendingio
  bit : sync = true → Bit swb.swbMask (m.off % dbtob swp.swBsize)
  inv : Inv t ⟨g.last,
    Function.update g.owned p (g.owned p ∪ (Rlist.set s.swapmap \ Rlist.set t.swapmap))⟩

theorem allocBlock_ready (h : Inv s g) {sync : Bool} (hk : Kept s (.put p m sync))
    (hp : s.pagers p = some swp) (hb : swp.swBlocks[m.off / dbtob swp.swBsize]? = some swb)
    {swp' : Swpager} {swb' : Swblock} {t : Swap α}
    (hal : allocBlock p (m.off / dbtob swp.swBsize) swp swb (cleaned s) = some (swp', swb', t)) :
    swp'.swBsize = swp.swBsize ∧ Ready s g p m sync swp' swb' t := by
  obtain ⟨hsync, hblock⟩ := hk swp swb hp hb
  unfold allocBlock at hal
  by_cases hz : swb.swbBlock = 0
  · rw [if_pos hz] at hal
    have hspec := h.allocated hp
    cases hr : rlistAlloc (BitVec.ofNat 32 swp.swBsize) s.swapmap with
    | none =>
      simp only [cleaned, hr] at hal
      cases hal
    | some r =>
      obtain ⟨loc, map⟩ := r
      rw [hr] at hspec
      obtain ⟨-, hsub, -⟩ := hspec
      have hloc : loc ≠ 0 := by
        rintro rfl
        exact hblock hz hsub
      simp only [cleaned, hr] at hal
      cases hal
      refine ⟨rfl, ?_⟩
      have hlt := (List.getElem?_eq_some_iff.mp hb).1
      constructor
      · exact Function.update_self ..
      · exact List.getElem?_set_self hlt
      · exact hloc
      · exact ⟨rfl, rfl⟩
      · -- there is space, so the bit was set; but there is no bit without disk blocks
        intro hs
        rcases hsync hs with hbit | ⟨-, hno⟩
        · exact hbit
        · exact absurd hsub (hno _)
      · exact h.acquire hp hb hz hr hloc rfl rfl rfl
  · rw [if_neg hz] at hal
    cases hal
    refine ⟨rfl, hp, hb, hz, ⟨rfl, rfl⟩, ?_, ?_⟩
    · intro hs
      rcases hsync hs with hbit | ⟨hzero, -⟩
      · exact hbit
      · exact absurd hzero hz
    · apply h.cleaned.ghost
      · rfl
      · intro q n
        by_cases hqp : q = p
        · subst hqp
          simp [cleaned]
        · simp [Function.update_of_ne hqp]

theorem put_spec (h : Inv s g) (hi : Idle s) {sync : Bool} (hk : Kept s (.put p m sync)) :
    Inv (putDone p m sync s).2 (g.put p m (putDone p m sync s).1 s (putDone p m sync s).2) ∧
      Idle (putDone p m sync s).2 := by
  rw [putDone_idle hi]
  cases hp : s.pagers p with
  | none => exact ⟨h.failed, idle_cleaned⟩
  | some swp =>
    simp only
    cases hb : swp.swBlocks[m.off / dbtob swp.swBsize]? with
    | none => exact ⟨h.failed, idle_cleaned⟩
    | some swb =>
      simp only
      cases hal : allocBlock p (m.off / dbtob swp.swBsize) swp swb (cleaned s) with
      | none => exact ⟨h.failed, idle_cleaned⟩
      | some r =>
        obtain ⟨swp', swb', t⟩ := r
        obtain ⟨hsize, hready⟩ := allocBlock_ready h hk hp hb hal
        obtain ⟨rv, u, hw, hrv, hmap, hidle, hinv⟩ := startWrite_spec hready.inv hready.idle
          hready.pager hready.block hready.nonzero hready.bit
        rw [hsize] at hw
        simp only [hw]
        refine ⟨hinv.ghost ?_ ?_, hidle⟩
        · exact if_neg hrv
        · intro q n
          have hsame : (if rv = .pend then swapPagerIodone u else u).swapmap = t.swapmap := by
            split
            · exact hmap
            · exact hmap
          simp only [Ghost.put, hsame]

/-! ## The other operations -/

/-- A pager that was not there has blocks none of which is allocated. -/
theorem alloc_spec (h : Inv s g) (hi : Idle s) (handle : Option ℕ) (size : ℕ) {mem : Option ℕ}
    (hmem : ∀ p, mem = some p → s.pagers p = none) :
    Inv (swapPagerAlloc handle size mem s).2 g ∧ Idle (swapPagerAlloc handle size mem s).2 := by
  unfold swapPagerAlloc
  cases handle.bind (vmPagerLookup s) with
  | some p => exact ⟨h, hi⟩
  | none =>
    cases mem with
    | none => exact ⟨h, hi⟩
    | some p =>
      have hnone := hmem p rfl
      have hnew {q jx b swd} (hsl : Slot (s.setPager p (some (newPager handle size))) q jx b swd) :
          q = p ∧ swd = ⟨0, 0⟩ ∨ q ≠ p ∧ Slot s q jx b swd := by
        obtain ⟨swq, hq, rfl, hb⟩ := hsl
        by_cases hqp : q = p
        · subst hqp
          rw [Swap.setPager_self] at hq
          obtain rfl := Option.some.inj hq
          exact .inl ⟨rfl, List.eq_of_mem_replicate (List.mem_of_getElem? hb)⟩
        · rw [Swap.setPager_of_ne _ _ hqp] at hq
          exact .inr ⟨hqp, swq, hq, rfl, hb⟩
      have hkeep {q jx b swd} (hsl : Slot s q jx b swd) :
          Slot (s.setPager p (some (newPager handle size))) q jx b swd := by
        obtain ⟨swq, hq, rest⟩ := hsl
        have hqp : q ≠ p := by
          rintro rfl
          rw [hnone] at hq
          cases hq
        exact ⟨swq, (s.setPager_of_ne _ hqp).trans hq, rest⟩
      have hinv : Inv (s.setPager p (some (newPager handle size))) g := by
        refine ⟨h.canonical, ?_, ?_, ?_, ?_, ?_, ?_, ?_, ?_⟩
        · intro q swq hq
          by_cases hqp : q = p
          · subst hqp
            rw [Swap.setPager_self] at hq
            obtain rfl := Option.some.inj hq
            exact bsizeFor_sized _
          · rw [Swap.setPager_of_ne _ _ hqp] at hq
            exact h.sized hq
        · intro q jx b swd hsl hnz
          rcases hnew hsl with ⟨-, rfl⟩ | ⟨-, hold⟩
          · exact absurd rfl hnz
          · exact h.fits hold hnz
        · intro q jx b swd hsl hnz
          rcases hnew hsl with ⟨-, rfl⟩ | ⟨-, hold⟩
          · exact absurd rfl hnz
          · exact h.taken hold hnz
        · intro q jx b swd q' jx' b' swe hsl hsl' hnz hnz' hne
          rcases hnew hsl with ⟨-, rfl⟩ | ⟨-, hold⟩
          · exact absurd rfl hnz
          · rcases hnew hsl' with ⟨-, rfl⟩ | ⟨-, hold'⟩
            · exact absurd rfl hnz'
            · exact h.apart hold hold' hnz hnz' hne
        · intro q jx b swd hsl hzero
          rcases hnew hsl with ⟨-, rfl⟩ | ⟨-, hold⟩
          · rfl
          · exact h.clear hold hzero
        · intro q off x hx
          obtain ⟨hoff, b, swd, hsl, hrest⟩ := h.put hx
          exact ⟨hoff, b, swd, hkeep hsl, hrest⟩
        · intro q off b swd hsl hoff hbit
          rcases hnew hsl with ⟨-, rfl⟩ | ⟨-, hold⟩
          · exact absurd hbit not_bit_zero
          · exact h.bit hold hoff hbit
        · intro q n
          rw [h.owned]
          constructor
          · rintro ⟨jx, b, swd, hsl, hrest⟩
            exact ⟨jx, b, swd, hkeep hsl, hrest⟩
          · rintro ⟨jx, b, swd, hsl, hnz, hmem⟩
            rcases hnew hsl with ⟨-, rfl⟩ | ⟨-, hold⟩
            · exact absurd rfl hnz
            · exact ⟨jx, b, swd, hold, hnz, hmem⟩
      cases handle with
      | none => exact ⟨hinv, hi⟩
      | some a => exact ⟨hinv.congr rfl rfl rfl, hi⟩

theorem region_eq {b : ℕ} (hb : Sized b) (hfit : swb.swbBlock.toNat + b < 2 ^ 32) :
    (swb.swbBlock + BitVec.ofNat 32 b - 1).toNat = swb.swbBlock.toNat + b - 1 ∧
      region b swb = Set.Icc swb.swbBlock.toNat (swb.swbBlock + BitVec.ofNat 32 b - 1).toNat := by
  have hpos := hb.pos
  have hnat := hb.toNat
  have hstop : (swb.swbBlock + BitVec.ofNat 32 b - 1).toNat = swb.swbBlock.toNat + b - 1 := by
    bv_omega
  rw [hstop]
  exact ⟨rfl, by rw [region, run, hnat]⟩

/-- The loop of `swap_pager_dealloc` gives back the blocks of every entry. -/
theorem freeBlocks_spec (hb : Sized b) {mem : ℕ → Bool} {blocks : List Swblock} {map : List Rlist}
    (hc : Canonical map)
    (hfit : ∀ x ∈ blocks, x.swbBlock ≠ 0 → x.swbBlock.toNat + b < 2 ^ 32)
    (htaken : ∀ x ∈ blocks, x.swbBlock ≠ 0 → Disjoint (region b x) (Rlist.set map))
    (hapart : blocks.Pairwise fun x y => x.swbBlock ≠ 0 → y.swbBlock ≠ 0 →
      Disjoint (region b x) (region b y))
    (hsup : Supplied b mem blocks (Rlist.set map)) :
    ∃ map', freeBlocks b mem blocks map = .ok map' ∧ Canonical map' ∧
      Rlist.set map' =
        Rlist.set map ∪ {n | ∃ x ∈ blocks, x.swbBlock ≠ 0 ∧ n ∈ region b x} := by
  induction blocks generalizing mem map with
  | nil => exact ⟨map, rfl, hc, by simp⟩
  | cons x rest ih =>
    have hrest := List.pairwise_cons.mp hapart
    unfold freeBlocks
    unfold Supplied at hsup
    by_cases hz : x.swbBlock = 0
    · rw [if_pos hz] at hsup ⊢
      obtain ⟨map', hok, hcan, hset⟩ := ih hc (fun y hy => hfit y (List.mem_cons_of_mem _ hy))
        (fun y hy => htaken y (List.mem_cons_of_mem _ hy)) hrest.2 hsup
      refine ⟨map', hok, hcan, ?_⟩
      rw [hset]
      ext n
      simp [hz]
    · rw [if_neg hz] at hsup ⊢
      have hx := hfit x List.mem_cons_self hz
      obtain ⟨hstop, hreg⟩ := region_eq hb hx
      have hpos := hb.pos
      have hle : x.swbBlock.toNat ≤ (x.swbBlock + BitVec.ofNat 32 b - 1).toNat := by
        rw [hstop]
        omega
      have hlt : (x.swbBlock + BitVec.ofNat 32 b - 1).toNat < 2 ^ 32 - 1 := by
        rw [hstop]
        omega
      have hdisj := htaken x List.mem_cons_self hz
      rw [hreg] at hdisj
      obtain ⟨map₁, hok₁, hcan₁, hset₁⟩ := (rlistFree_meets hc hle hlt hdisj).1 hsup.1
      rw [← hreg] at hset₁
      have htaken₁ : ∀ y ∈ rest, y.swbBlock ≠ 0 → Disjoint (region b y) (Rlist.set map₁) := by
        intro y hy hnz
        rw [hset₁]
        exact (htaken y (List.mem_cons_of_mem _ hy) hnz).union_right (hrest.1 y hy hz hnz).symm
      obtain ⟨map', hok, hcan, hset⟩ := ih hcan₁ (fun y hy => hfit y (List.mem_cons_of_mem _ hy))
        htaken₁ hrest.2 (hset₁ ▸ hsup.2)
      refine ⟨map', by rw [hok₁]; exact hok, hcan, ?_⟩
      rw [hset, hset₁]
      ext n
      simp only [Set.mem_union, Set.mem_ofPred_eq, List.mem_cons, exists_eq_or_imp, hz, ne_eq,
        not_false_eq_true, true_and, or_assoc]

theorem Inv.blocks (h : Inv s g) (hp : s.pagers p = some swp) :
    (∀ x ∈ swp.swBlocks, x.swbBlock ≠ 0 → x.swbBlock.toNat + swp.swBsize < 2 ^ 32) ∧
    (∀ x ∈ swp.swBlocks, x.swbBlock ≠ 0 →
      Disjoint (region swp.swBsize x) (Rlist.set s.swapmap)) ∧
    swp.swBlocks.Pairwise fun x y => x.swbBlock ≠ 0 → y.swbBlock ≠ 0 →
      Disjoint (region swp.swBsize x) (region swp.swBsize y) := by
  refine ⟨?_, ?_, ?_⟩
  · intro x hx hnz
    obtain ⟨ix, hix⟩ := List.mem_iff_getElem?.mp hx
    exact h.fits ⟨swp, hp, rfl, hix⟩ hnz
  · intro x hx hnz
    obtain ⟨ix, hix⟩ := List.mem_iff_getElem?.mp hx
    exact h.taken ⟨swp, hp, rfl, hix⟩ hnz
  · apply List.pairwise_iff_getElem.mpr
    intro i j hi hj hij hnz hnz'
    refine h.apart ⟨swp, hp, rfl, List.getElem?_eq_getElem hi⟩
      ⟨swp, hp, rfl, List.getElem?_eq_getElem hj⟩ hnz hnz' ?_
    rintro ⟨-, rfl⟩
    exact absurd hij (lt_irrefl _)

/-- `swap_pager_dealloc` gives back what the pager took. -/
theorem dealloc_spec (h : Inv s g) (hi : Idle s) (hp : s.pagers p = some swp) {mem : ℕ → Bool}
    (hsup : Supplied swp.swBsize mem swp.swBlocks (Rlist.set s.swapmap)) :
    ∃ s', swapPagerDealloc mem p s = .ok s' ∧ Disjoint (Rlist.set s.swapmap) (g.owned p) ∧
      Rlist.set s'.swapmap = Rlist.set s.swapmap ∪ g.owned p ∧ Inv s' (g.drop p) ∧ Idle s' := by
  obtain ⟨hfit, htaken, hapart⟩ := h.blocks hp
  obtain ⟨map, hok, hcan, hset⟩ := freeBlocks_spec (h.sized hp) h.canonical hfit htaken hapart hsup
  have howned : {n | ∃ x ∈ swp.swBlocks, x.swbBlock ≠ 0 ∧ n ∈ region swp.swBsize x} =
      g.owned p := by
    ext n
    rw [h.owned]
    constructor
    · rintro ⟨x, hx, hnz, hn⟩
      obtain ⟨ix, hix⟩ := List.mem_iff_getElem?.mp hx
      exact ⟨ix, _, x, ⟨swp, hp, rfl, hix⟩, hnz, hn⟩
    · rintro ⟨ix, b, x, ⟨swp', hp', rfl, hix⟩, hnz, hn⟩
      obtain rfl := Option.some.inj (hp.symm.trans hp')
      exact ⟨x, List.mem_of_getElem? hix, hnz, hn⟩
  rw [howned] at hset
  have hdisj : Disjoint (Rlist.set s.swapmap) (g.owned p) := by
    apply Set.disjoint_left.mpr
    intro n hn hn'
    obtain ⟨ix, b, x, hsl, hnz, hmem⟩ := h.owned.mp hn'
    exact Set.disjoint_left.mp (h.taken hsl hnz) hmem hn
  have hslot {t : Swap α} (ht : t.pagers = Function.update s.pagers p none) {q jx b swd} :
      Slot t q jx b swd ↔ q ≠ p ∧ Slot s q jx b swd := by
    simp only [Slot, ht]
    by_cases hqp : q = p
    · subst hqp
      simp
    · simp [hqp]
  have hinv {t : Swap α} (ht : t.pagers = Function.update s.pagers p none) (hm : t.swapmap = map)
      (hd : t.disk = s.disk) : Inv t (g.drop p) := by
    refine ⟨hm ▸ hcan, ?_, ?_, ?_, ?_, ?_, ?_, ?_, ?_⟩
    · intro q swq hq
      rw [ht] at hq
      by_cases hqp : q = p
      · subst hqp
        rw [Function.update_self] at hq
        cases hq
      · rw [Function.update_of_ne hqp] at hq
        exact h.sized hq
    · intro q jx b swd hsl hnz
      exact h.fits ((hslot ht).mp hsl).2 hnz
    · intro q jx b swd hsl hnz
      obtain ⟨hqp, hold⟩ := (hslot ht).mp hsl
      rw [hm, hset]
      refine (h.taken hold hnz).union_right (Set.disjoint_left.mpr ?_)
      -- the blocks of another pager
      intro n hn hn'
      obtain ⟨jx', b', swd', hsl', hnz', hmem⟩ := h.owned.mp hn'
      exact Set.disjoint_left.mp (h.apart hsl' hold hnz' hnz fun heq => hqp heq.1) hmem hn
    · intro q jx b swd q' jx' b' swe hsl hsl' hnz hnz' hne
      exact h.apart ((hslot ht).mp hsl).2 ((hslot ht).mp hsl').2 hnz hnz' hne
    · intro q jx b swd hsl hzero
      exact h.clear ((hslot ht).mp hsl).2 hzero
    · intro q off x hx
      have hqp : q ≠ p := by
        rintro rfl
        simp [Ghost.drop] at hx
      simp only [Ghost.drop, Function.update_of_ne hqp] at hx
      obtain ⟨hoff, b, swd, hsl, hbit, hread⟩ := h.put hx
      exact ⟨hoff, b, swd, (hslot ht).mpr ⟨hqp, hsl⟩, hbit, hd ▸ hread⟩
    · intro q off b swd hsl hoff hbit
      obtain ⟨hqp, hold⟩ := (hslot ht).mp hsl
      simp only [Ghost.drop, Function.update_of_ne hqp]
      exact h.bit hold hoff hbit
    · intro q n
      simp only [hslot ht]
      by_cases hqp : q = p
      · subst hqp
        simp [Ghost.drop]
      · simp [Ghost.drop, hqp, h.owned]
  have hcase {t : Swap α} (htp : t.pagers = s.pagers) (htm : t.swapmap = s.swapmap)
      (htd : t.disk = s.disk) (hti : Idle t) :
      ∃ s', (do
          let map ← freeBlocks swp.swBsize mem swp.swBlocks (swapPagerClean none t).2.swapmap
          .ok ({ (swapPagerClean none t).2 with swapmap := map }.setPager p none) :
            Except Fault (Swap α)) = .ok s' ∧
        Disjoint (Rlist.set s.swapmap) (g.owned p) ∧
        Rlist.set s'.swapmap = Rlist.set s.swapmap ∪ g.owned p ∧ Inv s' (g.drop p) ∧ Idle s' := by
    rw [clean_idle hti]
    simp only [htm, hok]
    exact ⟨_, rfl, hdisj, hset, hinv (by rw [← htp]; rfl) rfl htd, @idle_cleaned _ t⟩
  rw [swapPagerDealloc, hp]
  simp only
  split
  · exact hcase rfl rfl rfl hi
  · exact hcase rfl rfl rfl hi

/-! ## Runs -/

theorem Run.inv {s : Swap α} {g : Ghost α} (h : Run Kept s g) : Inv s g ∧ Idle s := by
  induction h with
  | boot map disk hmap =>
    refine ⟨⟨hmap, ?_, ?_, ?_, ?_, ?_, ?_, ?_, ?_⟩, by simp [Idle, SwapPager.boot]⟩ <;>
      simp [Slot, SwapPager.boot]
  | @step s s' g g' op _ hlegal hkept hstep ih =>
    obtain ⟨hinv, hidle⟩ := ih
    cases op with
    | alloc handle size mem =>
      cases hstep
      exact alloc_spec hinv hidle handle size hlegal
    | dealloc mem p =>
      obtain ⟨swp, hp⟩ := Option.ne_none_iff_exists'.mp hlegal
      obtain ⟨t, hok, -, -, hinv', hidle'⟩ := dealloc_spec hinv hidle hp (hkept swp hp)
      rw [SwapPager.step, hok] at hstep
      cases hstep
      exact ⟨hinv', hidle'⟩
    | put p m sync =>
      cases hstep
      exact put_spec hinv hidle hkept
    | get p m =>
      have hget : (swapPagerGetpage p m s).2.2 = cleaned s := by
        rw [getpage_idle hidle]
        repeat' split
        all_goals rfl
      cases hstep
      rw [hget]
      exact ⟨hinv.cleaned, idle_cleaned⟩

/-- In every run in which synchronous puts are of pages with their bit set, no swap block is
allocated at block 0 and `rlist_free` has the memory it needs: the pages read as they were put
last, each has disk blocks of its own, and a pager gives back what it took. -/
theorem swap_right {s : Swap α} {g : Ghost α} (h : Run Kept s g) : Right s g := by
  obtain ⟨hinv, hidle⟩ := h.inv
  refine ⟨?_, ?_, ?_, ?_⟩
  · intro p m x hx
    obtain ⟨hget, hhas⟩ := getpage_put hinv hidle hx
    exact ⟨⟨_, hget⟩, hhas⟩
  · intro p m hx
    exact getpage_never hinv hidle hx
  · intro p q m m' x y hx hy hne
    exact pages_apart hinv hx hy hne
  · intro p swp mem hp hsup
    obtain ⟨s', hok, hdisj, hset, -⟩ := dealloc_spec hinv hidle hp hsup
    exact ⟨s', hok, hdisj, hset⟩

/-! ## One page -/

def onePage : VmPage ℕ := ⟨0, 0, fun _ => 7, by decide, rfl⟩

/-- A pager for an object of one page, its page put. -/
def putOne (map : List Rlist) (sync : Bool) : Rv × Swap ℕ :=
  putDone 0 onePage sync (swapPagerAlloc none 4096 (some 0) (boot map fun _ => 0)).2

theorem Ghost.put_last {rv : Rv} (hrv : rv ≠ .fail) :
    (g.put p m rv s s').last p m.off = some m.data := by
  simp [Ghost.put, hrv]

theorem putOne_run {C : Swap ℕ → Op ℕ → Prop} {map : List Rlist} {sync : Bool}
    (hmap : Canonical map) (halloc : C (boot map fun _ => 0) (.alloc none 4096 (some 0)))
    (hput : C (swapPagerAlloc none 4096 (some 0) (boot map fun _ => 0)).2 (.put 0 onePage sync))
    (hok : (putOne map sync).1 ≠ .fail) :
    ∃ g, Run C (putOne map sync).2 g ∧ g.last 0 0 = some onePage.data := by
  have hrun := Run.step (.alloc none 4096 (some 0)) (.boot map (fun _ => 0) hmap)
    (fun _ _ => rfl) halloc rfl
  let g : Ghost ℕ := ⟨fun _ _ => none, fun _ => ∅⟩
  let s := (swapPagerAlloc none 4096 (some 0) (boot map fun _ => 0)).2
  refine ⟨g.put 0 onePage (putOne map sync).1 s (putOne map sync).2, ?_, Ghost.put_last hok⟩
  exact Run.step (.put 0 onePage sync) hrun (fun h => nomatch h) hput rfl

theorem canonical_single {x : Rlist} (hx : x.rlStart.toNat ≤ x.rlEnd.toNat)
    (hlt : x.rlEnd.toNat < 2 ^ 32 - 1) : Canonical [x] :=
  canonical_cons.mpr ⟨hx, hlt, by simp, apart_nil _, by simp [Bounded]⟩

/-- An asynchronous put, with block 0 not free. -/
theorem swap_right_onePage : ∃ g, Run Kept (putOne [⟨1, 100⟩] false).2 g ∧
    g.last 0 0 = some onePage.data ∧ Right (putOne [⟨1, 100⟩] false).2 g := by
  have hkept : Kept (swapPagerAlloc none 4096 (some 0) (boot [⟨1, 100⟩] fun _ => 0)).2
      (.put 0 onePage false) := by
    intro swp swb _ _
    refine ⟨(fun h => nomatch h), fun _ hsub => ?_⟩
    have h0 : 0 ∈ Rlist.set [⟨1, 100⟩] := hsub (show 0 ∈ run 0 _ from ⟨le_rfl, Nat.zero_le _⟩)
    simp at h0
  obtain ⟨g, hrun, hlast⟩ := putOne_run (canonical_single (by decide) (by decide)) trivial hkept
    (by decide)
  exact ⟨g, hrun, hlast, swap_right hrun⟩

/-- A page put synchronously is not there. -/
theorem not_swap : ¬∀ (α : Type) (s : Swap α) (g : Ghost α), Run (fun _ _ => True) s g →
    Right s g := by
  intro h
  obtain ⟨g, hrun, hlast⟩ := @putOne_run (fun _ _ => True) [⟨1, 100⟩] true
    (canonical_single (by decide) (by decide)) trivial trivial (by decide)
  obtain ⟨t, hget⟩ := ((h ℕ _ g hrun).1 0 onePage _ hlast).1
  have hfail : (swapPagerGetpage 0 onePage (putOne [⟨1, 100⟩] true).2).1 = .fail := by decide
  rw [hget] at hfail
  cases hfail

/-- Nor is a page put asynchronously, when its swap block begins at block 0. -/
theorem not_swap_block_zero : ∃ (s : Swap ℕ) (g : Ghost ℕ),
    Run (fun _ op => ∀ p m, op ≠ .put p m true) s g ∧ ¬Right s g := by
  obtain ⟨g, hrun, hlast⟩ := @putOne_run (fun _ op => ∀ p m, op ≠ .put p m true) [⟨0, 100⟩] false
    (canonical_single (by decide) (by decide)) (fun _ _ h => nomatch h)
    (fun _ _ h => by cases h) (by decide)
  refine ⟨_, g, hrun, fun hright => ?_⟩
  obtain ⟨t, hget⟩ := (hright.1 0 onePage _ hlast).1
  have hfail : (swapPagerGetpage 0 onePage (putOne [⟨0, 100⟩] false).2).1 = .fail := by decide
  rw [hget] at hfail
  cases hfail

end SwapPager
