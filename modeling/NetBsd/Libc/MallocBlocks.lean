import Mathlib
import NetBsd.Libc.Malloc

/-!
# The blocks of malloc

The size of a block by its bucket, on which `malloc`, `morecore` and `realloc` agree, and the
invariant of the heap: the live blocks and the blocks on the free lists lie apart, each list is
threaded through the headers of its blocks, and the headers of live blocks name their buckets.

## Main definitions

* `blockSize`: the bytes of a block, with its header
* `Inv`: the invariant, with the free lists as lists of addresses

## Main results

* `bucketFor_fits`: the bucket for a request has room for it
* `take_spec`, `free_spec`, `morecore_spec`: the parts of the routines keep the invariant
-/

namespace Malloc

open ByteMem Function

variable {pg : PageSize}

/-! ## Sizes -/

theorem two_pow_lt {a b : ℕ} : 2 ^ a < 2 ^ b ↔ a < b := Nat.pow_lt_pow_iff_right (by omega)

theorem two_pow_le {a b : ℕ} (h : a ≤ b) : 2 ^ a ≤ 2 ^ b := Nat.pow_le_pow_right (by omega) h

theorem size_le (pg : PageSize) : 16 ≤ pg.size ∧ pg.size ≤ 2 ^ 29 := by
  have h₁ := pg.lower
  have h₂ := pg.upper
  exact ⟨two_pow_le (a := 4) (by omega), two_pow_le (by omega)⟩

/-- The bytes of a block of the bucket, with its header. -/
def blockSize (pg : PageSize) (b : ℕ) : ℕ :=
  if b < pg.bucket then 2 ^ (b + 3) else 2 ^ (b + 3) + pg.size

theorem lt_size {b : ℕ} : 2 ^ (b + 3) < pg.size ↔ b < pg.bucket := by
  rw [PageSize.size, two_pow_lt]
  omega

theorem blockSize_ge (pg : PageSize) (b : ℕ) : 8 ≤ blockSize pg b := by
  have h : 2 ^ 3 ≤ 2 ^ (b + 3) := two_pow_le (by omega)
  unfold blockSize
  split_ifs <;> omega

theorem blockInt_eq {b : ℕ} (hb : b < 28) : blockInt b = (2 ^ (b + 3) : ℕ) := by
  have h : ∀ b < 28, blockInt b = (2 ^ (b + 3) : ℕ) := by decide
  exact h b hb

theorem blockInt_nonpos {b : ℕ} (hb : 28 ≤ b) : blockInt b ≤ 0 := by
  by_cases h : b = 28
  · subst h
    decide
  · have hz : (1#32 <<< (b + 3)) = 0#32 := by
      apply BitVec.shiftLeft_eq_zero
      omega
    unfold blockInt
    rw [hz]
    decide

theorem double_eq {b : ℕ} (hb : b < 28) : 2 ^ (b + 3) * 2 % 2 ^ 32 = 2 ^ (b + 1 + 3) := by
  rw [← Nat.pow_succ, Nat.mod_eq_of_lt (two_pow_lt.mpr (by omega))]

/-- The loop of the setup finds the bucket whose block size is a page. -/
theorem bucketLoop_eq {fuel b : ℕ} (hb : b ≤ pg.bucket) (hfuel : pg.bucket - b < fuel) :
    bucketLoop pg.size fuel (2 ^ (b + 3)) b = pg.bucket := by
  induction fuel generalizing b with
  | zero => omega
  | succ fuel ih =>
    have hup := pg.upper
    unfold bucketLoop
    split_ifs with hlt
    · have hlt' := lt_size.mp hlt
      rw [double_eq (by omega)]
      exact ih (by omega) (by omega)
    · have hge := mt lt_size.mpr hlt
      omega

/-- What the loop over the sizes finds. -/
theorem sizeLoop_some {nbytes fuel b b' : ℕ} {n : ℤ} (hb : b ≤ 28)
    (h : sizeLoop nbytes n fuel (2 ^ (b + 3)) b = some b') :
    b ≤ b' ∧ b' ≤ 28 ∧ (nbytes : ℤ) ≤ ((2 ^ (b' + 3) : ℕ) + n) % 2 ^ 32 := by
  induction fuel generalizing b with
  | zero => cases h
  | succ fuel ih =>
    unfold sizeLoop at h
    split_ifs at h with hgt hzero
    · have hlt : b < 28 := by
        by_contra hge
        obtain rfl : b = 28 := by omega
        exact hzero (by decide)
      rw [double_eq (by omega)] at h
      obtain ⟨h₁, h₂⟩ := ih (by omega) h
      exact ⟨by omega, h₂⟩
    · obtain rfl := Option.some.inj h
      exact ⟨Nat.le_refl b, hb, not_lt.mp hgt⟩

/-- The setup was completed, or the request is small enough not to need it. -/
def Ready (pg : PageSize) (pagesz pagebucket nbytes : ℕ) : Prop :=
  pagesz = 0 ∨ pagebucket = pg.bucket ∨ nbytes + overhead ≤ pagesz

/-- The block that a request gets has room for it. -/
theorem bucketFor_fits {pagebucket nbytes b : ℕ} (hready : Ready pg pg.size pagebucket nbytes)
    (h : bucketFor pg.size pagebucket nbytes = some b) :
    nbytes + overhead ≤ blockSize pg b ∧ b ≤ 28 := by
  have hsize := size_le pg
  unfold Ready overhead at hready
  unfold bucketFor overhead at h
  unfold overhead
  split_ifs at h with hsmall
  · obtain ⟨-, hb, hle⟩ := sizeLoop_some (b := 0) (by omega) h
    have hlt : 2 ^ (b + 3) < 2 ^ 32 := two_pow_lt.mpr (by omega)
    have hpos : 2 ^ 3 ≤ 2 ^ (b + 3) := two_pow_le (by omega)
    refine ⟨?_, hb⟩
    unfold blockSize
    split_ifs <;> omega
  · have hbucket : pagebucket = pg.bucket := by
      rcases hready with h₀ | h₁ | h₂
      · omega
      · exact h₁
      · omega
    subst hbucket
    have hup := pg.upper
    have hloop : sizeLoop nbytes ((pg.size : ℤ) - (4 : ℕ)) 32 (2 ^ (pg.bucket + 3)) pg.bucket =
        some b := h
    obtain ⟨hge, hb, hle⟩ := sizeLoop_some (by omega) hloop
    have hlt : 2 ^ (b + 3) ≤ 2 ^ 31 := two_pow_le (by omega)
    have hpos := Nat.two_pow_pos (b + 3)
    refine ⟨?_, hb⟩
    rw [blockSize, if_neg (by omega)]
    omega

/-! ## The invariant -/

/-- The header of a block. -/
def Block.op (x : Block) : ℕ := x.cp - overhead

/-- A block at `a` in the bucket `b`, live or free. -/
def Place (live : List Block) (F : ℕ → List ℕ) (a b : ℕ) : Prop :=
  (∃ x ∈ live, x.op = a ∧ x.bucket = b) ∨ a ∈ F b

/-- The blocks, with the free lists as `F`. -/
structure Inv (pg : PageSize) (h : Heap) (live : List Block) (F : ℕ → List ℕ) : Prop where
  page : h.pagesz = 0 ∧ live = [] ∨ h.pagesz = pg.size
  chain : ∀ b, h.mem.Chain (h.nextf b) (F b)
  place : ∀ {a b}, Place live F a b → 0 < a ∧ a + blockSize pg b ≤ h.brk ∧ b < 28
  apart : ∀ {a b a' b'}, Place live F a b → Place live F a' b' → a ≠ a' ∨ b ≠ b' →
    a + blockSize pg b ≤ a' ∨ a' + blockSize pg b' ≤ a
  nodup : ∀ b, (F b).Nodup
  nodupLive : (live.map Block.op).Nodup
  split : ∀ x ∈ live, x.op ∉ F x.bucket
  header : ∀ x ∈ live, h.mem x.op = magic ∧ h.mem (x.op + 1) = BitVec.ofNat 8 x.bucket
  room : ∀ x ∈ live, x.req + overhead ≤ blockSize pg x.bucket
  zero : ∀ a, h.brk ≤ a → h.mem a = 0
  brk : 0 < h.brk ∧ h.brk < 2 ^ 32

section Inv

variable {h : Heap} {live : List Block} {F : ℕ → List ℕ} {a b : ℕ}

theorem place_live {x : Block} (hx : x ∈ live) :
    Place live F x.op x.bucket :=
  .inl ⟨x, hx, rfl, rfl⟩

/-- Blocks that start at one address are in one bucket. -/
theorem Inv.bucket_eq (hi : Inv pg h live F) {b' : ℕ} (h₁ : Place live F a b)
    (h₂ : Place live F a b') : b = b' := by
  by_contra hne
  have hapart := hi.apart h₁ h₂ (.inr hne)
  have hb := blockSize_ge pg b
  have hb' := blockSize_ge pg b'
  omega

/-- A place is not both live and free. -/
theorem Inv.live_ne_free (hi : Inv pg h live F) {x : Block} (hx : x ∈ live) (ha : a ∈ F b) :
    x.op ≠ a := by
  rintro rfl
  have hbucket := hi.bucket_eq (place_live hx) (.inr ha)
  exact hi.split x hx (hbucket ▸ ha)

theorem Inv.op_cp (hi : Inv pg h live F) {x : Block} (hx : x ∈ live) :
    x.op + overhead = x.cp ∧ 0 < x.op := by
  have hpos := (hi.place (place_live hx)).1
  unfold Block.op overhead at *
  omega

theorem Inv.header_toNat (hi : Inv pg h live F) {x : Block} (hx : x ∈ live) :
    (h.mem (x.op + 1)).toNat = x.bucket := by
  rw [(hi.header x hx).2, BitVec.toNat_ofNat]
  have hb := (hi.place (place_live hx)).2.2
  omega

/-- Where free blocks, live headers and the memory above the break are as they were, another
memory will do. -/
theorem Inv.mem_congr (hi : Inv pg h live F) {m : ByteMem}
    (hfree : ∀ b, ∀ a ∈ F b, ∀ j, a ≤ j → j < a + 4 → m j = h.mem j)
    (hlive : ∀ x ∈ live, ∀ j, x.op ≤ j → j < x.op + 4 → m j = h.mem j)
    (hzero : ∀ j, h.brk ≤ j → m j = h.mem j) : Inv pg { h with mem := m } live F where
  page := hi.page
  chain b := (hi.chain b).congr (hfree b)
  place := hi.place
  apart := hi.apart
  nodup := hi.nodup
  nodupLive := hi.nodupLive
  split := hi.split
  header x hx := by
    obtain ⟨h₀, h₁⟩ := hi.header x hx
    have e₀ := hlive x hx x.op (by omega) (by omega)
    have e₁ := hlive x hx (x.op + 1) (by omega) (by omega)
    exact ⟨e₀.trans h₀, e₁.trans h₁⟩
  room := hi.room
  zero a ha := (hzero a ha).trans (hi.zero a ha)
  brk := hi.brk

/-! ## A block off a free list -/

/-- The first block of a list goes to the program, for a request that it has room for. -/
theorem take_spec (hi : Inv pg h live F) {l : List ℕ} {nbytes : ℕ} (hF : F b = a :: l)
    (hpage : h.pagesz = pg.size) (hn : nbytes + overhead ≤ blockSize pg b) :
    ∃ h', take h b = (some (a + overhead), h') ∧
      Inv pg h' (⟨a + overhead, b, nbytes⟩ :: live) (update F b l) ∧
      Block.at h' (a + overhead) nbytes = ⟨a + overhead, b, nbytes⟩ ∧ h'.brk = h.brk ∧
      ∀ j, ¬ (a ≤ j ∧ j < a + 4) → h'.mem j = h.mem j := by
  have hmem : a ∈ F b := hF ▸ List.mem_cons_self
  obtain ⟨hpos, hend, hb⟩ := hi.place (.inr hmem)
  have hge := blockSize_ge pg b
  have hchain := hi.chain b
  rw [hF] at hchain
  obtain ⟨hnext, -, htail⟩ := hchain
  have hnotl : a ∉ l := (List.nodup_cons.mp (hF ▸ hi.nodup b)).1
  have hop : Block.op ⟨a + overhead, b, nbytes⟩ = a := Nat.add_sub_cancel a overhead
  -- the blocks are the same, in use or not
  have hplace : ∀ a' b', Place (⟨a + overhead, b, nbytes⟩ :: live) (update F b l) a' b' →
      Place live F a' b' := by
    rintro a' b' (⟨x, hx, rfl, rfl⟩ | hfree)
    · obtain rfl | hx := List.mem_cons.mp hx
      · rw [hop]
        exact .inr hmem
      · exact .inl ⟨x, hx, rfl, rfl⟩
    · by_cases hbb : b' = b
      · subst hbb
        rw [update_self] at hfree
        exact .inr (hF ▸ List.mem_cons_of_mem a hfree)
      · rw [update_of_ne hbb] at hfree
        exact .inr hfree
  have hframe : ∀ j, ¬ (a ≤ j ∧ j < a + 4) →
      ((h.mem.put8 a magic).put8 (a + 1) (BitVec.ofNat 8 b)) j = h.mem j := by
    intro j hj
    rw [put8_of_ne (by omega), put8_of_ne (by omega)]
  have hcells : ∀ b', ∀ c ∈ update F b l b', ∀ j, c ≤ j → j < c + 4 → ¬ (a ≤ j ∧ j < a + 4) := by
    intro b' c hc j h₁ h₂ h₃
    have hplace' : Place live F c b' := hplace c b' (.inr hc)
    have hne : c ≠ a ∨ b' ≠ b := by
      by_cases hbb : b' = b
      · subst hbb
        rw [update_self] at hc
        exact .inl fun he => hnotl (he ▸ hc)
      · exact .inr hbb
    have hapart := hi.apart hplace' (.inr hmem) hne
    have hge' := blockSize_ge pg b'
    omega
  refine ⟨{ h with
    nextf := update h.nextf b (h.mem.getPtr a)
    mem := (h.mem.put8 a magic).put8 (a + 1) (BitVec.ofNat 8 b) }, ?_, ?_, ?_, rfl, hframe⟩
  · rw [take, hnext, if_neg (by omega)]
  · constructor
    · exact .inr hpage
    · intro b'
      by_cases hbb : b' = b
      · subst hbb
        simp only [update_self]
        apply htail.congr
        intro c hc j h₁ h₂
        exact hframe j (hcells b' c (by rwa [update_self]) j h₁ h₂)
      · simp only [update_of_ne hbb]
        apply (hi.chain b').congr
        intro c hc j h₁ h₂
        exact hframe j (hcells b' c (by rwa [update_of_ne hbb]) j h₁ h₂)
    · intro a' b' hp
      exact hi.place (hplace a' b' hp)
    · intro a₁ b₁ a₂ b₂ h₁ h₂ hne
      exact hi.apart (hplace _ _ h₁) (hplace _ _ h₂) hne
    · intro b'
      by_cases hbb : b' = b
      · subst hbb
        rw [update_self]
        exact (List.nodup_cons.mp (hF ▸ hi.nodup b')).2
      · rw [update_of_ne hbb]
        exact hi.nodup b'
    · rw [List.map_cons, List.nodup_cons, hop]
      refine ⟨?_, hi.nodupLive⟩
      intro hin
      obtain ⟨x, hx, hxa⟩ := List.mem_map.mp hin
      exact hi.live_ne_free hx hmem hxa
    · intro x hx
      obtain rfl | hx := List.mem_cons.mp hx
      · rw [hop, update_self]
        exact hnotl
      · intro hin
        by_cases hbb : x.bucket = b
        · rw [hbb, update_self] at hin
          exact hi.split x hx (by rw [hbb, hF]; exact List.mem_cons_of_mem a hin)
        · rw [update_of_ne hbb] at hin
          exact hi.split x hx hin
    · intro x hx
      obtain rfl | hx := List.mem_cons.mp hx
      · rw [hop]
        have hne : a ≠ a + 1 := by omega
        exact ⟨(put8_of_ne hne _).trans (put8_same _ _ _), put8_same _ _ _⟩
      · have hapart := hi.apart (place_live hx) (.inr hmem) (.inl (hi.live_ne_free hx hmem))
        have hge' := blockSize_ge pg x.bucket
        obtain ⟨h₀, h₁⟩ := hi.header x hx
        exact ⟨(hframe _ (by omega)).trans h₀, (hframe _ (by omega)).trans h₁⟩
    · intro x hx
      obtain rfl | hx := List.mem_cons.mp hx
      · exact hn
      · exact hi.room x hx
    · intro j hj
      have hj' : h.brk ≤ j := hj
      exact (hframe j (by omega)).trans (hi.zero j hj')
    · exact hi.brk
  · simp only [Block.at, Nat.add_sub_cancel]
    congr 1
    have hbyte : ((h.mem.put8 a magic).put8 (a + 1) (BitVec.ofNat 8 b)) (a + 1) =
        BitVec.ofNat 8 b := put8_same _ _ _
    rw [hbyte, BitVec.toNat_ofNat]
    omega

/-! ## A block back on its free list -/

/-- A live block goes to the front of the list of its bucket; only its header changes. -/
theorem free_spec (hi : Inv pg h live F) {x : Block} (hx : x ∈ live) :
    Inv pg (free h x.cp) (live.erase x) (update F x.bucket (x.op :: F x.bucket)) ∧
      (free h x.cp).brk = h.brk ∧ (free h x.cp).pagesz = h.pagesz ∧
      (free h x.cp).pagebucket = h.pagebucket ∧
      (free h x.cp).nextf = update h.nextf x.bucket x.op ∧
      ∀ j, ¬ (x.op ≤ j ∧ j < x.op + 4) → (free h x.cp).mem j = h.mem j := by
  have hpl : Place live F x.op x.bucket := place_live hx
  obtain ⟨hpos, hend, hb⟩ := hi.place hpl
  have hge := blockSize_ge pg x.bucket
  have hbrk := hi.brk
  have heq : free h x.cp = { h with
      mem := h.mem.putPtr x.op (h.nextf x.bucket)
      nextf := update h.nextf x.bucket x.op } := by
    have hmagic : ¬ h.mem (x.cp - overhead) ≠ magic := not_not.mpr (hi.header x hx).1
    have hidx : (h.mem (x.cp - overhead + 1)).toNat = x.bucket := hi.header_toNat hx
    simp only [free, if_neg hmagic, hidx]
    rfl
  have hframe : ∀ j, ¬ (x.op ≤ j ∧ j < x.op + 4) →
      h.mem.putPtr x.op (h.nextf x.bucket) j = h.mem j := by
    intro j hj
    exact putPtr_of_ne (by omega) _
  have hnodup : live.Nodup := .of_map _ hi.nodupLive
  have herase : ∀ y, y ∈ live.erase x → y ∈ live ∧ y ≠ x := by
    intro y hy
    exact ⟨List.mem_of_mem_erase hy, (hnodup.mem_erase_iff.mp hy).1⟩
  have hopne : ∀ y ∈ live.erase x, y.op ≠ x.op := by
    intro y hy he
    obtain ⟨hy', hne⟩ := herase y hy
    exact hne (List.inj_on_of_nodup_map hi.nodupLive hy' hx he)
  have hplace : ∀ a' b', Place (live.erase x) (update F x.bucket (x.op :: F x.bucket)) a' b' →
      Place live F a' b' := by
    rintro a' b' (⟨y, hy, rfl, rfl⟩ | hfree)
    · exact place_live (herase y hy).1
    · by_cases hbb : b' = x.bucket
      · subst hbb
        rw [update_self] at hfree
        obtain rfl | hfree := List.mem_cons.mp hfree
        · exact hpl
        · exact .inr hfree
      · rw [update_of_ne hbb] at hfree
        exact .inr hfree
  have hcells : ∀ b', ∀ c ∈ F b', x.op + 4 ≤ c ∨ c + 4 ≤ x.op := by
    intro b' c hc
    have hapart := hi.apart hpl (.inr hc) (.inl (hi.live_ne_free hx hc))
    have hge' := blockSize_ge pg b'
    omega
  have hnext : h.nextf x.bucket < 2 ^ 32 := by
    have hc := hi.chain x.bucket
    cases hF : F x.bucket with
    | nil =>
      rw [hF] at hc
      rw [hc]
      omega
    | cons c l =>
      rw [hF] at hc
      have hcp := (hi.place (.inr (hF ▸ List.mem_cons_self : c ∈ F x.bucket))).2.1
      rw [hc.1]
      omega
  rw [heq]
  refine ⟨?_, rfl, rfl, rfl, rfl, hframe⟩
  constructor
  · obtain ⟨h₀, h₁⟩ | h₀ := hi.page
    · rw [h₁] at hx
      cases hx
    · exact .inr h₀
  · intro b'
    by_cases hbb : b' = x.bucket
    · subst hbb
      simp only [update_self]
      exact (hi.chain x.bucket).push hnext (by omega) (hcells x.bucket)
    · simp only [update_of_ne hbb]
      apply (hi.chain b').congr
      intro c hc j h₁ h₂
      have hcx := hcells b' c hc
      exact hframe j (by omega)
  · intro a' b' hp
    exact hi.place (hplace a' b' hp)
  · intro a₁ b₁ a₂ b₂ h₁ h₂ hne
    exact hi.apart (hplace _ _ h₁) (hplace _ _ h₂) hne
  · intro b'
    by_cases hbb : b' = x.bucket
    · subst hbb
      rw [update_self]
      exact List.nodup_cons.mpr ⟨hi.split x hx, hi.nodup x.bucket⟩
    · rw [update_of_ne hbb]
      exact hi.nodup b'
  · exact hi.nodupLive.sublist (List.erase_sublist.map _)
  · intro y hy hin
    by_cases hbb : y.bucket = x.bucket
    · rw [hbb, update_self] at hin
      obtain he | hin := List.mem_cons.mp hin
      · exact hopne y hy he
      · exact hi.split y (herase y hy).1 (hbb ▸ hin)
    · rw [update_of_ne hbb] at hin
      exact hi.split y (herase y hy).1 hin
  · intro y hy
    have hapart := hi.apart (place_live (herase y hy).1) hpl (.inl (hopne y hy))
    have hge' := blockSize_ge pg y.bucket
    obtain ⟨h₀, h₁⟩ := hi.header y (herase y hy).1
    exact ⟨(hframe _ (by omega)).trans h₀, (hframe _ (by omega)).trans h₁⟩
  · intro y hy
    exact hi.room y (herase y hy).1
  · intro j hj
    have hj' : h.brk ≤ j := hj
    exact (hframe j (by omega)).trans (hi.zero j hj')
  · exact hi.brk

/-! ## New blocks -/

theorem linkBlocks_frame {sz n op j : ℕ} {m : ByteMem} (hsz : 4 ≤ sz)
    (hj : j < op ∨ op + sz * n ≤ j) : linkBlocks sz n op m j = m j := by
  induction n generalizing op m with
  | zero => rfl
  | succ n ih =>
    have hmul : sz * (n + 1) = sz * n + sz := Nat.mul_succ sz n
    rw [linkBlocks, ih (by omega), putPtr_of_ne (by omega)]

/-- Zeroed memory becomes a chain of blocks; the last header is zero already. -/
theorem linkBlocks_chain {sz n op : ℕ} {m : ByteMem} (hsz : 4 ≤ sz) (hpos : 0 < op)
    (htop : op + sz * n < 2 ^ 32) (hm : ∀ j, op ≤ j → m j = 0) :
    (linkBlocks sz n op m).Chain op (List.range' op (n + 1) sz) := by
  induction n generalizing op m with
  | zero =>
    refine ⟨rfl, by omega, ?_⟩
    exact getPtr_eq_zero fun j hj _ => hm j hj
  | succ n ih =>
    have hmul : sz * (n + 1) = sz * n + sz := Nat.mul_succ sz n
    rw [linkBlocks, List.range'_succ]
    refine ⟨rfl, by omega, ?_⟩
    have hnext : (linkBlocks sz n (op + sz) (m.putPtr op (op + sz))).getPtr op = op + sz := by
      rw [getPtr_congr (m := m.putPtr op (op + sz)), getPtr_putPtr m op (by omega)]
      intro j _ hj
      exact linkBlocks_frame hsz (by omega)
    rw [hnext]
    apply ih (by omega) (by omega)
    intro j hj
    rw [putPtr_of_ne (by omega)]
    exact hm j (by omega)

/-- `sbrk` will give the bucket memory. -/
def Supplied (h : Heap) (b : ℕ) (ok : Bool) : Prop :=
  b < 28 ∧ ok = true ∧ h.brk + morecoreAmt h.pagesz (2 ^ (b + 3)) < 2 ^ 32

/-- How many blocks there are in what `morecore` asks for. -/
theorem nblks_spec (pg : PageSize) (b : ℕ) :
    ∃ n, (if 2 ^ (b + 3) < pg.size then pg.size / 2 ^ (b + 3) else 1) = n + 1 ∧
      2 ^ (b + 3) * n + blockSize pg b = morecoreAmt pg.size (2 ^ (b + 3)) ∧
      (n = 0 ∨ blockSize pg b = 2 ^ (b + 3)) := by
  by_cases hlt : 2 ^ (b + 3) < pg.size
  · have hb := lt_size.mp hlt
    have hdiv : pg.size / 2 ^ (b + 3) = 2 ^ (pg.bucket - b) := by
      rw [PageSize.size, Nat.pow_div (by omega) (by omega)]
      congr 1
      omega
    have hmul : 2 ^ (b + 3) * 2 ^ (pg.bucket - b) = pg.size := by
      rw [← Nat.pow_add, PageSize.size]
      congr 1
      omega
    have hpos := Nat.two_pow_pos (pg.bucket - b)
    refine ⟨2 ^ (pg.bucket - b) - 1, ?_, ?_, .inr ?_⟩
    · rw [if_pos hlt, hdiv]
      omega
    · rw [blockSize, if_pos hb, morecoreAmt, if_pos hlt, ← Nat.mul_succ, Nat.succ_eq_add_one,
        Nat.sub_add_cancel hpos, hmul]
    · rw [blockSize, if_pos hb]
  · have hb := mt lt_size.mpr hlt
    refine ⟨0, ?_, ?_, .inl rfl⟩
    · rw [if_neg hlt]
    · rw [blockSize, if_neg hb, morecoreAmt, if_neg hlt, Nat.mul_zero, Nat.zero_add]

theorem morecore_fail {ok : Bool} (h : Heap) (hs : ¬ Supplied h b ok) : morecore h b ok = h := by
  unfold morecore
  by_cases hb : b < 28
  · rw [if_neg (by rw [blockInt_eq hb]; have := Nat.two_pow_pos (b + 3); omega)]
    have hnone : sbrk h (morecoreAmt h.pagesz (blockInt b).toNat) ok = none := by
      rw [sbrk, if_neg]
      rintro ⟨hok, hlt⟩
      rw [blockInt_eq hb, Int.toNat_natCast] at hlt
      exact hs ⟨hb, hok, hlt⟩
    simp only [hnone]
  · rw [if_pos (blockInt_nonpos (by omega))]

/-- New blocks for an empty list, from above the break. -/
theorem morecore_spec (hi : Inv pg h live F) {ok : Bool} (hF : F b = [])
    (hpage : h.pagesz = pg.size) (hs : Supplied h b ok) :
    ∃ l, l ≠ [] ∧ Inv pg (morecore h b ok) live (update F b l) ∧
      (morecore h b ok).pagesz = h.pagesz ∧ h.brk ≤ (morecore h b ok).brk ∧
      (∀ j, j < h.brk → (morecore h b ok).mem j = h.mem j) ∧ ∀ c ∈ l, h.brk ≤ c := by
  obtain ⟨hb, hok, hlt⟩ := hs
  obtain ⟨n, hn, hamt, hone⟩ := nblks_spec pg b
  obtain ⟨hpos, htop⟩ := hi.brk
  have hge := blockSize_ge pg b
  have hsz : 2 ^ 3 ≤ 2 ^ (b + 3) := two_pow_le (by omega)
  rw [hpage] at hlt
  generalize hszdef : 2 ^ (b + 3) = sz at *
  have hmore : morecore h b ok = { h with
      brk := h.brk + morecoreAmt pg.size sz
      nextf := update h.nextf b h.brk
      mem := linkBlocks sz n h.brk h.mem } := by
    have hint : (blockInt b).toNat = sz := by rw [blockInt_eq hb, hszdef, Int.toNat_natCast]
    have hnonpos : ¬ blockInt b ≤ 0 := by
      rw [blockInt_eq hb, hszdef]
      omega
    have hsbrk : sbrk h (morecoreAmt pg.size sz) ok =
        some (h.brk, { h with brk := h.brk + morecoreAmt pg.size sz }) := if_pos ⟨hok, hlt⟩
    unfold morecore
    rw [if_neg hnonpos]
    simp only [hint, hpage, hn, hsbrk, Nat.add_sub_cancel]
  have hmem : ∀ c ∈ List.range' h.brk (n + 1) sz, ∃ i, i ≤ n ∧ c = h.brk + sz * i := by
    intro c hc
    obtain ⟨i, hi, rfl⟩ := List.mem_range'.mp hc
    exact ⟨i, by omega, rfl⟩
  have hbound : ∀ i, i ≤ n → sz * i ≤ sz * n := fun i hi => Nat.mul_le_mul_left sz hi
  -- a place is an old one, or a new one above the break
  have hplace : ∀ {a' b'}, Place live (update F b (List.range' h.brk (n + 1) sz)) a' b' →
      Place live F a' b' ∨ (b' = b ∧ ∃ i, i ≤ n ∧ a' = h.brk + sz * i) := by
    rintro a' b' (⟨x, hx, rfl, rfl⟩ | hfree)
    · exact .inl (place_live hx)
    · by_cases hbb : b' = b
      · subst hbb
        rw [update_self] at hfree
        exact .inr ⟨rfl, hmem a' hfree⟩
      · rw [update_of_ne hbb] at hfree
        exact .inl (.inr hfree)
  have hframe : ∀ j, j < h.brk → linkBlocks sz n h.brk h.mem j = h.mem j :=
    fun j hj => linkBlocks_frame (by omega) (.inl hj)
  rw [hmore]
  refine ⟨List.range' h.brk (n + 1) sz, ?_, ?_, rfl, Nat.le_add_right _ _, hframe, ?_⟩
  · simp
  · constructor
    · exact .inr hpage
    · intro b'
      by_cases hbb : b' = b
      · subst hbb
        simp only [update_self]
        apply linkBlocks_chain (by omega) hpos (by omega)
        exact fun j hj => hi.zero j hj
      · simp only [update_of_ne hbb]
        apply (hi.chain b').congr
        intro c hc j h₁ h₂
        have hcp := (hi.place (.inr hc)).2.1
        have hge' := blockSize_ge pg b'
        exact hframe j (by omega)
    · intro a' b' hp
      obtain hp | ⟨rfl, i, hin, rfl⟩ := hplace hp
      · obtain ⟨h₁, h₂, h₃⟩ := hi.place hp
        exact ⟨h₁, Nat.le_add_right_of_le h₂, h₃⟩
      · have hle := hbound i hin
        refine ⟨by omega, ?_, hb⟩
        simp only
        omega
    · intro a₁ b₁ a₂ b₂ hp₁ hp₂ hne
      obtain ho₁ | ⟨rfl, i₁, hi₁, rfl⟩ := hplace hp₁
      · obtain ho₂ | ⟨rfl, i₂, hi₂, rfl⟩ := hplace hp₂
        · exact hi.apart ho₁ ho₂ hne
        · have hend := (hi.place ho₁).2.1
          omega
      · obtain ho₂ | ⟨rfl, i₂, hi₂, rfl⟩ := hplace hp₂
        · have hend := (hi.place ho₂).2.1
          omega
        · -- two new blocks
          have hii : i₁ ≠ i₂ := by
            rintro rfl
            simp at hne
          obtain rfl | hsize := hone
          · omega
          · rw [hsize]
            obtain hlt' | hlt' := Nat.lt_or_gt_of_ne hii
            · have hstep := Nat.mul_le_mul_left sz hlt'
              rw [Nat.succ_eq_add_one, Nat.mul_succ] at hstep
              omega
            · have hstep := Nat.mul_le_mul_left sz hlt'
              rw [Nat.succ_eq_add_one, Nat.mul_succ] at hstep
              omega
    · intro b'
      by_cases hbb : b' = b
      · subst hbb
        rw [update_self]
        exact List.nodup_range' sz (by omega)
      · rw [update_of_ne hbb]
        exact hi.nodup b'
    · exact hi.nodupLive
    · intro x hx hin
      have hend := (hi.place (place_live hx)).2.1
      have hge' := blockSize_ge pg x.bucket
      by_cases hbb : x.bucket = b
      · rw [hbb, update_self] at hin
        obtain ⟨i, -, hx'⟩ := hmem _ hin
        omega
      · rw [update_of_ne hbb] at hin
        exact hi.split x hx hin
    · intro x hx
      have hend := (hi.place (place_live hx)).2.1
      have hge' := blockSize_ge pg x.bucket
      obtain ⟨h₀, h₁⟩ := hi.header x hx
      exact ⟨(hframe _ (by omega)).trans h₀, (hframe _ (by omega)).trans h₁⟩
    · exact hi.room
    · intro j hj
      have hj' : h.brk + morecoreAmt pg.size sz ≤ j := hj
      exact (linkBlocks_frame (by omega) (.inr (by omega))).trans (hi.zero j (by omega))
    · exact ⟨by simp only; omega, hlt⟩
  · intro c hc
    obtain ⟨i, -, rfl⟩ := hmem c hc
    omega

end Inv

end Malloc
