import NetBsd.Bin.Sh.MemallocBlocks

/-!
# Runs of the shell's memory

Every call keeps the storage in order, as long as it is one that `memalloc.c` is fit for: a block
that grows must not move away from under a mark, and what is given back must be in the current
block. Neither is looked at by the code.

## Main definitions

* `Memalloc.Users.Intact`: items are disjoint, and their bytes are those written in them
* `Memalloc.Kept`: what a call does to a string that is being made, and to the blocks

## Main results

* `Memalloc.step_spec`: what one call preserves
* `Memalloc.calls_intact`: every call after a run of such calls returns, and leaves items and
  strings intact
* `Memalloc.mark_dangles`: a block that moves away from under a mark
* `Memalloc.stunalloc_overlaps`: an item that is given back when another block is current
-/

namespace Memalloc

variable {c c' : Users} {rest : List ℤ} {sp a : ℤ} {x : Item}

/-! ## Bytes -/

theorem length_bytesAt (mem : ℤ → Byte) (a : ℤ) (n : ℕ) : (bytesAt mem a n).length = n := by
  simp [bytesAt]

theorem bytesAt_congr {mem mem' : ℤ → Byte} {n : ℕ}
    (h : ∀ i : ℕ, i < n → mem' (a + i) = mem (a + i)) : bytesAt mem' a n = bytesAt mem a n := by
  unfold bytesAt
  exact List.map_congr_left fun i hi => h i (List.mem_range.1 hi)

theorem bcopy_of_mem {mem : ℤ → Byte} {src dst n i : ℤ} (h : 0 ≤ i) (h' : i < n) :
    bcopy mem src dst n (dst + i) = mem (src + i) := by
  unfold bcopy
  rw [if_pos ⟨by omega, by omega⟩, show dst + i - dst = i by omega]

theorem bcopy_of_not_mem {mem : ℤ → Byte} {src dst n : ℤ} (h : a < dst ∨ dst + n ≤ a) :
    bcopy mem src dst n a = mem a := if_neg (by omega)

/-- Memory that is not of an item may be written. -/
theorem Inv.mem (h : Inv c rest) (mem : ℤ → Byte)
    (hm : ∀ x ∈ c.items, ∀ a, x.Covers a → mem a = c.sh.mem a) :
    Inv { c with sh := { c.sh with mem := mem } } rest := by
  refine ⟨h.chain, h.fits, h.sorted, h.level, h.marked, fun x hx => ?_⟩
  refine (h.holds x hx).trans (bytesAt_congr fun i hi => ?_).symm
  apply hm x hx
  unfold Item.Covers Item.stop
  omega

/-- So may the current block, where no item is in it yet. -/
theorem Inv.mem_start (h : Inv c rest) (hstart : c.sh.stacknxt = space c.sh.stackp)
    (mem : ℤ → Byte)
    (hm : ∀ b, c.sh.blocks c.sh.stackp = some b → ∀ a,
      a < c.sh.stackp ∨ c.sh.stackp + header + b.room ≤ a → mem a = c.sh.mem a) :
    Inv { c with sh := { c.sh with mem := mem } } rest := by
  apply h.mem
  intro x hx a ha
  obtain ⟨b, hb, hlow, hhigh, hhere⟩ := h.inside hx ha
  obtain ⟨b', hb', -⟩ := h.fits.room
  have hne : x.home ≠ c.sh.stackp := by
    intro he
    have := hhere he
    rw [he] at hlow
    omega
  apply hm b' hb'
  unfold space at hlow hhigh
  rcases h.chain.apart _ _ _ _ hne hb hb' with hlt | hlt
  · left
    omega
  · right
    have : 0 < header := by decide
    omega

/-! ## Taking and giving back -/

theorem le_ALIGN (n : ℤ) : n ≤ ALIGN n := by
  unfold ALIGN
  omega

theorem dvd_ALIGN (n : ℤ) : 4 ∣ ALIGN n := ⟨(n + 3) / 4, Int.mul_comm _ _⟩

theorem ALIGN_le {n k : ℤ} (h : n ≤ k) (hk : 4 ∣ k) : ALIGN n ≤ k := by
  unfold ALIGN
  omega

theorem Inv.room (h : Inv c rest) : 0 ≤ c.sh.stacknleft ∧ 4 ∣ c.sh.stacknleft :=
  ⟨h.fits.left, h.fits.leftAlign⟩

/-- Of the free space, some is taken. -/
theorem Inv.add (h : Inv c rest) {n : ℤ} (hn : 0 ≤ n) (halign : 4 ∣ n)
    (hle : n ≤ c.sh.stacknleft) : Inv (c.add (c.sh.take n) c.sh.stacknxt n) rest := by
  have hstart : space c.sh.stackp ≤ c.sh.stacknxt := h.fits.start
  have hbase : 4 ∣ c.sh.stacknxt - space c.sh.stackp := h.fits.align
  have hleft : 4 ∣ c.sh.stacknleft := h.fits.leftAlign
  have hstop : ∀ bytes : List Byte, bytes.length = n.toNat →
      (c.sh.stacknxt + (bytes.length : ℤ)) = c.sh.stacknxt + n := by
    intro bytes hlen
    omega
  have hnew := length_bytesAt (c.sh.take n).mem c.sh.stacknxt n.toNat
  have hlimit : (c.sh.take n).setstackmark.limit = c.sh.setstackmark.limit := by
    simp only [Sh.take, Sh.setstackmark, StackMark.limit]
    omega
  refine ⟨h.chain, ⟨?_, ?_, ?_, ?_, ?_, ?_⟩, ?_, ?_, ?_, ?_⟩
  · exact Int.le_trans hstart (Int.le_add_of_nonneg_right hn)
  · show 4 ∣ c.sh.stacknxt + n - space c.sh.stackp
    omega
  · exact Int.sub_nonneg_of_le hle
  · exact Int.dvd_sub hleft halign
  · obtain ⟨b, hb, hend⟩ := h.fits.room
    refine ⟨b, hb, ?_⟩
    change (c.sh.take n).setstackmark.limit ≤ _
    rw [hlimit]
    exact hend
  · intro x hx
    rcases List.mem_cons.1 hx with rfl | hx
    · refine ⟨hstart, hbase, fun _ => Int.le_of_eq (hstop _ hnew), fun hmem => ?_, fun hnot => ?_⟩
      · exact absurd hmem (List.nodup_cons.1 h.chain.nodup).1
      · exact absurd List.mem_cons_self hnot
    · have hfit := h.fits.items x hx
      refine ⟨hfit.start, hfit.align, fun hhere => ?_, hfit.below, hfit.gone⟩
      exact Int.le_trans (hfit.here hhere) (Int.le_add_of_nonneg_right hn)
  · refine List.pairwise_cons.2 ⟨fun y hy hhome => ?_, h.sorted⟩
    exact (h.fits.items y hy).here hhome.symm
  · intro x hx
    rcases List.mem_cons.1 hx with rfl | hx
    · exact Nat.le_refl _
    · exact h.level x hx
  · change Marked _ _ _ _ (c.sh.take n).setstackmark.limit
    rw [hlimit]
    refine h.marked.like fun y hy hlevel => ?_
    rcases List.mem_cons.1 hy with rfl | hy
    · exact absurd hlevel (Nat.lt_irrefl _)
    · exact ⟨y, hy, Item.Like.refl y⟩
  · intro x hx
    rcases List.mem_cons.1 hx with rfl | hx
    · unfold Item.Holds
      rw [hnew]
      rfl
    · exact h.holds x hx

/-- The latest item is given back, where it was taken from the current block. -/
theorem Inv.release (h : Inv c rest) {items : List Item} (hitems : c.items = x :: items)
    (hhome : x.home = c.sh.stackp) :
    Inv { c with sh := c.sh.stunalloc x.addr, items := items } rest := by
  have hx : x ∈ c.items := hitems ▸ List.mem_cons_self
  have hsub : ∀ y ∈ items, y ∈ c.items := fun y hy => hitems ▸ List.mem_cons_of_mem _ hy
  have hfit := h.fits.items x hx
  have hstart : space c.sh.stackp ≤ x.addr := hhome ▸ hfit.start
  have halign : 4 ∣ x.addr - space c.sh.stackp := hhome ▸ hfit.align
  have hbase : 4 ∣ c.sh.stacknxt - space c.sh.stackp := h.fits.align
  obtain ⟨hleft, hleft'⟩ := h.room
  have hstop : x.addr ≤ c.sh.stacknxt := by
    have hhere : x.stop ≤ c.sh.stacknxt := hfit.here hhome
    unfold Item.stop at hhere
    omega
  have hsorted := h.sorted
  rw [hitems] at hsorted
  obtain ⟨hbelow, hsorted'⟩ := List.pairwise_cons.1 hsorted
  have hlimit : (c.sh.stunalloc x.addr).setstackmark.limit = c.sh.setstackmark.limit := by
    simp only [Sh.stunalloc, Sh.setstackmark, StackMark.limit]
    omega
  refine ⟨h.chain, ⟨hstart, halign, ?_, ?_, ?_, ?_⟩, hsorted', fun y hy => h.level y (hsub y hy),
    ?_, fun y hy => h.holds y (hsub y hy)⟩
  · show 0 ≤ c.sh.stacknleft + (c.sh.stacknxt - x.addr)
    omega
  · show 4 ∣ c.sh.stacknleft + (c.sh.stacknxt - x.addr)
    omega
  · obtain ⟨b, hb, hend⟩ := h.fits.room
    refine ⟨b, hb, ?_⟩
    change (c.sh.stunalloc x.addr).setstackmark.limit ≤ _
    rw [hlimit]
    exact hend
  · intro y hy
    have hfit' := h.fits.items y (hsub y hy)
    refine ⟨hfit'.start, hfit'.align, fun hhere => ?_, hfit'.below, hfit'.gone⟩
    exact hbelow y hy (hhome.trans hhere.symm)
  · change Marked _ _ _ _ (c.sh.stunalloc x.addr).setstackmark.limit
    rw [hlimit]
    exact h.marked.like fun y hy _ => ⟨y, hsub y hy, Item.Like.refl y⟩

/-! ## Another block -/

/-- No item is in the free space of a block that is new. -/
theorem Inv.newBlock (h : Inv c rest) {size : ℤ} (hsize : 0 ≤ size) (halign : 4 ∣ size)
    (hfresh : c.sh.Fresh none sp size) :
    Inv { c with sh := c.sh.newBlock sp size } (c.sh.stackp :: rest) := by
  have hfresh' : ∀ a b, c.sh.blocks a = some b →
      a + header + b.room ≤ sp ∨ sp + header + size ≤ a := fun a b => hfresh a b nofun
  have hnew := h.chain.not_mem_of_fresh hsize hfresh'
  have hold : ∀ a ∈ c.sh.stackp :: rest,
      Function.update c.sh.blocks sp (some ⟨c.sh.stackp, size⟩) a = c.sh.blocks a := by
    intro a ha
    have hne : a ≠ sp := fun he => hnew (he ▸ ha)
    exact Function.update_of_ne hne ..
  have hself : Function.update c.sh.blocks sp (some ⟨c.sh.stackp, size⟩) sp =
      some ⟨c.sh.stackp, size⟩ := Function.update_self ..
  refine ⟨h.chain.push hsize hfresh', ⟨Int.le_refl _, ?_, hsize, halign, ?_, ?_⟩, h.sorted,
    h.level, ?_, h.holds⟩
  · show 4 ∣ space sp - space sp
    rw [Int.sub_self]
    exact Int.dvd_zero 4
  · exact ⟨_, hself, Int.le_refl _⟩
  · intro x hx
    have hfit := h.fits.items x hx
    refine ⟨hfit.start, hfit.align, fun hhere => ?_, fun hmem => ?_, fun hnot => ?_⟩
    · -- an item of no bytes, whose block was where the new one is
      obtain ⟨hnil, haddr⟩ := hfit.gone (by
        rw [show x.home = sp from hhere]
        exact hnew)
      unfold Item.stop
      rw [hnil, haddr, show x.home = sp from hhere]
      exact Int.le_of_eq (Int.add_zero _)
    · have hblock : (c.sh.newBlock sp size).blocks x.home = c.sh.blocks x.home := hold _ hmem
      rw [hblock]
      rcases List.mem_cons.1 hmem with hhere | hbelow
      · obtain ⟨b, hb, hend⟩ := h.fits.room
        have hend' : c.sh.stacknxt + c.sh.stacknleft ≤ space c.sh.stackp + b.room := hend
        have hstop : x.stop ≤ c.sh.stacknxt := hfit.here hhere
        have hleft := h.room.1
        rw [hhere]
        exact ⟨b, hb, by omega⟩
      · exact hfit.below hbelow
    · exact hfit.gone fun hmem => hnot (List.mem_cons_of_mem _ hmem)
  · exact h.marked.above (fun _ _ _ hsuf => hsuf) hold

/-- The block that is current grows, and there is nothing in it. -/
theorem Inv.resize (h : Inv c rest) (hat : c.sh.AtStart)
    (hfresh : c.sh.Fresh (some c.sh.stackp) sp c.sh.newlen) (hsafe : c.GrowsSafely sp)
    {b : Block} (hb : c.sh.blocks c.sh.stackp = some b) :
    Inv { c with
          sh :=
          { c.sh with
            blocks := Function.update (Function.update c.sh.blocks c.sh.stackp none) sp
              (some ⟨b.prev, c.sh.newlen⟩)
            stackp := sp, stacknxt := space sp, stacknleft := c.sh.newlen } } rest := by
  obtain ⟨hstart, hbase⟩ := hat
  obtain ⟨hleft, halign⟩ := h.room
  have hnewlen : 0 ≤ c.sh.newlen ∧ 4 ∣ c.sh.newlen ∧ c.sh.stacknleft ≤ c.sh.newlen := by
    unfold Sh.newlen
    omega
  obtain ⟨a, l, rfl, k, hk, hprev⟩ := h.chain.below hbase
  obtain rfl : k = b := Option.some.inj (hk.symm.trans hb)
  have htail := h.chain.tail
  have hfresh' : ∀ a' b', Function.update c.sh.blocks c.sh.stackp none a' = some b' →
      a' + header + b'.room ≤ sp ∨ sp + header + c.sh.newlen ≤ a' := by
    intro a' b' hb'
    by_cases he : a' = c.sh.stackp
    · rw [he, Function.update_self] at hb'
      nomatch hb'
    · rw [Function.update_of_ne he] at hb'
      exact hfresh a' b' (fun hs => he (Option.some.inj hs)) hb'
  have hnew := htail.not_mem_of_fresh hnewlen.1 hfresh'
  have hchain := htail.push hnewlen.1 hfresh'
  rw [← hprev] at hchain hnew ⊢
  have hnot : c.sh.stackp ∉ k.prev :: l := by
    rw [hprev]
    exact (List.nodup_cons.1 h.chain.nodup).1
  have hold : ∀ a ∈ k.prev :: l, Function.update (Function.update c.sh.blocks c.sh.stackp none) sp
      (some ⟨k.prev, c.sh.newlen⟩) a = c.sh.blocks a := by
    intro a ha
    have hne : a ≠ sp := fun he => hnew (he ▸ ha)
    have hne' : a ≠ c.sh.stackp := fun he => hnot (he ▸ ha)
    rw [Function.update_of_ne hne, Function.update_of_ne hne']
  have hself : Function.update (Function.update c.sh.blocks c.sh.stackp none) sp
      (some ⟨k.prev, c.sh.newlen⟩) sp = some ⟨k.prev, c.sh.newlen⟩ := Function.update_self ..
  have hitems : ∀ x ∈ c.items, ItemFits c.sh.blocks c.sh.setstackmark (k.prev :: l) x := by
    rw [hprev]
    exact h.fits.items
  have hmarked : Marked c.sh.blocks c.items c.marks (c.sh.stackp :: k.prev :: l)
      c.sh.setstackmark.limit := by
    rw [hprev]
    exact h.marked
  -- the items of the block that may have moved have no bytes
  have hempty : ∀ x ∈ c.items, x.home ∉ k.prev :: l → x.data = [] ∧ x.addr = space x.home := by
    intro x hx hout
    have hfit := hitems x hx
    by_cases hhere : x.home = c.sh.stackp
    · have hstop : x.stop ≤ c.sh.stacknxt := hfit.here hhere
      have hlow := hfit.start
      rw [hstart, ← hhere] at hstop
      unfold Item.stop at hstop
      refine ⟨List.eq_nil_of_length_eq_zero ?_, ?_⟩ <;> omega
    · refine hfit.gone fun hmem => ?_
      rcases List.mem_cons.1 hmem with he | he
      · exact hhere he
      · exact hout he
  refine ⟨hchain, ⟨Int.le_refl _, ?_, hnewlen.1, hnewlen.2.1, ⟨_, hself, Int.le_refl _⟩, ?_⟩,
    h.sorted, h.level, ?_, h.holds⟩
  · show 4 ∣ space sp - space sp
    rw [Int.sub_self]
    exact Int.dvd_zero 4
  · intro x hx
    have hfit := hitems x hx
    refine ⟨hfit.start, hfit.align, fun hhere => ?_, fun hmem => ?_, fun hout => ?_⟩
    · obtain ⟨hnil, haddr⟩ := hempty x hx (by
        rw [show x.home = sp from hhere]
        exact hnew)
      unfold Item.stop
      rw [hnil, haddr, show x.home = sp from hhere]
      exact Int.le_of_eq (Int.add_zero _)
    · dsimp only
      rw [hold _ hmem]
      exact hfit.below hmem
    · exact hempty x hx fun hmem => hout (List.mem_cons_of_mem _ hmem)
  · rcases hsafe ⟨hstart, hbase⟩ with rfl | hclear
    · -- it has grown where it was
      refine hmarked.grow hold ⟨_, hself, Int.le_refl _⟩ ?_
      simp only [Sh.setstackmark, StackMark.limit]
      omega
    · -- no mark is in it
      refine hmarked.above (fun m hm rest' hsuf => ?_) hold
      rcases List.suffix_cons_iff.1 hsuf with heq | hsuf'
      · exact absurd (List.cons.inj heq).1 (hclear m hm)
      · exact hsuf'

/-- What a string that is being made has of a growth: more room, and its bytes. -/
def Sh.Grown (s t : Sh) : Prop :=
  s.stacknleft < t.stacknleft ∧ ∀ i, 0 ≤ i → i < s.stacknleft →
    t.mem (t.stacknxt + i) = s.mem (s.stacknxt + i)

/-- A growth that makes a new block, where other things are in the current one. -/
theorem growstackblock_new {s : Sh} (hat : ¬s.AtStart) (hleft : 0 ≤ s.stacknleft)
    (halign : 4 ∣ s.stacknleft) (sp : ℤ) : s.growstackblock sp =
    .ok { s.newBlock sp (max s.newlen MINSIZE) with
          mem := bcopy s.mem s.stacknxt (space sp) s.stacknleft } := by
  have hnewlen : ALIGN s.newlen = s.newlen := by
    refine Int.le_antisymm (ALIGN_le (Int.le_refl _) ?_) (le_ALIGN _)
    unfold Sh.newlen
    omega
  have hmore : s.stacknleft < s.newlen := by
    unfold Sh.newlen
    omega
  unfold Sh.growstackblock Sh.stalloc
  simp only [if_neg hat, hnewlen, if_pos hmore, Sh.take, Sh.newBlock, Int.sub_add_cancel]

/-- The free space grows, and its bytes go with it. -/
theorem Inv.grow (h : Inv c rest) (hat : c.sh.GrowsAt sp) (hsafe : c.GrowsSafely sp) :
    ∃ s rest', c.sh.growstackblock sp = .ok s ∧ Inv { c with sh := s } rest' ∧
      c.sh.Grown s := by
  obtain ⟨hleft, halign⟩ := h.room
  unfold Sh.GrowsAt at hat
  by_cases hstart : c.sh.AtStart
  · rw [if_pos hstart] at hat
    obtain ⟨b, hb, hend⟩ := h.fits.room
    have hb' : c.sh.blocks c.sh.stackp = some b := hb
    have hroom : c.sh.stacknxt + c.sh.stacknleft ≤ space c.sh.stackp + b.room := hend
    refine ⟨_, rest, ?_, (h.resize hstart hat hsafe hb').mem_start rfl
      (bcopy c.sh.mem c.sh.stackp sp (header + min b.room c.sh.newlen)) ?_, ?_, ?_⟩
    · unfold Sh.growstackblock
      rw [if_pos hstart, hb']
    · intro b' hself a ha
      have hroom' : b'.room = c.sh.newlen := by
        dsimp only at hself
        rw [Function.update_self] at hself
        obtain rfl := Option.some.inj hself
        rfl
      apply bcopy_of_not_mem
      dsimp only at ha
      omega
    · show c.sh.stacknleft < c.sh.newlen
      unfold Sh.newlen
      omega
    · intro i hi hlt
      have hlen : c.sh.stacknleft < c.sh.newlen := by
        unfold Sh.newlen
        omega
      have hnxt := hstart.1
      dsimp only
      rw [show space sp + i = sp + (header + i) by unfold space; omega,
        bcopy_of_mem (by unfold header; omega) (by omega), hnxt]
      unfold space
      rw [Int.add_assoc]
  · rw [if_neg hstart] at hat
    have hsize : 0 ≤ max c.sh.newlen MINSIZE ∧ 4 ∣ max c.sh.newlen MINSIZE ∧
        c.sh.stacknleft < max c.sh.newlen MINSIZE := by
      unfold Sh.newlen MINSIZE
      omega
    refine ⟨_, _, growstackblock_new hstart hleft halign sp,
      (h.newBlock hsize.1 hsize.2.1 hat).mem_start rfl
        (bcopy c.sh.mem c.sh.stacknxt (space sp) c.sh.stacknleft) ?_, hsize.2.2, ?_⟩
    · intro b hself a ha
      have hroom : b.room = max c.sh.newlen MINSIZE := by
        simp only [Sh.newBlock, Function.update_self] at hself
        obtain rfl := Option.some.inj hself
        rfl
      have ha' : a < sp ∨ sp + header + b.room ≤ a := ha
      apply bcopy_of_not_mem
      unfold space
      have : 0 < header := by decide
      omega
    · intro i hi hlt
      exact bcopy_of_mem hi hlt

/-! ## Marks -/

theorem Inv.mark (h : Inv c rest) :
    Inv { c with marks := ⟨c.sh.setstackmark, c.sh⟩ :: c.marks } rest := by
  refine ⟨h.chain, h.fits, h.sorted, fun x hx => Nat.le_succ_of_le (h.level x hx),
    ⟨rest, List.suffix_rfl, fun _ => Int.le_refl _, h.chain.live, ?_, h.marked⟩, h.holds⟩
  exact h.fits.like fun y hy => ⟨y, (List.mem_filter.1 hy).1, Item.Like.refl y⟩

/-- The blocks above a mark's are freed. -/
theorem popBlocks_spec (pre : List ℤ) {target : ℤ} (s : Sh)
    (h : Chain s.blocks (pre ++ target :: rest))
    (hs : (pre ++ target :: rest).head? = some s.stackp) :
    ∃ blocks, s.popBlocks target pre.length = .ok { s with blocks := blocks, stackp := target } ∧
      Chain blocks (target :: rest) ∧ ∀ a ∈ target :: rest, blocks a = s.blocks a := by
  induction pre generalizing s with
  | nil =>
    obtain rfl : target = s.stackp := Option.some.inj hs
    exact ⟨s.blocks, if_pos rfl, h, fun _ _ => rfl⟩
  | cons a pre ih =>
    obtain rfl : a = s.stackp := Option.some.inj hs
    have hne : s.stackp ≠ target := by
      intro he
      refine (List.nodup_cons.1 h.nodup).1 ?_
      rw [he]
      exact List.mem_append_right _ List.mem_cons_self
    obtain ⟨b, l, hbl⟩ : ∃ b l, pre ++ target :: rest = b :: l := by
      cases pre <;> exact ⟨_, _, rfl⟩
    rw [List.cons_append, hbl] at h
    obtain ⟨hbase, ⟨k, hk, hprev⟩, -⟩ := h.linked
    have htail := h.tail
    rw [← hbl] at htail
    obtain ⟨blocks, hpop, hchain, hsame⟩ :=
      ih { s with stackp := b, blocks := Function.update s.blocks s.stackp none } htail
        (by rw [hbl]; rfl)
    refine ⟨blocks, ?_, hchain, fun a' ha' => ?_⟩
    · rw [List.length_cons, Sh.popBlocks, if_neg hne]
      unfold Sh.prevOf
      simp only [hk, Fault.ok_bind]
      unfold Sh.ckfree
      rw [if_neg hbase]
      simp only [hk, hprev, Fault.ok_bind]
      exact hpop
    · rw [hsame a' ha']
      have hne' : a' ≠ s.stackp := by
        intro he
        refine (List.nodup_cons.1 h.nodup).1 ?_
        rw [← hbl, ← he]
        exact List.mem_append_right _ ha'
      exact Function.update_of_ne hne' ..

theorem popBlocks_here {target : ℤ} {s : Sh} (h : s.stackp = target) (n : ℕ) :
    s.popBlocks target n = .ok s := by
  cases n <;> exact if_pos h

/-- What there is after a return to a mark does not depend on the turns allowed. -/
theorem popBlocks_unique {target : ℤ} {n k : ℕ} {s s₁ s₂ : Sh}
    (h₁ : s.popBlocks target n = .ok s₁) (h₂ : s.popBlocks target k = .ok s₂) : s₁ = s₂ := by
  induction n generalizing k s with
  | zero =>
    by_cases he : s.stackp = target
    · rw [popBlocks_here he] at h₁ h₂
      exact Except.ok.inj (h₁.symm.trans h₂)
    · rw [Sh.popBlocks, if_neg he] at h₁
      nomatch h₁
  | succ n ih =>
    by_cases he : s.stackp = target
    · rw [popBlocks_here he] at h₁ h₂
      exact Except.ok.inj (h₁.symm.trans h₂)
    · cases k with
      | zero =>
        rw [Sh.popBlocks, if_neg he] at h₂
        nomatch h₂
      | succ k =>
        rw [Sh.popBlocks, if_neg he] at h₁ h₂
        obtain ⟨p, hp, h₁⟩ := Fault.bind_eq_ok.1 h₁
        obtain ⟨t, ht, h₁⟩ := Fault.bind_eq_ok.1 h₁
        rw [hp, Fault.ok_bind, ht, Fault.ok_bind] at h₂
        exact ih h₁ h₂

/-- A return to the latest mark: its blocks, and the items of its time. -/
theorem Inv.pop (h : Inv c rest) {m : Mark} {marks : List Mark} (hmarks : c.marks = m :: marks) :
    ∃ turns s rest', c.sh.popstackmark turns m.saved = .ok s ∧
      Inv { sh := s, items := c.items.filter (·.level ≤ marks.length), marks := marks } rest' ∧
      ∀ a, (s.blocks a).isSome ↔ (m.was.blocks a).isSome := by
  have hmarked := h.marked
  rw [hmarks] at hmarked
  obtain ⟨rest', ⟨pre, hpre⟩, -, hlive, hfits, hms⟩ := hmarked
  have hchain := h.chain
  rw [← hpre] at hchain
  obtain ⟨blocks, hpop, hchain', hsame⟩ := popBlocks_spec pre c.sh hchain (by rw [hpre]; rfl)
  refine ⟨pre.length,
    { c.sh with
      blocks := blocks, stackp := m.saved.stackp, stacknxt := m.saved.stacknxt,
      stacknleft := m.saved.stacknleft },
    rest', ?_, ⟨hchain', hfits.congr hsame, ?_, ?_, ?_, ?_⟩, ?_⟩
  · unfold Sh.popstackmark
    rw [hpop]
    rfl
  · exact h.sorted.sublist List.filter_sublist
  · intro x hx
    exact of_decide_eq_true (List.mem_filter.1 hx).2
  · refine (hms.congr hsame).like fun y hy _ => ?_
    exact ⟨y, (List.mem_filter.1 hy).1, Item.Like.refl y⟩
  · exact fun x hx => h.holds x (List.mem_filter.1 hx).1
  · exact fun a => (hchain'.live a).trans (hlive a).symm

/-! ## Writing -/

theorem Item.put_like (x : Item) (a : ℤ) (b : Byte) : (x.put a b).Like x := by
  unfold Item.put
  split
  · exact ⟨rfl, rfl, rfl, List.length_set ..⟩
  · exact Item.Like.refl x

/-- A byte is written to memory, and to the item that it is in. -/
theorem Item.Holds.put {mem : ℤ → Byte} (h : x.Holds mem) (a : ℤ) (b : Byte) :
    (x.put a b).Holds (Function.update mem a b) := by
  unfold Item.put
  by_cases hle : x.addr ≤ a
  · rw [if_pos hle]
    unfold Item.Holds at h ⊢
    dsimp only
    rw [List.length_set]
    apply List.ext_getElem
    · rw [List.length_set, length_bytesAt]
    · intro i hi hi'
      rw [List.length_set] at hi
      have hdata : x.data[i] = mem (x.addr + i) := by
        have hget := congrArg (·[i]?) h
        simpa [bytesAt, hi] using hget
      rw [List.getElem_set, hdata]
      simp only [bytesAt, List.getElem_map, List.getElem_range]
      by_cases he : a = x.addr + i
      · rw [if_pos (by omega), he, Function.update_self]
      · have hne : x.addr + (i : ℤ) ≠ a := Ne.symm he
        rw [if_neg (by omega), Function.update_of_ne hne]
  · rw [if_neg hle]
    refine h.trans (bytesAt_congr fun i _ => ?_).symm
    have hne : x.addr + (i : ℤ) ≠ a := by omega
    exact Function.update_of_ne hne ..

theorem Inv.write (h : Inv c rest) (a : ℤ) (b : Byte) :
    Inv { c with
          sh := { c.sh with mem := Function.update c.sh.mem a b }
          items := c.items.map (·.put a b) } rest := by
  have hlike : ∀ y ∈ c.items.map (·.put a b), ∃ x ∈ c.items, y.Like x := by
    intro y hy
    obtain ⟨x, hx, rfl⟩ := List.mem_map.1 hy
    exact ⟨x, hx, x.put_like a b⟩
  refine ⟨h.chain, h.fits.like hlike, ?_, fun y hy => ?_, h.marked.like fun y hy _ => hlike y hy,
    fun y hy => ?_⟩
  · refine List.pairwise_map.2 (h.sorted.imp fun {x y} hxy hhome => ?_)
    rw [(x.put_like a b).home, (y.put_like a b).home] at hhome
    rw [(y.put_like a b).stop, (x.put_like a b).addr]
    exact hxy hhome
  · obtain ⟨x, hx, hy'⟩ := hlike y hy
    rw [hy'.level]
    exact h.level x hx
  · obtain ⟨x, hx, rfl⟩ := List.mem_map.1 hy
    exact (h.holds x hx).put a b

/-! ## Calls -/

/-- The items are disjoint, and their bytes are those written in them. -/
def Users.Intact (c : Users) : Prop :=
  (c.items.Pairwise fun x y => ∀ a, ¬(x.Covers a ∧ y.Covers a)) ∧
    ∀ x ∈ c.items, x.Holds c.sh.mem

theorem Inv.intact (h : Inv c rest) : c.Intact := ⟨h.disjoint, h.holds⟩

/-- What a call does besides: a string that grows keeps its bytes, and a return to a mark frees
the blocks allocated since. -/
def Kept (c c' : Users) : Op → Prop
  | .growstackblock _ => c.sh.Grown c'.sh
  | .growstackstr sp => c.sh.Grown c'.sh ∧
      c.sh.growstackstr sp = .ok (c'.sh.stacknxt + c.sh.stacknleft, c'.sh)
  | .makestrspace sp => c.sh.Grown c'.sh ∧
      c.sh.makestrspace sp = .ok (c'.sh.stacknxt + (c.sh.stacknleft - c.sh.sstrnleft), c'.sh)
  | .popstackmark => ∀ m ∈ c.marks.head?, ∀ a,
      (c'.sh.blocks a).isSome ↔ (m.was.blocks a).isSome
  | _ => True

/-- One call. -/
theorem step_spec (h : Inv c rest) {op : Op} (hd : op.Disciplined c) (hs : op.Safe c) :
    ∃ turns c' rest', step turns op c = .ok c' ∧ Inv c' rest' ∧ Kept c c' op := by
  cases op with
  | stalloc nbytes sp =>
    obtain ⟨hn, hfresh⟩ := hd
    have hn' : 0 ≤ ALIGN nbytes := Int.le_trans hn (le_ALIGN nbytes)
    have hmax : 0 ≤ max (ALIGN nbytes) MINSIZE ∧ 4 ∣ max (ALIGN nbytes) MINSIZE := by
      have := dvd_ALIGN nbytes
      unfold MINSIZE
      omega
    by_cases hroom : c.sh.stacknleft < ALIGN nbytes
    · have hnew := (h.newBlock hmax.1 hmax.2 (hfresh hroom)).add hn' (dvd_ALIGN nbytes)
        (Int.le_max_left ..)
      refine ⟨0, _, _, ?_, hnew, trivial⟩
      simp only [step, Sh.stalloc, if_pos hroom]
      rfl
    · refine ⟨0, _, _, ?_, h.add hn' (dvd_ALIGN nbytes) (Int.not_lt.1 hroom), trivial⟩
      simp only [step, Sh.stalloc, if_neg hroom]
  | stunalloc =>
    obtain ⟨x, items, hitems⟩ := List.exists_cons_of_ne_nil hd
    have hhome : x.home = c.sh.stackp := hs x (by rw [hitems]; rfl)
    refine ⟨0, _, _, ?_, h.release hitems hhome, trivial⟩
    simp only [step, hitems]
  | setstackmark => exact ⟨0, _, _, rfl, h.mark, trivial⟩
  | popstackmark =>
    obtain ⟨m, marks, hmarks⟩ := List.exists_cons_of_ne_nil hd
    obtain ⟨turns, s, rest', hpop, hinv, hlive⟩ := h.pop hmarks
    refine ⟨turns, _, rest', ?_, hinv, ?_⟩
    · simp only [step, hmarks, hpop, Fault.ok_bind]
      rfl
    · intro m' hm'
      rw [hmarks] at hm'
      obtain rfl := Option.some.inj hm'
      exact hlive
  | growstackblock sp =>
    obtain ⟨s, rest', hgrow, hinv, hkept⟩ := h.grow hd hs
    refine ⟨0, _, rest', ?_, hinv, hkept⟩
    simp only [step, hgrow, Fault.ok_bind]
    rfl
  | grabstackblock len =>
    obtain ⟨hlen, hle⟩ := hd
    obtain ⟨-, halign⟩ := h.room
    exact ⟨0, _, _, rfl, h.add (Int.le_trans hlen (le_ALIGN len)) (dvd_ALIGN len)
      (ALIGN_le hle halign), trivial⟩
  | growstackstr sp =>
    obtain ⟨s, rest', hgrow, hinv, hkept⟩ := h.grow hd hs
    have hret : c.sh.growstackstr sp = .ok (s.stacknxt + c.sh.stacknleft,
        { s with sstrnleft := s.stacknleft - c.sh.stacknleft - 1 }) := by
      unfold Sh.growstackstr
      rw [hgrow]
      rfl
    refine ⟨0, { c with sh := { s with sstrnleft := s.stacknleft - c.sh.stacknleft - 1 } },
      rest', ?_, ?_, hkept, hret⟩
    · simp only [step, hret, Fault.ok_bind]
      rfl
    · exact ⟨hinv.chain, hinv.fits, hinv.sorted, hinv.level, hinv.marked, hinv.holds⟩
  | makestrspace sp =>
    obtain ⟨s, rest', hgrow, hinv, hkept⟩ := h.grow hd hs
    have hret : c.sh.makestrspace sp =
        .ok (s.stacknxt + (c.sh.stacknleft - c.sh.sstrnleft),
          { s with sstrnleft := s.stacknleft - (c.sh.stacknleft - c.sh.sstrnleft) }) := by
      unfold Sh.makestrspace
      rw [hgrow]
      rfl
    refine ⟨0, { c with sh := { s with
        sstrnleft := s.stacknleft - (c.sh.stacknleft - c.sh.sstrnleft) } }, rest', ?_, ?_, hkept,
      hret⟩
    · simp only [step, hret, Fault.ok_bind]
      rfl
    · exact ⟨hinv.chain, hinv.fits, hinv.sorted, hinv.level, hinv.marked, hinv.holds⟩
  | ungrabstackstr p =>
    obtain ⟨x, items, hitems, -, -⟩ := hd
    have hhome : x.home = c.sh.stackp := hs x (by rw [hitems]; rfl)
    have hinv := h.release hitems hhome
    refine ⟨0, { c with sh := c.sh.ungrabstackstr x.addr p, items := items }, rest, ?_, ?_,
      trivial⟩
    · simp only [step, hitems]
    · exact ⟨hinv.chain, hinv.fits, hinv.sorted, hinv.level, hinv.marked, hinv.holds⟩
  | adjust amount =>
    exact ⟨0, _, rest, rfl, ⟨h.chain, h.fits, h.sorted, h.level, h.marked, h.holds⟩, trivial⟩
  | write a b => exact ⟨0, _, rest, rfl, h.write a b, trivial⟩

/-- What a call does is independent of the turns allowed. -/
theorem step_unique {n k : ℕ} {op : Op} {c₁ c₂ : Users} (h₁ : step n op c = .ok c₁)
    (h₂ : step k op c = .ok c₂) : c₁ = c₂ := by
  cases op with
  | popstackmark =>
    unfold step at h₁ h₂
    cases hmarks : c.marks with
    | nil =>
      simp only [hmarks] at h₁
      nomatch h₁
    | cons m marks =>
      simp only [hmarks, Sh.popstackmark] at h₁ h₂
      obtain ⟨s₁, hp₁, he₁⟩ := Fault.bind_eq_ok.1 h₁
      obtain ⟨s₂, hp₂, he₂⟩ := Fault.bind_eq_ok.1 h₂
      obtain ⟨t₁, hq₁, hr₁⟩ := Fault.bind_eq_ok.1 hp₁
      obtain ⟨t₂, hq₂, hr₂⟩ := Fault.bind_eq_ok.1 hp₂
      obtain rfl := popBlocks_unique hq₁ hq₂
      obtain rfl := Except.ok.inj (hr₁.symm.trans hr₂)
      exact Except.ok.inj (he₁.symm.trans he₂)
  | _ => exact Except.ok.inj (h₁.symm.trans h₂)

theorem init_blocks {mem : ℤ → Byte} {b : Block} (h : (Users.init mem).sh.blocks a = some b) :
    a = stackbase ∧ b = ⟨0, MINSIZE⟩ := by
  have h' : (if a = stackbase then some (⟨0, MINSIZE⟩ : Block) else none) = some b := h
  split at h'
  · exact ⟨‹_›, (Option.some.inj h').symm⟩
  · nomatch h'

theorem inv_init (mem : ℤ → Byte) : Inv (Users.init mem) [] := by
  have hbase : (Users.init mem).sh.blocks stackbase = some ⟨0, MINSIZE⟩ := rfl
  refine ⟨⟨rfl, List.nodup_singleton _, fun a => ?_, fun a b hb => ?_, ?_⟩,
    ⟨Int.le_refl _, ?_, ?_, ?_, ⟨_, hbase, Int.le_refl _⟩, nofun⟩,
    List.Pairwise.nil, nofun, trivial, nofun⟩
  · rw [List.mem_singleton]
    show (if a = stackbase then some (⟨0, MINSIZE⟩ : Block) else none).isSome ↔ a = stackbase
    split <;> simp [*]
  · rw [(init_blocks hb).2]
    decide
  · intro a a' b b' hne hb hb'
    exact absurd ((init_blocks hb).1.trans (init_blocks hb').1.symm) hne
  · show 4 ∣ space stackbase - space stackbase
    decide
  · show 0 ≤ MINSIZE
    decide
  · show 4 ∣ MINSIZE
    decide

/-- Calls in the order of a stack, and such that `memalloc.c` is fit for them. -/
def Op.Good (c : Users) (op : Op) : Prop := op.Disciplined c ∧ op.Safe c

theorem Reached.inv (h : Reached Op.Good c) : ∃ rest, Inv c rest := by
  induction h with
  | init mem => exact ⟨[], inv_init mem⟩
  | step _ hp h' ih =>
    obtain ⟨rest, hinv⟩ := ih
    obtain ⟨turns, c', rest', hstep, hinv', -⟩ := step_spec hinv hp.1 hp.2
    rw [step_unique h' hstep]
    exact ⟨rest', hinv'⟩

/-- After any run of calls that `memalloc.c` is fit for, another one returns; then the items are
disjoint and have the bytes written in them, a string that has grown has kept its bytes, and a
return to a mark has freed the blocks allocated since, and no others. -/
theorem calls_intact (h : Reached Op.Good c) {op : Op} (hop : op.Good c) :
    (∃ turns c', step turns op c = .ok c') ∧
      ∀ turns c', step turns op c = .ok c' → c'.Intact ∧ Kept c c' op := by
  obtain ⟨rest, hinv⟩ := h.inv
  obtain ⟨turns, c', rest', hstep, hinv', hkept⟩ := step_spec hinv hop.1 hop.2
  refine ⟨⟨turns, c', hstep⟩, fun n c₁ h₁ => ?_⟩
  rw [step_unique h₁ hstep]
  exact ⟨hinv'.intact, hkept⟩

theorem init_fresh (mem : ℤ → Byte) (moved : Option ℤ) {size : ℤ} (h : 4604 ≤ sp) :
    (Users.init mem).sh.Fresh moved sp size := by
  intro a b _ hb
  obtain ⟨rfl, rfl⟩ := init_blocks hb
  left
  exact h

/-- The first growth of a string. -/
theorem calls_intact_grow : (∃ turns c',
    step turns (.growstackblock 8192) (Users.init fun _ => 0) = .ok c') ∧
      ∀ turns c', step turns (.growstackblock 8192) (Users.init fun _ => 0) = .ok c' →
        c'.Intact ∧ (Users.init fun _ => 0).sh.Grown c'.sh := by
  have hstart : ¬(Users.init fun _ => 0).sh.AtStart := fun h => h.2 rfl
  refine calls_intact (.init fun _ => 0) ⟨?_, fun h => absurd h hstart⟩
  show (Users.init fun _ => 0).sh.GrowsAt 8192
  unfold Sh.GrowsAt
  rw [if_neg hstart]
  exact init_fresh _ _ (by decide)

/-! ## A block that moves -/

theorem growsAt_of_start {s : Sh} (h : s.AtStart)
    (hfresh : s.Fresh (some s.stackp) sp s.newlen) : s.GrowsAt sp := by
  unfold Sh.GrowsAt
  rw [if_pos h]
  exact hfresh

/-- A mark is set at the start of a block, the block grows, and `realloc` moves it: the return to
the mark does not find its block, and runs past the end of the chain. -/
theorem mark_dangles : ¬∀ c, Reached (fun c op => op.Disciplined c) c →
    ∀ op : Op, op.Disciplined c → ∃ turns c', step turns op c = .ok c' := by
  intro h
  have hinit : Reached (fun c op => op.Disciplined c) (Users.init fun _ => 0) := .init _
  have htaken := @Reached.step _ 0 (.stalloc 600 8192) _ _ hinit
    ⟨by decide, fun _ => init_fresh _ _ (by decide)⟩ rfl
  have hback := @Reached.step _ 0 .stunalloc _ _ htaken (List.cons_ne_nil _ _) rfl
  have hmark := @Reached.step _ 0 .setstackmark _ _ hback trivial rfl
  have hgrown := @Reached.step _ 0 (.growstackblock 16384) _ _ hmark
    (growsAt_of_start ⟨rfl, by decide⟩ (by
      intro a b hne hb
      have hne' : a ≠ 8192 := fun he => hne (congrArg some he)
      have hb' : Function.update (Users.init fun _ => 0).sh.blocks 8192
        (some ⟨stackbase, 600⟩) a = some b := hb
      rw [Function.update_of_ne hne'] at hb'
      exact init_fresh _ none (by decide) a b nofun hb')) rfl
  obtain ⟨turns, c', hpop⟩ := h _ hgrown .popstackmark (List.cons_ne_nil _ _)
  match turns with
  | 0 => nomatch hpop
  | 1 => nomatch hpop
  | n + 2 => nomatch hpop

theorem Sh.Fresh.newBlock {s : Sh} {moved : Option ℤ} {m size room : ℤ} (h : s.Fresh moved m size)
    (hclear : sp + header + room ≤ m ∨ m + header + size ≤ sp) :
    (s.newBlock sp room).Fresh moved m size := by
  intro a b hne hb
  by_cases he : a = sp
  · subst he
    simp only [Sh.newBlock, Function.update_self] at hb
    obtain rfl := Option.some.inj hb
    exact hclear
  · simp only [Sh.newBlock, Function.update_of_ne he] at hb
    exact h a b hne hb

/-- Items are taken from three blocks, the second of them below the others in memory. When the
third and the second item have been given back, the free space seems to run from the second block
to the end of the third, and the first item is given out again. -/
theorem stunalloc_overlaps : ¬∀ c, Reached (fun c op => op.Disciplined c) c → c.Intact := by
  intro h
  have hinit : Reached (fun c op => op.Disciplined c) (Users.init fun _ => 0) := .init _
  have hfresh : ∀ m size : ℤ, 4604 ≤ m → (Users.init fun _ => 0).sh.Fresh none m size :=
    fun _ _ hm => init_fresh _ _ hm
  have hfirst := @Reached.step _ 0 (.stalloc 600 20000) _ _ hinit
    ⟨by decide, fun _ => hfresh _ _ (by decide)⟩ rfl
  have hsecond := @Reached.step _ 0 (.stalloc 600 8192) _ _ hfirst
    ⟨by decide, fun _ => Sh.Fresh.newBlock (s := (Users.init fun _ => 0).sh)
      (hfresh _ _ (by decide)) (by decide)⟩ rfl
  have hthird := @Reached.step _ 0 (.stalloc 600 40000) _ _ hsecond
    ⟨by decide, fun _ => Sh.Fresh.newBlock (s := (Users.init fun _ => 0).sh.newBlock 20000 600)
      (Sh.Fresh.newBlock (hfresh _ _ (by decide)) (by decide)) (by decide)⟩ rfl
  have hback := @Reached.step _ 0 .stunalloc _ _ hthird (List.cons_ne_nil _ _) rfl
  have hback' := @Reached.step _ 0 .stunalloc _ _ hback (List.cons_ne_nil _ _) rfl
  have hagain := @Reached.step _ 0 (.stalloc 20000 0) _ _ hback'
    ⟨by decide, fun hlt => absurd hlt (by decide)⟩ rfl
  -- the byte at 20004 is the first of the first item
  obtain ⟨hdisjoint, -⟩ := h _ hagain
  refine (List.pairwise_cons.1 hdisjoint).1 _ List.mem_cons_self 20004 ⟨⟨?_, ?_⟩, ⟨?_, ?_⟩⟩
  · show (8196 : ℤ) ≤ 20004
    decide
  · simp only [Item.stop, length_bytesAt]
    decide
  · show (20004 : ℤ) ≤ 20004
    decide
  · simp only [Item.stop, length_bytesAt]
    decide

end Memalloc
