import NetBsd.Bin.Sh.Memalloc

/-!
# Blocks, items and marks

What holds of the storage between calls. The blocks form a chain down to `stackbase`; items lie in
the blocks that they were taken from, below the free space; every mark is a position in a block of
the chain, from which the blocks and items of its time can be had back.

## Main definitions

* `Memalloc.Chain`: the blocks, one behind the other in memory
* `Memalloc.Fits`: items in the blocks below a position
* `Memalloc.Marked`: the marks, each in a block of the chain below the mark after it
* `Memalloc.Inv`: all of this, and the bytes of the items

## Main results

* `Memalloc.Chain.push`, `Memalloc.Chain.tail`: blocks come and go
* `Memalloc.Marked.above`, `Memalloc.Marked.grow`: the marks when the current block is another
  one, or is longer
* `Memalloc.Inv.disjoint`: items are disjoint
-/

namespace Memalloc

variable {blocks blocks' : ℤ → Option Block} {l rest : List ℤ} {items items' : List Item}
  {ms : List Mark} {f : StackMark} {x y : Item} {sp a : ℤ}

/-! ## The chain -/

/-- Every block has the next of the list as its `prev`, and the last is `stackbase`. -/
def Linked (blocks : ℤ → Option Block) : List ℤ → Prop
  | [] => False
  | [a] => a = stackbase
  | a :: b :: l => a ≠ stackbase ∧ (∃ k, blocks a = some k ∧ k.prev = b) ∧ Linked blocks (b :: l)

theorem Linked.congr (h : Linked blocks l) (he : ∀ a ∈ l, blocks' a = blocks a) :
    Linked blocks' l := by
  induction l with
  | nil => exact h
  | cons a l ih =>
    cases l with
    | nil => exact h
    | cons b l =>
      obtain ⟨hbase, hprev, htail⟩ := h
      refine ⟨hbase, ?_, ih htail fun a' ha' => he a' (List.mem_cons_of_mem _ ha')⟩
      rw [he a List.mem_cons_self]
      exact hprev

theorem Linked.base_mem (h : Linked blocks l) : stackbase ∈ l := by
  induction l with
  | nil => exact h.elim
  | cons a l ih =>
    cases l with
    | nil => exact List.mem_singleton.2 h.symm
    | cons b l => exact List.mem_cons_of_mem _ (ih h.2.2)

/-- The blocks: those of the chain and no others, one behind the other in memory. -/
structure Chain (blocks : ℤ → Option Block) (l : List ℤ) : Prop where
  linked : Linked blocks l
  nodup : l.Nodup
  live : ∀ a, (blocks a).isSome ↔ a ∈ l
  room : ∀ a b, blocks a = some b → 0 ≤ b.room
  apart : ∀ a a' b b', a ≠ a' → blocks a = some b → blocks a' = some b' →
    a + header + b.room ≤ a' ∨ a' + header + b'.room ≤ a

theorem Chain.not_mem_of_fresh (h : Chain blocks l) {size : ℤ} (hsize : 0 ≤ size)
    (hfresh : ∀ a b, blocks a = some b → a + header + b.room ≤ sp ∨ sp + header + size ≤ a) :
    sp ∉ l := by
  intro hmem
  obtain ⟨b, hb⟩ := Option.isSome_iff_exists.1 ((h.live sp).2 hmem)
  have hroom := h.room sp b hb
  rcases hfresh sp b hb with hlt | hlt <;> unfold header at hlt <;> omega

/-- A new block on top. -/
theorem Chain.push (h : Chain blocks (a :: rest)) {size : ℤ} (hsize : 0 ≤ size)
    (hfresh : ∀ a b, blocks a = some b → a + header + b.room ≤ sp ∨ sp + header + size ≤ a) :
    Chain (Function.update blocks sp (some ⟨a, size⟩)) (sp :: a :: rest) := by
  have hnew := h.not_mem_of_fresh hsize hfresh
  have hself : Function.update blocks sp (some ⟨a, size⟩) sp = some ⟨a, size⟩ :=
    Function.update_self ..
  have hother : ∀ {a'}, a' ≠ sp → Function.update blocks sp (some ⟨a, size⟩) a' = blocks a' :=
    fun hne => Function.update_of_ne hne ..
  have hold : ∀ a' ∈ a :: rest, a' ≠ sp := fun a' ha' he => hnew (he ▸ ha')
  refine ⟨⟨?_, ⟨_, hself, rfl⟩, ?_⟩, List.nodup_cons.2 ⟨hnew, h.nodup⟩, ?_, ?_, ?_⟩
  · exact fun he => hnew (he ▸ h.linked.base_mem)
  · exact h.linked.congr fun a' ha' => hother (hold a' ha')
  · intro a'
    by_cases he : a' = sp
    · subst he
      rw [hself]
      exact ⟨fun _ => List.mem_cons_self, fun _ => rfl⟩
    · rw [hother he, h.live a']
      exact ⟨List.mem_cons_of_mem _, fun hmem => List.mem_of_ne_of_mem he hmem⟩
  · intro a' b' hb'
    by_cases he : a' = sp
    · subst he
      rw [hself] at hb'
      obtain rfl := Option.some.inj hb'
      exact hsize
    · rw [hother he] at hb'
      exact h.room a' b' hb'
  · intro a₁ a₂ b₁ b₂ hne hb₁ hb₂
    by_cases he₁ : a₁ = sp
    · subst he₁
      rw [hself] at hb₁
      rw [hother (Ne.symm hne)] at hb₂
      obtain rfl := Option.some.inj hb₁
      exact (hfresh a₂ b₂ hb₂).symm
    · rw [hother he₁] at hb₁
      by_cases he₂ : a₂ = sp
      · subst he₂
        rw [hself] at hb₂
        obtain rfl := Option.some.inj hb₂
        exact hfresh a₁ b₁ hb₁
      · rw [hother he₂] at hb₂
        exact h.apart a₁ a₂ b₁ b₂ hne hb₁ hb₂

/-- The block on top is freed. -/
theorem Chain.tail (h : Chain blocks (sp :: a :: rest)) :
    Chain (Function.update blocks sp none) (a :: rest) := by
  have hnot : sp ∉ a :: rest := (List.nodup_cons.1 h.nodup).1
  have hsome : ∀ {a' b'}, Function.update blocks sp none a' = some b' →
      a' ≠ sp ∧ blocks a' = some b' := by
    intro a' b' hb'
    by_cases he : a' = sp
    · subst he
      rw [Function.update_self] at hb'
      nomatch hb'
    · rw [Function.update_of_ne he] at hb'
      exact ⟨he, hb'⟩
  refine ⟨?_, (List.nodup_cons.1 h.nodup).2, ?_, fun a' b' hb' => h.room a' b' (hsome hb').2,
    fun a₁ a₂ b₁ b₂ hne hb₁ hb₂ => h.apart a₁ a₂ b₁ b₂ hne (hsome hb₁).2 (hsome hb₂).2⟩
  · refine h.linked.2.2.congr fun a' ha' => ?_
    have hne : a' ≠ sp := fun he => hnot (he ▸ ha')
    exact Function.update_of_ne hne ..
  · intro a'
    by_cases he : a' = sp
    · subst he
      rw [Function.update_self]
      exact ⟨nofun, fun hmem => absurd hmem hnot⟩
    · rw [Function.update_of_ne he, h.live a']
      exact ⟨fun hmem => List.mem_of_ne_of_mem he hmem, List.mem_cons_of_mem _⟩

/-- A block that is not `stackbase` has one below it. -/
theorem Chain.below (h : Chain blocks (sp :: rest)) (hbase : sp ≠ stackbase) :
    ∃ a l, rest = a :: l ∧ ∃ k, blocks sp = some k ∧ k.prev = a := by
  cases rest with
  | nil => exact absurd h.linked hbase
  | cons a l => exact ⟨a, l, rfl, h.linked.2.1⟩

/-! ## Items below a position -/

/-- An item is in its block, and below the position if it is in the block of this; the only items
whose block is gone are those of no bytes. -/
structure ItemFits (blocks : ℤ → Option Block) (f : StackMark) (rest : List ℤ) (x : Item) :
    Prop where
  start : space x.home ≤ x.addr
  align : 4 ∣ x.addr - space x.home
  here : x.home = f.stackp → x.stop ≤ f.stacknxt
  below : x.home ∈ rest → ∃ b, blocks x.home = some b ∧ x.stop ≤ space x.home + b.room
  gone : x.home ∉ f.stackp :: rest → x.data = [] ∧ x.addr = space x.home

/-- Items below a position in a block, and the free space from there. -/
structure Fits (blocks : ℤ → Option Block) (items : List Item) (f : StackMark)
    (rest : List ℤ) : Prop where
  start : space f.stackp ≤ f.stacknxt
  align : 4 ∣ f.stacknxt - space f.stackp
  left : 0 ≤ f.stacknleft
  leftAlign : 4 ∣ f.stacknleft
  room : ∃ b, blocks f.stackp = some b ∧
    f.stacknxt + f.stacknleft ≤ space f.stackp + b.room
  items : ∀ x ∈ items, ItemFits blocks f rest x

/-- Items that differ in their bytes only. -/
structure Item.Like (y x : Item) : Prop where
  addr : y.addr = x.addr
  home : y.home = x.home
  level : y.level = x.level
  length : y.data.length = x.data.length

theorem Item.Like.refl (x : Item) : x.Like x := ⟨rfl, rfl, rfl, rfl⟩

theorem Item.Like.stop (h : y.Like x) : y.stop = x.stop := by
  unfold Item.stop
  rw [h.addr, h.length]

theorem ItemFits.like (h : ItemFits blocks f rest x) (hy : y.Like x) :
    ItemFits blocks f rest y := by
  refine ⟨?_, ?_, ?_, ?_, ?_⟩ <;> rw [hy.home]
  · rw [hy.addr]
    exact h.start
  · rw [hy.addr]
    exact h.align
  · rw [hy.stop]
    exact h.here
  · rw [hy.stop]
    exact h.below
  · intro hgone
    obtain ⟨hnil, haddr⟩ := h.gone hgone
    refine ⟨List.eq_nil_of_length_eq_zero ?_, hy.addr.trans haddr⟩
    rw [hy.length, hnil]
    rfl

theorem Fits.like (h : Fits blocks items f rest)
    (he : ∀ y ∈ items', ∃ x ∈ items, y.Like x) : Fits blocks items' f rest := by
  refine ⟨h.start, h.align, h.left, h.leftAlign, h.room, fun y hy => ?_⟩
  obtain ⟨x, hx, hlike⟩ := he y hy
  exact (h.items x hx).like hlike

theorem Fits.congr (h : Fits blocks items f rest)
    (he : ∀ a ∈ f.stackp :: rest, blocks' a = blocks a) : Fits blocks' items f rest := by
  refine ⟨h.start, h.align, h.left, h.leftAlign, ?_, fun x hx => ?_⟩
  · rw [he _ List.mem_cons_self]
    exact h.room
  · have hfit := h.items x hx
    refine ⟨hfit.start, hfit.align, hfit.here, fun hmem => ?_, hfit.gone⟩
    rw [he _ (List.mem_cons_of_mem _ hmem)]
    exact hfit.below hmem

/-- The block of the position gets another length, which still reaches to the end of its free
space. -/
theorem Fits.resize (h : Fits blocks items f rest)
    (he : ∀ a ∈ rest, blocks' a = blocks a)
    (hroom : ∃ b, blocks' f.stackp = some b ∧
      f.stacknxt + f.stacknleft ≤ space f.stackp + b.room) : Fits blocks' items f rest := by
  refine ⟨h.start, h.align, h.left, h.leftAlign, hroom, fun x hx => ?_⟩
  have hfit := h.items x hx
  refine ⟨hfit.start, hfit.align, hfit.here, fun hmem => ?_, hfit.gone⟩
  rw [he _ hmem]
  exact hfit.below hmem

/-! ## Marks -/

/-- The end of the free space. -/
def StackMark.limit (f : StackMark) : ℤ := f.stacknxt + f.stacknleft

/-- Each mark is in a block of the chain, with the items of its time below it; the blocks below
are those there were. In one block, the free space of a later mark ends no sooner. -/
def Marked (blocks : ℤ → Option Block) (items : List Item) :
    List Mark → List ℤ → ℤ → Prop
  | [], _, _ => True
  | m :: ms, chain, limit => ∃ rest, m.saved.stackp :: rest <:+ chain ∧
      (m.saved.stackp :: rest = chain → m.saved.limit ≤ limit) ∧
      (∀ a, (m.was.blocks a).isSome ↔ a ∈ m.saved.stackp :: rest) ∧
      Fits blocks (items.filter (·.level ≤ ms.length)) m.saved rest ∧
      Marked blocks items ms (m.saved.stackp :: rest) m.saved.limit

variable {chain chain' : List ℤ} {limit limit' : ℤ}

theorem Marked.congr (h : Marked blocks items ms chain limit)
    (he : ∀ a ∈ chain, blocks' a = blocks a) : Marked blocks' items ms chain limit := by
  induction ms generalizing chain limit with
  | nil => trivial
  | cons m ms ih =>
    obtain ⟨rest, hsuf, hlimit, hlive, hfits, hms⟩ := h
    have he' : ∀ a ∈ m.saved.stackp :: rest, blocks' a = blocks a :=
      fun a ha => he a (hsuf.subset ha)
    exact ⟨rest, hsuf, hlimit, hlive, hfits.congr he', ih hms he'⟩

/-- The items of the marks' time are the same, or fewer. -/
theorem Marked.like (h : Marked blocks items ms chain limit)
    (he : ∀ y ∈ items', y.level < ms.length → ∃ x ∈ items, y.Like x) :
    Marked blocks items' ms chain limit := by
  induction ms generalizing chain limit with
  | nil => trivial
  | cons m ms ih =>
    obtain ⟨rest, hsuf, hlimit, hlive, hfits, hms⟩ := h
    refine ⟨rest, hsuf, hlimit, hlive, hfits.like ?_, ih hms ?_⟩
    · intro y hy
      obtain ⟨hmem, hlevel⟩ := List.mem_filter.1 hy
      have hlevel' : y.level ≤ ms.length := of_decide_eq_true hlevel
      obtain ⟨x, hx, hlike⟩ := he y hmem (Nat.lt_succ_of_le hlevel')
      refine ⟨x, List.mem_filter.2 ⟨hx, ?_⟩, hlike⟩
      rw [← hlike.level]
      exact hlevel
    · intro y hy hlevel
      exact he y hy (Nat.lt_succ_of_lt hlevel)

/-- Another block is current now, above the blocks that marks are in. -/
theorem Marked.above (h : Marked blocks items ms chain limit)
    (hc : ∀ m ∈ ms, ∀ rest, m.saved.stackp :: rest <:+ chain → m.saved.stackp :: rest <:+ chain')
    (he : ∀ a ∈ chain', blocks' a = blocks a) : Marked blocks' items ms (sp :: chain') limit' := by
  cases ms with
  | nil => trivial
  | cons m ms =>
    obtain ⟨rest, hsuf, -, hlive, hfits, hms⟩ := h
    have hsuf' := hc m List.mem_cons_self rest hsuf
    have he' : ∀ a ∈ m.saved.stackp :: rest, blocks' a = blocks a :=
      fun a ha => he a (hsuf'.subset ha)
    refine ⟨rest, hsuf'.trans (List.suffix_cons _ _), fun heq => ?_, hlive, hfits.congr he',
      hms.congr he'⟩
    -- the mark's blocks are too few to be all of them
    have hlen := hsuf'.length_le
    rw [heq, List.length_cons] at hlen
    exact absurd hlen (Nat.not_succ_le_self _)

/-- The current block has grown where it is. -/
theorem Marked.grow (h : Marked blocks items ms (sp :: rest) limit)
    (he : ∀ a ∈ rest, blocks' a = blocks a)
    (hroom : ∃ b, blocks' sp = some b ∧ limit' ≤ space sp + b.room) (hle : limit ≤ limit') :
    Marked blocks' items ms (sp :: rest) limit' := by
  induction ms generalizing limit limit' with
  | nil => trivial
  | cons m ms ih =>
    obtain ⟨rest', hsuf, hlimit, hlive, hfits, hms⟩ := h
    rcases List.suffix_cons_iff.1 hsuf with heq | hsuf'
    · -- the mark is in the block that has grown
      obtain ⟨hsp, hrest⟩ := List.cons.inj heq
      subst hrest
      have hle' : m.saved.limit ≤ limit' := Int.le_trans (hlimit heq) hle
      obtain ⟨b, hb, hend⟩ := hroom
      refine ⟨rest', hsuf, fun _ => hle', hlive, hfits.resize he ⟨b, ?_, ?_⟩, ?_⟩
      · rw [hsp]
        exact hb
      · rw [hsp]
        exact Int.le_trans hle' hend
      · rw [hsp] at hms ⊢
        exact ih hms ⟨b, hb, Int.le_trans hle' hend⟩ (Int.le_refl _)
    · have he' : ∀ a ∈ m.saved.stackp :: rest', blocks' a = blocks a :=
        fun a ha => he a (hsuf'.subset ha)
      have hne : m.saved.stackp :: rest' ≠ sp :: rest := by
        intro heq
        have hlen := hsuf'.length_le
        rw [heq, List.length_cons] at hlen
        omega
      exact ⟨rest', hsuf, fun heq => absurd heq hne, hlive, hfits.congr he', hms.congr he'⟩

/-! ## The invariant -/

/-- The bytes of an item are in memory. -/
def Item.Holds (mem : ℤ → Byte) (x : Item) : Prop :=
  x.data = bytesAt mem x.addr x.data.length

/-- What holds between calls, with the blocks below the current one. -/
structure Inv (c : Users) (rest : List ℤ) : Prop where
  chain : Chain c.sh.blocks (c.sh.stackp :: rest)
  fits : Fits c.sh.blocks c.items c.sh.setstackmark rest
  sorted : c.items.Pairwise fun x y => x.home = y.home → y.stop ≤ x.addr
  level : ∀ x ∈ c.items, x.level ≤ c.marks.length
  marked : Marked c.sh.blocks c.items c.marks (c.sh.stackp :: rest) c.sh.setstackmark.limit
  holds : ∀ x ∈ c.items, x.Holds c.sh.mem

variable {c : Users}

/-- A byte of an item is in the space of its block. -/
theorem Inv.inside (h : Inv c rest) (hx : x ∈ c.items) (ha : x.Covers a) :
    ∃ b, c.sh.blocks x.home = some b ∧ space x.home ≤ a ∧ a < space x.home + b.room ∧
      (x.home = c.sh.stackp → a < c.sh.stacknxt) := by
  have hfit := h.fits.items x hx
  obtain ⟨hlow, hhigh⟩ := ha
  have hstart := hfit.start
  by_cases hhere : x.home = c.sh.stackp
  · obtain ⟨b, hb, hroom⟩ := h.fits.room
    have hroom' : c.sh.stacknxt + c.sh.stacknleft ≤ space c.sh.stackp + b.room := hroom
    have hstop : x.stop ≤ c.sh.stacknxt := hfit.here hhere
    have hleft : 0 ≤ c.sh.stacknleft := h.fits.left
    rw [hhere] at hstart ⊢
    exact ⟨b, hb, by omega, by omega, fun _ => by omega⟩
  · by_cases hbelow : x.home ∈ rest
    · obtain ⟨b, hb, hroom⟩ := hfit.below hbelow
      exact ⟨b, hb, by omega, by omega, fun he => absurd he hhere⟩
    · obtain ⟨hnil, -⟩ := hfit.gone (by
        intro hmem
        rcases List.mem_cons.1 hmem with he | he
        · exact hhere he
        · exact hbelow he)
      unfold Item.stop at hhigh
      rw [hnil, List.length_nil] at hhigh
      omega

/-- Items are disjoint. -/
theorem Inv.disjoint (h : Inv c rest) :
    c.items.Pairwise fun x y => ∀ a, ¬(x.Covers a ∧ y.Covers a) := by
  refine h.sorted.imp_of_mem ?_
  intro x y hx hy hsorted a ⟨hxa, hya⟩
  by_cases hhome : x.home = y.home
  · -- the later item is above the other
    have hle := hsorted hhome
    have := hxa.1
    have := hya.2
    omega
  · obtain ⟨b, hb, hlow, hhigh, -⟩ := h.inside hx hxa
    obtain ⟨b', hb', hlow', hhigh', -⟩ := h.inside hy hya
    unfold space at hlow hhigh hlow' hhigh'
    have hroom := h.chain.apart _ _ _ _ hhome hb hb'
    unfold header at *
    omega

end Memalloc
