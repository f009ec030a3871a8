import Mathlib
import NetBsd.Vm.Collapse

/-!
# What collapsing keeps

Every turn of the loop of `vm_object_collapse` takes an object and its backing object for one, in
the place of the object: what searching finds, the reference counts and the windows stay, and the
object's shadow is deeper than before.

## Main definitions

* `Merged s s' o b`: object `o` has taken in what it needs of its shadow `b`

## Main results

* `movePages_spec`, `allShadowed_spec`: the pages of the backing object
* `Merged.found`: what searching finds
* `collapse_reads`: `vm_object_collapse` returns, and objects read as before
* `not_collapse`: a window beyond the end of the shadow loses its pages
-/

namespace Collapse

variable {P : Type} {pagers : ℕ → BitVec 32 → Option P} {s s' : Vm P} {o b x y : ℕ}
  {off bo size : BitVec 32} {p : VmPage P} {memq pages : List (VmPage P)}

/-! ## Pages -/

theorem lookup_cons (p : VmPage P) (rest : List (VmPage P)) (off : BitVec 32) :
    vmPageLookup (p :: rest) off = if p.offset = off then some p else vmPageLookup rest off := by
  by_cases h : p.offset = off <;> simp [vmPageLookup, h]

theorem lookup_snoc (memq : List (VmPage P)) (p : VmPage P) (off : BitVec 32) :
    vmPageLookup (memq ++ [p]) off =
      (vmPageLookup memq off).or (if p.offset = off then some p else none) := by
  rw [vmPageLookup, List.find?_append]
  exact congrArg _ (lookup_cons p [] off)

theorem mem_of_lookup (h : vmPageLookup memq off = some p) : p ∈ memq := List.mem_of_find?_eq_some h

/-- A page of the backing object is in the window of the parent, where the parent has offset
`off`. -/
theorem window_iff (hw : bo.toNat + size.toNat ≤ 2 ^ 32) (hoff : off < size) {a : BitVec 32} :
    a = off + bo ↔ ¬(a < bo ∨ a - bo ≥ size) ∧ a - bo = off := by
  constructor
  · rintro rfl
    have hsub : off + bo - bo = off := BitVec.add_sub_cancel off bo
    refine ⟨?_, hsub⟩
    rw [hsub]
    rintro (h | h)
    · bv_omega
    · bv_omega
  · rintro ⟨-, rfl⟩
    exact (BitVec.sub_add_cancel a bo).symm

/-- The parent has its own pages, and behind them those of the backing object in its window. -/
theorem movePages_spec (hw : bo.toNat + size.toNat ≤ 2 ^ 32)
    (hmemq : ∀ p ∈ memq, p.fake = false) (hpages : ∀ p ∈ pages, p.fake = false) :
    ∃ memq', movePages bo size pages memq = .ok memq' ∧ (∀ p ∈ memq', p.fake = false) ∧
      ∀ off, off < size → (vmPageLookup memq' off).map VmPage.data =
        ((vmPageLookup memq off).or (vmPageLookup pages (off + bo))).map VmPage.data := by
  induction pages generalizing memq with
  | nil => exact ⟨memq, rfl, hmemq, fun off _ => by simp [vmPageLookup]⟩
  | cons p rest ih =>
    have hrest : ∀ q ∈ rest, q.fake = false := fun q hq => hpages q (List.mem_cons_of_mem _ hq)
    simp only [movePages]
    by_cases hout : p.offset < bo ∨ p.offset - bo ≥ size
    · rw [if_pos hout]
      obtain ⟨memq', hok, hreal, hlook⟩ := ih hmemq hrest
      refine ⟨memq', hok, hreal, fun off hoff => ?_⟩
      have hne : p.offset ≠ off + bo := fun h => ((window_iff hw hoff).mp h).1 hout
      rw [hlook off hoff, lookup_cons, if_neg hne]
    · rw [if_neg hout]
      cases hpp : vmPageLookup memq (p.offset - bo) with
      | some pp =>
        have hfake := hmemq pp (mem_of_lookup hpp)
        simp only [hfake, Bool.false_eq_true, if_false]
        obtain ⟨memq', hok, hreal, hlook⟩ := ih hmemq hrest
        refine ⟨memq', hok, hreal, fun off hoff => ?_⟩
        rw [hlook off hoff, lookup_cons]
        split
        next heq =>
          -- the parent's own page hides it
          rw [← ((window_iff hw hoff).mp heq).2, hpp]
          rfl
        next => rfl
      | none =>
        simp only
        have hmemq' : ∀ q ∈ memq ++ [{ p with offset := p.offset - bo }], q.fake = false := by
          intro q hq
          rcases List.mem_append.mp hq with hq | hq
          · exact hmemq q hq
          · obtain rfl := List.mem_singleton.mp hq
            exact hpages p List.mem_cons_self
        obtain ⟨memq', hok, hreal, hlook⟩ := ih hmemq' hrest
        refine ⟨memq', hok, hreal, fun off hoff => ?_⟩
        rw [hlook off hoff, lookup_snoc, lookup_cons]
        by_cases heq : p.offset = off + bo
        · have hnew := ((window_iff hw hoff).mp heq).2
          rw [if_pos hnew, if_pos heq, ← hnew, hpp]
          rfl
        · have hnew : p.offset - bo ≠ off := fun h => heq ((window_iff hw hoff).mpr ⟨hout, h⟩)
          rw [if_neg hnew, if_neg heq, Option.or_none]

/-- A page of the backing object that the parent can see has one of the parent's own before it. -/
theorem allShadowed_spec (hw : bo.toNat + size.toNat ≤ 2 ^ 32)
    (hmemq : ∀ p ∈ memq, p.fake = false) (hall : allShadowed bo size memq pages = true)
    (hoff : off < size) (hp : vmPageLookup pages (off + bo) = some p) :
    ∃ pp, vmPageLookup memq off = some pp := by
  induction pages with
  | nil => cases hp
  | cons q rest ih =>
    simp only [allShadowed] at hall
    split at hall
    next => cases hall
    next hkeep =>
      rw [lookup_cons] at hp
      split at hp
      next heq =>
        obtain ⟨hin, hnew⟩ := (window_iff hw hoff).mp heq
        rw [hnew] at hkeep hin
        cases hl : vmPageLookup memq off with
        | some pp => exact ⟨pp, rfl⟩
        | none =>
          exfalso
          apply hkeep
          rw [hl]
          refine ⟨?_, ?_, rfl⟩
          · have := fun h => hin (.inl h)
            bv_omega
          · exact BitVec.le_of_lt hoff
      next => exact ih hall hp

/-! ## Searching -/

theorem Found.unique {x : ℕ} {off : BitVec 32} {r r' : Option P} (h : Found pagers s x off r)
    (h' : Found pagers s x off r') : r = r' := by
  induction h with
  | here hp =>
    cases h' with
    | here hp' => exact hp.symm.trans hp'
    | shadow hn => rw [hp] at hn; cases hn
    | none hn => rw [hp] at hn; cases hn
  | shadow hn hs _ ih =>
    cases h' with
    | here hp => rw [hn] at hp; cases hp
    | shadow _ hs' hf =>
      obtain rfl := Option.some.inj (hs.symm.trans hs')
      exact ih hf
    | none _ hs' => rw [hs] at hs'; cases hs'
  | none hn hs =>
    cases h' with
    | here hp => rw [hn] at hp; cases hp
    | shadow _ hs' => rw [hs] at hs'; cases hs'
    | none => rfl

/-- A search ends. -/
theorem exists_found {depth : ℕ → ℕ} (hd : Deep depth s)
    (hs : ∀ x ∈ s.objectList, ∀ y, (s.object x).shadow = some y → y ∈ s.objectList)
    (hx : x ∈ s.objectList) (off : BitVec 32) : ∃ r, Found pagers s x off r := by
  induction hn : depth x using Nat.strong_induction_on generalizing x off with
  | _ n ih =>
    subst hn
    cases hhere : here pagers (s.object x) off with
    | some p => exact ⟨_, .here hhere⟩
    | none =>
      cases hsh : (s.object x).shadow with
      | none => exact ⟨_, .none hhere hsh⟩
      | some y =>
        obtain ⟨r, hr⟩ := ih _ (hd x hx y hsh) (hs x hx y hsh) _ rfl
        exact ⟨r, .shadow hhere hsh hr⟩

/-- Object `o` has taken in what it needs of its shadow `b`, and shadows what `b` does; the other
objects read and refer as before. -/
structure Merged (pagers : ℕ → BitVec 32 → Option P) (s s' : Vm P) (o b : ℕ) : Prop where
  mem : o ∈ s.objectList
  memBacking : b ∈ s.objectList
  backing : (s.object o).shadow = some b
  subset : s'.objectList ⊆ s.objectList
  keeps : ∀ {x}, x ∈ s.objectList → x ≠ b → x ∈ s'.objectList
  size : ∀ x, (s'.object x).size = (s.object x).size
  internal : ∀ x, (s'.object x).internal = (s.object x).internal
  others : ∀ {x}, x ≠ o → (s'.object x).shadow = (s.object x).shadow ∧
    (s'.object x).shadowOffset = (s.object x).shadowOffset ∧
      ∀ off, here pagers (s'.object x) off = here pagers (s.object x) off
  shadow : (s'.object o).shadow = (s.object b).shadow
  offset : (s'.object o).shadowOffset = (s.object o).shadowOffset + (s.object b).shadowOffset
  own : ∀ off, off < (s.object o).size → here pagers (s'.object o) off =
    (here pagers (s.object o) off).or
      (here pagers (s.object b) (off + (s.object o).shadowOffset))

/-- An offset inside an object is inside the shadow it is looked up in next. -/
theorem Windows.next (hw : Windows s) (hx : x ∈ s.objectList) (hs : (s.object x).shadow = some y)
    (hoff : (s.object x).internal = true → off < (s.object x).size)
    (hy : (s.object y).internal = true) :
    off + (s.object x).shadowOffset < (s.object y).size := by
  have hint : (s.object x).internal = true := by
    by_contra h
    rw [hw.bottom x hx (Bool.eq_false_of_not_eq_true h)] at hs
    cases hs
  have hlt := hoff hint
  have hin := hw.inside x hx y hs
  rw [if_pos hy] at hin
  bv_omega

/-- What searching finds is found in the merged graph. -/
theorem Merged.found (h : Merged pagers s s' o b) {depth : ℕ → ℕ} (hd : Deep depth s)
    (hw : Windows s)
    (hs' : ∀ x ∈ s'.objectList, ∀ y, (s'.object x).shadow = some y → y ∈ s'.objectList)
    {x : ℕ} {off : BitVec 32} {r : Option P} (hx : x ∈ s'.objectList)
    (hoff : (s.object x).internal = true → off < (s.object x).size)
    (hf : Found pagers s x off r) : Found pagers s' x off r := by
  induction hn : depth x using Nat.strong_induction_on generalizing x off r with
  | _ n ih =>
    subst hn
    have hxs := h.subset hx
    by_cases hxo : x = o
    · subst hxo
      have hint : (s.object x).internal = true := by
        by_contra hne
        have := hw.bottom x h.mem (Bool.eq_false_of_not_eq_true hne)
        rw [h.backing] at this
        cases this
      have hown := h.own off (hoff hint)
      cases hf with
      | here hp =>
        rw [hp, Option.some_or] at hown
        exact .here hown
      | none _ hsh =>
        rw [h.backing] at hsh
        cases hsh
      | shadow hn hsh hf =>
        -- the search goes on in the backing object, and then behind it
        obtain rfl := Option.some.inj (h.backing.symm.trans hsh)
        rw [hn, Option.none_or] at hown
        cases hf with
        | here hp => exact .here (hown.trans hp)
        | none hnb hshb => exact .none (hown.trans hnb) (h.shadow.trans hshb)
        | @shadow _ _ c _ hnb hshb hf =>
          have hsh' := h.shadow.trans hshb
          refine .shadow (hown.trans hnb) hsh' ?_
          rw [h.offset, ← BitVec.add_assoc]
          have hdeep := (hd b h.memBacking c hshb).trans (hd x hxs b hsh)
          have hin := hw.next hxs hsh hoff
          exact ih _ hdeep (hs' x hx c hsh') (hw.next h.memBacking hshb hin) hf rfl
    · obtain ⟨hshe, hoe, hhere⟩ := h.others hxo
      cases hf with
      | here hp => exact .here ((hhere off).trans hp)
      | none hn hsh => exact .none ((hhere off).trans hn) (hshe.trans hsh)
      | @shadow _ _ y _ hn hsh hf =>
        have hsh' := hshe.trans hsh
        refine .shadow ((hhere off).trans hn) hsh' ?_
        rw [hoe]
        exact ih _ (hd x hxs y hsh) (hs' x hx y hsh') (hw.next hxs hsh hoff) hf rfl

/-! ## One turn -/

section Turn

variable {ext : ℕ → ℕ} {depth : ℕ → ℕ}

/-- What is known when the loop has not returned. -/
structure Ripe (s : Vm P) (o b : ℕ) : Prop where
  mem : o ∈ s.objectList
  memBacking : b ∈ s.objectList
  shadow : (s.object o).shadow = some b
  pager : (s.object o).pager = none
  idle : (s.object o).pagingInProgress = 0
  backingIdle : (s.object b).pagingInProgress = 0
  internal : (s.object b).internal = true

/-- A turn goes on with `s'`. -/
structure Turn (pagers : ℕ → BitVec 32 → Option P) (ext depth : ℕ → ℕ) (o b : ℕ) (s s' : Vm P) :
    Prop where
  merged : Merged pagers s s' o b
  counted : Counted ext s'
  windows : Windows s'
  deep : Deep depth s'

theorem Ripe.window (h : Ripe s o b) (hw : Windows s) :
    (s.object o).shadowOffset.toNat + (s.object o).size.toNat ≤ (s.object b).size.toNat := by
  have hin := hw.inside o h.mem b h.shadow
  rwa [if_pos h.internal] at hin

/-- The window that the object then has of the next one. -/
theorem Ripe.next_window (h : Ripe s o b) (hw : Windows s) (hs : (s.object b).shadow = some y) :
    ((s.object o).shadowOffset + (s.object b).shadowOffset).toNat + (s.object o).size.toNat ≤
      if (s.object y).internal then (s.object y).size.toNat else 2 ^ 32 := by
  have hin := h.window hw
  have hin' := hw.inside b h.memBacking y hs
  have hle := Nat.mod_le ((s.object o).shadowOffset.toNat + (s.object b).shadowOffset.toNat) (2 ^ 32)
  rw [BitVec.toNat_add]
  omega

theorem shadowCopy_ok (hc : Counted ext s) (hx : x ∈ s.objectList) :
    ∃ z, shadowCopy s (s.object x).shadow = .ok z := by
  cases hs : (s.object x).shadow with
  | none => exact ⟨_, rfl⟩
  | some y => exact ⟨_, if_pos (hc.shadows x hx y hs)⟩

/-- An object with one reference, from its parent, has no other. -/
theorem Counted.only (hc : Counted ext s) (h : Ripe s o b) (hone : (s.object b).refCount = 1) :
    ext b = 0 ∧ ∀ x ∈ s.objectList, (s.object x).shadow = some b → x = o := by
  have hcount := hc.exact b h.memBacking
  have hmem : o ∈ shadowing s b := Finset.mem_filter.mpr ⟨h.mem, h.shadow⟩
  have hpos := Finset.card_pos.mpr ⟨o, hmem⟩
  have hcard : (shadowing s b).card = 1 := by omega
  refine ⟨by omega, fun x hx hs => ?_⟩
  obtain ⟨z, hz⟩ := Finset.card_eq_one.mp hcard
  have hx' : x ∈ shadowing s b := Finset.mem_filter.mpr ⟨hx, hs⟩
  rw [hz, Finset.mem_singleton] at hmem hx'
  rw [hx', hmem]

/-- The graph after a turn, from what the turn does to the objects: all but `o` keep their shadows,
and the counts follow. -/
theorem Ripe.graph (h : Ripe s o b) (hc : Counted ext s) (hd : Deep depth s)
    (hsub : s'.objectList ⊆ s.objectList)
    (hkeep : ∀ x ∈ s.objectList, x ∉ s'.objectList → ext x = 0 ∧
      ∀ z ∈ s'.objectList, (s'.object z).shadow ≠ some x)
    (ho : (s'.object o).shadow = (s.object b).shadow)
    (hothers : ∀ x, x ≠ o → (s'.object x).shadow = (s.object x).shadow)
    (hcount : ∀ x ∈ s'.objectList, (s'.object x).refCount =
      (s.object x).refCount + (shadowing s' x).card - (shadowing s x).card) :
    Counted ext s' ∧ Deep depth s' := by
  have hshadow : ∀ x ∈ s'.objectList, ∀ y, (s'.object x).shadow = some y →
      y ∈ s.objectList ∧ depth y < depth x := by
    intro x hx y hs
    by_cases hxo : x = o
    · subst hxo
      rw [ho] at hs
      exact ⟨hc.shadows b h.memBacking y hs,
        (hd b h.memBacking y hs).trans (hd x h.mem b h.shadow)⟩
    · rw [hothers x hxo] at hs
      exact ⟨hc.shadows x (hsub hx) y hs, hd x (hsub hx) y hs⟩
  have hdeep : Deep depth s' := fun x hx y hs => (hshadow x hx y hs).2
  refine ⟨⟨?_, ?_, ?_, ⟨depth, hdeep⟩⟩, hdeep⟩
  · intro x hx
    by_contra hgone
    exact hx (hkeep x (hc.referenced x hx) hgone).1
  · intro x hx y hs
    by_contra hgone
    exact (hkeep y (hshadow x hx y hs).1 hgone).2 x hx hs
  · intro x hx
    rw [hcount x hx, hc.exact x (hsub hx)]
    omega

theorem Ripe.windows (h : Ripe s o b) (hw : Windows s) (hsub : s'.objectList ⊆ s.objectList)
    (hsize : ∀ x, (s'.object x).size = (s.object x).size)
    (hint : ∀ x, (s'.object x).internal = (s.object x).internal)
    (hpip : ∀ x, (s'.object x).pagingInProgress = (s.object x).pagingInProgress)
    (ho : (s'.object o).shadow = (s.object b).shadow)
    (hoff : (s'.object o).shadowOffset = (s.object o).shadowOffset + (s.object b).shadowOffset)
    (hothers : ∀ x, x ≠ o → (s'.object x).shadow = (s.object x).shadow ∧
      (s'.object x).shadowOffset = (s.object x).shadowOffset ∧
        (s'.object x).memq = (s.object x).memq)
    (hreal : ∀ p ∈ (s'.object o).memq, p.fake = false) : Windows s' := by
  refine ⟨?_, ?_, ?_⟩
  · intro x hx y hs
    rw [hsize, hsize, hint]
    by_cases hxo : x = o
    · subst hxo
      rw [hoff]
      exact h.next_window hw (ho ▸ hs)
    · obtain ⟨hsh, hof, -⟩ := hothers x hxo
      rw [hof]
      exact hw.inside x (hsub hx) y (hsh ▸ hs)
  · intro x hx hi
    rw [hint] at hi
    have hnone := hw.bottom x (hsub hx) hi
    by_cases hxo : x = o
    · subst hxo
      rw [h.shadow] at hnone
      cases hnone
    · rw [(hothers x hxo).1, hnone]
  · intro x hx hi p hp
    by_cases hxo : x = o
    · subst hxo
      exact hreal p hp
    · rw [(hothers x hxo).2.2] at hp
      exact hw.real x (hsub hx) (hpip x ▸ hi) p hp

theorem mem_shadowing {z : ℕ} :
    z ∈ shadowing s x ↔ z ∈ s.objectList ∧ (s.object z).shadow = some x := Finset.mem_filter

theorem collapseInto_spec (hc : Counted ext s) (hw : Windows s) (hd : Deep depth s)
    (h : Ripe s o b) (hcopy : shadowCopy s (s.object b).shadow = .ok none)
    (hone : (s.object b).refCount = 1) :
    ∃ s', collapseInto o b s = .next s' ∧ Turn pagers ext depth o b s s' := by
  obtain ⟨hext, honly⟩ := hc.only h hone
  have hob : o ≠ b := by
    rintro rfl
    exact lt_irrefl _ (hd o h.mem o h.shadow)
  have hwin := (h.window hw).trans (s.object b).size.isLt.le
  obtain ⟨memq, hok, hreal, hlook⟩ := movePages_spec hwin (hw.real o h.mem h.idle)
    (hw.real b h.memBacking h.backingIdle)
  obtain ⟨s', hs', ho, hothers, hlist⟩ : ∃ s', collapseInto o b s = .next s' ∧
      s'.object o = { s.object o with
        memq := memq
        pager := (s.object b).pager
        pagingOffset := if (s.object b).pager.isSome then
          (s.object b).pagingOffset + (s.object o).shadowOffset else (s.object o).pagingOffset
        shadow := (s.object b).shadow
        shadowOffset := (s.object o).shadowOffset + (s.object b).shadowOffset } ∧
      (∀ x, x ≠ o → s'.object x = s.object x) ∧ s'.objectList = s.objectList.erase b := by
    unfold collapseInto
    simp only [hok, hcopy]
    exact ⟨_, rfl, s.set_self o _, fun x hx => s.set_of_ne _ hx, rfl⟩
  have hsub : s'.objectList ⊆ s.objectList := hlist ▸ Finset.erase_subset _ _
  have hne {x} (hx : x ∈ s'.objectList) : x ≠ b := by
    rw [hlist] at hx
    exact Finset.ne_of_mem_erase hx
  have hmem {x} (hx : x ∈ s.objectList) (hxb : x ≠ b) : x ∈ s'.objectList := by
    rw [hlist]
    exact Finset.mem_erase_of_ne_of_mem hxb hx
  have hfield {β : Type} (f : VmObject P → β) (hf : f (s'.object o) = f (s.object o)) (x : ℕ) :
      f (s'.object x) = f (s.object x) := by
    by_cases hxo : x = o
    · rw [hxo, hf]
    · rw [hothers x hxo]
  have hsize := hfield VmObject.size (by rw [ho])
  have hint := hfield VmObject.internal (by rw [ho])
  have hpip := hfield VmObject.pagingInProgress (by rw [ho])
  have hrefs := hfield VmObject.refCount (by rw [ho])
  have hshadow : (s'.object o).shadow = (s.object b).shadow := by rw [ho]
  have hoffset : (s'.object o).shadowOffset =
      (s.object o).shadowOffset + (s.object b).shadowOffset := by rw [ho]
  have hkeep : ∀ x ∈ s.objectList, x ∉ s'.objectList → ext x = 0 ∧
      ∀ z ∈ s'.objectList, (s'.object z).shadow ≠ some x := by
    intro x hx hgone
    obtain rfl : x = b := by
      by_contra hxb
      exact hgone (hmem hx hxb)
    refine ⟨hext, fun z hz hsz => ?_⟩
    by_cases hzo : z = o
    · rw [hzo, hshadow] at hsz
      exact lt_irrefl _ (hd x hx x hsz)
    · rw [hothers z hzo] at hsz
      exact hzo (honly z (hsub hz) hsz)
  have hcard : ∀ x ∈ s'.objectList, (shadowing s' x).card = (shadowing s x).card := by
    intro x hx
    have hox : (s.object o).shadow ≠ some x := by
      rw [h.shadow]
      exact fun heq => hne hx (Option.some.inj heq).symm
    by_cases hbx : (s.object b).shadow = some x
    · -- the reference moves from the backing object to its parent
      have hset : shadowing s' x = insert o ((shadowing s x).erase b) := by
        ext z
        simp only [mem_shadowing, Finset.mem_insert, Finset.mem_erase, hlist]
        by_cases hzo : z = o
        · simp [hzo, hob, h.mem, hshadow, hbx]
        · simp [hzo, hothers z hzo, and_assoc]
      have hnot : o ∉ (shadowing s x).erase b := by
        simp [mem_shadowing, hox]
      have hin : b ∈ shadowing s x := mem_shadowing.mpr ⟨h.memBacking, hbx⟩
      rw [hset, Finset.card_insert_of_notMem hnot, Finset.card_erase_add_one hin]
    · have hset : shadowing s' x = shadowing s x := by
        ext z
        simp only [mem_shadowing, hlist, Finset.mem_erase]
        by_cases hzo : z = o
        · simp [hzo, hshadow, hbx, hox]
        · rw [hothers z hzo]
          by_cases hzb : z = b
          · simp [hzb, hbx]
          · simp [hzb]
      rw [hset]
  have hgraph := h.graph hc hd hsub hkeep hshadow (fun x hx => by rw [hothers x hx])
    (fun x hx => by rw [hrefs, hcard x hx]; omega)
  refine ⟨s', hs', ⟨?_, hgraph.1, ?_, hgraph.2⟩⟩
  · refine ⟨h.mem, h.memBacking, h.shadow, hsub, hmem, hsize, hint, ?_, hshadow, hoffset, ?_⟩
    · intro x hx
      rw [hothers x hx]
      exact ⟨rfl, rfl, fun _ => rfl⟩
    · intro off hoff
      have hl := hlook off hoff
      rw [ho]
      simp only [here, h.pager, Option.bind_none]
      cases hpo : vmPageLookup (s.object o).memq off with
      | some q =>
        rw [hpo, Option.some_or, Option.map_some] at hl
        obtain ⟨q', hq', hdata⟩ := Option.map_eq_some_iff.mp hl
        simp [hq', hdata]
      | none =>
        rw [hpo, Option.none_or] at hl
        cases hpb : vmPageLookup (s.object b).memq (off + (s.object o).shadowOffset) with
        | some q =>
          rw [hpb, Option.map_some] at hl
          obtain ⟨q', hq', hdata⟩ := Option.map_eq_some_iff.mp hl
          simp [hq', hdata]
        | none =>
          rw [hpb, Option.map_none, Option.map_eq_none_iff] at hl
          simp only [hl, Option.none_or]
          cases (s.object b).pager with
          | none => rfl
          | some g =>
            simp only [Option.bind_some, Option.isSome_some, if_true]
            rw [BitVec.add_assoc, BitVec.add_comm (s.object o).shadowOffset]
  · exact h.windows hw hsub hsize hint hpip hshadow hoffset
      (fun x hx => by rw [hothers x hx]; exact ⟨rfl, rfl, rfl⟩) (by rw [ho]; exact hreal)

theorem vmObjectReference_object (s : Vm P) (c : Option ℕ) (x : ℕ) :
    (vmObjectReference s c).object x =
      if c = some x then { s.object x with refCount := (s.object x).refCount + 1 }
      else s.object x := by
  cases c with
  | none => rfl
  | some c =>
    by_cases hx : x = c
    · simp [vmObjectReference, hx]
    · simp [vmObjectReference, s.set_of_ne _ hx, Ne.symm hx]

theorem bypass_spec (hc : Counted ext s) (hw : Windows s) (hd : Deep depth s)
    (h : Ripe s o b) :
    bypass o b s = .ret s ∨ ∃ s', bypass o b s = .next s' ∧ Turn pagers ext depth o b s s' := by
  by_cases hpager : (s.object b).pager.isSome
  · left
    simp only [bypass, if_pos hpager]
  by_cases hall : allShadowed (s.object o).shadowOffset (s.object o).size (s.object o).memq
      (s.object b).memq
  swap
  · left
    simp only [bypass, if_neg hpager, if_neg hall]
  right
  have hob : o ≠ b := by
    rintro rfl
    exact lt_irrefl _ (hd o h.mem o h.shadow)
  have hbb : (s.object b).shadow ≠ some b := fun hs => lt_irrefl _ (hd b h.memBacking b hs)
  have hbo : (s.object b).shadow ≠ some o := fun hs =>
    lt_irrefl _ ((hd b h.memBacking o hs).trans (hd o h.mem b h.shadow))
  obtain ⟨s', hs', ho, hb, hothers, hlist⟩ : ∃ s', bypass o b s = .next s' ∧
      s'.object o = { s.object o with
        shadow := (s.object b).shadow
        shadowOffset := (s.object o).shadowOffset + (s.object b).shadowOffset } ∧
      s'.object b = { s.object b with
        copy := if (s.object b).copy = some o then none else (s.object b).copy
        refCount := (s.object b).refCount - 1 } ∧
      (∀ x, x ≠ o → x ≠ b → s'.object x = if (s.object b).shadow = some x then
        { s.object x with refCount := (s.object x).refCount + 1 } else s.object x) ∧
      s'.objectList = s.objectList := by
    simp only [bypass, if_neg hpager, if_pos hall]
    refine ⟨_, rfl, ?_, ?_, ?_, ?_⟩
    · rw [Vm.set_of_ne _ _ hob, vmObjectReference_object, if_neg hbo, Vm.set_self]
    · rw [Vm.set_self, vmObjectReference_object, if_neg hbb, Vm.set_of_ne _ _ hob.symm]
    · intro x hxo hxb
      rw [Vm.set_of_ne _ _ hxb, vmObjectReference_object, Vm.set_of_ne _ _ hxo]
    · cases (s.object b).shadow <;> rfl
  have hfield {β : Type} (f : VmObject P → β)
      (hf : ∀ (obj : VmObject P) c r, f { obj with copy := c, refCount := r } = f obj) (x : ℕ)
      (hx : x ≠ o) : f (s'.object x) = f (s.object x) := by
    by_cases hxb : x = b
    · rw [hxb, hb, hf]
    · rw [hothers x hx hxb]
      split
      · exact hf (s.object x) (s.object x).copy _
      · rfl
  have hsame {β : Type} (f : VmObject P → β)
      (hf : ∀ (obj : VmObject P) c r, f { obj with copy := c, refCount := r } = f obj)
      (hfo : f (s'.object o) = f (s.object o)) (x : ℕ) : f (s'.object x) = f (s.object x) := by
    by_cases hxo : x = o
    · rw [hxo, hfo]
    · exact hfield f hf x hxo
  have hsize := hsame VmObject.size (fun _ _ _ => rfl) (by rw [ho])
  have hint := hsame VmObject.internal (fun _ _ _ => rfl) (by rw [ho])
  have hpip := hsame VmObject.pagingInProgress (fun _ _ _ => rfl) (by rw [ho])
  have hshadow : (s'.object o).shadow = (s.object b).shadow := by rw [ho]
  have hoffset : (s'.object o).shadowOffset =
      (s.object o).shadowOffset + (s.object b).shadowOffset := by rw [ho]
  have hsh := hfield VmObject.shadow fun _ _ _ => rfl
  have hmem {z x} : z ∈ shadowing s' x ↔ z ∈ s.objectList ∧ (s'.object z).shadow = some x := by
    rw [mem_shadowing, hlist]
  have hcount : ∀ x ∈ s'.objectList, (s'.object x).refCount =
      (s.object x).refCount + (shadowing s' x).card - (shadowing s x).card := by
    intro x _
    by_cases hxb : x = b
    · -- the backing object loses its parent
      subst hxb
      have hset : shadowing s' x = (shadowing s x).erase o := by
        ext z
        rw [hmem, Finset.mem_erase, mem_shadowing]
        by_cases hzo : z = o
        · simp [hzo, hshadow, hbb]
        · simp [hzo, hsh z hzo]
      have hin : o ∈ shadowing s x := mem_shadowing.mpr ⟨h.mem, h.shadow⟩
      have := Finset.card_erase_add_one hin
      rw [hb, hset]
      dsimp only
      omega
    · have hox : (s.object o).shadow ≠ some x := by
        rw [h.shadow]
        exact fun heq => hxb (Option.some.inj heq).symm
      by_cases hbx : (s.object b).shadow = some x
      · -- and the next object gains it
        have hset : shadowing s' x = insert o (shadowing s x) := by
          ext z
          rw [hmem, Finset.mem_insert, mem_shadowing]
          by_cases hzo : z = o
          · simp [hzo, hshadow, hbx, h.mem]
          · simp [hzo, hsh z hzo]
        have hnot : o ∉ shadowing s x := by simp [mem_shadowing, hox]
        have hxo : x ≠ o := by
          rintro rfl
          exact hbo hbx
        rw [hothers x hxo hxb, if_pos hbx, hset, Finset.card_insert_of_notMem hnot]
        push_cast
        omega
      · have hset : shadowing s' x = shadowing s x := by
          ext z
          rw [hmem, mem_shadowing]
          by_cases hzo : z = o
          · simp [hzo, hshadow, hbx, hox]
          · rw [hsh z hzo]
        have hrefs : (s'.object x).refCount = (s.object x).refCount := by
          by_cases hxo : x = o
          · rw [hxo, ho]
          · rw [hothers x hxo hxb, if_neg hbx]
        rw [hset, hrefs]
        omega
  have hgraph := h.graph hc hd (hlist ▸ Finset.Subset.refl _)
    (fun x hx hgone => absurd (hlist ▸ hx) hgone) hshadow hsh hcount
  refine ⟨s', hs', ⟨?_, hgraph.1, ?_, hgraph.2⟩⟩
  · refine ⟨h.mem, h.memBacking, h.shadow, hlist ▸ Finset.Subset.refl _,
      fun hx _ => hlist ▸ hx, hsize, hint, ?_, hshadow, hoffset, ?_⟩
    · intro x hx
      refine ⟨hsh x hx, hfield VmObject.shadowOffset (fun _ _ _ => rfl) x hx, fun off => ?_⟩
      exact hfield (fun obj => here pagers obj off) (fun _ _ _ => rfl) x hx
    · intro off hoff
      have hsee : here pagers (s'.object o) off = here pagers (s.object o) off := by
        rw [ho]
        rfl
      rw [hsee]
      cases hhere : here pagers (s.object o) off with
      | some p => rfl
      | none =>
        -- the parent has the pages of the backing object
        have hlookup : vmPageLookup (s.object b).memq (off + (s.object o).shadowOffset) = none := by
          by_contra hsome
          obtain ⟨p, hp⟩ := Option.ne_none_iff_exists'.mp hsome
          obtain ⟨pp, hpp⟩ := allShadowed_spec ((h.window hw).trans (s.object b).size.isLt.le)
            (hw.real o h.mem h.idle) hall hoff hp
          simp only [here, hpp] at hhere
          cases hhere
        have hnone := Option.not_isSome_iff_eq_none.mp hpager
        simp only [here, hlookup, hnone, Option.bind_none, Option.none_or]
  · refine h.windows hw (hlist ▸ Finset.Subset.refl _) hsize hint hpip hshadow hoffset ?_ ?_
    · intro x hx
      exact ⟨hsh x hx, hfield VmObject.shadowOffset (fun _ _ _ => rfl) x hx,
        hfield VmObject.memq (fun _ _ _ => rfl) x hx⟩
    · rw [ho]
      exact hw.real o h.mem h.idle

theorem collapseStep_ret {t : Vm P} (h : collapseStep o s = .ret t) : t = s := by
  unfold collapseStep at h
  split at h
  · cases h
  split at h
  · cases h
    rfl
  split at h
  · cases h
    rfl
  split at h
  · cases h
  split at h
  · cases h
    rfl
  split at h
  · cases h
  · cases h
    rfl
  split at h
  · -- a backing object that is taken in does not end the loop
    unfold collapseInto at h
    simp only at h
    split at h
    · cases h
    split at h <;> cases h
  · unfold bypass at h
    simp only at h
    split at h
    · cases h
      rfl
    split at h
    · cases h
    · cases h
      rfl

/-- A turn of the loop returns the graph as it is, or goes on with an object merged. -/
theorem collapseStep_spec (hc : Counted ext s) (hw : Windows s) (hd : Deep depth s)
    (ho : o ∈ s.objectList) :
    collapseStep o s = .ret s ∨
      ∃ b s', collapseStep o s = .next s' ∧ Turn pagers ext depth o b s s' := by
  unfold collapseStep
  rw [if_neg (not_not.mpr ho)]
  by_cases hbusy : (s.object o).pagingInProgress ≠ 0 ∨ (s.object o).pager.isSome
  · exact .inl (if_pos hbusy)
  rw [if_neg hbusy]
  obtain ⟨hidle, hpager⟩ := not_or.mp hbusy
  cases hs : (s.object o).shadow with
  | none => exact .inl rfl
  | some b =>
    have hb := hc.shadows o ho b hs
    simp only
    rw [if_neg (not_not.mpr hb)]
    by_cases hext : (s.object b).internal = false ∨ (s.object b).pagingInProgress ≠ 0
    · exact .inl (if_pos hext)
    rw [if_neg hext]
    obtain ⟨hint, hbidle⟩ := not_or.mp hext
    have hripe : Ripe s o b := ⟨ho, hb, hs, Option.not_isSome_iff_eq_none.mp hpager,
      not_not.mp hidle, not_not.mp hbidle, Bool.eq_true_of_not_eq_false hint⟩
    obtain ⟨z, hz⟩ := shadowCopy_ok hc hb
    rw [hz]
    cases z with
    | some _ => exact .inl rfl
    | none =>
      simp only
      by_cases hone : (s.object b).refCount = 1
      · rw [if_pos hone]
        exact .inr ⟨b, collapseInto_spec hc hw hd hripe hz hone⟩
      · rw [if_neg hone]
        exact (bypass_spec hc hw hd hripe).imp id fun hnext => ⟨b, hnext⟩
/-- Objects read as before a turn. -/
theorem Turn.reads (h : Turn pagers ext depth o b s s') (hc : Counted ext s) (hw : Windows s)
    (hd : Deep depth s) : ReadsAs pagers s s' := by
  intro x hx off hoff r
  have hforward {r} (hf : Found pagers s x off r) : Found pagers s' x off r :=
    h.merged.found hd hw h.counted.shadows hx (fun _ => hoff) hf
  refine ⟨fun hf => ?_, hforward⟩
  obtain ⟨r', hr'⟩ := exists_found hd hc.shadows (h.merged.subset hx) off
  rwa [hf.unique (hforward hr')]

/-- What holds of the graph `t` that the loop has made of `s`. -/
structure Kept (pagers : ℕ → BitVec 32 → Option P) (ext depth : ℕ → ℕ) (o : ℕ) (s t : Vm P) :
    Prop where
  counted : Counted ext t
  windows : Windows t
  deep : Deep depth t
  mem : o ∈ t.objectList
  size : ∀ x, (t.object x).size = (s.object x).size
  reads : ReadsAs pagers s t

theorem Kept.turn {t u : Vm P} (h : Kept pagers ext depth o s t)
    (hturn : Turn pagers ext depth o b t u) : Kept pagers ext depth o s u where
  counted := hturn.counted
  windows := hturn.windows
  deep := hturn.deep
  mem := by
    refine hturn.merged.keeps h.mem ?_
    rintro rfl
    exact lt_irrefl _ (h.deep o h.mem o hturn.merged.backing)
  size := fun x => (hturn.merged.size x).trans (h.size x)
  reads := by
    intro x hx off hoff r
    rw [hturn.reads h.counted h.windows h.deep x hx off (h.size x ▸ hoff) r]
    exact h.reads x (hturn.merged.subset hx) off hoff r

/-- How far down the loop has still to go. -/
def below (depth : ℕ → ℕ) (o : ℕ) (s : Vm P) : ℕ :=
  match (s.object o).shadow with
  | none => 0
  | some b => depth b + 1

theorem Turn.below_lt (h : Turn pagers ext depth o b s s') (hd : Deep depth s) :
    below depth o s' < below depth o s := by
  simp only [below, h.merged.backing, h.merged.shadow]
  cases hs : (s.object b).shadow with
  | none => exact Nat.succ_pos _
  | some c => exact Nat.succ_lt_succ (hd b h.merged.memBacking c hs)

end Turn

/-- `vm_object_collapse` returns, without a fault, on every graph of objects with exact reference
counts and windows within their shadows; the counts stay exact, and every object left reads as
before at every offset inside its size. -/
theorem collapse_reads {ext : ℕ → ℕ} (hc : Counted ext s) (hw : Windows s) (allowed : Bool)
    (o : Option ℕ) (ho : ∀ x, o = some x → x ∈ s.objectList) :
    ∃ n s', vmObjectCollapse allowed n o s = .ret s' ∧
      (∀ k e, vmObjectCollapse allowed k o s ≠ .fault e) ∧
      Counted ext s' ∧ Windows s' ∧ (∀ x, (s'.object x).size = (s.object x).size) ∧
      ReadsAs pagers s s' := by
  unfold vmObjectCollapse
  cases allowed with
  | false => exact ⟨0, s, rfl, nofun, hc, hw, fun _ => rfl, fun _ _ _ _ _ => Iff.rfl⟩
  | true =>
    cases o with
    | none => exact ⟨0, s, rfl, nofun, hc, hw, fun _ => rfl, fun _ _ _ _ _ => Iff.rfl⟩
    | some o =>
      obtain ⟨depth, hd⟩ := hc.acyclic
      have hkept {t : Vm P} (ht : Machine.Reached (collapseStep o) s t) :
          Kept pagers ext depth o s t := by
        refine ht.invariant ⟨hc, hw, hd, ho o rfl, fun _ => rfl, fun _ _ _ _ _ => Iff.rfl⟩ ?_
        intro t u _ hk hstep
        rcases collapseStep_spec hk.counted hk.windows hk.deep hk.mem with
          hret | ⟨b, u', hnext, hturn⟩
        · rw [hret] at hstep
          cases hstep
        · rw [hnext] at hstep
          cases hstep
          exact hk.turn hturn
      have hdown : ∀ t, Machine.Reached (collapseStep o) s t →
          (∃ v, collapseStep o t = .ret v) ∨
            ∃ u, collapseStep o t = .next u ∧ below depth o u < below depth o t := by
        intro t ht
        have hk := hkept ht
        rcases @collapseStep_spec P pagers t o ext depth hk.counted hk.windows hk.deep hk.mem with
          hret | ⟨b, u, hnext, hturn⟩
        · exact .inl ⟨t, hret⟩
        · exact .inr ⟨u, hnext, hturn.below_lt hk.deep⟩
      obtain ⟨n, v, hrun⟩ := Machine.exists_ret_of_measure (collapseStep o) (below depth o) hdown
      have hk := hkept (Machine.reached_of_run_ret (fun _ _ => collapseStep_ret) hrun)
      exact ⟨n, v, hrun, Machine.run_ne_fault_of_run_ret hrun, hk.counted, hk.windows, hk.size,
        hk.reads⟩

/-! ## Two graphs -/

/-- An internal object of `size` bytes without paging. -/
def plain (memq : List (VmPage ℕ)) (refCount : ℤ) (size : BitVec 32) (shadow : Option ℕ) :
    VmObject ℕ :=
  ⟨memq, refCount, size, none, none, 0, shadow, 0, 0, true⟩

/-- Object 0 shadows object 1, which has a page. -/
def pair : Vm ℕ where
  objectList := {0, 1}
  object x := if x = 0 then plain [] 1 8192 (some 1) else plain [⟨4096, false, 7⟩] 1 8192 none

/-- The same with a smaller object 0, which object 2 shadows. -/
def gap : Vm ℕ where
  objectList := {0, 1, 2}
  object x :=
    if x = 0 then plain [] 1 4096 (some 1)
    else if x = 1 then plain [⟨4096, false, 7⟩] 1 8192 none
    else plain [] 1 8192 (some 0)

theorem pair_counted : Counted (fun x => if x = 0 then 1 else 0) pair where
  referenced := by simp [pair]
  shadows := by simp [pair, plain]
  exact := by decide
  acyclic := ⟨fun x => 1 - x, by simp [Deep, pair, plain]⟩

theorem pair_windows : Windows pair where
  inside := by simp [pair, plain]
  bottom := by simp [pair, plain]
  real := by simp [pair, plain]

/-- Collapsing object 0 takes in the page of object 1. -/
theorem collapse_reads_pair : ∃ n s', vmObjectCollapse true n (some 0) pair = .ret s' ∧
    ReadsAs (fun _ _ => none) pair s' := by
  obtain ⟨n, s', hok, -, -, -, -, hreads⟩ := @collapse_reads ℕ (fun _ _ => none) pair _
    pair_counted pair_windows true (some 0) (by simp [pair])
  exact ⟨n, s', hok, hreads⟩

theorem gap_counted : Counted (fun x => if x = 2 then 1 else 0) gap where
  referenced := by simp [gap]
  shadows := by simp [gap, plain]
  exact := by decide
  acyclic := ⟨fun x => if x = 2 then 2 else 1 - x, by simp [Deep, gap, plain]⟩

/-- A page of the backing object behind the end of its parent is lost to the object that shadows
the parent there. -/
theorem not_collapse : ¬∀ (P : Type) (pagers : ℕ → BitVec 32 → Option P) (ext : ℕ → ℕ) (s : Vm P),
    Counted ext s → (∀ x ∈ s.objectList, (s.object x).internal = true) →
    (∀ x ∈ s.objectList, ∀ p ∈ (s.object x).memq, p.fake = false) → ∀ o ∈ s.objectList,
    ∃ n s', vmObjectCollapse true n (some o) s = .ret s' ∧ ReadsAs pagers s s' := by
  intro h
  obtain ⟨n, s', hrun, hreads⟩ := h ℕ (fun _ _ => none) _ gap gap_counted
    (by simp [gap, plain]) (by simp [gap, plain]) 0 (by simp [gap])
  obtain ⟨t, ht, hmem, h2, h0, hpager, hmemq⟩ : ∃ t, Machine.run (collapseStep 0) 2 gap = .ret t ∧
      2 ∈ t.objectList ∧ t.object 2 = plain [] 1 8192 (some 0) ∧ (t.object 0).shadow = none ∧
      (t.object 0).pager = none ∧ (t.object 0).memq = [] :=
    ⟨_, rfl, by decide, rfl, rfl, rfl, rfl⟩
  obtain rfl : s' = t :=
    Machine.Outcome.ret.inj (Machine.run_unique_of_ne_next (by simp) (by simp) hrun ht)
  have hbefore : Found (fun _ _ => none) gap 2 4096 (some 7) :=
    .shadow rfl rfl (.shadow rfl rfl (.here rfl))
  have hnone : Found (fun _ _ => none) s' 0 4096 none := by
    refine .none ?_ h0
    simp [here, hmemq, hpager, vmPageLookup]
  have hafter : Found (fun _ _ => none) s' 2 4096 none := by
    refine .shadow (y := 0) ?_ ?_ ?_
    · rw [h2]
      rfl
    · rw [h2]
      rfl
    · rw [h2]
      exact hnone
  have := ((hreads 2 hmem 4096 (by decide) (some 7)).mpr hbefore).unique hafter
  cases this

end Collapse
