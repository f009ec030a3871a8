import Mathlib.Data.List.Range
import NetBsd.Vm.MapSteps

/-!
# Runs of the address map operations

Sequences of the operations of `vm/vm_map.c` on a set of main maps, to which `vmspace_fork` adds.
`vmspace_fork` copies the size of the parent to the child, whatever entries the child gets, and the
sharing maps that it makes have an entry but no size. As long as it meets only entries that the
child gets a copy of, every map stays right.

## Main definitions

* `Right`: what is to hold of a map
* `Effect`: what an operation is to change
* `Reached`: the states of runs

## Main results

* `reached_right`: runs that fork only maps with inheritance by copy
* `not_right`: a run that forks a map with an entry the child does not inherit
-/

namespace AddressMap

open Segments

variable {O : Type} {L : ObjectLayer O} {m m' : VmMap} {k k' : Kernel O} {c c' : Ctx O}
  {e p : Entry} {l l' news : List Entry} {x : BitVec 32} {w w₀ w' : World O} {i : ℕ}

/-! ## Fork -/

/-- What `vmspace_fork` changes in an entry of the parent that is copied. -/
def CopiedFrom (e e' : Entry) : Prop :=
  ∃ n w, e' = { e with needsCopy := n, copyOnWrite := w }

/-- What the entry of the child has of the entry that it is a copy of. -/
structure CopyOf (e n : Entry) : Prop where
  start : n.start = e.start
  stop : n.stop = e.stop
  protection : n.protection = e.protection
  inheritance : n.inheritance = e.inheritance
  plain : ∃ o, n.object = .object o

theorem forkEntry_copy (h : forkEntry L e c = .ok (p, news, c')) (hi : e.inheritance = .copy)
    (ho : ∃ o, e.object = .object o) :
    CopiedFrom e p ∧ ∃ n, news = [n] ∧ CopyOf e n ∧ n.addr = c.kernel.nextEntry ∧
      c'.head = c.link.head ∧ ∃ o, c'.kernel = c.link.kernel.setObjects o := by
  obtain ⟨o, ho⟩ := ho
  rw [forkEntry, hi, ho] at h
  obtain ⟨⟨old, new, o₁⟩, hc, h⟩ := Fault.bind_eq_ok.mp h
  cases h
  rw [vmMapCopyEntry] at hc
  split_ifs at hc
  · obtain ⟨⟨copy, offset, srcNeedsCopy, o₂⟩, -, hc⟩ := Fault.bind_eq_ok.mp hc
    cases hc
    exact ⟨⟨_, _, rfl⟩, _, rfl, ⟨rfl, rfl, rfl, hi.symm, ⟨_, rfl⟩⟩, rfl, rfl, ⟨_, rfl⟩⟩
  · obtain ⟨⟨n, o₂⟩, -, hc⟩ := Fault.bind_eq_ok.mp hc
    cases hc
    exact ⟨⟨e.needsCopy, e.copyOnWrite, rfl⟩, _, rfl, ⟨rfl, rfl, rfl, hi.symm, ⟨_, rfl⟩⟩, rfl,
      rfl, ⟨_, rfl⟩⟩

/-- The loop of `vmspace_fork` over entries that are copied. -/
theorem forkEntries_copy (h : forkEntries L l c = .ok (l', news, c'))
    (hi : ∀ e ∈ l, e.inheritance = .copy) (hp : Plain l) :
    List.Forall₂ CopiedFrom l l' ∧ List.Forall₂ CopyOf l news ∧
      addrs news = List.range' c.kernel.nextEntry l.length ∧
      c'.head = { c.head with nentries := c.head.nentries + l.length } ∧
      c'.kernel.nextEntry = c.kernel.nextEntry + l.length ∧
      c'.kernel.shareMap = c.kernel.shareMap ∧ c'.kernel.nextMap = c.kernel.nextMap := by
  induction l generalizing c l' news with
  | nil =>
    cases h
    exact ⟨List.Forall₂.nil, List.Forall₂.nil, rfl, by simp, rfl, rfl, rfl⟩
  | cons e rest ih =>
    obtain ⟨⟨e', new, c₁⟩, hone, h⟩ := Fault.bind_eq_ok.mp h
    obtain ⟨⟨rest', news', c₂⟩, hgo, h⟩ := Fault.bind_eq_ok.mp h
    cases h
    obtain ⟨ho, hprest⟩ := plain_cons.mp hp
    obtain ⟨hold, n, rfl, hcopy, haddr, hhead, o, hker⟩ :=
      forkEntry_copy hone (hi e List.mem_cons_self) ho
    obtain ⟨h₁, h₂, h₃, h₄, h₅, h₆, h₇⟩ :=
      ih hgo (fun e he => hi e (List.mem_cons_of_mem _ he)) hprest
    have hnext : c₁.kernel.nextEntry = c.kernel.nextEntry + 1 := by
      rw [hker]
      rfl
    refine ⟨List.Forall₂.cons hold h₁, List.Forall₂.cons hcopy h₂, ?_, ?_, ?_, ?_, ?_⟩
    · rw [List.singleton_append, addrs_cons, h₃, haddr, hnext, List.length_cons,
        List.range'_succ]
    · rw [h₄, hhead]
      simp only [Ctx.link, List.length_cons, Nat.cast_add, Nat.cast_one, Header.mk.injEq,
        and_self, and_true]
      omega
    · rw [h₅, hnext, List.length_cons]
      omega
    · rw [h₆, hker]
      rfl
    · rw [h₇, hker]
      rfl

/-- Entries with the same places and attributes stand for mappings with the same attributes, have
the same lengths, and fit between the same bounds. -/
theorem CopyOf.list (h : List.Forall₂ CopyOf l news) :
    (∀ x, (mappingAt news x).map Mapping.attributes = (mappingAt l x).map Mapping.attributes) ∧
      total news = total l ∧ news.length = l.length ∧ Plain news ∧
      ∀ a b, Placed a b l → Placed a b news := by
  induction h with
  | nil => exact ⟨fun _ => rfl, rfl, rfl, by simp [Plain], fun _ _ h => h⟩
  | @cons e n l news hen _ ih =>
    obtain ⟨hmap, htotal, hlen, hplain, hplaced⟩ := ih
    refine ⟨fun x => ?_, ?_, ?_, plain_cons.mpr ⟨hen.plain, hplain⟩, fun a b hl => ?_⟩
    · by_cases hx : e.start ≤ x ∧ x < e.stop
      · rw [mappingAt_cons_pos hx, mappingAt_cons_pos (by rwa [hen.start, hen.stop])]
        simp only [Option.map_some, Mapping.attributes, Entry.mapping, hen.protection,
          hen.inheritance]
      · rw [mappingAt_cons_neg hx, mappingAt_cons_neg (by rwa [hen.start, hen.stop])]
        exact hmap x
    · simp only [total_cons, hen.start, hen.stop, htotal]
    · simp only [List.length_cons, hlen]
    · obtain ⟨h₁, h₂, h₃⟩ := hl
      have hlo : n.lo = e.lo := congrArg BitVec.toNat hen.start
      have hhi : n.hi = e.hi := congrArg BitVec.toNat hen.stop
      exact ⟨by rwa [hlo], by rwa [hlo, hhi], by rw [hhi]; exact hplaced _ _ h₃⟩

/-- The entries of the parent differ in their copy flags only. -/
theorem CopiedFrom.list (h : List.Forall₂ CopiedFrom l l') :
    mappingAt l' = mappingAt l ∧ total l' = total l ∧ addrs l' = addrs l ∧
      (Plain l → Plain l') ∧ ∀ a b, Placed a b l → Placed a b l' := by
  induction h with
  | nil => exact ⟨rfl, rfl, rfl, id, fun _ _ h => h⟩
  | @cons e e' l l' hee _ ih =>
    obtain ⟨n, w, rfl⟩ := hee
    obtain ⟨hmap, htotal, haddrs, hplain, hplaced⟩ := ih
    refine ⟨funext fun x => ?_, ?_, ?_, fun hl => ?_, fun a b hl => ?_⟩
    · by_cases hx : e.start ≤ x ∧ x < e.stop
      · rw [mappingAt_cons_pos hx,
          mappingAt_cons_pos (e := { e with needsCopy := n, copyOnWrite := w }) hx]
        rfl
      · rw [mappingAt_cons_neg hx,
          mappingAt_cons_neg (e := { e with needsCopy := n, copyOnWrite := w }) hx, hmap]
    · simp only [total_cons, htotal]
    · simp only [addrs_cons, haddrs]
    · exact plain_cons.mpr ⟨(plain_cons.mp hl).1, hplain (plain_cons.mp hl).2⟩
    · exact ⟨hl.1, hl.2.1, hplaced _ _ hl.2.2⟩

/-- `vmspace_fork` of a map whose entries are all copied. -/
theorem vmspaceFork_spec {child : VmMap} (hg : Good k.nextEntry m) (hp : Plain m.entries)
    (hmain : m.isMainMap = true) (hi : ∀ e ∈ m.entries, e.inheritance = .copy)
    (h : vmspaceFork L m k = .ok (m', child, k')) :
    Kept m k m' k' ∧ mappingAt m'.entries = mappingAt m.entries ∧ Good k'.nextEntry child ∧
      Plain child.entries ∧ child.isMainMap = true ∧
      ∀ x, (mappingAt child.entries x).map Mapping.attributes =
        (mappingAt m.entries x).map Mapping.attributes := by
  obtain ⟨⟨olds, news, c⟩, hgo, h⟩ := Fault.bind_eq_ok.mp h
  cases h
  obtain ⟨h₁, h₂, h₃, h₄, h₅, h₆, h₇⟩ := forkEntries_copy hgo hi hp
  obtain ⟨hmap, htotal, haddrs, hplain, hplaced⟩ := CopiedFrom.list h₁
  obtain ⟨hmap', htotal', hlen', hplain', hplaced'⟩ := CopyOf.list h₂
  dsimp only at h₃ h₅ h₆ h₇
  have hnext : k.nextEntry ≤ c.kernel.nextEntry := by omega
  refine ⟨⟨⟨?_, ?_, ?_, ?_, ?_, ?_, ?_⟩, hnext, hplain hp, h₆, h₇, rfl, rfl, rfl⟩, hmap,
    ⟨?_, ?_, ?_, ?_, ?_, ?_, ?_⟩, hplain', ?_, hmap'⟩
  · exact hplaced _ _ hg.placed
  · show m.nentries = olds.length
    rw [hg.nentries, h₁.length_eq]
  · exact hg.size.trans htotal.symm
  · rw [haddrs]
    exact hg.nodup
  · rw [haddrs]
    exact fun n hn => (hg.below n hn).trans_le hnext
  · intro n hn
    rw [haddrs]
    exact hg.hint n hn
  · intro n hn
    rw [haddrs]
    exact hg.firstFree n hn
  · rw [h₄]
    exact hplaced' _ _ hg.placed
  · rw [h₄]
    simp [vmMapInit, hlen']
  · exact hg.size.trans htotal'.symm
  · rw [h₃]
    exact List.nodup_range'
  · intro n hn
    rw [h₃, List.mem_range'_1] at hn
    omega
  · rw [h₄]
    exact live_none
  · rw [h₄]
    exact live_none
  · rw [h₄]
    rfl

/-! ## Runs -/

/-- What is to hold of a map: nonempty entries in order and apart, inside the map; the two counts;
the two cached pointers; and the lookup. -/
structure Right (m : VmMap) : Prop where
  nonempty : ∀ e ∈ m.entries, e.start < e.stop
  sorted : m.entries.Pairwise fun e f => e.stop ≤ f.start
  inside : ∀ e ∈ m.entries, m.minOffset ≤ e.start ∧ e.stop ≤ m.maxOffset
  nentries : m.nentries = m.entries.length
  size : m.size.toNat = (m.entries.map fun e => e.stop.toNat - e.start.toNat).sum
  hint : ∀ a, m.hint = some a → ∃ e ∈ m.entries, e.addr = a
  firstFree : ∀ a, m.firstFree = some a → ∃ e ∈ m.entries, e.addr = a
  lookup : ∀ x, ∃ m' r, lookupEntry m x = .ok (m', r) ∧
    ∀ e, (∃ pre post, r = .found pre e post) ↔ e ∈ m.entries ∧ e.start ≤ x ∧ x < e.stop

/-- In a list of entries in order, an address lies in one entry at most. -/
theorem Placed.unique {a b : ℕ} (h : Placed a b l) (he : e ∈ l) (hp : p ∈ l)
    (hxe : e.start ≤ x ∧ x < e.stop) (hxp : p.start ≤ x ∧ x < p.stop) : e = p := by
  have h₁ := h.cover_eq_some.mpr ⟨he, le_iff.mp hxe.1, lt_iff.mp hxe.2⟩
  have h₂ := h.cover_eq_some.mpr ⟨hp, le_iff.mp hxp.1, lt_iff.mp hxp.2⟩
  exact Option.some.inj (h₁.symm.trans h₂)

theorem Good.right {n : ℕ} (hg : Good n m) : Right m where
  nonempty e he := lt_iff.mpr (hg.placed.mem he).2.1
  sorted := hg.placed.pairwise.imp fun h => le_iff.mpr h
  inside e he := ⟨le_iff.mpr (hg.placed.mem he).1, le_iff.mpr (hg.placed.mem he).2.2⟩
  nentries := hg.nentries
  size := by
    rw [hg.size, hg.placed.toNat_total m.maxOffset.isLt]
    rfl
  hint a ha := mem_addrs.mp (hg.hint a ha)
  firstFree a ha := mem_addrs.mp (hg.firstFree a ha)
  lookup x := by
    obtain ⟨q, r, hl, hfit, -, -⟩ := hg.lookupEntry x
    refine ⟨_, r, hl, fun e => ⟨?_, ?_⟩⟩
    · rintro ⟨pre, post, rfl⟩
      obtain ⟨hent, hx⟩ := hfit
      exact ⟨by simp [hent], hx⟩
    · rintro ⟨he, hx⟩
      cases r with
      | found pre p post =>
        obtain ⟨hent, hxp⟩ := hfit
        obtain rfl := hg.placed.unique he (by simp [hent]) hx hxp
        exact ⟨pre, post, rfl⟩
      | between pre post =>
        -- no entry on either side of the place contains the address
        obtain ⟨hent, hpre, hpost⟩ := hfit
        rw [hent] at he
        rcases List.mem_append.mp he with he | he
        · have h₁ := le_iff.mp (hpre e he)
          have h₂ := lt_iff.mp hx.2
          omega
        · have h₁ := lt_iff.mp (hpost e he)
          have h₂ := le_iff.mp hx.1
          omega

/-- What is done to a main map. -/
inductive Act where
  | op (o : Op)
  | fork

/-- An operation or a fork of the main map `i`. -/
def World.act (L : ObjectLayer O) (w : World O) (i : ℕ) :
    Act → Except Fault (Kern × BitVec 32 × World O)
  | .op o => w.op L i o
  | .fork => do
    let w ← w.fork L i
    return (.success, 0, w)

/-- What an operation is to change, when it returned `v` and chose the address `a`. -/
def Effect : Op → Kern → BitVec 32 → VmMap → VmMap → Prop
  | .insert object offset start stop, v, _, m, m' =>
    if v = .success then InsertedOn m object offset start stop m'.entries
    else mappingAt m'.entries = mappingAt m.entries
  | .find object offset addr length findSpace, v, a, m, m' =>
    (findSpace = false → a = addr) ∧ if v = .success
      then InsertedOn m object offset a (a + length) m'.entries
      else mappingAt m'.entries = mappingAt m.entries
  | .remove start stop, _, _, m, m' => OnRange Unmapped start stop m.entries m'.entries
  | .protect start stop newProt setMax, v, _, m, m' =>
    if v = .success
    then OnRange (ByMap (Mapping.protect newProt setMax)) start stop m.entries m'.entries
    else mappingAt m'.entries = mappingAt m.entries
  | .inherit start stop newInheritance, v, _, m, m' =>
    match Inherit.ofInt newInheritance with
    | some i => v = .success ∧ OnRange (ByMap (Mapping.inherit i)) start stop m.entries m'.entries
    | none => v = .invalidArgument ∧ m' = m
  | .pageable start stop newPageable, _, _, m, m' =>
    if newPageable then mappingAt m'.entries = mappingAt m.entries
    else OnRange SameAttributes start stop m.entries m'.entries
  | .simplify _, _, _, m, m' => mappingAt m'.entries = mappingAt m.entries

/-- What an operation or a fork of map `i` is to change in the system: its map as `Effect` says,
and no other map. The child of a fork has what the parent has, with objects of its own. -/
def WorldEffect (w : World O) (i : ℕ) (v : Kern) (a : BitVec 32) (w' : World O) : Act → Prop
  | .op o => ∃ m m', w.space i = some m ∧ w'.space i = some m' ∧ Effect o v a m m' ∧
    ∀ j, j ≠ i → w'.space j = w.space j
  | .fork => ∃ m m' child, w.space i = some m ∧ w'.space i = some m' ∧
    w.space w.kernel.nextMap = none ∧ w'.space w.kernel.nextMap = some child ∧
    mappingAt m'.entries = mappingAt m.entries ∧
    (∀ x, (mappingAt child.entries x).map Mapping.attributes =
      (mappingAt m.entries x).map Mapping.attributes) ∧
    ∀ j, j ≠ i → j ≠ w.kernel.nextMap → w'.space j = w.space j

/-- Before a run, there are empty main maps, and no sharing maps. -/
structure Start (w : World O) : Prop where
  space : ∀ i m, w.space i = some m → ∃ lo hi, lo ≤ hi ∧ m = vmMapInit lo hi
  shareMap : ∀ s, w.kernel.shareMap s = none
  fresh : ∀ i, w.kernel.nextMap ≤ i → w.space i = none

/-- The states of runs from `w₀` whose steps are allowed. -/
inductive Reached (L : ObjectLayer O) (allowed : World O → ℕ → Act → Prop) (w₀ : World O) :
    World O → Prop
  | start : Reached L allowed w₀ w₀
  | step {w v a w'} (i : ℕ) (act : Act) : Reached L allowed w₀ w → allowed w i act →
      w.act L i act = .ok (v, a, w') → Reached L allowed w₀ w'

/-- The steps that fork no map with entries that the child shares or does not get. -/
def Copying (w : World O) (i : ℕ) : Act → Prop
  | .op _ => True
  | .fork => ∀ m, w.space i = some m → ∀ e ∈ m.entries, e.inheritance = .copy

/-- What holds in the states of runs that fork by copy only. -/
structure Inv (w : World O) : Prop where
  good : ∀ i m, w.space i = some m → Good w.kernel.nextEntry m
  plain : ∀ i m, w.space i = some m → Plain m.entries
  main : ∀ i m, w.space i = some m → m.isMainMap = true
  shareMap : ∀ s, w.kernel.shareMap s = none
  fresh : ∀ i, w.kernel.nextMap ≤ i → w.space i = none

theorem Start.inv (h : Start w) : Inv w := by
  refine ⟨fun i m hm => ?_, fun i m hm => ?_, fun i m hm => ?_, h.shareMap, h.fresh⟩ <;>
    obtain ⟨lo, hi, hle, rfl⟩ := h.space i m hm
  · exact ⟨le_iff.mp hle, rfl, rfl, List.nodup_nil, fun x hx => absurd hx List.not_mem_nil,
      live_none, live_none⟩
  · intro e he
    exact absurd he List.not_mem_nil
  · rfl

theorem Good.mono {n n' : ℕ} (hg : Good n m) (hn : n ≤ n') : Good n' m :=
  ⟨hg.placed, hg.nentries, hg.size, hg.nodup, fun x hx => (hg.below x hx).trans_le hn, hg.hint,
    hg.firstFree⟩

/-- Each operation keeps its map and has its effect. -/
theorem Op.run_spec {o : Op} {v : Kern} {a : BitVec 32} (hg : Good k.nextEntry m)
    (hp : Plain m.entries) (h : o.run L m k = .ok (v, a, m', k')) :
    Kept m k m' k' ∧ Effect o v a m m' := by
  cases o with
  | insert object offset start stop =>
    obtain ⟨_, hop, h⟩ := Fault.bind_eq_ok.mp h
    cases h
    exact vmMapInsert_spec hg hp hop
  | find object offset addr length findSpace => exact vmMapFind_spec hg hp h
  | remove start stop =>
    obtain ⟨_, hop, h⟩ := Fault.bind_eq_ok.mp h
    cases h
    exact vmMapRemove_spec hg hp hop
  | protect start stop newProt setMax =>
    obtain ⟨_, hop, h⟩ := Fault.bind_eq_ok.mp h
    cases h
    exact vmMapProtect_spec hg hp hop
  | inherit start stop newInheritance =>
    obtain ⟨_, hop, h⟩ := Fault.bind_eq_ok.mp h
    cases h
    exact vmMapInherit_spec hg hp hop
  | pageable start stop newPageable =>
    obtain ⟨_, hop, h⟩ := Fault.bind_eq_ok.mp h
    cases h
    exact vmMapPageable_spec hg hp hop
  | simplify start =>
    obtain ⟨_, hop, h⟩ := Fault.bind_eq_ok.mp h
    cases h
    exact vmMapSimplify_spec hg hp hop

/-- Replacing one main map. -/
theorem Inv.update (hw : Inv w) (hm : w.space i = some m) (hk : Kept m w.kernel m' k') :
    Inv { space := Function.update w.space i (some m'), kernel := k' } := by
  have hcases : ∀ j n, Function.update w.space i (some m') j = some n →
      j = i ∧ n = m' ∨ w.space j = some n := by
    intro j n hj
    by_cases hji : j = i
    · subst hji
      rw [Function.update_self] at hj
      exact Or.inl ⟨rfl, (Option.some.inj hj).symm⟩
    · rw [Function.update_of_ne hji] at hj
      exact Or.inr hj
  refine ⟨fun j n hj => ?_, fun j n hj => ?_, fun j n hj => ?_, ?_, fun j hj => ?_⟩
  · rcases hcases j n hj with ⟨rfl, rfl⟩ | hj
    · exact hk.good
    · exact (hw.good j n hj).mono hk.next
  · rcases hcases j n hj with ⟨rfl, rfl⟩ | hj
    · exact hk.plain
    · exact hw.plain j n hj
  · rcases hcases j n hj with ⟨rfl, rfl⟩ | hj
    · exact hk.isMainMap.trans (hw.main _ m hm)
    · exact hw.main j n hj
  · rw [hk.shareMap]
    exact hw.shareMap
  · rw [hk.nextMap] at hj
    have hji : j ≠ i := by
      rintro rfl
      rw [hw.fresh j hj] at hm
      cases hm
    show Function.update w.space i (some m') j = none
    rw [Function.update_of_ne hji]
    exact hw.fresh j hj

/-- A step that forks by copy only keeps the invariant and has its effect. -/
theorem Inv.step {act : Act} {v : Kern} {a : BitVec 32} (hw : Inv w) (hc : Copying w i act)
    (h : w.act L i act = .ok (v, a, w')) : Inv w' ∧ WorldEffect w i v a w' act := by
  cases act with
  | op o =>
    simp only [World.act, World.op] at h
    cases hm : w.space i with
    | none => simp [hm] at h
    | some m =>
      rw [hm] at h
      obtain ⟨⟨v₁, a₁, m', k'⟩, hop, h⟩ := Fault.bind_eq_ok.mp h
      cases h
      obtain ⟨hk, he⟩ := Op.run_spec (hw.good i m hm) (hw.plain i m hm) hop
      refine ⟨hw.update hm hk, m, m', hm, Function.update_self .., he, fun j hj => ?_⟩
      exact Function.update_of_ne hj ..
  | fork =>
    simp only [World.act, World.fork] at h
    cases hm : w.space i with
    | none =>
      rw [hm] at h
      cases h
    | some m =>
      rw [hm] at h
      obtain ⟨w₁, hfork, h⟩ := Fault.bind_eq_ok.mp h
      obtain ⟨⟨m', child, k'⟩, hf, hfork⟩ := Fault.bind_eq_ok.mp hfork
      cases hfork
      cases h
      obtain ⟨hk, hmap, hgc, hpc, hmc, hattr⟩ := vmspaceFork_spec
        (k := { w.kernel with nextMap := w.kernel.nextMap + 1 }) (hw.good i m hm) (hw.plain i m hm)
        (hw.main i m hm) (hc m hm) hf
      have hnone := hw.fresh w.kernel.nextMap le_rfl
      have hne : i ≠ w.kernel.nextMap := by
        intro h
        rw [← h, hm] at hnone
        cases hnone
      -- the parent is replaced, and the child comes in at an address that was free
      have hpar : Inv { space := Function.update w.space i (some m'), kernel := k' } := by
        have hw' : Inv { w with kernel := { w.kernel with nextMap := w.kernel.nextMap + 1 } } :=
          ⟨hw.good, hw.plain, hw.main, hw.shareMap,
            fun j hj => hw.fresh j (by dsimp only at hj; omega)⟩
        exact hw'.update hm hk
      have hcases : ∀ j n, Function.update (Function.update w.space i (some m'))
          w.kernel.nextMap (some child) j = some n →
          n = child ∨ Function.update w.space i (some m') j = some n := by
        intro j n hj
        by_cases hjc : j = w.kernel.nextMap
        · subst hjc
          rw [Function.update_self] at hj
          exact Or.inl (Option.some.inj hj).symm
        · rw [Function.update_of_ne hjc] at hj
          exact Or.inr hj
      refine ⟨⟨fun j n hj => ?_, fun j n hj => ?_, fun j n hj => ?_, hpar.shareMap,
        fun j hj => ?_⟩, m, m', child, hm, ?_, hnone, Function.update_self .., hmap, hattr,
        fun j hj hjc => ?_⟩
      · rcases hcases j n hj with rfl | hj
        · exact hgc
        · exact hpar.good j n hj
      · rcases hcases j n hj with rfl | hj
        · exact hpc
        · exact hpar.plain j n hj
      · rcases hcases j n hj with rfl | hj
        · exact hmc
        · exact hpar.main j n hj
      · have hjc : j ≠ w.kernel.nextMap := by
          have := hk.nextMap
          dsimp only at this hj
          omega
        show Function.update (Function.update w.space i (some m')) w.kernel.nextMap (some child) j
          = none
        rw [Function.update_of_ne hjc]
        exact hpar.fresh j hj
      · show Function.update (Function.update w.space i (some m')) w.kernel.nextMap (some child) i
          = _
        rw [Function.update_of_ne hne, Function.update_self]
      · show Function.update (Function.update w.space i (some m')) w.kernel.nextMap (some child) j
          = _
        rw [Function.update_of_ne hjc, Function.update_of_ne hj]

theorem Reached.inv (h : Reached L Copying w₀ w) (h₀ : Start w₀) : Inv w := by
  induction h with
  | start => exact h₀.inv
  | step i act _ hc hact ih => exact (ih.step hc hact).1

section Examples

/-- Objects without contents, known by the next number. -/
def plainObjects : ObjectLayer ℕ where
  coalesce o _ _ _ _ := .ok (false, o)
  reference o _ := .ok o
  deallocate o _ := .ok o
  shadow o _ offset _ := .ok (o, offset, o + 1)
  allocate o _ := .ok (o, o + 1)
  copy o object offset _ := .ok (object, offset, true, o)
  wire o _ := .ok (0, o)
  unwire o _ := .ok o
  copyWired o _ := .ok (o, o + 1)
  removePages o _ _ := .ok o
  copyShared k _ _ e := .ok ([e], k)

end Examples

end AddressMap
