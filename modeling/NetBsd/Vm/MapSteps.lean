import Mathlib.Tactic.Abel
import NetBsd.Vm.MapLists

/-!
# The operations on one address map

What each operation of `vm/vm_map.c` does to its map: the map stays good, and what its entries
stand for changes on the range of the operation only.

## Main results

* `StartRange.loop`: an operation on a range
* `vmMapProtect_spec`, `vmMapInherit_spec`, `vmMapRemove_spec`, `vmMapPageable_spec`,
  `vmMapInsert_spec`, `vmMapFind_spec`, `vmMapSimplify_spec`: one operation each
-/

namespace AddressMap

open Segments

variable {O : Type} {L : ObjectLayer O} {m m' : VmMap} {k k' : Kernel O} {c c' : Ctx O}
  {e p : Entry} {l l' pre post rest rest' : List Entry} {x start stop : BitVec 32}
  {q : Option ℕ} {found : Bool}

/-- `R` relates what the entries stood for and stand for on a range; nothing changes outside. -/
def OnRange (R : BitVec 32 → Option Mapping → Option Mapping → Prop) (start stop : BitVec 32)
    (l l' : List Entry) : Prop :=
  ∀ x, (start ≤ x ∧ x < stop → R x (mappingAt l x) (mappingAt l' x)) ∧
    (¬(start ≤ x ∧ x < stop) → mappingAt l' x = mappingAt l x)

/-- What an operation keeps of a main map without sharing maps, and of what the maps have in
common. -/
structure Kept (m : VmMap) (k : Kernel O) (m' : VmMap) (k' : Kernel O) : Prop where
  good : Good k'.nextEntry m'
  next : k.nextEntry ≤ k'.nextEntry
  plain : Plain m'.entries
  shareMap : k'.shareMap = k.shareMap
  nextMap : k'.nextMap = k.nextMap
  minOffset : m'.minOffset = m.minOffset
  maxOffset : m'.maxOffset = m.maxOffset
  isMainMap : m'.isMainMap = m.isMainMap

theorem Kept.trans {m'' : VmMap} {k'' : Kernel O} (h : Kept m k m' k')
    (h' : Kept m' k' m'' k'') : Kept m k m'' k'' where
  good := h'.good
  next := h.next.trans h'.next
  plain := h'.plain
  shareMap := h'.shareMap.trans h.shareMap
  nextMap := h'.nextMap.trans h.nextMap
  minOffset := h'.minOffset.trans h.minOffset
  maxOffset := h'.maxOffset.trans h.maxOffset
  isMainMap := h'.isMainMap.trans h.isMainMap

theorem Kept.refl (hg : Good k.nextEntry m) (hp : Plain m.entries) : Kept m k m k :=
  ⟨hg, le_rfl, hp, rfl, rfl, rfl, rfl, rfl⟩

/-- A new hint keeps a map good. -/
theorem Good.saveHint {n : ℕ} (hg : Good n m) (hq : Live m.entries q) :
    Good n { m with hint := q } :=
  ⟨hg.placed, hg.nentries, hg.size, hg.nodup, hg.below, hq, hg.firstFree⟩

theorem Kept.saveHint (hg : Good k.nextEntry m) (hp : Plain m.entries) (hq : Live m.entries q) :
    Kept m k { m with hint := q } k :=
  ⟨hg.saveHint hq, le_rfl, hp, rfl, rfl, rfl, rfl, rfl⟩

/-- An edit of the entries keeps the map, if the cached pointers stay live. -/
theorem Kept.of_edit (hg : Good k.nextEntry m) (hp : Plain m.entries)
    (h : Edit ⟨m.toHeader.saveHint q, k⟩ c m.entries l) (hmin : c.head.minOffset = m.minOffset)
    (hmax : c.head.maxOffset = m.maxOffset) (hmain : c.head.isMainMap = m.isMainMap)
    (hhint : Live l c.head.hint) (hfree : Live l c.head.firstFree) :
    Kept m k ⟨c.head, l⟩ c.kernel where
  good := hg.of_edit h hmin hmax hhint hfree
  next := h.next
  plain := h.plain hp
  shareMap := (h.maps hp).1
  nextMap := (h.maps hp).2
  minOffset := hmin
  maxOffset := hmax
  isMainMap := hmain

/-! ## Ranges -/

/-- The edit of the first entry of a range keeps the map. -/
theorem StartRange.kept (hs : StartRange m k start found pre rest c q) (hg : Good k.nextEntry m)
    (hp : Plain m.entries) : Kept m k ⟨c.head, pre ++ rest⟩ c.kernel := by
  obtain ⟨hmin, hmax, hmain, hhint, hfree⟩ := hs.head.eqs
  refine Kept.of_edit hg hp hs.edit hmin hmax hmain ?_ ?_
  · rw [hhint]
    exact hs.live.subset hs.keeps
  · rw [hfree]
    exact hg.firstFree.subset hs.keeps

/-- The loop over a range changes what the entries stand for on the range only. -/
theorem StartRange.loop {R : BitVec 32 → Option Mapping → Option Mapping → Prop}
    {body : Entry → Ctx O → Except Fault (List Entry × Ctx O)} {n : ℕ}
    (hs : StartRange m k start found pre rest c q) (hg : Good n m) (hp : Plain m.entries)
    (hR : ∀ x, R x none none) (hbody : Turn R body) (c₁ : Ctx O)
    (hn : c₁.head.nentries = c.head.nentries) (hz : c₁.head.size = c.head.size)
    (hk : c₁.kernel = c.kernel) (h : overRange L body stop rest c₁ = .ok (rest', c')) :
    Edit ⟨m.toHeader.saveHint q, k⟩ c' m.entries (pre ++ rest') ∧ SameHead c₁.head c'.head ∧
      OnRange R start stop m.entries (pre ++ rest') := by
  obtain ⟨i, hpre, hrest⟩ := laid_append.mp (hs.edit.placed _ _ hg.placed)
  have hprest := (plain_append.mp (hs.edit.plain hp)).2
  obtain ⟨hed, hhd, hval⟩ := overRange_spec hR hbody h hrest hprest
  have hcounts : Edit c c₁ (pre ++ rest) (pre ++ rest) := Edit.of_counts hn hz hk _
  refine ⟨hs.edit.trans (hcounts.trans ((Edit.refl c₁ pre).append hed)), hhd, fun x => ?_⟩
  -- the entries of the range begin at `start` or behind it
  have hrest' : Placed start.toNat (max start.toNat m.maxOffset.toNat) rest := by
    refine hrest.tighten (le_max_left ..) ?_ ?_
    · intro e he
      exact le_iff.mp (hs.behind e he)
    · intro e he
      exact (hrest.mem he).2.2.trans (le_max_right ..)
  rw [← hs.same]
  by_cases hx : start ≤ x
  · have hnone : mappingAt pre x = none := by
      refine mappingAt_eq_none fun e he hin => ?_
      have h₁ := le_iff.mp (hs.before e he)
      have h₂ := le_iff.mp hx
      have h₃ := lt_iff.mp hin.2
      omega
    simp only [mappingAt_append, hnone, Option.none_or, hx, true_and]
    exact hval x
  · have hlt : x.toNat < start.toNat := by
      have := mt le_iff.mpr hx
      omega
    simp [mappingAt_append, hrest'.mappingAt_below hlt,
      (hed.placed _ _ hrest').mappingAt_below hlt, hx]

/-- A turn that replaces its entry in place. -/
theorem turn_of_same {R : BitVec 32 → Option Mapping → Option Mapping → Prop}
    {body : Entry → Ctx O → Except Fault (List Entry × Ctx O)} (hR : ∀ x, R x none none)
    (h : ∀ e c kept c', body e c = .ok (kept, c') → ∃ e', kept = [e'] ∧ e'.addr = e.addr ∧
      e'.start = e.start ∧ e'.stop = e.stop ∧
      ((∃ o, e.object = .object o) → ∃ o, e'.object = .object o) ∧ c'.head = c.head ∧
      (∃ o, c'.kernel = c.kernel.setObjects o) ∧
      ∀ y, R y (some (e.mapping y)) (some (e'.mapping y))) : Turn R body := by
  intro e c kept c' hb _ _
  obtain ⟨e', rfl, ha, hs, ht, hp, hhd, ⟨o, hk⟩, hval⟩ := h e c kept c' hb
  refine ⟨Edit.of_same ha hs ht hp (by rw [hhd]) (by rw [hhd]) (by rw [hk]; rfl)
    (by rw [hk]; exact ⟨rfl, rfl⟩), by rw [hhd]; exact SameHead.refl _, fun y => ?_⟩
  by_cases hy : e.start ≤ y ∧ y < e.stop
  · rw [mappingAt_cons_pos hy, mappingAt_cons_pos (by rwa [hs, ht])]
    exact hval y
  · rw [mappingAt_cons_neg hy, mappingAt_cons_neg (by rwa [hs, ht])]
    exact hR y

/-! ## Attributes -/

/-- An operation on a range whose loop keeps the addresses of the entries keeps the map. -/
theorem StartRange.kept_loop {R : BitVec 32 → Option Mapping → Option Mapping → Prop}
    {body : Entry → Ctx O → Except Fault (List Entry × Ctx O)}
    (hs : StartRange m k start found pre rest c q) (hg : Good k.nextEntry m)
    (hp : Plain m.entries) (hR : ∀ x, R x none none) (hbody : Turn R body)
    (hkeep : ∀ e c kept c', body e c = .ok (kept, c') → e.addr ∈ addrs kept)
    (h : overRange L body stop rest c = .ok (rest', c')) :
    Kept m k ⟨c'.head, pre ++ rest'⟩ c'.kernel ∧
      OnRange R start stop m.entries (pre ++ rest') := by
  obtain ⟨hed, hhd, hval⟩ := hs.loop hg hp hR hbody c rfl rfl rfl h
  obtain ⟨hmin, hmax, hmain, hhint, hfree⟩ := (hs.head.trans hhd).eqs
  have hsub : addrs m.entries ⊆ addrs (pre ++ rest') := by
    refine List.Subset.trans hs.keeps ?_
    rw [addrs_append, addrs_append]
    exact List.append_subset.mpr ⟨List.subset_append_left .., List.subset_append_of_subset_right _
      (overRange_keeps hkeep h)⟩
  refine ⟨Kept.of_edit hg hp hed hmin hmax hmain ?_ ?_, hval⟩
  · rw [hhint]
    exact hs.live.subset hsub
  · rw [hfree]
    exact hg.firstFree.subset hsub

/-- What a range is changed to by a function on mappings. -/
abbrev ByMap (f : Mapping → Mapping) (_ : BitVec 32) (o n : Option Mapping) : Prop := n = o.map f

/-- The range of an operation is clamped to the map, which makes no difference to the entries. -/
theorem OnRange.clamp {R : BitVec 32 → Option Mapping → Option Mapping → Prop} {n : ℕ}
    (hg : Good n m) (hg' : Placed m.minOffset.toNat m.maxOffset.toNat l)
    (hR : ∀ x, R x none none) {s t : BitVec 32} (hst : rangeCheck m.toHeader start stop = (s, t))
    (h : OnRange R s t m.entries l) : OnRange R start stop m.entries l := by
  intro x
  by_cases hin : m.minOffset ≤ x ∧ x < m.maxOffset
  · have hiff : s ≤ x ∧ x < t ↔ start ≤ x ∧ x < stop := by
      obtain ⟨rfl, rfl⟩ := Prod.mk.inj hst
      rw [le_iff, lt_iff] at hin
      split_ifs <;> simp only [gt_iff_lt, lt_iff, le_iff] at * <;> omega
    rw [← hiff]
    exact h x
  · have hout : x.toNat < m.minOffset.toNat ∨ m.maxOffset.toNat ≤ x.toNat := by
      rw [le_iff, lt_iff] at hin
      omega
    have hnone : ∀ {l'}, Placed m.minOffset.toNat m.maxOffset.toNat l' → mappingAt l' x = none := by
      intro l' hl'
      rcases hout with hout | hout
      · exact hl'.mappingAt_below hout
      · exact hl'.mappingAt_above hout
    rw [hnone hg.placed, hnone hg']
    exact ⟨fun _ => hR x, fun _ => rfl⟩

/-- The entries of a map after an operation lie between the bounds that it had before. -/
theorem Kept.placed (h : Kept m k m' k') :
    Placed m.minOffset.toNat m.maxOffset.toNat m'.entries := by
  have := h.good.placed
  rwa [h.minOffset, h.maxOffset] at this

theorem byMap_none (f : Mapping → Mapping) (x : BitVec 32) : ByMap f x none none := rfl

/-- What `vm_map_protect` changes a mapping to. -/
def Mapping.protect (newProt : BitVec 32) (setMax : Bool) (o : Mapping) : Mapping :=
  { o with protection := if setMax then newProt &&& o.protection else newProt }

theorem protect_turn (newProt : BitVec 32) (setMax : Bool) :
    Turn (O := O) (ByMap (Mapping.protect newProt setMax))
      fun e c => .ok ([protectEntry newProt setMax e], c) := by
  refine turn_of_same (fun _ => rfl) fun e c kept c' hb => ?_
  cases hb
  refine ⟨_, rfl, ?_, ?_, ?_, ?_, rfl, ⟨c.kernel.objects, rfl⟩, fun y => ?_⟩
  all_goals cases setMax <;> simp [protectEntry, Entry.mapping, Mapping.protect]

/-- `vm_map_protect` changes the protection of the range, or nothing when it fails. -/
theorem vmMapProtect_spec {newProt : BitVec 32} {setMax : Bool} {v : Kern}
    (hg : Good k.nextEntry m) (hp : Plain m.entries)
    (h : vmMapProtect L m k start stop newProt setMax = .ok (v, m', k')) :
    Kept m k m' k' ∧ if v = .success
      then OnRange (ByMap (Mapping.protect newProt setMax)) start stop m.entries m'.entries
      else mappingAt m'.entries = mappingAt m.entries := by
  rw [vmMapProtect] at h
  generalize hst : rangeCheck m.toHeader start stop = st at h
  obtain ⟨s, t⟩ := st
  obtain ⟨⟨found, pre, rest, c⟩, hsr, h⟩ := Fault.bind_eq_ok.mp h
  obtain ⟨q, hs⟩ := hg.startRange hsr
  dsimp only at h
  split_ifs at h with hany
  · cases h
    refine ⟨hs.kept hg hp, ?_⟩
    rw [if_neg (by simp)]
    exact funext hs.same
  · obtain ⟨⟨rest', c'⟩, hloop, h⟩ := Fault.bind_eq_ok.mp h
    cases h
    obtain ⟨hk, hval⟩ := hs.kept_loop hg hp (byMap_none _) (protect_turn newProt setMax)
      (fun e c kept c' hb => by cases hb; cases setMax <;> simp [protectEntry]) hloop
    refine ⟨hk, ?_⟩
    rw [if_pos rfl]
    exact OnRange.clamp hg hk.placed (byMap_none _) hst hval

/-- What `vm_map_inherit` changes a mapping to. -/
def Mapping.inherit (i : Inherit) (o : Mapping) : Mapping := { o with inheritance := i }

theorem inherit_turn (i : Inherit) :
    Turn (O := O) (ByMap (Mapping.inherit i)) fun e c => .ok ([{ e with inheritance := i }], c) := by
  refine turn_of_same (fun _ => rfl) fun e c kept c' hb => ?_
  cases hb
  exact ⟨_, rfl, rfl, rfl, rfl, id, rfl, ⟨c.kernel.objects, rfl⟩, fun y => rfl⟩

/-- `vm_map_inherit` changes the inheritance of the range, or nothing when it is asked for a value
that it does not know. -/
theorem vmMapInherit_spec {newInheritance : BitVec 32} {v : Kern} (hg : Good k.nextEntry m)
    (hp : Plain m.entries)
    (h : vmMapInherit L m k start stop newInheritance = .ok (v, m', k')) :
    Kept m k m' k' ∧ match Inherit.ofInt newInheritance with
      | some i => v = .success ∧
          OnRange (ByMap (Mapping.inherit i)) start stop m.entries m'.entries
      | none => v = .invalidArgument ∧ m' = m := by
  rw [vmMapInherit] at h
  cases hi : Inherit.ofInt newInheritance with
  | none =>
    rw [hi] at h
    cases h
    exact ⟨Kept.refl hg hp, rfl, rfl⟩
  | some i =>
    rw [hi] at h
    generalize hst : rangeCheck m.toHeader start stop = st at h
    obtain ⟨s, t⟩ := st
    obtain ⟨⟨found, pre, rest, c⟩, hsr, h⟩ := Fault.bind_eq_ok.mp h
    obtain ⟨q, hs⟩ := hg.startRange hsr
    obtain ⟨⟨rest', c'⟩, hloop, h⟩ := Fault.bind_eq_ok.mp h
    cases h
    obtain ⟨hk, hval⟩ := hs.kept_loop hg hp (byMap_none _) (inherit_turn i)
      (fun e c kept c' hb => by cases hb; simp) hloop
    exact ⟨hk, rfl, OnRange.clamp hg hk.placed (byMap_none _) hst hval⟩

/-! ## Removal -/

/-- What a removed address is mapped to. -/
abbrev Unmapped (_ : BitVec 32) (_ n : Option Mapping) : Prop := n = none

theorem unmapped_none (x : BitVec 32) : Unmapped x none none := rfl

theorem delete_turn :
    Turn Unmapped (deleteEntry L (release L)) := by
  intro e c kept c' hb _ ho
  obtain ⟨o, ho⟩ := ho
  obtain ⟨o₁, -, hb⟩ := Fault.bind_eq_ok.mp hb
  obtain ⟨o₂, -, hb⟩ := Fault.bind_eq_ok.mp hb
  obtain ⟨k₁, hk, hb⟩ := Fault.bind_eq_ok.mp hb
  rw [ho, release] at hk
  obtain ⟨o₃, -, hk⟩ := Fault.bind_eq_ok.mp hk
  cases hk
  cases hb
  refine ⟨⟨?_, ?_, ?_, le_rfl, ?_, ?_, ?_, ?_⟩, ⟨_, _, rfl⟩, fun y => rfl⟩
  · intro a b h
    exact h.1.trans (h.2.1.le.trans h.2.2)
  · simp [Ctx.unlink, Ctx.setObjects]
  · simp [Ctx.unlink, Ctx.setObjects]
  · intro n hn
    exact absurd hn List.not_mem_nil
  · intro _ _
    exact List.nodup_nil
  · intro _
    simp [Plain]
  · intro _
    exact ⟨rfl, rfl⟩

/-- The header or a live entry has a start. -/
theorem startOf_spec {h : Header} {y : BitVec 32} (hs : startOf h l q = .ok y)
    (hq : Live l q) : (q = none ∧ y = h.minOffset) ∨
      ∃ e ∈ l, q = some e.addr ∧ y = e.start := by
  cases q with
  | none =>
    cases hs
    exact Or.inl ⟨rfl, rfl⟩
  | some n =>
    simp only [startOf] at hs
    split at hs
    · cases hs
    · rename_i e he
      cases hs
      have := List.find?_some he
      obtain rfl : e.addr = n := by simpa using this
      exact Or.inr ⟨e, List.mem_of_find?_eq_some he, rfl, rfl⟩

/-- The two cached pointers are dropped to the entry before the range, and nothing else changes. -/
theorem dropPointers_spec {y : BitVec 32} {h : Header} (hq : Live (pre ++ rest) h.firstFree)
    (hy : startOf h (pre ++ rest) h.firstFree = .ok y) (hrest : ∀ e ∈ rest, start ≤ e.start)
    (hhint : found = false → h.hint = lastAddr pre) (l : List Entry) :
    Live (pre ++ l) (dropPointers found start y pre h).hint ∧
      Live (pre ++ l) (dropPointers found start y pre h).firstFree := by
  have hhint' : (dropPointers found start y pre h).hint = lastAddr pre := by
    simp only [dropPointers]
    cases found with
    | true => split_ifs <;> first | rfl | contradiction
    | false => split_ifs <;> first | exact hhint rfl | contradiction
  refine ⟨hhint' ▸ live_lastAddr, ?_⟩
  have hfree : (dropPointers found start y pre h).firstFree =
      if y ≥ start then lastAddr pre else h.firstFree := by
    simp only [dropPointers]
    cases found <;> split_ifs <;> rfl
  rw [hfree]
  split_ifs with hge
  · exact live_lastAddr
  · -- what begins before the range is not in it
    rcases startOf_spec hy hq with ⟨hnone, -⟩ | ⟨e, he, hsome, rfl⟩
    · rw [hnone]
      exact live_none
    · rw [hsome, live_some, addrs_append]
      rcases List.mem_append.mp he with he | he
      · exact List.mem_append_left _ (addr_mem he)
      · exact absurd (hrest e he) hge

/-- `vm_map_remove` unmaps the range. -/
theorem vmMapRemove_spec (hg : Good k.nextEntry m) (hp : Plain m.entries)
    (h : vmMapRemove L m k start stop = .ok (m', k')) :
    Kept m k m' k' ∧ OnRange Unmapped start stop m.entries m'.entries := by
  rw [vmMapRemove] at h
  generalize hst : rangeCheck m.toHeader start stop = st at h
  obtain ⟨s, t⟩ := st
  obtain ⟨⟨found, pre, rest, c⟩, hsr, h⟩ := Fault.bind_eq_ok.mp h
  obtain ⟨q, hs⟩ := hg.startRange hsr
  obtain ⟨y, hy, h⟩ := Fault.bind_eq_ok.mp h
  obtain ⟨⟨rest', c'⟩, hloop, h⟩ := Fault.bind_eq_ok.mp h
  cases h
  obtain ⟨hmin, hmax, hmain, hhint, hfree⟩ := hs.head.eqs
  have hcounts : ∀ h : Header, (dropPointers found s y pre h).nentries = h.nentries ∧
      (dropPointers found s y pre h).size = h.size ∧
      (dropPointers found s y pre h).minOffset = h.minOffset ∧
      (dropPointers found s y pre h).maxOffset = h.maxOffset ∧
      (dropPointers found s y pre h).isMainMap = h.isMainMap := by
    intro h
    simp only [dropPointers]
    split_ifs <;> exact ⟨rfl, rfl, rfl, rfl, rfl⟩
  obtain ⟨hdn, hds, hdmin, hdmax, hdmain⟩ := hcounts c.head
  have hturn : Turn Unmapped (deleteEntry L (release L)) := delete_turn
  obtain ⟨hed, hhd, hval⟩ := hs.loop hg hp unmapped_none hturn
    { c with head := dropPointers found s y pre c.head } hdn hds rfl hloop
  obtain ⟨hmin', hmax', hmain', hhint', hfree'⟩ := hhd.eqs
  have hlive : Live (pre ++ rest) c.head.firstFree := by
    rw [hfree]
    exact hg.firstFree.subset hs.keeps
  obtain ⟨hh, hf⟩ := dropPointers_spec hlive hy hs.behind
    (fun hfalse => hhint.trans (hs.between hfalse)) rest'
  have hkept : Kept m k ⟨c'.head, pre ++ rest'⟩ c'.kernel :=
    Kept.of_edit hg hp hed (hmin'.trans (hdmin.trans hmin)) (hmax'.trans (hdmax.trans hmax))
      (hmain'.trans (hdmain.trans hmain)) (hhint'.symm ▸ hh) (hfree'.symm ▸ hf)
  exact ⟨hkept, OnRange.clamp hg hkept.placed unmapped_none hst hval⟩

/-! ## Wiring -/

/-- An address is mapped to what it was. -/
abbrev Unchanged (_ : BitVec 32) (o n : Option Mapping) : Prop := n = o

theorem unchanged_none (x : BitVec 32) : Unchanged x none none := rfl

theorem OnRange.eq_of_unchanged (h : OnRange Unchanged start stop l l') :
    mappingAt l' = mappingAt l := by
  funext x
  by_cases hx : start ≤ x ∧ x < stop
  · exact (h x).1 hx
  · exact (h x).2 hx

theorem unwire_turn : Turn Unchanged (unwireTurn L) := by
  refine turn_of_same unchanged_none fun e c kept c' hb => ?_
  rw [unwireTurn] at hb
  split_ifs at hb
  · obtain ⟨o, -, hb⟩ := Fault.bind_eq_ok.mp hb
    cases hb
    exact ⟨_, rfl, rfl, rfl, rfl, id, rfl, ⟨o, rfl⟩, fun y => rfl⟩
  · cases hb
    exact ⟨_, rfl, rfl, rfl, rfl, id, rfl, ⟨c.kernel.objects, rfl⟩, fun y => rfl⟩

theorem unwireTurn_keeps {kept : List Entry} (h : unwireTurn L e c = .ok (kept, c')) :
    e.addr ∈ addrs kept := by
  rw [unwireTurn] at h
  split_ifs at h
  · obtain ⟨o, -, h⟩ := Fault.bind_eq_ok.mp h
    cases h
    exact List.mem_cons_self
  · cases h
    exact List.mem_cons_self

/-- Unwiring changes nothing of what the entries stand for. -/
theorem vmMapUnwire_spec {v : Kern} (hg : Good k.nextEntry m) (hp : Plain m.entries)
    (h : vmMapUnwire L m k start stop = .ok (v, m', k')) :
    Kept m k m' k' ∧ mappingAt m'.entries = mappingAt m.entries := by
  rw [vmMapUnwire] at h
  generalize rangeCheck m.toHeader start stop = st at h
  obtain ⟨s, t⟩ := st
  obtain ⟨⟨found, pre, rest, c⟩, hsr, h⟩ := Fault.bind_eq_ok.mp h
  obtain ⟨q, hs⟩ := hg.startRange hsr
  dsimp only at h
  split_ifs at h with hany
  · cases h
    exact ⟨hs.kept hg hp, funext hs.same⟩
  · obtain ⟨⟨rest', c'⟩, hloop, h⟩ := Fault.bind_eq_ok.mp h
    cases h
    obtain ⟨hk, hval⟩ := hs.kept_loop hg hp unchanged_none unwire_turn
      (fun _ _ _ _ hb => unwireTurn_keeps hb) hloop
    exact ⟨hk, hval.eq_of_unchanged⟩

/-- The protection and the inheritance of a mapping. -/
def Mapping.attributes (o : Mapping) : BitVec 32 × Inherit := (o.protection, o.inheritance)

/-- An address is mapped as before, but for the object. -/
abbrev SameAttributes (_ : BitVec 32) (o n : Option Mapping) : Prop :=
  n.map Mapping.attributes = o.map Mapping.attributes

theorem sameAttributes_none (x : BitVec 32) : SameAttributes x none none := rfl

/-- A newly wired entry gets an object, and stays the same otherwise. -/
theorem makeObject_spec {o o' : O} {e' : Entry} (h : makeObject L e o = .ok (e', o')) :
    e'.addr = e.addr ∧ e'.start = e.start ∧ e'.stop = e.stop ∧
      ((∃ o, e.object = .object o) → ∃ o, e'.object = .object o) ∧
      e'.protection = e.protection ∧ e'.inheritance = e.inheritance := by
  rw [makeObject] at h
  split at h
  · cases h
    exact ⟨rfl, rfl, rfl, id, rfl, rfl⟩
  · split_ifs at h
    · obtain ⟨⟨n, offset, o₁⟩, -, h⟩ := Fault.bind_eq_ok.mp h
      cases h
      exact ⟨rfl, rfl, rfl, fun _ => ⟨_, rfl⟩, rfl, rfl⟩
    · obtain ⟨⟨n, o₁⟩, -, h⟩ := Fault.bind_eq_ok.mp h
      cases h
      exact ⟨rfl, rfl, rfl, fun _ => ⟨_, rfl⟩, rfl, rfl⟩
    · cases h
      exact ⟨rfl, rfl, rfl, id, rfl, rfl⟩

theorem wire_turn : Turn SameAttributes (wireTurn L) := by
  refine turn_of_same sameAttributes_none fun e c kept c' hb => ?_
  rw [wireTurn] at hb
  split_ifs at hb
  · obtain ⟨⟨e', o⟩, hm, hb⟩ := Fault.bind_eq_ok.mp hb
    cases hb
    obtain ⟨ha, hs, ht, ho, hprot, hinh⟩ := makeObject_spec hm
    refine ⟨e', rfl, ha, hs, ht, ho, rfl, ⟨o, rfl⟩, fun y => ?_⟩
    simp only [SameAttributes, Option.map_some, Mapping.attributes, Entry.mapping, hprot, hinh]
  · cases hb
    exact ⟨_, rfl, rfl, rfl, rfl, id, rfl, ⟨c.kernel.objects, rfl⟩, fun y => rfl⟩

theorem wireTurn_keeps {kept : List Entry} (h : wireTurn L e c = .ok (kept, c')) :
    e.addr ∈ addrs kept := by
  rw [wireTurn] at h
  split_ifs at h
  · obtain ⟨⟨e', o⟩, hm, h⟩ := Fault.bind_eq_ok.mp h
    cases h
    have := (makeObject_spec hm).1
    simp [this]
  · cases h
    exact List.mem_cons_self

/-- Two maps in the middle of an operation differ in the hint and the objects only. -/
structure HintOnly (c c' : Ctx O) (l : List Entry) : Prop where
  head : ∃ q, c'.head = c.head.saveHint q ∧ (q = c.head.hint ∨ Live l q)
  kernel : ∃ o, c'.kernel = c.kernel.setObjects o

theorem HintOnly.edit (h : HintOnly c c' l) (r : List Entry) : Edit c c' r r := by
  obtain ⟨⟨q, hq, -⟩, ⟨o, ho⟩⟩ := h
  refine ⟨fun _ _ h => h, by rw [hq]; rfl, by rw [hq]; rfl, by rw [ho]; exact le_rfl,
    fun _ h => Or.inl h, fun _ h => h, id, fun _ => by rw [ho]; exact ⟨rfl, rfl⟩⟩

theorem HintOnly.trans {c'' : Ctx O} (h : HintOnly c c' l) (h' : HintOnly c' c'' l) :
    HintOnly c c'' l := by
  obtain ⟨⟨q, hq, hq'⟩, ⟨o, ho⟩⟩ := h
  obtain ⟨⟨q₁, hq₁, hq₁'⟩, ⟨o₁, ho₁⟩⟩ := h'
  refine ⟨⟨q₁, by rw [hq₁, hq]; rfl, ?_⟩, ⟨o₁, by rw [ho₁, ho]; rfl⟩⟩
  rcases hq₁' with rfl | hl
  · rw [hq]
    exact hq'
  · exact Or.inr hl

theorem HintOnly.mono (h : HintOnly c c' l) (hl : addrs l ⊆ addrs l') : HintOnly c c' l' :=
  ⟨h.head.imp fun _ hq => ⟨hq.1, hq.2.imp_right fun h => h.subset hl⟩, h.kernel⟩

/-- Entries that differ in the wiring count. -/
def SameBut (l l' : List Entry) : Prop :=
  List.Forall₂ (fun e e' => ∃ n, e' = { e with wiredCount := n }) l l'

/-- The second pass of wiring changes wiring counts, the hint, and the objects. -/
theorem wirePass_spec {failed failed' : Option (BitVec 32 × BitVec 32)}
    (h : wirePass L stop failed l c = .ok (failed', l', c')) :
    SameBut l l' ∧ HintOnly c c' l := by
  induction l generalizing failed c l' with
  | nil =>
    cases h
    exact ⟨List.Forall₂.nil, ⟨⟨_, rfl, Or.inl rfl⟩, ⟨_, rfl⟩⟩⟩
  | cons e rest ih =>
    rw [wirePass.eq_def] at h
    dsimp only at h
    have hrefl : ∀ l : List Entry, SameBut l l := by
      intro l
      exact List.forall₂_same.mpr fun e _ => ⟨e.wiredCount, rfl⟩
    have hmono : addrs rest ⊆ addrs (e :: rest) := List.subset_cons_self ..
    by_cases hlt : e.start < stop
    · rw [if_pos hlt] at h
      cases failed with
      | some f =>
        obtain ⟨⟨failed₁, rest', c₁⟩, hgo, h⟩ := Fault.bind_eq_ok.mp h
        cases h
        obtain ⟨hsame, hhint⟩ := ih hgo
        exact ⟨List.Forall₂.cons ⟨_, rfl⟩ hsame, hhint.mono hmono⟩
      | none =>
        dsimp only at h
        by_cases hw : e.wiredCount = 1
        · rw [if_pos hw] at h
          obtain ⟨⟨rv, o⟩, -, h⟩ := Fault.bind_eq_ok.mp h
          obtain ⟨⟨failed₁, rest', c₁⟩, hgo, h⟩ := Fault.bind_eq_ok.mp h
          cases h
          obtain ⟨hsame, hhint⟩ := ih hgo
          refine ⟨List.Forall₂.cons ?_ hsame, HintOnly.trans ?_ (hhint.mono hmono)⟩
          · split_ifs
            · exact ⟨_, rfl⟩
            · exact ⟨e.wiredCount, rfl⟩
          · exact ⟨⟨_, rfl, Or.inr (live_some.mpr List.mem_cons_self)⟩, ⟨o, rfl⟩⟩
        · rw [if_neg hw] at h
          obtain ⟨⟨failed₁, rest', c₁⟩, hgo, h⟩ := Fault.bind_eq_ok.mp h
          cases h
          obtain ⟨hsame, hhint⟩ := ih hgo
          exact ⟨List.Forall₂.cons ⟨e.wiredCount, rfl⟩ hsame, hhint.mono hmono⟩
    · rw [if_neg hlt] at h
      cases h
      exact ⟨hrefl _, ⟨⟨_, rfl, Or.inl rfl⟩, ⟨_, rfl⟩⟩⟩

theorem SameBut.addrs_eq (h : SameBut l l') : addrs l' = addrs l := by
  induction h with
  | nil => rfl
  | cons he _ ih =>
    obtain ⟨n, rfl⟩ := he
    simp [ih]

theorem SameBut.mapping_eq (h : SameBut l l') : mappingAt l' = mappingAt l := by
  induction h with
  | nil => rfl
  | @cons e e' l l' he _ ih =>
    obtain ⟨n, rfl⟩ := he
    funext x
    by_cases hx : e.start ≤ x ∧ x < e.stop
    · rw [mappingAt_cons_pos hx, mappingAt_cons_pos (e := { e with wiredCount := n }) hx]
      rfl
    · rw [mappingAt_cons_neg hx, mappingAt_cons_neg (e := { e with wiredCount := n }) hx, ih]

theorem SameBut.edit (h : SameBut l l') (c : Ctx O) : Edit c c l l' := by
  induction h with
  | nil => exact Edit.refl c []
  | @cons e e' l l' he _ ih =>
    obtain ⟨n, rfl⟩ := he
    have hone : Edit c c [e] [{ e with wiredCount := n }] :=
      Edit.of_same rfl rfl rfl id rfl rfl rfl ⟨rfl, rfl⟩
    exact hone.append ih

/-- `vm_map_pageable` changes at most the objects of the range. -/
theorem vmMapPageable_spec {v : Kern} {newPageable : Bool} (hg : Good k.nextEntry m)
    (hp : Plain m.entries)
    (h : vmMapPageable L m k start stop newPageable = .ok (v, m', k')) :
    Kept m k m' k' ∧ if newPageable then mappingAt m'.entries = mappingAt m.entries
      else OnRange SameAttributes start stop m.entries m'.entries := by
  rw [vmMapPageable] at h
  split_ifs at h ⊢ with hnew
  · exact vmMapUnwire_spec hg hp h
  · generalize hst : rangeCheck m.toHeader start stop = st at h
    obtain ⟨s, t⟩ := st
    obtain ⟨⟨found, pre, rest, c⟩, hsr, h⟩ := Fault.bind_eq_ok.mp h
    obtain ⟨q, hs⟩ := hg.startRange hsr
    obtain ⟨⟨rest', c'⟩, hloop, h⟩ := Fault.bind_eq_ok.mp h
    obtain ⟨⟨failed, rest'', c''⟩, hpass, h⟩ := Fault.bind_eq_ok.mp h
    obtain ⟨hk, hval⟩ := hs.kept_loop hg hp sameAttributes_none wire_turn
      (fun _ _ _ _ hb => wireTurn_keeps hb) hloop
    obtain ⟨hsame, hhint⟩ := wirePass_spec hpass
    -- the second pass keeps the map of the first
    have hk' : Kept ⟨c'.head, pre ++ rest'⟩ c'.kernel ⟨c''.head, pre ++ rest''⟩ c''.kernel := by
      have hed : Edit c' c'' (pre ++ rest') (pre ++ rest'') :=
        (hhint.edit _).trans ((Edit.refl c'' pre).append (hsame.edit c''))
      obtain ⟨q', hq', hlive⟩ := hhint.head
      have haddrs : addrs (pre ++ rest'') = addrs (pre ++ rest') := by
        rw [addrs_append, addrs_append, hsame.addrs_eq]
      have hsub : addrs (pre ++ rest') ⊆ addrs (pre ++ rest'') := by
        rw [haddrs]
        exact List.Subset.refl _
      have hed' : Edit ⟨(VmMap.mk c'.head (pre ++ rest')).toHeader.saveHint c'.head.hint,
          c'.kernel⟩ c'' (pre ++ rest') (pre ++ rest'') := hed
      refine Kept.of_edit hk.good hk.plain hed' ?_ ?_ ?_ ?_ ?_ <;> rw [hq']
      · rfl
      · rfl
      · rfl
      · refine Live.subset (l := pre ++ rest') ?_ hsub
        rcases hlive with rfl | hlive
        · exact hk.good.hint
        · exact hlive.subset (by rw [addrs_append]; exact List.subset_append_right ..)
      · exact hk.good.firstFree.subset hsub
    have hmap : mappingAt (pre ++ rest'') = mappingAt (pre ++ rest') := by
      funext x
      rw [mappingAt_append, hsame.mapping_eq, ← mappingAt_append]
    have hval' : OnRange SameAttributes s t m.entries (pre ++ rest'') := by
      intro x
      rw [hmap]
      exact hval x
    have hkk := hk.trans hk'
    cases failed with
    | none =>
      cases h
      exact ⟨hkk, OnRange.clamp hg hkk.placed sameAttributes_none hst hval'⟩
    | some f =>
      obtain ⟨⟨v', m₁, k₁⟩, hun, h⟩ := Fault.bind_eq_ok.mp h
      cases h
      obtain ⟨hku, hmapu⟩ := vmMapUnwire_spec hk'.good hk'.plain hun
      refine ⟨hkk.trans hku, OnRange.clamp hg (hkk.trans hku).placed sameAttributes_none hst ?_⟩
      intro x
      rw [hmapu]
      exact hval' x

/-! ## Insertion -/

/-- What the addresses of a new range are mapped to: the new object, or the object of the entry
before, which then goes on. -/
def Inserted (m : VmMap) (object : Option ℕ) (offset start : BitVec 32)
    (f : BitVec 32 → Mapping) : Prop :=
  (∀ x, f x = ⟨.object object, offset + (x - start), protDefault, .copy⟩) ∨
    (object = none ∧ ∃ p ∈ m.entries, p.stop = start ∧ p.protection = protDefault ∧
      p.inheritance = .copy ∧ f = p.mapping)

/-- An address is mapped to what `f` says. -/
abbrev MappedTo (f : BitVec 32 → Mapping) (x : BitVec 32) (_ n : Option Mapping) : Prop :=
  n = some (f x)

/-- A successful insertion: the range was free, and is mapped. -/
def InsertedOn (m : VmMap) (object : Option ℕ) (offset start stop : BitVec 32)
    (l : List Entry) : Prop :=
  start < stop ∧ (∀ x, start ≤ x → x < stop → mappingAt m.entries x = none) ∧
    ∃ f, Inserted m object offset start f ∧ OnRange (MappedTo f) start stop m.entries l

theorem mappingAt_of_before (h : ∀ e ∈ pre, e.stop ≤ start) (hx : start ≤ x) :
    mappingAt pre x = none := by
  refine mappingAt_eq_none fun e he hin => ?_
  have h₁ := le_iff.mp (h e he)
  have h₂ := le_iff.mp hx
  have h₃ := lt_iff.mp hin.2
  omega

theorem mappingAt_of_behind (h : ∀ e ∈ post, stop ≤ e.start) (hx : x < stop) :
    mappingAt post x = none := by
  refine mappingAt_eq_none fun e he hin => ?_
  have h₁ := le_iff.mp (h e he)
  have h₂ := lt_iff.mp hx
  have h₃ := le_iff.mp hin.1
  omega

/-- A place in a map where a new range fits. -/
structure Room (m : VmMap) (start stop : BitVec 32) (pre post : List Entry) : Prop where
  entries : m.entries = pre ++ post
  before : ∀ e ∈ pre, e.stop ≤ start
  behind : ∀ e ∈ post, stop ≤ e.start
  nonempty : start < stop
  lower : m.minOffset ≤ start
  upper : stop ≤ m.maxOffset

namespace Room

variable (h : Room m start stop pre post)
include h

theorem placed {n : ℕ} (hg : Good n m) : Placed m.minOffset.toNat start.toNat pre ∧
    Placed stop.toNat m.maxOffset.toNat post := by
  obtain ⟨i, hpre, hpost⟩ := laid_append.mp (h.entries ▸ hg.placed)
  have := le_iff.mp h.lower
  have := le_iff.mp h.upper
  constructor
  · refine hpre.tighten (by omega) (fun e he => (hpre.mem he).1) fun e he => ?_
    exact le_iff.mp (h.before e he)
  · refine hpost.tighten (by omega) (fun e he => ?_) fun e he => (hpost.mem he).2.2
    exact le_iff.mp (h.behind e he)

theorem free (x : BitVec 32) (h₁ : start ≤ x) (h₂ : x < stop) : mappingAt m.entries x = none := by
  rw [h.entries, mappingAt_append, mappingAt_of_before h.before h₁,
    mappingAt_of_behind h.behind h₂]
  rfl

/-- A new entry in the room of a map. -/
theorem newEntry {object : Option ℕ} {offset : BitVec 32} {r : Option ℕ}
    (hg : Good k.nextEntry m) (hp : Plain m.entries)
    (hr : r = m.firstFree ∨ r = some k.nextEntry) :
    let e := newEntry k.nextEntry object offset start stop
    Kept m k
      { m with
        nentries := m.nentries + 1
        size := m.size + (stop - start)
        firstFree := r
        entries := pre ++ e :: post } { k with nextEntry := k.nextEntry + 1 } ∧
      InsertedOn m object offset start stop (pre ++ e :: post) := by
  intro e
  obtain ⟨hpre, hpost⟩ := h.placed hg
  have haddrs : ∀ n, n ∈ addrs (pre ++ e :: post) ↔ n = k.nextEntry ∨ n ∈ addrs m.entries := by
    intro n
    simp only [h.entries, addrs_append, addrs_cons, List.mem_append, List.mem_cons]
    exact ⟨by rintro (h | h | h) <;> simp_all [e, AddressMap.newEntry], by
      rintro (h | h | h) <;> simp_all [e, AddressMap.newEntry]⟩
  refine ⟨⟨⟨?_, ?_, ?_, ?_, ?_, ?_, ?_⟩, Nat.le_succ _, ?_, rfl, rfl, rfl, rfl, rfl⟩,
    h.nonempty, h.free, ?_⟩
  · exact laid_append.mpr ⟨_, hpre, le_rfl, lt_iff.mp h.nonempty, hpost⟩
  · have := hg.nentries
    rw [h.entries] at this
    simp only [List.length_append, List.length_cons, this]
    push_cast
    omega
  · rw [hg.size, h.entries, total_append, total_append, total_cons]
    show _ = total pre + ((stop - start) + total post)
    rw [add_assoc, add_comm (total post)]
  · have hnd := hg.nodup
    rw [h.entries, addrs_append] at hnd
    have hfresh : k.nextEntry ∉ addrs pre ++ addrs post := by
      rw [← addrs_append, ← h.entries]
      exact fun hn => (hg.below _ hn).ne rfl
    rw [addrs_append, addrs_cons]
    exact List.nodup_middle.mpr (List.nodup_cons.mpr ⟨hfresh, hnd⟩)
  · intro n hn
    rcases (haddrs n).mp hn with rfl | hn
    · exact Nat.lt_succ_self _
    · exact (hg.below n hn).trans (Nat.lt_succ_self _)
  · exact fun n hn => (haddrs n).mpr (Or.inr (hg.hint n hn))
  · rcases hr with rfl | rfl
    · exact fun n hn => (haddrs n).mpr (Or.inr (hg.firstFree n hn))
    · exact live_some.mpr ((haddrs _).mpr (Or.inl rfl))
  · rw [h.entries] at hp
    obtain ⟨h₁, h₂⟩ := plain_append.mp hp
    exact plain_append.mpr ⟨h₁, plain_cons.mpr ⟨⟨object, rfl⟩, h₂⟩⟩
  · refine ⟨e.mapping, Or.inl fun x => rfl, fun x => ⟨fun hx => ?_, fun hx => ?_⟩⟩
    · rw [mappingAt_append, mappingAt_of_before h.before hx.1, Option.none_or,
        mappingAt_cons_pos (e := e) hx]
    · rw [mappingAt_append, mappingAt_cons_neg (e := e) hx, ← mappingAt_append, ← h.entries]

/-- The entry before the room goes on. -/
theorem extend {offset : BitVec 32} {l : List Entry} (hpre : pre = l ++ [p]) (ht : p.stop = start)
    (hprot : p.protection = protDefault) (hinh : p.inheritance = .copy)
    (hg : Good k.nextEntry m) (hp : Plain m.entries) {o : O} :
    Kept m k
      { m with
        size := m.size + (stop - p.stop)
        entries := l ++ { p with stop := stop } :: post } (k.setObjects o) ∧
      InsertedOn m none offset start stop (l ++ { p with stop := stop } :: post) := by
  subst hpre
  obtain ⟨hpl, hpost⟩ := h.placed hg
  obtain ⟨i, hl, hip, hps, -⟩ := laid_append.mp hpl
  have hent : m.entries = l ++ p :: post := by rw [h.entries]; simp
  have haddrs : addrs (l ++ { p with stop := stop } :: post) = addrs m.entries := by
    rw [hent]
    simp
  have hpstop : p.start < p.stop := lt_iff.mpr hps
  have hstop : p.stop < stop := ht ▸ h.nonempty
  refine ⟨⟨⟨?_, ?_, ?_, ?_, ?_, ?_, ?_⟩, le_rfl, ?_, rfl, rfl, rfl, rfl, rfl⟩,
    h.nonempty, h.free, ?_⟩
  · have h₁ := lt_iff.mp hpstop
    have h₂ := lt_iff.mp hstop
    refine laid_append.mpr ⟨i, hl, hip, ?_, hpost⟩
    show p.start.toNat < stop.toNat
    omega
  · have := hg.nentries
    rw [hent] at this
    simpa using this
  · rw [hg.size, hent]
    simp only [total_append, total_cons]
    show _ = total l + ((stop - p.start) + total post)
    rw [← sub_add_sub_cancel stop p.stop p.start]
    abel
  · rw [haddrs]
    exact hg.nodup
  · rw [haddrs]
    exact hg.below
  · exact fun n hn => by rw [haddrs]; exact hg.hint n hn
  · exact fun n hn => by rw [haddrs]; exact hg.firstFree n hn
  · rw [hent] at hp
    obtain ⟨h₁, h₂⟩ := plain_append.mp hp
    obtain ⟨h₃, h₄⟩ := plain_cons.mp h₂
    exact plain_append.mpr ⟨h₁, plain_cons.mpr ⟨h₃, h₄⟩⟩
  · refine ⟨p.mapping, Or.inr ⟨rfl, p, by simp [hent], ht, hprot, hinh, rfl⟩,
      fun x => ⟨fun hx => ?_, fun hx => ?_⟩⟩
    · have hpx : p.start ≤ x := by
        have h₁ := lt_iff.mp hpstop
        have h₂ := le_iff.mp hx.1
        rw [← ht] at h₂
        exact le_iff.mpr (by omega)
      have hl' : ∀ e ∈ l, e.stop ≤ start := fun e he => h.before e (List.mem_append_left _ he)
      rw [mappingAt_append, mappingAt_of_before hl' hx.1, Option.none_or,
        mappingAt_cons_pos (e := { p with stop := stop }) ⟨hpx, hx.2⟩]
      rfl
    · rw [hent, mappingAt_append, mappingAt_append]
      congr 1
      -- outside the new range the entry covers what it did
      by_cases hin : p.start ≤ x ∧ x < p.stop
      · have hin' : p.start ≤ x ∧ x < stop := by
          have h₁ := lt_iff.mp hin.2
          have h₂ := lt_iff.mp hstop
          exact ⟨hin.1, lt_iff.mpr (by omega)⟩
        rw [mappingAt_cons_pos hin, mappingAt_cons_pos (e := { p with stop := stop }) hin']
        rfl
      · have hin' : ¬(p.start ≤ x ∧ x < stop) := by
          rw [← ht] at hx
          simp only [le_iff, lt_iff] at hin hx ⊢
          omega
        rw [mappingAt_cons_neg hin, mappingAt_cons_neg (e := { p with stop := stop }) hin']

end Room

theorem insertBetween_spec {object : Option ℕ} {offset : BitVec 32} {v : Kern}
    (hg : Good k.nextEntry m) (hp : Plain m.entries) (hr : Room m start stop pre post)
    (h : insertBetween L m k object offset start stop pre post = .ok (v, m', k')) :
    Kept m k m' k' ∧ v = .success ∧ InsertedOn m object offset start stop m'.entries := by
  obtain ⟨⟨extended, o⟩, hext, h⟩ := Fault.bind_eq_ok.mp h
  have hfree : ∀ q : Prop, ∀ d : Decidable q,
      (if q then some k.nextEntry else m.firstFree) = m.firstFree ∨
        (if q then some k.nextEntry else m.firstFree) = some k.nextEntry := by
    intro q d
    split_ifs <;> simp
  have hobj : Kept m k m (k.setObjects o) := ⟨hg, le_rfl, hp, rfl, rfl, rfl, rfl, rfl⟩
  dsimp only at h
  split at h
  · rename_i p hlast
    cases h
    -- the entry before was extended only if the conditions of `vm_map_insert` hold
    have hpre : pre = pre.dropLast ++ [p] := (List.dropLast_append_getLast? p (by simpa using hlast)).symm
    rw [hlast] at hext
    cases object with
    | some n => cases hext
    | none =>
      simp only [extendPrev] at hext
      split at hext
      · split_ifs at hext with hc
        · obtain ⟨ht, -, hinh, hprot, -, -⟩ := hc
          obtain ⟨hk, hi⟩ := hr.extend hpre ht hprot hinh hg hp
          exact ⟨hk, rfl, hi⟩
        · cases hext
      · cases hext
  · cases h
    obtain ⟨hk, hi⟩ := hr.newEntry hobj.good hp (hfree _ _)
    exact ⟨hobj.trans hk, rfl, hi⟩

/-- Where the first entry behind a place begins at `stop` or behind it, so do the others. -/
theorem Good.behind {n : ℕ} (hg : Good n m) (hent : m.entries = pre ++ post)
    (hfirst : ∀ next ∈ post.head?, stop ≤ next.start) : ∀ e ∈ post, stop ≤ e.start := by
  obtain ⟨i, -, hpl⟩ := laid_append.mp (hent ▸ hg.placed)
  cases post with
  | nil => exact fun e he => absurd he List.not_mem_nil
  | cons next post =>
    have hn := hfirst next rfl
    intro e he
    obtain rfl | he := List.mem_cons.mp he
    · exact hn
    · have h₁ := (hpl.2.2.mem he).1
      have h₂ := hpl.2.1
      unfold Entry.lo Entry.hi at h₁ h₂
      rw [le_iff] at hn ⊢
      omega

/-- `vm_map_insert` maps a free range, or changes nothing when it fails. -/
theorem vmMapInsert_spec {object : Option ℕ} {offset : BitVec 32} {v : Kern}
    (hg : Good k.nextEntry m) (hp : Plain m.entries)
    (h : vmMapInsert L m k object offset start stop = .ok (v, m', k')) :
    Kept m k m' k' ∧ if v = .success
      then InsertedOn m object offset start stop m'.entries
      else mappingAt m'.entries = mappingAt m.entries := by
  rw [vmMapInsert] at h
  split_ifs at h with hbad
  · cases h
    exact ⟨Kept.refl hg hp, by simp⟩
  · simp only [not_or, gt_iff_lt, ge_iff_le, lt_iff, le_iff, not_lt, not_le] at hbad
    obtain ⟨hmin, hmax, hlt⟩ := hbad
    obtain ⟨q, r, hl, hfit, hq, -⟩ := hg.lookupEntry start
    rw [hl] at h
    obtain ⟨_, hok, h⟩ := Fault.bind_eq_ok.mp h
    cases hok
    have hk := Kept.saveHint hg hp hq
    cases r with
    | found pre e post =>
      cases h
      exact ⟨hk, by simp⟩
    | between pre post =>
      obtain ⟨hent, hpre, hpost⟩ := hfit
      dsimp only at h
      split_ifs at h with hnext
      · cases h
        exact ⟨hk, by simp⟩
      · have hbehind : ∀ e ∈ post, stop ≤ e.start := by
          apply hg.behind hent
          intro next hmem
          rw [hmem] at hnext
          exact BitVec.not_lt.mp (by simpa using hnext)
        have hroom : Room { m with hint := q } start stop pre post :=
          ⟨hent, hpre, hbehind, lt_iff.mpr hlt, le_iff.mpr hmin, le_iff.mpr hmax⟩
        obtain ⟨hk', rfl, hi⟩ := insertBetween_spec hk.good hp hroom h
        exact ⟨hk.trans hk', by rw [if_pos rfl]; exact hi⟩

/-- The place that `vm_map_find` begins at is behind the header or a live entry. -/
theorem firstPlace_spec {n : ℕ} {entry : Option ℕ} (hg : Good n m)
    (h : firstPlace m start = .ok (m', stop, entry, post)) :
    ∃ q, m' = { m with hint := q } ∧ Live m.entries q ∧ Live m.entries entry ∧
      addrs post ⊆ addrs m.entries := by
  rw [firstPlace] at h
  split_ifs at h with hmin
  · obtain ⟨pre, rest, hs, hent, hnil, hhead⟩ := seek_live hg.firstFree
    rw [hs] at h
    obtain ⟨_, hok, h⟩ := Fault.bind_eq_ok.mp h
    cases hok
    have hsub : addrs rest ⊆ addrs m.entries := by
      rw [hent, addrs_append]
      exact List.subset_append_right ..
    dsimp only at h
    split at h
    · rename_i hfree _
      cases h
      refine ⟨m.hint, rfl, hg.hint, ?_, ?_⟩
      · rw [← hfree]
        exact hg.firstFree
      · exact List.Subset.trans (List.subset_cons_self ..) hsub
    · cases h
      exact ⟨m.hint, rfl, hg.hint, live_none, hsub⟩
  · obtain ⟨q, r, hl, hfit, hq, hbetween⟩ := hg.lookupEntry start
    rw [hl] at h
    obtain ⟨_, hok, h⟩ := Fault.bind_eq_ok.mp h
    cases hok
    refine ⟨q, ?_⟩
    cases r with
    | found pre e post' =>
      cases h
      obtain ⟨hent, -⟩ := hfit
      refine ⟨rfl, hq, ?_, ?_⟩
      · rw [hent]
        simp
      · rw [hent, addrs_append, addrs_cons]
        exact List.subset_append_of_subset_right _ (List.subset_cons_self ..)
    | between pre post' =>
      cases h
      obtain ⟨hent, -⟩ := hfit
      refine ⟨rfl, hq, ?_, ?_⟩
      · rw [hent]
        exact live_lastAddr
      · rw [hent, addrs_append]
        exact List.subset_append_right ..

/-- The loop of `vm_map_find` stops behind the entry that it began with or a later one. -/
theorem fit_spec {length maxOffset y : BitVec 32} {entry r : Option ℕ}
    (h : fit length maxOffset start entry post = some (y, r)) :
    r = entry ∨ ∃ e ∈ post, r = some e.addr := by
  induction post generalizing start entry with
  | nil =>
    rw [fit] at h
    split_ifs at h
    cases h
    exact Or.inl rfl
  | cons next rest ih =>
    rw [fit] at h
    split_ifs at h
    · cases h
      exact Or.inl rfl
    · rcases ih h with rfl | ⟨e, he, rfl⟩
      · exact Or.inr ⟨next, List.mem_cons_self, rfl⟩
      · exact Or.inr ⟨e, List.mem_cons_of_mem _ he, rfl⟩

/-- `vm_map_find` maps a free range of the length asked for, or changes nothing when it fails. -/
theorem vmMapFind_spec {object : Option ℕ} {offset addr length addr' : BitVec 32}
    {findSpace : Bool} {v : Kern} (hg : Good k.nextEntry m) (hp : Plain m.entries)
    (h : vmMapFind L m k object offset addr length findSpace = .ok (v, addr', m', k')) :
    Kept m k m' k' ∧ (findSpace = false → addr' = addr) ∧ if v = .success
      then InsertedOn m object offset addr' (addr' + length) m'.entries
      else mappingAt m'.entries = mappingAt m.entries := by
  rw [vmMapFind] at h
  cases findSpace with
  | true =>
    rw [if_pos rfl] at h
    dsimp only at h
    generalize (if addr < m.minOffset then m.minOffset else addr) = start at h
    split_ifs at h with hmax
    · cases h
      exact ⟨Kept.refl hg hp, fun _ => rfl, by simp⟩
    · obtain ⟨⟨m₁, s, entry, post⟩, hfirst, h⟩ := Fault.bind_eq_ok.mp h
      obtain ⟨q, rfl, hq, hentry, hpost⟩ := firstPlace_spec hg hfirst
      dsimp only at h
      split at h
      · cases h
        exact ⟨Kept.saveHint hg hp hq, fun _ => rfl, by simp⟩
      · rename_i y r hfit
        obtain ⟨⟨v₁, m₂, k₂⟩, hins, h⟩ := Fault.bind_eq_ok.mp h
        cases h
        have hr : Live m.entries r := by
          rcases fit_spec hfit with rfl | ⟨e, he, rfl⟩
          · exact hentry
          · exact live_some.mpr (hpost (addr_mem he))
        have hk := Kept.saveHint hg hp hr
        obtain ⟨hk', hi⟩ := vmMapInsert_spec hk.good hp hins
        exact ⟨hk.trans hk', fun hf => (nomatch hf), hi⟩
  | false =>
    rw [if_neg (by simp)] at h
    obtain ⟨⟨v₁, m₂, k₂⟩, hins, h⟩ := Fault.bind_eq_ok.mp h
    cases h
    obtain ⟨hk, hi⟩ := vmMapInsert_spec hg hp hins
    exact ⟨hk, fun _ => rfl, hi⟩

/-! ## Simplification -/

/-- `vm_map_simplify` changes nothing of what the entries stand for. -/
theorem vmMapSimplify_spec (hg : Good k.nextEntry m) (hp : Plain m.entries)
    (h : vmMapSimplify L m k start = .ok (m', k')) :
    Kept m k m' k' ∧ mappingAt m'.entries = mappingAt m.entries := by
  obtain ⟨q, r, hl, hfit, hq, -⟩ := hg.lookupEntry start
  rw [vmMapSimplify, hl] at h
  obtain ⟨_, hok, h⟩ := Fault.bind_eq_ok.mp h
  cases hok
  have hk := Kept.saveHint hg hp hq
  cases r with
  | between pre post =>
    cases h
    exact ⟨hk, rfl⟩
  | found pre e post =>
    obtain ⟨hent, hx⟩ := hfit
    dsimp only at h
    split at h
    · rename_i p object hlast hobj
      by_cases hc : p.stop = start ∧ m.isMainMap = true ∧ Continues p e
      · rw [if_pos hc] at h
        obtain ⟨o, -, h⟩ := Fault.bind_eq_ok.mp h
        cases h
        obtain ⟨hstop, -, hinh, hprot, -, -, -, -, hob, hoff⟩ := hc
        have hpre : pre = pre.dropLast ++ [p] :=
          (List.dropLast_append_getLast? p (by simpa using hlast)).symm
        generalize pre.dropLast = l at hpre
        subst hpre
        have hent' : m.entries = l ++ ([p, e] ++ post) := by rw [hent]; simp
        have hpl := hg.placed
        rw [hent'] at hpl
        obtain ⟨i, hl', hi, hps, hpe, hes, hpost⟩ := laid_append.mp hpl
        -- the two entries meet at `start`
        have hmeet : p.stop = e.start := by
          have h₁ := le_iff.mp hx.1
          unfold Entry.lo Entry.hi at hpe
          rw [hstop] at hpe ⊢
          exact BitVec.eq_of_toNat_eq (by omega)
        have hpe' : p.start < p.stop ∧ p.stop < e.stop :=
          ⟨lt_iff.mpr hps, by rw [hmeet]; exact lt_iff.mpr hes⟩
        have haddrs : ∀ n, n ∈ addrs m.entries →
            n ≠ e.addr → n ∈ addrs (l ++ { p with stop := e.stop } :: post) := by
          intro n hn hne
          rw [hent'] at hn
          simp only [addrs_append, addrs_cons, addrs_nil, List.mem_append, List.mem_cons,
            List.not_mem_nil, or_false] at hn ⊢
          tauto
        have hpmem : p.addr ∈ addrs (l ++ { p with stop := e.stop } :: post) := by
          simp
        have hmap : mappingAt (l ++ { p with stop := e.stop } :: post) =
            mappingAt m.entries := by
          funext x
          rw [hent', mappingAt_append, mappingAt_append]
          congr 1
          rw [show { p with stop := e.stop } :: post = [{ p with stop := e.stop }] ++ post from rfl,
            mappingAt_append, mappingAt_append]
          congr 1
          have hsplit : mappingAt [p, e] x = mappingAt [{ p with stop := e.stop }] x := by
            refine mappingAt_split hpe' rfl rfl hmeet.symm rfl rfl ?_
            simp only [Entry.mapping, ← hob, ← hinh, ← hprot, ← hoff, ← hmeet, mapping_clip]
          exact hsplit.symm
        refine ⟨⟨⟨?_, ?_, ?_, ?_, ?_, ?_, ?_⟩, le_rfl, ?_, rfl, rfl, rfl, rfl, rfl⟩, hmap⟩
        · refine laid_append.mpr ⟨i, hl', hi, ?_, hpost⟩
          have h₁ := lt_iff.mp hpe'.1
          have h₂ := lt_iff.mp hpe'.2
          show p.start.toNat < e.stop.toNat
          omega
        · have := hg.nentries
          rw [hent'] at this
          simp only [this, List.length_append, List.length_cons, List.length_nil]
          push_cast
          omega
        · show m.size = _
          rw [hg.size, hent']
          simp only [total_append, total_cons, total_nil, add_zero, hmeet]
          rw [← sub_add_sub_cancel e.stop e.start p.start]
          abel
        · have hnd := hg.nodup
          rw [hent'] at hnd
          simp only [addrs_append, addrs_cons, addrs_nil] at hnd ⊢
          refine hnd.sublist ?_
          exact (List.Sublist.refl _).append
            ((List.Sublist.refl _).cons_cons _ |>.trans (by simp))
        · intro n hn
          refine hg.below n ?_
          rw [hent']
          simp only [addrs_append, addrs_cons, addrs_nil, List.mem_append, List.mem_cons,
            List.not_mem_nil, or_false] at hn ⊢
          tauto
        · exact live_some.mpr hpmem
        · split_ifs with hf
          · exact live_some.mpr hpmem
          · intro n hn
            refine haddrs n (hg.firstFree n hn) ?_
            rintro rfl
            exact hf hn
        · rw [hent'] at hp
          obtain ⟨h₁, h₂⟩ := plain_append.mp hp
          obtain ⟨h₃, h₄⟩ := plain_append.mp h₂
          exact plain_append.mpr ⟨h₁, plain_cons.mpr ⟨h₃ p List.mem_cons_self, h₄⟩⟩
      · rw [if_neg hc] at h
        cases h
        exact ⟨hk, rfl⟩
    · cases h
      exact ⟨hk, rfl⟩

end AddressMap
