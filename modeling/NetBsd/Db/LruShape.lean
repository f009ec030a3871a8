import NetBsd.Db.Lru

/-!
# The list and the hash table of the LRU cache

Every cached page is on the list and in the hash table exactly once, and the routines that edit
the two keep it so.

## Main definitions

* `Shape l`: the hash table holds the pages of the list, each once

## Main results

* `lruhashget_eq_some_iff`: a lookup finds the buffer of a page
* `Shape.change`, `Shape.lruhead`, `Shape.lrugrow`, `Shape.newPage`, `Shape.rename`
-/

namespace Lru

variable {P : Type}

/-- The hash entry a list entry ought to have. -/
def Ent.hashed (e : Ent P) : CacheEnt := ⟨e.l_pgno, e.addr⟩

/-- The pages of a cache with the addresses of their buffers, in the order of the list. -/
def Cache.entries (l : Cache P) : List CacheEnt := l.list.map Ent.hashed

/-- The hash table holds the pages of the list, no page and no buffer twice, within the size. -/
structure Shape (l : Cache P) : Prop where
  pos : 0 < l.lru_csize
  addrs : (l.entries.map CacheEnt.c_lruent).Nodup
  below : ∀ c ∈ l.entries, c.c_lruent < l.fresh
  pages : (l.entries.map CacheEnt.c_pgno).Nodup
  hashed : Chained.Hashed CacheEnt.c_pgno l.lru_cache
  table : l.lru_cache.flatten.Perm l.entries
  count : l.entries.length = l.lru_cursz
  size : l.lru_cursz ≤ l.lru_csize

variable {l l' : Cache P} {a p : ℕ}

theorem Shape.addr_unique (h : Shape l) {e e' : Ent P} (he : e ∈ l.list) (he' : e' ∈ l.list)
    (ha : e.addr = e'.addr) : e = e' := by
  have hnd : (l.list.map Ent.addr).Nodup := by
    have := h.addrs
    rwa [Cache.entries, List.map_map] at this
  exact List.inj_on_of_nodup_map hnd he he' ha

theorem Shape.page_unique (h : Shape l) {e e' : Ent P} (he : e ∈ l.list) (he' : e' ∈ l.list)
    (ha : e.l_pgno = e'.l_pgno) : e = e' := by
  have hnd : (l.list.map Ent.l_pgno).Nodup := by
    have := h.pages
    rwa [Cache.entries, List.map_map] at this
  exact List.inj_on_of_nodup_map hnd he he' ha

theorem mem_entries {c : CacheEnt} : c ∈ l.entries ↔ ∃ e ∈ l.list, e.hashed = c := List.mem_map

/-- **A lookup finds the buffer of a page.** -/
theorem lruhashget_eq_some_iff (h : Shape l) {ce : CacheEnt} :
    lruhashget l p = some ce ↔ ∃ e ∈ l.list, e.l_pgno = p ∧ ce = e.hashed := by
  rw [lruhashget, Chained.find_eq_some_iff h.hashed]
  · rw [h.table.mem_iff, mem_entries]
    constructor
    · rintro ⟨⟨e, he, rfl⟩, hp⟩
      exact ⟨e, he, hp, rfl⟩
    · rintro ⟨e, he, hp, rfl⟩
      exact ⟨⟨e, he, rfl⟩, hp⟩
  · intro c hc c' hc' heq
    exact List.inj_on_of_nodup_map h.pages (h.table.mem_iff.mp hc) (h.table.mem_iff.mp hc') heq

theorem lruhashget_eq_none_iff (h : Shape l) :
    lruhashget l p = none ↔ ∀ e ∈ l.list, e.l_pgno ≠ p := by
  rw [lruhashget, Chained.find_none_iff h.hashed]
  constructor
  · intro hn e he
    exact hn e.hashed (h.table.mem_iff.mpr (mem_entries.mpr ⟨e, he, rfl⟩))
  · intro hn c hc
    obtain ⟨e, he, rfl⟩ := mem_entries.mp (h.table.mem_iff.mp hc)
    exact hn e he

/-- A cache whose list is the other's in another order, buffers and flags apart. -/
theorem Shape.of_perm (h : Shape l) (hp : l'.entries.Perm l.entries)
    (ht : l'.lru_cache = l.lru_cache) (hc : l'.lru_cursz = l.lru_cursz)
    (hf : l'.fresh = l.fresh) : Shape l' where
  pos := by rw [Cache.lru_csize, ht]; exact h.pos
  addrs := (hp.map _).nodup_iff.mpr h.addrs
  below := fun c hc' => by rw [hf]; exact h.below c (hp.mem_iff.mp hc')
  pages := (hp.map _).nodup_iff.mpr h.pages
  hashed := by rw [ht]; exact h.hashed
  table := by rw [ht]; exact h.table.trans hp.symm
  count := by rw [hp.length_eq, hc]; exact h.count
  size := by rw [hc, Cache.lru_csize, ht]; exact h.size

theorem mem_change {f : Ent P → Ent P} {x : Ent P} :
    x ∈ (l.change a f).list ↔ ∃ e ∈ l.list, (if e.addr = a then f e else e) = x := List.mem_map

/-- A change of a buffer or of flags. -/
theorem entries_change {f : Ent P → Ent P}
    (hf : ∀ e ∈ l.list, e.addr = a → (f e).hashed = e.hashed) :
    (l.change a f).entries = l.entries := by
  unfold Cache.entries Cache.change
  rw [List.map_map]
  refine List.map_congr_left fun e he => ?_
  show Ent.hashed (if e.addr = a then f e else e) = _
  split
  · next h => exact hf e he h
  · rfl

theorem Shape.change (h : Shape l) {f : Ent P → Ent P}
    (hf : ∀ e ∈ l.list, e.addr = a → (f e).hashed = e.hashed) : Shape (l.change a f) :=
  h.of_perm (List.Perm.of_eq (entries_change hf)) rfl rfl rfl

/-- Moving an entry to the head is a change of order. -/
theorem lruhead_perm (list : List (Ent P)) : (lruhead a list).Perm list := by
  unfold lruhead
  cases hf : list.find? (·.addr = a) with
  | none => exact List.Perm.refl _
  | some e =>
    obtain ⟨he, l, r, rfl, hl⟩ := List.find?_eq_some_iff_append.mp hf
    have herase : (l ++ e :: r).eraseP (·.addr = a) = l ++ r := by
      rw [List.eraseP_append_right _ (by simpa using hl)]
      simp only [List.eraseP_cons, he, cond_true]
    simp only [herase]
    exact List.perm_middle.symm

theorem Shape.lruhead (h : Shape l) : Shape { l with list := lruhead a l.list } :=
  h.of_perm ((lruhead_perm l.list).map _) rfl rfl rfl

theorem Shape.lrugrow (h : Shape l) :
    Shape (lrugrow l) ∧ (lrugrow l).lru_csize = l.lru_csize + 1 := by
  obtain ⟨hp, hlen, hh⟩ := Chained.rehash_perm CacheEnt.c_pgno (t := l.lru_cache)
    (Nat.succ_pos l.lru_csize)
  have hsize : (Lru.lrugrow l).lru_csize = l.lru_csize + 1 := hlen
  exact ⟨⟨by rw [hsize]; exact Nat.succ_pos _, h.addrs, h.below, h.pages, hh, hp.trans h.table,
    h.count, by rw [hsize]; exact Nat.le_succ_of_le h.size⟩, hsize⟩

/-- A new page with a new buffer. -/
theorem Shape.cons (h : Shape l) {e : Ent P} (ha : e.addr = l.fresh)
    (hp : ∀ x ∈ l.list, x.l_pgno ≠ e.l_pgno) (hsize : l.lru_cursz < l.lru_csize) :
    Shape { l with
      list := e :: l.list
      lru_cache := Chained.put CacheEnt.c_pgno l.lru_cache ⟨e.l_pgno, e.addr⟩
      lru_cursz := l.lru_cursz + 1
      fresh := l.fresh + 1 } := by
  have hlen : (Chained.put CacheEnt.c_pgno l.lru_cache ⟨e.l_pgno, e.addr⟩).length =
      l.lru_csize := Chained.length_put
  refine ⟨?_, ?_, ?_, ?_, Chained.hashed_put h.hashed, ?_, ?_, ?_⟩
  · exact Nat.lt_of_lt_of_eq h.pos hlen.symm
  · refine List.nodup_cons.mpr ⟨fun hmem => ?_, h.addrs⟩
    obtain ⟨c, hc, hce⟩ := List.mem_map.mp hmem
    have := h.below c hc
    have hce' : c.c_lruent = e.addr := hce
    omega
  · intro c hc
    rcases List.mem_cons.mp hc with rfl | hc
    · show e.addr < l.fresh + 1
      omega
    · exact Nat.lt_succ_of_lt (h.below c hc)
  · refine List.nodup_cons.mpr ⟨fun hmem => ?_, h.pages⟩
    obtain ⟨c, hc, hce⟩ := List.mem_map.mp hmem
    obtain ⟨x, hx, rfl⟩ := mem_entries.mp hc
    exact hp x hx hce
  · exact (Chained.put_perm h.pos).trans (h.table.cons _)
  · exact congrArg (· + 1) h.count
  · show l.lru_cursz + 1 ≤ (Chained.put _ _ _).length
    rw [hlen]
    exact hsize

/-- The list without an entry, as hash entries. -/
theorem entries_split (h : Shape l) {e : Ent P} (he : e ∈ l.list) (q : ℕ) :
    ∃ rest, l.entries.Perm (e.hashed :: rest) ∧
      (l.change e.addr fun e => { e with l_pgno := q }).entries.Perm (⟨q, e.addr⟩ :: rest) := by
  obtain ⟨l₁, l₂, hl⟩ := List.append_of_mem he
  have hother : ∀ x ∈ l₁ ++ l₂, x.addr ≠ e.addr := by
    have hnd : (l.list.map Ent.addr).Nodup := by
      have := h.addrs
      rwa [Cache.entries, List.map_map] at this
    rw [hl, List.map_append, List.map_cons] at hnd
    have := (List.nodup_middle.mp hnd)
    obtain ⟨hnot, -⟩ := List.nodup_cons.mp this
    rw [← List.map_append] at hnot
    intro x hx hxe
    exact hnot (List.mem_map.mpr ⟨x, hx, hxe⟩)
  have hkeep : ∀ l₀ : List (Ent P), (∀ x ∈ l₀, x.addr ≠ e.addr) →
      l₀.map (fun x => if x.addr = e.addr then { x with l_pgno := q } else x) = l₀ := by
    intro l₀ h₀
    conv_rhs => rw [← List.map_id l₀]
    exact List.map_congr_left fun x hx => if_neg (h₀ x hx)
  refine ⟨(l₁ ++ l₂).map Ent.hashed, ?_, ?_⟩
  · rw [Cache.entries, hl]
    simp only [List.map_append, List.map_cons]
    exact List.perm_middle
  · unfold Cache.entries Cache.change
    rw [hl]
    simp only [List.map_append, List.map_cons, if_true]
    rw [hkeep l₁ fun x hx => hother x (List.mem_append_left _ hx),
      hkeep l₂ fun x hx => hother x (List.mem_append_right _ hx)]
    exact List.perm_middle

/-- A buffer goes from its page to another: out of the hash table under one, and in under the
other. -/
theorem Shape.rename (h : Shape l) {e : Ent P} (he : e ∈ l.list) {q : ℕ}
    (hq : ∀ x ∈ l.list, x.l_pgno ≠ q) {list' : List (Ent P)}
    (hlist : list'.Perm (l.change e.addr fun e => { e with l_pgno := q }).list) :
    Shape { l with
      list := list'
      lru_cache := Chained.put CacheEnt.c_pgno (Chained.del CacheEnt.c_pgno l.lru_cache e.l_pgno)
        ⟨q, e.addr⟩ } := by
  obtain ⟨rest, hbefore, hafter⟩ := entries_split h he q
  have hafter' : (list'.map Ent.hashed).Perm (⟨q, e.addr⟩ :: rest) :=
    (hlist.map _).trans hafter
  have hfind : Chained.find CacheEnt.c_pgno l.lru_cache e.l_pgno = some e.hashed :=
    (lruhashget_eq_some_iff h).mpr ⟨e, he, rfl, rfl⟩
  have hdel : (Chained.del CacheEnt.c_pgno l.lru_cache e.l_pgno).flatten.Perm rest := by
    have := (Chained.del_perm hfind).symm.trans (h.table.trans hbefore)
    exact List.Perm.cons_inv this
  have hlen : (Chained.put CacheEnt.c_pgno (Chained.del CacheEnt.c_pgno l.lru_cache e.l_pgno)
      ⟨q, e.addr⟩).length = l.lru_csize := Chained.length_put.trans Chained.length_del
  have haddrs : (list'.map Ent.hashed).map CacheEnt.c_lruent |>.Perm
      (l.entries.map CacheEnt.c_lruent) :=
    (hafter'.map _).trans (hbefore.map CacheEnt.c_lruent).symm
  refine ⟨Nat.lt_of_lt_of_eq h.pos hlen.symm, haddrs.nodup_iff.mpr h.addrs, fun c hc => ?_, ?_,
    Chained.hashed_put (Chained.hashed_del h.hashed), ?_, ?_, Nat.le_trans h.size (Nat.le_of_eq hlen.symm)⟩
  · rcases List.mem_cons.mp (hafter'.mem_iff.mp hc) with rfl | hc
    · exact h.below e.hashed (mem_entries.mpr ⟨e, he, rfl⟩)
    · exact h.below c (hbefore.mem_iff.mpr (List.mem_cons_of_mem _ hc))
  · refine (hafter'.map _).nodup_iff.mpr (List.nodup_cons.mpr ⟨fun hmem => ?_, ?_⟩)
    · obtain ⟨c, hc, hcq⟩ := List.mem_map.mp hmem
      obtain ⟨x, hx, rfl⟩ :=
        mem_entries.mp (hbefore.mem_iff.mpr (List.mem_cons_of_mem _ hc))
      exact hq x hx hcq
    · have := (hbefore.map CacheEnt.c_pgno).nodup_iff.mp h.pages
      exact (List.nodup_cons.mp this).2
  · have hdpos : 0 < (Chained.del CacheEnt.c_pgno l.lru_cache e.l_pgno).length := by
      rw [Chained.length_del]
      exact h.pos
    exact (Chained.put_perm hdpos).trans ((hdel.cons _).trans hafter'.symm)
  · have h₁ := hafter'.length_eq
    have h₂ := hbefore.length_eq
    have h₃ := h.count
    show (list'.map Ent.hashed).length = l.lru_cursz
    simp only [List.length_cons] at h₁ h₂
    omega

end Lru
