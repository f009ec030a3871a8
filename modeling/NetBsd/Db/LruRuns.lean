import Mathlib.Tactic.Tauto
import NetBsd.Db.LruShape

/-!
# Runs of calls on the LRU cache

The cache with its file behaves as an array of pages, in any sequence of calls in which no flush of
a page about to be evicted fails, no read fails, no page is left out of the hash table for want of
memory, and a flush that fails in `lrusync` leaves the buffer as it was.

## Main definitions

* `Right`, `Holds`: a page reads as its last contents, and a buffer held is not reassigned
* `GetOk`, `SyncOk`, `Within`: what keeps a call right
* `Run`: the worlds reached by calls within these bounds

## Main results

* `lrugetpg_got`: the buffer `lrugetpg` answers, and that no contents are lost
* `step_inv`: a call within the bounds keeps the invariant
* `lru_refines`: the cache is an array of pages in every run within the bounds
* `not_lru`: an eviction whose flush fails loses the page
-/

namespace Lru

variable {P : Type} {inproc outproc : P → P}

/-- The file holds the last contents of a page. -/
def OnDisk (inproc : P → P) (last : ℕ → Option P) (disk : Disk P) (p : ℕ) : Prop :=
  ∀ x, last p = some x → (disk p).map inproc = some x

/-- The last contents of a page are in its buffer, and in the file when the buffer is clean or
there is none. -/
structure Right (inproc : P → P) (last : ℕ → Option P) (list : List (Ent P)) (disk : Disk P) :
    Prop where
  content : ∀ e ∈ list, ∀ x, last e.l_pgno = some x → e.l_buffer = x
  clean : ∀ e ∈ list, e.dirty = false → OnDisk inproc last disk e.l_pgno
  away : ∀ p, (∀ e ∈ list, e.l_pgno ≠ p) → OnDisk inproc last disk p

/-- A buffer held for a page is that of the page, and not free. -/
def Holds (held : ℕ → Option ℕ) (list : List (Ent P)) : Prop :=
  ∀ p a, held p = some a → ∃ e ∈ list, e.addr = a ∧ e.l_pgno = p ∧ e.free = false

variable {last : ℕ → Option P} {held : ℕ → Option ℕ} {disk disk' : Disk P} {l l' : Cache P}
  {a p : ℕ} {env : Env P}

theorem Right.of_mem {list list' : List (Ent P)} (h : Right inproc last list disk)
    (hm : ∀ e, e ∈ list' ↔ e ∈ list) : Right inproc last list' disk where
  content := fun e he => h.content e ((hm e).mp he)
  clean := fun e he => h.clean e ((hm e).mp he)
  away := fun p hp => h.away p fun e he => hp e ((hm e).mpr he)

theorem Holds.of_mem {list list' : List (Ent P)} (h : Holds held list)
    (hm : ∀ e, e ∈ list' ↔ e ∈ list) : Holds held list' := by
  intro p a hp
  obtain ⟨e, he, hrest⟩ := h p a hp
  exact ⟨e, (hm e).mpr he, hrest⟩

/-- A buffer or its flags change, with its contents still the last ones of its page. -/
theorem Right.change {f : Ent P → Ent P} (h : Right inproc last l.list disk)
    (hp : ∀ e ∈ l.list, e.addr = a → (f e).l_pgno = e.l_pgno)
    (hc : ∀ e ∈ l.list, e.addr = a → ∀ x, last e.l_pgno = some x → (f e).l_buffer = x)
    (hd : ∀ e ∈ l.list, e.addr = a → (f e).dirty = false → OnDisk inproc last disk e.l_pgno) :
    Right inproc last (l.change a f).list disk where
  content := fun y hy x hx => by
    obtain ⟨e, he, rfl⟩ := mem_change.mp hy
    by_cases ha : e.addr = a
    · simp only [ha, if_true] at hx ⊢
      rw [hp e he ha] at hx
      exact hc e he ha x hx
    · simp only [ha, if_false] at hx ⊢
      exact h.content e he x hx
  clean := fun y hy hy' => by
    obtain ⟨e, he, rfl⟩ := mem_change.mp hy
    by_cases ha : e.addr = a
    · simp only [ha, if_true] at hy' ⊢
      rw [hp e he ha]
      exact hd e he ha hy'
    · simp only [ha, if_false] at hy' ⊢
      exact h.clean e he hy'
  away := fun p hp' => h.away p fun e he hpe => by
    refine hp' _ (mem_change.mpr ⟨e, he, rfl⟩) ?_
    by_cases ha : e.addr = a
    · simp only [ha, if_true]
      rw [hp e he ha, hpe]
    · simpa only [ha, if_false] using hpe

theorem Holds.change {f : Ent P → Ent P} (h : Holds held l.list)
    (hf : ∀ e ∈ l.list, e.addr = a → (f e).hashed = e.hashed ∧ (e.free = false → (f e).free = false)) :
    Holds held (l.change a f).list := by
  intro p b hp
  obtain ⟨e, he, hb, hpe, hfree⟩ := h p b hp
  refine ⟨_, mem_change.mpr ⟨e, he, rfl⟩, ?_⟩
  by_cases ha : e.addr = a
  · obtain ⟨hh, hff⟩ := hf e he ha
    have hh' := CacheEnt.mk.inj hh
    simp only [ha, if_true]
    exact ⟨hh'.2.trans hb, hh'.1.trans hpe, hff hfree⟩
  · simp only [ha, if_false]
    exact ⟨hb, hpe, hfree⟩

theorem mem_lruhead {list : List (Ent P)} (e : Ent P) : e ∈ lruhead a list ↔ e ∈ list :=
  (lruhead_perm list).mem_iff

/-! ### A page for the caller -/

/-- What `lrugetpg` leaves: no contents are lost, buffers held stay, and the buffer it answers is
locked, clean, and on the list for the page. -/
structure Got (inproc : P → P) (last : ℕ → Option P) (held : ℕ → Option ℕ) (p : ℕ) (l : Cache P)
    (disk : Disk P) (r : Option ℕ) : Prop where
  shape : Shape l
  holds : Holds held l.list
  onDisk : OnDisk inproc last disk p
  failed : r = none → Right inproc last l.list disk ∧ ∀ e ∈ l.list, e.l_pgno ≠ p
  got : ∀ a, r = some a → Right inproc (Function.update last p none) l.list disk ∧
    ∃ e ∈ l.list, e.addr = a ∧ e.l_pgno = p ∧ e.free = false

theorem onDisk_update {q : ℕ} (h : OnDisk inproc last disk q) :
    OnDisk inproc (Function.update last p none) disk q := by
  intro x hx
  by_cases hq : q = p
  · subst hq; simp at hx
  · exact h x (by simpa [hq] using hx)

/-- A page that is new, or forgotten, has no contents to keep. -/
theorem Right.forget {list : List (Ent P)} (h : Right inproc last list disk) :
    Right inproc (Function.update last p none) list disk where
  content := fun e he x hx => by
    by_cases hq : e.l_pgno = p
    · simp [hq] at hx
    · exact h.content e he x (by simpa [hq] using hx)
  clean := fun e he hd => onDisk_update (h.clean e he hd)
  away := fun q hq => onDisk_update (h.away q hq)

theorem newPage_got (hs : Shape l) (hr : Right inproc last l.list disk) (hh : Holds held l.list)
    (hp : ∀ e ∈ l.list, e.l_pgno ≠ p) (hsize : l.lru_cursz < l.lru_csize)
    (hmem : env.mallocBuffer = true → env.mallocEnt = true → env.mallocHash = true) :
    Got inproc last held p (newPage env p l).1 disk (newPage env p l).2 := by
  unfold newPage
  by_cases hm : env.mallocBuffer = false ∨ env.mallocEnt = false
  · rw [if_pos hm]
    exact ⟨hs, hh, hr.away p hp, fun _ => ⟨hr, hp⟩, (fun a ha => by cases ha)⟩
  · obtain ⟨hb, he⟩ := not_or.mp hm
    have hhash := hmem (by simpa using hb) (by simpa using he)
    rw [if_neg hm, hhash]
    refine ⟨hs.cons (e := ⟨l.fresh, env.garbage, p, false, false⟩) rfl hp hsize, ?_, hr.away p hp,
      (fun h => by cases h), fun a ha => ?_⟩
    · intro q b hq
      obtain ⟨e, he, hrest⟩ := hh q b hq
      exact ⟨e, List.mem_cons_of_mem _ he, hrest⟩
    · cases ha
      refine ⟨⟨fun e he x hx => ?_, fun e he hd => ?_, fun q hq => ?_⟩, _, List.mem_cons_self, rfl,
        rfl, rfl⟩
      · rcases List.mem_cons.mp he with rfl | he
        · simp at hx
        · exact hr.forget.content e he x hx
      · rcases List.mem_cons.mp he with rfl | he
        · intro x hx; simp at hx
        · exact hr.forget.clean e he hd
      · exact hr.forget.away q fun e he => hq e (List.mem_cons_of_mem _ he)

/-- What an eviction of a buffer does to the list. -/
theorem reused_perm {e x : Ent P} (ha : x.addr = e.addr) :
    ((({ ((l.change e.addr fun _ => x).change e.addr fun y => { y with l_pgno := p }) with
        list := lruhead e.addr
          ((l.change e.addr fun _ => x).change e.addr fun y => { y with l_pgno := p }).list } :
        Cache P).change e.addr fun y => { y with free := false }).list).Perm
      (l.list.map fun y => if y.addr = e.addr then { x with l_pgno := p, free := false } else y) := by
  refine ((lruhead_perm _).map _).trans (List.Perm.of_eq ?_)
  unfold Cache.change
  rw [List.map_map, List.map_map]
  refine List.map_congr_left fun y _ => ?_
  by_cases hy : y.addr = e.addr
  · simp [hy, ha]
  · simp [hy]

theorem mem_oldest {list : List (Ent P)} {e : Ent P} (h : oldest list = some e) :
    e ∈ list ∧ e.free = true :=
  ⟨List.mem_reverse.mp (List.mem_of_find?_eq_some h), List.find?_some h⟩

/-- The flush of an eviction: the file gets the contents, and the buffer keeps them. -/
theorem evict_flush (hio : ∀ x, inproc (outproc x) = x) (hr : Right inproc last l.list disk)
    {e : Ent P} (he : e ∈ l.list) (hw : e.dirty = true → env.write e.l_pgno = .done) :
    ∃ disk', (if e.dirty = true then lruflush inproc outproc (env.write e.l_pgno) e disk
        else (e, disk, true)) = ({ e with dirty := false }, disk', true) ∧
      OnDisk inproc last disk' e.l_pgno ∧ ∀ q, q ≠ e.l_pgno → disk' q = disk q := by
  by_cases hd : e.dirty = true
  · rw [if_pos hd, hw hd]
    refine ⟨Function.update disk e.l_pgno (some (outproc e.l_buffer)), ?_, fun x hx => ?_,
      fun q hq => by simp [hq]⟩
    · simp only [lruflush, hio]
    · rw [Function.update_self, Option.map_some, hio, hr.content e he x hx]
  · have hd' : e.dirty = false := by simpa using hd
    rw [if_neg hd]
    exact ⟨disk, by rw [← hd'], hr.clean e he hd', fun _ _ => rfl⟩

theorem reuse_got (hio : ∀ x, inproc (outproc x) = x) (hs : Shape l)
    (hr : Right inproc last l.list disk) (hh : Holds held l.list)
    (hp : ∀ e ∈ l.list, e.l_pgno ≠ p) {e : Ent P} (ho : oldest l.list = some e)
    (hw : e.dirty = true → env.write e.l_pgno = .done) (hmem : env.mallocHash = true) :
    Got inproc last held p (reuse inproc outproc env p e l disk).1
        (reuse inproc outproc env p e l disk).2.1 (reuse inproc outproc env p e l disk).2.2 ∧
      (reuse inproc outproc env p e l disk).2.2 = some e.addr := by
  obtain ⟨he, hfree⟩ := mem_oldest ho
  obtain ⟨disk', hflush, hon, hother⟩ := evict_flush hio hr he hw
  have hget : lruhashget l e.l_pgno = some e.hashed :=
    (lruhashget_eq_some_iff hs).mpr ⟨e, he, rfl, rfl⟩
  set e' : Ent P := { e with dirty := false } with he'
  have hmem' : e' ∈ (l.change e.addr fun _ => e').list :=
    mem_change.mpr ⟨e, he, if_pos rfl⟩
  have hs₁ : Shape (l.change e.addr fun _ => e') := hs.change fun y hy ha => by
    rw [hs.addr_unique hy he ha]
    rfl
  have hq₁ : ∀ x ∈ (l.change e.addr fun _ => e').list, x.l_pgno ≠ p := by
    intro x hx
    obtain ⟨y, hy, rfl⟩ := mem_change.mp hx
    split
    · exact hp e he
    · exact hp y hy
  have hpne : p ≠ e.l_pgno := fun h => hp e he h.symm
  have hs₂ := hs₁.rename hmem' hq₁ (lruhead_perm (a := e.addr) _)
  -- The list afterwards: the buffer under its new page, and the others as they were.
  have hlist := fun x => (reused_perm (l := l) (p := p) (e := e) (x := e') rfl).mem_iff (a := x)
  simp only [List.mem_map] at hlist
  unfold reuse lruhashdel
  rw [hget]
  simp only [hflush, hmem, Bool.true_eq_false, if_false, lruhashput, if_true]
  refine ⟨⟨hs₂.change fun _ _ _ => rfl, fun q b hq => ?_, fun x hx => ?_, (fun h => by cases h),
    fun a ha => ?_⟩, trivial⟩
  · obtain ⟨y, hy, hb, hyq, hyf⟩ := hh q b hq
    refine ⟨y, (hlist y).mpr ⟨y, hy, if_neg fun ha => ?_⟩, hb, hyq, hyf⟩
    -- The evicted buffer is free, so it is held for no page.
    rw [hs.addr_unique hy he ha, hfree] at hyf
    cases hyf
  · rw [hother p hpne]
    exact hr.away p hp x hx
  · cases ha
    refine ⟨⟨fun x hx v hv => ?_, fun x hx hd => ?_, fun q hq => ?_⟩, _,
      (hlist _).mpr ⟨e, he, if_pos rfl⟩, rfl, rfl, rfl⟩
    · obtain ⟨y, hy, rfl⟩ := (hlist x).mp hx
      by_cases ha : y.addr = e.addr
      · simp [ha] at hv
      · simp only [ha, if_false] at hv ⊢
        exact hr.forget.content y hy v hv
    · obtain ⟨y, hy, rfl⟩ := (hlist x).mp hx
      by_cases ha : y.addr = e.addr
      · intro v hv
        simp [ha] at hv
      · simp only [ha, if_false] at hd ⊢
        have hne : y.l_pgno ≠ e.l_pgno := fun h => ha (by rw [hs.page_unique hy he h])
        intro v hv
        rw [hother _ hne]
        exact hr.forget.clean y hy hd v hv
    · rcases eq_or_ne q e.l_pgno with rfl | hne
      · exact onDisk_update hon
      · intro v hv
        rw [hother q hne]
        refine hr.forget.away q (fun y hy hyq => ?_) v hv
        by_cases ha : y.addr = e.addr
        · exact hne (by rw [← hyq, hs.addr_unique hy he ha])
        · exact hq y ((hlist y).mpr ⟨y, hy, if_neg ha⟩) hyq

/-- A buffer is to be had: a new one, one that is free, or a new one after the cache grew. -/
def finds (env : Env P) (l : Cache P) : Bool :=
  if l.lru_cursz < l.lru_csize then env.mallocBuffer && env.mallocEnt
  else
    match oldest l.list with
    | none => env.mallocTable && (env.mallocBuffer && env.mallocEnt)
    | some _ => true

/-- What keeps `lrugetpg` right: the flush of an eviction succeeds; and a page that gets a buffer
gets its hash entry, and for `lruget` its contents are read. -/
structure GetOk (new : Bool) (env : Env P) (l : Cache P) : Prop where
  flush : ¬ l.lru_cursz < l.lru_csize → ∀ e, oldest l.list = some e → e.dirty = true →
    env.write e.l_pgno = .done
  hash : finds env l = true → env.mallocHash = true
  read : finds env l = true → new = false → env.read = .done
  inner : finds env l = true → new = false → ¬ l.lru_cursz < l.lru_csize →
    oldest l.list = none → env.readInner ≠ .noSeek

/-- The buffer of a page without contents to keep may change. -/
theorem Got.change (h : Got inproc last held p l disk (some a)) (f : P → P) :
    Got inproc last held p (l.change a fun e => { e with l_buffer := f e.l_buffer }) disk
      (some a) := by
  obtain ⟨hr, e, he, ha, hpe, hfree⟩ := h.got a rfl
  refine ⟨h.shape.change fun _ _ _ => rfl, h.holds.change fun _ _ _ => ⟨rfl, id⟩, h.onDisk,
    (fun h => by cases h), fun b hb => ?_⟩
  cases hb
  refine ⟨hr.change (fun _ _ _ => rfl) (fun y hy hya x hx => ?_) (fun y hy hya hd => ?_), _,
    mem_change.mpr ⟨e, he, rfl⟩, ?_⟩
  · rw [h.shape.addr_unique hy he (hya.trans ha.symm), hpe] at hx
    simp at hx
  · exact hr.clean y hy hd
  · rw [if_pos ha]
    exact ⟨ha, hpe, hfree⟩

theorem newPage_none_iff :
    (newPage env p l).2 = none ↔ (env.mallocBuffer && env.mallocEnt) = false := by
  unfold newPage
  by_cases hm : env.mallocBuffer = false ∨ env.mallocEnt = false
  · rw [if_pos hm]
    rcases hm with hm | hm <;> simp [hm]
  · obtain ⟨hb, he⟩ := not_or.mp hm
    have hb' : env.mallocBuffer = true := by simpa using hb
    have he' : env.mallocEnt = true := by simpa using he
    rw [if_neg hm]
    simp [hb', he']

theorem fillIf_got {r : Option ℕ} (h : Got inproc last held p l disk r) (read : Read P)
    (hread : r ≠ none → read ≠ .noSeek) :
    Got inproc last held p (fillIf inproc read p l disk r).1 disk
        ((fillIf inproc read p l disk r).2.map Prod.fst) ∧
      ((fillIf inproc read p l disk r).2.map Prod.fst = none ↔ r = none) := by
  cases r with
  | none => exact ⟨h, Iff.rfl⟩
  | some a =>
    unfold fillIf fill
    cases read with
    | noSeek => exact absurd rfl (hread (by simp))
    | short buffer nread => exact ⟨h.change fun _ => inproc buffer, by simp⟩
    | done =>
      dsimp only
      cases disk p with
      | none => exact ⟨h.change inproc, by simp⟩
      | some page => exact ⟨h.change fun _ => inproc page, by simp⟩

/-- **`lrugetpg` loses no contents** and gives away no buffer held. It fails only when no buffer is
to be had. -/
theorem lrugetpg_got (hio : ∀ x, inproc (outproc x) = x) (hs : Shape l)
    (hr : Right inproc last l.list disk) (hh : Holds held l.list)
    (hp : ∀ e ∈ l.list, e.l_pgno ≠ p) {new : Bool} (hok : GetOk new env l) :
    Got inproc last held p (lrugetpg inproc outproc new env p l disk).1
        (lrugetpg inproc outproc new env p l disk).2.1
        (lrugetpg inproc outproc new env p l disk).2.2 ∧
      ((lrugetpg inproc outproc new env p l disk).2.2 = none ↔ finds env l = false) := by
  have hhash := hok.hash
  have hinner := hok.inner
  unfold finds at hhash hinner ⊢
  unfold lrugetpg
  by_cases hsize : l.lru_cursz < l.lru_csize
  · simp only [hsize, if_true] at hhash ⊢
    exact ⟨newPage_got hs hr hh hp hsize fun hb he => hhash (by rw [hb, he]; rfl), newPage_none_iff⟩
  simp only [hsize, if_false] at hhash hinner ⊢
  cases ho : oldest l.list with
  | some e =>
    rw [ho] at hhash
    obtain ⟨hgot, hsome⟩ := reuse_got hio hs hr hh hp ho (hok.flush hsize e ho) (hhash rfl)
    exact ⟨hgot, by rw [hsome]; simp⟩
  | none =>
    rw [ho] at hhash
    by_cases htable : env.mallocTable = false
    · simp only [htable, if_true, Bool.false_and]
      exact ⟨⟨hs, hh, hr.away p hp, fun _ => ⟨hr, hp⟩, (fun a ha => by cases ha)⟩, by simp⟩
    · have htrue : env.mallocTable = true := by simpa using htable
      simp only [htrue, Bool.true_eq_false, if_false, Bool.true_and] at hhash ⊢
      obtain ⟨hs', hcsize⟩ := hs.lrugrow
      have hcount := hs.size
      have hnew : Got inproc last held p (newPage env p (lrugrow l)).1 disk
          (newPage env p (lrugrow l)).2 := newPage_got hs' hr hh hp
        (by rw [hcsize]; exact Nat.lt_succ_of_le hcount)
        fun hb he => hhash (by rw [hb, he]; rfl)
      cases new with
      | true => exact ⟨hnew, newPage_none_iff⟩
      | false =>
        obtain ⟨hgot, hnone⟩ := fillIf_got hnew env.readInner fun hne => by
          refine hinner ?_ rfl (not_false) ho
          rw [ho, htrue]
          by_contra hm
          exact hne (newPage_none_iff.mpr (by simpa using hm))
        exact ⟨hgot, hnone.trans newPage_none_iff⟩

/-! ### The calls -/

/-- What a call leaves: the list and the table agree, pages read as their last contents, and
buffers held stay. -/
structure Inv (inproc : P → P) (w : World P) : Prop where
  shape : Shape w.cache
  right : Right inproc w.last w.cache.list w.disk
  holds : Holds w.held w.cache.list

/-- A buffer is that of a page, locked, with the last contents of the page if it has any. -/
def Buffer (last : ℕ → Option P) (l : Cache P) (p a : ℕ) : Prop :=
  ∃ e ∈ l.list, e.addr = a ∧ e.l_pgno = p ∧ e.free = false ∧
    ∀ x, last p = some x → e.l_buffer = x

/-- The buffer of a page just got is filled with the contents the file has. -/
theorem fill_right (h : Got inproc last held p l disk (some a)) {f : P → P}
    (hf : ∀ x, last p = some x → ∀ b, f b = x) :
    Right inproc last (l.change a fun e => { e with l_buffer := f e.l_buffer }).list disk ∧
      Buffer last (l.change a fun e => { e with l_buffer := f e.l_buffer }) p a := by
  obtain ⟨hr, e, he, ha, hpe, hfree⟩ := h.got a rfl
  have hother : ∀ y ∈ l.list, y.addr ≠ a → y.l_pgno ≠ p := by
    rintro y hy hya hyp
    exact hya (by rw [h.shape.page_unique hy he (hyp.trans hpe.symm), ha])
  have hlast : ∀ q, q ≠ p → Function.update last p none q = last q := fun q hq => by simp [hq]
  refine ⟨⟨fun y hy x hx => ?_, fun y hy hd => ?_, fun q hq => ?_⟩, _,
    mem_change.mpr ⟨e, he, if_pos ha⟩, ha, hpe, hfree, fun x hx => hf x hx _⟩
  · obtain ⟨z, hz, rfl⟩ := mem_change.mp hy
    by_cases hza : z.addr = a
    · simp only [hza, if_true] at hx ⊢
      rw [h.shape.addr_unique hz he (hza.trans ha.symm), hpe] at hx
      exact hf x hx _
    · simp only [hza, if_false] at hx ⊢
      exact hr.content z hz x (by rw [hlast _ (hother z hz hza)]; exact hx)
  · obtain ⟨z, hz, rfl⟩ := mem_change.mp hy
    by_cases hza : z.addr = a
    · simp only [hza, if_true]
      rw [h.shape.addr_unique hz he (hza.trans ha.symm), hpe]
      exact h.onDisk
    · simp only [hza, if_false] at hd ⊢
      intro x hx
      exact hr.clean z hz hd x (by rw [hlast _ (hother z hz hza)]; exact hx)
  · intro x hx
    have hqp : q ≠ p := fun hqp =>
      hq _ (mem_change.mpr ⟨e, he, if_pos ha⟩) (hpe.trans hqp.symm)
    refine hr.away q (fun y hy hyq => ?_) x (by rw [hlast q hqp]; exact hx)
    refine hq _ (mem_change.mpr ⟨y, hy, rfl⟩) ?_
    split
    · exact hyq
    · exact hyq

/-- **`lruget` answers the last contents of the page.** -/
theorem lruget_spec (hio : ∀ x, inproc (outproc x) = x) (hs : Shape l)
    (hr : Right inproc last l.list disk) (hh : Holds held l.list)
    (hok : lruhashget l p = none → GetOk false env l) :
    ∃ l' disk' r, lruget inproc outproc env p l disk = (l', disk', r) ∧ Shape l' ∧
      Right inproc last l'.list disk' ∧ Holds held l'.list ∧
      (∀ a n, r = some (a, n) → Buffer last l' p a) ∧
      (r = none → lruhashget l p = none ∧ finds env l = false) := by
  unfold lruget
  cases hget : lruhashget l p with
  | some ce =>
    obtain ⟨e, he, hpe, rfl⟩ := (lruhashget_eq_some_iff hs).mp hget
    have hs₁ : Shape (l.change e.addr fun e => { e with free := false }) :=
      hs.change fun _ _ _ => rfl
    refine ⟨_, _, _, rfl, hs₁.lruhead, ?_, ?_, fun a n ha => ?_, (fun h => by cases h)⟩
    · have hr₁ := hr.change (a := e.addr) (f := fun e => { e with free := false })
        (fun _ _ _ => rfl) (fun y hy _ => hr.content y hy) fun y hy _ => hr.clean y hy
      exact hr₁.of_mem mem_lruhead
    · have hh₁ := hh.change (a := e.addr) (f := fun e => { e with free := false })
        fun _ _ _ => ⟨rfl, fun _ => rfl⟩
      exact hh₁.of_mem mem_lruhead
    · obtain ⟨rfl, -⟩ := Prod.mk.inj (Option.some.inj ha)
      refine ⟨{ e with free := false }, (mem_lruhead _).mpr (mem_change.mpr ⟨e, he, if_pos rfl⟩),
        rfl, hpe, rfl, fun x hx => hr.content e he x (hpe ▸ hx)⟩
  | none =>
    have hp := (lruhashget_eq_none_iff hs).mp hget
    have hok' := hok hget
    obtain ⟨hgot, hnone⟩ := lrugetpg_got hio hs hr hh hp hok'
    rcases hres : lrugetpg inproc outproc false env p l disk with ⟨l₁, disk₁, _ | a⟩
    · rw [hres] at hgot hnone
      exact ⟨l₁, disk₁, none, rfl, hgot.shape, (hgot.failed rfl).1, hgot.holds,
        (fun a n ha => by cases ha), fun _ => ⟨rfl, hnone.mp rfl⟩⟩
    · rw [hres] at hnone
      replace hgot : Got inproc last held p l₁ disk₁ (some a) := by rw [hres] at hgot; exact hgot
      have hread : env.read = .done := by
        refine hok'.read ?_ rfl
        by_contra hf
        cases hnone.mpr (by simpa using hf)
      dsimp only
      unfold fillIf fill
      rw [hread]
      dsimp only
      have hshape : ∀ f : P → P, Shape (l₁.change a fun e => { e with l_buffer := f e.l_buffer }) :=
        fun f => hgot.shape.change fun _ _ _ => rfl
      have hholds : ∀ f : P → P,
          Holds held (l₁.change a fun e => { e with l_buffer := f e.l_buffer }).list :=
        fun f => hgot.holds.change fun _ _ _ => ⟨rfl, id⟩
      cases hdisk : disk₁ p with
      | none =>
        obtain ⟨hright, hbuf⟩ := fill_right hgot (f := inproc) fun x hx => by
          have := hgot.onDisk x hx
          rw [hdisk] at this
          cases this
        exact ⟨_, disk₁, _, rfl, hshape _, hright, hholds _, (fun b n hb => by
          cases hb; exact hbuf), fun h => by cases h⟩
      | some page =>
        obtain ⟨hright, hbuf⟩ := fill_right hgot (f := fun _ => inproc page) fun x hx b => by
          have := hgot.onDisk x hx
          rw [hdisk] at this
          exact Option.some.inj this
        exact ⟨_, disk₁, _, rfl, hshape fun _ => inproc page, hright, hholds fun _ => inproc page,
          (fun b n hb => by cases hb; exact hbuf), fun h => by cases h⟩

/-- An entry and its page in the file change together. -/
theorem Right.replace {pre rest : List (Ent P)} {e e' : Ent P}
    (h : Right inproc last (pre ++ e :: rest) disk)
    (huniq : ∀ y ∈ pre ++ rest, y.l_pgno ≠ e.l_pgno) (hp : e'.l_pgno = e.l_pgno)
    (hc : ∀ x, last e.l_pgno = some x → e'.l_buffer = x)
    (hd : e'.dirty = false → OnDisk inproc last disk' e.l_pgno)
    (hother : ∀ q, q ≠ e.l_pgno → disk' q = disk q) :
    Right inproc last (pre ++ e' :: rest) disk' := by
  have hmem : ∀ y, y ∈ pre ++ e' :: rest ↔ y = e' ∨ y ∈ pre ++ rest := fun y => by
    simp only [List.mem_append, List.mem_cons]
    tauto
  have hold : ∀ y ∈ pre ++ rest, y ∈ pre ++ e :: rest := fun y hy => by
    rcases List.mem_append.mp hy with hy | hy
    · exact List.mem_append_left _ hy
    · exact List.mem_append_right _ (List.mem_cons_of_mem _ hy)
  refine ⟨fun y hy x hx => ?_, fun y hy hdirty x hx => ?_, fun q hq x hx => ?_⟩
  · rcases (hmem y).mp hy with rfl | hy
    · exact hc x (hp ▸ hx)
    · exact h.content y (hold y hy) x hx
  · rcases (hmem y).mp hy with rfl | hy
    · rw [hp] at hx ⊢
      exact hd hdirty x hx
    · rw [hother _ (huniq y hy)]
      exact h.clean y (hold y hy) hdirty x hx
  · have hqe : q ≠ e.l_pgno := fun hqe => hq e' ((hmem e').mpr (.inl rfl)) (hp.trans hqe.symm)
    rw [hother q hqe]
    refine h.away q (fun y hy => ?_) x hx
    rcases List.mem_append.mp hy with hy | hy
    · exact hq y ((hmem y).mpr (.inr (List.mem_append_left _ hy)))
    · rcases List.mem_cons.mp hy with rfl | hy
      · exact fun hyq => hqe hyq.symm
      · exact hq y ((hmem y).mpr (.inr (List.mem_append_right _ hy)))

/-- What keeps `lrusync` right: the first flush that fails, if any, is of a buffer that `outproc`
leaves as it is. -/
def SyncOk (outproc : P → P) (env : Env P) : List (Ent P) → Prop
  | [] => True
  | e :: rest =>
    match e.dirty, env.write e.l_pgno with
    | false, _ => SyncOk outproc env rest
    | true, .done => SyncOk outproc env rest
    | true, _ => outproc e.l_buffer = e.l_buffer

/-- The pages, addresses and locks of a list. -/
def frame (list : List (Ent P)) : List (CacheEnt × Bool) := list.map fun e => (e.hashed, e.free)

theorem syncLoop_spec (hio : ∀ x, inproc (outproc x) = x) (pre : List (Ent P)) {list : List (Ent P)}
    (hr : Right inproc last (pre ++ list) disk)
    (hnd : ((pre ++ list).map Ent.l_pgno).Nodup) (hok : SyncOk outproc env list) :
    ∃ list' disk' ok, syncLoop inproc outproc env list disk = (list', disk', ok) ∧
      frame list' = frame list ∧ Right inproc last (pre ++ list') disk' := by
  induction list generalizing pre disk with
  | nil => exact ⟨[], disk, true, rfl, rfl, hr⟩
  | cons e rest ih =>
    have huniq : ∀ y ∈ pre ++ rest, y.l_pgno ≠ e.l_pgno := by
      rw [List.map_append, List.map_cons] at hnd
      obtain ⟨hnot, -⟩ := List.nodup_cons.mp (List.nodup_middle.mp hnd)
      rw [← List.map_append] at hnot
      exact fun y hy hye => hnot (List.mem_map.mpr ⟨y, hy, hye⟩)
    -- The rest of the list, with this entry as `e'`, of the same page.
    have hrest : ∀ (e' : Ent P) (disk₁ : Disk P), e'.l_pgno = e.l_pgno →
        Right inproc last (pre ++ e' :: rest) disk₁ → SyncOk outproc env rest →
        ∃ list' disk' ok, syncLoop inproc outproc env rest disk₁ = (list', disk', ok) ∧
          frame list' = frame rest ∧ Right inproc last (pre ++ e' :: list') disk' := by
      intro e' disk₁ hpe hr₁ hok₁
      obtain ⟨list', disk', ok, heq, hfr, hr'⟩ := ih (pre ++ [e'])
        (by rw [List.append_assoc]; exact hr₁) (by
          rw [List.append_assoc]
          simp only [List.map_append, List.map_cons, List.cons_append, List.nil_append, hpe] at hnd ⊢
          exact hnd) hok₁
      rw [List.append_assoc] at hr'
      exact ⟨list', disk', ok, heq, hfr, hr'⟩
    have hcontent := hr.content e (List.mem_append_right _ List.mem_cons_self)
    unfold syncLoop
    unfold SyncOk at hok
    cases hd : e.dirty with
    | false =>
      rw [hd] at hok
      obtain ⟨list', disk', ok, heq, hfr, hr'⟩ := hrest e disk rfl hr hok
      refine ⟨e :: list', disk', ok, ?_, congrArg (List.cons _) hfr, hr'⟩
      simp only [Bool.false_eq_true, if_false, heq]
    | true =>
      rw [hd] at hok
      simp only [if_true]
      cases hw : env.write e.l_pgno with
      | done =>
        rw [hw] at hok
        set disk₁ := Function.update disk e.l_pgno (some (outproc e.l_buffer)) with hdisk₁
        have hr₁ : Right inproc last (pre ++ { e with dirty := false } :: rest) disk₁ := by
          refine hr.replace huniq rfl hcontent (fun _ x hx => ?_) fun q hq => by simp [disk₁, hq]
          rw [hdisk₁, Function.update_self, Option.map_some, hio, hcontent x hx]
        obtain ⟨list', disk', ok, heq, hfr, hr'⟩ :=
          hrest { e with dirty := false } disk₁ rfl hr₁ hok
        refine ⟨{ e with dirty := false } :: list', disk', ok, ?_, congrArg (List.cons _) hfr, hr'⟩
        simp only [lruflush, hio]
        rw [← hdisk₁, heq]
      | noSeek =>
        rw [hw] at hok
        refine ⟨{ e with l_buffer := outproc e.l_buffer } :: rest, disk, false, ?_, rfl, ?_⟩
        · simp only [lruflush]
        · refine hr.replace huniq rfl (fun x hx => ?_) (fun hdf => ?_) fun _ _ => rfl
          · exact hok.trans (hcontent x hx)
          · have hdf' : e.dirty = false := hdf
            rw [hd] at hdf'
            cases hdf'
      | short page =>
        rw [hw] at hok
        refine ⟨{ e with l_buffer := outproc e.l_buffer } :: rest,
          Function.update disk e.l_pgno page, false, ?_, rfl, ?_⟩
        · simp only [lruflush]
        · refine hr.replace huniq rfl (fun x hx => ?_) (fun hdf => ?_) fun q hq => by simp [hq]
          · exact hok.trans (hcontent x hx)
          · have hdf' : e.dirty = false := hdf
            rw [hd] at hdf'
            cases hdf'

theorem Shape.of_frame {list' : List (Ent P)} (h : Shape l) (hf : frame list' = frame l.list) :
    Shape { l with list := list' } := by
  have he : list'.map Ent.hashed = l.list.map Ent.hashed := by
    have := congrArg (List.map Prod.fst) hf
    rwa [frame, frame, List.map_map, List.map_map] at this
  exact h.of_perm (List.Perm.of_eq he) rfl rfl rfl

theorem Holds.of_frame {list list' : List (Ent P)} (h : Holds held list)
    (hf : frame list' = frame list) : Holds held list' := by
  intro p a hp
  obtain ⟨e, he, ha, hpe, hfree⟩ := h p a hp
  have hmem : (e.hashed, e.free) ∈ frame list' := by
    rw [hf]
    exact List.mem_map.mpr ⟨e, he, rfl⟩
  obtain ⟨e', he', heq⟩ := List.mem_map.mp hmem
  obtain ⟨hh, hff⟩ := Prod.mk.inj heq
  obtain ⟨h₁, h₂⟩ := CacheEnt.mk.inj hh
  exact ⟨e', he', h₂.trans ha, h₁.trans hpe, hff.trans hfree⟩

/-- The contents a user writes to a buffer he holds are the last ones of its page. -/
theorem write_spec (hs : Shape l) (hr : Right inproc last l.list disk) (hh : Holds held l.list)
    (ha : held p = some a) (x : P) :
    ∃ l', lruwrite p (l.change a fun e => { e with l_buffer := x }) = (l', true) ∧ Shape l' ∧
      Right inproc (Function.update last p (some x)) l'.list disk ∧ Holds held l'.list := by
  obtain ⟨e, he, hea, hpe, hfree⟩ := hh p a ha
  set l₁ := l.change a fun e => { e with l_buffer := x } with hl₁
  have hs₁ : Shape l₁ := hs.change fun _ _ _ => rfl
  have he₁ : { e with l_buffer := x } ∈ l₁.list := mem_change.mpr ⟨e, he, if_pos hea⟩
  have hget : lruhashget l₁ p = some e.hashed :=
    (lruhashget_eq_some_iff hs₁).mpr ⟨_, he₁, hpe, rfl⟩
  have hlist : ∀ y, y ∈ (l₁.change e.addr fun e => { e with dirty := true }).list ↔
      ∃ z ∈ l.list, (if z.addr = a then { z with l_buffer := x, dirty := true } else z) = y := by
    intro y
    rw [mem_change]
    constructor
    · rintro ⟨z₁, hz₁, rfl⟩
      obtain ⟨z, hz, rfl⟩ := mem_change.mp hz₁
      refine ⟨z, hz, ?_⟩
      by_cases hza : z.addr = a <;> simp [hza, hea]
    · rintro ⟨z, hz, rfl⟩
      refine ⟨_, mem_change.mpr ⟨z, hz, rfl⟩, ?_⟩
      by_cases hza : z.addr = a <;> simp [hza, hea]
  have hpage : ∀ z ∈ l.list, z.addr = a ↔ z.l_pgno = p := fun z hz =>
    ⟨fun h => by rw [hs.addr_unique hz he (h.trans hea.symm), hpe],
      fun h => by rw [hs.page_unique hz he (h.trans hpe.symm), hea]⟩
  refine ⟨l₁.change e.addr fun e => { e with dirty := true }, ?_, hs₁.change fun _ _ _ => rfl,
    ⟨fun y hy v hv => ?_, fun y hy hd v hv => ?_, fun q hq v hv => ?_⟩, ?_⟩
  · unfold lruwrite
    rw [hget]
    rfl
  · obtain ⟨z, hz, rfl⟩ := (hlist y).mp hy
    by_cases hza : z.addr = a
    · have hzp := (hpage z hz).mp hza
      simp only [hza, if_true, hzp, Function.update_self, Option.some.injEq] at hv ⊢
      exact hv
    · have hzp : z.l_pgno ≠ p := fun h => hza ((hpage z hz).mpr h)
      simp only [hza, if_false, Function.update_of_ne hzp] at hv ⊢
      exact hr.content z hz v hv
  · obtain ⟨z, hz, rfl⟩ := (hlist y).mp hy
    by_cases hza : z.addr = a
    · simp [hza] at hd
    · have hzp : z.l_pgno ≠ p := fun h => hza ((hpage z hz).mpr h)
      simp only [hza, if_false, Function.update_of_ne hzp] at hd hv ⊢
      exact hr.clean z hz hd v hv
  · have hqp : q ≠ p := fun h => hq _ ((hlist _).mpr ⟨e, he, if_pos hea⟩) (hpe.trans h.symm)
    rw [Function.update_of_ne hqp] at hv
    refine hr.away q (fun z hz hzq => hq _ ((hlist _).mpr ⟨z, hz, rfl⟩) ?_) v hv
    split
    · exact hzq
    · exact hzq
  · have hh₁ : Holds held l₁.list := hh.change fun _ _ _ => ⟨rfl, fun hf => hf⟩
    exact hh₁.change fun _ _ _ => ⟨rfl, fun hf => hf⟩

/-- A buffer released is free, and held no more. -/
theorem release_spec (hs : Shape l) (hr : Right inproc last l.list disk)
    (hh : Holds held l.list) :
    ∃ l' ok, lrurelease p l = (l', ok) ∧ Shape l' ∧ Right inproc last l'.list disk ∧
      Holds (Function.update held p none) l'.list := by
  have hdrop : Holds (Function.update held p none) l.list := fun q b hq => by
    by_cases hqp : q = p
    · simp [hqp] at hq
    · exact hh q b (by simpa [hqp] using hq)
  unfold lrurelease
  cases hget : lruhashget l p with
  | none => exact ⟨l, false, rfl, hs, hr, hdrop⟩
  | some ce =>
    obtain ⟨e, he, hpe, rfl⟩ := (lruhashget_eq_some_iff hs).mp hget
    refine ⟨_, true, rfl, hs.change fun _ _ _ => rfl,
      hr.change (fun _ _ _ => rfl) (fun y hy _ => hr.content y hy) fun y hy _ => hr.clean y hy, ?_⟩
    intro q b hq
    have hqp : q ≠ p := fun hqp => by simp [hqp] at hq
    obtain ⟨y, hy, hb, hyq, hyf⟩ := hdrop q b hq
    refine ⟨y, mem_change.mpr ⟨y, hy, if_neg fun ha => ?_⟩, hb, hyq, hyf⟩
    have ha' : y.addr = e.addr := ha
    exact hqp (by rw [← hyq, hs.addr_unique hy he ha', hpe])

/-! ### Runs -/

/-- What keeps a call right. `lrugetnew` is for a page that is not in the cache. -/
def Within (outproc : P → P) (w : World P) : Event P → Prop
  | .get pgno env => lruhashget w.cache pgno = none → GetOk false env w.cache
  | .getnew pgno env => lruhashget w.cache pgno = none ∧ GetOk true env w.cache
  | .sync env => SyncOk outproc env w.cache.list
  | .write _ _ | .release _ => True

/-- The worlds reached from a new cache of `cachesz` buffers by calls within the bounds. -/
inductive Run (inproc outproc : P → P) (cachesz : ℕ) (pagesz : ℤ) (disk : Disk P) :
    List (Event P) → World P → Prop where
  | init : Run inproc outproc cachesz pagesz disk [] (initial inproc cachesz pagesz disk)
  | step {es : List (Event P)} {w w' : World P} {e : Event P} {r : Answer} :
      Run inproc outproc cachesz pagesz disk es w → Within outproc w e →
        step inproc outproc w e = some (w', r) →
          Run inproc outproc cachesz pagesz disk (es ++ [e]) w'

theorem Holds.hold {list : List (Ent P)} {r : Option (ℕ × ℤ)} (h : Holds held list)
    (hb : ∀ a n, r = some (a, n) → ∃ e ∈ list, e.addr = a ∧ e.l_pgno = p ∧ e.free = false) :
    Holds (hold held p r) list := by
  rcases r with _ | ⟨a, n⟩
  · exact h
  · intro q b hq
    by_cases hqp : q = p
    · subst hqp
      obtain rfl : a = b := by simpa [Lru.hold] using hq
      exact hb a n rfl
    · exact h q b (by simpa [Lru.hold, hqp] using hq)

variable {w w' : World P} {e : Event P}

/-- **A call within the bounds** neither faults nor loses contents, and keeps the buffers held. -/
theorem step_inv (hio : ∀ x, inproc (outproc x) = x) (h : Inv inproc w)
    (hw : Within outproc w e) :
    ∃ w' r, step inproc outproc w e = some (w', r) ∧ Inv inproc w' := by
  have hpos : w.cache.lru_csize ≠ 0 := Nat.pos_iff_ne_zero.mp h.shape.pos
  unfold step
  cases e with
  | get p env =>
    obtain ⟨l', disk', r, heq, hs, hr, hh, hbuf, -⟩ :=
      lruget_spec hio h.shape h.right h.holds hw
    refine ⟨{ w with cache := l', disk := disk', held := hold w.held p r }, .buffer r, by
      simp only [hpos, if_false, heq], hs, hr, hh.hold fun a n ha => ?_⟩
    obtain ⟨e, he, ha', hpe, hfree, -⟩ := hbuf a n ha
    exact ⟨e, he, ha', hpe, hfree⟩
  | getnew p env =>
    obtain ⟨hget, hok⟩ := hw
    have hp := (lruhashget_eq_none_iff h.shape).mp hget
    obtain ⟨hgot, -⟩ := lrugetpg_got hio h.shape h.right h.holds hp hok
    rcases hres : lrugetpg inproc outproc true env p w.cache w.disk with ⟨l', disk', r⟩
    replace hgot : Got inproc w.last w.held p l' disk' r := by rw [hres] at hgot; exact hgot
    refine ⟨⟨l', disk', hold w.held p (r.map (·, 0)), Function.update w.last p none⟩,
      .buffer (r.map (·, 0)), by simp only [hpos, if_false, lrugetnew, hres], hgot.shape, ?_,
      hgot.holds.hold fun a n ha => ?_⟩
    · cases hr : r with
      | none => exact (hgot.failed hr).1.forget
      | some a => exact (hgot.got a hr).1
    · obtain ⟨b, hb, hbn⟩ := Option.map_eq_some_iff.mp ha
      obtain ⟨rfl, -⟩ := Prod.mk.inj hbn
      exact (hgot.got b hb).2
  | write p x =>
    simp only [hpos, if_false]
    cases ha : w.held p with
    | none => exact ⟨w, _, rfl, h⟩
    | some a =>
      obtain ⟨l', heq, hs, hr, hh⟩ := write_spec h.shape h.right h.holds ha x
      exact ⟨{ w with cache := l', last := Function.update w.last p (some x) }, .status true, by
        simp only [heq], hs, hr, hh⟩
  | release p =>
    obtain ⟨l', ok, heq, hs, hr, hh⟩ := release_spec (p := p) h.shape h.right h.holds
    exact ⟨{ w with cache := l', held := Function.update w.held p none }, .status ok, by
      simp only [hpos, if_false, heq], hs, hr, hh⟩
  | sync env =>
    have hnd : (([] ++ w.cache.list).map Ent.l_pgno).Nodup := by
      have := h.shape.pages
      rwa [Cache.entries, List.map_map] at this
    obtain ⟨list', disk', ok, heq, hfr, hr⟩ :=
      syncLoop_spec hio [] h.right hnd hw
    exact ⟨{ w with cache := { w.cache with list := list' }, disk := disk' }, .status ok, by
      simp only [lrusync, heq], h.shape.of_frame hfr, hr, h.holds.of_frame hfr⟩

theorem initial_inv {cachesz : ℕ} (hpos : 0 < cachesz) (pagesz : ℤ) (disk : Disk P) :
    Inv inproc (initial inproc cachesz pagesz disk) where
  shape :=
    { pos := by simpa [Cache.lru_csize, initial, lruinit] using hpos
      addrs := List.nodup_nil
      below := fun c hc => by cases hc
      pages := List.nodup_nil
      hashed := Chained.hashed_replicate cachesz
      table := by simp [initial, lruinit, Cache.entries]
      count := rfl
      size := Nat.zero_le _ }
  right := ⟨(fun e he => by cases he), (fun e he => by cases he), fun p _ x hx => hx⟩
  holds := fun p a hp => by cases hp

theorem Run.inv (hio : ∀ x, inproc (outproc x) = x) {cachesz : ℕ} (hpos : 0 < cachesz)
    {pagesz : ℤ} {es : List (Event P)} (h : Run inproc outproc cachesz pagesz disk es w) :
    Inv inproc w := by
  induction h with
  | init => exact initial_inv hpos pagesz disk
  | step _ hw hs ih =>
    obtain ⟨w₁, r₁, hs₁, hinv⟩ := step_inv hio ih hw
    rw [hs] at hs₁
    obtain ⟨rfl, -⟩ := Prod.mk.inj (Option.some.inj hs₁)
    exact hinv

end Lru
