import NetBsd.Ufs.BmapPath

/-!
# `balloc` refines the map of block numbers

`balloc` hangs a block into the slot of its block number and into no other. A fragment at the end
of the file that it has to extend first may move.

## Main definitions

* `Groups.Honest`: what the functions rely on of the cylinder groups
* `Tree`: no fragment of the disk is used twice, or used and free
* `Coherent`: the buffers of the vnode carry the places that `bmap` gives
* `Live`: the part of `Tree` that every step of `balloc` keeps
* `Extends`: the write leaves a fragment behind

## Main results

* `alloc_spec`, `realloccg_spec`: what is handed out was free
* `ballocFetch_spec`: the loop grows the tree down to the slot
* `balloc_spec`: a successful call
* `balloc_refines`: and which block numbers are accepted
-/

namespace Bmap

open Stateful BlockTree

variable {α : Type} {E : Env α} {s s' : State α} {bn bn' : ℤ}

/-! ## Well-formed file systems -/

/-- What the block map relies on of the cylinder groups: what is handed out was free and is so no
longer, an extension stays where it is, and only what is given back becomes free. -/
structure Groups.Honest (fs : Fs) (g : Groups α) : Prop where
  hash_free : ∀ a p n, n ≤ fs.bsize → 0 < (g.hashalloc a p n).1 →
    g.free a (g.hashalloc a p n).1 ∧ ∀ x, (g.hashalloc a p n).1 ≤ x →
      x < (g.hashalloc a p n).1 + fs.numfrags n → g.free a x
  hash_used : ∀ a p n, n ≤ fs.bsize → 0 < (g.hashalloc a p n).1 →
    ¬g.free (g.hashalloc a p n).2 (g.hashalloc a p n).1
  hash_keep : ∀ a p n x, g.free (g.hashalloc a p n).2 x → g.free a x
  frag_place : ∀ a b o n, (g.fragextend a b o n).1 = 0 ∨ (g.fragextend a b o n).1 = b
  frag_keep : ∀ a b o n x, g.free (g.fragextend a b o n).2 x → g.free a x
  chkdq_keep : ∀ a c f x, g.free (g.chkdq a c f).2 x → g.free a x
  optim_keep : ∀ a x, g.free (g.optim a).2 x → g.free a x
  blkfree_free : ∀ a b n x, g.free (g.blkfree a b n) x →
    g.free a x ∨ (b ≤ x ∧ x < b + fs.numfrags n)

/-- The number of fragments at a position: a direct block has as many as its size needs, and at
least the one it points to. -/
def frags (fs : Fs) (isize : ℕ) : Pos Root → ℕ
  | (.inl d, _) => max 1 (fs.numfrags (fs.blksize isize d))
  | (.inr _, _) => max 1 (fs.numfrags fs.bsize)

/-- The fragment `x` belongs to the block at the position. -/
def State.Holds (E : Env α) (s : State α) (p : Pos Root) (x : ℤ) : Prop :=
  s.ptr E p ≠ 0 ∧ s.ptr E p ≤ x ∧ x < s.ptr E p + frags E.fs s.ip.size p

/-- The block pointers and indirect blocks form a tree in which nothing is used twice, and nothing
that is used is free. -/
structure Tree (E : Env α) (s : State α) : Prop where
  once : ∀ p q x, (shape E.fs).Valid p → (shape E.fs).Valid q → s.Holds E p x → s.Holds E q x →
    p = q
  used : ∀ p x, (shape E.fs).Valid p → s.Holds E p x → ¬E.g.free s.cg x

/-- Each buffer of the vnode carries the place of its block. -/
def Coherent (E : Env α) (s : State α) : Prop :=
  ∀ bn b, s.bufs bn = some b →
    0 ≤ bn ∧ ∃ p, path E.fs bn = some p ∧ b = place E.fs (s.ptr E p)

/-- No address is used at two positions, and none that is used is free. -/
structure Live (E : Env α) (s : State α) : Prop where
  distinct : (s.forest E).Distinct (shape E.fs)
  used : ∀ p, (shape E.fs).Valid p → s.ptr E p ≠ 0 → ¬E.g.free s.cg (s.ptr E p)

theorem frags_pos (fs : Fs) (n : ℕ) (p : Pos Root) : 0 < frags fs n p := by
  unfold frags
  split <;> omega

theorem State.holds_self {p : Pos Root} (h : s.ptr E p ≠ 0) : s.Holds E p (s.ptr E p) := by
  have := frags_pos E.fs s.ip.size p
  exact ⟨h, le_refl _, by omega⟩

theorem Tree.live (ht : Tree E s) : Live E s where
  distinct := by
    intro p q hp hq hpq hz
    have hq' : s.Holds E q (s.ptr E q) := State.holds_self (by rwa [State.ptr, ← hpq])
    have hp' : s.Holds E p (s.ptr E p) := State.holds_self hz
    rw [State.ptr, hpq] at hp'
    exact ht.once p q _ hp hq hp' hq'
  used p hp hz := ht.used p _ hp (State.holds_self hz)

/-- What changes only in the charges: inode pointers, device and buffers stay, and nothing becomes
free. -/
structure Kept (E : Env α) (s s' : State α) : Prop where
  db : s'.ip.db = s.ip.db
  ib : s'.ip.ib = s.ip.ib
  size : s'.ip.size = s.ip.size
  dev : s'.dev = s.dev
  bufs : s'.bufs = s.bufs
  free : ∀ x, E.g.free s'.cg x → E.g.free s.cg x

theorem Kept.refl (s : State α) : Kept E s s := ⟨rfl, rfl, rfl, rfl, rfl, fun _ h => h⟩

theorem Kept.trans {s'' : State α} (h : Kept E s s') (h' : Kept E s' s'') : Kept E s s'' :=
  ⟨h'.db.trans h.db, h'.ib.trans h.ib, h'.size.trans h.size, h'.dev.trans h.dev,
    h'.bufs.trans h.bufs, fun x hx => h.free x (h'.free x hx)⟩

theorem Kept.cg {a : α} (h : ∀ x, E.g.free a x → E.g.free s.cg x) :
    Kept E s { s with cg := a } := ⟨rfl, rfl, rfl, rfl, rfl, h⟩

theorem Kept.ptr (h : Kept E s s') (p : Pos Root) : s'.ptr E p = s.ptr E p := by
  unfold State.ptr State.forest
  rw [h.db, h.ib, h.dev]

theorem Kept.live (h : Kept E s s') (hl : Live E s) : Live E s' where
  distinct := hl.distinct.congr fun p _ => h.ptr p
  used p hp hz := by
    rw [h.ptr] at hz ⊢
    exact fun hf => hl.used p hp hz (h.free _ hf)

theorem Kept.coherent (h : Kept E s s') (hc : Coherent E s) : Coherent E s' := by
  intro bn b hb
  rw [h.bufs] at hb
  obtain ⟨h0, p, hp, he⟩ := hc bn b hb
  exact ⟨h0, p, hp, by rw [h.ptr, he]⟩

/-! ## The allocator -/

/-- An error of an allocation, which is never that a block number is too large. -/
abbrev NotBig (e : Stop) (_ : State α) : Prop := e ≠ .errno efbig

theorem chkdq_spec (hg : E.g.Honest E.fs) (c : ℤ) :
    Ensures (chkdq E c) s (fun _ s' => Kept E s s' ∧ s'.ip = s.ip) NotBig := by
  refine Ensures.get (Ensures.modify (ensures_stopIf.mpr ⟨fun _ => ?_, fun _ => ?_⟩))
  · exact fun h => absurd (Stop.errno.inj h) (by decide)
  · exact ⟨Kept.cg (hg.chkdq_keep _ _ _), rfl⟩

theorem enospc_notBig (s : State α) : NotBig (.errno enospc) s :=
  fun h => absurd (Stop.errno.inj h) (by decide)

theorem panic_notBig (msg : String) (s : State α) : NotBig (.panic msg) s := nofun

/-- A block that was free and is handed out. -/
structure Handed (E : Env α) (s s' : State α) (nb : ℤ) : Prop where
  pos : 0 < nb
  free : E.g.free s.cg nb
  used : ¬E.g.free s'.cg nb

/-- What is free is fresh to the forest. -/
theorem Handed.fresh {nb : ℤ} (h : Handed E s s' nb) (hl : Live E s) :
    Forest.Fresh (shape E.fs) (s.forest E) nb := by
  refine ⟨h.pos.ne', fun p hp he => ?_⟩
  have hz : s.ptr E p ≠ 0 := by
    rw [State.ptr, he]
    exact h.pos.ne'
  have hu := hl.used p hp hz
  rw [State.ptr, he] at hu
  exact hu h.free

/-- The quota is restored and the call fails. -/
theorem nospace_spec {β : Type} (c : ℤ) {P : β → State α → Prop} :
    Ensures (do unchkdq E c; throw (.errno enospc)) s P NotBig := by
  refine Ensures.bind (P := fun _ _ => True) ?_ fun _ s' _ => enospc_notBig s'
  exact Ensures.get trivial

theorem hashalloc_spec (hg : E.g.Honest E.fs) (bpref : ℤ) {size : ℕ} (hle : size ≤ E.fs.bsize) :
    Ensures (hashalloc E bpref size) s
      (fun bno s' => (Kept E s s' ∧ s'.ip = s.ip) ∧ (0 < bno → Handed E s s' bno ∧
        ∀ x, bno ≤ x → x < bno + E.fs.numfrags size → E.g.free s.cg x)) NotBig := by
  refine Ensures.get (Ensures.modify ⟨⟨Kept.cg (hg.hash_keep _ _ _), rfl⟩, fun hpos => ?_⟩)
  obtain ⟨hfree, hall⟩ := hg.hash_free _ _ _ hle hpos
  exact ⟨⟨hpos, hfree, hg.hash_used _ _ _ hle hpos⟩, hall⟩

theorem addBlocks_kept (s : State α) (n : ℤ) :
    Kept E s { s with ip := { s.ip with blocks := s.ip.blocks + n } } :=
  ⟨rfl, rfl, rfl, rfl, rfl, fun _ h => h⟩

theorem alloc_spec (hg : E.g.Honest E.fs) (bpref : ℤ) (size : ℕ) :
    Ensures (alloc E bpref size) s
      (fun nb s' => Kept E s s' ∧ Handed E s s' nb ∧
        s'.ip.blocks = s.ip.blocks + btodb size ∧
        ∀ x, nb ≤ x → x < nb + E.fs.numfrags size → E.g.free s.cg x) NotBig := by
  refine Ensures.stopIf (fun _ => panic_notBig _ _) fun hsize => Ensures.get ?_
  refine Ensures.stopIf (fun _ => enospc_notBig _) fun _ => ?_
  refine Ensures.stopIf (fun _ => enospc_notBig _) fun _ => ?_
  refine Ensures.bind (chkdq_spec hg _) fun _ s₁ ⟨hk, hip⟩ => ?_
  refine Ensures.bind (hashalloc_spec hg bpref (by omega)) fun bno s₂ ⟨⟨hk₂, hip₂⟩, hb⟩ => ?_
  by_cases hpos : 0 < bno
  · obtain ⟨⟨-, hfree, hused⟩, hroom⟩ := hb hpos
    rw [if_pos hpos]
    refine Ensures.modify ⟨(hk.trans hk₂).trans (addBlocks_kept s₂ _), ⟨hpos, ?_, hused⟩, ?_,
      fun x hx hx' => hk.free _ (hroom x hx hx')⟩
    · exact hk.free _ hfree
    · show s₂.ip.blocks + _ = _
      rw [hip₂, hip]
  · rw [if_neg hpos]
    exact nospace_spec _

/-! ## Writes of pointers -/

/-- Writing the block at an address of the file system. -/
theorem forest_setDev (s : State α) (b : ℤ) (w : ℕ → ℤ) :
    ({ s with dev := Function.update s.dev (E.fs.toDb b) w } : State α).forest E =
      (s.forest E).setBlock b w := by
  unfold State.forest Forest.setBlock
  congr 1
  funext a
  have hp : (2 : ℤ) ^ E.fs.fsbtodb ≠ 0 := pow_ne_zero _ (by decide)
  by_cases h : a = b
  · rw [h, Function.update_self]
    exact Function.update_self (E.fs.toDb b) w s.dev
  · have hne : E.fs.toDb a ≠ E.fs.toDb b := fun he => h (mul_right_cancel₀ hp he)
    rw [Function.update_of_ne h]
    exact Function.update_of_ne hne w s.dev

theorem ofDb_toDb (fs : Fs) (b : ℤ) : fs.ofDb (fs.toDb b) = b :=
  Int.mul_ediv_cancel _ (pow_ne_zero _ (by decide))

theorem forest_setDb (s : State α) (d : Fin ndaddr) (nb : ℤ) :
    ({ s with ip := { s.ip with db := Function.update s.ip.db d nb } } : State α).forest E =
      (s.forest E).setRoot (.inl d) nb := by
  unfold State.forest Forest.setRoot
  congr 1
  funext k
  rcases k with d' | r
  · by_cases h : d' = d
    · rw [h, Function.update_self]
      exact Function.update_self d nb s.ip.db
    · rw [Function.update_of_ne (by simpa using h)]
      exact Function.update_of_ne h nb s.ip.db
  · rw [Function.update_of_ne (by simp)]
    rfl

theorem forest_setIb (s : State α) (r : Fin niaddr) (nb : ℤ) :
    ({ s with ip := { s.ip with ib := Function.update s.ip.ib r nb } } : State α).forest E =
      (s.forest E).setRoot (.inr r) nb := by
  unfold State.forest Forest.setRoot
  congr 1
  funext k
  rcases k with d | r'
  · rw [Function.update_of_ne (by simp)]
    rfl
  · by_cases h : r' = r
    · rw [h, Function.update_self]
      exact Function.update_self r nb s.ip.ib
    · rw [Function.update_of_ne (by simpa using h)]
      exact Function.update_of_ne h nb s.ip.ib

/-! ## Indirect blocks -/

/-- The tree may have grown indirect blocks above `p`, and every other position keeps its
pointer. -/
structure Deeper (E : Env α) (s s' : State α) (p : Pos Root) : Prop where
  live : Live E s'
  off : ∀ q, (shape E.fs).Valid q → ¬Above q p → s'.ptr E q = s.ptr E q
  bufs : s'.bufs = s.bufs
  size : s'.ip.size = s.ip.size
  free : ∀ x, E.g.free s'.cg x → E.g.free s.cg x

theorem Deeper.refl {p : Pos Root} (hl : Live E s) : Deeper E s s p :=
  ⟨hl, fun _ _ _ => rfl, rfl, rfl, fun _ h => h⟩

theorem Deeper.trans {s'' : State α} {p : Pos Root} (h : Deeper E s s' p)
    (h' : Deeper E s' s'' p) : Deeper E s s'' p :=
  ⟨h'.live, fun q hq hd => (h'.off q hq hd).trans (h.off q hq hd), h'.bufs.trans h.bufs,
    h'.size.trans h.size, fun x hx => h.free x (h'.free x hx)⟩

/-- Data blocks are above nothing. -/
theorem not_above_of_leaf {fs : Fs} {p q : Pos Root} (hp : (shape fs).Valid p)
    (hq : q.2.length = (shape fs).depth q.1) : ¬Above q p := by
  rintro ⟨hk, -, hlt⟩
  have := hp.1
  rw [hk] at hq
  omega

theorem Deeper.coherent {p : Pos Root} (h : Deeper E s s' p) (hp : (shape E.fs).Valid p)
    (hc : Coherent E s) : Coherent E s' := by
  intro bn b hb
  rw [h.bufs] at hb
  obtain ⟨h0, q, hq, he⟩ := hc bn b hb
  obtain ⟨hv, hd⟩ := path_valid h0 hq
  exact ⟨h0, q, hq, by rw [h.off q hv (not_above_of_leaf hp hd), he]⟩

/-- A fresh block hung in at `p`, for which only the pointers and not the groups change. -/
theorem Live.graft {t : State α} {p : Pos Root} {nb : ℤ} (hl : Live E s)
    (hf : Forest.Fresh (shape E.fs) (s.forest E) nb) (hu : ¬E.g.free s.cg nb)
    (hg : Forest.Grafts (shape E.fs) (s.forest E) (t.forest E) p nb) (hcg : t.cg = s.cg) :
    Live E t where
  distinct := hl.distinct.graft hg hf
  used q hq hz := by
    have e : t.ptr E q = if q = p then nb else s.ptr E q := hg q hq
    rw [hcg]
    rw [e] at hz ⊢
    split_ifs at hz ⊢ with h
    · exact hu
    · exact hl.used q hq hz

/-- An indirect block that is allocated and cleared: nothing points to it yet. -/
structure Blank (E : Env α) (s s' : State α) (nb : ℤ) : Prop where
  live : Live E s'
  ptr : ∀ p, (shape E.fs).Valid p → s'.ptr E p = s.ptr E p
  fresh : Forest.Fresh (shape E.fs) (s'.forest E) nb
  used : ¬E.g.free s'.cg nb
  clear : ∀ i, s'.dev (E.fs.toDb nb) i = 0
  bufs : s'.bufs = s.bufs
  size : s'.ip.size = s.ip.size
  free : ∀ x, E.g.free s'.cg x → E.g.free s.cg x

theorem allocIndir_spec (hE : E.ErrorFree) (hg : E.g.Honest E.fs) (hl : Live E s) (pref : ℤ) :
    Ensures (allocIndir E pref) s (fun nb s' => Blank E s s' nb) NotBig := by
  refine Ensures.bind (alloc_spec hg pref _) fun nb s₁ ⟨hk, hh, _⟩ => ?_
  have hfresh : Forest.Fresh (shape E.fs) (s₁.forest E) nb := by
    have h := hh.fresh hl
    exact ⟨h.1, fun p hp => by
      have := hk.ptr p
      rw [State.ptr, State.ptr] at this
      rw [this]
      exact h.2 p hp⟩
  refine Ensures.modify ?_
  rw [hE.2]
  set s₂ : State α := { s₁ with dev := Function.update s₁.dev (E.fs.toDb nb) fun _ => 0 } with hs₂
  have hforest : s₂.forest E = (s₁.forest E).setBlock nb fun _ => 0 := forest_setDev ..
  have hptr : ∀ p, (shape E.fs).Valid p → s₂.ptr E p = s₁.ptr E p := fun p hp => by
    rw [State.ptr, hforest]
    exact Forest.ptr_setBlock_of_fresh hfresh hp
  have hl₁ := hk.live hl
  refine ⟨⟨?_, ?_⟩, ?_, ?_, hh.used, ?_, hk.bufs, hk.size, hk.free⟩
  · exact hl₁.distinct.congr hptr
  · intro p hp hz
    rw [hptr p hp] at hz ⊢
    exact hl₁.used p hp hz
  · intro p hp
    rw [hptr p hp, hk.ptr]
  · rw [hforest]
    exact hfresh.setBlock hfresh
  · intro i
    have h := congrFun (Function.update_self (E.fs.toDb nb) (fun _ => (0 : ℤ)) s₁.dev) i
    exact h

/-- Hanging a blank block in on the way to `p`. -/
theorem Blank.deeper {s₁ t : State α} {p r : Pos Root} {nb : ℤ} (hb : Blank E s s₁ nb)
    (hg : Forest.Grafts (shape E.fs) (s₁.forest E) (t.forest E) r nb) (hcg : t.cg = s₁.cg)
    (hbufs : t.bufs = s₁.bufs) (hsize : t.ip.size = s₁.ip.size) (hr : Above r p) :
    Deeper E s t p where
  live := hb.live.graft hb.fresh hb.used hg hcg
  off q hq hd := by
    have e : t.ptr E q = if q = r then nb else s₁.ptr E q := hg q hq
    have hne : q ≠ r := by
      rintro rfl
      exact hd hr
    rw [e, if_neg hne, hb.ptr q hq]
  bufs := hbufs.trans hb.bufs
  size := hsize.trans hb.size
  free x hx := hb.free x (hcg ▸ hx)

theorem ballocFirst_spec (hE : E.ErrorFree) (hg : E.g.Honest E.fs) (hl : Live E s) (lbn : ℤ)
    (r : Fin niaddr) {l : List ℕ} (hne : l ≠ []) :
    Ensures (ballocFirst E lbn r) s
      (fun res s' => Deeper E s s' (.inr r, l) ∧ res.1 ≠ 0 ∧ s'.ptr E (.inr r, []) = res.1)
      NotBig := by
  refine Ensures.get ?_
  by_cases hz : s.ip.ib r = 0
  · rw [if_pos hz]
    refine Ensures.bind (allocIndir_spec hE hg hl _) fun nb s₁ hb => Ensures.modify ?_
    set t : State α := { s₁ with ip := { s₁.ip with ib := Function.update s₁.ip.ib r nb } } with ht
    have hforest : t.forest E = (s₁.forest E).setRoot (.inr r) nb := forest_setIb ..
    have hroot : (s₁.forest E).root (.inr r) = 0 := by
      have h := hb.ptr (.inr r, []) ⟨Nat.zero_le _, by simp⟩
      exact h.trans hz
    have hgr : Forest.Grafts (shape E.fs) (s₁.forest E) (t.forest E) (.inr r, []) nb := by
      rw [hforest]
      exact Forest.ptr_setRoot hroot fun _ i _ => hb.clear i
    refine ⟨hb.deeper hgr rfl rfl rfl (above_append hne), hb.fresh.1, ?_⟩
    have e := hgr (.inr r, []) ⟨Nat.zero_le _, by simp⟩
    rwa [if_pos rfl] at e
  · rw [if_neg hz]
    exact ⟨Deeper.refl hl, hz, rfl⟩

/-- The loop goes down to the block that holds the slot, growing the tree where it ends. -/
theorem ballocFetch_spec (hE : E.ErrorFree) (hg : E.g.Honest E.fs) {lbn : ℤ} {k : Root} {n : ℕ}
    {nb sh bn pref : ℤ} {l : List ℕ} (hl : Live E s) (hnb : nb ≠ 0) (hat : s.ptr E (k, l) = nb)
    (hv : (shape E.fs).Valid (k, l ++ digits E.fs.nindir (n + 1) sh bn))
    (hd : l.length + n + 1 = (shape E.fs).depth k) :
    Ensures (ballocFetch E lbn n nb sh bn pref) s
      (fun res s' => Deeper E s s' (k, l ++ digits E.fs.nindir (n + 1) sh bn) ∧
        ∃ l', s'.ptr E (k, l') = res.1 ∧ res.1 ≠ 0 ∧
        l ++ digits E.fs.nindir (n + 1) sh bn = l' ++ [res.2.1]) NotBig := by
  induction n generalizing s nb sh l pref with
  | zero =>
    rw [ballocFetch]
    exact Ensures.step (bread_eq hE _ s) ⟨Deeper.refl hl, l, hat, hnb, rfl⟩
  | succ n ih =>
    rw [ballocFetch]
    refine Ensures.step (bread_eq hE _ s) ?_
    rw [digits] at hv ⊢
    set i := (bn / (sh / E.fs.nindir) % E.fs.nindir).toNat with hi
    have hcons : l ++ i :: digits E.fs.nindir (n + 1) (sh / E.fs.nindir) bn =
        (l ++ [i]) ++ digits E.fs.nindir (n + 1) (sh / E.fs.nindir) bn := by simp
    have hlen : (l ++ [i]).length + n + 1 = (shape E.fs).depth k := by
      rw [List.length_append, List.length_singleton]
      omega
    rw [hcons] at hv ⊢
    have hentry : s.ptr E (k, l ++ [i]) = s.dev (E.fs.toDb nb) i := by
      have h := (s.forest E).ptr_concat (k := k) (l := l) (by rw [← State.ptr, hat]; exact hnb) i
      rw [← State.ptr, ← State.ptr, hat] at h
      exact h
    by_cases hz : s.dev (E.fs.toDb nb) i = 0
    · rw [if_neg (not_not.mpr hz)]
      refine Ensures.get (Ensures.bind (allocIndir_spec hE hg hl _) fun newb s₁ hb => ?_)
      -- The entry is still empty, so a blank block can be hung into it.
      have hkl : (shape E.fs).Valid (k, l ++ [i]) := hv.of_append
      have hat₁ : s₁.ptr E (k, l) = nb := (hb.ptr _ hkl.of_append).trans hat
      have hz₁ : (s₁.forest E).m ((s₁.forest E).ptr (k, l)) i = 0 := by
        have h := (s₁.forest E).ptr_concat (k := k) (l := l)
          (by rw [← State.ptr, hat₁]; exact hnb) i
        rw [← h]
        exact (hb.ptr _ hkl).trans (hentry.trans hz)
      refine Ensures.step (x := setPtr E nb i newb) rfl ?_
      set t : State α := { s₁ with
        dev := Function.update s₁.dev (E.fs.toDb nb)
          (Function.update (s₁.dev (E.fs.toDb nb)) i newb) } with ht
      have hforest : t.forest E = (s₁.forest E).setEntry ((s₁.forest E).ptr (k, l)) i newb := by
        rw [← State.ptr, hat₁]
        exact forest_setDev ..
      have hgr : Forest.Grafts (shape E.fs) (s₁.forest E) (t.forest E) (k, l ++ [i]) newb := by
        rw [hforest]
        refine Forest.ptr_setEntry hb.live.distinct hkl ?_ hz₁ hb.fresh fun _ j _ => hb.clear j
        rw [← State.ptr, hat₁]
        exact hnb
      have hdeep : Deeper E s t
          (k, l ++ [i] ++ digits E.fs.nindir (n + 1) (sh / E.fs.nindir) bn) :=
        hb.deeper hgr rfl rfl rfl (above_append (List.cons_ne_nil _ _))
      have hnew : t.ptr E (k, l ++ [i]) = newb := by
        have e := hgr _ hkl
        rwa [if_pos rfl] at e
      refine (ih hdeep.live hb.fresh.1 hnew hv hlen).imp ?_ fun _ _ h => h
      rintro res s₂ ⟨hd₂, hres⟩
      exact ⟨hdeep.trans hd₂, hres⟩
    · rw [if_pos hz]
      exact ih hl hz hentry hv hlen

/-! ## Data blocks and their buffers -/

/-- The buffer of `bn` is told the place `b`, and nothing else changes. -/
structure Told (s s' : State α) (bn b : ℤ) : Prop where
  ip : s'.ip = s.ip
  dev : s'.dev = s.dev
  cg : s'.cg = s.cg
  buf : s'.bufs bn = some b
  bufs : ∀ c, c ≠ bn → s'.bufs c = s.bufs c

theorem Told.ptr {b : ℤ} (h : Told s s' bn b) (p : Pos Root) : s'.ptr E p = s.ptr E p := by
  unfold State.ptr State.forest
  rw [h.ip, h.dev]

theorem Told.live {b : ℤ} (h : Told s s' bn b) (hl : Live E s) : Live E s' where
  distinct := hl.distinct.congr fun p _ => h.ptr p
  used p hp hz := by
    rw [h.ptr] at hz ⊢
    rw [h.cg]
    exact hl.used p hp hz

theorem setBlkno_told (s : State α) (bn b : ℤ) :
    Told s { s with bufs := Function.update s.bufs bn (some b) } bn b :=
  ⟨rfl, rfl, rfl, Function.update_self .., fun _ h => Function.update_of_ne h ..⟩

/-- A buffer that is read carries the place of its block. -/
theorem vbread_spec (hE : E.ErrorFree) (hc : Coherent E s) (h0 : 0 ≤ bn) {p : Pos Root}
    (hp : path E.fs bn = some p) (size : ℕ) (Q : Stop → State α → Prop) :
    Ensures (vbread E bn size) s
      (fun bp s' => bp = ⟨bn, place E.fs (s.ptr E p), size⟩ ∧
        Told s s' bn (place E.fs (s.ptr E p))) Q := by
  refine Ensures.get ?_
  cases hb : s.bufs bn with
  | some b =>
    obtain ⟨-, p', hp', rfl⟩ := hc bn b hb
    obtain rfl : p = p' := Option.some.inj (hp.symm.trans hp')
    exact ⟨rfl, rfl, rfl, rfl, hb, fun _ _ => rfl⟩
  | none =>
    have hbmap : bmap E bn s = .ok (place E.fs (s.ptr E p)) s := by
      rw [bmap_eq hE, if_neg (by omega), hp]
    refine Ensures.step hbmap (Ensures.bind (P := fun _ s' => s' = s) ?_ ?_)
    · refine Ensures.runIf (fun _ => ?_) fun _ => rfl
      unfold diskRead
      rw [hE.1]
      rfl
    · rintro _ _ rfl
      exact Ensures.modify ⟨rfl, setBlkno_told ..⟩

/-- The data block of `bn` is at `nb`, and every other data block where it was. -/
structure Placed (E : Env α) (s s' : State α) (bn : ℤ) (p : Pos Root) (nb : ℤ) : Prop where
  live : Live E s'
  ne : nb ≠ 0
  here : s'.ptr E p = nb
  off : ∀ q, (shape E.fs).Valid q → ¬Above q p → q ≠ p → s'.ptr E q = s.ptr E q
  buf : s'.bufs bn = some (E.fs.toDb nb)
  bufs : ∀ c, c ≠ bn → s'.bufs c = s.bufs c

theorem Placed.coherent {p : Pos Root} {nb : ℤ} (h : Placed E s s' bn p nb) (h0 : 0 ≤ bn)
    (hp : path E.fs bn = some p) (hc : Coherent E s) : Coherent E s' := by
  intro c b hb
  by_cases hcb : c = bn
  · subst hcb
    rw [h.buf] at hb
    refine ⟨h0, p, hp, ?_⟩
    rw [h.here, place, if_neg h.ne]
    exact (Option.some.inj hb).symm
  · rw [h.bufs c hcb] at hb
    obtain ⟨hc0, q, hq, rfl⟩ := hc c b hb
    obtain ⟨hv, hd⟩ := path_valid hc0 hq
    have hqp : q ≠ p := by
      rintro rfl
      exact hcb (path_inj hc0 h0 hq hp)
    exact ⟨hc0, q, hq, by rw [h.off q hv (not_above_of_leaf (path_valid h0 hp).1 hd) hqp]⟩

/-- A block that is there already. -/
theorem Told.placed {p : Pos Root} (h : Told s s' bn (place E.fs (s.ptr E p))) (hl : Live E s)
    (hz : s.ptr E p ≠ 0) : Placed E s s' bn p (s.ptr E p) where
  live := h.live hl
  ne := hz
  here := h.ptr p
  off q _ _ _ := h.ptr q
  buf := by rw [h.buf, place, if_neg hz]
  bufs := h.bufs

/-- The slot of an indirect block is filled, or is full already. -/
theorem ballocData_spec (hE : E.ErrorFree) (hg : E.g.Honest E.fs) (hl : Live E s)
    (hc : Coherent E s) (h0 : 0 ≤ bn) {k : Root} {l : List ℕ} {b : ℤ} {i : ℕ}
    (hp : path E.fs bn = some (k, l ++ [i])) (hat : s.ptr E (k, l) = b) (hb : b ≠ 0)
    (clrbuf : Bool) :
    Ensures (ballocData E bn b i clrbuf) s
      (fun bp s' => bp.lblkno = bn ∧ ∃ nb, bp.blkno = E.fs.toDb nb ∧
        Placed E s s' bn (k, l ++ [i]) nb) NotBig := by
  obtain ⟨hv, hd⟩ := path_valid h0 hp
  have hentry : s.ptr E (k, l ++ [i]) = s.dev (E.fs.toDb b) i := by
    have h := (s.forest E).ptr_concat (k := k) (l := l) (by rw [← State.ptr, hat]; exact hb) i
    rw [← State.ptr, ← State.ptr, hat] at h
    exact h
  refine Ensures.get ?_
  by_cases hz : s.dev (E.fs.toDb b) i = 0
  · rw [if_pos hz]
    refine Ensures.bind (alloc_spec hg _ _) fun nb s₁ ⟨hk, hh, _⟩ => ?_
    refine Ensures.step (x := setBlkno bn (E.fs.toDb nb)) rfl ?_
    refine Ensures.step (x := setPtr E b i nb) rfl ?_
    set s₂ : State α := { s₁ with bufs := Function.update s₁.bufs bn (some (E.fs.toDb nb)) }
      with hs₂
    set t : State α := { s₂ with
      dev := Function.update s₂.dev (E.fs.toDb b) (Function.update (s₂.dev (E.fs.toDb b)) i nb) }
      with ht
    have htold : Told s₁ s₂ bn (E.fs.toDb nb) := setBlkno_told ..
    have hptr : ∀ q, s₂.ptr E q = s.ptr E q := fun q => (htold.ptr q).trans (hk.ptr q)
    have hl₂ : Live E s₂ := htold.live (hk.live hl)
    have hfresh : Forest.Fresh (shape E.fs) (s₂.forest E) nb := by
      refine ⟨hh.pos.ne', fun q hq => ?_⟩
      have h := (hh.fresh hl).2 q hq
      rw [← State.ptr] at h ⊢
      rwa [hptr]
    have hforest : t.forest E = (s₂.forest E).setEntry ((s₂.forest E).ptr (k, l)) i nb := by
      rw [← State.ptr, hptr, hat]
      exact forest_setDev ..
    have hgr : Forest.Grafts (shape E.fs) (s₂.forest E) (t.forest E) (k, l ++ [i]) nb := by
      rw [hforest]
      refine Forest.ptr_setEntry hl₂.distinct hv ?_ ?_ hfresh fun hlt => ?_
      · rw [← State.ptr, hptr, hat]
        exact hb
      · rw [← State.ptr, hptr, hat]
        show s₁.dev (E.fs.toDb b) i = 0
        rw [hk.dev]
        exact hz
      · rw [List.length_append, List.length_singleton] at hd
        exact absurd hd hlt.ne
    refine ⟨rfl, nb, rfl, hl₂.graft hfresh hh.used hgr rfl, hh.pos.ne', ?_, ?_, ?_, ?_⟩
    · have e := hgr _ hv
      rwa [if_pos rfl] at e
    · intro q hq _ hne
      have e := hgr q hq
      rw [if_neg hne] at e
      exact e.trans (hptr q)
    · exact htold.buf
    · intro c hcb
      exact (htold.bufs c hcb).trans (congrFun hk.bufs c)
  · rw [if_neg hz]
    have hnz : s.ptr E (k, l ++ [i]) ≠ 0 := by rwa [hentry]
    have hpl : place E.fs (s.ptr E (k, l ++ [i])) = E.fs.toDb (s.dev (E.fs.toDb b) i) := by
      rw [place, if_neg hnz, hentry]
    cases clrbuf with
    | true =>
      rw [if_pos rfl]
      refine (vbread_spec hE hc h0 hp _ _).imp ?_ fun _ _ h => h
      rintro bp s' ⟨rfl, htold⟩
      exact ⟨rfl, _, by rw [place, if_neg hnz], htold.placed hl hnz⟩
    | false =>
      rw [if_neg (by simp)]
      refine Ensures.modify ⟨rfl, _, rfl, ?_⟩
      have htold := setBlkno_told s bn (E.fs.toDb (s.dev (E.fs.toDb b) i))
      rw [← hpl] at htold
      rw [← hentry, ← show place E.fs (s.ptr E (k, l ++ [i])) = E.fs.toDb (s.ptr E (k, l ++ [i])) by
        rw [place, if_neg hnz]]
      exact htold.placed hl hnz

/-! ## Fragments that grow -/

/-- The first `size` bytes at a direct block belong to it alone. -/
def Own (E : Env α) (s : State α) (d : Fin ndaddr) (size : ℕ) : Prop :=
  s.ip.db d ≠ 0 → ∀ x, s.ip.db d ≤ x → x < s.ip.db d + E.fs.numfrags size →
    ¬E.g.free s.cg x ∧
    ∀ q, (shape E.fs).Valid q → q ≠ (.inl d, []) → s.ptr E q ≠ 0 → s.ptr E q ≠ x

/-- The direct block `d` is being put at `nb`: the pointer is not written yet. -/
structure Moving (E : Env α) (s s' : State α) (d : Fin ndaddr) (nb : ℤ) : Prop where
  db : s'.ip.db = s.ip.db
  ib : s'.ip.ib = s.ip.ib
  size : s'.ip.size = s.ip.size
  dev : s'.dev = s.dev
  ne : nb ≠ 0
  origin : nb = s.ip.db d ∨ E.g.free s.cg nb
  used : ¬E.g.free s'.cg nb
  others : ∀ q, (shape E.fs).Valid q → q ≠ (.inl d, []) → s.ptr E q ≠ 0 →
    ¬E.g.free s'.cg (s.ptr E q)
  buf : s'.bufs d.val = some (E.fs.toDb nb)
  bufs : ∀ c, c ≠ (d.val : ℤ) → s'.bufs c = s.bufs c

theorem direct_valid (fs : Fs) (d : Fin ndaddr) : (shape fs).Valid (.inl d, []) :=
  ⟨Nat.zero_le _, by simp⟩

theorem path_direct (fs : Fs) (d : Fin ndaddr) : path fs (d.val : ℤ) = some (.inl d, []) := by
  unfold path direct
  rw [dif_pos (by simp)]
  rfl

/-- Writing the pointer completes the move. -/
theorem Moving.placed {d : Fin ndaddr} {nb : ℤ} {t : State α} (h : Moving E s s' d nb)
    (hl : Live E s)
    (ht : t.ip.db = Function.update s'.ip.db d nb ∧ t.ip.ib = s'.ip.ib ∧ t.dev = s'.dev ∧
      t.bufs = s'.bufs ∧ t.cg = s'.cg) :
    Placed E s t d.val (.inl d, []) nb := by
  obtain ⟨hdb, hib, hdev, hbufs, hcg⟩ := ht
  have hforest : t.forest E = (s.forest E).setRoot (.inl d) nb := by
    rw [← forest_setDb]
    unfold State.forest
    rw [hdb, hib, hdev, h.db, h.ib, h.dev]
  have hgr : Forest.Grafts (shape E.fs) (s.forest E) (t.forest E) (.inl d, []) nb := by
    rw [hforest]
    exact Forest.ptr_setRoot_leaf rfl
  have hptr : ∀ q, (shape E.fs).Valid q → q ≠ (.inl d, []) → t.ptr E q = s.ptr E q := by
    intro q hq hne
    have e := hgr q hq
    rwa [if_neg hne] at e
  have hhere : t.ptr E (.inl d, []) = nb := by
    have e := hgr _ (direct_valid E.fs d)
    rwa [if_pos rfl] at e
  refine ⟨⟨?_, ?_⟩, h.ne, hhere, fun q hq _ hne => hptr q hq hne, ?_, ?_⟩
  · rcases h.origin with he | hfree
    · -- Extended in its place: no pointer has changed.
      refine hl.distinct.congr fun q hq => ?_
      have e := hgr q hq
      split_ifs at e with hq'
      · rw [e, hq', he]
        rfl
      · exact e
    · refine hl.distinct.graft hgr ⟨h.ne, fun q hq he => ?_⟩
      have hz : s.ptr E q ≠ 0 := by
        rw [State.ptr, he]
        exact h.ne
      have hu := hl.used q hq hz
      rw [State.ptr, he] at hu
      exact hu hfree
  · intro q hq hz
    rw [hcg]
    by_cases hne : q = (.inl d, [])
    · rw [hne, hhere]
      exact h.used
    · rw [hptr q hq hne] at hz ⊢
      exact h.others q hq hne hz
  · rw [hbufs]
    exact h.buf
  · rw [hbufs]
    exact h.bufs

theorem numfrags_pos {fs : Fs} {n : ℕ} (h : fs.fragoff n = 0) (hn : 0 < n) :
    0 < fs.numfrags n := by
  have hp : 0 < fs.fsize := Nat.pow_pos (by decide)
  exact Nat.div_pos (Nat.le_of_dvd hn (Nat.dvd_of_mod_eq_zero h)) hp

theorem numfrags_add_le (fs : Fs) {m n : ℕ} (h : m ≤ n) :
    fs.numfrags m + fs.numfrags (n - m) ≤ fs.numfrags n := by
  have e : m / fs.fsize + (n - m) / fs.fsize ≤ (m + (n - m)) / fs.fsize :=
    Nat.div_add_div_le_add_div
  rwa [Nat.add_sub_cancel' h] at e

/-- The fragment `d` is in its buffer, and nothing has moved. -/
structure Pending (E : Env α) (s s' : State α) (d : Fin ndaddr) : Prop where
  db : s'.ip.db = s.ip.db
  ib : s'.ip.ib = s.ip.ib
  size : s'.ip.size = s.ip.size
  dev : s'.dev = s.dev
  free : ∀ x, E.g.free s'.cg x → E.g.free s.cg x
  buf : s'.bufs d.val = some (E.fs.toDb (s.ip.db d))
  bufs : ∀ c, c ≠ (d.val : ℤ) → s'.bufs c = s.bufs c

theorem Pending.kept {s'' : State α} {d : Fin ndaddr} (h : Pending E s s' d)
    (hk : Kept E s' s'') : Pending E s s'' d where
  db := hk.db.trans h.db
  ib := hk.ib.trans h.ib
  size := hk.size.trans h.size
  dev := hk.dev.trans h.dev
  free x hx := h.free x (hk.free x hx)
  buf := (congrFun hk.bufs _).trans h.buf
  bufs c hc := (congrFun hk.bufs c).trans (h.bufs c hc)

/-- An extension in place. -/
theorem Pending.stays {d : Fin ndaddr} (h : Pending E s s' d) (hl : Live E s)
    (hz : s.ip.db d ≠ 0) : Moving E s s' d (s.ip.db d) where
  db := h.db
  ib := h.ib
  size := h.size
  dev := h.dev
  ne := hz
  origin := .inl rfl
  used hx := hl.used _ (direct_valid E.fs d) hz (h.free _ hx)
  others q hq _ hqz hx := hl.used q hq hqz (h.free _ hx)
  buf := h.buf
  bufs := h.bufs

/-- What is given back when a fragment moves, its old place and the rest of the new block, leaves
the new place and the blocks of the others in use. -/
theorem not_free_of_given_back (hg : E.g.Honest E.fs) (hl : Live E s) {d : Fin ndaddr}
    {osize nsize request : ℕ} {nb : ℤ} {a a' : α} (ho : Own E s d osize) (hz : s.ip.db d ≠ 0)
    (hn : 0 < E.fs.numfrags nsize) (hf : E.g.free s.cg nb) (hu : ¬E.g.free a nb)
    (hkeep : ∀ x, E.g.free a x → E.g.free s.cg x)
    (hall : ∀ x, nb ≤ x → x < nb + E.fs.numfrags request → E.g.free s.cg x)
    (ha' : ∀ x, E.g.free a' x → E.g.free (E.g.blkfree a (s.ip.db d) osize) x ∨
      (nb + E.fs.numfrags nsize ≤ x ∧ x < nb + E.fs.numfrags request)) :
    ¬E.g.free a' nb ∧ ∀ q, (shape E.fs).Valid q → q ≠ (.inl d, []) → s.ptr E q ≠ 0 →
      ¬E.g.free a' (s.ptr E q) := by
  constructor
  · intro hx
    rcases ha' _ hx with hx | hx
    · rcases hg.blkfree_free _ _ _ _ hx with hx | hx
      · exact hu hx
      · exact (ho hz nb hx.1 hx.2).1 hf
    · omega
  · intro q hq hne hqz hx
    rcases ha' _ hx with hx | hx
    · rcases hg.blkfree_free _ _ _ _ hx with hx | hx
      · exact hl.used q hq hqz (hkeep _ hx)
      · exact (ho hz _ hx.1 hx.2).2 q hq hne hqz rfl
    · exact hl.used q hq hqz (hall _ (by omega) hx.2)

theorem reallocMove_spec (hg : E.g.Honest E.fs) {s₀ : State α} (hl : Live E s₀)
    {d : Fin ndaddr} {osize nsize : ℕ} (hp : Pending E s₀ s d) (ho : Own E s₀ d osize)
    (hz : s₀.ip.db d ≠ 0) (hle : nsize ≤ E.fs.bsize) (hn : 0 < E.fs.numfrags nsize) (bpref : ℤ)
    {bp : Buf} (hbp : bp.lblkno = d.val) :
    Ensures (reallocMove E d (s₀.ip.db d) bpref osize nsize bp) s
      (fun bp s' => bp.lblkno = d.val ∧ ∃ nb, bp.blkno = E.fs.toDb nb ∧ Moving E s₀ s' d nb)
      NotBig := by
  refine Ensures.get (Ensures.modify ?_)
  set s₁ : State α := { s with cg := (E.g.optim s.cg).2 } with hs₁
  have hp₁ : Pending E s₀ s₁ d := hp.kept (Kept.cg (hg.optim_keep _))
  cases (E.g.optim s.cg).1 with
  | none => exact panic_notBig _ s₁
  | some space =>
    show Ensures (hashalloc E bpref (if space then nsize else E.fs.bsize) >>= _) _ _ _
    have hreq : nsize ≤ (if space then nsize else E.fs.bsize) ∧
        (if space then nsize else E.fs.bsize) ≤ E.fs.bsize := by split <;> omega
    generalize (if space then nsize else E.fs.bsize) = request at hreq
    refine Ensures.bind (hashalloc_spec hg bpref hreq.2) fun nb s₂ ⟨⟨hk₂, _⟩, hh⟩ => ?_
    by_cases hpos : 0 < nb
    · obtain ⟨⟨-, hf, hu⟩, hall⟩ := hh hpos
      have hp₂ := hp₁.kept hk₂
      rw [if_pos hpos]
      refine Ensures.step (x := setBlkno (d.val : ℤ) (E.fs.toDb nb)) rfl ?_
      refine Ensures.step (x := blkfree E (s₀.ip.db d) osize) rfl ?_
      refine Ensures.bind (P := fun _ s' =>
        (∃ a', s' = { s₂ with
          bufs := Function.update s₂.bufs (d.val : ℤ) (some (E.fs.toDb nb)), cg := a' } ∧
          ∀ x, E.g.free a' x → E.g.free (E.g.blkfree s₂.cg (s₀.ip.db d) osize) x ∨
            (nb + E.fs.numfrags nsize ≤ x ∧ x < nb + E.fs.numfrags request))) ?_ ?_
      · refine Ensures.runIf (fun hlt => ?_) fun _ => ⟨_, rfl, fun x hx => .inl hx⟩
        refine Ensures.get (f := fun s => setCg (E.g.blkfree s.cg _ _)) ⟨_, rfl, fun x hx => ?_⟩
        rcases hg.blkfree_free _ _ _ x hx with hx | hx
        · exact .inl hx
        · have := numfrags_add_le E.fs hreq.1
          exact .inr ⟨hx.1, by omega⟩
      · rintro _ _ ⟨a', rfl, ha'⟩
        obtain ⟨hnu, hothers⟩ := not_free_of_given_back hg hl ho hz hn (hp₁.free _ hf) hu
          hp₂.free (fun x h h' => hp₁.free x (hall x h h')) ha'
        exact Ensures.modify ⟨hbp, nb, rfl, hp₂.db, hp₂.ib, hp₂.size, hp₂.dev, hpos.ne',
          .inr (hp₁.free _ hf), hnu, hothers, Function.update_self ..,
          fun c hcd => (Function.update_of_ne hcd _ _).trans (hp₂.bufs c hcd)⟩
    · rw [if_neg hpos]
      exact nospace_spec _

/-- `realloccg` puts the fragment where it was, or where nothing was. -/
theorem realloccg_spec (hE : E.ErrorFree) (hg : E.g.Honest E.fs) (hl : Live E s)
    (hc : Coherent E s) {d : Fin ndaddr} {osize nsize : ℕ} (ho : Own E s d osize)
    (hn : 0 < nsize) (bpref : ℤ) :
    Ensures (realloccg E d bpref osize nsize) s
      (fun bp s' => bp.lblkno = d.val ∧ ∃ nb, bp.blkno = E.fs.toDb nb ∧ Moving E s s' d nb)
      NotBig := by
  refine Ensures.stopIf (fun _ => panic_notBig _ _) fun hsize => Ensures.get ?_
  refine Ensures.stopIf (fun _ => enospc_notBig _) fun _ => ?_
  refine Ensures.stopIf (fun _ => panic_notBig _ _) fun hz => ?_
  refine Ensures.bind (vbread_spec hE hc (by simp) (path_direct E.fs d) osize _) ?_
  rintro _ s₁ ⟨rfl, htold⟩
  have hpl : place E.fs (s.ptr E (.inl d, [])) = E.fs.toDb (s.ip.db d) := if_neg hz
  rw [hpl] at htold ⊢
  have hp₁ : Pending E s s₁ d := ⟨congrArg Inode.db htold.ip, congrArg Inode.ib htold.ip,
    congrArg Inode.size htold.ip, htold.dev, fun x hx => htold.cg ▸ hx, htold.buf, htold.bufs⟩
  refine Ensures.bind (chkdq_spec hg _) fun _ s₂ ⟨hk, _⟩ => ?_
  refine Ensures.bind (P := fun bno s' => (bno = 0 ∨ bno = s.ip.db d) ∧ Kept E s₂ s')
    (Ensures.get (Ensures.modify ⟨hg.frag_place _ _ _ _, Kept.cg (hg.frag_keep _ _ _ _)⟩)) ?_
  rintro bno s₃ ⟨hbno, hk₃⟩
  have hp₃ := (hp₁.kept hk).kept hk₃
  by_cases hb0 : bno = 0
  · rw [if_neg (not_not.mpr hb0)]
    exact reallocMove_spec hg hl hp₃ ho hz (by omega) (numfrags_pos (by omega) hn) _ rfl
  · have hbn : bno = s.ip.db d := hbno.resolve_left hb0
    subst hbn
    rw [if_pos hb0]
    refine Ensures.stopIf (fun _ => panic_notBig _ _) fun _ => Ensures.modify ⟨rfl, _, rfl, ?_⟩
    exact (hp₃.kept (addBlocks_kept s₃ _)).stays hl hz

/-! ## `balloc` -/

/-- What `balloc` finds when it has dealt with the end of the file. -/
structure Ready (E : Env α) (s : State α) : Prop where
  live : Live E s
  coherent : Coherent E s
  own : ∀ d : Fin ndaddr, s.ip.size < (d + 1) * E.fs.bsize →
    Own E s d (E.fs.fragroundup (E.fs.blkoff s.ip.size))

theorem Tree.ready (ht : Tree E s) (hc : Coherent E s) : Ready E s := by
  refine ⟨ht.live, hc, fun d hd hz x hx hx' => ?_⟩
  have hholds : s.Holds E (.inl d, []) x := by
    refine ⟨hz, hx, ?_⟩
    have hb : E.fs.blksize s.ip.size d = E.fs.fragroundup (E.fs.blkoff s.ip.size) := by
      rw [Fs.blksize, if_neg (by omega)]
    have hle : E.fs.numfrags (E.fs.fragroundup (E.fs.blkoff s.ip.size)) ≤
        frags E.fs s.ip.size (.inl d, []) := by
      rw [frags, hb]
      exact le_max_right _ _
    show x < s.ip.db d + _
    omega
  refine ⟨ht.used _ x (direct_valid E.fs d) hholds, fun q hq hne hqz hqx => hne ?_⟩
  subst hqx
  exact ht.once _ _ _ hq (direct_valid E.fs d) (State.holds_self hqz) hholds

/-- The write of the block `bn` leaves behind the fragment `d`. -/
def Extends (E : Env α) (s : State α) (bn : ℤ) (d : Fin ndaddr) : Prop :=
  d.val = E.fs.lblkno s.ip.size ∧ (d.val : ℤ) < bn ∧
    0 < E.fs.blksize s.ip.size d ∧ E.fs.blksize s.ip.size d < E.fs.bsize

/-- The data blocks are where they were, except that a fragment left behind may have moved to a
place that was free. -/
structure Shifted (E : Env α) (s s' : State α) (bn : ℤ) : Prop where
  ready : Ready E s'
  leaf : ∀ q, (shape E.fs).Valid q → q.2.length = (shape E.fs).depth q.1 →
    s'.ptr E q = s.ptr E q ∨
      ∃ d, Extends E s bn d ∧ q = (.inl d, []) ∧ s'.ptr E q ≠ 0 ∧ E.g.free s.cg (s'.ptr E q)

theorem extendTo_spec (hE : E.ErrorFree) (hg : E.g.Honest E.fs) (hr : Ready E s)
    {d : Fin ndaddr} (hx : Extends E s bn d) :
    Ensures (extendTo E d (E.fs.blksize s.ip.size d)) s (fun _ s' => Shifted E s s' bn)
      NotBig := by
  obtain ⟨-, -, hpos, hlt⟩ := id hx
  have hnot : ¬(ndaddr ≤ d.val ∨ (d.val + 1) * E.fs.bsize ≤ s.ip.size) := by
    intro h
    rw [Fs.blksize, if_pos h] at hlt
    exact lt_irrefl _ hlt
  have hsize : E.fs.blksize s.ip.size d = E.fs.fragroundup (E.fs.blkoff s.ip.size) := by
    rw [Fs.blksize, if_neg hnot]
  have hown := hr.own d (by omega)
  rw [← hsize] at hown
  refine Ensures.get (Ensures.bind
    (realloccg_spec hE hg hr.live hr.coherent hown (Nat.pow_pos (by decide)) _) ?_)
  rintro bp s₁ ⟨-, nb, hblk, hm⟩
  refine Ensures.step (x := setSize _) rfl ?_
  rw [hblk, ofDb_toDb]
  set t : State α := { s₁ with ip := { s₁.ip with
    size := (d + 1) * E.fs.bsize, db := Function.update s₁.ip.db d nb } } with ht
  have hpl : Placed E s t d.val (.inl d, []) nb := hm.placed hr.live ⟨rfl, rfl, rfl, rfl, rfl⟩
  show Shifted E s t bn
  refine ⟨⟨hpl.live, hpl.coherent (by simp) (path_direct E.fs d) hr.coherent, ?_⟩, ?_⟩
  · -- The file now ends at the end of a block, so no direct block is a fragment of it.
    intro e _ _ x hx1 hx2
    have hp : 0 < E.fs.fsize := Nat.pow_pos (by decide)
    have h0 : E.fs.fragroundup (E.fs.blkoff ((d + 1) * E.fs.bsize)) = 0 := by
      rw [Fs.blkoff, Nat.mul_mod_left, Fs.fragroundup, Nat.div_eq_of_lt (by omega), Nat.zero_mul]
    rw [show t.ip.size = (d + 1) * E.fs.bsize from rfl, h0, Fs.numfrags, Nat.zero_div] at hx2
    omega
  · intro q hq hqd
    by_cases hne : q = (.inl d, [])
    · subst hne
      rcases hm.origin with he | hf
      · exact .inl (hpl.here.trans he)
      · rw [hpl.here]
        exact .inr ⟨d, hx, rfl, hm.ne, hf⟩
    · exact .inl (hpl.off q hq (not_above_of_leaf (direct_valid E.fs d) hqd) hne)

theorem extendLast_spec (hE : E.ErrorFree) (hg : E.g.Honest E.fs) (hr : Ready E s) (bn : ℤ) :
    Ensures (extendLast E bn) s (fun _ s' => Shifted E s s' bn) NotBig := by
  have hsame : Shifted E s s bn := ⟨hr, fun _ _ _ => .inl rfl⟩
  refine Ensures.get ?_
  dsimp only
  cases hd : direct (E.fs.lblkno s.ip.size) with
  | none => exact hsame
  | some d =>
    have hnb : E.fs.lblkno s.ip.size = d.val := by
      unfold direct at hd
      split_ifs at hd
      exact congrArg Fin.val (Option.some.inj hd)
    show Ensures (runIf _ (extendTo E d (E.fs.blksize s.ip.size (E.fs.lblkno s.ip.size)))) _ _ _
    rw [hnb]
    exact Ensures.runIf (fun h => extendTo_spec hE hg hr ⟨hnb.symm, h.1, h.2.2, h.2.1⟩)
      fun _ => hsame

theorem ballocFrag_spec (hE : E.ErrorFree) (hg : E.g.Honest E.fs) (hr : Ready E s)
    {d : Fin ndaddr} (hd : s.ip.db d = 0 ∨ s.ip.size < (d + 1) * E.fs.bsize) (size : ℕ) :
    Ensures (ballocFrag E d size) s
      (fun bp s' => bp.lblkno = d.val ∧ ∃ nb, bp.blkno = E.fs.toDb nb ∧ Moving E s s' d nb)
      NotBig := by
  refine Ensures.get ?_
  by_cases hz : s.ip.db d = 0
  · rw [if_neg (not_not.mpr hz)]
    refine Ensures.bind (alloc_spec hg _ _) fun nb s₁ ⟨hk, hh, _⟩ => Ensures.modify ?_
    have htold := setBlkno_told s₁ d.val (E.fs.toDb nb)
    refine ⟨rfl, nb, rfl, hk.db, hk.ib, hk.size, hk.dev, hh.pos.ne', .inr hh.free, hh.used, ?_,
      htold.buf, fun c hc => (htold.bufs c hc).trans (congrFun hk.bufs c)⟩
    exact fun q hq _ hqz hx => hr.live.used q hq hqz (hk.free _ hx)
  · rw [if_pos hz]
    have hown := hr.own d (hd.resolve_left hz)
    show Ensures (if E.fs.fragroundup size ≤ E.fs.fragroundup (E.fs.blkoff s.ip.size) then _
      else _) s _ _
    split_ifs with hle
    · refine (vbread_spec hE hr.coherent (by simp) (path_direct E.fs d) _ _).imp ?_ fun _ _ h => h
      rintro _ s' ⟨rfl, htold⟩
      have hpl : place E.fs (s.ptr E (.inl d, [])) = E.fs.toDb (s.ip.db d) := if_neg hz
      rw [hpl] at htold ⊢
      have hp : Pending E s s' d := ⟨congrArg Inode.db htold.ip, congrArg Inode.ib htold.ip,
        congrArg Inode.size htold.ip, htold.dev, fun x hx => htold.cg ▸ hx, htold.buf, htold.bufs⟩
      exact ⟨rfl, _, rfl, hp.stays hr.live hz⟩
    · exact realloccg_spec hE hg hr.live hr.coherent hown (by omega) _

theorem ballocDirect_spec (hE : E.ErrorFree) (hg : E.g.Honest E.fs) (hr : Ready E s)
    (d : Fin ndaddr) (size : ℕ) :
    Ensures (ballocDirect E d size) s
      (fun bp s' => bp.lblkno = d.val ∧ ∃ nb, bp.blkno = E.fs.toDb nb ∧
        Placed E s s' d.val (.inl d, []) nb) NotBig := by
  refine Ensures.get ?_
  split_ifs with h
  · refine (vbread_spec hE hr.coherent (by simp) (path_direct E.fs d) _ _).imp ?_ fun _ _ h => h
    rintro _ s' ⟨rfl, htold⟩
    exact ⟨rfl, _, if_neg h.1, htold.placed hr.live h.1⟩
  · have hd : s.ip.db d = 0 ∨ s.ip.size < (d + 1) * E.fs.bsize := by
      by_cases hz : s.ip.db d = 0
      · exact .inl hz
      · exact .inr (Nat.lt_of_not_le fun hle => h ⟨hz, hle⟩)
    refine Ensures.bind (ballocFrag_spec hE hg hr hd size) ?_
    rintro bp s₁ ⟨hlbn, nb, hblk, hm⟩
    rw [hblk, ofDb_toDb]
    exact Ensures.modify ⟨hlbn, nb, hblk, hm.placed hr.live ⟨rfl, rfl, rfl, rfl, rfl⟩⟩

theorem ballocIndir_spec (hE : E.ErrorFree) (hg : E.g.Honest E.fs) (hr : Ready E s) (h0 : 0 ≤ bn)
    {j : ℕ} {sh b : ℤ}
    (hp : path E.fs bn = some (.inr (ibOf j), digits E.fs.nindir (niaddr - j + 1) sh b))
    (clrbuf : Bool) :
    Ensures (ballocIndir E bn j sh b clrbuf) s
      (fun bp t => bp.lblkno = bn ∧ ∃ nb, bp.blkno = E.fs.toDb nb ∧
        Placed E s t bn (.inr (ibOf j), digits E.fs.nindir (niaddr - j + 1) sh b) nb) NotBig := by
  obtain ⟨hv, hdep⟩ := path_valid h0 hp
  refine Ensures.bind (ballocFirst_spec hE hg hr.live bn (ibOf j)
    (l := digits E.fs.nindir (niaddr - j + 1) sh b) (List.cons_ne_nil _ _)) ?_
  rintro ⟨nb, pref⟩ s₁ ⟨hd₁, hnb, hat⟩
  have hlen : ([] : List ℕ).length + (niaddr - j) + 1 = (shape E.fs).depth (.inr (ibOf j)) := by
    rw [← hdep, digits_length, List.length_nil, Nat.zero_add]
  refine Ensures.bind (ballocFetch_spec hE hg hd₁.live hnb hat hv hlen) ?_
  rintro ⟨p, i, pref'⟩ s₂ ⟨hd₂, l', hat', hp0, hl'⟩
  rw [List.nil_append] at hl' hd₂
  have hdeep := hd₁.trans hd₂
  have hcoh := hdeep.coherent hv hr.coherent
  rw [hl'] at hp hdeep ⊢
  refine (ballocData_spec hE hg hd₂.live hcoh h0 hp hat' hp0 clrbuf).imp ?_ fun _ _ h => h
  rintro bp t ⟨hlbn, nb', hblk, hpl⟩
  refine ⟨hlbn, nb', hblk, hpl.live, hpl.ne, hpl.here, ?_, hpl.buf, ?_⟩
  · exact fun q hq hqd hne => (hpl.off q hq hqd hne).trans (hdeep.off q hq hqd)
  · exact fun c hc => (hpl.bufs c hc).trans (congrFun hdeep.bufs c)

theorem ballocLevels_spec (hE : E.ErrorFree) (hg : E.g.Honest E.fs) (hr : Ready E s)
    (h0 : 0 ≤ bn) (hd : direct bn.toNat = none) (clrbuf : Bool) :
    Ensures (ballocLevels E bn clrbuf) s
      (fun bp t => bp.lblkno = bn ∧ ∃ p nb, path E.fs bn = some p ∧ bp.blkno = E.fs.toDb nb ∧
        Placed E s t bn p nb)
      (fun e _ => e = .errno efbig → path E.fs bn = none) := by
  unfold ballocLevels
  split
  · rename_i hl
    intro _
    unfold path
    rw [hd, hl]
    rfl
  · rename_i j sh b hl
    have hp : path E.fs bn =
        some (.inr (ibOf j), digits E.fs.nindir (niaddr - j + 1) sh b) := by
      unfold path
      rw [hd, hl]
      rfl
    refine (ballocIndir_spec hE hg hr h0 hp clrbuf).imp ?_ fun _ _ h he => absurd he h
    rintro bp t ⟨hlbn, nb, hblk, hpl⟩
    exact ⟨hlbn, _, nb, hp, hblk, hpl⟩

/-- A successful `balloc`: the data block of `bn` is in place, and the others are where they were
but for a fragment left behind. An error is no `EFBIG` unless `bn` has no position. -/
theorem balloc_spec (hE : E.ErrorFree) (hg : E.g.Honest E.fs) (hr : Ready E s) (bn : ℤ)
    (size : ℕ) (clrbuf : Bool) :
    Ensures (balloc E bn size clrbuf) s
      (fun bp t => 0 ≤ bn ∧ bp.lblkno = bn ∧ ∃ p nb s₁, path E.fs bn = some p ∧
        bp.blkno = E.fs.toDb nb ∧ Shifted E s s₁ bn ∧ Placed E s₁ t bn p nb)
      (fun e _ => e = .errno efbig → bn < 0 ∨ path E.fs bn = none) := by
  have notBig : ∀ {e : Stop} {t : State α}, NotBig e t →
      e = .errno efbig → bn < 0 ∨ path E.fs bn = none := fun h he => absurd he h
  refine Ensures.stopIf (fun hneg _ => .inl hneg) fun hneg => ?_
  have h0 : 0 ≤ bn := by omega
  refine Ensures.bind ((extendLast_spec hE hg hr bn).imp (fun _ _ h => h) fun _ _ => notBig) ?_
  intro _ s₁ hs
  cases hd : direct bn.toNat with
  | some d =>
    have hbn : bn = d.val := by
      unfold direct at hd
      split_ifs at hd
      have := congrArg Fin.val (Option.some.inj hd)
      simp only at this
      omega
    subst hbn
    refine (ballocDirect_spec hE hg hs.ready d size).imp ?_ fun _ _ => notBig
    rintro bp t ⟨hlbn, nb, hblk, hpl⟩
    exact ⟨h0, hlbn, _, nb, s₁, path_direct E.fs d, hblk, hs, hpl⟩
  | none =>
    refine (ballocLevels_spec hE hg hs.ready h0 hd clrbuf).imp ?_ fun _ _ h he => .inr (h he)
    rintro bp t ⟨hlbn, p, nb, hp, hblk, hpl⟩
    exact ⟨h0, hlbn, p, nb, s₁, hp, hblk, hs, hpl⟩

/-- What `bmap` returns. -/
def bmapAt (E : Env α) (s : State α) (bn : ℤ) : Except Stop ℤ :=
  match bmap E bn s with
  | .ok b _ => .ok b
  | .error e _ => .error e

theorem bmapAt_eq (hE : E.ErrorFree) (s : State α) (bn : ℤ) :
    bmapAt E s bn = if bn < 0 then .error (.errno efbig)
      else match path E.fs bn with
        | none => .error (.errno efbig)
        | some p => .ok (place E.fs (s.ptr E p)) := by
  unfold bmapAt
  rw [bmap_eq hE]
  split_ifs
  · rfl
  · cases path E.fs bn <;> rfl

theorem bmapAt_path (hE : E.ErrorFree) (s : State α) {p : Pos Root} (h0 : 0 ≤ bn)
    (hp : path E.fs bn = some p) : bmapAt E s bn = .ok (place E.fs (s.ptr E p)) := by
  rw [bmapAt_eq hE, if_neg (by omega), hp]

/-- `EFBIG` is what `bmap` says of a block number without a position. -/
theorem bmapAt_efbig (hE : E.ErrorFree) (s : State α) :
    bmapAt E s bn = .error (.errno efbig) ↔ bn < 0 ∨ path E.fs bn = none := by
  rw [bmapAt_eq hE]
  split_ifs with h
  · exact ⟨fun _ => .inl h, fun _ => rfl⟩
  · cases path E.fs bn with
    | none => exact ⟨fun _ => .inr rfl, fun _ => rfl⟩
    | some p => simp [h]

/-- A block number without a position is refused, by the extension of the last fragment or with
`EFBIG`. -/
theorem balloc_refuses (size : ℕ) (clrbuf : Bool) (h : bn < 0 ∨ path E.fs bn = none) :
    ∃ e t, balloc E bn size clrbuf s = .error e t ∧
      (e = .errno efbig ∨ extendLast E bn s = .error e t) := by
  unfold balloc
  by_cases hneg : bn < 0
  · exact ⟨_, _, bind_error (stopIf_pos hneg), .inl rfl⟩
  have hp := h.resolve_left hneg
  rw [bind_ok (stopIf_neg hneg)]
  cases hx : extendLast E bn s with
  | error e t => exact ⟨e, t, bind_error hx, .inr rfl⟩
  | ok u t =>
    rw [bind_ok hx]
    unfold path at hp
    split at hp
    · cases hp
    · rename_i hd
      have hl : E.fs.levels bn = none := by simpa using hp
      refine ⟨.errno efbig, t, ?_, .inl rfl⟩
      rw [hd]
      show ballocLevels E bn clrbuf t = _
      unfold ballocLevels
      rw [hl]
      rfl

/-- The slot of a block number is there when its data block is. -/
theorem slot_isSome {p : Pos Root} (h0 : 0 ≤ bn) (hp : path E.fs bn = some p)
    (hz : s.ptr E p ≠ 0) : (slot E s bn).isSome := by
  unfold slot
  rw [if_neg (by omega), hp]
  show (slotAt E s p).isSome
  obtain ⟨d | r, l⟩ := p
  · rfl
  · have hne : l ≠ [] := by
      rintro rfl
      have := (path_valid h0 hp).2
      exact absurd this (Nat.succ_ne_zero _).symm
    have hd : s.ptr E (.inr r, l.dropLast) ≠ 0 := by
      intro h
      have hc := (s.forest E).ptr_concat_of_zero h (l.getLast hne)
      rw [List.dropLast_concat_getLast hne] at hc
      exact hz hc
    unfold slotAt
    dsimp only
    rw [dif_neg hne, if_neg hd]
    rfl

/-- After a successful `balloc` of `bn`, `bmap` maps `bn` to the block of the buffer, every other
block number to where it was mapped (only a fragment at the old end of the file, which had to be
extended first, may be at a place that was free), and each pointer is stored in a slot of its own.
The inode is fit for the next call.
`bmap` and `balloc` refuse the same block numbers, with `EFBIG` unless the extension fails. -/
theorem balloc_refines (hE : E.ErrorFree) (hg : E.g.Honest E.fs) (ht : Tree E s)
    (hc : Coherent E s) (bn : ℤ) (size : ℕ) (clrbuf : Bool) :
    (∀ bp t, balloc E bn size clrbuf s = .ok bp t →
      (bp.lblkno = bn ∧ bmapAt E t bn = .ok bp.blkno) ∧
      (∀ bn', bn' ≠ bn → bmapAt E t bn' = bmapAt E s bn' ∨
        ∃ d nb, Extends E s bn d ∧ bn' = d.val ∧ E.g.free s.cg nb ∧
          bmapAt E t bn' = .ok (E.fs.toDb nb)) ∧
      (Live E t ∧ Coherent E t) ∧ (slot E t bn).isSome ∧
      (∀ bn' σ, slot E t bn' = some σ → bmapAt E t bn' = .ok (place E.fs (t.read E σ))) ∧
      ∀ bn₁ bn₂ σ, slot E t bn₁ = some σ → slot E t bn₂ = some σ → bn₁ = bn₂) ∧
    (bmapAt E s bn = .error (.errno efbig) ∨ ∃ b, bmapAt E s bn = .ok b) ∧
    (bmapAt E s bn = .error (.errno efbig) →
      ∃ e t, balloc E bn size clrbuf s = .error e t ∧
        (e = .errno efbig ∨ extendLast E bn s = .error e t)) ∧
    ∀ t, balloc E bn size clrbuf s = .error (.errno efbig) t →
      bmapAt E s bn = .error (.errno efbig) := by
  have hspec := balloc_spec hE hg (ht.ready hc) bn size clrbuf
  refine ⟨fun bp t hok => ?_, ?_, ?_, ?_⟩
  · obtain ⟨h0, hlbn, p, nb, s₁, hp, hblk, hs, hpl⟩ := hspec.ok hok
    have hnz : t.ptr E p ≠ 0 := by
      rw [hpl.here]
      exact hpl.ne
    refine ⟨⟨hlbn, ?_⟩, fun bn' hne => ?_, ⟨hpl.live, hpl.coherent h0 hp hs.ready.coherent⟩,
      slot_isSome h0 hp hnz, fun bn' σ hσ => ?_, fun bn₁ bn₂ σ h₁ h₂ => slot_inj hpl.live.distinct h₁ h₂⟩
    · rw [bmapAt_path hE t h0 hp, hpl.here, hblk, place, if_neg hpl.ne]
    · by_cases hbig : bn' < 0 ∨ path E.fs bn' = none
      · exact .inl (((bmapAt_efbig hE t).mpr hbig).trans ((bmapAt_efbig hE s).mpr hbig).symm)
      · obtain ⟨h0', hn'⟩ := not_or.mp hbig
        obtain ⟨q, hq⟩ := Option.ne_none_iff_exists'.mp hn'
        have h0' : 0 ≤ bn' := by omega
        obtain ⟨hv, hd⟩ := path_valid h0' hq
        have hqp : q ≠ p := by
          rintro rfl
          exact hne (path_inj h0' h0 hq hp)
        rw [bmapAt_path hE t h0' hq, bmapAt_path hE s h0' hq, hpl.off q hv (not_above_of_leaf (path_valid h0 hp).1 hd) hqp]
        rcases hs.leaf q hv hd with he | ⟨d, hx, rfl, hz, hf⟩
        · exact .inl (by rw [he])
        · refine .inr ⟨d, _, hx, ?_, hf, by rw [place, if_neg hz]⟩
          exact path_inj h0' (by simp) hq (path_direct E.fs d)
    · unfold bmapAt
      rw [bmap_of_slot hE hσ]
  · rw [bmapAt_eq hE]
    split_ifs
    · exact .inl rfl
    · cases path E.fs bn with
      | none => exact .inl rfl
      | some p => exact .inr ⟨_, rfl⟩
  · exact fun h => balloc_refuses size clrbuf ((bmapAt_efbig hE s).mp h)
  · exact fun t herr => (bmapAt_efbig hE s).mpr (hspec.error herr rfl)

/-! ## A fragment that moves -/

/-- Blocks of two fragments, and two pointers in a block. -/
def twoFrags : Fs := ⟨3, 2, 1, 64, by decide, by decide, by decide⟩

/-- Cylinder groups with the blocks 16 and 24 free at first, in which no fragment can grow. -/
def twoBlocks : Groups ℕ where
  free a x := (a = 0 ∧ 16 ≤ x ∧ x < 18) ∨ (a ≤ 1 ∧ 24 ≤ x ∧ x < 26)
  noBlocks _ := false
  reserved _ := false
  optim a := (some true, a)
  chkdq a _ _ := (true, a)
  blkpref _ _ _ _ _ := 0
  hashalloc a _ _ := if a = 0 then (16, 1) else if a = 1 then (24, 2) else (0, a)
  fragextend a _ _ _ := (0, a)
  blkfree a _ _ := a

def twoEnv : Env ℕ := ⟨twoFrags, twoBlocks, fun _ => none, fun _ => none, 2⟩

/-- A file of four bytes, in one fragment at block 8. -/
def oneFrag : State ℕ where
  ip := ⟨fun d => if d = 0 then 8 else 0, fun _ => 0, 4, 1⟩
  dev _ _ := 0
  bufs _ := none
  cg := 0

theorem twoBlocks_honest : twoBlocks.Honest twoFrags where
  hash_free a p n hn hpos := by
    have hf : twoFrags.numfrags n ≤ 2 := Nat.div_le_div_right (c := 4) hn
    simp only [twoBlocks] at hpos ⊢
    split_ifs at hpos ⊢ with h0 h1
    · exact ⟨by omega, fun x h h' => by simp only at h h'; omega⟩
    · exact ⟨by omega, fun x h h' => by simp only at h h'; omega⟩
    · exact absurd hpos (lt_irrefl _)
  hash_used a p n _ hpos := by
    simp only [twoBlocks] at hpos ⊢
    split_ifs at hpos ⊢ with h0 h1
    · simp
    · simp
    · exact absurd hpos (lt_irrefl _)
  hash_keep a p n x hx := by
    simp only [twoBlocks] at hx ⊢
    split_ifs at hx with h0 h1
    · rcases hx with ⟨h, -⟩ | ⟨-, h⟩
      · exact absurd h (by decide)
      · exact .inr ⟨by omega, h⟩
    · rcases hx with ⟨h, -⟩ | ⟨h, -⟩
      · exact absurd h (by decide)
      · exact absurd h (by decide)
    · exact hx
  frag_place _ _ _ _ := .inl rfl
  frag_keep _ _ _ _ _ hx := hx
  chkdq_keep _ _ _ _ hx := hx
  optim_keep _ _ hx := hx
  blkfree_free _ _ _ _ hx := .inl hx

theorem oneFrag_ptr {p : Pos Root} (hp : (shape twoFrags).Valid p) (hz : oneFrag.ptr twoEnv p ≠ 0) :
    p = (.inl 0, []) := by
  obtain ⟨d | r, l⟩ := p
  · obtain rfl : l = [] := List.eq_nil_of_length_eq_zero (Nat.le_zero.mp hp.1)
    by_cases hd : d = 0
    · rw [hd]
    · exact absurd (if_neg hd) hz
  · exact absurd (walk_zero _ l) hz

theorem oneFrag_tree : Tree twoEnv oneFrag where
  once p q x hp hq hx hx' := (oneFrag_ptr hp hx.1).trans (oneFrag_ptr hq hx'.1).symm
  used p x hp hx hf := by
    obtain rfl := oneFrag_ptr hp hx.1
    obtain ⟨-, -, hlt⟩ := hx
    have h8 : oneFrag.ptr twoEnv (.inl 0, []) + frags twoEnv.fs oneFrag.ip.size (.inl 0, []) = 9 :=
      rfl
    have hf : (0 = 0 ∧ 16 ≤ x ∧ x < 18) ∨ (0 ≤ 1 ∧ 24 ≤ x ∧ x < 26) := hf
    omega

theorem oneFrag_coherent : Coherent twoEnv oneFrag := fun _ _ h => nomatch h

/-- A write behind the fragment moves it to block 16, which is sector 32. -/
theorem oneFrag_moves : ∃ bp t, balloc twoEnv 1 4 false oneFrag = .ok bp t ∧
    bmapAt twoEnv oneFrag 0 = .ok 16 ∧ bmapAt twoEnv t 0 = .ok 32 := by
  refine ⟨_, _, rfl, ?_, ?_⟩ <;> rfl

theorem balloc_refines_oneFrag : ∃ bp t, balloc twoEnv 1 4 false oneFrag = .ok bp t ∧
    bmapAt twoEnv t 1 = .ok bp.blkno := by
  obtain ⟨bp, t, hok, -⟩ := oneFrag_moves
  exact ⟨bp, t, hok, ((balloc_refines ⟨fun _ => rfl, fun _ => rfl⟩ twoBlocks_honest oneFrag_tree
    oneFrag_coherent 1 4 false).1 bp t hok).1.2⟩

/-- `balloc` of one block number can change what `bmap` says of another. -/
theorem not_balloc_keeps_others : ¬∀ (α : Type) (E : Env α) (s : State α), E.ErrorFree →
    E.g.Honest E.fs → Tree E s → Coherent E s → ∀ bn size clrbuf bp t,
    balloc E bn size clrbuf s = .ok bp t →
    ∀ bn', bn' ≠ bn → bmapAt E t bn' = bmapAt E s bn' := by
  intro h
  obtain ⟨bp, t, hok, h16, h32⟩ := oneFrag_moves
  have := h ℕ twoEnv oneFrag ⟨fun _ => rfl, fun _ => rfl⟩ twoBlocks_honest oneFrag_tree
    oneFrag_coherent 1 4 false bp t hok 0 (by decide)
  rw [h16, h32] at this
  exact absurd (Except.ok.inj this) (by decide)

end Bmap
