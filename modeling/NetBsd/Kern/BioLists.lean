import NetBsd.Kern.Bio
import Mathlib.Data.Finset.Card
import Mathlib.Data.Finset.Range

/-!
# The lists of the buffer cache

A buffer that is busy is on no free list, and any other is on exactly one, as long as nobody calls
`bdwrite` for an invalid buffer and no header is gone when `malloc` returns to `getnewbuf`.

## Main definitions

* `Core`: the invariant of the lists, the flags and the chains
* `Good`: what a step keeps of it, and what it may add to the blocks of valid buffers
* `Careful`: the steps that avoid the two defects

## Main results

* `brelse_spec`, `bawrite_spec`, `finish_spec`, `getblk_spec`: one specification for each function
* `step_good`: a careful step keeps the invariant
* `run_lists`: the free lists in careful runs
-/

namespace Bio

open InsQueue Fault

variable {ν π : Type} {s s' : State ν π} {b x : ℕ} {p : π} {c : Call ν} {f : Flags} {u : Use π}

/-! ## The invariant -/

/-- What holds of a buffer when no function is at work on it. -/
structure Settled (s : State ν π) (b : ℕ) : Prop where
  free : (∃ q, On s.av q b) ↔ s.use b = .free
  chained : (∃ k, On s.hash k b) ↔ ∀ p, s.use b ≠ .alloc p
  busy : (s.buf b).flags.busy = true ↔ s.use b ≠ .free
  delwri : (s.buf b).flags.delwri = true → (s.buf b).vp.isSome
  clean : s.use b = .free → (s.buf b).flags.inval = true → (s.buf b).flags.delwri = false
  async : s.use b = .async → (s.buf b).flags.async = true
  sync : ∀ p, s.use b = .sync p → (s.buf b).flags.async = false
  alloc : ∀ p, s.use b = .alloc p → (s.buf b).vp = none
  place : ∀ vp, (s.buf b).vp = some vp → (s.buf b).flags.inval = false →
    On s.hash (bufhash s vp (s.buf b).lblkno) b

/-- The lists are well-formed, and the buffers are settled, but for the one that is taken out. -/
structure Core (s : State ν π) (out : Option ℕ) : Prop where
  av : Tidy s.av
  hash : Tidy s.hash
  bound : ∀ b, (∃ q, On s.av q b) ∨ (∃ k, On s.hash k b) → b < s.nbuf
  settled : ∀ b < s.nbuf, out ≠ some b → Settled s b

/-- The states differ at most in the buffer `b`, its place on the lists, and the processes. -/
structure Frame (b : ℕ) (s s' : State ν π) : Prop where
  nbuf : s'.nbuf = s.nbuf
  vIndex : s'.vIndex = s.vIndex
  buf : ∀ x ≠ b, s'.buf x = s.buf x
  use : ∀ x ≠ b, s'.use x = s.use x
  released : ∀ x ≠ b, s'.released x = s.released x

theorem Frame.refl (b : ℕ) (s : State ν π) : Frame b s s :=
  ⟨rfl, rfl, fun _ _ => rfl, fun _ _ => rfl, fun _ _ => rfl⟩

theorem Frame.trans {s'' : State ν π} (h : Frame b s s') (h' : Frame b s' s'') : Frame b s s'' where
  nbuf := h'.nbuf.trans h.nbuf
  vIndex := h'.vIndex.trans h.vIndex
  buf := fun x hx => (h'.buf x hx).trans (h.buf x hx)
  use := fun x hx => (h'.use x hx).trans (h.use x hx)
  released := fun x hx => (h'.released x hx).trans (h.released x hx)

theorem bufhash_eq (h : s'.vIndex = s.vIndex) (vp : ν) (blkno : ℤ) :
    bufhash s' vp blkno = bufhash s vp blkno := by
  rw [bufhash, bufhash, h]

theorem Settled.congr (h : Settled s b) (hbuf : s'.buf b = s.buf b) (huse : s'.use b = s.use b)
    (hv : s'.vIndex = s.vIndex) (hav : ∀ q, On s'.av q b ↔ On s.av q b)
    (hhash : ∀ k, On s'.hash k b ↔ On s.hash k b) : Settled s' b where
  free := by
    rw [huse, ← h.free]
    exact exists_congr hav
  chained := by
    rw [huse, ← h.chained]
    exact exists_congr hhash
  busy := by
    rw [hbuf, huse]
    exact h.busy
  delwri := by
    rw [hbuf]
    exact h.delwri
  clean := by
    rw [hbuf, huse]
    exact h.clean
  async := by
    rw [hbuf, huse]
    exact h.async
  sync := by
    rw [hbuf, huse]
    exact h.sync
  alloc := by
    rw [hbuf, huse]
    exact h.alloc
  place := by
    intro vp
    rw [hbuf, bufhash_eq hv, hhash]
    exact h.place vp

/-- While the buffer is taken out, its fields and its lists may change. -/
theorem Core.frame (h : Core s (some b)) (hf : Frame b s s') (hav : Tidy s'.av)
    (hhash : Tidy s'.hash) (hlt : b < s.nbuf) (honav : ∀ q x, x ≠ b → (On s'.av q x ↔ On s.av q x))
    (honhash : ∀ k x, x ≠ b → (On s'.hash k x ↔ On s.hash k x)) : Core s' (some b) where
  av := hav
  hash := hhash
  bound := by
    intro x hx
    rw [hf.nbuf]
    by_cases hxb : x = b
    · rw [hxb]
      exact hlt
    · refine h.bound x (hx.imp ?_ ?_)
      · exact Exists.imp fun q => (honav q x hxb).mp
      · exact Exists.imp fun k => (honhash k x hxb).mp
  settled := by
    intro x hx hout
    have hxb : x ≠ b := fun heq => hout (heq ▸ rfl)
    rw [hf.nbuf] at hx
    exact (h.settled x hx hout).congr (hf.buf x hxb) (hf.use x hxb) hf.vIndex
      (fun q => honav q x hxb) fun k => honhash k x hxb

theorem Core.out (h : Core s none) (b : ℕ) : Core s (some b) :=
  ⟨h.av, h.hash, h.bound, fun x hx _ => h.settled x hx nofun⟩

theorem Core.close (h : Core s (some b)) (hb : Settled s b) : Core s none := by
  refine ⟨h.av, h.hash, h.bound, fun x hx _ => ?_⟩
  by_cases hxb : x = b
  · rw [hxb]
    exact hb
  · exact h.settled x hx fun heq => hxb (Option.some.inj heq).symm

/-- A buffer that is on no free list but on its hash chain, while a function is at work on it. -/
structure InHand (s : State ν π) (b : ℕ) : Prop where
  core : Core s (some b)
  lt : b < s.nbuf
  off : ∀ q, ¬On s.av q b
  chained : ∃ k, On s.hash k b
  delwri : (s.buf b).flags.delwri = true → (s.buf b).vp.isSome
  place : ∀ vp, (s.buf b).vp = some vp → (s.buf b).flags.inval = false →
    On s.hash (bufhash s vp (s.buf b).lblkno) b

/-- A buffer that somebody has, though not `allocbuf`. -/
theorem Core.inHand (h : Core s none) (hb : b < s.nbuf) (hfree : s.use b ≠ .free)
    (halloc : ∀ p, s.use b ≠ .alloc p) : InHand s b where
  core := h.out b
  lt := hb
  off := fun q hq => hfree ((h.settled b hb nofun).free.mp ⟨q, hq⟩)
  chained := (h.settled b hb nofun).chained.mpr halloc
  delwri := (h.settled b hb nofun).delwri
  place := (h.settled b hb nofun).place

/-- A busy buffer that gets a user other than `allocbuf`. -/
theorem InHand.settle (h : InHand s b) (hbusy : (s.buf b).flags.busy = true)
    (hfree : s.use b ≠ .free) (halloc : ∀ p, s.use b ≠ .alloc p)
    (hasync : s.use b = .async → (s.buf b).flags.async = true)
    (hsync : ∀ p, s.use b = .sync p → (s.buf b).flags.async = false) : Core s none :=
  h.core.close {
    free := ⟨fun ⟨q, hq⟩ => absurd hq (h.off q), fun heq => absurd heq hfree⟩
    chained := ⟨fun _ => halloc, fun _ => h.chained⟩
    busy := ⟨fun _ => hfree, fun _ => hbusy⟩
    delwri := h.delwri
    clean := fun heq => absurd heq hfree
    async := hasync
    sync := hsync
    alloc := fun p heq => absurd heq (halloc p)
    place := h.place }

/-- The lists are as before. -/
theorem InHand.congr (h : InHand s b) (hf : Frame b s s') (hav : s'.av = s.av)
    (hhash : s'.hash = s.hash) (hdel : (s'.buf b).flags.delwri = true → (s'.buf b).vp.isSome)
    (hplace : ∀ vp, (s'.buf b).vp = some vp → (s'.buf b).flags.inval = false →
      (s.buf b).vp = some vp ∧ (s.buf b).flags.inval = false ∧
        (s'.buf b).lblkno = (s.buf b).lblkno) : InHand s' b where
  core := h.core.frame hf (hav ▸ h.core.av) (hhash ▸ h.core.hash) h.lt
    (fun q x _ => by rw [hav]) fun k x _ => by rw [hhash]
  lt := hf.nbuf ▸ h.lt
  off := hav ▸ h.off
  chained := hhash ▸ h.chained
  delwri := hdel
  place := by
    intro vp hvp hinval
    rcases hplace vp hvp hinval with ⟨hvp', hinval', hl⟩
    rw [hhash, hl, bufhash_eq hf.vIndex]
    exact h.place vp hvp' hinval'

/-- A valid buffer for a block. -/
def Valid (s : State ν π) (vp : ν) (blkno : ℤ) (b : ℕ) : Prop :=
  b < s.nbuf ∧ (s.buf b).vp = some vp ∧ (s.buf b).lblkno = blkno ∧ (s.buf b).flags.inval = false

/-- Work at a buffer that is in hand. -/
structure Works (b : ℕ) (s s' : State ν π) : Prop where
  inHand : InHand s' b
  frame : Frame b s s'
  pc : s'.pc = s.pc
  use : s'.use = s.use
  released : s'.released = s.released
  valid : ∀ vp blkno, Valid s' vp blkno b → Valid s vp blkno b

theorem Works.refl (h : InHand s b) : Works b s s :=
  ⟨h, Frame.refl b s, rfl, rfl, rfl, fun _ _ => id⟩

theorem Works.trans {s'' : State ν π} (h : Works b s s') (h' : Works b s' s'') : Works b s s'' where
  inHand := h'.inHand
  frame := h.frame.trans h'.frame
  pc := h'.pc.trans h.pc
  use := h'.use.trans h.use
  released := h'.released.trans h.released
  valid := fun vp blkno hv => h.valid vp blkno (h'.valid vp blkno hv)

@[simp] theorem setBuf_buf (s : State ν π) (b : ℕ) (buf : Buf ν) : (s.setBuf b buf).buf b = buf :=
  Function.update_self _ _ _

@[simp] theorem setFlags_buf (s : State ν π) (b : ℕ) (f : Flags) :
    (s.setFlags b f).buf b = { s.buf b with flags := f } :=
  setBuf_buf s b _

theorem frame_setBuf (s : State ν π) (b : ℕ) (buf : Buf ν) : Frame b s (s.setBuf b buf) :=
  ⟨rfl, rfl, fun _ hx => Function.update_of_ne hx _ _, fun _ _ => rfl, fun _ _ => rfl⟩

/-- New contents of a buffer in hand, which may be those of the same block. -/
theorem InHand.write (h : InHand s b) (buf : Buf ν) (hdel : buf.flags.delwri = true → buf.vp.isSome)
    (hsame : ∀ vp, buf.vp = some vp → buf.flags.inval = false →
      (s.buf b).vp = some vp ∧ (s.buf b).flags.inval = false ∧ buf.lblkno = (s.buf b).lblkno) :
    Works b s (s.setBuf b buf) := by
  refine ⟨h.congr (frame_setBuf s b buf) rfl rfl ?_ ?_, frame_setBuf s b buf, rfl, rfl, rfl, ?_⟩
  · rw [setBuf_buf]
    exact hdel
  · rw [setBuf_buf]
    exact hsame
  · rintro vp blkno ⟨hlt, hvp, hl, hinval⟩
    rw [setBuf_buf] at hvp hl hinval
    rcases hsame vp hvp hinval with ⟨hvp', hinval', hl'⟩
    exact ⟨hlt, hvp', hl'.symm.trans hl, hinval'⟩

theorem InHand.setFlags (h : InHand s b) (hdel : f.delwri = true → (s.buf b).vp.isSome)
    (hinval : f.inval = false → (s.buf b).flags.inval = false) : Works b s (s.setFlags b f) :=
  h.write { s.buf b with flags := f } hdel fun _ hvp hf => ⟨hvp, hinval hf, rfl⟩

/-- The processes and the marks of the lists do not matter. -/
theorem InHand.wake (h : InHand s b) (w : Bool) (a : π → Option Chan) :
    Works b s { s with wanted := w, asleep := a } where
  inHand := h.congr ⟨rfl, rfl, fun _ _ => rfl, fun _ _ => rfl, fun _ _ => rfl⟩ rfl rfl h.delwri
    fun _ hvp hinval => ⟨hvp, hinval, rfl⟩
  frame := ⟨rfl, rfl, fun _ _ => rfl, fun _ _ => rfl, fun _ _ => rfl⟩
  pc := rfl
  use := rfl
  released := rfl
  valid := fun _ _ => id

/-! ## The end of a use -/

/-- Those who wait are woken up. -/
theorem wake_works (h : InHand s b) : Works b s (wakeBuf (wakeList s) b) := by
  have hlist : Works b s (wakeList s) := by
    rw [wakeList]
    split
    · exact h.wake false _
    · exact Works.refl h
  refine hlist.trans ?_
  have hh := hlist.inHand
  rw [wakeBuf]
  split
  · have hflags := hh.setFlags (f := { ((wakeList s).buf b).flags with wanted := false }) hh.delwri id
    exact hflags.trans (hflags.inHand.wake _ _)
  · exact Works.refl hh

theorem brelvp_works (h : InHand s b) (hvp : (s.buf b).vp.isSome)
    (hdel : (s.buf b).flags.delwri = false) : ∃ s', brelvp s b = .ok s' ∧ Works b s s' ∧
      s'.buf b = { s.buf b with vp := none } := by
  rcases Option.isSome_iff_exists.mp hvp with ⟨vp, hvp⟩
  refine ⟨_, by rw [brelvp, hvp], h.write { s.buf b with vp := none } (fun hd => ?_) nofun,
    setBuf_buf s b _⟩
  exact absurd (hd.symm.trans hdel) nofun

theorem invalidate_spec (h : InHand s b) : ∃ s', invalidate s b = .ok s' ∧ Works b s s' ∧
    ((s'.buf b).flags.inval = true → (s'.buf b).flags.delwri = false) := by
  rw [invalidate]
  dsimp only
  split
  · have hflags := h.setFlags
      (f := { (s.buf b).flags with inval := true, delwri := false, cache := false }) nofun nofun
    split
    next hvp =>
      rcases brelvp_works hflags.inHand hvp (by rw [setFlags_buf]) with ⟨s', hok, hw, hbuf⟩
      refine ⟨s', hok, hflags.trans hw, fun _ => ?_⟩
      rw [hbuf, setFlags_buf]
    next =>
      refine ⟨_, rfl, hflags, fun _ => ?_⟩
      rw [setFlags_buf]
  next hvalid =>
    refine ⟨s, rfl, Works.refl h, fun hi => absurd ?_ hvalid⟩
    rw [hi, Bool.true_or]

theorem enqueue_spec (h : InHand s b) : ∃ av k, enqueue s b = .ok av ∧ Tidy av ∧
    ∀ k' x, On av k' x ↔ On s.av k' x ∨ k' = k ∧ x = b := by
  rw [enqueue]
  split
  · rcases h.core.av.insertFirst h.off .age with ⟨av, hok, htidy, hon⟩
    exact ⟨av, .age, hok, htidy, hon⟩
  · split
    · rcases h.core.av.insertLast h.off .age with ⟨av, hok, htidy, hon⟩
      exact ⟨av, .age, hok, htidy, hon⟩
    · rcases h.core.av.insertLast h.off .lru with ⟨av, hok, htidy, hon⟩
      exact ⟨av, .lru, hok, htidy, hon⟩

/-- The end of work at a buffer, which then has the user `u` and was released `n` times. -/
structure Ends (u : Use π) (n b : ℕ) (s s' : State ν π) : Prop where
  core : Core s' none
  frame : Frame b s s'
  use : s'.use b = u
  released : s'.released b = s.released b + n
  valid : ∀ vp blkno, Valid s' vp blkno b → Valid s vp blkno b

theorem Works.ends {n : ℕ} {s'' : State ν π} (h : Works b s s') (h' : Ends u n b s' s'') :
    Ends u n b s s'' where
  core := h'.core
  frame := h.frame.trans h'.frame
  use := h'.use
  released := h'.released.trans (by rw [h.released])
  valid := fun vp blkno hv => h.valid vp blkno (h'.valid vp blkno hv)

/-- The end of `brelse`: the buffer is on a list. -/
theorem InHand.freed (h : InHand s b) (hf : Frame b s s') {k : Queue} (htidy : Tidy s'.av)
    (hon : ∀ k' x, On s'.av k' x ↔ On s.av k' x ∨ k' = k ∧ x = b) (hhash : s'.hash = s.hash)
    (hbuf : s'.buf b = { s.buf b with flags := { (s.buf b).flags with busy := false } })
    (hclean : (s.buf b).flags.inval = true → (s.buf b).flags.delwri = false)
    (huse : s'.use b = .free) (hrel : s'.released b = s.released b + 1) : Ends .free 1 b s s' := by
  have hother (q : Queue) (x : ℕ) (hx : x ≠ b) : On s'.av q x ↔ On s.av q x := by
    rw [hon]
    exact ⟨fun h => h.resolve_right fun h => hx h.2, Or.inl⟩
  have hcore := h.core.frame hf htidy (hhash ▸ h.core.hash) h.lt hother fun _ _ _ => by rw [hhash]
  refine ⟨hcore.close ⟨?_, ?_, ?_, ?_, ?_, ?_, ?_, ?_, ?_⟩, hf, huse, hrel, ?_⟩
  · exact ⟨fun _ => huse, fun _ => ⟨k, (hon k b).mpr (Or.inr ⟨rfl, rfl⟩)⟩⟩
  · rw [hhash, huse]
    exact ⟨fun _ _ => nofun, fun _ => h.chained⟩
  · rw [hbuf, huse]
    exact ⟨nofun, fun hne => absurd rfl hne⟩
  · rw [hbuf]
    exact h.delwri
  · rw [hbuf]
    exact fun _ => hclean
  · rw [huse]
    exact nofun
  · rw [huse]
    exact nofun
  · rw [huse]
    exact nofun
  · intro vp
    rw [hbuf, hhash, bufhash_eq hf.vIndex]
    exact h.place vp
  · intro vp blkno
    rw [Valid, hbuf, hf.nbuf]
    exact id

/-- A buffer in hand comes to a free list. -/
theorem brelse_spec (h : InHand s b) : ∃ s', brelse s b = .ok s' ∧ s'.pc = s.pc ∧
    Ends .free 1 b s s' := by
  have hwake := wake_works h
  rcases invalidate_spec hwake.inHand with ⟨s₁, hok₁, hinval, hclean⟩
  have hh := hinval.inHand
  rcases enqueue_spec hh with ⟨av, k, hok₂, htidy, hon⟩
  simp only [brelse, hok₁, hok₂, bind, Except.bind]
  refine ⟨_, rfl, (hwake.trans hinval).pc, (hwake.trans hinval).ends
    (hh.freed ⟨rfl, rfl, ?_, ?_, ?_⟩ htidy hon rfl ?_ hclean ?_ ?_)⟩
  · exact fun _ hx => Function.update_of_ne hx _ _
  · exact fun _ hx => Function.update_of_ne hx _ _
  · exact fun _ hx => Function.update_of_ne hx _ _
  · exact Function.update_self _ _ _
  · exact Function.update_self _ _ _
  · exact Function.update_self _ _ _

/-- A busy buffer gets another user. -/
theorem InHand.give (h : InHand s b) (hbusy : (s.buf b).flags.busy = true) (hfree : u ≠ .free)
    (halloc : ∀ p, u ≠ .alloc p) (hasync : u = .async → (s.buf b).flags.async = true)
    (hsync : ∀ p, u = .sync p → (s.buf b).flags.async = false) : Ends u 0 b s (s.give b u) := by
  have huse : (s.give b u).use b = u := Function.update_self _ _ _
  have hf : Frame b s (s.give b u) :=
    ⟨rfl, rfl, fun _ _ => rfl, fun _ hx => Function.update_of_ne hx _ _, fun _ _ => rfl⟩
  have hin : InHand (s.give b u) b := h.congr hf rfl rfl h.delwri fun _ hvp hi => ⟨hvp, hi, rfl⟩
  rw [← huse] at hfree halloc hasync hsync
  exact ⟨hin.settle hbusy hfree halloc hasync hsync, hf, huse, rfl, fun _ _ => id⟩

/-- A process goes to another place. -/
theorem Core.goto [DecidableEq π] {o : Option ℕ} (h : Core s o) (p : π) (pc : Pc ν) :
    Core (s.goto p pc) o :=
  ⟨h.av, h.hash, h.bound, fun x hx ho =>
    (h.settled x hx ho).congr rfl rfl rfl (fun _ => Iff.rfl) fun _ => Iff.rfl⟩

theorem Ends.goto [DecidableEq π] {n : ℕ} (h : Ends u n b s s') (p : π) (pc : Pc ν) :
    Ends u n b s (s'.goto p pc) :=
  ⟨h.core.goto p pc, ⟨h.frame.nbuf, h.frame.vIndex, h.frame.buf, h.frame.use, h.frame.released⟩,
    h.use, h.released, h.valid⟩

/-! ## Writes -/

theorem reassignbuf_eq (hvp : (s.buf b).vp.isSome) : reassignbuf s b = .ok s := by
  rcases Option.isSome_iff_exists.mp hvp with ⟨vp, hvp⟩
  rw [reassignbuf, hvp]

theorem strategy_eq (hvp : (s.buf b).vp.isSome) : strategy s b u = .ok (s.give b u) := by
  rcases Option.isSome_iff_exists.mp hvp with ⟨vp, hvp⟩
  rw [strategy, hvp]

theorem reassign_eq (hvp : (s.buf b).vp.isSome) (d : Bool) :
    (if d then reassignbuf s b else .ok s) = .ok s := by
  cases d with
  | true => exact reassignbuf_eq hvp
  | false => rfl

/-- A buffer that is not valid is released, and any other goes to the driver. -/
theorem bawrite_spec (h : InHand s b) (hbusy : (s.buf b).flags.busy = true)
    (hwr : Writable (s.buf b)) : ∃ s', bawrite s b = .ok s' ∧ s'.pc = s.pc ∧
      ((s.buf b).flags.inval = true ∧ Ends .free 1 b s s' ∨
        (s.buf b).flags.inval = false ∧ Ends .async 0 b s s') := by
  rw [bawrite, if_neg (by simp [hbusy])]
  by_cases hinval : (s.buf b).flags.inval = true
  · rcases brelse_spec h with ⟨s', hok, hpc, hends⟩
    exact ⟨s', by rw [if_pos hinval, hok], hpc, Or.inl ⟨hinval, hends⟩⟩
  · have hvp : (s.buf b).vp.isSome := hwr.resolve_right hinval
    have hclear := h.setFlags (f := { (s.buf b).flags with
      read := false, done := false, error := false, delwri := false }) nofun id
    have hdirty := hclear.inHand.setFlags (f := { (s.buf b).flags with
      read := false, done := false, error := false, delwri := false, dirty := true, async := true })
      nofun (by rw [setFlags_buf]; exact id)
    have hends := hdirty.inHand.give (u := .async) (by rw [setFlags_buf]; exact hbusy) nofun nofun
      (by rw [setFlags_buf]; exact fun _ => rfl) nofun
    refine ⟨_, ?_, ?_, Or.inr ⟨Bool.eq_false_iff.mpr hinval, (hclear.trans hdirty).ends hends⟩⟩
    · rw [if_neg hinval]
      dsimp only
      rw [reassign_eq (by rw [setFlags_buf]; exact hvp)]
      exact strategy_eq (by rw [setFlags_buf, setFlags_buf]; exact hvp)
    · rfl

/-- A buffer that is not valid is released, and any other goes to the driver, while the process
waits. -/
theorem bwrite_spec [DecidableEq π] (h : InHand s b) (hbusy : (s.buf b).flags.busy = true)
    (hwr : Writable (s.buf b)) (p : π) : ∃ s', bwrite s p b = .ok s' ∧
      ((s.buf b).flags.inval = true ∧ s'.pc = s.pc ∧ Ends .free 1 b s s' ∨
        (s.buf b).flags.inval = false ∧ s'.pc = Function.update s.pc p (.biowait b true) ∧
          Ends (.sync p) 0 b s s') := by
  rw [bwrite]
  by_cases hinval : (s.buf b).flags.inval = true
  · rcases brelse_spec h with ⟨s', hok, hpc, hends⟩
    exact ⟨s', by rw [if_pos hinval, hok], Or.inl ⟨hinval, hpc, hends⟩⟩
  · have hvp : (s.buf b).vp.isSome := hwr.resolve_right hinval
    have hclear := h.setFlags (f := { (s.buf b).flags with
      read := false, done := false, error := false, async := false, delwri := false }) nofun id
    have hdirty := hclear.inHand.setFlags (f := { (s.buf b).flags with
      read := false, done := false, error := false, async := false, delwri := false, dirty := true })
      nofun (by rw [setFlags_buf]; exact id)
    have hends := hdirty.inHand.give (u := .sync p) (by rw [setFlags_buf]; exact hbusy) nofun nofun
      nofun (by rw [setFlags_buf]; exact fun _ _ => rfl)
    refine ⟨_, ?_, Or.inr ⟨Bool.eq_false_iff.mpr hinval, ?_,
      ((hclear.trans hdirty).ends hends).goto p (.biowait b true)⟩⟩
    · rw [if_neg hinval, if_neg (by simp [hbusy])]
      dsimp only
      rw [reassign_eq (by rw [setFlags_buf]; exact hvp)]
      simp only [bind, Except.bind]
      rw [strategy_eq (by rw [setFlags_buf, setFlags_buf]; exact hvp)]
      rfl
    · rfl

/-- A buffer is released, or written when it is one of a tape. -/
theorem bdwrite_spec [DecidableEq π] (h : InHand s b) (hbusy : (s.buf b).flags.busy = true)
    (hwr : Writable (s.buf b)) (hinval : (s.buf b).flags.inval = false) (p : π) :
    ∃ s', bdwrite s p b = .ok s' ∧
      ((s.buf b).flags.tape = false ∧ s'.pc = s.pc ∧ Ends .free 1 b s s' ∨
        (s.buf b).flags.tape = true ∧ s'.pc = Function.update s.pc p (.biowait b true) ∧
          Ends (.sync p) 0 b s s') := by
  have hni : ¬(s.buf b).flags.inval = true := Bool.eq_false_iff.mp hinval
  have hvp : (s.buf b).vp.isSome := hwr.resolve_right hni
  rw [bdwrite, if_neg (by simp [hbusy]), if_neg hni]
  simp only [bind, Except.bind]
  by_cases htape : (s.buf b).flags.tape = true
  · rcases bwrite_spec h hbusy hwr p with ⟨s', hok, hcase⟩
    rcases hcase with ⟨hi, -⟩ | ⟨-, hpc, hends⟩
    · exact absurd hi hni
    · exact ⟨s', by rw [if_pos htape, hok], Or.inr ⟨htape, hpc, hends⟩⟩
  · have hmark := h.setFlags (f := { (s.buf b).flags with
      read := false, done := false, dirty := true, delwri := true }) (fun _ => hvp) id
    rcases brelse_spec hmark.inHand with ⟨s', hok, hpc, hends⟩
    refine ⟨s', ?_, Or.inl ⟨Bool.eq_false_iff.mpr htape, hpc, hmark.ends hends⟩⟩
    rw [if_neg htape, reassignbuf_eq (by rw [setFlags_buf]; exact hvp)]
    exact hok

/-! ## The end of input and output -/

/-- Flags of a buffer that is in use, or free, change. -/
theorem Core.setFlags (h : Core s none) (hb : b < s.nbuf) (hbusy : f.busy = (s.buf b).flags.busy)
    (hdel : f.delwri = true → (s.buf b).vp.isSome)
    (hclean : s.use b = .free → f.inval = true → f.delwri = false)
    (hinval : ∀ vp, (s.buf b).vp = some vp → f.inval = false → (s.buf b).flags.inval = false)
    (hasync : s.use b = .async → f.async = true) (hsync : ∀ p, s.use b = .sync p → f.async = false) :
    Core (s.setFlags b f) none := by
  have hs := h.settled b hb nofun
  have hf : Frame b s (s.setFlags b f) := frame_setBuf s b _
  refine ((h.out b).frame hf h.av h.hash hb (fun _ _ _ => Iff.rfl) fun _ _ _ => Iff.rfl).close ?_
  refine ⟨hs.free, hs.chained, ?_, ?_, ?_, ?_, ?_, ?_, ?_⟩
  · rw [setFlags_buf, hbusy]
    exact hs.busy
  · rw [setFlags_buf]
    exact hdel
  · rw [setFlags_buf]
    exact hclean
  · rw [setFlags_buf]
    exact hasync
  · rw [setFlags_buf]
    exact hsync
  · rw [setFlags_buf]
    exact hs.alloc
  · intro vp
    rw [setFlags_buf]
    exact fun hvp hi => hs.place vp hvp (hinval vp hvp hi)

/-- The processes and the marks of the lists do not matter. -/
theorem Core.wake {o : Option ℕ} (h : Core s o) (w : Bool) (a : π → Option Chan) :
    Core { s with wanted := w, asleep := a } o :=
  ⟨h.av, h.hash, h.bound, fun x hx ho =>
    (h.settled x hx ho).congr rfl rfl rfl (fun _ => Iff.rfl) fun _ => Iff.rfl⟩

/-- An invalid buffer goes to another hash chain. -/
theorem InHand.rehash (h : InHand s b) (hinval : (s.buf b).flags.inval = true) :
    ∃ s₁ s', bremhash s b = .ok s₁ ∧ binshash s₁ b (.list .age) = .ok s' ∧ Works b s s' ∧
      s'.buf = s.buf := by
  rcases h.chained with ⟨k, hk⟩
  rcases h.core.hash.unlink hk with ⟨q, hq, hqt, hqon⟩
  rcases hqt.insque (fun k' hk' => ((hqon k' b).mp hk').2 rfl) (.list .age) with ⟨q', hq', hqt', hqon'⟩
  have hother (k' : Chain) (x : ℕ) (hx : x ≠ b) : On q' k' x ↔ On s.hash k' x := by
    rw [hqon', hqon]
    exact ⟨fun h => h.elim And.left fun h => absurd h.2 hx, fun h => Or.inl ⟨h, hx⟩⟩
  have hf : Frame b s { s with hash := q' } :=
    ⟨rfl, rfl, fun _ _ => rfl, fun _ _ => rfl, fun _ _ => rfl⟩
  refine ⟨{ s with hash := q }, { s with hash := q' }, ?_, ?_, ⟨⟨?_, h.lt, h.off, ?_, h.delwri, ?_⟩,
    hf, rfl, rfl, rfl, fun _ _ => id⟩, rfl⟩
  · rw [bremhash, hq]
    rfl
  · rw [binshash, hq']
    rfl
  · exact h.core.frame hf h.core.av hqt' h.lt (fun _ _ _ => Iff.rfl) hother
  · exact ⟨.list .age, (hqon' _ b).mpr (Or.inr ⟨rfl, rfl⟩)⟩
  · intro vp _ hi
    exact absurd (hinval.symm.trans hi) nofun

theorem failed_spec (h : InHand s b) : ∃ s', failed s b = .ok s' ∧ Works b s s' ∧
    (s'.buf b).flags.busy = (s.buf b).flags.busy := by
  have hmark : ∃ s', (if (s.buf b).flags.inval then .ok s
      else do
        let s ← bremhash (s.setFlags b { (s.buf b).flags with inval := true }) b
        binshash s b (.list .age)) = .ok s' ∧ Works b s s' ∧
          (s'.buf b).flags.busy = (s.buf b).flags.busy := by
    split
    · exact ⟨s, rfl, Works.refl h, rfl⟩
    · have hflags := h.setFlags (f := { (s.buf b).flags with inval := true }) h.delwri nofun
      rcases hflags.inHand.rehash (by rw [setFlags_buf]) with ⟨s₁, s', hrem, hins, hw, hbuf⟩
      refine ⟨s', ?_, hflags.trans hw, ?_⟩
      · simp only [hrem, bind, Except.bind]
        exact hins
      · rw [hbuf, setFlags_buf]
  rcases hmark with ⟨s₁, hok, hw, hbusy⟩
  rw [failed]
  dsimp only
  rw [hok]
  simp only [bind, Except.bind]
  split
  · refine ⟨_, rfl, hw.trans (hw.inHand.write { s₁.buf b with error := eio } hw.inHand.delwri ?_), ?_⟩
    · exact fun _ hvp hi => ⟨hvp, hi, rfl⟩
    · rw [setBuf_buf]
      exact hbusy
  · refine ⟨_, rfl, hw.trans (hw.inHand.setFlags hw.inHand.delwri id), ?_⟩
    rw [setFlags_buf]
    exact hbusy

/-- A process that waits for a buffer goes on waiting, or gets the buffer, or gives it up. -/
theorem finish_spec [DecidableEq π] (h : InHand s b) (hbusy : (s.buf b).flags.busy = true) (p : π)
    (write : Bool) : ∃ s', finish s p b write = .ok s' ∧
      ((s.buf b).flags.done = false ∧ s' = sleep s p (.buf b) ∨
        (s.buf b).flags.done = true ∧ s'.pc = Function.update s.pc p .idle ∧
          (write = true ∧ Ends .free 1 b s s' ∨ write = false ∧ Ends (.held p) 0 b s s')) := by
  rw [finish]
  by_cases hdone : (s.buf b).flags.done = true
  · have herr : ∃ s', (if (s.buf b).flags.error || (s.buf b).error ≠ 0 then failed s b else .ok s) =
        .ok s' ∧ Works b s s' ∧ (s'.buf b).flags.busy = (s.buf b).flags.busy := by
      split
      · exact failed_spec h
      · exact ⟨s, rfl, Works.refl h, rfl⟩
    rcases herr with ⟨s₁, hok, hw, hbusy₁⟩
    rw [if_neg (by simp [hdone]), hok]
    simp only [bind, Except.bind]
    cases write with
    | true =>
      rcases brelse_spec hw.inHand with ⟨s', hok', hpc, hends⟩
      refine ⟨s'.goto p .idle, ?_, Or.inr ⟨hdone, ?_, Or.inl ⟨rfl, (hw.ends hends).goto p .idle⟩⟩⟩
      · rw [if_pos rfl, hok']
      · rw [State.goto, hpc, hw.pc]
    | false =>
      have hgive := hw.inHand.give (u := .held p) (hbusy₁.trans hbusy) nofun nofun nofun nofun
      refine ⟨_, rfl, Or.inr ⟨hdone, ?_, Or.inr ⟨rfl, (hw.ends hgive).goto p .idle⟩⟩⟩
      rw [State.goto, State.give, hw.pc]
  · exact ⟨_, by rw [if_pos (by simp [hdone])], Or.inl ⟨Bool.eq_false_iff.mpr hdone, rfl⟩⟩

/-- What `biodone` leaves of the flags and the block. -/
theorem setError_flags (buf : Buf ν) (error : Option ℤ) :
    (setError buf error).vp = buf.vp ∧ (setError buf error).lblkno = buf.lblkno ∧
      (written (setError buf error).flags).async = buf.flags.async ∧
        (written (setError buf error).flags).busy = buf.flags.busy ∧
          (written (setError buf error).flags).delwri = buf.flags.delwri ∧
            (written (setError buf error).flags).inval = buf.flags.inval := by
  rw [written]
  cases error with
  | none =>
    refine ⟨rfl, rfl, ?_⟩
    split <;> exact ⟨rfl, rfl, rfl, rfl⟩
  | some e =>
    refine ⟨rfl, rfl, ?_⟩
    split <;> exact ⟨rfl, rfl, rfl, rfl⟩

/-- The end of `biodone`. -/
theorem Ends.done {n : ℕ} (h : Ends u n b s s') (hb : b < s.nbuf) (hu : u ≠ .async) :
    Ends u n b s (wakeup (s'.setFlags b { (s'.buf b).flags with async := false, done := true })
      (.buf b)) := by
  have hb' : b < s'.nbuf := h.frame.nbuf ▸ hb
  have hflags := h.core.setFlags (f := { (s'.buf b).flags with async := false, done := true })
    hb' rfl (h.core.settled b hb' nofun).delwri (h.core.settled b hb' nofun).clean (fun _ _ => id)
    (by rw [h.use]; exact fun heq => absurd heq hu) fun _ _ => rfl
  have hf := h.frame.trans (frame_setBuf s' b
    { s'.buf b with flags := { (s'.buf b).flags with async := false, done := true } })
  refine ⟨hflags.wake _ _, ⟨hf.nbuf, hf.vIndex, hf.buf, hf.use, hf.released⟩, h.use, h.released, ?_⟩
  rintro vp blkno ⟨hlt, hvp, hl, hi⟩
  have hbuf := setFlags_buf s' b { (s'.buf b).flags with async := false, done := true }
  change ((s'.setFlags b _).buf b).vp = _ at hvp
  change ((s'.setFlags b _).buf b).lblkno = _ at hl
  change ((s'.setFlags b _).buf b).flags.inval = _ at hi
  rw [hbuf] at hvp hl hi
  exact h.valid vp blkno ⟨hlt, hvp, hl, hi⟩

/-- A driver gives a buffer up for nobody, or back to the process that waits for it. -/
theorem biodone_spec (h : Core s none) (hb : b < s.nbuf) (error : Option ℤ)
    (hfl : s.use b = .async ∨ ∃ p, s.use b = .sync p) : ∃ s', biodone s b error = .ok s' ∧
      s'.pc = s.pc ∧ (s.use b = .async ∧ Ends .free 1 b s s' ∨
        ∃ p, s.use b = .sync p ∧ Ends (.sync p) 0 b s s') := by
  have hs := h.settled b hb nofun
  have hin : InHand s b := by
    refine h.inHand hb ?_ ?_
    · rcases hfl with heq | ⟨p, heq⟩ <;> rw [heq] <;> exact nofun
    · rcases hfl with heq | ⟨p, heq⟩ <;> rw [heq] <;> exact fun _ => nofun
  rcases setError_flags (s.buf b) error with ⟨hvp, hl, hasync, hbusy, hdel, hinval⟩
  have hw := hin.write { setError (s.buf b) error with
      flags := written (setError (s.buf b) error).flags }
    (by rw [hdel, hvp]; exact hs.delwri) (by rw [hvp, hinval, hl]; exact fun _ hv hi => ⟨hv, hi, rfl⟩)
  rw [biodone]
  dsimp only
  rw [hasync]
  rcases hfl with heq | ⟨p, heq⟩
  · rcases brelse_spec hw.inHand with ⟨s', hok, hpc, hends⟩
    rw [hs.async heq, if_pos rfl, hok]
    exact ⟨_, rfl, hpc, Or.inl ⟨heq, (hw.ends hends).done hb nofun⟩⟩
  · have hends := hw.inHand.settle (by rw [setBuf_buf, hbusy]; exact hs.busy.mpr (by rw [heq]; exact nofun))
      (by rw [hw.use, heq]; exact nofun) (by rw [hw.use, heq]; exact fun _ => nofun)
      (by rw [hw.use, heq]; exact nofun)
      (by rw [hw.use, setBuf_buf, hasync]; exact fun p _ => hs.sync _ heq)
    rw [hs.sync p heq, if_neg nofun]
    refine ⟨_, rfl, rfl, Or.inr ⟨p, heq, Ends.done ?_ hb nofun⟩⟩
    exact ⟨hends, hw.frame, heq, rfl, hw.valid⟩

/-! ## New buffers -/

theorem bgetvp_eq (h : (s.buf b).vp = none) (vp : ν) :
    bgetvp s b vp = .ok (s.setBuf b { s.buf b with vp := some vp }) := by
  rw [bgetvp, h]

theorem binshash_eq {q : Links (Node Chain ℕ)} {k : Chain}
    (h : insque s.hash (.item b) (.head k) = .ok q) : binshash s b k = .ok { s with hash := q } := by
  rw [binshash, h]
  rfl

/-- A buffer comes off its free list, and its fields may change. -/
theorem Core.take {q : Queue} (h : Core s none) (hq : On s.av q b) :
    ∃ av, unlink s.av (.item b) = .ok av ∧ ∀ s', s'.av = av → s'.hash = s.hash → Frame b s s' →
      ((s'.buf b).flags.delwri = true → (s'.buf b).vp.isSome) →
      (∀ vp, (s'.buf b).vp = some vp → (s'.buf b).flags.inval = false →
        (s.buf b).vp = some vp ∧ (s.buf b).flags.inval = false ∧
          (s'.buf b).lblkno = (s.buf b).lblkno) → InHand s' b := by
  have hlt : b < s.nbuf := h.bound b (Or.inl ⟨q, hq⟩)
  have hs := h.settled b hlt nofun
  have huse := hs.free.mp ⟨q, hq⟩
  rcases h.av.unlink hq with ⟨av, hok, htidy, hon⟩
  refine ⟨av, hok, fun s' hav hhash hf hdel hplace => ⟨?_, hf.nbuf ▸ hlt, ?_, ?_, hdel, ?_⟩⟩
  · refine (h.out b).frame hf (hav ▸ htidy) (hhash ▸ h.hash) hlt ?_ fun _ _ _ => by rw [hhash]
    intro q' x hx
    rw [hav, hon]
    exact ⟨And.left, fun h => ⟨h, hx⟩⟩
  · rw [hav]
    exact fun q' hq' => ((hon q' b).mp hq').2 rfl
  · rw [hhash]
    exact hs.chained.mpr fun p => by rw [huse]; exact nofun
  · intro vp hvp hinval
    rcases hplace vp hvp hinval with ⟨hvp', hinval', hl⟩
    rw [hhash, hl, bufhash_eq hf.vIndex]
    exact hs.place vp hvp' hinval'

/-- A busy buffer of no vnode that is on no list at all. -/
structure Loose (s : State ν π) (b : ℕ) : Prop where
  core : Core s (some b)
  lt : b < s.nbuf
  off : ∀ q, ¬On s.av q b
  unchained : ∀ k, ¬On s.hash k b
  vp : (s.buf b).vp = none
  busy : (s.buf b).flags.busy = true
  delwri : (s.buf b).flags.delwri = false

theorem Loose.congr (h : Loose s b) (hf : Frame b s s') (hav : s'.av = s.av)
    (hhash : s'.hash = s.hash) (hvp : (s'.buf b).vp = none)
    (hflags : (s'.buf b).flags = (s.buf b).flags) : Loose s' b where
  core := h.core.frame hf (hav ▸ h.core.av) (hhash ▸ h.core.hash) h.lt
    (fun q x _ => by rw [hav]) fun k x _ => by rw [hhash]
  lt := hf.nbuf ▸ h.lt
  off := hav ▸ h.off
  unchained := hhash ▸ h.unchained
  vp := hvp
  busy := hflags ▸ h.busy
  delwri := hflags ▸ h.delwri

/-- The buffer comes to a hash chain, with the fields that it then has. -/
theorem Loose.chain (h : Loose s b) (k : Chain) : ∃ q, insque s.hash (.item b) (.head k) = .ok q ∧
    ∀ s', s'.av = s.av → s'.hash = q → Frame b s s' → (s'.buf b).flags.delwri = false →
      (∀ vp, (s'.buf b).vp = some vp → k = bufhash s vp (s'.buf b).lblkno) → InHand s' b := by
  rcases h.core.hash.insque h.unchained k with ⟨q, hok, htidy, hon⟩
  refine ⟨q, hok, fun s' hav hhash hf hdel hplace => ⟨?_, hf.nbuf ▸ h.lt, hav ▸ h.off, ?_, ?_, ?_⟩⟩
  · refine h.core.frame hf (hav ▸ h.core.av) (hhash ▸ htidy) h.lt (fun _ _ _ => by rw [hav]) ?_
    intro k' x hx
    rw [hhash, hon]
    exact ⟨fun h => h.resolve_right fun h => hx h.2, Or.inl⟩
  · rw [hhash]
    exact ⟨k, (hon k b).mpr (Or.inr ⟨rfl, rfl⟩)⟩
  · exact fun hd => absurd (hd.symm.trans hdel) nofun
  · intro vp hvp _
    rw [hhash, bufhash_eq hf.vIndex, ← hplace vp hvp]
    exact (hon k b).mpr (Or.inr ⟨rfl, rfl⟩)

/-- What a process claims of the buffer that it waits for. -/
def Pc.claim (p : π) : Pc ν → Option (ℕ × Use π)
  | .allocbuf _ b => some (b, .alloc p)
  | .biowait b _ => some (b, .sync p)
  | _ => none

/-- A process has got the buffer `b`, or waits for the end of its input or allocation. -/
structure Gets [DecidableEq π] (p : π) (new : Option (ν × ℤ)) (b : ℕ) (s s' : State ν π) :
    Prop where
  core : Core s' none
  frame : Frame b s s'
  use : s'.use b ≠ .free
  released : s'.released b = s.released b
  valid : ∀ vp blkno, Valid s' vp blkno b → Valid s vp blkno b ∨ new = some (vp, blkno)
  pc : ∃ v, s'.pc = Function.update s.pc p v ∧
    ∀ x u, v.claim p = some (x, u) → x = b ∧ s'.use b = u

section Process

variable [DecidableEq π]

/-- Work at the buffer before it is got. -/
theorem Gets.before {new : Option (ν × ℤ)} {s₁ : State ν π} (hf : Frame b s s₁)
    (hpc : s₁.pc = s.pc) (hrel : s₁.released b = s.released b)
    (hv : ∀ vp blkno, Valid s₁ vp blkno b → Valid s vp blkno b ∨ new = some (vp, blkno))
    (h : Gets p none b s₁ s') : Gets p new b s s' where
  core := h.core
  frame := hf.trans h.frame
  use := h.use
  released := h.released.trans hrel
  valid := fun vp blkno hvalid => hv vp blkno ((h.valid vp blkno hvalid).resolve_right nofun)
  pc := by
    rw [← hpc]
    exact h.pc

/-- A process has found the buffer, or reads it. -/
theorem got_spec (h : InHand s b) (hbusy : (s.buf b).flags.busy = true)
    (hinval : (s.buf b).flags.inval = false) (hvp : (s.buf b).vp.isSome)
    (hnew : (s.buf b).flags.cache = true ∨ (s.buf b).flags.async = false) (bread : Bool) :
    ∃ s', got s p b bread = .ok s' ∧ Gets p none b s s' := by
  rw [got]
  split
  next hread =>
    have hnc : (s.buf b).flags.cache = false := by
      rw [hinval, Bool.or_false, Bool.and_eq_true, Bool.not_eq_true'] at hread
      exact hread.2
    have hasync := hnew.resolve_left (by rw [hnc]; exact nofun)
    have hw := h.setFlags (f := { (s.buf b).flags with
      read := true, done := false, error := false, inval := false }) h.delwri fun _ => hinval
    have hends := hw.inHand.give (u := .sync p) (by rw [setFlags_buf]; exact hbusy) nofun nofun
      nofun (by rw [setFlags_buf]; exact fun _ _ => hasync)
    have hall := (hw.ends hends).goto p (.biowait b false)
    refine ⟨_, ?_, hall.core, hall.frame, ?_, hall.released, fun vp blkno hv =>
      Or.inl (hall.valid vp blkno hv), .biowait b false, rfl, ?_⟩
    · rw [strategy_eq (by rw [setFlags_buf]; exact hvp)]
      rfl
    · rw [hall.use]
      exact nofun
    · intro x u hclaim
      cases hclaim
      exact ⟨rfl, hall.use⟩
  next =>
    have hall := (h.give (u := .held p) hbusy nofun nofun nofun nofun).goto p .idle
    refine ⟨_, rfl, hall.core, hall.frame, ?_, hall.released, fun vp blkno hv =>
      Or.inl (hall.valid vp blkno hv), .idle, rfl, nofun⟩
    rw [hall.use]
    exact nofun

/-- The block that a call looks for. -/
def Call.block : Call ν → Option (ν × ℤ)
  | .getblk vp blkno _ _ => some (vp, blkno)
  | .geteblk _ => none

/-- A new buffer goes to the caller. -/
theorem filled_spec (h : Loose s b) (c : Call ν) :
    ∃ s', filled s p c b = .ok s' ∧ Gets p c.block b s s' := by
  have hf₁ := frame_setBuf s b { s.buf b with bcount := c.size, bufsize := c.size }
  obtain ⟨s₁, hs₁⟩ : ∃ s₁, s₁ = s.setBuf b { s.buf b with bcount := c.size, bufsize := c.size } :=
    ⟨_, rfl⟩
  rw [← hs₁] at hf₁
  have hbuf₁ : s₁.buf b = { s.buf b with bcount := c.size, bufsize := c.size } := by
    rw [hs₁, setBuf_buf]
  have hloose : Loose s₁ b := h.congr hf₁ (by rw [hs₁]; rfl) (by rw [hs₁]; rfl)
    (by rw [hbuf₁]; exact h.vp) (by rw [hbuf₁])
  have hpc : s₁.pc = s.pc := by rw [hs₁]; rfl
  have hrel : s₁.released b = s.released b := by rw [hs₁]; rfl
  rw [filled.eq_def, ← hs₁]
  cases c with
  | getblk vp blkno size bread =>
    rcases hloose.chain (bufhash s₁ vp blkno) with ⟨q, hins, hin⟩
    -- the buffer is given its block, and comes to the chain of the block
    let buf : Buf ν := { s₁.buf b with blkno := blkno, lblkno := blkno }
    let s₃ := (s₁.setBuf b buf).setBuf b { buf with vp := some vp }
    let s₅ := ({ s₃ with hash := q } : State ν π).setFlags b { busy := true }
    have hbuf₅ : s₅.buf b = { buf with vp := some vp, flags := { busy := true } } := by
      have hbuf₃ : s₃.buf b = { buf with vp := some vp } := setBuf_buf _ b _
      have hflags := setFlags_buf ({ s₃ with hash := q } : State ν π) b { busy := true }
      dsimp only at hflags
      rw [hbuf₃] at hflags
      exact hflags
    have hf₅ : Frame b s₁ s₅ := by
      have hf := ((frame_setBuf s₁ b buf).trans (frame_setBuf _ b { buf with vp := some vp }))
      have hf' : Frame b s₃ { s₃ with hash := q } :=
        ⟨rfl, rfl, fun _ _ => rfl, fun _ _ => rfl, fun _ _ => rfl⟩
      exact (hf.trans hf').trans (frame_setBuf _ b _)
    have hin₅ : InHand s₅ b := hin s₅ rfl rfl hf₅ (by rw [hbuf₅]) fun vp' hvp' => by
      rw [hbuf₅] at hvp' ⊢
      cases hvp'
      rfl
    rcases got_spec (p := p) hin₅ (by rw [hbuf₅]) (by rw [hbuf₅]) (by rw [hbuf₅]; rfl)
      (Or.inr (by rw [hbuf₅])) bread with ⟨s', hok, hgets⟩
    refine ⟨s', ?_, Gets.before (hf₁.trans hf₅) hpc hrel ?_ hgets⟩
    · change (bgetvp (s₁.setBuf b buf) b vp >>= fun s => binshash s b (bufhash s vp blkno) >>=
        fun s => got (s.setFlags b { busy := true }) p b bread) = _
      rw [bgetvp_eq (by rw [setBuf_buf]; exact hloose.vp), setBuf_buf]
      have hins₃ : binshash s₃ b (bufhash s₃ vp blkno) = .ok { s₃ with hash := q } := binshash_eq hins
      change (binshash s₃ b (bufhash s₃ vp blkno) >>= _) = _
      rw [hins₃]
      exact hok
    · rintro vp' blkno' ⟨-, hvp', hl', -⟩
      rw [hbuf₅] at hvp' hl'
      cases hvp'
      cases hl'
      exact Or.inr rfl
  | geteblk size =>
    rcases hloose.chain (.list .age) with ⟨q, hins, hin⟩
    have hin' : InHand { s₁ with hash := q } b := hin _ rfl rfl
      ⟨rfl, rfl, fun _ _ => rfl, fun _ _ => rfl, fun _ _ => rfl⟩ hloose.delwri fun vp hvp =>
        absurd (hloose.vp.symm.trans hvp) nofun
    have hends := (hin'.give (u := .held p) hloose.busy nofun nofun nofun nofun).goto p .idle
    refine ⟨_, ?_, Gets.before hf₁ hpc hrel ?_ ⟨hends.core, ?_, ?_, ?_, ?_, .idle, rfl, nofun⟩⟩
    · have hins₁ : binshash s₁ b (.list .age) = .ok { s₁ with hash := q } := binshash_eq hins
      change (binshash s₁ b (.list .age) >>= _) = _
      rw [hins₁]
      rfl
    · rintro vp' blkno' ⟨-, hvp', -⟩
      exact absurd (hloose.vp.symm.trans hvp') nofun
    · exact ⟨hends.frame.nbuf, hends.frame.vIndex, hends.frame.buf, hends.frame.use,
        hends.frame.released⟩
    · rw [hends.use]
      exact nofun
    · exact hends.released
    · exact fun vp blkno hv => Or.inl (hends.valid vp blkno hv)

omit [DecidableEq π] in
/-- A buffer leaves its hash chain, and its vnode. -/
theorem InHand.unchain (h : InHand s b) (hbusy : (s.buf b).flags.busy = true)
    (hdel : (s.buf b).flags.delwri = false) : ∃ q, bremhash s b = .ok { s with hash := q } ∧
      ∀ buf, buf.vp = none → buf.flags = (s.buf b).flags →
        Loose (({ s with hash := q } : State ν π).setBuf b buf) b := by
  rcases h.chained with ⟨k, hk⟩
  rcases h.core.hash.unlink hk with ⟨q, hok, htidy, hon⟩
  refine ⟨q, ?_, fun buf hvp hflags => ?_⟩
  · rw [bremhash, hok]
    rfl
  · have hf : Frame b s (({ s with hash := q } : State ν π).setBuf b buf) :=
      ⟨rfl, rfl, fun x hx => Function.update_of_ne hx _ _, fun _ _ => rfl, fun _ _ => rfl⟩
    refine ⟨h.core.frame hf h.core.av htidy h.lt (fun _ _ _ => Iff.rfl) ?_, h.lt, h.off, ?_, ?_, ?_,
      ?_⟩
    · intro k x hx
      exact (hon k x).trans ⟨And.left, fun h => ⟨h, hx⟩⟩
    · exact fun k hk => ((hon k b).mp hk).2 rfl
    · rw [setBuf_buf]
      exact hvp
    · rw [setBuf_buf, hflags]
      exact hbusy
    · rw [setBuf_buf, hflags]
      exact hdel

omit [DecidableEq π] in
theorem Loose.alloc (h : Loose s b) (p : π) : Core (s.give b (.alloc p)) none := by
  have huse : (s.give b (.alloc p)).use b = .alloc p := Function.update_self _ _ _
  have hf : Frame b s (s.give b (.alloc p)) :=
    ⟨rfl, rfl, fun _ _ => rfl, fun _ hx => Function.update_of_ne hx _ _, fun _ _ => rfl⟩
  have hcore := h.core.frame hf h.core.av h.core.hash h.lt (fun _ _ _ => Iff.rfl) fun _ _ _ => Iff.rfl
  refine hcore.close ⟨?_, ?_, ?_, ?_, ?_, ?_, ?_, ?_, ?_⟩
  · rw [huse]
    exact ⟨fun ⟨q, hq⟩ => absurd hq (h.off q), nofun⟩
  · rw [huse]
    exact ⟨fun ⟨k, hk⟩ => absurd hk (h.unchained k), fun hne => absurd rfl (hne p)⟩
  · rw [huse]
    exact ⟨fun _ => nofun, fun _ => h.busy⟩
  · exact fun hd => absurd (hd.symm.trans h.delwri) nofun
  · rw [huse]
    exact nofun
  · rw [huse]
    exact nofun
  · rw [huse]
    exact nofun
  · exact fun _ _ => h.vp
  · exact fun vp hvp => absurd (h.vp.symm.trans hvp) nofun

/-- A new buffer leaves its chain, and goes to the caller when its memory has the right size. -/
theorem fillin_spec (h : InHand s b) (hbusy : (s.buf b).flags.busy = true)
    (hdel : (s.buf b).flags.delwri = false) (c : Call ν) :
    ∃ s', fillin s p c b = .ok s' ∧
      Gets p (if (s.buf b).bufsize = c.size then c.block else none) b s s' := by
  rcases h.unchain hbusy hdel with ⟨q, hok, hloose⟩
  let buf : Buf ν := { s.buf b with vp := none, blkno := 0, lblkno := 0, error := 0 }
  have hl := hloose buf rfl rfl
  have hf : Frame b s (({ s with hash := q } : State ν π).setBuf b buf) :=
    ⟨rfl, rfl, fun x hx => Function.update_of_ne hx _ _, fun _ _ => rfl, fun _ _ => rfl⟩
  have hv (vp : ν) (blkno : ℤ) :
      ¬Valid (({ s with hash := q } : State ν π).setBuf b buf) vp blkno b := by
    rintro ⟨-, hvp, -⟩
    rw [setBuf_buf] at hvp
    cases hvp
  rw [fillin, hok]
  simp only [bind, Except.bind]
  split
  next hsize =>
    refine ⟨_, rfl, ⟨(hl.alloc p).goto p (.allocbuf c b), ?_, ?_, rfl,
      fun vp blkno hvalid => absurd hvalid (hv vp blkno), .allocbuf c b, rfl, ?_⟩⟩
    · exact ⟨rfl, rfl, hf.buf, fun _ hx => Function.update_of_ne hx _ _, fun _ _ => rfl⟩
    · have huse : Function.update s.use b (.alloc p) b = .alloc p := Function.update_self _ _ _
      exact fun heq => absurd (huse.symm.trans heq) nofun
    · intro x u hclaim
      cases hclaim
      exact ⟨rfl, Function.update_self _ _ _⟩
  next hsize =>
    have heq : (s.buf b).bufsize = c.size := by
      by_contra hne
      exact hsize (by rw [setBuf_buf]; exact hne)
    rcases filled_spec hl c with ⟨s', hok', hgets⟩
    refine ⟨s', hok', hgets.core, hf.trans hgets.frame, hgets.use, hgets.released, ?_, hgets.pc⟩
    rw [if_pos heq]
    exact fun vp blkno hvalid => Or.inr ((hgets.valid vp blkno hvalid).resolve_left (hv vp blkno))

/-- A delayed write goes to the driver, and any other buffer is used for the call. -/
theorem reuse_spec {q : Queue} (h : Core s none) (hq : On s.av q b) (c : Call ν) :
    ∃ s', reuse s p c b = .ok s' ∧ ((s.buf b).flags.delwri = false ∧
        Gets p (if (s.buf b).bufsize = c.size then c.block else none) b s s' ∨
      s'.pc = Function.update s.pc p (.start c) ∧ Ends .async 0 b s s') := by
  have hlt : b < s.nbuf := h.bound b (Or.inl ⟨q, hq⟩)
  have hs := h.settled b hlt nofun
  have hfree := hs.free.mp ⟨q, hq⟩
  rcases h.take hq with ⟨av, hok, hin⟩
  let s₁ : State ν π := { s with av := av }
  have hf₁ : Frame b s s₁ := ⟨rfl, rfl, fun _ _ => rfl, fun _ _ => rfl, fun _ _ => rfl⟩
  have hin₁ : InHand s₁ b := hin s₁ rfl rfl hf₁ hs.delwri fun vp hvp hi => ⟨hvp, hi, rfl⟩
  have hrem : bremfree s b = .ok s₁ := by
    rw [bremfree, hok]
    rfl
  rw [reuse, hrem]
  simp only [bind, Except.bind]
  split
  next hdel =>
    have hvp : (s.buf b).vp.isSome := hs.delwri hdel
    have hw := hin₁.setFlags (f := { (s₁.buf b).flags with busy := true }) hin₁.delwri id
    rcases bawrite_spec hw.inHand (by rw [setFlags_buf]) (Or.inl (by rw [setFlags_buf]; exact hvp))
      with ⟨s', hok', hpc, hcase⟩
    rcases hcase with ⟨hinval, -⟩ | ⟨-, hends⟩
    · -- a free buffer that is not valid waits for no write
      rw [setFlags_buf] at hinval
      exact absurd ((hs.clean hfree hinval).symm.trans hdel) nofun
    · have hall := (hw.ends hends).goto p (.start c)
      refine ⟨s'.goto p (.start c), by rw [hok'], Or.inr ⟨?_, hall.core, hf₁.trans hall.frame,
        hall.use, hall.released, hall.valid⟩⟩
      rw [State.goto, hpc]
      rfl
  next hdel =>
    have hdel' : (s.buf b).flags.delwri = false := Bool.eq_false_iff.mpr hdel
    have hrel : ∃ s₂, (if (s₁.buf b).vp.isSome then brelvp s₁ b else .ok s₁) = .ok s₂ ∧
        Works b s₁ s₂ ∧ (s₂.buf b).vp = none ∧ (s₂.buf b).bufsize = (s.buf b).bufsize := by
      split
      next hvp =>
        rcases brelvp_works hin₁ hvp hdel' with ⟨s₂, hok₂, hw, hbuf⟩
        exact ⟨s₂, hok₂, hw, by rw [hbuf], by rw [hbuf]⟩
      next hvp => exact ⟨s₁, rfl, Works.refl hin₁, Option.not_isSome_iff_eq_none.mp hvp, rfl⟩
    rcases hrel with ⟨s₂, hok₂, hw, hnone, hsize⟩
    have hw' := hw.inHand.write { s₂.buf b with flags := { busy := true } } nofun fun vp hvp =>
      absurd (hnone.symm.trans hvp) nofun
    rcases fillin_spec (p := p) hw'.inHand (by rw [setBuf_buf]) (by rw [setBuf_buf]) c
      with ⟨s', hok', hgets⟩
    rw [setBuf_buf, hsize] at hgets
    rw [hok₂]
    have hall := hw.trans hw'
    refine ⟨s', hok', Or.inl ⟨hdel', hgets.core, (hf₁.trans hall.frame).trans hgets.frame, hgets.use,
      hgets.released.trans (congrFun hall.released b), fun vp blkno hv => ?_, ?_⟩⟩
    · exact (hgets.valid vp blkno hv).imp (hall.valid vp blkno) id
    · rcases hgets.pc with ⟨v, hv, hclaim⟩
      exact ⟨v, by rw [hv, hall.pc], hclaim⟩

omit [DecidableEq π] in
theorem firstBuf_spec (h : Core s none) (q : Queue) : firstBuf s q = .ok none ∧ (∀ b, ¬On s.av q b) ∨
    ∃ b, firstBuf s q = .ok (some b) ∧ On s.av q b := by
  rcases h.av.forw_head q with ⟨hforw, hnone⟩ | ⟨b, hforw, hon⟩
  · refine Or.inl ⟨?_, hnone⟩
    rw [firstBuf, hforw]
    exact if_pos rfl
  · refine Or.inr ⟨b, ?_, hon⟩
    rw [firstBuf, hforw]

/-- A process sleeps, and will try again. -/
theorem Core.sleep {o : Option ℕ} (h : Core s o) (p : π) (ch : Chan) (w : Bool) :
    Core (Bio.sleep { s with wanted := w } p ch) o :=
  h.wake w _

omit [DecidableEq π] in
/-- The processes that wait for a buffer have it. -/
def Pcs (s : State ν π) : Prop :=
  ∀ p x u, (s.pc p).claim p = some (x, u) → x < s.nbuf ∧ s.use x = u

/-- What a step at the buffer `b` keeps, but for valid buffers of the block `new`. It releases the
buffer once when it gives it up. -/
structure Good (new : Option (ν × ℤ)) (b : ℕ) (s s' : State ν π) : Prop where
  core : Core s' none
  pcs : Pcs s'
  frame : Frame b s s'
  valid : ∀ vp blkno, Valid s' vp blkno b → Valid s vp blkno b ∨ new = some (vp, blkno)
  released : s'.released b = s.released b + if s.use b ≠ .free ∧ s'.use b = .free then 1 else 0

/-- No process but `p` waits for the buffer. -/
def Mine (s : State ν π) (p : π) (b : ℕ) : Prop :=
  ∀ p' ≠ p, s.use b ≠ .alloc p' ∧ s.use b ≠ .sync p'

omit [DecidableEq π] in
theorem mine_of_eq (h : s.use b = .free ∨ s.use b = .held p ∨ s.use b = .alloc p ∨ s.use b = .sync p) :
    Mine s p b := by
  intro p' hp
  rcases h with h | h | h | h <;> rw [h] <;>
    exact ⟨fun heq => by cases heq <;> exact hp rfl, fun heq => by cases heq <;> exact hp rfl⟩

/-- A process moves on, with the buffer that it had, or a free one. -/
theorem Pcs.move {v : Pc ν} (h : Pcs s) (hf : Frame b s s') (hb : b < s.nbuf)
    (hpc : s'.pc = Function.update s.pc p v)
    (hv : ∀ x u, v.claim p = some (x, u) → x = b ∧ s'.use b = u) (hmine : Mine s p b) : Pcs s' := by
  intro p' x u hclaim
  rw [hpc] at hclaim
  by_cases hp : p' = p
  · rw [hp, Function.update_self] at hclaim
    rcases hv x u hclaim with ⟨rfl, huse⟩
    exact ⟨hf.nbuf ▸ hb, huse⟩
  · rw [Function.update_of_ne hp] at hclaim
    rcases h p' x u hclaim with ⟨hx, huse⟩
    have hxb : x ≠ b := by
      rintro rfl
      cases hpc' : s.pc p' with
      | allocbuf c y =>
        rw [hpc'] at hclaim
        cases hclaim
        exact (hmine p' hp).1 huse
      | biowait y w =>
        rw [hpc'] at hclaim
        cases hclaim
        exact (hmine p' hp).2 huse
      | idle => rw [hpc'] at hclaim; cases hclaim
      | loop c => rw [hpc'] at hclaim; cases hclaim
      | start c => rw [hpc'] at hclaim; cases hclaim
      | malloc c => rw [hpc'] at hclaim; cases hclaim
    rw [hf.nbuf, hf.use x hxb]
    exact ⟨hx, huse⟩

/-- Nobody's buffer changes hands. -/
theorem Pcs.same {v : Pc ν} (h : Pcs s) (hn : s'.nbuf = s.nbuf) (huse : s'.use = s.use)
    (hpc : s'.pc = Function.update s.pc p v)
    (hv : ∀ x u, v.claim p = some (x, u) → x < s.nbuf ∧ s.use x = u) : Pcs s' := by
  intro p' x u hclaim
  rw [hpc] at hclaim
  rw [hn, huse]
  by_cases hp : p' = p
  · rw [hp, Function.update_self] at hclaim
    exact hv x u hclaim
  · rw [Function.update_of_ne hp] at hclaim
    exact h p' x u hclaim

theorem Gets.good {new : Option (ν × ℤ)} (h : Gets p new b s s') (hp : Pcs s) (hb : b < s.nbuf)
    (hmine : Mine s p b) : Good new b s s' := by
  rcases h.pc with ⟨v, hpc, hv⟩
  refine ⟨h.core, hp.move h.frame hb hpc hv hmine, h.frame, h.valid, ?_⟩
  rw [h.released, if_neg fun hfree => h.use hfree.2, Nat.add_zero]

/-- The end of work at a buffer that was in use. -/
theorem Ends.good {n : ℕ} {v : Pc ν} (h : Ends u n b s s') (hp : Pcs s) (hb : b < s.nbuf)
    (hpc : s'.pc = Function.update s.pc p v)
    (hv : ∀ x u', v.claim p = some (x, u') → x = b ∧ u = u') (hmine : Mine s p b)
    (hn : n = if s.use b ≠ .free ∧ u = .free then 1 else 0) : Good none b s s' where
  core := h.core
  pcs := hp.move h.frame hb hpc (fun x u' hx => h.use ▸ hv x u' hx) hmine
  frame := h.frame
  valid := fun vp blkno hvalid => Or.inl (h.valid vp blkno hvalid)
  released := by rw [h.released, h.use, hn]

/-- No buffer changes hands, and only flags are written that do not matter. -/
theorem good_still (h : Core s' none) (hp : Pcs s') (hf : Frame b s s') (huse : s'.use b = s.use b)
    (hrel : s'.released b = s.released b)
    (hv : ∀ vp blkno, Valid s' vp blkno b → Valid s vp blkno b) (new : Option (ν × ℤ)) :
    Good new b s s' := by
  refine ⟨h, hp, hf, fun vp blkno hvalid => Or.inl (hv vp blkno hvalid), ?_⟩
  rw [huse, hrel, if_neg fun hfree => hfree.1 hfree.2, Nat.add_zero]

omit [DecidableEq π] in
/-- A buffer that `tryfree` uses at once for the call. -/
def Reuses (s : State ν π) (c : Call ν) : Prop :=
  ∃ b, (firstBuf s .age = .ok (some b) ∨ firstBuf s .age = .ok none ∧ firstBuf s .lru = .ok (some b)) ∧
    (s.buf b).flags.delwri = false ∧ (s.buf b).bufsize = c.size

/-- The end of `reuse`, for a process that waits for no buffer. -/
theorem reuse_good {q : Queue} (h : Core s none) (hp : Pcs s) (hq : On s.av q b) (c : Call ν) :
    ∃ s' new, reuse s p c b = .ok s' ∧ Good new b s s' ∧ (new = none ∨ new = c.block ∧
      (s.buf b).flags.delwri = false ∧ (s.buf b).bufsize = c.size) := by
  have hlt : b < s.nbuf := h.bound b (Or.inl ⟨q, hq⟩)
  have hfree := (h.settled b hlt nofun).free.mp ⟨q, hq⟩
  have hmine : Mine s p b := mine_of_eq (Or.inl hfree)
  rcases reuse_spec (p := p) h hq c with ⟨s', hok, ⟨hdel, hgets⟩ | ⟨hpc, hends⟩⟩
  · refine ⟨s', _, hok, hgets.good hp hlt hmine, ?_⟩
    split
    next hsize => exact Or.inr ⟨rfl, hdel, hsize⟩
    next => exact Or.inl rfl
  · refine ⟨s', none, hok, hends.good hp hlt hpc nofun hmine ?_, Or.inl rfl⟩
    rw [if_neg fun hne => hne.1 hfree]

/-- A process that goes to another place, and may sleep. -/
theorem good_goto {v : Pc ν} (h : Core s none) (hp : Pcs s) (hv : v.claim p = none) (w : Bool)
    (a : π → Option Chan) (b : ℕ) :
    Good none b s (({ s with wanted := w, asleep := a } : State ν π).goto p v) := by
  have hf : Frame b s (({ s with wanted := w, asleep := a } : State ν π).goto p v) :=
    ⟨rfl, rfl, fun _ _ => rfl, fun _ _ => rfl, fun _ _ => rfl⟩
  refine good_still ((h.wake w a).goto p v) (hp.same (p := p) (v := v) rfl rfl rfl ?_) hf rfl rfl
    (fun _ _ => id) none
  rw [hv]
  exact nofun

/-- A process goes to another place after a step. -/
theorem Good.goto {new : Option (ν × ℤ)} {v : Pc ν} (h : Good new b s s') (hv : v.claim p = none)
    (a : π → Option Chan) :
    Good new b s (({ s' with asleep := a } : State ν π).goto p v) where
  core := (h.core.wake s'.wanted a).goto p v
  pcs := by
    refine h.pcs.same (p := p) (v := v) rfl rfl rfl ?_
    rw [hv]
    exact nofun
  frame := ⟨h.frame.nbuf, h.frame.vIndex, h.frame.buf, h.frame.use, h.frame.released⟩
  valid := h.valid
  released := h.released

omit [DecidableEq π] in
/-- Flags are written that matter to nobody. -/
theorem Pcs.setFlags (h : Pcs s) (b : ℕ) (f : Flags) : Pcs (s.setFlags b f) := h

/-- A buffer that is in use, or free, gets other flags. -/
theorem good_setFlags (h : Core (s.setFlags b f) none) (hp : Pcs s)
    (hinval : ∀ vp, (s.buf b).vp = some vp → f.inval = false → (s.buf b).flags.inval = false) :
    Good none b s (s.setFlags b f) := by
  refine good_still h (hp.setFlags b f) (frame_setBuf s b _) rfl rfl ?_ none
  rintro vp blkno ⟨hlt, hvp, hl, hi⟩
  rw [setFlags_buf] at hvp hl hi
  exact ⟨hlt, hvp, hl, hinval vp hvp hi⟩

theorem tryfree_spec (h : Core s none) (hp : Pcs s) (c : Call ν) : ∃ s' b new,
    tryfree s p c = .ok s' ∧ Good new b s s' ∧ (new = none ∨ new = c.block ∧ Reuses s c) := by
  rw [tryfree]
  rcases firstBuf_spec h .age with ⟨hage, -⟩ | ⟨b, hage, hon⟩
  · rcases firstBuf_spec h .lru with ⟨hlru, -⟩ | ⟨b, hlru, hon⟩
    · simp only [hage, hlru, bind, Except.bind]
      exact ⟨_, 0, none, rfl, good_goto h hp rfl true _ 0, Or.inl rfl⟩
    · simp only [hage, hlru, bind, Except.bind]
      rcases reuse_good (p := p) h hp hon c with ⟨s', new, hok, hgood, hnew⟩
      exact ⟨s', b, new, hok, hgood, hnew.imp id (And.imp id fun hr => ⟨b, Or.inr ⟨hage, hlru⟩, hr⟩)⟩
  · simp only [hage, bind, Except.bind]
    rcases reuse_good (p := p) h hp hon c with ⟨s', new, hok, hgood, hnew⟩
    exact ⟨s', b, new, hok, hgood, hnew.imp id (And.imp id fun hr => ⟨b, Or.inl hage, hr⟩)⟩

/-- `getnewbuf` asks for memory. -/
def Allocates (s : State ν π) (c : Call ν) : Prop :=
  s.freebufspace > c.size ∧ firstBuf s .empty ≠ .ok none

theorem getnewbuf_spec (h : Core s none) (hp : Pcs s) (c : Call ν) : ∃ s' b new,
    getnewbuf s p c = .ok s' ∧ Good new b s s' ∧
      (new = none ∨ new = c.block ∧ ¬Allocates s c ∧ Reuses s c) := by
  have htry (ha : ¬Allocates s c) : ∃ s' b new, tryfree s p c = .ok s' ∧ Good new b s s' ∧
      (new = none ∨ new = c.block ∧ ¬Allocates s c ∧ Reuses s c) := by
    rcases tryfree_spec (p := p) h hp c with ⟨s', b, new, hok, hgood, hnew⟩
    exact ⟨s', b, new, hok, hgood, hnew.imp id (And.imp id fun hr => ⟨ha, hr⟩)⟩
  rw [getnewbuf]
  rcases firstBuf_spec h .empty with ⟨hempty, -⟩ | ⟨b, hempty, -⟩
  · simp only [hempty, bind, Except.bind, Option.isSome_none, Bool.and_false]
    exact htry fun ha => ha.2 hempty
  · simp only [hempty, bind, Except.bind, Option.isSome_some, Bool.and_true]
    split
    · exact ⟨_, 0, none, rfl, good_goto h hp rfl s.wanted s.asleep 0, Or.inl rfl⟩
    next hspace => exact htry fun ha => hspace (decide_eq_true ha.1)

/-- A header that has no memory gets what was asked for. -/
theorem malloced_spec (h : Core s none) (hp : Pcs s) (c : Call ν)
    (hempty : firstBuf s .empty ≠ .ok none) : ∃ s' b,
      malloced s p c = .ok s' ∧ Good c.block b s s' := by
  rcases firstBuf_spec h .empty with ⟨hnone, -⟩ | ⟨b, hfirst, hon⟩
  · exact absurd hnone hempty
  have hlt : b < s.nbuf := h.bound b (Or.inl ⟨_, hon⟩)
  have hfree := (h.settled b hlt nofun).free.mp ⟨_, hon⟩
  rcases h.take hon with ⟨av, hok, hin⟩
  let s₁ : State ν π := { s with
    freebufspace := s.freebufspace - c.size, allocbufspace := s.allocbufspace + c.size }
  let s₂ := s₁.setFlags b { busy := true, inval := true }
  let s₃ : State ν π := { s₂ with av := av }
  let s₄ := s₃.setBuf b { s₃.buf b with bufsize := c.size }
  have hbuf₂ : s₂.buf b = { s.buf b with flags := { busy := true, inval := true } } :=
    setFlags_buf s₁ b _
  have hbuf₄ : s₄.buf b = { s.buf b with
      flags := { busy := true, inval := true }, bufsize := c.size } := by
    change (s₃.setBuf b { s₂.buf b with bufsize := c.size }).buf b = _
    rw [setBuf_buf, hbuf₂]
  have hf : Frame b s s₄ := by
    refine ⟨rfl, rfl, fun x hx => ?_, fun _ _ => rfl, fun _ _ => rfl⟩
    exact (Function.update_of_ne hx _ _).trans (Function.update_of_ne hx _ _)
  have hin₄ : InHand s₄ b := hin s₄ rfl rfl hf (by rw [hbuf₄]; exact nofun) fun vp _ hi => by
    rw [hbuf₄] at hi
    cases hi
  rcases fillin_spec (p := p) hin₄ (by rw [hbuf₄]) (by rw [hbuf₄]) c with ⟨s', hok', hgets⟩
  rw [hbuf₄, if_pos rfl] at hgets
  have hall : Gets p c.block b s s' := by
    refine ⟨hgets.core, hf.trans hgets.frame, hgets.use, hgets.released, fun vp blkno hv => ?_,
      hgets.pc⟩
    refine (hgets.valid vp blkno hv).imp (fun hv₄ => ?_) id
    rcases hv₄ with ⟨-, -, -, hi⟩
    rw [hbuf₄] at hi
    cases hi
  refine ⟨s', b, ?_, hall.good hp hlt (mine_of_eq (Or.inl hfree))⟩
  have hrem : bremfree s₂ b = .ok s₃ := by
    change (unlink s.av (.item b) >>= _) = _
    rw [hok]
    rfl
  rw [malloced]
  change (firstBuf s .empty >>= _) = _
  rw [hfirst]
  change (bremfree s₂ b >>= _) = _
  rw [hrem]
  exact hok'

/-- A buffer that has got its memory goes to the caller. -/
theorem allocbuf_spec (h : Core s none) (hp : Pcs s) {c : Call ν} (hpc : s.pc p = .allocbuf c b) :
    ∃ s', allocbuf s p c b = .ok s' ∧ Good c.block b s s' := by
  have hclaim := hp p b (.alloc p) (by rw [hpc]; rfl)
  rcases hclaim with ⟨hlt, huse⟩
  have hs := h.settled b hlt nofun
  have hvp := hs.alloc p huse
  have hdel : (s.buf b).flags.delwri = false := by
    by_contra hd
    have := hs.delwri (by simpa using hd)
    rw [hvp] at this
    cases this
  have hloose : Loose s b := by
    refine ⟨h.out b, hlt, fun q hq => ?_, fun k hk => ?_, hvp, hs.busy.mpr (by rw [huse]; exact nofun),
      hdel⟩
    · have := hs.free.mp ⟨q, hq⟩
      rw [huse] at this
      cases this
    · exact hs.chained.mp ⟨k, hk⟩ p huse
  let more := c.size - (s.buf b).bufsize
  let s₁ : State ν π := { s with
    freebufspace := s.freebufspace - more, allocbufspace := s.allocbufspace + more }
  let s₂ := s₁.setBuf b { s.buf b with bcount := c.size, bufsize := c.size }
  have hf : Frame b s s₂ := ⟨rfl, rfl, (frame_setBuf s b _).buf, fun _ _ => rfl, fun _ _ => rfl⟩
  have hbuf : s₂.buf b = { s.buf b with bcount := c.size, bufsize := c.size } := setBuf_buf s₁ b _
  have hloose₂ : Loose s₂ b := hloose.congr hf rfl rfl (by rw [hbuf]; exact hvp) (by rw [hbuf])
  rcases filled_spec (p := p) hloose₂ c with ⟨s', hok, hgets⟩
  refine ⟨s', hok, Gets.good ?_ hp hlt (mine_of_eq (Or.inr (Or.inr (Or.inl huse))))⟩
  refine ⟨hgets.core, hf.trans hgets.frame, hgets.use, hgets.released, fun vp blkno hv => ?_, hgets.pc⟩
  refine (hgets.valid vp blkno hv).imp (fun hv₂ => ?_) id
  rcases hv₂ with ⟨-, hvp₂, -⟩
  rw [hbuf] at hvp₂
  exact absurd (hvp.symm.trans hvp₂) nofun

variable [DecidableEq ν]

omit [DecidableEq π] in
/-- A search from inside a hash chain. -/
theorem search_spec (vp : ν) (blkno : ℤ) {bh n : Node Chain ℕ} {m : List ℕ} {k : ℕ}
    (hw : Walk s.hash n (m.map .item) bh) (hh : bh ∉ m.map Node.item) (hk : m.length < k) :
    search s vp blkno bh k (s.hash.forw n) = .ok (m.find? fun b => isFor (s.buf b) vp blkno) := by
  induction m generalizing n k with
  | nil =>
    cases k with
    | zero => cases hk
    | succ k =>
      rw [hw.1, search.eq_def]
      exact if_pos rfl
  | cons b m ih =>
    cases k with
    | zero => cases hk
    | succ k =>
      rw [List.map_cons, List.mem_cons, not_or] at hh
      rw [hw.1, search, if_neg (Ne.symm hh.1)]
      cases hfor : isFor (s.buf b) vp blkno with
      | true => rw [if_pos rfl, List.find?_cons, hfor]
      | false =>
        rw [if_neg (by simp), List.find?_cons, hfor]
        exact ih hw.2.2 hh.2 (Nat.lt_of_succ_lt_succ hk)

omit [DecidableEq π] in
/-- A block is found when a valid buffer has it. -/
theorem incore_spec (h : Core s none) (vp : ν) (blkno : ℤ) :
    incore s vp blkno = .ok none ∧ (∀ b, ¬Valid s vp blkno b) ∨
      ∃ b, incore s vp blkno = .ok (some b) ∧ Valid s vp blkno b := by
  rcases h.hash with ⟨l, hl⟩
  have hring := hl.ring (bufhash s vp blkno)
  have hlen : (l (bufhash s vp blkno)).length < s.nbuf + 1 := by
    have hsub : l (bufhash s vp blkno) ⊆ List.range s.nbuf := fun b hb =>
      List.mem_range.mpr (h.bound b (Or.inr ⟨_, hl.on_iff.mpr hb⟩))
    have hle := (List.subperm_of_subset (hl.nodup _) hsub).length_le
    rw [List.length_range] at hle
    omega
  have hsearch := search_spec vp blkno hring.walk
    (List.nodup_cons.mp hring.nodup).1 hlen
  rw [incore, hsearch]
  cases hfind : (l (bufhash s vp blkno)).find? fun b => isFor (s.buf b) vp blkno with
  | none =>
    refine Or.inl ⟨rfl, fun b ⟨hlt, hvp, hb, hi⟩ => ?_⟩
    have hplace := (h.settled b hlt nofun).place vp hvp hi
    rw [hb] at hplace
    have hnot := List.find?_eq_none.mp hfind b (hl.on_iff.mp hplace)
    simp [isFor, hvp, hb, hi] at hnot
  | some b =>
    have hfor := List.find?_some hfind
    have hmem := List.mem_of_find?_eq_some hfind
    simp only [isFor, Bool.and_eq_true, decide_eq_true_eq, Bool.not_eq_true'] at hfor
    exact Or.inr ⟨b, rfl, h.bound b (Or.inr ⟨_, hl.on_iff.mpr hmem⟩), hfor.1.2, hfor.1.1, hfor.2⟩

/-- A block that is found is busy, or goes to the caller; for any other a new buffer is sought. -/
theorem getblk_spec (h : Core s none) (hp : Pcs s) (c : Call ν) : getblk s p c = .error .panic ∨
    ∃ s' b new, getblk s p c = .ok s' ∧ Good new b s s' ∧
      ∀ vp blkno, new = some (vp, blkno) → ∀ x, ¬Valid s vp blkno x := by
  cases c with
  | geteblk size =>
    rcases getnewbuf_spec (p := p) h hp (.geteblk size) with ⟨s', b, new, hok, hgood, hnew⟩
    refine Or.inr ⟨s', b, new, hok, hgood, fun vp blkno heq => ?_⟩
    rcases hnew with hnew | ⟨hnew, -⟩
    · exact absurd (hnew.symm.trans heq) nofun
    · exact absurd (hnew.symm.trans heq) nofun
  | getblk vp blkno size bread =>
    rcases incore_spec h vp blkno with ⟨hin, hnone⟩ | ⟨b, hin, hvalid⟩
    · rcases getnewbuf_spec (p := p) h hp (.getblk vp blkno size bread)
        with ⟨s', b, new, hok, hgood, hnew⟩
      refine Or.inr ⟨s', b, new, ?_, hgood, fun vp' blkno' heq => ?_⟩
      · simp only [getblk, hin, bind, Except.bind]
        exact hok
      · rcases hnew with hnew | ⟨hnew, -⟩
        · exact absurd (hnew.symm.trans heq) nofun
        · have hblock := hnew.symm.trans heq
          cases hblock
          exact hnone
    · have hlt := hvalid.1
      have hs := h.settled b hlt nofun
      simp only [getblk, hin, bind, Except.bind]
      split
      next hbusy =>
        have hcore := h.setFlags (f := { (s.buf b).flags with wanted := true }) hlt rfl hs.delwri
          hs.clean (fun _ _ => id) hs.async hs.sync
        have hgood := good_setFlags hcore hp fun _ _ => id
        exact Or.inr ⟨_, b, none, rfl, hgood.goto rfl _, nofun⟩
      next hbusy =>
        have hfree : s.use b = .free := by
          by_contra hne
          exact hbusy (hs.busy.mpr hne)
        rcases hs.free.mpr hfree with ⟨q, hq⟩
        rcases h.take hq with ⟨av, hok, hin⟩
        let f : Flags := { (s.buf b).flags with busy := true, cache := true }
        let s₁ : State ν π := { s.setFlags b f with av := av }
        have hbuf : s₁.buf b = { s.buf b with flags := f } := setFlags_buf s b f
        have hf : Frame b s s₁ :=
          ⟨rfl, rfl, (frame_setBuf s b _).buf, fun _ _ => rfl, fun _ _ => rfl⟩
        have hin₁ : InHand s₁ b := hin s₁ rfl rfl hf (by rw [hbuf]; exact hs.delwri) fun vp hvp hi => by
          rw [hbuf] at hvp hi ⊢
          exact ⟨hvp, hi, rfl⟩
        have hrem : bremfree (s.setFlags b f) b = .ok s₁ := by
          change (unlink s.av (.item b) >>= _) = _
          rw [hok]
          rfl
        rw [hrem]
        dsimp only
        split
        · exact Or.inl rfl
        · rcases got_spec (p := p) hin₁ (by rw [hbuf]) (by rw [hbuf]; exact hvalid.2.2.2)
            (by rw [hbuf]; exact hvalid.2.1 ▸ rfl) (Or.inl (by rw [hbuf])) bread with ⟨s', hok', hgets⟩
          have hall : Gets p none b s s' := Gets.before hf rfl rfl (fun vp' blkno' hv => by
            rcases hv with ⟨hlt', hvp', hl', hi'⟩
            rw [hbuf] at hvp' hl' hi'
            exact Or.inl ⟨hlt', hvp', hl', hi'⟩) hgets
          exact Or.inr ⟨s', b, none, hok', hall.good hp hlt (mine_of_eq (Or.inl hfree)), nofun⟩

end Process

end Bio
