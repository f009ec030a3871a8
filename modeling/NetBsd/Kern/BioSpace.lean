import Mathlib
import NetBsd.Kern.BioRuns

/-!
# The memory of the buffer cache

`freebufspace` and `allocbufspace` are to say how much memory the buffers may still get, and how
much they have. `getnewbuf` compares a size with `freebufspace` only for a buffer that has no memory
yet; `allocbuf`, which it calls for a buffer that is used again, takes what it needs.

## Main definitions

* `resize`: what `allocbuf` does to a buffer and the two counts
* `Keeps`, `Charges`: the steps that leave the memory alone, and those that change it
* `Space`: what is to hold of the two counts
* `Fits`: the steps that take no more than there is

## Main results

* `step_memory`: what each step does to the memory
* `run_space`: the counts in runs whose steps fit
-/

namespace Bio

open InsQueue Fault

variable {ν π : Type} {s s' s'' : State ν π} {b x : ℕ} {p : π} {c : Call ν} {f : Flags}
  {size n total : ℤ}

/-- `allocbuf`: the buffer has its new memory, which is charged. -/
def resize (s : State ν π) (b : ℕ) (size : ℤ) : State ν π :=
  let more := size - (s.buf b).bufsize
  let s : State ν π := { s with
    freebufspace := s.freebufspace - more, allocbufspace := s.allocbufspace + more }
  s.setBuf b { s.buf b with bcount := size, bufsize := size }

theorem allocbuf_eq [DecidableEq π] (s : State ν π) (p : π) (c : Call ν) (b : ℕ) :
    allocbuf s p c b = filled (resize s b c.size) p c b := rfl

/-! ## Functions that leave the memory alone -/

/-- The states have the same memory and the same free lists. -/
structure Same (s s' : State ν π) : Prop where
  nbuf : s'.nbuf = s.nbuf
  free : s'.freebufspace = s.freebufspace
  alloc : s'.allocbufspace = s.allocbufspace
  bufsize : ∀ b, (s'.buf b).bufsize = (s.buf b).bufsize
  av : s'.av = s.av

/-- The states have the same memory, and no buffer comes to the list of those without any. -/
structure Keeps (s s' : State ν π) : Prop where
  nbuf : s'.nbuf = s.nbuf
  free : s'.freebufspace = s.freebufspace
  alloc : s'.allocbufspace = s.allocbufspace
  bufsize : ∀ b, (s'.buf b).bufsize = (s.buf b).bufsize
  empty : ∀ b, On s'.av .empty b → On s.av .empty b

theorem Same.refl (s : State ν π) : Same s s := ⟨rfl, rfl, rfl, fun _ => rfl, rfl⟩

theorem Same.trans (h : Same s s') (h' : Same s' s'') : Same s s'' :=
  ⟨h'.nbuf.trans h.nbuf, h'.free.trans h.free, h'.alloc.trans h.alloc,
    fun b => (h'.bufsize b).trans (h.bufsize b), h'.av.trans h.av⟩

theorem Same.keeps (h : Same s s') : Keeps s s' :=
  ⟨h.nbuf, h.free, h.alloc, h.bufsize, fun _ hb => h.av ▸ hb⟩

theorem Keeps.trans (h : Keeps s s') (h' : Keeps s' s'') : Keeps s s'' :=
  ⟨h'.nbuf.trans h.nbuf, h'.free.trans h.free, h'.alloc.trans h.alloc,
    fun b => (h'.bufsize b).trans (h.bufsize b), fun b hb => h.empty b (h'.empty b hb)⟩

theorem same_setBuf {buf : Buf ν} (h : buf.bufsize = (s.buf b).bufsize) :
    Same s (s.setBuf b buf) := by
  refine ⟨rfl, rfl, rfl, fun x => ?_, rfl⟩
  by_cases hx : x = b
  · rw [hx, setBuf_buf, h]
  · exact congrArg Buf.bufsize (Function.update_of_ne hx _ _)

theorem same_setFlags (s : State ν π) (b : ℕ) (f : Flags) : Same s (s.setFlags b f) :=
  same_setBuf rfl

theorem brelvp_same (h : brelvp s b = .ok s') : Same s s' := by
  rw [brelvp] at h
  split at h
  · cases h
  · cases h
    exact same_setBuf rfl

theorem bgetvp_same {vp : ν} (h : bgetvp s b vp = .ok s') : Same s s' := by
  rw [bgetvp] at h
  split at h
  · cases h
  · cases h
    exact same_setBuf rfl

theorem reassignbuf_same (h : reassignbuf s b = .ok s') : Same s s' := by
  rw [reassignbuf] at h
  split at h
  · cases h
  · cases h
    exact Same.refl s

theorem strategy_same {u : Use π} (h : strategy s b u = .ok s') : Same s s' := by
  rw [strategy] at h
  split at h
  · cases h
  · cases h
    exact ⟨rfl, rfl, rfl, fun _ => rfl, rfl⟩

theorem bremhash_same (h : bremhash s b = .ok s') : Same s s' := by
  obtain ⟨hash, -, h⟩ := bind_eq_ok.mp h
  cases h
  exact ⟨rfl, rfl, rfl, fun _ => rfl, rfl⟩

theorem binshash_same {k : Chain} (h : binshash s b k = .ok s') : Same s s' := by
  obtain ⟨hash, -, h⟩ := bind_eq_ok.mp h
  cases h
  exact ⟨rfl, rfl, rfl, fun _ => rfl, rfl⟩

theorem wake_same (s : State ν π) (b : ℕ) : Same s (wakeBuf (wakeList s) b) := by
  have hlist : Same s (wakeList s) := by
    rw [wakeList]
    split_ifs
    · exact ⟨rfl, rfl, rfl, fun _ => rfl, rfl⟩
    · exact Same.refl s
  refine hlist.trans ?_
  rw [wakeBuf]
  split_ifs
  · have hflags := same_setFlags (wakeList s) b { ((wakeList s).buf b).flags with wanted := false }
    exact ⟨hflags.nbuf, hflags.free, hflags.alloc, hflags.bufsize, hflags.av⟩
  · exact Same.refl _

theorem invalidate_same (h : invalidate s b = .ok s') : Same s s' := by
  rw [invalidate] at h
  dsimp only at h
  split_ifs at h
  · exact (same_setFlags s b _).trans (brelvp_same h)
  · cases h
    exact same_setFlags s b _
  · cases h
    exact Same.refl s

/-! ## Functions that release a buffer -/

theorem brelse_keeps (ht : Tidy s.av) (hoff : ∀ q, ¬On s.av q b) (h : brelse s b = .ok s') :
    Keeps s s' := by
  obtain ⟨s₁, hinv, h⟩ := bind_eq_ok.mp h
  obtain ⟨av, henq, h⟩ := bind_eq_ok.mp h
  cases h
  have hsame := (wake_same s b).trans (invalidate_same hinv)
  have hav : ∀ y, On av .empty y → On s₁.av .empty y := by
    rw [← hsame.av] at ht hoff
    intro y hy
    rw [enqueue] at henq
    split_ifs at henq
    · obtain ⟨av', hok, -, hon⟩ := ht.insertFirst hoff .age
      cases henq.symm.trans hok
      exact ((hon _ _).mp hy).resolve_right fun hq => Queue.noConfusion hq.1
    · obtain ⟨av', hok, -, hon⟩ := ht.insertLast hoff .age
      cases henq.symm.trans hok
      exact ((hon _ _).mp hy).resolve_right fun hq => Queue.noConfusion hq.1
    · obtain ⟨av', hok, -, hon⟩ := ht.insertLast hoff .lru
      cases henq.symm.trans hok
      exact ((hon _ _).mp hy).resolve_right fun hq => Queue.noConfusion hq.1
  have hflags := same_setFlags { s₁ with av := av } b
    { (s₁.buf b).flags with busy := false }
  exact ⟨hsame.nbuf, hsame.free, hsame.alloc, fun y => (hflags.bufsize y).trans (hsame.bufsize y),
    fun y hy => hsame.av ▸ hav y hy⟩

theorem Keeps.goto [DecidableEq π] (h : Keeps s s') (p : π) (pc : Pc ν) : Keeps s (s'.goto p pc) :=
  ⟨h.nbuf, h.free, h.alloc, h.bufsize, h.empty⟩

theorem reassign_same {d : Bool} (h : (if d then reassignbuf s b else .ok s) = .ok s') :
    Same s s' := by
  split_ifs at h
  · exact reassignbuf_same h
  · cases h
    exact Same.refl s

theorem bawrite_keeps (ht : Tidy s.av) (hoff : ∀ q, ¬On s.av q b) (h : bawrite s b = .ok s') :
    Keeps s s' := by
  rw [bawrite] at h
  by_cases hbusy : (!(s.buf b).flags.busy) = true
  · rw [if_pos hbusy] at h
    cases h
  rw [if_neg hbusy] at h
  by_cases hinval : (s.buf b).flags.inval = true
  · rw [if_pos hinval] at h
    exact brelse_keeps ht hoff h
  rw [if_neg hinval] at h
  obtain ⟨s₁, hre, h⟩ := bind_eq_ok.mp h
  exact ((same_setFlags s b _).trans ((reassign_same hre).trans
    ((same_setFlags s₁ b _).trans (strategy_same h)))).keeps

theorem bwrite_keeps [DecidableEq π] (ht : Tidy s.av) (hoff : ∀ q, ¬On s.av q b)
    (h : bwrite s p b = .ok s') : Keeps s s' := by
  rw [bwrite] at h
  by_cases hinval : (s.buf b).flags.inval = true
  · rw [if_pos hinval] at h
    exact brelse_keeps ht hoff h
  rw [if_neg hinval] at h
  by_cases hbusy : (!(s.buf b).flags.busy) = true
  · rw [if_pos hbusy] at h
    cases h
  rw [if_neg hbusy] at h
  obtain ⟨s₁, hre, h⟩ := bind_eq_ok.mp h
  obtain ⟨s₂, hstr, h⟩ := bind_eq_ok.mp h
  cases h
  exact ((same_setFlags s b _).trans ((reassign_same hre).trans
    ((same_setFlags s₁ b _).trans (strategy_same hstr)))).keeps.goto p (.biowait b true)

theorem bdwrite_keeps [DecidableEq π] (ht : Tidy s.av) (hoff : ∀ q, ¬On s.av q b)
    (hvalid : (s.buf b).flags.inval = false) (h : bdwrite s p b = .ok s') : Keeps s s' := by
  rw [bdwrite] at h
  by_cases hbusy : (!(s.buf b).flags.busy) = true
  · rw [if_pos hbusy] at h
    cases h
  rw [if_neg hbusy, hvalid] at h
  obtain ⟨s₁, hrel, h⟩ := bind_eq_ok.mp h
  cases hrel
  by_cases htape : (s.buf b).flags.tape = true
  · rw [if_pos htape] at h
    exact bwrite_keeps ht hoff h
  · rw [if_neg htape] at h
    obtain ⟨s₁, hre, h⟩ := bind_eq_ok.mp h
    have hsame := (same_setFlags s b _).trans (reassignbuf_same hre)
    rw [← hsame.av] at ht hoff
    exact hsame.keeps.trans (brelse_keeps ht hoff h)

theorem biodone_keeps {error : Option ℤ} (ht : Tidy s.av) (hoff : ∀ q, ¬On s.av q b)
    (h : biodone s b error = .ok s') : Keeps s s' := by
  rw [biodone] at h
  obtain ⟨s₁, hrel, h⟩ := bind_eq_ok.mp h
  cases h
  have hset : Same s (s.setBuf b { setError (s.buf b) error with
      flags := written (setError (s.buf b) error).flags }) := by
    apply same_setBuf
    cases error <;> rfl
  have hkeeps : Keeps s s₁ := by
    split_ifs at hrel
    · exact hset.keeps.trans (brelse_keeps ht hoff hrel)
    · cases hrel
      exact hset.keeps
  have hflags := same_setFlags s₁ b { (s₁.buf b).flags with async := false, done := true }
  exact hkeeps.trans ⟨hflags.nbuf, hflags.free, hflags.alloc, hflags.bufsize, fun _ => id⟩

theorem failed_same (h : failed s b = .ok s') : Same s s' := by
  obtain ⟨s₁, hinval, h⟩ := bind_eq_ok.mp h
  have hsame : Same s s₁ := by
    split_ifs at hinval
    · cases hinval
      exact Same.refl s
    · obtain ⟨s₂, hrem, hins⟩ := bind_eq_ok.mp hinval
      exact (same_setFlags s b _).trans ((bremhash_same hrem).trans (binshash_same hins))
  split_ifs at h
  · cases h
    exact hsame.trans (same_setBuf rfl)
  · cases h
    exact hsame.trans (same_setFlags s₁ b _)

theorem finish_keeps [DecidableEq π] {write : Bool} (ht : Tidy s.av) (hoff : ∀ q, ¬On s.av q b)
    (h : finish s p b write = .ok s') : Keeps s s' := by
  rw [finish] at h
  by_cases hdone : (!(s.buf b).flags.done) = true
  · rw [if_pos hdone] at h
    cases h
    exact ⟨rfl, rfl, rfl, fun _ => rfl, fun _ => id⟩
  rw [if_neg hdone] at h
  obtain ⟨s₁, hfail, h⟩ := bind_eq_ok.mp h
  have hsame : Same s s₁ := by
    split_ifs at hfail
    · exact failed_same hfail
    · cases hfail
      exact Same.refl s
  cases write with
  | true =>
    obtain ⟨s₂, hrel, h⟩ := bind_eq_ok.mp h
    cases h
    rw [← hsame.av] at ht hoff
    exact (hsame.keeps.trans (brelse_keeps ht hoff hrel)).goto p .idle
  | false =>
    cases h
    exact hsame.keeps.trans ⟨rfl, rfl, rfl, fun _ => rfl, fun _ => id⟩

/-! ## Functions that get a buffer -/

section Get

variable [DecidableEq π]

theorem got_same {bread : Bool} (h : got s p b bread = .ok s') : Same s s' := by
  rw [got] at h
  split_ifs at h
  · obtain ⟨s₁, hstr, h⟩ := bind_eq_ok.mp h
    cases h
    have hsame := (same_setFlags s b _).trans (strategy_same hstr)
    exact ⟨hsame.nbuf, hsame.free, hsame.alloc, hsame.bufsize, hsame.av⟩
  · cases h
    exact ⟨rfl, rfl, rfl, fun _ => rfl, rfl⟩

/-- A buffer that has its size already. -/
theorem filled_same (hsize : (s.buf b).bufsize = c.size) (h : filled s p c b = .ok s') :
    Same s s' := by
  have hset : Same s (s.setBuf b { s.buf b with bcount := c.size, bufsize := c.size }) :=
    same_setBuf hsize.symm
  cases c with
  | getblk vp blkno size bread =>
    obtain ⟨s₁, hvp, h⟩ := bind_eq_ok.mp h
    obtain ⟨s₂, hins, h⟩ := bind_eq_ok.mp h
    have hblock := @same_setBuf ν π
      (s.setBuf b { s.buf b with bcount := size, bufsize := size }) b
      { (s.setBuf b { s.buf b with bcount := size, bufsize := size }).buf b with
        blkno := blkno, lblkno := blkno } rfl
    exact hset.trans (hblock.trans ((bgetvp_same hvp).trans ((binshash_same hins).trans
      ((same_setFlags s₂ b _).trans (got_same h)))))
  | geteblk size =>
    obtain ⟨s₁, hins, h⟩ := bind_eq_ok.mp h
    cases h
    have hsame := hset.trans (binshash_same hins)
    exact ⟨hsame.nbuf, hsame.free, hsame.alloc, hsame.bufsize, hsame.av⟩

theorem fillin_same (h : fillin s p c b = .ok s') : Same s s' := by
  obtain ⟨s₁, hrem, h⟩ := bind_eq_ok.mp h
  have hsame : Same s (s₁.setBuf b
      { s₁.buf b with vp := none, blkno := 0, lblkno := 0, error := 0 }) :=
    (bremhash_same hrem).trans (same_setBuf rfl)
  dsimp only at h
  split_ifs at h with hsize
  · cases h
    exact hsame.trans ⟨rfl, rfl, rfl, fun _ => rfl, rfl⟩
  · exact hsame.trans (filled_same (not_not.mp hsize) h)

omit [DecidableEq π] in
theorem bremfree_keeps {q : Queue} (ht : Tidy s.av) (hq : On s.av q b)
    (h : bremfree s b = .ok s') :
    Keeps s s' ∧ s'.buf = s.buf ∧ Tidy s'.av ∧ ∀ q' x, On s'.av q' x ↔ On s.av q' x ∧ x ≠ b := by
  obtain ⟨av, hun, h⟩ := bind_eq_ok.mp h
  cases h
  obtain ⟨av', hok, htidy, hon⟩ := ht.unlink hq
  cases hun.symm.trans hok
  exact ⟨⟨rfl, rfl, rfl, fun _ => rfl, fun x hx => ((hon _ x).mp hx).1⟩, rfl, htidy, hon⟩

theorem reuse_keeps {q : Queue} (ht : Tidy s.av) (hq : On s.av q b) (h : reuse s p c b = .ok s') :
    Keeps s s' := by
  obtain ⟨s₁, hrem, h⟩ := bind_eq_ok.mp h
  obtain ⟨hkeeps, hbuf, htidy, hon⟩ := bremfree_keeps ht hq hrem
  have hoff : ∀ q', ¬On s₁.av q' b := fun q' hq' => ((hon q' b).mp hq').2 rfl
  by_cases hdel : (s₁.buf b).flags.delwri = true
  · rw [if_pos hdel] at h
    obtain ⟨s₂, hwr, h⟩ := bind_eq_ok.mp h
    cases h
    have hflags := same_setFlags s₁ b { (s₁.buf b).flags with busy := true }
    exact ((hkeeps.trans hflags.keeps).trans (bawrite_keeps htidy hoff hwr)).goto p (.start c)
  · rw [if_neg hdel] at h
    obtain ⟨s₂, hvp, h⟩ := bind_eq_ok.mp h
    have hsame : Same s₁ s₂ := by
      split_ifs at hvp
      · exact brelvp_same hvp
      · cases hvp
        exact Same.refl s₁
    exact hkeeps.trans (hsame.trans ((same_setFlags s₂ b _).trans (fillin_same h))).keeps

theorem tryfree_keeps (hcore : Core s none) (h : tryfree s p c = .ok s') : Keeps s s' := by
  rw [tryfree] at h
  obtain ⟨hnone, -⟩ | ⟨b, hsome, hq⟩ := firstBuf_spec hcore .age
  · rw [hnone] at h
    obtain ⟨hnone', -⟩ | ⟨b, hsome, hq⟩ := firstBuf_spec hcore .lru
    · rw [hnone'] at h
      cases h
      exact ⟨rfl, rfl, rfl, fun _ => rfl, fun _ => id⟩
    · rw [hsome] at h
      exact reuse_keeps hcore.av hq h
  · rw [hsome] at h
    exact reuse_keeps hcore.av hq h

theorem getnewbuf_keeps (hcore : Core s none) (h : getnewbuf s p c = .ok s') : Keeps s s' := by
  obtain ⟨r, -, h⟩ := bind_eq_ok.mp h
  split_ifs at h
  · cases h
    exact ⟨rfl, rfl, rfl, fun _ => rfl, fun _ => id⟩
  · exact tryfree_keeps hcore h

theorem getblk_keeps [DecidableEq ν] (hcore : Core s none) (h : getblk s p c = .ok s') :
    Keeps s s' := by
  cases c with
  | geteblk size => exact getnewbuf_keeps hcore h
  | getblk vp blkno size bread =>
    obtain ⟨r, hr, h⟩ := bind_eq_ok.mp h
    cases r with
    | none => exact getnewbuf_keeps hcore h
    | some b =>
      dsimp only at h
      by_cases hbusy : (s.buf b).flags.busy = true
      · rw [if_pos hbusy] at h
        cases h
        have hflags := same_setFlags s b { (s.buf b).flags with wanted := true }
        exact ⟨rfl, rfl, rfl, hflags.bufsize, fun _ => id⟩
      · rw [if_neg hbusy] at h
        obtain ⟨s₁, hrem, h⟩ := bind_eq_ok.mp h
        have hflags := same_setFlags s b { (s.buf b).flags with busy := true, cache := true }
        -- A buffer that is not busy is on a free list.
        have hq : ∃ q, On s.av q b := by
          obtain ⟨hnone, -⟩ | ⟨y, hy, hvalid⟩ := incore_spec hcore vp blkno
          · cases hr.symm.trans hnone
          · cases hr.symm.trans hy
            have hset := hcore.settled b hvalid.1 nofun
            rw [hset.free]
            by_contra hne
            exact hbusy (hset.busy.mpr hne)
        obtain ⟨q, hq⟩ := hq
        rw [← hflags.av] at hq
        have hkeeps := (bremfree_keeps (hflags.av.symm ▸ hcore.av) hq hrem).1
        split_ifs at h
        exact hflags.keeps.trans (hkeeps.trans (got_same h).keeps)

/-! ## Memory that is charged -/

omit [DecidableEq π] in
/-- A buffer gets `n` bytes more, and is then not on the list of those without memory. -/
structure Charges (b : ℕ) (n : ℤ) (s s' : State ν π) : Prop where
  lt : b < s.nbuf
  nbuf : s'.nbuf = s.nbuf
  free : s'.freebufspace = s.freebufspace - n
  alloc : s'.allocbufspace = s.allocbufspace + n
  size : (s'.buf b).bufsize = (s.buf b).bufsize + n
  bufsize : ∀ x ≠ b, (s'.buf x).bufsize = (s.buf x).bufsize
  empty : ∀ x, On s'.av .empty x → On s.av .empty x ∧ x ≠ b

omit [DecidableEq π] in
theorem Charges.same (h : Charges b n s s') (h' : Same s' s'') : Charges b n s s'' :=
  ⟨h.lt, h'.nbuf.trans h.nbuf, h'.free.trans h.free, h'.alloc.trans h.alloc,
    (h'.bufsize b).trans h.size, fun x hx => (h'.bufsize x).trans (h.bufsize x hx),
    fun x hx => h.empty x (h'.av ▸ hx)⟩

omit [DecidableEq π] in
theorem resize_charges (hb : b < s.nbuf) (hoff : ∀ q, ¬On s.av q b) :
    Charges b (size - (s.buf b).bufsize) s (resize s b size) := by
  refine ⟨hb, rfl, rfl, rfl, ?_, fun x hx => ?_, fun x hx => ⟨hx, ?_⟩⟩
  · rw [resize]
    dsimp only
    rw [setBuf_buf]
    ring
  · exact congrArg Buf.bufsize (Function.update_of_ne hx _ _)
  · rintro rfl
    exact hoff _ hx

theorem allocbuf_charges (hb : b < s.nbuf) (hoff : ∀ q, ¬On s.av q b)
    (h : allocbuf s p c b = .ok s') : Charges b (c.size - (s.buf b).bufsize) s s' := by
  rw [allocbuf_eq] at h
  refine (resize_charges hb hoff).same (filled_same ?_ h)
  rw [resize]
  dsimp only
  rw [setBuf_buf]

/-- A new buffer, which had no memory before. -/
theorem malloced_charges (hcore : Core s none)
    (hempty : ∀ x, On s.av .empty x → (s.buf x).bufsize = 0) (h : malloced s p c = .ok s') :
    ∃ b, Charges b c.size s s' := by
  obtain ⟨r, hr, h⟩ := bind_eq_ok.mp h
  obtain ⟨hnone, -⟩ | ⟨b, hsome, hq⟩ := firstBuf_spec hcore .empty
  · cases hr.symm.trans hnone
    cases h
  cases hr.symm.trans hsome
  obtain ⟨s₁, hrem, h⟩ := bind_eq_ok.mp h
  let s₀ : State ν π := { s with
    freebufspace := s.freebufspace - c.size, allocbufspace := s.allocbufspace + c.size }
  have hflags := same_setFlags s₀ b { busy := true, inval := true }
  obtain ⟨hkeeps, -, -, hon⟩ := @bremfree_keeps ν π
    (s₀.setFlags b { busy := true, inval := true }) s₁ b .empty hcore.av hq hrem
  have hcharges : Charges b c.size s (s₁.setBuf b { s₁.buf b with bufsize := c.size }) := by
    refine ⟨hcore.bound b (.inl ⟨_, hq⟩), hkeeps.nbuf, hkeeps.free, hkeeps.alloc, ?_,
      fun x hx => ?_, fun x hx => (hon _ x).mp hx⟩
    · rw [setBuf_buf, hempty b hq, zero_add]
    · refine (congrArg Buf.bufsize (Function.update_of_ne hx _ _)).trans ?_
      exact (hkeeps.bufsize x).trans (hflags.bufsize x)
  exact ⟨b, hcharges.same (fillin_same h)⟩

end Get

/-! ## Steps -/

/-- What processes and drivers do, with the calls of `allocbuf` outside the cache. -/
inductive MemOp (ν π : Type) where
  | op (op : Op ν π)
  | allocbuf (p : π) (b : ℕ) (size : ℤ)

section Steps

variable [DecidableEq ν] [DecidableEq π]

def memStep (s : State ν π) : MemOp ν π → Except Fault (State ν π)
  | .op op => step s op
  | .allocbuf _ b size => .ok (resize s b size)

omit [DecidableEq ν] [DecidableEq π] in
def MemAllowed (s : State ν π) : MemOp ν π → Prop
  | .op op => Allowed s op
  | .allocbuf p b _ => Holds s p b

/-- What a step charges for: a new buffer, or the difference of the sizes of one that is used
again. -/
def charge (s : State ν π) : MemOp ν π → ℤ
  | .op (.resume p null) =>
    match s.pc p with
    | .malloc c => if null then 0 else c.size
    | .allocbuf c b => c.size - (s.buf b).bufsize
    | _ => 0
  | .op _ => 0
  | .allocbuf _ b size => size - (s.buf b).bufsize

/-- The steps of careful runs that take no more memory than there is. -/
def Fits (s : State ν π) (op : MemOp ν π) : Prop :=
  charge s op ≤ s.freebufspace ∧
    match op with
    | .op op => Careful s op
    | .allocbuf .. => True

omit [DecidableEq ν] [DecidableEq π] in
theorem Settled.resize (h : Settled s x) (b : ℕ) (size : ℤ) : Settled (resize s b size) x := by
  have hbuf : ((Bio.resize s b size).buf x).flags = (s.buf x).flags ∧
      ((Bio.resize s b size).buf x).vp = (s.buf x).vp ∧
      ((Bio.resize s b size).buf x).lblkno = (s.buf x).lblkno := by
    by_cases hx : x = b
    · rw [hx, Bio.resize]
      dsimp only
      rw [setBuf_buf]
      exact ⟨rfl, rfl, rfl⟩
    · have hsame : (Bio.resize s b size).buf x = s.buf x := Function.update_of_ne hx _ _
      rw [hsame]
      exact ⟨rfl, rfl, rfl⟩
  obtain ⟨hflags, hvp, hlblkno⟩ := hbuf
  constructor
  · exact h.free
  · exact h.chained
  · rw [hflags]
    exact h.busy
  · rw [hflags, hvp]
    exact h.delwri
  · rw [hflags]
    exact h.clean
  · rw [hflags]
    exact h.async
  · rw [hflags]
    exact h.sync
  · rw [hvp]
    exact h.alloc
  · intro vp
    rw [hvp, hflags, hlblkno]
    exact h.place vp

omit [DecidableEq ν] [DecidableEq π] in
theorem Core.resize (h : Core s none) (b : ℕ) (size : ℤ) : Core (resize s b size) none :=
  ⟨h.av, h.hash, h.bound, fun x hx hout => (h.settled x hx hout).resize b size⟩

omit [DecidableEq ν] [DecidableEq π] in
/-- A buffer that something has is on no free list. -/
theorem Core.not_on (h : Core s none) (hlt : b < s.nbuf) (huse : s.use b ≠ .free) :
    ∀ q, ¬On s.av q b := by
  intro q hq
  apply huse
  apply (h.settled b hlt ?_).free.mp ⟨q, hq⟩
  intro hout
  cases hout

/-- What each step does to the memory. -/
theorem step_memory {op : MemOp ν π} (hcore : Core s none) (hp : Pcs s)
    (hempty : ∀ x, On s.av .empty x → (s.buf x).bufsize = 0) (ha : MemAllowed s op)
    (hok : Fits s op) (h : memStep s op = .ok s') :
    (Keeps s s' ∧ charge s op = 0) ∨ ∃ b, Charges b (charge s op) s s' := by
  cases op with
  | allocbuf p b size =>
    cases h
    exact .inr ⟨b, resize_charges ha.1 (hcore.held ha).1.off⟩
  | op op =>
    cases op with
    | call p c => exact .inl ⟨getblk_keeps hcore h, rfl⟩
    | setFlags p b f =>
      cases h
      exact .inl ⟨(same_setFlags s b f).keeps, rfl⟩
    | brelse p b => exact .inl ⟨brelse_keeps hcore.av (hcore.held ha).1.off h, rfl⟩
    | bwrite p b => exact .inl ⟨bwrite_keeps hcore.av (hcore.held ha.1).1.off h, rfl⟩
    | bdwrite p b =>
      exact .inl ⟨bdwrite_keeps hcore.av (hcore.held ha.1).1.off hok.2 h, rfl⟩
    | bawrite p b => exact .inl ⟨bawrite_keeps hcore.av (hcore.held ha.1).1.off h, rfl⟩
    | biodone b error =>
      refine .inl ⟨biodone_keeps hcore.av (hcore.not_on ha.1 fun hfree => ?_) h, rfl⟩
      obtain huse | ⟨p, huse, -⟩ := ha.2
      · cases hfree.symm.trans huse
      · cases hfree.symm.trans huse
    | resume p null =>
      change resume s p null = .ok s' at h
      rw [resume] at h
      rw [charge]
      cases hpc : s.pc p with
      | idle =>
        rw [hpc] at h
        cases h
        exact .inl ⟨(Same.refl s).keeps, rfl⟩
      | loop c =>
        rw [hpc] at h
        exact .inl ⟨getblk_keeps hcore h, rfl⟩
      | start c =>
        rw [hpc] at h
        exact .inl ⟨getnewbuf_keeps hcore h, rfl⟩
      | malloc c =>
        -- With no memory a buffer is taken from a list; else it is one of those without memory.
        rw [hpc] at h
        cases null with
        | true => exact .inl ⟨tryfree_keeps hcore h, rfl⟩
        | false => exact .inr (malloced_charges hcore hempty h)
      | allocbuf c b =>
        rw [hpc] at h
        obtain ⟨hlt, huse⟩ := hp p b (.alloc p) (by rw [hpc]; rfl)
        refine .inr ⟨b, allocbuf_charges hlt (hcore.not_on hlt fun hfree => ?_) h⟩
        cases hfree.symm.trans huse
      | biowait b write =>
        rw [hpc] at h
        obtain ⟨hlt, huse⟩ := hp p b (.sync p) (by rw [hpc]; rfl)
        refine .inl ⟨finish_keeps hcore.av (hcore.not_on hlt fun hfree => ?_) h, rfl⟩
        cases hfree.symm.trans huse

/-! ## Runs -/

omit [DecidableEq ν] [DecidableEq π] in
/-- The counts add up to the memory that there is, the buffers have what is counted for them, and
there is no debt. -/
structure Space (total : ℤ) (s : State ν π) : Prop where
  constant : s.freebufspace + s.allocbufspace = total
  sum : s.allocbufspace = ∑ b ∈ Finset.range s.nbuf, (s.buf b).bufsize
  nonneg : 0 ≤ s.freebufspace

omit [DecidableEq ν] [DecidableEq π] in
theorem Space.keeps (h : Space total s) (hk : Keeps s s') : Space total s' where
  constant := by rw [hk.free, hk.alloc, h.constant]
  sum := by
    rw [hk.alloc, hk.nbuf, h.sum]
    exact Finset.sum_congr rfl fun b _ => (hk.bufsize b).symm
  nonneg := by
    rw [hk.free]
    exact h.nonneg

omit [DecidableEq ν] [DecidableEq π] in
theorem Space.charges (h : Space total s) (hc : Charges b n s s') (hn : n ≤ s.freebufspace) :
    Space total s' where
  constant := by
    have hconst := h.constant
    rw [hc.free, hc.alloc]
    omega
  sum := by
    -- Only the summand of `b` changes.
    have hmem : b ∈ Finset.range s.nbuf := Finset.mem_range.mpr hc.lt
    have hrest : ∑ x ∈ (Finset.range s.nbuf).erase b, (s'.buf x).bufsize =
        ∑ x ∈ (Finset.range s.nbuf).erase b, (s.buf x).bufsize :=
      Finset.sum_congr rfl fun x hx => hc.bufsize x (Finset.ne_of_mem_erase hx)
    rw [hc.alloc, hc.nbuf, h.sum, ← Finset.add_sum_erase _ _ hmem, ← Finset.add_sum_erase _ _ hmem,
      hrest, hc.size]
    ring
  nonneg := by
    rw [hc.free]
    omega

/-- The states that steps with `ok` lead to. -/
inductive MemRun (ok : State ν π → MemOp ν π → Prop) (s₀ : State ν π) : State ν π → Prop
  | start : MemRun ok s₀ s₀
  | step {s s' : State ν π} (op : MemOp ν π) (h : MemRun ok s₀ s) (ha : MemAllowed s op)
      (hok : ok s op) (hs : memStep s op = .ok s') : MemRun ok s₀ s'

theorem MemRun.inv {s₀ : State ν π} (h : MemRun Fits s₀ s) (h₀ : Core s₀ none ∧ Pcs s₀)
    (hempty : ∀ x, On s₀.av .empty x → (s₀.buf x).bufsize = 0) (hspace : Space total s₀) :
    Core s none ∧ Pcs s ∧ (∀ x, On s.av .empty x → (s.buf x).bufsize = 0) ∧ Space total s := by
  induction h with
  | start => exact ⟨h₀.1, h₀.2, hempty, hspace⟩
  | @step s s' op _ ha hok hs ih =>
    obtain ⟨hcore, hp, hempty, hspace⟩ := ih
    have hinv : Core s' none ∧ Pcs s' := by
      cases op with
      | allocbuf p b size =>
        cases hs
        exact ⟨hcore.resize b size, hp⟩
      | op op =>
        obtain ⟨hpanic, -⟩ | ⟨s'', b, new, hs', hgood, -⟩ := step_does hcore hp ha hok.2
        · cases hs.symm.trans hpanic
        · cases hs.symm.trans hs'
          exact ⟨hgood.core, hgood.pcs⟩
    refine ⟨hinv.1, hinv.2, ?_⟩
    -- The lists and the processes go by the invariant of `step`; the memory goes by the charges.
    obtain ⟨hkeeps, -⟩ | ⟨b, hcharges⟩ := step_memory hcore hp hempty ha hok hs
    · refine ⟨fun x hx => ?_, hspace.keeps hkeeps⟩
      rw [hkeeps.bufsize]
      exact hempty x (hkeeps.empty x hx)
    · refine ⟨fun x hx => ?_, hspace.charges hcharges hok.1⟩
      obtain ⟨hold, hne⟩ := hcharges.empty x hx
      rw [hcharges.bufsize x hne]
      exact hempty x hold

/-- While no step takes more memory than there is, the counts are right. -/
theorem run_space {nbuf : ℕ} {space : ℤ} {vIndex : ν → ℤ} {s₀ : State ν π} (hspace : 0 ≤ space)
    (h₀ : bufinit nbuf space vIndex = .ok s₀) (h : MemRun Fits s₀ s) : Space space s := by
  have hinit := bufinit_inv h₀
  have hboot : (∀ x, (s₀.buf x).bufsize = 0) ∧ s₀.freebufspace = space ∧ s₀.allocbufspace = 0 := by
    obtain ⟨r, -, h₀⟩ := bind_eq_ok.mp h₀
    cases h₀
    exact ⟨fun _ => rfl, rfl, rfl⟩
  obtain ⟨hzero, hfree, halloc⟩ := hboot
  refine (h.inv hinit (fun x _ => hzero x) ⟨?_, ?_, ?_⟩).2.2.2
  · rw [hfree, halloc, add_zero]
  · rw [halloc]
    exact (Finset.sum_eq_zero fun b _ => hzero b).symm
  · rw [hfree]
    exact hspace

end Steps

section Examples

/-- One more step of a run. -/
theorem MemRun.next {ok : State ℕ ℕ → MemOp ℕ ℕ → Prop} {s₀ s : State ℕ ℕ} (h : MemRun ok s₀ s)
    (op : MemOp ℕ ℕ) (hs : (memStep s op).toOption.isSome = true) (ha : MemAllowed s op)
    (hok : ok s op) : MemRun ok s₀ ((memStep s op).toOption.get hs) :=
  .step op h ha hok (eq_ok_get _ hs)

/-- Process 0 gets a buffer of 8 bytes, which then grows to 24. -/
theorem run_space_grow : ∃ s₀ s : State ℕ ℕ, bufinit 2 100 (fun _ => 0) = .ok s₀ ∧
    MemRun Fits s₀ s ∧ s.freebufspace = 76 ∧ Space 100 s := by
  have h₀ : bufinit 2 100 (fun _ => 0) = .ok (boot 2 rfl) := eq_ok_get _ rfl
  have hrun : MemRun Fits (boot 2 rfl) (boot 2 rfl) := .start
  have h₁ := hrun.next (.op (.call 0 (.getblk 0 0 8 false))) rfl rfl ⟨by decide, trivial⟩
  have h₂ := h₁.next (.op (.resume 0 false)) rfl rfl ⟨by decide, fun _ _ _ h => by cases h⟩
  have h₃ := h₂.next (.allocbuf 0 0 24) rfl ⟨by decide, rfl, rfl⟩ ⟨by decide, trivial⟩
  exact ⟨_, _, h₀, h₃, rfl, run_space (by decide) h₀ h₃⟩

/-- A buffer of 8 bytes is released, another gets 80 of the 100 bytes, and the first one is used
again for 24 bytes. -/
theorem not_run_space : ¬∀ (nbuf : ℕ) (space : ℤ) (s₀ s : State ℕ ℕ), 0 ≤ space →
    bufinit nbuf space (fun _ => 0) = .ok s₀ → MemRun (fun _ _ => True) s₀ s → Space space s := by
  intro h
  have h₀ : MemRun (fun _ _ => True) (boot 2 rfl) (boot 2 rfl) := .start
  have h₁ := h₀.next (.op (.call 0 (.getblk 0 0 8 false))) rfl rfl trivial
  have h₂ := h₁.next (.op (.resume 0 false)) rfl rfl trivial
  have h₃ := h₂.next (.op (.brelse 0 0)) rfl ⟨by decide, rfl, rfl⟩ trivial
  have h₄ := h₃.next (.op (.call 0 (.getblk 0 1 80 false))) rfl rfl trivial
  have h₅ := h₄.next (.op (.resume 0 false)) rfl rfl trivial
  have h₆ := h₅.next (.op (.call 0 (.getblk 0 2 24 false))) rfl rfl trivial
  have h₇ := h₆.next (.op (.resume 0 false)) rfl rfl trivial
  have hl := h 2 100 _ _ (by decide) (eq_ok_get _ rfl) h₇
  exact absurd hl.nonneg (by decide +kernel)

end Examples

end Bio
