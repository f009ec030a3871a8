import Mathlib
import NetBsd.Libc.StdioWrite

/-!
# Writing memory regions

What `__sfvwrite` does in each kind of buffering. A turn of its loop takes some of the bytes
left, all in their order, or takes none and empties a full buffer.

## Main results

* `Stdio.drive_ok`: turns that each do so write everything
* `Stdio.unbufTurn_ok`, `Stdio.fullTurn_ok`, `Stdio.lineTurn_ok`: the three kinds
* `Stdio.sfvwrite_ok`: the bytes of the regions are added behind those written before
-/

namespace Stdio

variable {σ : Type} {e : Env} {wr : WriteFn σ} {k : ℕ} {f f' : File} {d b p : List Byte}
  {iov : List (List Byte)} {s : Stream (σ × List Byte)}

theorem fflush_ready (ha : Accepts wr) (h : Ready k e s.file d) :
    ∃ s', fflush (logged wr) k s = .ok (0, s') ∧ Ready k e s'.file [] ∧
      Spool.Writes s.spool [] s'.spool := by
  rcases h with h | ⟨h, rfl⟩
  · obtain ⟨dev, hf⟩ := fflush_ok ha h.toBuffered
    exact ⟨_, hf, .inl (h.flushed h.kind), spool_flush h.toBuffered dev⟩
  · refine ⟨s, ?_, .inr ⟨h, rfl⟩, .refl⟩
    rw [fflush, if_neg (by rcases h.mode with hm | hm <;> simp [hm]), sflush]
    rcases h.todo with ht | ht
    · rw [if_pos (by simp [ht])]
    · by_cases hw : s.file.flags.swr = true
      · rw [if_neg (by simp [hw]), ht]
      · rw [if_pos hw]

/-! ## The loop -/

theorem getiov_ok (p : List Byte) (iov : List (List Byte)) (h : p ++ iov.flatten ≠ []) :
    ∃ p' iov', getiov p iov = .ok (p', iov') ∧ p' ≠ [] ∧
      p' ++ iov'.flatten = p ++ iov.flatten ∧ (p ≠ [] → p' = p) := by
  fun_induction getiov p iov with
  | case1 => exact absurd rfl h
  | case2 p iov ih =>
    obtain ⟨p', iov', hg, hp, hf, -⟩ := ih (by simpa using h)
    exact ⟨p', iov', hg, hp, by simpa using hf, fun h => absurd rfl h⟩
  | case3 b p iov => exact ⟨b :: p, iov, rfl, by simp, rfl, fun _ => rfl⟩

variable {τ : Type} {moved : τ → τ}
  {turn : List Byte → τ → Stream (σ × List Byte) →
    Except Fault (Option ℕ × τ × Stream (σ × List Byte))}
  {inv : τ → List Byte → Stream (σ × List Byte) → Prop}

/-- What one turn owes the loop, with `p` the bytes left of the region. -/
def TurnOk (inv : τ → List Byte → Stream (σ × List Byte) → Prop)
    (turn : List Byte → τ → Stream (σ × List Byte) →
      Except Fault (Option ℕ × τ × Stream (σ × List Byte))) : Prop :=
  ∀ t p s, p ≠ [] → inv t p s → ∃ w t' s', turn p t s = .ok (some w, t', s') ∧ w ≤ p.length ∧
    inv t' (p.drop w) s' ∧ Spool.Writes s.spool (p.take w) s'.spool ∧
    (0 < w ∨ s.spool.held ≠ [] ∧ s'.spool.held = [])

variable (moved) in
/-- Induction on the bound for the turns. A turn that takes nothing has emptied the buffer, so
that the next one does take something. -/
theorem drive_ok (hturn : TurnOk inv turn) (hmoved : ∀ t p s, inv t [] s → inv (moved t) p s)
    (fuel : ℕ) (p : List Byte) (iov : List (List Byte)) (t : τ) (s : Stream (σ × List Byte))
    (hfuel : 2 * (p ++ iov.flatten).length + (if s.spool.held = [] then 0 else 1) < fuel)
    (hne : p ++ iov.flatten ≠ []) (hinv : inv t p s) :
    ∃ t' s', drive turn moved fuel p iov (p ++ iov.flatten).length t s = .ok (0, 0, s') ∧
      inv t' [] s' ∧ Spool.Writes s.spool (p ++ iov.flatten) s'.spool := by
  induction fuel generalizing p iov t s with
  | zero => omega
  | succ fuel ih =>
    obtain ⟨p', iov', hg, hp, hf, heq⟩ := getiov_ok p iov hne
    have hinv' : inv (if p = [] then moved t else t) p' s := by
      by_cases hpe : p = []
      · rw [if_pos hpe]
        exact hmoved t p' s (hpe ▸ hinv)
      · rw [if_neg hpe, heq hpe]
        exact hinv
    obtain ⟨w, t', s', ht, hw, hi, hsp, hprog⟩ := hturn _ p' s hp hinv'
    rw [drive, hg]
    dsimp only
    rw [Fault.ok_bind, ht, Fault.ok_bind]
    dsimp only
    rw [← hf]
    have hlen : (p' ++ iov'.flatten).length = p'.length + iov'.flatten.length :=
      List.length_append
    by_cases hend : ((p' ++ iov'.flatten).length : ℤ) - w = 0
    · have hpw : p'.length ≤ w := by omega
      have hrest : iov'.flatten = [] := List.eq_nil_of_length_eq_zero (by omega)
      refine ⟨t', s', ?_, by rwa [List.drop_eq_nil_of_le hpw] at hi, ?_⟩
      · rw [if_pos hend, hend]
        rfl
      · rwa [List.take_of_length_le hpw, ← List.append_nil p', ← hrest] at hsp
    · have hsplit : p'.take w ++ (p'.drop w ++ iov'.flatten) = p' ++ iov'.flatten := by
        rw [← List.append_assoc, List.take_append_drop]
      have hlen' : ((p'.drop w ++ iov'.flatten).length : ℤ) = (p' ++ iov'.flatten).length - w := by
        rw [List.length_append, List.length_drop, hlen]
        omega
      have hne' : p'.drop w ++ iov'.flatten ≠ [] := by
        intro h
        rw [h] at hlen'
        exact hend hlen'.symm
      obtain ⟨t'', s'', hd, hi', hsp'⟩ := ih (p'.drop w) iov' t' s' (by
        rw [← hf] at hfuel
        rcases hprog with hpos | ⟨hh, hh'⟩
        · split at hfuel <;> split <;> omega
        · rw [if_neg hh] at hfuel
          rw [if_pos hh']
          omega) hne' hi
      refine ⟨t'', s'', ?_, hi', by simpa only [hsplit] using hsp.trans hsp'⟩
      rw [if_neg hend, ← hlen']
      exact hd

/-! ## Ways to take bytes -/

theorem sizeT_of_nonneg {n : ℕ} (h : n < 2 ^ 32) : sizeT n = n := by
  unfold sizeT
  omega

/-- At most `m` bytes past an empty buffer. -/
theorem direct_ok (ha : Accepts wr) (h : Buffered k s.file []) (hp : p ≠ []) {m : ℕ}
    (hm : 0 < m) :
    ∃ (n : ℕ) (dev : σ),
      s.write (logged wr) (p.take m) = ((n : ℤ), ⟨s.file, dev, s.dev.2 ++ p.take n⟩) ∧ 0 < n ∧
      n ≤ m ∧ n ≤ p.length ∧
      Spool.Writes s.spool (p.take n) (Stream.spool ⟨s.file, dev, s.dev.2 ++ p.take n⟩) := by
  have hb : p.take m ≠ [] := by
    rw [ne_eq, List.take_eq_nil_iff]
    exact not_or.mpr ⟨hm.ne', hp⟩
  obtain ⟨n, dev, hw, hn, hle⟩ := write_logged ha s hb
  rw [List.length_take] at hle
  rw [List.take_take, Nat.min_eq_left (by omega)] at hw
  have hs : Stream.spool ⟨s.file, dev, s.dev.2 ++ p.take n⟩ = ⟨s.dev.2 ++ p.take n, []⟩ :=
    spool_eq h
  have hd := (Spool.Writes.refl : Spool.Writes s.spool [] s.spool).direct
    (by rw [spool_eq h]) (p.take n)
  refine ⟨n, dev, hw, hn, by omega, by omega, ?_⟩
  rw [hs]
  rwa [List.nil_append, spool_eq h, ← spool_eq h] at hd

/-- Fill and flush. -/
theorem fill_ok (ha : Accepts wr) (h : Writing k s.file d)
    (hb : d.length + b.length ≤ s.file.bf.size) :
    ∃ f' dev, s.file.copy b = .ok f' ∧
      fflush (logged wr) k ⟨f', s.dev⟩ = .ok (0, ⟨f'.flushed, dev, s.dev.2 ++ (d ++ b)⟩) ∧
      Writing k f'.flushed [] ∧ f'.flags = s.file.flags ∧
      Spool.Writes s.spool b (Stream.spool ⟨f'.flushed, dev, s.dev.2 ++ (d ++ b)⟩) := by
  obtain ⟨f', hf, hbuf, hs⟩ := h.toBuffered.copy hb
  obtain ⟨dev, hfl⟩ := fflush_ok (s := ⟨f', s.dev⟩) ha hbuf
  refine ⟨f', dev, hf, hfl, hbuf.flushed (by rw [hs.2.1]; exact h.kind), hs.2.1, ?_⟩
  simpa using (spool_put h.toBuffered hbuf).trans (spool_flush (s := ⟨f', s.dev⟩) hbuf dev)

theorem unbufTurn_ok (ha : Accepts wr) :
    TurnOk (fun _ _ s => Writing k s.file [] ∧ s.file.flags.snbf = true)
      (unbufTurn (logged wr)) := by
  rintro ⟨⟩ p s hp ⟨hw, hn⟩
  have hm : 0 < min p.length bufsiz :=
    lt_min (List.length_pos_of_ne_nil hp) (by decide)
  obtain ⟨n, dev, hwr, hpos, -, hle, hsp⟩ := direct_ok ha hw.toBuffered hp hm
  refine ⟨n, (), ⟨s.file, dev, s.dev.2 ++ p.take n⟩, ?_, hle, ⟨hw, hn⟩, hsp, .inl hpos⟩
  unfold unbufTurn
  rw [hwr]
  dsimp only
  rw [if_neg (by omega), Int.toNat_natCast]

theorem fullTurn_ok (ha : Accepts wr) :
    TurnOk (fun _ _ s => ∃ d, Writing k s.file d ∧ s.file.flags.slbf = false ∧
      s.file.flags.snbf = false) (fullTurn (logged wr) k) := by
  rintro ⟨⟩ p s hp ⟨d, hw, hl, hn⟩
  have hpos := List.length_pos_of_ne_nil hp
  have hle := hw.le
  have hlt := hw.lt
  have hspace : s.file.w = (s.file.bf.size - d.length : ℕ) := by
    rw [hw.w_eq, File.space]
    simp only [hl, hn, Bool.false_eq_true, if_false]
    omega
  unfold fullTurn
  simp only [hw.sstr, Bool.false_eq_true, if_false, hw.used, Fault.ok_bind, hspace,
    Int.toNat_natCast]
  rw [sizeT_of_nonneg (by omega)]
  by_cases hfill : 0 < d.length ∧ s.file.bf.size - d.length < p.length
  · obtain ⟨f', dev, hf, hfl, hwf, hflags, hsp⟩ := fill_ok (b := p.take (s.file.bf.size - d.length))
      ha hw (by rw [List.length_take]; omega)
    refine ⟨s.file.bf.size - d.length, (), _, ?_, by omega, ⟨[], hwf, ?_, ?_⟩, hsp, .inr ⟨?_, ?_⟩⟩
    · rw [if_pos hfill, hf, Fault.ok_bind, hfl]
      rfl
    · exact hflags ▸ hl
    · exact hflags ▸ hn
    · rw [spool_eq hw.toBuffered]
      exact List.ne_nil_of_length_pos hfill.1
    · rw [Stream.spool, hwf.held]
  · rw [if_neg hfill]
    by_cases hbig : s.file.bf.size ≤ p.length
    · -- a whole buffer's worth, past the buffer, which is empty
      have hd : d = [] := List.eq_nil_of_length_eq_zero (by have := hw.pos; omega)
      subst hd
      obtain ⟨n, dev, hwr, hn', -, hle', hsp⟩ := direct_ok ha hw.toBuffered hp hw.pos
      refine ⟨n, (), ⟨s.file, dev, s.dev.2 ++ p.take n⟩, ?_, hle', ⟨[], hw, hl, hn⟩, hsp, .inl hn'⟩
      rw [if_pos hbig, hwr]
      dsimp only
      rw [if_neg (by omega), Int.toNat_natCast]
      rfl
    · obtain ⟨f', hf, hb, hs⟩ := hw.toBuffered.copy (b := p) (by omega)
      refine ⟨p.length, (), ⟨{ f' with w := f'.w - p.length }, s.dev⟩, ?_, le_rfl,
        ⟨d ++ p, ⟨hb.setW _, ?_, ?_, ?_, ?_⟩, ?_, ?_⟩, ?_, .inl hpos⟩
      · rw [if_neg hbig, hf]
        rfl
      · rw [show ({ f' with w := f'.w - p.length } : File).flags = s.file.flags from hs.2.1]
        exact hw.kind
      · show f'.w - p.length = f'.space (d ++ p).length
        rw [File.space, hs.1, hs.2.1, hs.2.2.2, hspace, List.length_append]
        simp only [hl, hn, Bool.false_eq_true, if_false]
        omega
      · exact fun h => absurd (hs.2.1 ▸ h : s.file.flags.slbf = true) (by simp [hl])
      · exact fun h => absurd (hs.2.1 ▸ h : s.file.flags.snbf = true) (by simp [hn])
      · exact hs.2.1 ▸ hl
      · exact hs.2.1 ▸ hn
      · rw [List.take_length]
        exact spool_put hw.toBuffered (hb.setW _)

/-! ## Lines -/

/-- The first newline of `p` is in its first `n` bytes, or else behind them. -/
theorem idxOf_split (p : List Byte) (n : ℕ) : p.idxOf newline =
    if newline ∈ p.take n then (p.take n).idxOf newline
    else (p.drop n).idxOf newline + (p.take n).length := by
  rw [← List.idxOf_append, List.take_append_drop]

theorem notMem_take_idxOf {n : ℕ} (h : n ≤ p.idxOf newline) : newline ∉ p.take n := by
  intro hm
  have happ := idxOf_split p n
  rw [if_pos hm] at happ
  have := List.idxOf_lt_length_of_mem hm
  rw [List.length_take] at this
  omega

theorem idxOf_drop {n : ℕ} (h : n ≤ p.idxOf newline) :
    (p.drop n).idxOf newline = p.idxOf newline - n := by
  have happ := idxOf_split p n
  have hle : p.idxOf newline ≤ p.length := List.idxOf_le_length
  rw [if_neg (notMem_take_idxOf h), List.length_take] at happ
  omega

/-- The distance to the newline is right where it is known; past the end of a region it is
forgotten. -/
def Known (t : Option ℕ) (p : List Byte) : Prop :=
  p ≠ [] → t = none ∨ t = some (p.idxOf newline + 1)

/-- `nldist -= w`, short of the newline -/
theorem Known.sub {n : ℕ} (h : n ≤ p.idxOf newline) :
    Known (some (p.idxOf newline + 1 - n)) (p.drop n) := by
  intro _
  rw [idxOf_drop h, Nat.sub_add_comm h]
  exact .inr rfl

/-- What a line buffered stream keeps between two turns. -/
def LineInv (k : ℕ) (t : Option ℕ) (p : List Byte) (s : Stream (σ × List Byte)) : Prop :=
  ∃ d, Writing k s.file d ∧ s.file.flags.slbf = true ∧ Known t p

/-- The end of a turn: the flush behind a newline. -/
theorem lineEnd_ok (ha : Accepts wr) {w : ℕ} (hb : Buffered k s.file d)
    (hkind : ¬(s.file.flags.slbf = true ∧ s.file.flags.snbf = true))
    (hl : s.file.flags.slbf = true) (hw : w ≤ p.idxOf newline + 1)
    (hwr : w ≤ p.idxOf newline → Writing k s.file d) :
    ∃ t' s', (if p.idxOf newline + 1 - w = 0 then do
        let (r, s) ← fflush (logged wr) k s
        if r ≠ 0 then return (none, none, s)
        return (some w, none, s)
      else return (some w, some (p.idxOf newline + 1 - w), s) :
        Except Fault (Option ℕ × Option ℕ × Stream (σ × List Byte))) = .ok (some w, t', s') ∧
      LineInv k t' (p.drop w) s' ∧ Spool.Writes s.spool [] s'.spool ∧
      (s.spool.held = [] → s'.spool.held = []) := by
  by_cases hend : p.idxOf newline + 1 - w = 0
  · obtain ⟨dev, hf⟩ := fflush_ok ha hb
    refine ⟨none, ⟨s.file.flushed, dev, s.dev.2 ++ d⟩, by rw [if_pos hend, hf]; rfl,
      ⟨[], hb.flushed hkind, hl, fun _ => .inl rfl⟩, spool_flush hb dev, fun _ => ?_⟩
    rw [Stream.spool, hb.emptied.held]
  · have hle : w ≤ p.idxOf newline := by omega
    exact ⟨_, s, by rw [if_neg hend]; rfl, ⟨d, hwr hle, hl, Known.sub hle⟩, .refl, id⟩

theorem lineTurn_ok (ha : Accepts wr) : TurnOk (LineInv k) (lineTurn (logged wr) k) := by
  rintro t p s hp ⟨d, hw, hl, ht⟩
  have hpos := List.length_pos_of_ne_nil hp
  have hle := hw.le
  have hspace : s.file.w + s.file.bf.size = (s.file.bf.size - d.length : ℕ) := by
    rw [hw.w_eq, File.space, if_pos hl]
    omega
  have hdist : t.getD (p.idxOf newline + 1) = p.idxOf newline + 1 := by
    rcases ht hp with rfl | rfl <;> rfl
  have hidx : p.idxOf newline ≤ p.length := List.idxOf_le_length
  unfold lineTurn
  simp only [hdist, hw.used, Fault.ok_bind, hspace, Int.toNat_natCast, Nat.cast_lt]
  have hmin : min p.length (p.idxOf newline + 1) ≤ p.idxOf newline + 1 := Nat.min_le_right _ _
  have hminp : min p.length (p.idxOf newline + 1) ≤ p.length := Nat.min_le_left _ _
  have hmin0 : 0 < min p.length (p.idxOf newline + 1) := lt_min hpos (Nat.succ_pos _)
  generalize min p.length (p.idxOf newline + 1) = n at *
  by_cases hfill : 0 < d.length ∧ s.file.bf.size - d.length < n
  · obtain ⟨f', dev, hf, hfl, hwf, hflags, hsp⟩ := fill_ok (b := p.take (s.file.bf.size - d.length))
      ha hw (by rw [List.length_take]; omega)
    have hlt : s.file.bf.size - d.length ≤ p.idxOf newline := by omega
    refine ⟨s.file.bf.size - d.length, some (p.idxOf newline + 1 - (s.file.bf.size - d.length)), _,
      ?_, by omega, ⟨[], hwf, hflags ▸ hl, Known.sub hlt⟩, hsp, .inr ⟨?_, ?_⟩⟩
    · rw [if_pos hfill, hf, Fault.ok_bind, hfl, Fault.ok_bind]
      simp only [ne_eq, not_true_eq_false, if_false]
      show (if _ then _ else _) = _
      rw [if_neg (by omega)]
      rfl
    · rw [spool_eq hw.toBuffered]
      exact List.ne_nil_of_length_pos hfill.1
    · rw [Stream.spool, hwf.held]
  · rw [if_neg hfill]
    by_cases hbig : s.file.bf.size ≤ n
    · have hd : d = [] := List.eq_nil_of_length_eq_zero (by have := hw.pos; omega)
      subst hd
      obtain ⟨m, dev, hwr, hm, hms, hmp, hsp⟩ := direct_ok ha hw.toBuffered hp hw.pos
      obtain ⟨t', s', hs, hinv, hsp', -⟩ := lineEnd_ok
        (s := ⟨s.file, dev, s.dev.2 ++ p.take m⟩) (p := p) (w := m) ha hw.toBuffered
        hw.kind hl (by omega)
        (fun _ => hw)
      refine ⟨m, t', s', ?_, hmp, hinv, by simpa using hsp.trans hsp', .inl hm⟩
      rw [if_pos hbig, hwr]
      simp only [Int.toNat_natCast]
      rw [if_neg (by omega)]
      exact hs
    · have hlen : (p.take n).length = n := by rw [List.length_take]; omega
      obtain ⟨f', hf, hb, hs⟩ := hw.toBuffered.copy (b := p.take n) (by omega)
      have hsf : f'.flags = s.file.flags := hs.2.1
      obtain ⟨t', s', hs', hinv, hsp', -⟩ := lineEnd_ok
        (s := ⟨{ f' with w := f'.w - n }, s.dev⟩) (p := p) (w := n) ha (hb.setW _)
        (by rw [show ({ f' with w := f'.w - n } : File).flags = _ from hsf]; exact hw.kind)
        (hsf ▸ hl) hmin
        (fun hn => by
          refine ⟨hb.setW _, fun h => hw.kind (hsf ▸ h), ?_, fun _ => ?_, fun h => ?_⟩
          · show f'.w - n = f'.space (d ++ p.take n).length
            rw [File.space, hs.1, hs.2.1, if_pos hl, hw.w_eq, File.space, if_pos hl,
              List.length_append, hlen]
            push_cast
            ring
          · rw [List.mem_append, not_or]
            exact ⟨hw.line hl, notMem_take_idxOf hn⟩
          · exact absurd ⟨hl, hsf ▸ h⟩ hw.kind)
      refine ⟨n, t', s', ?_, hminp, hinv, ?_, .inl hmin0⟩
      · rw [if_neg hbig, hf]
        exact hs'
      · simpa using (spool_put hw.toBuffered (hb.setW _)).trans hsp'

/-! ## The whole call -/

theorem sfvwrite_ok (ha : Accepts wr) (h : Ready k e s.file d) (u : Suio)
    (hfuel : 2 * u.iov.flatten.length + 1 < k) :
    ∃ s' d', sfvwrite e (logged wr) k u s = .ok (0, 0, s') ∧ Ready k e s'.file d' ∧
      Spool.Writes s.spool u.iov.flatten s'.spool := by
  unfold sfvwrite
  by_cases hz : u.resid = 0
  · have hnil : u.iov.flatten = [] :=
      List.eq_nil_of_length_eq_zero (by rw [Suio.resid] at hz; omega)
    refine ⟨s, d, by rw [if_pos hz, hz], h, ?_⟩
    rw [hnil]
    exact .refl
  · obtain ⟨f', hf, hw⟩ := h.cantwrite
    have hsp : s.spool = Stream.spool ⟨f', s.dev⟩ := by
      rw [Stream.spool, h.held, Stream.spool, hw.held]
    rw [if_neg hz, hf]
    obtain ⟨_ | ⟨p, iov⟩, hfits⟩ := u
    · exact absurd rfl hz
    · have hres : Suio.resid ⟨p :: iov, hfits⟩ = (p ++ iov.flatten).length := by
        rw [Suio.resid, List.flatten_cons]
      have hne : p ++ iov.flatten ≠ [] := by
        intro hn
        rw [hres, hn] at hz
        exact hz rfl
      have hturns : 2 * (p ++ iov.flatten).length +
          (if (Stream.spool ⟨f', s.dev⟩).held = [] then 0 else 1) < k := by
        rw [List.flatten_cons] at hfuel
        split <;> omega
      dsimp only
      rw [hres, List.flatten_cons, hsp]
      by_cases hn : f'.flags.snbf = true
      · have hd := hw.none_held hn
        subst hd
        obtain ⟨_, s', hs, ⟨hw', -⟩, hsp'⟩ := drive_ok id (unbufTurn_ok ha)
          (fun _ _ _ h => h) k p iov () ⟨f', s.dev⟩ hturns hne ⟨hw, hn⟩
        exact ⟨s', [], by rw [if_pos hn, hs], .inl hw', hsp'⟩
      · rw [if_neg hn]
        by_cases hl : f'.flags.slbf = true
        · obtain ⟨_, s', hs, ⟨d', hw', -⟩, hsp'⟩ := drive_ok (fun _ => none)
            (lineTurn_ok ha) (fun _ _ _ hd => by
              obtain ⟨d, hd, hl, -⟩ := hd
              exact ⟨d, hd, hl, fun _ => .inl rfl⟩) k p iov
            none ⟨f', s.dev⟩ hturns hne ⟨d, hw, hl, fun _ => .inl rfl⟩
          exact ⟨s', d', by rw [if_neg (not_not_intro hl), hs], .inl hw', hsp'⟩
        · obtain ⟨_, s', hs, ⟨d', hw', -⟩, hsp'⟩ := drive_ok id (fullTurn_ok ha)
            (fun _ _ _ h => h) k p iov () ⟨f', s.dev⟩ hturns hne
            ⟨d, hw, by simpa using hl, by simpa using hn⟩
          exact ⟨s', d', by rw [if_pos hl, hs], .inl hw', hsp'⟩

end Stdio
