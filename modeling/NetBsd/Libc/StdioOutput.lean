import Mathlib
import NetBsd.Libc.StdioVwrite

/-!
# Output streams over whole sessions

A stream is opened, perhaps given a buffer, and then written by calls of `putc`, `__sfvwrite`
and `fflush` in any order, with a write function that takes any positive number of the bytes it
is offered.

## Main definitions

* `Stdio.Setup`: how the stream was opened, and the call of `setvbuf` if there was one
* `Stdio.Delivered`: no byte is lost, repeated or moved, and those that the kind of buffering
  does not let the stream keep have been accepted
* `Stdio.Delivers`: every session with such a stream ends so
* `Stdio.Setup.Good`: the setups that leave the stream as `stdio.h` describes it

## Main results

* `Stdio.run_ok`: a session with a stream that is ready
* `Stdio.delivers_iff`: a setup delivers if and only if it is good
-/

namespace Stdio

/-- A stream open for reading and writing that has been read. -/
structure ReadMode (f : File) : Prop where
  srd : f.flags.srd = true
  srw : f.flags.srw = true
  swr : f.flags.swr = false
  sstr : f.flags.sstr = false
  w : f.w = 0
  lbfsize : f.lbfsize = 0
  holds : ∃ cells, f.bf.base = some cells ∧ f.bf.size ≤ cells.length
  pos : 1 ≤ f.bf.size
  lt : f.bf.size < 2 ^ 31
  unbuf : f.flags.snbf = true → f.bf.size = 1

/-- How a stream that can be written comes about: modes `w` and `a`, `stderr`, modes with a
`+`, and those once the stream has been read. -/
inductive Opened where
  | write
  | stderr
  | update
  | reading (f : File) (h : ReadMode f)

def Opened.file : Opened → File
  | write => { flags := { swr := true } }
  | stderr => { flags := { swr := true, snbf := true } }
  | update => { flags := { srw := true } }
  | reading f _ => f

/-- The arguments of a call of `setvbuf`; a buffer is at least `size` bytes long. -/
structure Vbuf where
  buf : Option (List Byte)
  mode : Mode
  size : ℕ
  fits : ∀ cells, buf = some cells → 1 ≤ size ∧ size ≤ cells.length
  lt : size < 2 ^ 31

structure Setup where
  opened : Opened
  vbuf : Option Vbuf

variable {σ : Type}

def Setup.start (S : Setup) (wr : WriteFn σ) (fuel : ℕ) (dev : σ) : Except Fault (Stream σ) :=
  match S.vbuf with
  | none => .ok ⟨S.opened.file, dev⟩
  | some v => do
    let (_, s) ← setvbuf wr fuel v.buf v.mode v.size ⟨S.opened.file, dev⟩
    return s

/-- A call that writes. -/
inductive Call where
  | putc (c : BitVec 32)
  | sfvwrite (u : Suio)
  | fflush

/-- The bytes a call writes. -/
def Call.bytes : Call → List Byte
  | putc c => [c.setWidth 8]
  | sfvwrite u => u.iov.flatten
  | fflush => []

def call (e : Env) (wr : WriteFn σ) (fuel : ℕ) (s : Stream σ) : Call → Except Fault (ℤ × Stream σ)
  | .putc c => Stdio.putc e wr fuel c s
  | .sfvwrite u => do
    let (r, _, s) ← Stdio.sfvwrite e wr fuel u s
    return (r, s)
  | .fflush => Stdio.fflush wr fuel s

def run (e : Env) (wr : WriteFn σ) (fuel : ℕ) : List Call → Stream σ → Except Fault (Stream σ)
  | [], s => .ok s
  | c :: calls, s => do
    let (_, s) ← call e wr fuel s c
    run e wr fuel calls s

def session (e : Env) (wr : WriteFn σ) (fuel : ℕ) (S : Setup) (calls : List Call) (dev : σ) :
    Except Fault (Stream σ) := do
  let s ← S.start wr fuel dev
  run e wr fuel calls s

/-- What a list of calls writes. -/
def written (calls : List Call) : List Byte := calls.flatMap Call.bytes

/-- The bytes accepted are the front of those written, and the rest is in the buffer; there is
no rest behind a flush or on an unbuffered stream, and no newline in it on a line buffered one. -/
structure Delivered (calls : List Call) (s : Stream (σ × List Byte)) : Prop where
  front : s.dev.2 <+: written calls
  all : s.dev.2 ++ s.file.held = written calls
  flushed : calls.getLast? = some .fflush → s.dev.2 = written calls
  unbuf : s.file.flags.snbf = true → s.dev.2 = written calls
  line : s.file.flags.slbf = true → newline ∉ (written calls).drop s.dev.2.length

/-- Whatever is written, and however little is accepted at a time, the session comes to an end
without a store outside of the buffer, and has delivered. -/
def Delivers (e : Env) (S : Setup) : Prop :=
  ∀ (σ : Type) (wr : WriteFn σ) (dev : σ) (calls : List Call), Accepts wr →
    ∃ k, ∀ fuel, k ≤ fuel →
      ∃ s, session e (logged wr) fuel S calls (dev, []) = .ok s ∧ Delivered calls s

/-- The setups that leave a stream as `stdio.h` has it: `_lbfsize` is 0 unless the stream is
line buffered and in write mode, `_w` counts space that is there, and no stream is both line
buffered and unbuffered. -/
def Setup.Good (e : Env) (S : Setup) : Prop :=
  match S.vbuf with
  | none => ¬(S.opened.file.flags.slbf = true ∧ S.opened.file.flags.snbf = true)
  | some v =>
    match v.mode with
    | .ionbf => True
    | .iofbf => v.buf = none → v.size = 0 ∨ S.opened.file.flags.swr = false
    | .iolbf =>
      (v.buf ≠ none ∧ S.opened.file.flags.swr = true) ∨
        (v.buf = none ∧ v.size = 0 ∧ e.malloc e.bufSize = true)

variable {e : Env} {wr : WriteFn σ} {k : ℕ} {d : List Byte} {s : Stream (σ × List Byte)}
  {S : Setup} {v : Vbuf}

/-! ## A stream that is ready -/

theorem call_ok (ha : Accepts wr) (h : Ready k e s.file d) (c : Call)
    (hfuel : 2 * c.bytes.length + 1 < k) :
    ∃ r s' d', call e (logged wr) k s c = .ok (r, s') ∧ Ready k e s'.file d' ∧
      Spool.Writes s.spool c.bytes s'.spool ∧ (c = .fflush → d' = []) := by
  cases c with
  | putc c =>
    obtain ⟨s', d', hs, hw, hsp⟩ := putc_ok ha h c
    exact ⟨_, s', d', hs, .inl hw, hsp, nofun⟩
  | sfvwrite u =>
    obtain ⟨s', d', hs, hr, hsp⟩ := sfvwrite_ok ha h u hfuel
    refine ⟨0, s', d', ?_, hr, hsp, nofun⟩
    rw [call, hs]
    rfl
  | fflush =>
    obtain ⟨s', hs, hr, hsp⟩ := fflush_ready ha h
    exact ⟨0, s', [], hs, hr, hsp, fun _ => rfl⟩

theorem run_ok (ha : Accepts wr) (calls : List Call) (h : Ready k e s.file d)
    (hfuel : 2 * (written calls).length + 1 < k) :
    ∃ s' d', run e (logged wr) k calls s = .ok s' ∧ Ready k e s'.file d' ∧
      Spool.Writes s.spool (written calls) s'.spool ∧
      (calls.getLast? = some .fflush → d' = []) := by
  induction calls generalizing s d with
  | nil => exact ⟨s, d, rfl, h, .refl, nofun⟩
  | cons c calls ih =>
    have hlen : (written (c :: calls)).length = c.bytes.length + (written calls).length := by
      simp [written]
    obtain ⟨r, s₁, d₁, hs, hr, hsp, hfl⟩ := call_ok ha h c (by omega)
    obtain ⟨s', d', hs', hr', hsp', hfl'⟩ := ih hr (by omega)
    refine ⟨s', d', ?_, hr', by simpa [written] using hsp.trans hsp', fun hlast => ?_⟩
    · rw [run, hs]
      exact hs'
    · cases calls with
      | nil =>
        cases hs'
        rw [← hr'.held, hr.held]
        exact hfl (by simpa using hlast)
      | cons c' calls => exact hfl' (by simpa using hlast)

theorem Ready.line (h : Ready k e s.file d) :
    d = [] ∨ ((s.file.flags.snbf = true → d = []) ∧ (s.file.flags.slbf = true → newline ∉ d)) := by
  rcases h with h | ⟨-, h⟩
  · exact .inr ⟨h.none_held, h.line⟩
  · exact .inl h

theorem delivered_of_ready (calls : List Call) (h : Ready k e s.file d)
    (hall : s.dev.2 ++ d = written calls)
    (hfl : calls.getLast? = some .fflush → d = []) : Delivered calls s := by
  have hheld := h.held
  have hdrop : (written calls).drop s.dev.2.length = d := by
    rw [← hall, List.drop_left]
  have hnil : d = [] → s.dev.2 = written calls := fun hd => by
    rw [← hall, hd, List.append_nil]
  refine ⟨⟨d, hall⟩, by rw [hheld, hall], fun hc => hnil (hfl hc), fun hn => ?_, fun hl => ?_⟩
  · rcases h.line with hd | ⟨hd, -⟩
    · exact hnil hd
    · exact hnil (hd hn)
  · rw [hdrop]
    rcases h.line with hd | ⟨-, hd⟩
    · simp [hd]
    · exact hd hl

/-! ## Good setups -/

theorem Opened.mode (o : Opened) :
    o.file.flags.swr = true ∨ o.file.flags.srw = true := by
  cases o with
  | reading f h => exact .inr h.srw
  | _ => simp [Opened.file]

theorem Opened.w (o : Opened) : o.file.w = 0 ∧ o.file.lbfsize = 0 ∧ o.file.flags.sstr = false := by
  cases o with
  | reading f h => exact ⟨h.w, h.lbfsize, h.sstr⟩
  | _ => exact ⟨rfl, rfl, rfl⟩

/-- Before any writing, the write mode comes without a buffer. -/
theorem Opened.swr (o : Opened) (h : o.file.flags.swr = true) : o.file.bf.base = none := by
  cases o with
  | reading f hr => exact absurd h (by simp [Opened.file, hr.swr])
  | _ => rfl

/-- `setvbuf` finds nothing to flush. -/
theorem start_some (wr : WriteFn σ) (fuel : ℕ) (dev : σ) (hv : S.vbuf = some v) :
    S.start wr fuel dev = .ok ⟨S.opened.file.choose v.buf v.mode v.size, dev⟩ := by
  have hs : sflush wr fuel ⟨S.opened.file, dev⟩ = .ok (0, ⟨S.opened.file, dev⟩) := by
    unfold sflush
    by_cases hw : S.opened.file.flags.swr = true
    · rw [if_neg (not_not_intro hw), S.opened.swr hw]
    · rw [if_pos hw]
  rw [Setup.start, hv]
  dsimp only
  rw [setvbuf, if_neg (not_le.mpr v.lt), hs]
  rfl

/-- A buffer is there: in write mode the counts are right, or else they are 0. -/
theorem ready_given {f : File} (hm : f.flags.swr = true ∨ f.flags.srw = true)
    (hs : f.flags.sstr = false)
    (hc : ∃ cells, f.bf.base = some cells ∧ f.bf.size ≤ cells.length) (hpos : 1 ≤ f.bf.size)
    (hlt : f.bf.size < 2 ^ 31) (hk : f.bf.size < k)
    (hkind : ¬(f.flags.slbf = true ∧ f.flags.snbf = true))
    (hub : f.flags.snbf = true → f.bf.size = 1)
    (hw : f.flags.swr = true → f.p = .bf 0 ∧ f.w = f.space 0 ∧
      f.lbfsize = if f.flags.slbf then -(f.bf.size : ℤ) else 0)
    (hr : f.flags.swr = false → (f.flags.srd = true ∨ f.p = .bf 0) ∧ f.w = 0 ∧ f.lbfsize = 0) :
    Ready k e f [] := by
  obtain ⟨cells, hc, hlen⟩ := hc
  by_cases hsw : f.flags.swr = true
  · obtain ⟨hp, hw, hl⟩ := hw hsw
    exact .inl ⟨⟨hsw, hs, ⟨cells, hc, hlen, rfl⟩, hp, hpos, hlt, hk, Nat.zero_le _, hub, hl⟩, hkind,
      hw, fun _ => by simp, fun _ => rfl⟩
  · obtain ⟨hp, hw, hl⟩ := hr (by simpa using hsw)
    refine .inr ⟨⟨.inl (by simpa using hsw), hm, hs, hw, hl, fun cells' hc' => ?_, fun hn => ?_⟩,
      rfl⟩
    · rw [hc] at hc'
      cases hc'
      exact ⟨hlen, hpos, hlt, hk, hkind, hub, hp⟩
    · rw [hc] at hn
      exact absurd hn (by simp)

/-- No buffer is there: the next call makes one. -/
theorem ready_made {f : File} (hm : f.flags.swr = true ∨ f.flags.srw = true)
    (hs : f.flags.sstr = false) (hc : f.bf.base = none) (hw : f.w = 0) (hl : f.lbfsize = 0)
    (hk : f.flags.slbf = true → f.flags.snbf = false ∧ e.malloc e.bufSize = true)
    (he : e.bufSize < k) (h1 : 1 < k) : Ready k e f [] :=
  .inr ⟨⟨.inr hc, hm, hs, hw, hl, fun cells h => absurd (hc ▸ h) (by simp), fun _ => ⟨hk, he, h1⟩⟩,
    rfl⟩

/-- A bound for every buffer a setup may come to have. -/
def Setup.room (e : Env) (S : Setup) : ℕ :=
  S.opened.file.bf.size + (S.vbuf.elim 0 Vbuf.size) + e.bufSize + 2

theorem ready_opened (hk : S.room e ≤ k)
    (hg : ¬(S.opened.file.flags.slbf = true ∧ S.opened.file.flags.snbf = true)) :
    Ready k e S.opened.file [] := by
  have hroom : S.room e = S.opened.file.bf.size + (S.vbuf.elim 0 Vbuf.size) + e.bufSize + 2 := rfl
  obtain ⟨hw, hl, hs⟩ := S.opened.w
  have hm := S.opened.mode
  have hswr := S.opened.swr
  by_cases hb : S.opened.file.bf.base = none
  · refine ready_made hm hs hb hw hl (fun hsl => ?_) (by omega) (by omega)
    cases ho : S.opened with
    | reading f h =>
      obtain ⟨cells, hc, -⟩ := h.holds
      rw [ho] at hb
      exact absurd hb (by simp [Opened.file, hc])
    | _ => exact absurd hsl (by simp [ho, Opened.file])
  · cases ho : S.opened with
    | reading f h =>
      rw [ho] at hg
      have hroom' : S.room e = f.bf.size + (S.vbuf.elim 0 Vbuf.size) + e.bufSize + 2 := by
        rw [hroom, ho]
        rfl
      exact ready_given (.inr h.srw) h.sstr h.holds h.pos h.lt
        (show f.bf.size < k by omega) hg h.unbuf
        (fun hc => absurd hc (by simp [Opened.file, h.swr]))
        (fun _ => ⟨.inl h.srd, h.w, h.lbfsize⟩)
    | _ =>
      rw [ho] at hb
      exact absurd rfl hb

theorem choose_swr {f : File} (hw : f.flags.swr = true) (v : Vbuf) :
    f.choose v.buf v.mode v.size = { f.rebuf v.buf v.mode v.size with
      w := if v.mode = .iofbf then (v.size : ℤ) else 0 } := by
  unfold File.choose File.rebuf
  cases v.mode <;> exact if_pos hw

theorem choose_not_swr {f : File} (hw : f.flags.swr = false) (v : Vbuf) :
    f.choose v.buf v.mode v.size = f.rebuf v.buf v.mode v.size := by
  unfold File.choose File.rebuf
  cases v.mode <;> exact if_neg (by simp [File.setNbuf, hw])

theorem ready_chosen (hk : S.room e ≤ k) (hv : S.vbuf = some v) (hg : S.Good e) :
    Ready k e (S.opened.file.choose v.buf v.mode v.size) [] := by
  have hroom : S.room e = S.opened.file.bf.size + v.size + e.bufSize + 2 := by
    rw [Setup.room, hv]
    rfl
  obtain ⟨hw, -, hs⟩ := S.opened.w
  have hm := S.opened.mode
  have hlt := v.lt
  have one_lt : 1 < 2 ^ 31 := by decide
  rw [Setup.Good, hv] at hg
  dsimp only at hg
  generalize S.opened.file = f at *
  obtain hsw | hsw := (Bool.eq_false_or_eq_true f.flags.swr)
  · rw [choose_swr hsw]
    cases hmode : v.mode with
    | ionbf =>
      exact ready_given (.inl hsw) hs ⟨_, rfl, le_rfl⟩ le_rfl one_lt (by show 1 < k; omega) nofun
        (fun _ => rfl) (fun _ => ⟨rfl, rfl, rfl⟩) (fun h => absurd (hsw.symm.trans h) (by simp))
    | iofbf =>
      rw [hmode] at hg
      by_cases hb : v.buf = none
      · have hz : v.size = 0 := (hg hb).resolve_right (by simp [hsw])
        exact ready_made (.inl hsw) hs hb (by simp [hz]) rfl nofun (by omega) (by omega)
      · obtain ⟨cells, hc⟩ := Option.ne_none_iff_exists'.mp hb
        obtain ⟨hpos, hlen⟩ := v.fits cells hc
        exact ready_given (.inl hsw) hs ⟨cells, hc, hlen⟩ hpos hlt (show v.size < k by omega) nofun
          nofun (fun _ => ⟨if_neg hb, (sub_zero (v.size : ℤ)).symm, rfl⟩)
          (fun h => absurd (hsw.symm.trans h) (by simp))
    | iolbf =>
      rw [hmode] at hg
      rcases hg with ⟨hb, -⟩ | ⟨hb, hz, hmal⟩
      · obtain ⟨cells, hc⟩ := Option.ne_none_iff_exists'.mp hb
        obtain ⟨hpos, hlen⟩ := v.fits cells hc
        exact ready_given (.inl hsw) hs ⟨cells, hc, hlen⟩ hpos hlt (show v.size < k by omega) nofun
          nofun (fun _ => ⟨if_neg hb, rfl, rfl⟩) (fun h => absurd (hsw.symm.trans h) (by simp))
      · refine ready_made (.inl hsw) hs hb rfl ?_ (fun _ => ⟨rfl, hmal⟩) (by omega) (by omega)
        show -(v.size : ℤ) = 0
        rw [hz]
        rfl
  · rw [choose_not_swr hsw]
    cases hmode : v.mode with
    | ionbf =>
      exact ready_given hm hs ⟨_, rfl, le_rfl⟩ le_rfl one_lt (by show 1 < k; omega) nofun
        (fun _ => rfl) (fun h => absurd (hsw.symm.trans h) (by simp)) (fun _ => ⟨.inr rfl, hw, rfl⟩)
    | iofbf =>
      by_cases hb : v.buf = none
      · exact ready_made hm hs hb hw rfl nofun (by omega) (by omega)
      · obtain ⟨cells, hc⟩ := Option.ne_none_iff_exists'.mp hb
        obtain ⟨hpos, hlen⟩ := v.fits cells hc
        exact ready_given hm hs ⟨cells, hc, hlen⟩ hpos hlt (show v.size < k by omega) nofun
          nofun (fun h => absurd (hsw.symm.trans h) (by simp))
          (fun _ => ⟨.inr (if_neg hb), hw, rfl⟩)
    | iolbf =>
      rw [hmode] at hg
      rcases hg with ⟨-, h⟩ | ⟨hb, hz, hmal⟩
      · exact absurd (hsw.symm.trans h) (by simp)
      · refine ready_made hm hs hb hw ?_ (fun _ => ⟨rfl, hmal⟩) (by omega) (by omega)
        show -(v.size : ℤ) = 0
        rw [hz]
        rfl

theorem delivers_of_good (hg : S.Good e) : Delivers e S := by
  intro σ wr dev calls ha
  refine ⟨S.room e + 2 * (written calls).length + 2, fun fuel hfuel => ?_⟩
  obtain ⟨f, hstart, hready⟩ : ∃ f, S.start (logged wr) fuel (dev, []) = .ok ⟨f, dev, []⟩ ∧
      Ready fuel e f [] := by
    cases hv : S.vbuf with
    | none =>
      rw [Setup.Good, hv] at hg
      exact ⟨_, by rw [Setup.start, hv], ready_opened (by omega) hg⟩
    | some v => exact ⟨_, start_some _ _ _ hv, ready_chosen (by omega) hv hg⟩
  obtain ⟨s, d, hs, hr, hsp, hfl⟩ :=
    run_ok (s := ⟨f, dev, []⟩) ha calls hready (by omega)
  refine ⟨s, ?_, delivered_of_ready calls hr ?_ hfl⟩
  · rw [session, hstart]
    exact hs
  · have hall := hsp.all_eq
    rw [Ready.spool hr, Ready.spool (s := ⟨f, dev, []⟩) hready] at hall
    exact hall

/-! ## Bad setups -/

/-- A write function that takes all it is offered. -/
def takeAll : WriteFn Unit := fun s d => (d.length, s)

theorem takeAll_accepts : Accepts takeAll := fun _ d hd => by
  have := List.length_pos_of_ne_nil hd
  exact ⟨by show (0 : ℤ) < d.length; omega, le_rfl⟩

theorem not_delivers_of (calls : List Call)
    (h : ∀ fuel, 1 < fuel → e.bufSize < fuel → ∀ s,
      session e (logged takeAll) fuel S calls ((), []) = .ok s → ¬Delivered calls s) :
    ¬Delivers e S := by
  intro hd
  obtain ⟨k, hk⟩ := hd Unit takeAll () calls takeAll_accepts
  obtain ⟨s, hs, hdel⟩ := hk (k + e.bufSize + 2) (by omega)
  exact h _ (by omega) (by omega) s hs hdel

/-- `putc` goes ahead with a buffer that is not there. -/
theorem not_delivers_null (hv : S.vbuf = some v) (hb : v.buf = none) (hz : v.size ≠ 0)
    (hm : v.mode = .iofbf ∧ S.opened.file.flags.swr = true ∨ v.mode = .iolbf) :
    ¬Delivers e S := by
  apply not_delivers_of [.putc 97]
  intro fuel _ _ s hs
  obtain ⟨hw, -, -⟩ := S.opened.w
  obtain ⟨f, hf, hbase, hq⟩ : ∃ f, S.opened.file.choose v.buf v.mode v.size = f ∧
      f.bf.base = none ∧ (0 ≤ f.w - 1 ∨ (f.lbfsize ≤ f.w - 1 ∧
        BitVec.setWidth 8 (97 : BitVec 32) ≠ newline)) := by
    refine ⟨_, rfl, ?_⟩
    generalize S.opened.file = f at *
    obtain hsw | hsw := (Bool.eq_false_or_eq_true f.flags.swr)
    · rw [choose_swr hsw]
      rcases hm with ⟨hm, -⟩ | hm
      · rw [hm]
        exact ⟨hb, .inl (by show (0 : ℤ) ≤ v.size - 1; omega)⟩
      · rw [hm]
        exact ⟨hb, .inr ⟨by show -(v.size : ℤ) ≤ 0 - 1; omega, by decide⟩⟩
    · rw [choose_not_swr hsw]
      rcases hm with ⟨-, hm⟩ | hm
      · exact absurd (hsw.symm.trans hm) (by simp)
      · rw [hm]
        refine ⟨hb, .inr ⟨?_, by decide⟩⟩
        show -(v.size : ℤ) ≤ f.w - 1
        omega
  have hst : { f with w := f.w - 1 }.store (BitVec.setWidth 8 (97 : BitVec 32)) = .error .deref := by
    rw [File.store, hbase]
  rw [session, start_some _ _ _ hv, hf, Fault.ok_bind, run, call, putc] at hs
  dsimp only at hs
  rw [if_pos hq, hst] at hs
  cases hs

/-- `putc` fills the buffer of a stream that is not in write mode, and `fflush` does not look
at it. -/
theorem not_delivers_update (hv : S.vbuf = some v) (hb : v.buf ≠ none)
    (hsw : S.opened.file.flags.swr = false) (hm : v.mode = .iolbf) : ¬Delivers e S := by
  apply not_delivers_of [.putc 97, .fflush]
  intro fuel _ _ s hs hd
  obtain ⟨cells, hc⟩ := Option.ne_none_iff_exists'.mp hb
  obtain ⟨hpos, hlen⟩ := v.fits cells hc
  obtain ⟨hw, -, -⟩ := S.opened.w
  have hmode := S.opened.mode.resolve_left (by simp [hsw])
  rw [session, start_some _ _ _ hv, choose_not_swr hsw, hm] at hs
  generalize S.opened.file = f at *
  have hq : 0 ≤ (f.rebuf v.buf .iolbf v.size).w - 1 ∨
      ((f.rebuf v.buf .iolbf v.size).lbfsize ≤ (f.rebuf v.buf .iolbf v.size).w - 1 ∧
        BitVec.setWidth 8 (97 : BitVec 32) ≠ newline) := by
    refine .inr ⟨?_, by decide⟩
    show -(v.size : ℤ) ≤ f.w - 1
    omega
  have hst := File.store_eq (f := { f.rebuf v.buf .iolbf v.size with
      w := (f.rebuf v.buf .iolbf v.size).w - 1 }) (n := 0) hc (if_neg hb)
      (show 0 < cells.length by omega) hpos (BitVec.setWidth 8 (97 : BitVec 32))
  rw [Fault.ok_bind, run, call, putc] at hs
  dsimp only at hs
  rw [if_pos hq, hst] at hs
  have hsent : s.dev.2 = [] := by
    rw [Fault.ok_bind] at hs
    change (do
      let (_, s) ← fflush (logged takeAll) fuel _
      run e (logged takeAll) fuel [] s) = Except.ok s at hs
    rw [fflush, if_neg (fun h => h.2 hmode), sflush, if_pos (by
      show ¬f.flags.swr = true
      simp [hsw])] at hs
    cases hs
    rfl
  have := hd.flushed rfl
  rw [hsent] at this
  exact absurd this (by decide)

theorem makebuf_both {f : File} (hl : f.flags.slbf = true) (hm : ¬e.malloc e.bufSize = true) :
    (makebuf e f).flags.slbf = true ∧ (makebuf e f).flags.snbf = true := by
  obtain ⟨-, -, hol, -, -⟩ := optimise_flags e f
  unfold makebuf
  by_cases hn : f.flags.snbf = true
  · rw [if_pos hn]
    exact ⟨hl, hn⟩
  · rw [if_neg hn]
    dsimp only
    rw [if_neg hm]
    exact ⟨hol.trans hl, rfl⟩

/-- Line buffered and unbuffered at once: the first character is flushed, as the buffer is full
with it, but the second is stored as one in the middle of a line. -/
theorem both_kinds {f f' : File} (hw : f.w = 0) (hl : f.lbfsize = 0)
    (hcw : cantwrite e f = some f') (hb : Buffered k f' []) (hsl : f'.flags.slbf = true)
    (hsn : f'.flags.snbf = true) :
    ∃ s, run e (logged takeAll) k [.putc 97, .putc 98] ⟨f, (), []⟩ = .ok s ∧ s.dev.2 = [97] ∧
      s.file.flags.snbf = true := by
  have hsize : f'.bf.size = 1 := hb.unbuf hsn
  have hq : ¬(0 ≤ f.w - 1 ∨ (f.lbfsize ≤ f.w - 1 ∧
      BitVec.setWidth 8 (97 : BitVec 32) ≠ newline)) := by
    rw [hw, hl]
    omega
  have hfile : { f with w := f.lbfsize } = f := by
    rw [hl, ← hw]
    exact congrArg (fun l => { f with lbfsize := l }) (hw.trans hl.symm)
  obtain ⟨f₁, hf₁, hb₁, hs₁⟩ := (hb.setW (f'.w - 1)).store hb.pos
    (BitVec.setWidth 8 (97 : BitVec 32))
  have hflags₁ : f₁.flags = f'.flags := hs₁.2.1
  have hsize₁ : f₁.bf.size = 1 := hs₁.2.2.2.trans hsize
  obtain ⟨dev, hfl⟩ := fflush_ok (s := ⟨f₁, (), []⟩) takeAll_accepts hb₁
  have hfirst : putc e (logged takeAll) k 97 ⟨f, (), []⟩ = .ok (97, ⟨f₁.flushed, dev, [97]⟩) := by
    rw [putc]
    dsimp only
    rw [if_neg hq, swbuf]
    dsimp only
    rw [hfile, hcw]
    dsimp only
    rw [swbufStore, hb.used, Fault.ok_bind, if_neg (by rw [hsize]; decide), swbufPut, hf₁,
      Fault.ok_bind]
    dsimp only
    rw [if_pos (.inl hsize₁.symm), hfl]
    rfl
  have hw₂ : f₁.flushed.w = 0 := if_pos (by simp [hflags₁, hsl])
  have hl₂ : f₁.flushed.lbfsize = -1 := by
    rw [hb₁.emptied.lbfsize, if_pos (by show f₁.flags.slbf = true; rw [hflags₁, hsl])]
    show -(f₁.bf.size : ℤ) = -1
    rw [hsize₁]
    rfl
  obtain ⟨f₃, hf₃, -, hs₃⟩ := (hb₁.emptied.setW (f₁.flushed.w - 1)).store hb₁.emptied.pos
    (BitVec.setWidth 8 (98 : BitVec 32))
  refine ⟨⟨f₃, dev, [97]⟩, ?_, rfl, ?_⟩
  · rw [run, call, hfirst, Fault.ok_bind]
    dsimp only
    rw [run, call, putc]
    dsimp only
    rw [if_pos (.inr ⟨by rw [hw₂, hl₂]; decide, by decide⟩), hf₃]
    rfl
  · show f₃.flags.snbf = true
    rw [hs₃.2.1]
    show f₁.flags.snbf = true
    rw [hflags₁, hsn]

theorem not_delivers_both {f g : File} (hk : ∀ fuel, 1 < fuel → e.bufSize < fuel → Fresh fuel g)
    (hstart : ∀ fuel, S.start (logged takeAll) fuel ((), []) = .ok ⟨f, (), []⟩)
    (hm : f.flags.swr = true ∨ f.flags.srw = true)
    (htodo : f.flags.swr = false ∨ f.bf.base = none) (hw : f.w = 0) (hl : f.lbfsize = 0)
    (hg : (if f.toWriting.bf.base = none then makebuf e f.toWriting else f.toWriting) = g)
    (hboth : g.flags.slbf = true ∧ g.flags.snbf = true) : ¬Delivers e S := by
  apply not_delivers_of [.putc 97, .putc 98]
  intro fuel h1 he s hs hd
  obtain ⟨f', hf', hb, hfl, -⟩ := swsetup_ok hm hg (hk fuel h1 he)
  obtain ⟨s', hs', hsent, hn⟩ := both_kinds hw hl
    (by rw [cantwrite, if_pos (by rcases htodo with ht | ht <;> simp [ht])]; exact hf')
    hb (by rw [hfl]; exact hboth.1) (by rw [hfl]; exact hboth.2)
  rw [session, hstart, Fault.ok_bind, hs'] at hs
  cases hs
  have := hd.unbuf hn
  rw [hsent] at this
  exact absurd this (by decide)

theorem not_delivers_opened (hv : S.vbuf = none)
    (hboth : S.opened.file.flags.slbf = true ∧ S.opened.file.flags.snbf = true) :
    ¬Delivers e S := by
  cases ho : S.opened with
  | reading f h =>
    rw [ho] at hboth
    obtain ⟨htw, hts, htl, htn, htb, htf⟩ := toWriting_keeps f
    obtain ⟨cells, hc, hlen⟩ := h.holds
    have hsize := h.unbuf hboth.2
    refine not_delivers_both (f := f) (g := f.toWriting) (fun fuel h1 _ => ?_) (fun fuel => ?_)
      (.inr h.srw) (.inl h.swr) h.w h.lbfsize ?_ ?_
    · exact ⟨htw, hts.trans h.sstr, htb.trans h.lbfsize, ⟨cells, htf ▸ hc, htf ▸ hlen⟩,
        htf ▸ h.pos, htf ▸ h.lt, by rw [htf, hsize]; exact h1, fun _ => by rw [htf, hsize],
        toWriting_p h.swr hc (.inl h.srd)⟩
    · rw [Setup.start, hv, ho]
      rfl
    · rw [htf, if_neg (by simp [hc])]
    · rw [htl, htn]
      exact hboth
  | _ =>
    rw [ho] at hboth
    exact absurd hboth (by simp [Opened.file])

/-- `setlinebuf`, and then no memory for the buffer. -/
theorem not_delivers_nomem (hv : S.vbuf = some v) (hb : v.buf = none) (hz : v.size = 0)
    (hm : v.mode = .iolbf) (hmal : ¬e.malloc e.bufSize = true) : ¬Delivers e S := by
  obtain ⟨hw, -, hs⟩ := S.opened.w
  have hmode := S.opened.mode
  have hst := fun fuel => start_some (logged takeAll) fuel ((), []) hv
  generalize S.opened.file = f₀ at *
  obtain ⟨f, hf, hfl, hfb, hfw, hfl0, hfs, hfm⟩ : ∃ f, f₀.choose v.buf v.mode v.size = f ∧
      f.flags.slbf = true ∧ f.bf.base = none ∧ f.w = 0 ∧ f.lbfsize = 0 ∧ f.flags.sstr = false ∧
      (f.flags.swr = true ∨ f.flags.srw = true) := by
    refine ⟨_, rfl, ?_⟩
    obtain hsw | hsw := (Bool.eq_false_or_eq_true f₀.flags.swr)
    · rw [choose_swr hsw, hm]
      exact ⟨rfl, hb, rfl, by show -(v.size : ℤ) = 0; rw [hz]; rfl, hs, hmode⟩
    · rw [choose_not_swr hsw, hm]
      exact ⟨rfl, hb, hw, by show -(v.size : ℤ) = 0; rw [hz]; rfl, hs, hmode⟩
  obtain ⟨htw, hts, htl, htn, htb, htf⟩ := toWriting_keeps f
  refine not_delivers_both (f := f) (g := makebuf e f.toWriting) (fun fuel h1 he => ?_)
    (fun fuel => by rw [hst, hf]) hfm (.inr hfb) hfw hfl0 ?_ ?_
  · exact makebuf_fresh htw (hts.trans hfs) (htb.trans hfl0) he h1
  · rw [htf, if_pos hfb]
  · exact makebuf_both (htl.trans hfl) hmal

/-- A stream delivers what is written to it, in every session, if and only if its setup left it
as `stdio.h` describes it. -/
theorem delivers_iff (e : Env) (S : Setup) : Delivers e S ↔ S.Good e := by
  refine ⟨fun hd => ?_, delivers_of_good⟩
  by_contra hg
  rw [Setup.Good] at hg
  cases hv : S.vbuf with
  | none =>
    rw [hv] at hg
    exact not_delivers_opened hv (not_not.mp hg) hd
  | some v =>
    rw [hv] at hg
    dsimp only at hg
    cases hm : v.mode with
    | ionbf =>
      rw [hm] at hg
      exact hg trivial
    | iofbf =>
      rw [hm] at hg
      dsimp only at hg
      rw [Classical.not_imp, not_or] at hg
      obtain ⟨hb, hz, hsw⟩ := hg
      exact not_delivers_null hv hb hz (.inl ⟨hm, by simpa using hsw⟩) hd
    | iolbf =>
      rw [hm] at hg
      dsimp only at hg
      rw [not_or] at hg
      obtain ⟨hgiven, hmade⟩ := hg
      by_cases hb : v.buf = none
      · by_cases hz : v.size = 0
        · exact not_delivers_nomem hv hb hz hm (fun hmal => hmade ⟨hb, hz, hmal⟩) hd
        · exact not_delivers_null hv hb hz (.inr hm) hd
      · refine not_delivers_update hv hb ?_ hm hd
        by_contra hsw
        exact hgiven ⟨hb, by simpa using hsw⟩

/-- A file opened with mode `w+` and given a line buffer of eight bytes. -/
def lineUpdate : Setup :=
  ⟨.update, some ⟨some (List.replicate 8 0), .iolbf, 8, fun cells h => by cases h; decide,
    by decide⟩⟩

theorem lineUpdate_not_delivers : ¬Delivers ⟨none, false, true, fun _ => true⟩ lineUpdate :=
  not_delivers_update rfl (by simp) rfl rfl

end Stdio
