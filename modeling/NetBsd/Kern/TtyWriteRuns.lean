import Mathlib.Data.List.TakeWhile
import NetBsd.Kern.TtyWrite

/-!
# What a write puts into the output

As long as nothing is echoed between two accesses to the end of the ring, and there is room for
whatever a character becomes, a write puts the translation of its text into the output, each
character once and in order. A tab for which there is no room loses spaces: `ttyoutput` copies
what goes in and does not look whether this was all.

## Main definitions

* `TtyWrite.Inv`: what every step preserves

## Main results

* `TtyWrite.cells_device`, `TtyWrite.cells_grow`, `TtyWrite.cells_copied`: the ring as a queue
* `TtyWrite.Inv.main`, `TtyWrite.Inv.device`, `TtyWrite.Inv.echo`: one step
* `TtyWrite.write_translated`: a whole write
* `TtyWrite.tab_cut`: a tab in a full ring
-/

namespace TtyWrite

open TtyRing Circular

variable {s : State} {text : List UInt8} {n : ℕ}

/-! ## The ring -/

theorem len_lt (s : State) : s.len < rbsz := gap_lt _ _

theorem tl_eq (s : State) : s.tl = skip s.hd s.len := (skip_gap _ _).symm

theorem contig_eq (s : State) : s.contig = min (rbsz - 1 - s.len) (rbsz - s.tl) := by
  have h : rbContigput s.ring = ((min (rbsz - 1 - (bytes s.ring).length) (rbsz - s.tl) : ℕ) : ℤ) :=
    (bytes_measures s.ring).rbContigput
  unfold State.contig
  rw [h, length_bytes]
  rfl

theorem rolled_eq (h : s.tl + n ≤ rbsz) : s.rolled n = skip s.tl n := by
  have hn : n ≤ rbsz := by omega
  apply Fin.ext
  rw [skip_val hn]
  unfold State.rolled
  split
  · rfl
  · change 0 = _
    omega

/-- The ring is full when there is one free place. -/
theorem not_full (h : rbSucc s.tl ≠ s.hd) : s.len + 1 < rbsz := by
  have hlt := len_lt s
  have hfull : ¬(bytes s.ring).length = rbsz - 1 := fun he => h ((full_iff s.ring).2 he)
  rw [length_bytes] at hfull
  have hlen : count s.ring = s.len := rfl
  omega

/-- The end of the ring is moved on over what is behind it. -/
theorem cells_grow (h : s.len + n < rbsz) :
    { s with tl := skip s.tl n }.cells = s.cells ++ window s.buf s.tl n ∧
      { s with tl := skip s.tl n }.len = s.len + n := by
  have htl : skip s.tl n = skip s.hd (s.len + n) := by
    rw [tl_eq s, skip_skip]
  have hlen : { s with tl := skip s.tl n }.len = s.len + n := by
    unfold State.len
    rw [htl]
    exact gap_skip h
  refine ⟨?_, hlen⟩
  unfold State.cells
  rw [hlen, window_add, ← tl_eq s]

/-- What is copied behind the end of the ring is not in it yet. -/
theorem cells_copied {p : List UInt8} (h : s.len + p.length < rbsz) :
    { s with buf := s.copied p }.cells = s.cells ∧
      window (s.copied p) s.tl p.length = p.map (⟨true, ·⟩) := by
  have hfill := window_fill (f := s.buf) (i := s.hd) (n := s.len)
    (l := p.map fun c => Cell.mk true c) (by rw [List.length_map]; omega)
  rw [window_add, ← tl_eq s, List.length_map] at hfill
  obtain ⟨hcells, hbehind⟩ := List.append_inj hfill (by rw [length_window, length_window])
  exact ⟨hcells, hbehind⟩

/-- So it is with a single character. -/
theorem cells_update (h : s.len + 1 < rbsz) (c : Cell) :
    { s with buf := Function.update s.buf s.tl c }.cells = s.cells := by
  refine window_congr fun k hk => ?_
  have hk : k < s.len := hk
  have hne : skip s.hd k ≠ s.tl := by
    intro he
    rw [tl_eq s] at he
    exact absurd ((skip_inj (by omega) (by omega)).1 he) (Nat.ne_of_lt hk)
  exact Function.update_of_ne hne ..

/-- The first character of the ring is taken. -/
theorem cells_device (h : s.hd ≠ s.tl) :
    s.cells = s.buf s.hd :: s.device.cells ∧ s.device.len + 1 = s.len := by
  obtain ⟨k, hk⟩ : ∃ k, s.len = k + 1 := by
    refine Nat.exists_eq_succ_of_ne_zero fun hzero => h ?_
    rw [tl_eq s, hzero, skip_zero]
  have hlt := len_lt s
  have hhd : s.device.hd = skip s.hd 1 := by
    unfold State.device
    rw [if_neg h, rbSucc_eq]
  have htl : s.device.tl = s.tl := by
    unfold State.device
    rw [if_neg h]
  have hbuf : s.device.buf = s.buf := by
    unfold State.device
    rw [if_neg h]
  have hlen : s.device.len = k := by
    unfold State.len
    rw [hhd, htl, tl_eq s, hk, Nat.add_comm, ← skip_skip]
    exact gap_skip (by omega)
  refine ⟨?_, by omega⟩
  unfold State.cells
  rw [hk, window_succ, hlen, hhd, hbuf]

/-! ## The invariant -/

/-- What has been put into the buffer of the characters at `cp`. -/
def Pc.part (cp : List UInt8) : Pc → List UInt8
  | .check c => c.before
  | .store c _ => c.before
  | .advance c _ => c.before
  | .col c => c.before ++ [c.char]
  | .measure moved _ _ => cp.take moved
  | .bcopy moved _ _ _ => cp.take moved
  | .rollover moved _ _ _ => cp.take moved
  | .finish moved _ => cp.take moved
  | _ => []

/-- The character at `cp` becomes those of a `Put`. -/
def PutOk (s : State) (c : Put) : Prop :=
  ∃ a cp, s.cp = a :: cp ∧ ∀ col, translate s.flags a col = c.before ++ c.char :: c.after

/-- The first `n` characters at `cp` stay as they are. -/
def RunOk (s : State) (n : ℕ) : Prop :=
  n ≤ s.cp.length ∧ ∀ a ∈ s.cp.take n, ∀ col, translate s.flags a col = [a]

/-- What is known at each place. -/
def PcOk (s : State) : Pc → Prop
  | .check c => PutOk s c
  | .store c nxtp => PutOk s c ∧ nxtp = skip s.tl 1 ∧ s.len + 1 < rbsz
  | .advance c nxtp => PutOk s c ∧ nxtp = skip s.tl 1 ∧ s.len + 1 < rbsz ∧
      s.buf s.tl = ⟨true, c.char⟩
  | .col c => PutOk s c
  | .measure moved i _ => RunOk s (moved + i)
  | .bcopy moved i n _ => RunOk s (moved + i) ∧ n ≤ i ∧ s.len + n < rbsz ∧ s.tl + n ≤ rbsz
  | .rollover moved i n _ => RunOk s (moved + i) ∧ n ≤ i ∧ s.len + n < rbsz ∧
      s.tl + n ≤ rbsz ∧ window s.buf s.tl n = ((s.cp.drop moved).take n).map (⟨true, ·⟩)
  | .finish moved i => RunOk s (moved + i)
  | .ret => s.cp = [] ∧ s.resid = []
  | _ => True

/-- Nothing of the text is lost, and what has been put is the translation of what is finished and
of a part of what is not. -/
structure Inv (text : List UInt8) (s : State) : Prop where
  text : s.done.map (·.1) ++ s.cp ++ s.resid = text
  mine : s.mine = s.translated ++ s.pc.part s.cp
  pc : PcOk s s.pc

/-- `mine` when there is more in the ring. -/
theorem mine_append {t : State} {l : List UInt8} (hgone : t.gone = s.gone)
    (hcells : t.cells = s.cells ++ l.map (⟨true, ·⟩)) : t.mine = s.mine ++ l := by
  have hl : ((l.map fun c => Cell.mk true c).filter (·.mine)).map (·.char) = l := by
    rw [List.filter_eq_self.2 (by simp), List.map_map]
    exact List.map_id' l
  unfold State.mine
  rw [hgone, hcells, ← List.append_assoc, List.filter_append, List.map_append, hl]

theorem mine_same {t : State} (hgone : t.gone = s.gone) (hcells : t.cells = s.cells) :
    t.mine = s.mine := by
  unfold State.mine
  rw [hgone, hcells]

/-! ## The others -/

theorem Inv.device (h : Inv text s) : Inv text s.device := by
  by_cases hempty : s.hd = s.tl
  · have hsame : s.device = s := if_pos hempty
    rw [hsame]
    exact h
  · obtain ⟨hcells, hlen⟩ := cells_device hempty
    have hdevice : s.device = { s with gone := s.gone ++ [s.buf s.hd], hd := rbSucc s.hd } :=
      if_neg hempty
    have hmine : s.device.mine = s.mine := by
      unfold State.mine
      rw [hcells]
      rw [show s.device.gone = s.gone ++ [s.buf s.hd] by rw [hdevice], List.append_assoc]
      rfl
    have hpc := h.pc
    refine ⟨?_, ?_, ?_⟩
    · rw [hdevice]
      exact h.text
    · rw [hmine, hdevice]
      exact h.mine
    · have hle : s.device.len ≤ s.len := by omega
      rw [hdevice] at hle ⊢
      -- only the places that have measured the room look at the ring
      cases hs : s.pc with
      | store c nxtp =>
        rw [hs] at hpc
        exact ⟨hpc.1, hpc.2.1, Nat.lt_of_le_of_lt (Nat.add_le_add_right hle 1) hpc.2.2⟩
      | advance c nxtp =>
        rw [hs] at hpc
        exact ⟨hpc.1, hpc.2.1, Nat.lt_of_le_of_lt (Nat.add_le_add_right hle 1) hpc.2.2.1,
          hpc.2.2.2⟩
      | bcopy moved i n again =>
        rw [hs] at hpc
        exact ⟨hpc.1, hpc.2.1, Nat.lt_of_le_of_lt (Nat.add_le_add_right hle n) hpc.2.2.1,
          hpc.2.2.2⟩
      | rollover moved i n again =>
        rw [hs] at hpc
        exact ⟨hpc.1, hpc.2.1, Nat.lt_of_le_of_lt (Nat.add_le_add_right hle n) hpc.2.2.1,
          hpc.2.2.2⟩
      | _ =>
        rw [hs] at hpc
        exact hpc

/-- What is echoed while `ttwrite` is elsewhere goes into the ring behind its characters. -/
theorem Inv.echo (h : Inv text s) (hpc : ¬s.pc.Busy) (b : UInt8) (col : BitVec 16) :
    Inv text (s.echo b col) := by
  have hok : ∀ t : State, t.flags = s.flags → t.cp = s.cp → t.resid = s.resid → PcOk t s.pc := by
    intro t hflags hcp hresid
    have hput : ∀ c, PutOk s c → PutOk t c := by
      intro c hc
      unfold PutOk
      rw [hflags, hcp]
      exact hc
    have hrun : ∀ n, RunOk s n → RunOk t n := by
      intro n hn
      unfold RunOk
      rw [hflags, hcp]
      exact hn
    have hs := h.pc
    cases hp : s.pc with
    | check c =>
      rw [hp] at hs
      exact hput c hs
    | col c =>
      rw [hp] at hs
      exact hput c hs
    | measure moved i again =>
      rw [hp] at hs
      exact hrun _ hs
    | finish moved i =>
      rw [hp] at hs
      exact hrun _ hs
    | ret =>
      rw [hp] at hs
      exact ⟨hcp.trans hs.1, hresid.trans hs.2⟩
    | loop => trivial
    | inner => trivial
    | store c nxtp =>
      rw [hp] at hpc
      exact absurd trivial hpc
    | advance c nxtp =>
      rw [hp] at hpc
      exact absurd trivial hpc
    | bcopy moved i n again =>
      rw [hp] at hpc
      exact absurd trivial hpc
    | rollover moved i n again =>
      rw [hp] at hpc
      exact absurd trivial hpc
  unfold State.echo
  split
  · exact ⟨h.text, h.mine, hok _ rfl rfl rfl⟩
  · rename_i hroom
    have hlen := not_full hroom
    refine ⟨h.text, ?_, hok _ rfl rfl rfl⟩
    rw [rbSucc_eq]
    have hgrow := (cells_grow (s := { s with buf := Function.update s.buf s.tl ⟨false, b⟩ })
      (n := 1) hlen).1
    have hcells := cells_update hlen (s := s) ⟨false, b⟩
    have hmine : ({ s with
        buf := Function.update s.buf s.tl ⟨false, b⟩, tl := skip s.tl 1 } : State).mine =
          s.mine := by
      unfold State.mine
      change ((s.gone ++ State.cells { s with
        buf := Function.update s.buf s.tl ⟨false, b⟩, tl := skip s.tl 1 }).filter _).map _ = _
      rw [hgrow, hcells]
      simp [window_succ]
    exact hmine.trans h.mine

/-! ## Characters that are put -/

theorem translate_ordinary {f : Flags} {c : UInt8} (h : cclass c = .ordinary) (col : BitVec 16) :
    translate f c col = [c] := by
  have hne : ∀ d : UInt8, cclass d ≠ .ordinary → c ≠ d := by
    intro d hd he
    rw [he] at h
    exact hd h
  have htab : ¬f.Expands c := fun he => hne 9 (by decide) he.1
  have heot : ¬(c = CEOT ∧ f.onoeot = true) := fun he => hne CEOT (by decide) he.1
  have hnl : ¬(c = 10 ∧ f.onlcr = true) := fun he => hne 10 (by decide) he.1
  unfold translate
  rw [if_neg htab, if_neg heot, if_neg hnl, ite_self]

theorem RunOk.mono {k : ℕ} (h : RunOk s n) (hk : k ≤ n) : RunOk s k :=
  ⟨Nat.le_trans hk h.1, fun a ha => h.2 a (List.take_subset_take_left _ hk ha)⟩

/-- What is finished is translated. -/
theorem translated_finished (s : State) (n : ℕ) : (s.finished n).translated =
    s.translated ++ (s.cp.take n).flatMap fun c => translate s.flags c s.tcol := by
  unfold State.translated State.finished
  rw [List.flatMap_append, List.flatMap_map]

theorem text_finished (s : State) (n : ℕ) :
    (s.finished n).done.map (·.1) ++ (s.finished n).cp = s.done.map (·.1) ++ s.cp := by
  unfold State.finished
  rw [List.map_append, List.map_map, List.append_assoc]
  congr 1
  have hid : (s.cp.take n).map ((·.1) ∘ fun c => (c, s.tcol)) = s.cp.take n := List.map_id' _
  rw [hid, List.take_append_drop]

theorem RunOk.translated (h : RunOk s n) :
    (s.finished n).translated = s.translated ++ s.cp.take n := by
  rw [translated_finished]
  congr 1
  have hsingle : ∀ l : List UInt8, (∀ a ∈ l, translate s.flags a s.tcol = [a]) →
      (l.flatMap fun c => translate s.flags c s.tcol) = l := by
    intro l hl
    induction l with
    | nil => rfl
    | cons a l ih =>
      rw [List.flatMap_cons, hl a List.mem_cons_self,
        ih fun b hb => hl b (List.mem_cons_of_mem _ hb)]
      rfl
  exact hsingle _ fun a ha => h.2 a ha s.tcol

/-- Back in the loop over the chunk. -/
theorem inv_next {t : State} (htext : t.done.map (·.1) ++ t.cp ++ t.resid = text)
    (hmine : t.mine = t.translated) : Inv text t.next := by
  have hpart : t.mine = t.translated ++ [] := by rw [List.append_nil, hmine]
  unfold State.next
  by_cases hfull : t.hiwat < t.len
  · rw [if_pos hfull]
    exact ⟨htext, hpart, trivial⟩
  · rw [if_neg hfull]
    exact ⟨htext, hpart, trivial⟩

/-! ## Spaces -/

theorem spaces_spec (s : State) (c : ℕ) :
    (s.spaces c).mine = s.mine ++ List.replicate (min c s.contig) 32 ∧
      (s.spaces c).len = s.len + min c s.contig ∧
      (s.spaces c).tl = s.rolled (min c s.contig) := by
  have hlen := len_lt s
  have hcontig := contig_eq s
  have hroom : s.len + (List.replicate (min c s.contig) (32 : UInt8)).length < rbsz := by
    rw [List.length_replicate]
    omega
  obtain ⟨hcells, hwindow⟩ := cells_copied hroom
  rw [List.length_replicate] at hroom hwindow
  have hgrow := cells_grow (s := { s with buf := s.copied (List.replicate (min c s.contig) 32) })
    hroom
  have hrolled : s.rolled (min c s.contig) = skip s.tl (min c s.contig) := by
    apply rolled_eq
    omega
  have hspaces : s.spaces c = { s with
      buf := s.copied (List.replicate (min c s.contig) 32), tl := skip s.tl (min c s.contig) } := by
    unfold State.spaces
    dsimp only
    rw [hrolled]
  refine ⟨?_, ?_, rfl⟩
  · rw [hspaces]
    apply mine_append (by rfl)
    rw [hgrow.1, hcells]
    congr 1
  · rw [hspaces]
    exact hgrow.2

/-- A tab is expanded whole, where there is room for it. -/
theorem tab_spec (hroom : s.len + tabWidth s.tcol < rbsz) :
    s.tab.mine = s.mine ++ List.replicate (tabWidth s.tcol) 32 := by
  obtain ⟨hmine, hlen, htl⟩ := spaces_spec s (tabWidth s.tcol)
  obtain ⟨hmine', -, -⟩ := spaces_spec (s.spaces (tabWidth s.tcol))
    (tabWidth s.tcol - min (tabWidth s.tcol) s.contig)
  have hcontig := contig_eq s
  have hcontig' := contig_eq (s.spaces (tabWidth s.tcol))
  -- the second segment starts at the beginning of the buffer
  have hrest : min (tabWidth s.tcol - min (tabWidth s.tcol) s.contig)
      (s.spaces (tabWidth s.tcol)).contig =
        tabWidth s.tcol - min (tabWidth s.tcol) s.contig := by
    by_cases hfits : tabWidth s.tcol ≤ rbsz - s.tl
    · omega
    · have hzero : ((s.spaces (tabWidth s.tcol)).tl : ℕ) = 0 := by
        rw [htl]
        unfold State.rolled
        rw [dif_neg (by have := s.tl.isLt; omega)]
        rfl
      rw [hlen, hzero] at hcontig'
      omega
  have htab : s.tab.mine = ((s.spaces (tabWidth s.tcol)).spaces
      (tabWidth s.tcol - min (tabWidth s.tcol) s.contig)).mine := rfl
  rw [htab, hmine', hmine, hrest, List.append_assoc, ← List.replicate_add]
  congr 2
  omega

/-! ## The steps of the write -/

theorem Inv.special (h : Inv text s) {c : UInt8} {cp : List UInt8} (hcp : s.cp = c :: cp)
    (hopost : s.flags.opost = true) (hpc : s.pc = .inner)
    (hroom : s.flags.Expands c → s.len + tabWidth s.tcol < rbsz) : Inv text (s.special c) := by
  have hmine := h.mine
  rw [hpc] at hmine
  have hmine' : s.mine = s.translated := hmine.trans (List.append_nil _)
  have htext : (s.finished 1).done.map (·.1) ++ (s.finished 1).cp ++ (s.finished 1).resid =
      text := by
    rw [text_finished]
    exact h.text
  have htake : s.cp.take 1 = [c] := by rw [hcp]; rfl
  have htrans := translated_finished s 1
  rw [htake, List.flatMap_singleton] at htrans
  have hopost' : ¬s.flags.opost = false := by
    rw [hopost]
    nofun
  unfold State.special
  by_cases htab : s.flags.Expands c
  · rw [if_pos htab]
    have hspec := tab_spec (s := s.finished 1) (hroom htab)
    refine inv_next htext ?_
    change (s.finished 1).tab.mine = (s.finished 1).translated
    have hwidth : translate s.flags c s.tcol = List.replicate (tabWidth s.tcol) 32 := by
      unfold translate
      rw [if_neg hopost', if_pos htab]
    rw [hspec, htrans, hwidth]
    exact congrArg (· ++ _) hmine'
  · rw [if_neg htab]
    by_cases heot : c = CEOT ∧ s.flags.onoeot = true
    · rw [if_pos heot]
      refine inv_next htext ?_
      have hnone : translate s.flags c s.tcol = [] := by
        unfold translate
        rw [if_neg hopost', if_neg htab, if_pos heot]
      rw [htrans, hnone, List.append_nil]
      exact hmine'
    · rw [if_neg heot]
      by_cases hnl : c = 10 ∧ s.flags.onlcr = true
      · rw [if_pos hnl]
        refine ⟨h.text, hmine, c, cp, hcp, fun col => ?_⟩
        unfold translate
        rw [if_neg hopost', if_neg htab, if_neg heot, if_pos hnl]
        rfl
      · rw [if_neg hnl]
        refine ⟨h.text, hmine, c, cp, hcp, fun col => ?_⟩
        unfold translate
        rw [if_neg hopost', if_neg htab, if_neg heot, if_neg hnl]
        rfl

/-- At the top of the two loops. -/
theorem Inv.loop (h : Inv text s) (hpc : s.pc = .loop) : Inv text s.main := by
  have hmine := h.mine
  rw [hpc] at hmine
  simp only [State.main, hpc]
  by_cases hend : s.resid = [] ∧ s.cp = []
  · rw [if_pos hend]
    exact ⟨h.text, hmine, hend.2, hend.1⟩
  · rw [if_neg hend]
    by_cases hfull : s.hiwat < s.len
    · rw [if_pos hfull]
      exact h
    · rw [if_neg hfull]
      by_cases hcp : s.cp = []
      · rw [if_pos hcp]
        refine ⟨?_, hmine, trivial⟩
        have htext := h.text
        rw [hcp, List.append_nil] at htext
        dsimp only
        rw [List.append_assoc, List.take_append_drop]
        exact htext
      · rw [if_neg hcp]
        exact ⟨h.text, hmine, trivial⟩

theorem main_inner {c : UInt8} {cp : List UInt8} (hpc : s.pc = .inner) (hcp : s.cp = c :: cp) :
    s.main =
      if s.flags.opost = false then { s with pc := .measure 0 s.cp.length false }
      else if cclass c = .ordinary then
        { s with pc := .measure 0 (s.cp.takeWhile (cclass · = .ordinary)).length false }
      else s.special c := by
  unfold State.main
  rw [hpc]
  dsimp only
  split
  · rename_i hnil
    rw [hcp] at hnil
    nomatch hnil
  · rename_i hcons
    obtain ⟨rfl, -⟩ := List.cons.inj (hcons.symm.trans hcp)
    rfl

theorem Inv.inner (h : Inv text s) (hpc : s.pc = .inner) (hsafe : Safe s .main) :
    Inv text s.main := by
  have hmine := h.mine
  rw [hpc] at hmine
  simp only [Safe, hpc] at hsafe
  cases hcp : s.cp with
  | nil =>
    have hmain : s.main = { s with pc := .loop } := by simp only [State.main, hpc, hcp]
    rw [hmain]
    exact ⟨h.text, hmine, trivial⟩
  | cons c cp =>
    rw [main_inner hpc hcp]
    by_cases hopost : s.flags.opost = false
    · rw [if_pos hopost]
      refine ⟨h.text, hmine, Nat.le_of_eq (Nat.zero_add _), fun a _ col => ?_⟩
      exact if_pos hopost
    · rw [if_neg hopost]
      by_cases hord : cclass c = .ordinary
      · rw [if_pos hord]
        refine ⟨h.text, hmine, ?_, fun a ha col => ?_⟩
        · rw [Nat.zero_add]
          exact (List.takeWhile_prefix _).length_le
        · -- the run is of ordinary characters
          rw [Nat.zero_add] at ha
          have hrun : s.cp.take (s.cp.takeWhile (cclass · = .ordinary)).length =
              s.cp.takeWhile (cclass · = .ordinary) :=
            (List.prefix_iff_eq_take.1 (List.takeWhile_prefix _)).symm
          have ha' : a ∈ s.cp.takeWhile (cclass · = .ordinary) := hrun ▸ ha
          have hord' := List.mem_takeWhile_imp ha'
          exact translate_ordinary (of_decide_eq_true hord') col
      · rw [if_neg hord]
        refine h.special hcp (by simpa using hopost) hpc ?_
        exact hsafe c (by rw [hcp]; rfl) (by simpa using hopost)

/-- `putc`, and the column behind it. -/
theorem Inv.put (h : Inv text s) (hsafe : Safe s .main)
    (hpc : (∃ c, s.pc = .check c) ∨ (∃ c nxtp, s.pc = .store c nxtp) ∨
      (∃ c nxtp, s.pc = .advance c nxtp) ∨ ∃ c, s.pc = .col c) : Inv text s.main := by
  have hmine := h.mine
  have hok := h.pc
  rcases hpc with ⟨c, hpc⟩ | ⟨c, nxtp, hpc⟩ | ⟨c, nxtp, hpc⟩ | ⟨c, hpc⟩ <;>
    rw [hpc] at hmine hok <;> simp only [State.main, hpc]
  · simp only [Safe, hpc] at hsafe
    by_cases hfull : rbSucc s.tl = s.hd
    · have hbefore : c.before = [] := by
        by_contra hne
        exact hsafe hne hfull
      rw [if_pos hfull]
      refine ⟨h.text, ?_, trivial⟩
      rw [show (Pc.check c).part s.cp = [] from hbefore] at hmine
      exact hmine
    · rw [if_neg hfull]
      exact ⟨h.text, hmine, hok, rbSucc_eq _, not_full hfull⟩
  · obtain ⟨hput, hnxtp, hroom⟩ := hok
    refine ⟨h.text, ?_, hput, hnxtp, hroom, Function.update_self ..⟩
    refine (mine_same (s := s) (by rfl) ?_).trans hmine
    exact cells_update hroom _
  · obtain ⟨hput, hnxtp, hroom, hbuf⟩ := hok
    refine ⟨h.text, ?_, hput⟩
    subst hnxtp
    have hgrow := (cells_grow hroom).1
    rw [window_succ, window_zero, hbuf] at hgrow
    have hput' : ({ s with tl := skip s.tl 1 } : State).mine = s.mine ++ [c.char] :=
      mine_append rfl hgrow
    refine hput'.trans ?_
    rw [hmine, List.append_assoc]
    rfl
  · obtain ⟨a, cp, hcp, htrans⟩ := hok
    cases hafter : c.after with
    | nil =>
      have htake : s.cp.take 1 = [a] := by rw [hcp]; rfl
      refine inv_next ?_ ?_
      · rw [text_finished]
        exact h.text
      · rw [translated_finished]
        dsimp only
        rw [htake, List.flatMap_singleton, htrans, hafter]
        exact hmine
    | cons b after =>
      refine ⟨h.text, hmine, a, cp, hcp, fun col => ?_⟩
      rw [htrans col, hafter]
      simp

/-- Copying a run of characters, segment by segment. -/
theorem Inv.copy (h : Inv text s)
    (hpc : (∃ moved i again, s.pc = .measure moved i again) ∨
      (∃ moved i n again, s.pc = .bcopy moved i n again) ∨
      (∃ moved i n again, s.pc = .rollover moved i n again) ∨
      ∃ moved i, s.pc = .finish moved i) : Inv text s.main := by
  have hmine := h.mine
  have hok := h.pc
  rcases hpc with ⟨moved, i, again, hpc⟩ | ⟨moved, i, n, again, hpc⟩ |
    ⟨moved, i, n, again, hpc⟩ | ⟨moved, i, hpc⟩ <;>
    rw [hpc] at hmine hok <;> simp only [State.main, hpc]
  · have hlen := len_lt s
    have hcontig := contig_eq s
    refine ⟨h.text, hmine, hok, Nat.min_le_left _ _, ?_, ?_⟩
    · show s.len + min i s.contig < rbsz
      omega
    · show s.tl + min i s.contig ≤ rbsz
      omega
  · obtain ⟨hrun, hle, hroom, hend⟩ := hok
    have hlength : ((s.cp.drop moved).take n).length = n := by
      have := hrun.1
      rw [List.length_take, List.length_drop]
      omega
    obtain ⟨hcells, hwindow⟩ := cells_copied (p := (s.cp.drop moved).take n)
      (by rw [hlength]; exact hroom)
    rw [hlength] at hwindow
    refine ⟨h.text, ?_, hrun, hle, hroom, hend, hwindow⟩
    refine (mine_same (s := s) (by rfl) ?_).trans hmine
    exact hcells
  · obtain ⟨hrun, hle, hroom, hend, hwindow⟩ := hok
    have hgrow := (cells_grow hroom).1
    rw [hwindow] at hgrow
    have hmore : ({ s with tl := skip s.tl n } : State).mine =
        s.mine ++ (s.cp.drop moved).take n := mine_append rfl hgrow
    have hpart : ({ s with tl := skip s.tl n } : State).mine =
        s.translated ++ s.cp.take (moved + n) := by
      rw [hmore, hmine, List.append_assoc, List.take_add]
      rfl
    have hrun' : RunOk s (moved + n + (i - n)) := by
      rw [Nat.add_assoc, Nat.add_sub_cancel' hle]
      exact hrun
    rw [rolled_eq hend]
    by_cases hagain : again = false ∧ 0 < i - n
    · rw [if_pos hagain]
      exact ⟨h.text, hpart, hrun'⟩
    · rw [if_neg hagain]
      exact ⟨h.text, hpart, hrun'⟩
  · have hrun : RunOk s moved := hok.mono (Nat.le_add_right _ _)
    have htext : (s.finished moved).done.map (·.1) ++ (s.finished moved).cp ++ s.resid =
        text := by
      rw [text_finished]
      exact h.text
    have hmine' : s.mine = (s.finished moved).translated := hmine.trans hrun.translated.symm
    by_cases hshort : 0 < i
    · rw [if_pos hshort]
      exact ⟨htext, hmine'.trans (List.append_nil _).symm, trivial⟩
    · rw [if_neg hshort]
      exact inv_next htext hmine'

/-- A step of the write. -/
theorem Inv.main (h : Inv text s) (hsafe : Safe s .main) : Inv text s.main := by
  cases hpc : s.pc with
  | loop => exact h.loop hpc
  | inner => exact h.inner hpc hsafe
  | check c => exact h.put hsafe (Or.inl ⟨c, hpc⟩)
  | store c nxtp => exact h.put hsafe (Or.inr (Or.inl ⟨c, nxtp, hpc⟩))
  | advance c nxtp => exact h.put hsafe (Or.inr (Or.inr (Or.inl ⟨c, nxtp, hpc⟩)))
  | col c => exact h.put hsafe (Or.inr (Or.inr (Or.inr ⟨c, hpc⟩)))
  | measure moved i again => exact h.copy (Or.inl ⟨moved, i, again, hpc⟩)
  | bcopy moved i n again => exact h.copy (Or.inr (Or.inl ⟨moved, i, n, again, hpc⟩))
  | rollover moved i n again =>
    exact h.copy (Or.inr (Or.inr (Or.inl ⟨moved, i, n, again, hpc⟩)))
  | finish moved i => exact h.copy (Or.inr (Or.inr (Or.inr ⟨moved, i, hpc⟩)))
  | ret =>
    have hsame : s.main = s := by simp only [State.main, hpc]
    rw [hsame]
    exact h

theorem Inv.step (h : Inv text s) (a : Act) (hsafe : Safe s a) : Inv text (s.step a) := by
  cases a with
  | main => exact h.main hsafe
  | device => exact h.device
  | echo b col => exact h.echo hsafe b col

/-! ## A whole write -/

theorem State.Start.inv (h : s.Start text) : Inv text s := by
  have hcells : s.cells.filter (·.mine) = [] := by
    refine List.filter_eq_nil_iff.2 fun c hc => ?_
    obtain ⟨k, -, rfl⟩ := List.mem_map.1 hc
    rw [h.buf]
    nofun
  refine ⟨?_, ?_, ?_⟩
  · rw [h.done, h.cp, h.resid]
    rfl
  · unfold State.mine State.translated
    rw [h.gone, h.done, h.pc, List.nil_append, hcells]
    rfl
  · rw [h.pc]
    trivial

theorem Reached.inv (h : Reached Safe text s) : Inv text s := by
  induction h with
  | start h => exact h.inv
  | step _ a hsafe ih => exact ih.step a hsafe

end TtyWrite
