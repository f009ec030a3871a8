import Mathlib
import NetBsd.Kern.SockbufRuns
import NetBsd.Lib.Reassembly
import NetBsd.Net.Tcp.Tcb

/-!
# The sequencing queue of TCP

`TCP_REASS` and `tcp_reass` of `netinet/tcp_input.c`, which put arriving segments in order, and
what they hand to the socket's receive buffer.

## Main definitions

* `tcpReass`, `TCP_REASS`: the function and the macro as the code computes them
* `Arrived s r0 x₀ x C`: from the connection `x₀`, segments cut from the stream `s` lead to `x`;
  they bring the bytes at the offsets `C`

## Main results

* `insertSeg_eq`: within half the sequence space, the queue is kept as integers would keep it
* `tcpReass_stream`: the receive buffer gets the stream up to the first byte that has not arrived
-/

namespace Tcp

open Mbuf Sockbuf

/-! ## The code -/

/-- What a segment keeps behind the segment `q` that precedes it. -/
def trimFront (q : Option Tcpiphdr) (ti : Tcpiphdr) : Option Tcpiphdr :=
  match q with
  | none => some ti
  | some q =>
    let i := seqDiff (seqAdd q.tiSeq q.tiLen) ti.tiSeq
    if 0 < i then
      if ti.tiLen ≤ i then none
      else some { ti with m := mAdj ti.m i, tiLen := ti.tiLen - i, tiSeq := seqAdd ti.tiSeq i }
    else some ti

/-- The loop over the succeeding segments. -/
def trimBehind (ti : Tcpiphdr) : List Tcpiphdr → List Tcpiphdr
  | [] => []
  | q :: rest =>
    let i := seqDiff (seqAdd ti.tiSeq ti.tiLen) q.tiSeq
    if i ≤ 0 then q :: rest
    else if i < q.tiLen then
      { q with tiSeq := seqAdd q.tiSeq i, tiLen := q.tiLen - i, m := mAdj q.m i } :: rest
    else trimBehind ti rest

/-- The segment `ti` in its place in the queue; `none` when it is dropped. -/
def insertSeg (ti : Tcpiphdr) (segs : List Tcpiphdr) : Option (List Tcpiphdr) :=
  let pre := segs.takeWhile fun q => !seqGt q.tiSeq ti.tiSeq
  let post := segs.dropWhile fun q => !seqGt q.tiSeq ti.tiSeq
  match trimFront pre.getLast? ti with
  | none => none
  | some ti => some (pre ++ ti :: trimBehind ti post)

/-- The loop at `present`, over the segments `segs` that are left in the queue; with the last
segment's `TH_FIN`. -/
def presentLoop (fin : Bool) (x : Conn) : List Tcpiphdr → Bool × Conn
  | [] => (fin, { x with tp.segs := [] })
  | ti :: rest =>
    if ti.tiSeq = x.tp.rcvNxt then
      presentLoop ti.tiFlags.fin
        { tp := { x.tp with rcvNxt := seqAdd x.tp.rcvNxt ti.tiLen }
          so := if x.so.cantRcvMore then x.so
            else { x.so with soRcv := sbappend x.so.soRcv ti.m } } rest
    else (fin, { x with tp.segs := ti :: rest })

/-- `tcp_reass` from `present` on. -/
def present (x : Conn) : Bool × Conn :=
  if !x.tp.tState.haveRcvdSyn then (false, x)
  else
    match x.tp.segs with
    | [] => (false, x)
    | ti :: _ =>
      if ti.tiSeq ≠ x.tp.rcvNxt then (false, x)
      else if x.tp.tState = .synReceived ∧ ti.tiLen ≠ 0 then (false, x)
      else presentLoop false x x.tp.segs

/-- `tcp_reass`; `none` for the call with a null segment. -/
def tcpReass (x : Conn) (ti : Option Tcpiphdr) : Bool × Conn :=
  match ti with
  | none => present x
  | some ti =>
    match insertSeg ti x.tp.segs with
    | none => (false, x)
    | some segs => present { x with tp.segs := segs }

/-- The macro `TCP_REASS`. -/
def TCP_REASS (x : Conn) (ti : Tcpiphdr) : Bool × Conn :=
  if ti.tiSeq = x.tp.rcvNxt ∧ x.tp.segs = [] ∧ x.tp.tState = .established then
    (ti.tiFlags.fin,
      { tp := { x.tp with delAck := true, rcvNxt := seqAdd x.tp.rcvNxt ti.tiLen }
        so := { x.so with soRcv := sbappend x.so.soRcv ti.m } })
  else
    let r := tcpReass x (some ti)
    (r.1, { r.2 with tp.ackNow := true })

/-! ## Sequence numbers as offsets -/

section Offsets

variable {r0 : Seq} {a b : ℤ} {t ti : Tcpiphdr} {g x : Reass.Seg UInt8 Unit}

theorem seqAdd_seqAdd (r : Seq) (a b : ℤ) : seqAdd (seqAdd r a) b = seqAdd r (a + b) := by
  rw [seqAdd, seqAdd, seqAdd, BitVec.ofInt_add, BitVec.add_assoc]

theorem seqAdd_seqDiff (s t : Seq) : seqAdd t (seqDiff s t) = s := by
  rw [seqAdd, seqDiff, BitVec.ofInt_toInt, BitVec.add_comm, BitVec.sub_add_cancel]

theorem seqDiff_seqAdd_bmod (r : Seq) (a b : ℤ) :
    seqDiff (seqAdd r a) (seqAdd r b) = (a - b).bmod (2 ^ 32) := by
  have hsub : seqAdd r a - seqAdd r b = BitVec.ofInt 32 (a - b) := by
    rw [show a = b + (a - b) by omega, seqAdd, seqAdd, BitVec.ofInt_add, ← BitVec.add_assoc,
      BitVec.add_comm, BitVec.add_sub_cancel]
    congr 1
    omega
  rw [seqDiff, hsub, BitVec.toInt_ofInt]

/-- Differences of sequence numbers are differences of offsets, within half the space. -/
theorem seqDiff_seqAdd (r : Seq) (h : -2 ^ 31 ≤ a - b) (h' : a - b < 2 ^ 31) :
    seqDiff (seqAdd r a) (seqAdd r b) = a - b := by
  rw [seqDiff_seqAdd_bmod]
  apply Int.bmod_eq_of_le <;> omega

theorem seqAdd_inj (r : Seq) (h : -2 ^ 31 ≤ a - b) (h' : a - b < 2 ^ 31) :
    seqAdd r a = seqAdd r b ↔ a = b := by
  constructor
  · intro he
    have hd := seqDiff_seqAdd r h h'
    rw [he, seqDiff, BitVec.sub_self, BitVec.toInt_zero] at hd
    omega
  · rintro rfl
    rfl

/-- The segment `t` is the piece `g` of the stream whose offset 0 has the sequence number
`r0`. -/
structure Abs (r0 : Seq) (t : Tcpiphdr) (g : Reass.Seg UInt8 Unit) : Prop where
  seq : t.tiSeq = seqAdd r0 g.off
  len : t.tiLen = g.data.length
  bytes : bytes t.m = g.data

theorem Abs.fin (h : Abs r0 t g) : seqAdd t.tiSeq t.tiLen = seqAdd r0 g.fin := by
  rw [h.seq, h.len, seqAdd_seqAdd, Reass.Seg.fin]

/-- A segment cut short in front. -/
theorem Abs.adj (h : Abs r0 t g) {i : ℤ} (h0 : 0 ≤ i) (hi : i ≤ g.data.length) :
    Abs r0 { t with m := mAdj t.m i, tiLen := t.tiLen - i, tiSeq := seqAdd t.tiSeq i }
      (g.adj i) where
  seq := by rw [h.seq, seqAdd_seqAdd, Reass.Seg.adj_off]
  len := by rw [Reass.Seg.adj_length h0 hi, h.len]
  bytes := by rw [bytes_mAdj, h.bytes, Reass.Seg.adj]

/-- Offsets at most half the sequence space apart. -/
def Near (lo : ℤ) (g : Reass.Seg UInt8 Unit) : Prop := lo ≤ g.off ∧ g.fin < lo + 2 ^ 31

theorem seqGt_iff {lo : ℤ} (h : Abs r0 t g) (h' : Abs r0 ti x) (hg : Near lo g) (hx : Near lo x) :
    seqGt t.tiSeq ti.tiSeq = decide (x.off < g.off) := by
  have := g.off_le_fin
  have := x.off_le_fin
  rcases hg with ⟨hg, hg'⟩
  rcases hx with ⟨hx, hx'⟩
  rw [seqGt, h.seq, h'.seq, seqDiff_seqAdd r0 (by omega) (by omega)]
  simp

/-! ### The queue as a reassembly queue -/

variable {lo : ℤ} {l : List Tcpiphdr} {k : List (Reass.Seg UInt8 Unit)}

theorem trimFront_abs {p : Option Tcpiphdr} {q : Option (Reass.Seg UInt8 Unit)}
    (h : Abs r0 ti x) (hp : Option.Rel (Abs r0) p q) (hx : Near lo x)
    (hq : ∀ g, q = some g → Near lo g) :
    Option.Rel (Abs r0) (trimFront p ti) (Reass.behind q x) := by
  cases hp with
  | none => exact Option.Rel.some h
  | @some t g ht =>
    have := g.off_le_fin
    have := x.off_le_fin
    rcases hx with ⟨hx, hx'⟩
    rcases hq g rfl with ⟨hg, hg'⟩
    have hi : seqDiff (seqAdd t.tiSeq t.tiLen) ti.tiSeq = g.fin - x.off := by
      rw [ht.fin, h.seq, seqDiff_seqAdd r0 (by omega) (by omega)]
    simp only [trimFront, Reass.behind, hi, h.len]
    split
    · split
      · exact Option.Rel.none
      · have hadj := h.adj (i := g.fin - x.off) (by omega) (by omega)
        rw [h.len] at hadj
        exact Option.Rel.some hadj
    · exact Option.Rel.some h

theorem trimBehind_abs (h : Abs r0 ti x) (hl : List.Forall₂ (Abs r0) l k) (hx : Near lo x)
    (hk : ∀ g ∈ k, Near lo g) :
    List.Forall₂ (Abs r0) (trimBehind ti l) (Reass.clear x k) := by
  induction hl with
  | nil => exact List.Forall₂.nil
  | @cons t g l k ht hl ih =>
    rcases List.forall_mem_cons.mp hk with ⟨hg, hk⟩
    have hi : seqDiff (seqAdd ti.tiSeq ti.tiLen) t.tiSeq = x.fin - g.off := by
      have := g.off_le_fin
      have := x.off_le_fin
      rcases hx with ⟨hx, hx'⟩
      rcases hg with ⟨hg, hg'⟩
      rw [h.fin, ht.seq, seqDiff_seqAdd r0 (by omega) (by omega)]
    simp only [trimBehind, Reass.clear, hi, ht.len]
    by_cases hle : x.fin - g.off ≤ 0
    · rw [if_pos hle, if_neg (show ¬0 < x.fin - g.off by omega)]
      exact List.Forall₂.cons ht hl
    · rw [if_neg hle, if_pos (show 0 < x.fin - g.off by omega)]
      by_cases hpart : x.fin - g.off < g.data.length
      · rw [if_pos hpart, if_pos hpart]
        have hadj := ht.adj (i := x.fin - g.off) (by omega) (by omega)
        rw [ht.len] at hadj
        exact List.Forall₂.cons hadj hl
      · rw [if_neg hpart, if_neg hpart]
        exact ih hk

/-- The two ways to find the place of a segment agree. -/
theorem place_abs (h : Abs r0 ti x) (hl : List.Forall₂ (Abs r0) l k) (hx : Near lo x)
    (hk : ∀ g ∈ k, Near lo g) :
    List.Forall₂ (Abs r0) (l.takeWhile fun q => !seqGt q.tiSeq ti.tiSeq) (Reass.before x k) ∧
      List.Forall₂ (Abs r0) (l.dropWhile fun q => !seqGt q.tiSeq ti.tiSeq) (Reass.after x k) := by
  induction hl with
  | nil => exact ⟨List.Forall₂.nil, List.Forall₂.nil⟩
  | @cons t g l k ht hl ih =>
    rcases List.forall_mem_cons.mp hk with ⟨hg, hk⟩
    have hgt : (!seqGt t.tiSeq ti.tiSeq) = decide (g.off ≤ x.off) := by
      rw [seqGt_iff ht h hg hx]
      by_cases hle : g.off ≤ x.off <;> simp [hle]
      omega
    simp only [Reass.before, Reass.after, List.takeWhile_cons, List.dropWhile_cons, hgt]
    split
    · exact ⟨List.Forall₂.cons ht (ih hk).1, (ih hk).2⟩
    · exact ⟨List.Forall₂.nil, List.Forall₂.cons ht hl⟩

theorem getLast?_abs (hl : List.Forall₂ (Abs r0) l k) :
    Option.Rel (Abs r0) l.getLast? k.getLast? := by
  induction hl with
  | nil => exact Option.Rel.none
  | cons ht hl ih =>
    cases hl with
    | nil => exact Option.Rel.some ht
    | cons ht' hl' => simpa only [List.getLast?_cons_cons] using ih

/-- Within half the sequence space, the queue is kept as integers would keep it. -/
theorem insertSeg_abs (h : Abs r0 ti x) (hl : List.Forall₂ (Abs r0) l k) (hx : Near lo x)
    (hk : ∀ g ∈ k, Near lo g) :
    Option.Rel (List.Forall₂ (Abs r0)) (insertSeg ti l) (Reass.insert x k) := by
  rcases place_abs h hl hx hk with ⟨hpre, hpost⟩
  have hlast := getLast?_abs hpre
  have hfront := trimFront_abs h hlast hx fun g hg =>
    hk g (Reass.mem_of_mem_before (List.mem_of_getLast? hg))
  have hy : ∀ y, Reass.behind (Reass.before x k).getLast? x = some y → Near lo y := by
    intro y hy
    have htail := (Reass.behind_some hy).1
    have := htail.off_le
    rcases hx with ⟨hx, hx'⟩
    exact ⟨by omega, by rw [htail.fin_eq]; omega⟩
  simp only [insertSeg, Reass.insert]
  generalize trimFront _ ti = f at hfront
  generalize Reass.behind _ x = b at hfront hy
  cases hfront with
  | none => exact Option.Rel.none
  | some hz =>
    apply Option.Rel.some
    apply List.rel_append hpre
    exact List.Forall₂.cons hz (trimBehind_abs hz hpost (hy _ rfl)
      fun g hg => hk g (Reass.mem_of_mem_after hg))

end Offsets

/-! ## Streams -/

section Streams

variable {r0 : Seq} {s : ℤ → UInt8} {n lo : ℤ} {b b₀ : List UInt8} {x : Conn} {fin : Bool}
  {l : List Tcpiphdr} {k : List (Reass.Seg UInt8 Unit)} {ti : Tcpiphdr}
  {g : Reass.Seg UInt8 Unit} {C : Set ℤ}

/-- An established connection that expects the offset `n`, with the pieces `k` in its queue and
the bytes `b` in its receive buffer, which takes more. -/
structure Stands (r0 : Seq) (n : ℤ) (k : List (Reass.Seg UInt8 Unit)) (b : List UInt8)
    (x : Conn) : Prop where
  rcvNxt : x.tp.rcvNxt = seqAdd r0 n
  segs : List.Forall₂ (Abs r0) x.tp.segs k
  run : ∃ gs, Sockbuf.Run x.so.soRcv gs
  contents : Sockbuf.contents x.so.soRcv = b
  state : x.tp.tState = .established
  more : x.so.cantRcvMore = false

/-- `present` hands on what follows without a gap. -/
theorem presentLoop_stands (h : Stands r0 n k b { x with tp.segs := l }) (hlo : lo ≤ n)
    (hlo' : n < lo + 2 ^ 31) (hk : ∀ g ∈ k, Near lo g) :
    Stands r0 (Reass.deliver n k).1 (Reass.deliver n k).2.2 (b ++ (Reass.deliver n k).2.1)
      (presentLoop fin x l).2 := by
  rcases h with ⟨hrcv, hsegs, hrun, hb, hstate, hmore⟩
  dsimp only at hrcv hsegs hrun hb hstate hmore
  induction hsegs generalizing n b x fin with
  | nil =>
    rw [Reass.deliver, presentLoop, List.append_nil]
    exact ⟨hrcv, List.Forall₂.nil, hrun, hb, hstate, hmore⟩
  | @cons t g l k ht hl ih =>
    rcases List.forall_mem_cons.mp hk with ⟨⟨hg, hg'⟩, hk⟩
    have := g.off_le_fin
    have hseq : t.tiSeq = x.tp.rcvNxt ↔ g.off = n := by
      rw [ht.seq, hrcv]
      exact seqAdd_inj r0 (by omega) (by omega)
    rw [Reass.deliver, presentLoop, hmore]
    by_cases hoff : g.off = n
    · rw [if_pos hoff, if_pos (hseq.mpr hoff)]
      rcases hrun with ⟨gs, hrun⟩
      rcases hrun.sbappend t.m with ⟨hrun', hcon⟩
      rw [hb, ht.bytes] at hcon
      rw [← List.append_assoc]
      have hfin : n + g.data.length = g.fin := by rw [Reass.Seg.fin, hoff]
      have hrcv' : seqAdd x.tp.rcvNxt t.tiLen = seqAdd r0 (n + g.data.length) := by
        rw [hrcv, ht.len, seqAdd_seqAdd]
      exact ih (by omega) (by omega) hk hrcv' hrun' hcon hstate hmore
    · rw [if_neg hoff, if_neg (mt hseq.mp hoff), List.append_nil]
      exact ⟨hrcv, List.Forall₂.cons ht hl, hrun, hb, hstate, hmore⟩

theorem present_eq (hstate : x.tp.tState = .established) :
    (present x).2 = (presentLoop false x x.tp.segs).2 := by
  unfold present
  rw [hstate, if_neg (by decide)]
  split
  next hnil =>
    rw [hnil, presentLoop, ← hnil]
  next t rest hcons =>
    by_cases hseq : t.tiSeq = x.tp.rcvNxt
    · rw [if_neg (not_not.mpr hseq), if_neg (by simp), hcons]
    · rw [if_pos hseq, hcons, presentLoop, if_neg hseq, ← hcons]

theorem Stands.present (h : Stands r0 n k b x) (hk : ∀ g ∈ k, Near n g) :
    Stands r0 (Reass.deliver n k).1 (Reass.deliver n k).2.2 (b ++ (Reass.deliver n k).2.1)
      (present x).2 := by
  rw [present_eq h.state]
  exact presentLoop_stands h le_rfl (by omega) hk

theorem Stands.ackNow (h : Stands r0 n k b x) : Stands r0 n k b { x with tp.ackNow := true } :=
  ⟨h.rcvNxt, h.segs, h.run, h.contents, h.state, h.more⟩

/-- The connection has the stream up to the offset `n`, in its buffer behind the bytes `b₀`, and
the pieces of it from behind `n` in its queue, in order and without overlap; together these are
the offsets `C`. -/
structure Inv (r0 : Seq) (s : ℤ → UInt8) (b₀ : List UInt8) (C : Set ℤ) (x : Conn) (n : ℤ)
    (k : List (Reass.Seg UInt8 Unit)) : Prop where
  stands : Stands r0 n k (b₀ ++ Reass.slice s 0 n) x
  nonneg : 0 ≤ n
  sorted : Reass.Sorted k
  cut : ∀ g ∈ k, Reass.Cut s g
  behind : ∀ g ∈ k, n < g.off
  near : ∀ g ∈ k, g.fin < n + 2 ^ 31
  covers : C = Set.Ico 0 n ∪ Reass.cover k

/-- The connection expects the first byte that has not arrived. -/
theorem Inv.isLeast (h : Inv r0 s b₀ C x n k) : IsLeast {m | 0 ≤ m ∧ m ∉ C} n := by
  constructor
  · refine ⟨h.nonneg, ?_⟩
    rw [h.covers]
    rintro (⟨-, hn⟩ | ⟨g, hg, hgn, -⟩)
    · exact absurd hn (lt_irrefl n)
    · have := h.behind g hg
      omega
  · rintro m ⟨hm0, hm⟩
    by_contra hlt
    rw [h.covers] at hm
    exact hm (Or.inl ⟨hm0, by omega⟩)

/-- A segment in the window keeps the invariant. -/
theorem Inv.step (h : Inv r0 s b₀ C x n k) (ht : Abs r0 ti g) (hc : Reass.Cut s g)
    (hn : n ≤ g.off) (hn' : g.fin < n + 2 ^ 31) :
    ∃ n' k', Inv r0 s b₀ (C ∪ g.span) (TCP_REASS x ti).2 n' k' := by
  have hgfin := g.off_le_fin
  have hseq : ti.tiSeq = x.tp.rcvNxt ↔ g.off = n := by
    rw [ht.seq, h.stands.rcvNxt]
    exact seqAdd_inj r0 (by omega) (by omega)
  rcases h with ⟨⟨hrcv, hsegs, ⟨gs, hrun⟩, hb, hstate, hmore⟩, h0, hsort, hcut, hbeh, hnear, hcov⟩
  by_cases hfast : ti.tiSeq = x.tp.rcvNxt ∧ x.tp.segs = [] ∧ x.tp.tState = .established
  · -- the next segment, with nothing in the queue
    rw [TCP_REASS, if_pos hfast]
    rcases hfast with ⟨hexp, hnil, -⟩
    have hoff := hseq.mp hexp
    rw [hnil] at hsegs
    cases hsegs
    rcases hrun.sbappend ti.m with ⟨hrun', hcon⟩
    rw [hb, ht.bytes, hc, hoff, List.append_assoc, Reass.slice_append s h0 (by omega)] at hcon
    have hrcv' : seqAdd x.tp.rcvNxt ti.tiLen = seqAdd r0 g.fin := by
      rw [hrcv, ht.len, seqAdd_seqAdd, ← hoff, Reass.Seg.fin]
    refine ⟨g.fin, [], ⟨hrcv', ?_, hrun', hcon, hstate, hmore⟩, by omega, hsort, by simp, by simp,
      by simp, ?_⟩
    · rw [hnil]
      exact List.Forall₂.nil
    · rw [hcov, Reass.Seg.span, hoff]
      simp only [Reass.cover_nil, Set.union_empty]
      rw [Set.Ico_union_Ico_eq_Ico h0 (by omega)]
  · rw [TCP_REASS, if_neg hfast]
    have hins := insertSeg_abs ht hsegs ⟨hn, hn'⟩ fun g hg => ⟨(hbeh g hg).le, hnear g hg⟩
    rw [tcpReass]
    cases hr : Reass.insert g k with
    | none =>
      -- the segment brings nothing new
      rw [hr] at hins
      have hdrop : insertSeg ti x.tp.segs = none := by
        cases hi : insertSeg ti x.tp.segs with
        | none => rfl
        | some l' =>
          rw [hi] at hins
          cases hins
      simp only [hdrop]
      refine ⟨n, k, ⟨hrcv, hsegs, ⟨gs, hrun⟩, hb, hstate, hmore⟩, h0, hsort, hcut, hbeh, hnear, ?_⟩
      rw [hcov, Set.union_assoc, Set.union_eq_left.mpr (Reass.insert_none hr)]
    | some k' =>
      rw [hr] at hins
      rcases Reass.insert_some hsort hr with ⟨hsort', hcov', htails⟩
      have hnear' : ∀ q ∈ k', Near n q := by
        intro q hq
        rcases htails q hq with ⟨p, hp, htail⟩
        have := htail.off_le
        rw [Near, htail.fin_eq]
        rcases List.mem_cons.mp hp with rfl | hp
        · exact ⟨by omega, hn'⟩
        · have := hbeh p hp
          exact ⟨by omega, hnear p hp⟩
      have hcut' : ∀ q ∈ k', Reass.Cut s q := by
        intro q hq
        rcases htails q hq with ⟨p, hp, htail⟩
        rcases List.mem_cons.mp hp with rfl | hp
        · exact htail.cut hc
        · exact htail.cut (hcut p hp)
      cases hi : insertSeg ti x.tp.segs with
      | none =>
        rw [hi] at hins
        cases hins
      | some l' =>
        rw [hi] at hins
        have hsegs' : List.Forall₂ (Abs r0) l' k' := by
          cases hins with
          | some hl => exact hl
        rcases Reass.deliver_spec hsort' (fun q hq => (hnear' q hq).1) hcut' with
          ⟨hle, hdata, hbehind, hso, hdcov⟩
        have hst : Stands r0 n k' _ { x with tp.segs := l' } :=
          ⟨hrcv, hsegs', ⟨gs, hrun⟩, hb, hstate, hmore⟩
        replace hst := (hst.present hnear').ackNow
        rw [hdata, List.append_assoc, Reass.slice_append s h0 hle] at hst
        refine ⟨_, _, hst, by omega, hso, fun q hq => hcut' q (hbehind q hq).1,
          fun q hq => (hbehind q hq).2, ?_, ?_⟩
        · intro q hq
          have := (hnear' q (hbehind q hq).1).2
          omega
        · rw [hcov, Set.union_assoc, ← hcov', hdcov, ← Set.union_assoc,
            Set.Ico_union_Ico_eq_Ico h0 hle]

/-- Segments of the stream `s` arrive at the connection `x₀`, which expects the stream's first
byte, and lead to `x`. They have brought the offsets `C`; each is in the window of the
connection when it arrives, which is shorter than half the sequence space. -/
inductive Arrived (s : ℤ → UInt8) (r0 : Seq) (x₀ : Conn) : Conn → Set ℤ → Prop
  | init : Arrived s r0 x₀ x₀ ∅
  | seg {x : Conn} {C : Set ℤ} {n : ℤ} {ti : Tcpiphdr} {g : Reass.Seg UInt8 Unit} :
      Arrived s r0 x₀ x C → IsLeast {m | 0 ≤ m ∧ m ∉ C} n → Abs r0 ti g → Reass.Cut s g →
      n ≤ g.off → g.fin < n + 2 ^ 31 → Arrived s r0 x₀ (TCP_REASS x ti).2 (C ∪ g.span)

/-- An established connection with an empty queue, whose receive buffer takes more. -/
structure Fresh (r0 : Seq) (x₀ : Conn) : Prop where
  rcvNxt : x₀.tp.rcvNxt = r0
  segs : x₀.tp.segs = []
  run : ∃ gs, Sockbuf.Run x₀.so.soRcv gs
  state : x₀.tp.tState = .established
  more : x₀.so.cantRcvMore = false

theorem Arrived.inv {x₀ : Conn} (h : Arrived s r0 x₀ x C) (h₀ : Fresh r0 x₀) :
    ∃ n k, Inv r0 s (Sockbuf.contents x₀.so.soRcv) C x n k := by
  induction h with
  | init =>
    refine ⟨0, [], ⟨?_, ?_, h₀.run, ?_, h₀.state, h₀.more⟩, le_rfl, List.Pairwise.nil, by simp,
      by simp, by simp, by simp⟩
    · rw [h₀.rcvNxt]
      simp [seqAdd]
    · rw [h₀.segs]
      exact List.Forall₂.nil
    · rw [Reass.slice_self, List.append_nil]
  | seg _ hleast ht hc hn hn' ih =>
    rcases ih with ⟨m, k, hinv⟩
    rw [hleast.unique hinv.isLeast] at hn hn'
    exact hinv.step ht hc hn hn'

/-- Whatever the order in which segments of a stream arrive: the connection expects the first
byte that has not arrived, its receive buffer has got exactly the bytes before that one, and
its queue is in order and without overlap. -/
theorem tcpReass_stream {x₀ : Conn} (h₀ : Fresh r0 x₀) (h : Arrived s r0 x₀ x C) :
    ∃ n, IsLeast {m | 0 ≤ m ∧ m ∉ C} n ∧ x.tp.rcvNxt = seqAdd r0 n ∧
      Sockbuf.contents x.so.soRcv = Sockbuf.contents x₀.so.soRcv ++ Reass.slice s 0 n ∧
      ∃ k, List.Forall₂ (Abs r0) x.tp.segs k ∧ Reass.Sorted k ∧
        ∀ g ∈ k, n < g.off ∧ g.fin < n + 2 ^ 31 ∧ Reass.Cut s g := by
  rcases h.inv h₀ with ⟨n, k, hinv⟩
  exact ⟨n, hinv.isLeast, hinv.stands.rcvNxt, hinv.stands.contents, k, hinv.stands.segs,
    hinv.sorted, fun g hg => ⟨hinv.behind g hg, hinv.near g hg, hinv.cut g hg⟩⟩

end Streams

/-! ## A connection whose queue fills a gap -/

/-- An established connection with nothing sent or received, expecting `r`; `shut` is
`SS_CANTRCVMORE`. -/
def idle (r : Seq) (shut : Bool) : Conn where
  tp := { newtcpcb with tState := .established, sndWnd := 4096, rcvNxt := r, rcvAdv := seqAdd r 4096 }
  so := {
    soRcv := ⟨0, 4096, 0, 8192, .null, false⟩
    soSnd := ⟨0, 4096, 0, 8192, .null, false⟩
    cantRcvMore := shut }

/-- A stream that counts from one. -/
def counting (i : ℤ) : UInt8 := UInt8.ofNat (i.toNat + 1)

/-- The byte of that stream at the offset `i`, in a segment of its own. -/
def byteAt (r : Seq) (i : ℤ) : Tcpiphdr :=
  ⟨seqAdd r i, 0, 1, ⟨false, false, false, false, true, false⟩, 4096, 0, [dataBuf [counting i]]⟩

/-- The second byte, then the first, behind the last sequence number. -/
def swapped (shut : Bool) : Conn :=
  (TCP_REASS (TCP_REASS (idle (-1) shut) (byteAt (-1) 1)).2 (byteAt (-1) 0)).2

theorem swapped_arrived (shut : Bool) : Arrived counting (-1) (idle (-1) shut) (swapped shut)
    (∅ ∪ Set.Ico 1 2 ∪ Set.Ico 0 1) := by
  have hone (i : ℤ) : Abs (-1) (byteAt (-1) i) ⟨i, [counting i], ()⟩ := ⟨rfl, rfl, rfl⟩
  have hcut (i : ℤ) : Reass.Cut counting ⟨i, [counting i], ()⟩ := by
    simp [Reass.Cut, Reass.slice, Reass.Seg.fin]
  have hzero : IsLeast {m : ℤ | 0 ≤ m ∧ m ∉ (∅ : Set ℤ)} 0 := by
    constructor
    · simp
    · exact fun m hm => hm.1
  have hzero' : IsLeast {m : ℤ | 0 ≤ m ∧ m ∉ (∅ ∪ Set.Ico 1 2 : Set ℤ)} 0 := by
    constructor
    · simp
    · exact fun m hm => hm.1
  have hsecond : Arrived counting (-1) (idle (-1) shut)
      (TCP_REASS (idle (-1) shut) (byteAt (-1) 1)).2 (∅ ∪ Set.Ico 1 2) :=
    Arrived.seg Arrived.init hzero (hone 1) (hcut 1) (by decide) (by decide)
  exact Arrived.seg hsecond hzero' (hone 0) (hcut 0) (by decide) (by decide)

theorem idle_fresh : Fresh (-1) (idle (-1) false) :=
  ⟨rfl, rfl, ⟨_, Sockbuf.Run.init rfl rfl rfl rfl⟩, rfl, rfl⟩

/-- The two bytes are in the buffer in the order of the stream. -/
theorem tcpReass_stream_swapped : ∃ n, (swapped false).tp.rcvNxt = seqAdd (-1) n ∧
    Sockbuf.contents (swapped false).so.soRcv = [] ++ Reass.slice counting 0 n := by
  rcases tcpReass_stream idle_fresh (swapped_arrived false) with ⟨n, -, hrcv, hb, -⟩
  exact ⟨n, hrcv, hb⟩

/-- Once the socket takes no more data, what comes out of the queue is thrown away. -/
theorem tcpReass_shut : Arrived counting (-1) (idle (-1) true) (swapped true)
      (∅ ∪ Set.Ico 1 2 ∪ Set.Ico 0 1) ∧
    (swapped true).tp.rcvNxt = seqAdd (-1) 2 ∧ Sockbuf.contents (swapped true).so.soRcv = [] ∧
    Reass.slice counting 0 2 = [1, 2] := by
  refine ⟨swapped_arrived true, ?_, ?_, ?_⟩ <;> decide

end Tcp
