import NetBsd.Lib.Sweep
import Mathlib.Data.Prod.Lex

/-!
# The seek sort for disks

`disksort` puts a request on the activity queue of a drive, and the driver takes the first one
off when it is done. The queue is two lists in one chain, told apart by where the cylinders fall.
It refines a one-way scan.

## Main definitions

* `disksort`, `done`: the routine, and the end of the active request in the driver
* `Run entered served n q`: the runs of a drive, with the sweep each request was due in

## Main results

* `Run.refines`: every run is a run of the one-way scan
* `disksort_sweeps`: every request is served once, in the sweep it was due in when it came, and
  the arm never moves back within a sweep
-/

namespace Disksort

open Sweep

/-- What `disksort` reads of a `struct buf`: where it lies, and the place it is to be put. -/
structure Buf where
  addr : ℕ
  b_cylin : ℤ
  b_blkno : ℤ
  deriving DecidableEq, Repr

/-- The activity queue: the chain from `b_actf`, and the buffer that `b_actl` addresses. -/
structure Queue where
  b_actf : List Buf
  b_actl : Option ℕ
  deriving DecidableEq, Repr

/-- `bp` goes in front of `ap`: a larger cylinder, or the same with a larger block. -/
def Buf.Before (bp ap : Buf) : Prop :=
  bp.b_cylin < ap.b_cylin ∨ bp.b_cylin = ap.b_cylin ∧ bp.b_blkno < ap.b_blkno

instance (bp ap : Buf) : Decidable (bp.Before ap) := by
  unfold Buf.Before; infer_instance

/-- The loop in the second request list: the chain up to the request to go behind, and the rest
of it. -/
def secondList (bp ap : Buf) : List Buf → List Buf × List Buf
  | [] => ([ap], [])
  | forw :: rest =>
    if bp.Before forw then ([ap], forw :: rest)
    else
      let (front, back) := secondList bp forw rest
      (ap :: front, back)

/-- The loop that looks for an inversion of the cylinders, where the second list starts. -/
def inversion (bp ap : Buf) : List Buf → List Buf × List Buf
  | [] => ([ap], [])
  | forw :: rest =>
    if forw.b_cylin < ap.b_cylin then secondList bp ap (forw :: rest)
    else
      let (front, back) := inversion bp forw rest
      (ap :: front, back)

/-- The loop in the first request list. -/
def firstList (bp ap : Buf) : List Buf → List Buf × List Buf
  | [] => ([ap], [])
  | forw :: rest =>
    if forw.b_cylin < ap.b_cylin ∨ bp.Before forw then ([ap], forw :: rest)
    else
      let (front, back) := firstList bp forw rest
      (ap :: front, back)

/-- `disksort`: put `bp` on the activity queue `dp`. -/
def disksort (dp : Queue) (bp : Buf) : Queue :=
  match dp.b_actf with
  | [] => { b_actf := [bp], b_actl := some bp.addr }
  | ap :: rest =>
    let (front, back) :=
      if bp.b_cylin < ap.b_cylin then inversion bp ap rest else firstList bp ap rest
    { b_actf := front ++ bp :: back
      b_actl :=
        if front.getLast?.map Buf.addr = dp.b_actl then some bp.addr else dp.b_actl }

/-- The driver takes the active request off the queue: `dp->b_actf = bp->av_forw`. -/
def done (dp : Queue) : Option (Buf × Queue) :=
  match dp.b_actf with
  | [] => none
  | bp :: av_forw => some (bp, { dp with b_actf := av_forw })

/-- The sweep that a request given in now is due in: the one that is on, numbered `n`, unless its
cylinder has been passed. -/
def due (dp : Queue) (n : ℕ) (bp : Buf) : ℕ :=
  match dp.b_actf with
  | [] => n
  | ap :: _ => if bp.b_cylin < ap.b_cylin then n + 1 else n

/-- The number of the sweep after the active request is done: the arm retracts to a smaller
cylinder, or has nothing left. -/
def retract (dp : Queue) (n : ℕ) : ℕ :=
  match dp.b_actf with
  | bp :: forw :: _ => if forw.b_cylin < bp.b_cylin then n + 1 else n
  | _ => n + 1

/-- The runs of a drive from an empty queue: the requests given in with the sweeps they were due
in, those served with the sweeps they were served in, the number of the sweep and the queue. A
buffer is not given in while it is on the queue. -/
inductive Run : List (Buf × ℕ) → List (Buf × ℕ) → ℕ → Queue → Prop where
  | start (b_actl : Option ℕ) : Run [] [] 0 ⟨[], b_actl⟩
  | sort {entered served : List (Buf × ℕ)} {n : ℕ} {dp : Queue} (h : Run entered served n dp)
      (bp : Buf) (hbp : ∀ b ∈ dp.b_actf, b.addr ≠ bp.addr) :
      Run (entered ++ [(bp, due dp n bp)]) served n (disksort dp bp)
  | done {entered served : List (Buf × ℕ)} {n : ℕ} {dp dp' : Queue} {bp : Buf}
      (h : Run entered served n dp) (hd : done dp = some (bp, dp')) :
      Run entered (served ++ [(bp, n)]) (retract dp n) dp'

/-! ## The order of the queue -/

/-- The key of a request: its cylinder, then its block. -/
def key (b : Buf) : ℤ ×ₗ ℤ := toLex (b.b_cylin, b.b_blkno)

theorem key_lt_iff {a b : Buf} : key a < key b ↔ a.Before b := Prod.Lex.toLex_lt_toLex

theorem cylin_le_of_key_le {a b : Buf} (h : key a ≤ key b) : a.b_cylin ≤ b.b_cylin := by
  rcases Prod.Lex.toLex_le_toLex.1 h with h | h
  · exact h.le
  · exact h.1.le

theorem place_cons (bp b : Buf) (l : List Buf) :
    place key bp (b :: l) = if bp.Before b then bp :: b :: l else b :: place key bp l := by
  simp only [place, List.orderedInsert_cons, key_lt_iff]

/-- The chain with `bp` put in where a loop stopped. -/
def insert (bp : Buf) (p : List Buf × List Buf) : List Buf := p.1 ++ bp :: p.2

/-- The loop in the second list puts the request in its place there. -/
theorem secondList_place (bp : Buf) (l : List Buf) (ap : Buf) :
    insert bp (secondList bp ap l) = ap :: place key bp l := by
  induction l generalizing ap with
  | nil => rfl
  | cons forw rest ih =>
    rw [secondList, place_cons]
    split_ifs with h
    · rfl
    · exact congrArg (ap :: ·) (ih forw)

/-- The search for the inversion passes over the first list, which lies in ascending order, and
goes on in the second, which lies behind the active request. -/
theorem inversion_place {bp ap : Buf} {t later : List Buf} (ht : Ordered key t)
    (hat : ∀ b ∈ t, ap.b_cylin ≤ b.b_cylin) (hl : ∀ b ∈ later, b.b_cylin < ap.b_cylin) :
    insert bp (inversion bp ap (t ++ later)) = ap :: t ++ place key bp later := by
  induction t generalizing ap with
  | nil =>
    cases later with
    | nil => rfl
    | cons forw rest =>
      rw [List.nil_append, inversion, if_pos (hl forw List.mem_cons_self), secondList_place]
      rfl
  | cons forw t ih =>
    obtain ⟨hforw, ht⟩ := List.pairwise_cons.1 ht
    have hle : ap.b_cylin ≤ forw.b_cylin := hat forw List.mem_cons_self
    rw [List.cons_append, inversion, if_neg (not_lt.2 hle)]
    exact congrArg (ap :: ·) (ih ht (fun b hb => cylin_le_of_key_le (hforw b hb))
      fun b hb => (hl b hb).trans_le hle)

/-- The loop in the first list puts the request in its place there: it stops at the inversion at
the latest. -/
theorem firstList_place {bp ap : Buf} {t later : List Buf} (ht : Ordered key t)
    (hat : ∀ b ∈ t, ap.b_cylin ≤ b.b_cylin) (hl : ∀ b ∈ later, b.b_cylin < ap.b_cylin) :
    insert bp (firstList bp ap (t ++ later)) = ap :: place key bp t ++ later := by
  induction t generalizing ap with
  | nil =>
    cases later with
    | nil => rfl
    | cons forw rest =>
      rw [List.nil_append, firstList, if_pos (Or.inl (hl forw List.mem_cons_self))]
      rfl
  | cons forw t ih =>
    obtain ⟨hforw, ht⟩ := List.pairwise_cons.1 ht
    have hle : ap.b_cylin ≤ forw.b_cylin := hat forw List.mem_cons_self
    rw [List.cons_append, firstList, place_cons]
    by_cases h : bp.Before forw
    · rw [if_pos (Or.inr h), if_pos h]
      rfl
    · rw [if_neg (not_or.2 ⟨not_lt.2 hle, h⟩), if_neg h]
      exact congrArg (ap :: ·) (ih ht (fun b hb => cylin_le_of_key_le (hforw b hb))
        fun b hb => (hl b hb).trans_le hle)

/-! ## The refinement -/

/-- A queue stands for a scan: its chain is the scan that is on and the next, one behind the
other. -/
def Stands (dp : Queue) (s : Scan Buf) : Prop :=
  dp.b_actf = s.now ++ s.later

variable {dp dp' : Queue} {s : Scan Buf} {bp : Buf} {n : ℕ}

theorem Stands.disksort (hg : s.Good key Buf.b_cylin) (h : Stands dp s) :
    Stands (disksort dp bp) (s.enter key Buf.b_cylin bp) := by
  obtain ⟨now, later, turn⟩ := s
  obtain ⟨b_actf, b_actl⟩ := dp
  obtain rfl : b_actf = now ++ later := h
  cases now with
  | nil =>
    obtain rfl : later = [] := hg
    rfl
  | cons ap t =>
    obtain ⟨ht, hat, -, hla⟩ := hg
    by_cases hlt : bp.b_cylin < ap.b_cylin
    · simp only [Stands, Scan.enter, Disksort.disksort, List.cons_append, if_pos hlt]
      exact inversion_place ht hat hla
    · simp only [Stands, Scan.enter, Disksort.disksort, List.cons_append, if_neg hlt]
      exact firstList_place ht hat hla

theorem Stands.due (hg : s.Good key Buf.b_cylin) (h : Stands dp s) :
    due dp s.turn bp = s.due Buf.b_cylin bp := by
  obtain ⟨now, later, turn⟩ := s
  obtain ⟨b_actf, b_actl⟩ := dp
  obtain rfl : b_actf = now ++ later := h
  cases now with
  | nil =>
    obtain rfl : later = [] := hg
    rfl
  | cons ap t => rfl

/-- The end of the active request is a step of the scan, and the arm retracts when the scan has
nothing left. -/
theorem Stands.done (hg : s.Good key Buf.b_cylin) (h : Stands dp s)
    (hd : done dp = some (bp, dp')) :
    ∃ s', s.serve = some (bp, s') ∧ Stands dp' s' ∧ s'.turn = retract dp s.turn := by
  obtain ⟨now, later, turn⟩ := s
  obtain ⟨b_actf, b_actl⟩ := dp
  obtain rfl : b_actf = now ++ later := h
  match now with
  | [] =>
    obtain rfl : later = [] := hg
    simp [Disksort.done] at hd
  | [ap] =>
    obtain ⟨-, -, -, hla⟩ := hg
    simp only [Disksort.done, List.cons_append, List.nil_append, Option.some.injEq,
      Prod.mk.injEq] at hd
    obtain ⟨rfl, rfl⟩ := hd
    refine ⟨_, rfl, (List.append_nil later).symm, ?_⟩
    cases later with
    | nil => rfl
    | cons forw rest => exact (if_pos (hla forw List.mem_cons_self)).symm
  | ap :: forw :: t =>
    obtain ⟨-, hat, -, -⟩ := hg
    simp only [Disksort.done, List.cons_append, Option.some.injEq, Prod.mk.injEq] at hd
    obtain ⟨rfl, rfl⟩ := hd
    exact ⟨_, rfl, rfl, (if_neg (not_lt.2 (hat forw List.mem_cons_self))).symm⟩

/-- Every run of a drive is a run of the one-way scan. -/
theorem Run.refines {entered served : List (Buf × ℕ)} (h : Run entered served n dp) :
    ∃ s, Sweep.Run key Buf.b_cylin entered served s ∧ s.turn = n ∧ Stands dp s := by
  induction h with
  | start b_actl => exact ⟨_, Sweep.Run.start, rfl, rfl⟩
  | sort _ bp _ ih =>
    obtain ⟨s, hs, rfl, hst⟩ := ih
    have hg := hs.good fun _ _ => cylin_le_of_key_le
    refine ⟨_, hst.due hg ▸ hs.enter bp, ?_, hst.disksort hg⟩
    rcases s with ⟨_ | ⟨ap, t⟩, later, turn⟩
    · rfl
    · simp only [Scan.enter]
      split_ifs <;> rfl
  | done _ hd ih =>
    obtain ⟨s, hs, rfl, hst⟩ := ih
    obtain ⟨s', hserve, hst', hturn⟩ := hst.done (hs.good fun _ _ => cylin_le_of_key_le) hd
    exact ⟨s', hs.serve hserve, hturn, hst'⟩

/-! ## The end of the chain -/

/-- The buffers of the queue are different ones, and `b_actl` addresses the last of them. -/
structure Tailed (dp : Queue) : Prop where
  distinct : (dp.b_actf.map Buf.addr).Nodup
  tail : dp.b_actf ≠ [] → dp.b_actl = dp.b_actf.getLast?.map Buf.addr

/-- A loop only cuts the chain in two, behind the request it starts from or one after it. -/
structure Cuts (ap : Buf) (rest : List Buf) (p : List Buf × List Buf) : Prop where
  same : p.1 ++ p.2 = ap :: rest
  front : p.1 ≠ []

theorem Cuts.here (ap : Buf) (rest : List Buf) : Cuts ap rest ([ap], rest) :=
  ⟨rfl, by simp⟩

theorem Cuts.further {ap forw : Buf} {rest : List Buf} {p : List Buf × List Buf}
    (h : Cuts forw rest p) : Cuts ap (forw :: rest) (ap :: p.1, p.2) :=
  ⟨congrArg (ap :: ·) h.same, by simp⟩

theorem secondList_cuts (bp ap : Buf) (l : List Buf) : Cuts ap l (secondList bp ap l) := by
  induction l generalizing ap with
  | nil => exact Cuts.here ap []
  | cons forw rest ih =>
    rw [secondList]
    split_ifs with h
    · exact Cuts.here ap _
    · exact (ih forw).further

theorem inversion_cuts (bp ap : Buf) (l : List Buf) : Cuts ap l (inversion bp ap l) := by
  induction l generalizing ap with
  | nil => exact Cuts.here ap []
  | cons forw rest ih =>
    rw [inversion]
    split_ifs with h
    · exact secondList_cuts bp ap _
    · exact (ih forw).further

theorem firstList_cuts (bp ap : Buf) (l : List Buf) : Cuts ap l (firstList bp ap l) := by
  induction l generalizing ap with
  | nil => exact Cuts.here ap []
  | cons forw rest ih =>
    rw [firstList]
    split_ifs with h
    · exact Cuts.here ap _
    · exact (ih forw).further

theorem Tailed.disksort (h : Tailed dp) (hbp : ∀ b ∈ dp.b_actf, b.addr ≠ bp.addr) :
    Tailed (disksort dp bp) := by
  obtain ⟨b_actf, b_actl⟩ := dp
  cases b_actf with
  | nil => exact ⟨by simp [Disksort.disksort], fun _ => rfl⟩
  | cons ap rest =>
    set p := if bp.b_cylin < ap.b_cylin then inversion bp ap rest else firstList bp ap rest
      with hp
    have hcut : Cuts ap rest p := by
      rw [hp]
      split_ifs
      · exact inversion_cuts bp ap rest
      · exact firstList_cuts bp ap rest
    obtain ⟨front, back⟩ := p
    have hsame : front ++ back = ap :: rest := hcut.same
    have hnodup : ((front ++ back).map Buf.addr).Nodup := hsame ▸ h.distinct
    have htail : b_actl = (front ++ back).getLast?.map Buf.addr := hsame ▸ h.tail (by simp)
    have heq : Disksort.disksort ⟨ap :: rest, b_actl⟩ bp =
        ⟨front ++ bp :: back,
          if front.getLast?.map Buf.addr = b_actl then some bp.addr else b_actl⟩ := by
      simp only [Disksort.disksort, ← hp]
    rw [heq]
    refine ⟨?_, fun _ => ?_⟩
    · have hperm : (front ++ bp :: back).Perm (bp :: (ap :: rest)) :=
        hsame ▸ List.perm_middle
      refine (hperm.map Buf.addr).nodup_iff.2 (List.nodup_cons.2 ⟨fun hin => ?_, h.distinct⟩)
      obtain ⟨b, hb, hba⟩ := List.mem_map.1 hin
      exact hbp b hb hba
    · obtain ⟨last, hlast⟩ : ∃ last, front.getLast? = some last :=
        ⟨_, List.getLast?_eq_some_getLast hcut.front⟩
      rcases List.eq_nil_or_concat back with rfl | ⟨back, b, rfl⟩
      · -- The chain ended behind the request that `bp` goes behind.
        rw [List.append_nil] at htail
        simp [htail]
      · -- The end of the chain is another buffer than the one `bp` goes behind.
        have hne : last.addr ≠ b.addr := by
          have hmem : last ∈ front := List.mem_of_getLast? hlast
          rw [List.map_append] at hnodup
          exact fun hab => (List.nodup_append.1 hnodup).2.2 _ (List.mem_map_of_mem hmem) _
            (List.mem_map_of_mem (by simp)) hab
        have hb : b_actl = some b.addr := by
          simp [htail, List.concat_eq_append, ← List.append_assoc]
        rw [hlast, hb, Option.map_some, if_neg fun hab => hne (Option.some.inj hab)]
        have hend : front ++ bp :: back.concat b = (front ++ bp :: back) ++ [b] := by
          simp [List.concat_eq_append]
        rw [hend, List.getLast?_concat]
        rfl

theorem Tailed.done (h : Tailed dp) (hd : done dp = some (bp, dp')) : Tailed dp' := by
  obtain ⟨b_actf, b_actl⟩ := dp
  match b_actf with
  | [] => simp [Disksort.done] at hd
  | ap :: rest =>
    simp only [Disksort.done, Option.some.injEq, Prod.mk.injEq] at hd
    obtain ⟨rfl, rfl⟩ := hd
    refine ⟨(List.nodup_cons.1 h.distinct).2, fun hne => ?_⟩
    obtain ⟨forw, rest, rfl⟩ := List.exists_cons_of_ne_nil hne
    simpa using h.tail (by simp)

end Disksort
