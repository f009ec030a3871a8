import NetBsd.Kern.Soreceive
import NetBsd.Kern.SockbufRuns

/-!
# Runs of calls on a receive buffer

Calls of `soreceive` and the protocol's input, one step after the other. The records of the buffer
are a queue: every byte that is appended is in it until it leaves at the front. This does not hold of
a call that waits for all of its data while a record is behind the one it has emptied, and of
out-of-band data put in front of an mbuf that is being copied.

## Main definitions

* `PcOk`: what a call needs of the records
* `Holds`: the buffer holds the records of a queue
* `Kept`: the steps after which it does

## Main results

* `moved_goes`, `start_goes`, `input_goes`: what a step does to the queue
* `soreceive_keeps`: runs of kept steps
-/

namespace Soreceive

open Sockbuf Mbuf RecordQueue

variable {pr : Proto} {so : Sock} {s s' : St} {a : Args} {c : Locals} {r : Result} {m : Bool}
  {np : Chain} {rs : List (List Mbuf)} {q : List (List UInt8)} {len : ℕ}

/-! ## The queue -/

/-- A call that takes what it copies: it is at the first mbuf of the buffer. -/
structure Front (c : Locals) : Prop where
  peek : c.args.peek = false
  recno : c.recno = 0
  pos : c.pos = 0
  moff : c.moff = 0

/-- A call that takes what it copies copies from the first mbuf; one that waits has nothing
behind. -/
def PcOk (rs : List (List Mbuf)) : Pc → Prop
  | .copying c len => c.args.peek = false →
      Front c ∧ ∃ m r rest, rs = (m :: r) :: rest ∧ len ≤ m.data.length
  | .waiting c np => c.args.peek = false → Front c ∧ np = .null
  | _ => True

/-- The buffer holds the records of the queue. -/
def Holds (s : St) (q : List (List UInt8)) : Prop :=
  ∃ rs, Rep s.so.rcv rs ∧ rs.map bytes = q ∧ PcOk rs s.pc

/-- A step takes the queue to one that the buffer holds then. -/
def Goes (q : List (List UInt8)) (r : St × Log) : Prop := ∃ q', Accepts q r.2 q' ∧ Holds r.1 q'

/-- No call that takes what it copies waits while a record is behind. -/
def Clear (s : St) : Prop := ∀ c np, s.pc = .waiting c np → c.args.peek = false → np = .null

theorem Goes.log {τ : Log} {q' : List (List UInt8)} {r : St × Log} (hτ : Accepts q τ q')
    (h : Goes q' r) : Goes q (r.1, τ ++ r.2) := by
  obtain ⟨q'', hacc, hh⟩ := h
  exact ⟨q'', hτ.append hacc, hh⟩

/-! ## Peeking -/

/-- What a step of a call that peeks leaves as it was. -/
structure Quiet (so : Sock) (r : St × Log) : Prop where
  so : ∃ b, r.1.so = { so with rcvatmark := b }
  log : r.2 = []
  pc : ∀ rs, PcOk rs r.1.pc

theorem Quiet.goes {r : St × Log} (h : Quiet so r) (hrep : Rep so.rcv rs) :
    Goes (rs.map bytes) r := by
  obtain ⟨⟨b, hso⟩, hlog, hpc⟩ := h
  refine ⟨rs.map bytes, ?_, rs, ?_, rfl, hpc rs⟩
  · rw [hlog]
    exact .nil _
  · rw [hso]
    exact hrep

theorem finish_quiet (ha : a.peek = true) (r : Result) (m : Bool) (np : Chain) :
    Quiet so (finish pr so a r m np) := by
  rw [finish, if_pos ha]
  exact ⟨⟨so.rcvatmark, rfl⟩, rfl, fun _ => trivial⟩

theorem loopHead_quiet (hc : c.args.peek = true) (m : Bool) (np : Chain) :
    Quiet so (loopHead pr so c m np) := by
  rw [loopHead]
  split
  · split_ifs
    · refine ⟨⟨false, rfl⟩, rfl, ?_⟩
      intro rs hpeek
      exact absurd hc (ne_true_of_eq_false hpeek)
    · exact finish_quiet hc ..
  · exact finish_quiet hc ..

theorem waitHead_quiet (hc : c.args.peek = true) (m : Bool) (np : Chain) :
    Quiet so (waitHead pr so c m np) := by
  rw [waitHead]
  split_ifs
  · refine ⟨⟨so.rcvatmark, rfl⟩, rfl, ?_⟩
    intro rs hpeek
    exact absurd hc (ne_true_of_eq_false hpeek)
  · exact loopHead_quiet hc ..

theorem afterMove_quiet (hc : c.args.peek = true) (len : ℕ) (m : Bool) (np : Chain) :
    Quiet so (afterMove pr so c len m np) := by
  have hc' : ({ c with offset := c.offset + len } : Locals).args.peek = true := hc
  rw [afterMove, if_neg (by simp [hc])]
  dsimp only
  split_ifs
  · exact finish_quiet hc ..
  · exact waitHead_quiet hc' ..
  · exact finish_quiet hc ..
  · exact waitHead_quiet hc ..

theorem moved_quiet (hc : c.args.peek = true) (len : ℕ) (fail : Option ℕ) :
    Quiet so (moved pr so c len fail) := by
  rw [moved]
  split
  · exact ⟨⟨so.rcvatmark, rfl⟩, rfl, fun _ => trivial⟩
  next mb next np _ =>
    dsimp only
    rw [if_pos hc, if_pos hc]
    split_ifs
    · apply afterMove_quiet
      exact hc
    · apply afterMove_quiet
      exact hc

/-! ## The end of a call -/

/-- A call that has emptied the first record has cut it off: `nextrecord` leads to the others. -/
def Pending (so : Sock) (m : Bool) (np : Chain) (rs : List (List Mbuf)) : Prop :=
  if m then rs ≠ [] ∧ Rep so.rcv rs
  else so.rcv.sbMb = .null ∧ np = ofRecords rs ∧ Rep { so.rcv with sbMb := np } rs

theorem Pending.of_rep (hne : rs ≠ []) (h : Rep so.rcv rs) : Pending so true np rs := ⟨hne, h⟩

theorem Pending.of_rcv (h : Pending so m np rs) {so' : Sock} (hrcv : so'.rcv = so.rcv) :
    Pending so' m np rs := by
  rw [Pending, hrcv]
  exact h

theorem mbufs_ofList (l : List Mbuf) : mbufs (.ofList l) = l := by
  induction l with
  | nil => rfl
  | cons m l ih => rw [Chain.ofList, mbufs, ih]

theorem mbufs_attach {l : List Mbuf} (hl : l ≠ []) (np : Chain) : mbufs (attach np l) = l := by
  cases l with
  | nil => exact absurd rfl hl
  | cons m l => rw [attach, mbufs, mbufs_ofList]

theorem finish_goes (ha : a.peek = false) (h : Pending so m np rs) (r : Result) :
    Goes (rs.map bytes) (finish pr so a r m np) := by
  have hpeek : ¬ a.peek = true := ne_true_of_eq_false ha
  rw [finish, if_neg hpeek]
  cases m with
  | false => exact ⟨_, .nil _, rs, h.2.2, rfl, trivial⟩
  | true =>
    obtain ⟨hne, hrep⟩ := h
    rw [if_neg (by simp)]
    by_cases hatomic : pr.atomic = true
    · rw [if_pos hatomic]
      cases rs with
      | nil => exact absurd rfl hne
      | cons k rs =>
        have hk : k ≠ [] := hrep.ne k List.mem_cons_self
        refine ⟨rs.map bytes, ?_, rs, sbdroprecord_rep hrep, rfl, trivial⟩
        rw [hrep.mb, ofRecords, mbufs_attach hk]
        have hout := Step.out Fate.truncated (bytes k) [] (rs.map bytes)
        rw [List.append_nil] at hout
        exact .cons hout (Step.done _).accepts
    · rw [if_neg hatomic]
      exact ⟨_, .nil _, rs, hrep, rfl, trivial⟩

/-! ## The loop over the data -/

theorem lenOf_le (so : Sock) (c : Locals) (mb : Mbuf) :
    lenOf so c mb ≤ mb.data.length - c.moff := by
  rw [lenOf]
  split_ifs <;> omega

theorem locate_front (hc : Front c) (so : Sock) : locate so c.recno c.pos = so.rcv.sbMb := by
  rw [locate, hc.recno, hc.pos]
  rfl

theorem loopHead_goes (hc : Front c) (h : Pending so m np rs) :
    Goes (rs.map bytes) (loopHead pr so c m np) := by
  rw [loopHead, locate_front hc]
  cases hm : m with
  | false =>
    rw [hm] at h
    have hnull : so.rcv.sbMb = .null := h.1
    rw [hnull]
    exact finish_goes hc.peek h _
  | true =>
    rw [hm] at h
    obtain ⟨hne, hrep⟩ := id h
    cases rs with
    | nil => exact absurd rfl hne
    | cons k rs =>
      cases k with
      | nil => exact absurd rfl (hrep.ne [] List.mem_cons_self)
      | cons mb k =>
        have hmb : so.rcv.sbMb = .mbuf mb (.ofList k) (ofRecords rs) := hrep.mb
        rw [hmb]
        dsimp only
        split_ifs
        · refine ⟨_, .nil _, _, hrep, rfl, ?_⟩
          intro _
          exact ⟨hc, mb, k, rs, rfl, (lenOf_le so c mb).trans (Nat.sub_le _ _)⟩
        · exact finish_goes hc.peek h _

theorem ofRecords_eq_null (hne : ∀ k ∈ rs, k ≠ []) (h : ofRecords rs = .null) : rs = [] := by
  cases rs with
  | nil => rfl
  | cons k rs =>
    cases k with
    | nil => exact absurd rfl (hne [] List.mem_cons_self)
    | cons mb k => exact nomatch h

theorem waitHead_goes (hc : Front c) (h : Pending so m np rs)
    (hclear : Clear (waitHead pr so c m np).1) : Goes (rs.map bytes) (waitHead pr so c m np) := by
  rw [waitHead] at hclear ⊢
  split_ifs at hclear ⊢ with hwait
  · have hm : m = false := hwait.2.1
    rw [hm] at h
    obtain ⟨hnull, hnp, hrep⟩ := h
    -- nothing is behind, so the buffer is empty
    have hbehind : np = .null := hclear c np rfl hc.peek
    have hrs : rs = [] := ofRecords_eq_null hrep.ne (hnp.symm.trans hbehind)
    have hrcv : { so.rcv with sbMb := np } = so.rcv := by rw [hbehind, ← hnull]
    rw [hrcv] at hrep
    exact ⟨_, .nil _, rs, hrep, rfl, fun _ => ⟨hc, hbehind⟩⟩
  · exact loopHead_goes hc h

theorem afterMove_goes (hc : Front c) (h : Pending so m np rs)
    (hclear : Clear (afterMove pr so c len m np).1) :
    Goes (rs.map bytes) (afterMove pr so c len m np) := by
  have hc' : Front { c with offset := c.offset + len } := ⟨hc.peek, hc.recno, hc.pos, hc.moff⟩
  rw [afterMove] at hclear ⊢
  dsimp only at hclear ⊢
  split_ifs at hclear ⊢
  · apply finish_goes hc.peek
    exact h.of_rcv rfl
  · apply finish_goes hc.peek
    exact h.of_rcv rfl
  · exact waitHead_goes hc (h.of_rcv rfl) hclear
  · exact finish_goes hc.peek h _
  · exact waitHead_goes hc' h hclear
  · exact finish_goes hc.peek h _
  · exact waitHead_goes hc h hclear

/-! ## A copy -/

@[simp] theorem setPkt_setPkt (np np' t : Chain) : setPkt np (setPkt np' t) = setPkt np t := by
  cases t <;> rfl

@[simp] theorem setPkt_eq_null (np t : Chain) : setPkt np t = .null ↔ t = .null := by
  cases t <;> simp [setPkt]

theorem setPkt_null (l : List Mbuf) : setPkt .null (.ofList l) = .ofList l := by
  cases l <;> rfl

theorem setPkt_ofList {l : List Mbuf} (hl : l ≠ []) (np : Chain) :
    setPkt np (.ofList l) = attach np l := by
  cases l with
  | nil => exact absurd rfl hl
  | cons m l => rfl

theorem ofList_ne_null (l : List Mbuf) : Chain.ofList l ≠ .null ↔ l ≠ [] := by
  cases l <;> simp [Chain.ofList]

/-- The records behind the mbufs `r` of the first one. -/
def cutFirst (r : List Mbuf) (rest : List (List Mbuf)) : List (List Mbuf) :=
  if r = [] then rest else r :: rest

/-- The mbufs `k` are freed from the front of the first record. -/
theorem cut_pending {k r : List Mbuf} {rest : List (List Mbuf)}
    (h : Rep so.rcv ((k ++ r) :: rest)) :
    Pending { so with
        rcv := { charge so.rcv (-lens k) (-stores k) with
          sbMb := setPkt (ofRecords rest) (.ofList r) } }
      (Chain.ofList r ≠ .null) (ofRecords rest) (cutFirst r rest) := by
  have hne := List.forall_mem_cons.mp h.ne
  have hcc := h.cc
  have hcnt := h.mbcnt
  simp only [List.flatten_cons, lens_append, stores_append] at hcc hcnt
  by_cases hr : r = []
  · subst hr
    rw [lens_nil, add_zero] at hcc
    rw [stores_nil, add_zero] at hcnt
    refine ⟨rfl, rfl, ⟨rfl, hne.2, ?_, ?_, h.lock⟩⟩
    · simp only [charge, cutFirst, if_true]
      omega
    · simp only [charge, cutFirst, if_true]
      omega
  · have hnull : decide (Chain.ofList r ≠ .null) = true := decide_eq_true ((ofList_ne_null r).mpr hr)
    rw [hnull, cutFirst, if_neg hr]
    refine ⟨List.cons_ne_nil _ _, ⟨?_, ?_, ?_, ?_, h.lock⟩⟩
    · exact setPkt_ofList hr _
    · exact List.forall_mem_cons.mpr ⟨hr, hne.2⟩
    · simp only [charge, List.flatten_cons, lens_append]
      omega
    · simp only [charge, List.flatten_cons, stores_append]
      omega

/-- The record is gone when nothing of it is left. -/
theorem cut_accepts {k r : List Mbuf} {rest : List (List Mbuf)} {τ : Log}
    (hτ : Accepts ((bytes k ++ bytes r) :: rest.map bytes) τ (bytes r :: rest.map bytes)) :
    Accepts (((k ++ r) :: rest).map bytes)
      (τ ++ if Chain.ofList r = .null then [.done] else []) ((cutFirst r rest).map bytes) := by
  rw [List.map_cons, bytes_append]
  apply hτ.append
  by_cases hr : r = []
  · subst hr
    exact (Step.done _).accepts
  · rw [if_neg ((ofList_ne_null r).mpr hr), cutFirst, if_neg hr]
    exact .nil _

theorem moveLog_accepts (a : Args) (b t : List UInt8) (q : List (List UInt8)) (len : ℕ)
    (fail : Option ℕ) : Accepts ((b ++ t) :: q) (moveLog a b len fail) (t :: q) := by
  have hsplit : b ++ t = b.take (reach a len fail) ++ (b.drop (reach a len fail) ++ t) := by
    rw [← List.append_assoc, List.take_append_drop]
  rw [hsplit]
  exact .cons (.out _ _ _ _) (Step.out _ _ _ _).accepts

theorem sbfree_eq (sb : Sockbuf) (mb : Mbuf) :
    sbfree sb mb = charge sb (-lens [mb]) (-stores [mb]) := by
  simp [sbfree, charge, sub_eq_add_neg]

/-- The front of the first mbuf is cut off. -/
theorem rep_cut {mb : Mbuf} {r : List Mbuf} {rest : List (List Mbuf)}
    (h : Rep so.rcv ((mb :: r) :: rest)) (hlen : len ≤ mb.data.length) :
    Rep { so.rcv with
        sbMb := ofRecords (({ mb with off := mb.off + len, data := mb.data.drop len } :: r) :: rest)
        sbCc := so.rcv.sbCc - len }
      (({ mb with off := mb.off + len, data := mb.data.drop len } :: r) :: rest) := by
  have hne := List.forall_mem_cons.mp h.ne
  have hcc := h.cc
  refine ⟨rfl, List.forall_mem_cons.mpr ⟨List.cons_ne_nil _ _, hne.2⟩, ?_, h.mbcnt, h.lock⟩
  simp only [List.flatten_cons, List.cons_append, lens_cons, Mbuf.len, List.length_drop] at hcc ⊢
  omega

theorem moved_goes {fail : Option ℕ} (hrep : Rep so.rcv rs) (hpc : PcOk rs (.copying c len))
    (hclear : Clear (moved pr so c len fail).1) :
    Goes (rs.map bytes) (moved pr so c len fail) := by
  by_cases hpeek : c.args.peek = true
  · exact (moved_quiet hpeek len fail).goes hrep
  have hpeek' := eq_false_of_ne_true hpeek
  obtain ⟨hc, mb, r, rest, rfl, hlen⟩ := hpc hpeek'
  have hmb : so.rcv.sbMb = .mbuf mb (.ofList r) (ofRecords rest) := hrep.mb
  rw [moved, locate_front hc, hmb] at hclear ⊢
  dsimp only at hclear ⊢
  rw [if_neg hpeek, if_neg hpeek, hc.moff, Nat.sub_zero] at hclear ⊢
  by_cases hwhole : len = mb.data.length
  · rw [if_pos hwhole] at hclear ⊢
    -- the mbuf is freed, and the record with it if it was the last one
    rw [sbfree_eq] at hclear ⊢
    have hcut : Rep so.rcv (([mb] ++ r) :: rest) := hrep
    have hlog := cut_accepts (k := [mb]) (r := r) (moveLog_accepts c.args
      (bytes [mb]) (bytes r) (rest.map bytes) len fail)
    rw [bytes_cons, bytes_nil, List.append_nil] at hlog
    apply Goes.log hlog
    exact afterMove_goes ⟨hpeek', rfl, rfl, hc.moff⟩ (cut_pending hcut) hclear
  · rw [if_neg hwhole] at hclear ⊢
    rw [hc.recno] at hclear ⊢
    have hlog := moveLog_accepts c.args (mb.data.take len) (mb.data.drop len ++ bytes r)
      (rest.map bytes) len fail
    rw [← List.append_assoc, List.take_append_drop] at hlog
    apply Goes.log hlog
    have hfront : Front (c.move ((mb.data.drop 0).take len) len fail) :=
      ⟨hpeek', hc.recno, hc.pos, hc.moff⟩
    have hcut := rep_cut hrep hlen
    exact afterMove_goes hfront (Pending.of_rep (List.cons_ne_nil _ _) hcut) hclear

/-! ## A wait for all of the data -/

theorem woke_goes {error : ℕ} (hrep : Rep so.rcv rs) (hpc : PcOk rs (.waiting c np))
    (hclear : Clear (woke pr so c np error).1) : Goes (rs.map bytes) (woke pr so c np error) := by
  have hret (r : Result) : Goes (rs.map bytes) (⟨so, .returned r⟩, []) :=
    ⟨_, .nil _, rs, hrep, rfl, trivial⟩
  rw [woke] at hclear ⊢
  by_cases herr : error ≠ 0
  · rw [if_pos herr]
    exact hret _
  rw [if_neg herr] at hclear ⊢
  by_cases hpeek : c.args.peek = true
  · dsimp only
    split
    · apply Quiet.goes ?_ hrep
      apply waitHead_quiet
      exact hpeek
    · apply Quiet.goes ?_ hrep
      apply waitHead_quiet
      exact hpeek
  have hpeek' := eq_false_of_ne_true hpeek
  obtain ⟨hc, rfl⟩ := hpc hpeek'
  dsimp only at hclear ⊢
  cases rs with
  | nil =>
    have hnull : so.rcv.sbMb = .null := hrep.mb
    have hpend : Pending so false .null [] := by
      refine ⟨hnull, rfl, ?_⟩
      rw [← hnull]
      exact hrep
    rw [hnull] at hclear ⊢
    exact waitHead_goes ⟨hpeek', hc.recno, hc.pos, hc.moff⟩ hpend hclear
  | cons k rest =>
    cases k with
    | nil => exact absurd rfl (hrep.ne [] List.mem_cons_self)
    | cons mb k =>
      have hmb : so.rcv.sbMb = .mbuf mb (.ofList k) (ofRecords rest) := hrep.mb
      have hpend : Pending so true (ofRecords rest) ((mb :: k) :: rest) :=
        .of_rep (List.cons_ne_nil _ _) hrep
      rw [hmb] at hclear ⊢
      exact waitHead_goes ⟨hpeek', rfl, rfl, hc.moff⟩ hpend hclear

/-! ## The head of a record -/

/-- What the loop over the control mbufs leaves: it has passed back the first ones. -/
theorem takeControl_spec (pr : Proto) (ext : Mbuf → ℕ × Mbuf) (asked : Bool) (sb : Sockbuf)
    (l : List Mbuf) (np : Chain) : ∃ k r np',
      l = k ++ r ∧ (takeControl pr ext asked sb (setPkt np (.ofList l))).rest =
        setPkt np' (.ofList r) ∧
      (takeControl pr ext asked sb (setPkt np (.ofList l))).sb = charge sb (-lens k) (-stores k) ∧
      ∀ t q, Accepts ((bytes k ++ t) :: q)
        (takeControl pr ext asked sb (setPkt np (.ofList l))).log (t :: q) := by
  induction l generalizing sb np with
  | nil =>
    refine ⟨[], [], .null, rfl, rfl, ?_, fun t q => .nil _⟩
    simp [takeControl, charge, Chain.ofList, setPkt]
  | cons mb l ih =>
    have hone (t : List UInt8) (q : List (List UInt8)) :
        Step ((mb.data ++ t) :: q) (passed asked mb) (t :: q) := .out _ _ _ _
    rw [Chain.ofList, setPkt, takeControl]
    by_cases hctl : mb.mType = .control
    · rw [if_pos hctl]
      dsimp only
      generalize (if asked ∧ pr.externalizes ∧ isRights mb then ext mb else (0, mb)) = got
      by_cases herr : got.1 ≠ 0
      · rw [if_pos herr]
        refine ⟨[mb], l, .null, rfl, (setPkt_null l).symm, sbfree_eq sb mb, ?_⟩
        intro t q
        rw [bytes_cons, bytes_nil, List.append_nil]
        exact (hone t q).accepts
      · rw [if_neg herr]
        obtain ⟨k, r, np', hl, hrest, hsb, hlog⟩ := ih (sbfree sb mb) .null
        rw [setPkt_null] at hrest hsb hlog
        refine ⟨mb :: k, r, np', ?_, hrest, ?_, ?_⟩
        · rw [hl, List.cons_append]
        · dsimp only
          rw [hsb, sbfree_eq, charge_charge, lens_cons, stores_cons]
          simp only [lens_cons, lens_nil, stores_cons, stores_nil]
          congr 1 <;> omega
        · intro t q
          rw [bytes_cons, List.append_assoc]
          exact .cons (hone _ _) (hlog t q)
    · rw [if_neg hctl]
      exact ⟨[], mb :: l, np, rfl, rfl, by simp [charge], fun t q => .nil _⟩

/-- The head of a record: the address and the control mbufs are passed back. -/
theorem takeHead_spec (pr : Proto) (ext : Mbuf → ℕ × Mbuf) (a : Args) (sb : Sockbuf) (mb : Mbuf)
    (l : List Mbuf) (np : Chain) : ∃ k r np', mb :: l = k ++ r ∧
      (takeControl pr ext a.controlp (takeAddr pr a.paddr sb mb (.ofList l) np).1
        (takeAddr pr a.paddr sb mb (.ofList l) np).2.1).rest = setPkt np' (.ofList r) ∧
      (takeControl pr ext a.controlp (takeAddr pr a.paddr sb mb (.ofList l) np).1
        (takeAddr pr a.paddr sb mb (.ofList l) np).2.1).sb = charge sb (-lens k) (-stores k) ∧
      ∀ t q, Accepts ((bytes k ++ t) :: q) ((takeAddr pr a.paddr sb mb (.ofList l) np).2.2.2 ++
        (takeControl pr ext a.controlp (takeAddr pr a.paddr sb mb (.ofList l) np).1
          (takeAddr pr a.paddr sb mb (.ofList l) np).2.1).log) (t :: q) := by
  rw [takeAddr]
  by_cases haddr : pr.addr = true
  · rw [if_pos haddr]
    obtain ⟨k, r, np', hl, hrest, hsb, hlog⟩ :=
      takeControl_spec pr ext a.controlp (sbfree sb mb) l .null
    rw [setPkt_null] at hrest hsb hlog
    refine ⟨mb :: k, r, np', ?_, hrest, ?_, ?_⟩
    · rw [hl, List.cons_append]
    · dsimp only
      rw [hsb, sbfree_eq, charge_charge]
      simp only [lens_cons, lens_nil, stores_cons, stores_nil]
      congr 1 <;> omega
    · intro t q
      rw [bytes_cons, List.append_assoc]
      exact .cons (.out _ _ _ _) (hlog t q)
  · rw [if_neg haddr]
    exact takeControl_spec pr ext a.controlp sb (mb :: l) np

theorem takeHead_goes {ext : Mbuf → ℕ × Mbuf} {mb : Mbuf} {l : List Mbuf}
    {rest : List (List Mbuf)} (ha : a.peek = false) (hrep : Rep so.rcv ((mb :: l) :: rest)) :
    Goes (((mb :: l) :: rest).map bytes)
      (takeHead pr ext a so mb (.ofList l) (ofRecords rest)) := by
  obtain ⟨k, r, np', hl, hrest, hsb, hlog⟩ :=
    takeHead_spec pr ext a so.rcv mb l (ofRecords rest)
  rw [hl] at hrep ⊢
  rw [takeHead]
  dsimp only
  generalize takeControl pr ext a.controlp _ _ = h at hrest hsb hlog ⊢
  have hcut := cut_pending hrep
  have hcutlog := cut_accepts (hlog (bytes r) (rest.map bytes))
  have hnull : (h.rest = .null) = (Chain.ofList r = .null) := by
    rw [hrest, setPkt_eq_null]
  simp only [ne_eq, hnull]
  apply Goes.log hcutlog
  apply loopHead_goes
  · exact ⟨ha, rfl, rfl, rfl⟩
  · rw [hrest, setPkt_setPkt, hsb]
    exact hcut

/-! ## A call -/

theorem peekHead_quiet {mb : Mbuf} {next : Chain} (ha : a.peek = true) :
    Quiet so (peekHead pr a so mb next) := by
  rw [peekHead]
  exact loopHead_quiet ha ..

theorem start_goes {ext : Mbuf → ℕ × Mbuf} (hrep : Rep so.rcv rs) :
    Goes (rs.map bytes) (start pr ext a so) := by
  rw [start]
  cases hentry : entry pr a so with
  | wait => exact ⟨_, .nil _, rs, hrep, rfl, trivial⟩
  | release error =>
    dsimp only
    split_ifs
    · exact ⟨_, .nil _, rs, hrep, rfl, trivial⟩
    · exact ⟨_, .nil _, rs, hrep, rfl, trivial⟩
  | dontblock =>
    dsimp only
    cases rs with
    | nil =>
      have hnull : so.rcv.sbMb = .null := hrep.mb
      rw [hnull]
      exact ⟨_, .nil _, [], hrep, rfl, trivial⟩
    | cons k rest =>
      cases k with
      | nil => exact absurd rfl (hrep.ne [] List.mem_cons_self)
      | cons mb k =>
        have hmb : so.rcv.sbMb = .mbuf mb (.ofList k) (ofRecords rest) := hrep.mb
        rw [hmb]
        dsimp only
        split_ifs with hpeek
        · exact (peekHead_quiet hpeek).goes hrep
        · exact takeHead_goes (eq_false_of_ne_true hpeek) hrep

/-! ## Input -/

/-- The first mbuf of the buffer is still there, with what it held. -/
def FirstKept (rs rs' : List (List Mbuf)) : Prop :=
  ∀ m r rest, rs = (m :: r) :: rest →
    ∃ m' r' rest', rs' = (m' :: r') :: rest' ∧ m.data.length ≤ m'.data.length

/-- Input takes the records `rs` to others. -/
def Comes (rs : List (List Mbuf)) (sb : Sockbuf) (τ : Log) : Prop :=
  ∃ rs', Rep sb rs' ∧ Accepts (rs.map bytes) τ (rs'.map bytes) ∧ FirstKept rs rs'

variable {sb sb' : Sockbuf} {l k : List Mbuf}

theorem FirstKept.refl (rs : List (List Mbuf)) : FirstKept rs rs :=
  fun m r rest h => ⟨m, r, rest, h, Nat.le_refl _⟩

theorem FirstKept.snoc (rs : List (List Mbuf)) (k : List Mbuf) : FirstKept rs (rs ++ [k]) := by
  rintro m r rest rfl
  exact ⟨m, r, rest ++ [k], rfl, Nat.le_refl _⟩

theorem FirstKept.last (h : Grown l k) : FirstKept (rs ++ [l]) (rs ++ [k]) := by
  intro m r rest heq
  cases rs with
  | nil =>
    obtain ⟨hl, -⟩ := List.cons.inj heq
    obtain ⟨m', r', hk, hle⟩ := h m r hl
    exact ⟨m', r', [], by rw [hk]; rfl, hle⟩
  | cons j rs =>
    obtain ⟨rfl, -⟩ := List.cons.inj heq
    exact ⟨m, r, rs ++ [k], rfl, Nat.le_refl _⟩

/-- A new record behind the others. -/
theorem Comes.record {b : List UInt8} (h : Rep sb (rs ++ [k])) (hb : bytes k = b) :
    Comes rs sb [.record b] := by
  refine ⟨rs ++ [k], h, ?_, .snoc rs k⟩
  rw [List.map_append, List.map_singleton, hb]
  exact (Step.record _ _).accepts

theorem append_comes (h : Rep sb rs) (l : List Mbuf) :
    Comes rs (sbappend sb l) (appendLog sb l) := by
  rw [appendLog]
  by_cases hl : l = []
  · rw [sbappend, if_pos hl, if_pos hl]
    exact ⟨rs, h, .nil _, .refl rs⟩
  rw [if_neg hl]
  obtain rfl | ⟨rs, r, rfl⟩ := List.eq_nil_or_concat rs
  · -- the buffer is empty
    have hnull : sb.sbMb = .null := h.mb
    obtain ⟨r, hb, hnil, hrep⟩ := sbappend_rep_nil h hl
    rw [if_pos hnull]
    by_cases hr : r = []
    · rw [if_pos hr] at hrep
      obtain ⟨hbytes, hmark⟩ := hnil.mp hr
      rw [if_pos ⟨hbytes, by simpa [marked] using hmark⟩]
      exact ⟨[], hrep, .nil _, .refl []⟩
    · rw [if_neg hr] at hrep
      rw [if_neg fun hc => hr (hnil.mpr ⟨hc.1, by simpa [marked] using hc.2⟩)]
      exact Comes.record hrep hb
  · rw [List.concat_eq_append] at h ⊢
    have hr : r ≠ [] := h.ne r (by simp)
    have hne : ∀ k ∈ rs, k ≠ [] := fun k hk => h.ne k (List.mem_append_left _ hk)
    have hnull : sb.sbMb ≠ .null := by
      obtain ⟨m, next, np, hmb⟩ := ofRecords_append hne hr
      rw [h.mb, hmb]
      exact Chain.noConfusion
    have hlast : hasEor (lastRecord sb.sbMb) = marked r := by
      rw [h.mb, lastRecord_ofRecords hne hr, hasEor_attach_null]
    rw [if_neg hnull, hlast]
    by_cases hmark : marked r = true
    · rw [if_pos hmark]
      obtain ⟨r', hb, hrep⟩ := sbappend_rep_ended h hmark hl
      exact Comes.record hrep hb
    · rw [if_neg hmark]
      obtain ⟨r', hb, hrep, hgrown⟩ := sbappend_rep_last h (eq_false_of_ne_true hmark) hl
      refine ⟨rs ++ [r'], hrep, ?_, .last hgrown⟩
      rw [List.map_append, List.map_append, List.map_singleton, List.map_singleton, hb]
      exact (Step.append _ _ _).accepts

theorem appendrecord_comes (h : Rep sb rs) (l : List Mbuf) :
    Comes rs (sbappendrecord sb l) (if l = [] then [] else [.record (bytes l)]) := by
  by_cases hl : l = []
  · subst hl
    exact ⟨rs, h, .nil _, .refl rs⟩
  · rw [if_neg hl]
    obtain ⟨r, hb, hrep⟩ := sbappendrecord_rep h hl
    exact Comes.record hrep hb

theorem oobFront_ofRecords (hne : ∀ k ∈ rs, k ≠ []) : oobFront (ofRecords rs) = oobIdx rs := by
  induction rs with
  | nil => rfl
  | cons r rs ih =>
    obtain ⟨hr, hne'⟩ := List.forall_mem_cons.mp hne
    cases r with
    | nil => exact absurd rfl hr
    | cons m r =>
      have hoob : isOob (.mbuf m (.ofList r) (ofRecords rs)) = oob (m :: r) := by
        cases h : m.mType <;> simp [isOob, oob, h, isOob_ofList]
      rw [ofRecords, attach, oobFront, hoob, ih hne', oobIdx, oobIdx, List.takeWhile_cons]
      split <;> rfl

/-- Out-of-band data: it goes behind the first record when that is out-of-band data too. -/
theorem insertoob_comes (h : Rep sb rs) (l : List Mbuf) : ∃ rs', Rep (sbinsertoob sb l) rs' ∧
    Accepts (rs.map bytes) (if l = [] then [] else [.insert (oobFront sb.sbMb) (bytes l)] : Log)
      (rs'.map bytes) ∧ (l = [] ∨ 0 < oobFront sb.sbMb → FirstKept rs rs') := by
  by_cases hl : l = []
  · subst hl
    exact ⟨rs, h, .nil _, fun _ => .refl rs⟩
  · rw [if_neg hl]
    obtain ⟨r, hb, hrep⟩ := sbinsertoob_rep h hl
    have hidx : oobFront sb.sbMb = oobIdx rs := by rw [h.mb, oobFront_ofRecords h.ne]
    refine ⟨_, hrep, ?_, ?_⟩
    · rw [hidx, List.map_insertIdx, hb]
      apply Step.accepts
      apply Step.insert
      rw [List.length_map]
      exact (List.takeWhile_prefix _).length_le
    · rintro hfront m k rest rfl
      rw [hidx] at hfront
      obtain ⟨i, hi⟩ := Nat.exists_eq_succ_of_ne_zero (hfront.resolve_left hl).ne'
      rw [hi, List.insertIdx_succ_cons]
      exact ⟨m, k, _, rfl, Nat.le_refl _⟩

theorem appendaddr_comes {asa : List UInt8} {m0 control : List Mbuf} {got b : Bool}
    (h : Rep sb rs) (hok : sbappendaddr sb asa m0 control got = .ok (b, sb')) :
    Comes rs sb' (if b then [.record (asa ++ bytes (control ++ m0))] else []) := by
  obtain ⟨rfl, rfl⟩ | ⟨rfl, rfl⟩ := sbappendaddr_ok hok
  · exact ⟨rs, h, .nil _, .refl rs⟩
  · exact Comes.record (appendAll_rep h (List.cons_ne_nil _ _)) rfl

theorem appendcontrol_comes {m0 control : List Mbuf} {b : Bool} (h : Rep sb rs)
    (hok : sbappendcontrol sb m0 control = .ok (b, sb')) :
    Comes rs sb' (if b then [.record (bytes (control ++ m0))] else []) := by
  obtain ⟨rfl, rfl⟩ | ⟨hne, rfl, rfl⟩ := sbappendcontrol_ok hok
  · exact ⟨rs, h, .nil _, .refl rs⟩
  · exact Comes.record (appendAll_rep h (by simp [hne])) rfl

theorem PcOk.kept {pc : Pc} (h : PcOk rs pc) {rs' : List (List Mbuf)} (hk : FirstKept rs rs') :
    PcOk rs' pc := by
  cases pc with
  | returned r => trivial
  | blocked => trivial
  | copying c len =>
    intro hpeek
    obtain ⟨hc, m, r, rest, hrs, hlen⟩ := h hpeek
    obtain ⟨m', r', rest', hrs', hle⟩ := hk m r rest hrs
    exact ⟨hc, m', r', rest', hrs', hlen.trans hle⟩
  | waiting c np => exact h

/-- Input that leaves the first mbuf where it is. -/
theorem Comes.goes {τ : Log} (h : Comes rs sb τ) {pc : Pc} (hpc : PcOk rs pc) :
    Goes (rs.map bytes) (⟨{ so with rcv := sb }, pc⟩, τ) := by
  obtain ⟨rs', hrep, hacc, hk⟩ := h
  exact ⟨_, hacc, rs', hrep, rfl, hpc.kept hk⟩

/-! ## Runs -/

/-- A step after which no byte is lost: out-of-band data is not put in front of an mbuf that a call
takes, and no call that takes what it copies comes to wait while a record is behind. -/
structure Kept (pr : Proto) (s : St) (act : Act) : Prop where
  oob : ∀ l c len, act = .insertoob l → l ≠ [] → s.pc = .copying c len → c.args.peek = false →
    0 < oobFront s.so.rcv.sbMb
  clear : ∀ s' τ, step pr s act = some (s', τ) → Clear s'

/-- Out-of-band data leaves the mbuf of a call where it is. -/
theorem insertoob_goes (hrep : Rep s.so.rcv rs) (hpc : PcOk rs s.pc) (l : List Mbuf)
    (hoob : ∀ c len, l ≠ [] → s.pc = .copying c len → c.args.peek = false →
      0 < oobFront s.so.rcv.sbMb) :
    Goes (rs.map bytes) (⟨{ s.so with rcv := sbinsertoob s.so.rcv l },
        if l = [] then s.pc else s.pc.shift (oobFront s.so.rcv.sbMb)⟩,
      if l = [] then [] else [.insert (oobFront s.so.rcv.sbMb) (bytes l)]) := by
  obtain ⟨rs', hrep', hacc, hk⟩ := insertoob_comes hrep l
  refine ⟨_, hacc, rs', hrep', rfl, ?_⟩
  by_cases hl : l = []
  · simp only [if_pos hl]
    exact hpc.kept (hk (Or.inl hl))
  simp only [if_neg hl]
  cases hs : s.pc with
  | returned r => trivial
  | blocked => trivial
  | waiting c np =>
    rw [hs] at hpc
    exact hpc
  | copying c len =>
    rw [hs] at hpc
    rw [Pc.shift]
    by_cases hpeek : c.args.peek = true
    · intro hpeek'
      refine absurd hpeek (ne_true_of_eq_false ?_)
      split_ifs at hpeek' <;> exact hpeek'
    · -- the mbuf is in the first record, and the data goes behind it
      have hpeek' := eq_false_of_ne_true hpeek
      have hpos := hoob c len hl hs hpeek'
      have hrec := (hpc hpeek').1.recno
      rw [if_neg (by omega)]
      exact hpc.kept (hk (Or.inr hpos))

theorem arrive_eq {sb : Sockbuf} {τ τ' : Log} (h : s.arrive sb τ = some (s', τ')) :
    (⟨{ s.so with rcv := sb }, s.pc⟩, τ) = (s', τ') := by
  rw [St.arrive] at h
  split_ifs at h
  exact Option.some.inj h

theorem step_goes {act : Act} {τ : Log} (h : Holds s q) (hk : Kept pr s act)
    (hstep : step pr s act = some (s', τ)) : Goes q (s', τ) := by
  obtain ⟨rs, hrep, rfl, hpc⟩ := h
  have hclear := hk.clear s' τ hstep
  have hin {sb : Sockbuf} {τ' : Log} (hc : Comes rs sb τ')
      (ha : s.arrive sb τ' = some (s', τ)) : Goes (rs.map bytes) (s', τ) := by
    rw [← arrive_eq ha]
    exact hc.goes hpc
  cases act with
  | start ext a =>
    rw [step] at hstep
    split_ifs at hstep
    rw [← Option.some.inj hstep]
    exact start_goes hrep
  | moved fail =>
    rw [step] at hstep
    split at hstep
    next c len hs =>
      rw [hs] at hpc
      have heq := Option.some.inj hstep
      rw [← heq]
      apply moved_goes hrep hpc
      rw [heq]
      exact hclear
    next => exact nomatch hstep
  | woke error =>
    rw [step] at hstep
    split at hstep
    next c np hs =>
      rw [hs] at hpc
      have heq := Option.some.inj hstep
      rw [← heq]
      apply woke_goes hrep hpc
      rw [heq]
      exact hclear
    next => exact nomatch hstep
  | append l => exact hin (append_comes hrep l) hstep
  | appendrecord l => exact hin (appendrecord_comes hrep l) hstep
  | insertoob l =>
    rw [← arrive_eq hstep]
    exact insertoob_goes hrep hpc l fun c len => hk.oob l c len rfl
  | appendaddr asa m0 control got =>
    rw [step] at hstep
    split at hstep
    next b sb hok => exact hin (appendaddr_comes hrep hok) hstep
    next => exact nomatch hstep
  | appendcontrol m0 control =>
    rw [step] at hstep
    split at hstep
    next b sb hok => exact hin (appendcontrol_comes hrep hok) hstep
    next => exact nomatch hstep
  | change so =>
    rw [step] at hstep
    split_ifs at hstep
    rw [← Option.some.inj hstep]
    exact ⟨_, .nil _, rs, hrep, rfl, hpc⟩

/-! ## What is cut off -/

/-- Only an atomic protocol cuts off the rest of a record. -/
def Lawful (pr : Proto) (τ : Log) : Prop := ∀ b, .out .truncated b ∈ τ → pr.atomic = true

theorem Lawful.append {τ τ' : Log} (h : Lawful pr τ) (h' : Lawful pr τ') : Lawful pr (τ ++ τ') := by
  intro b hb
  exact (List.mem_append.mp hb).elim (h b) (h' b)

theorem Lawful.of_ne {τ : Log} (h : ∀ b, .out .truncated b ∉ τ) : Lawful pr τ :=
  fun b hb => absurd hb (h b)

theorem Lawful.log {r : St × Log} {τ : Log} (h : Lawful pr r.2) (heq : r = (s', τ)) :
    Lawful pr τ := by
  rw [heq] at h
  exact h

theorem finish_lawful : Lawful pr (finish pr so a r m np).2 := by
  rw [finish]
  split_ifs with hpeek hm hatomic
  · exact .of_ne fun b => List.not_mem_nil
  · exact .of_ne fun b => List.not_mem_nil
  · exact fun _ _ => hatomic
  · exact .of_ne fun b => List.not_mem_nil

theorem loopHead_lawful : Lawful pr (loopHead pr so c m np).2 := by
  rw [loopHead]
  split
  · split_ifs
    · exact .of_ne fun b => List.not_mem_nil
    · exact finish_lawful
  · exact finish_lawful

theorem waitHead_lawful : Lawful pr (waitHead pr so c m np).2 := by
  rw [waitHead]
  split_ifs
  · exact .of_ne fun b => List.not_mem_nil
  · exact loopHead_lawful

theorem afterMove_lawful : Lawful pr (afterMove pr so c len m np).2 := by
  rw [afterMove]
  dsimp only
  split_ifs
  · exact finish_lawful
  · exact finish_lawful
  · exact waitHead_lawful
  · exact finish_lawful
  · exact waitHead_lawful
  · exact finish_lawful
  · exact waitHead_lawful

theorem moveLog_lawful (a : Args) (b : List UInt8) (len : ℕ) (fail : Option ℕ) :
    Lawful pr (moveLog a b len fail) :=
  .of_ne fun b => by simp [moveLog]

theorem done_lawful (p : Prop) [Decidable p] : Lawful pr (if p then [.done] else []) := by
  split_ifs
  · exact .of_ne fun b => by simp
  · exact .of_ne fun b => List.not_mem_nil

theorem moved_lawful {fail : Option ℕ} : Lawful pr (moved pr so c len fail).2 := by
  rw [moved]
  split
  · exact .of_ne fun b => List.not_mem_nil
  · dsimp only
    split_ifs
    · exact afterMove_lawful
    · exact ((moveLog_lawful _ _ _ _).append (.of_ne fun b => by simp)).append afterMove_lawful
    · exact ((moveLog_lawful _ _ _ _).append (.of_ne fun b => by simp)).append afterMove_lawful
    · exact afterMove_lawful
    · exact (moveLog_lawful _ _ _ _).append afterMove_lawful

theorem woke_lawful {error : ℕ} : Lawful pr (woke pr so c np error).2 := by
  rw [woke]
  split_ifs
  · exact .of_ne fun b => List.not_mem_nil
  · dsimp only
    split
    · exact waitHead_lawful
    · exact waitHead_lawful

theorem passed_ne (asked : Bool) (mb : Mbuf) (b : List UInt8) :
    passed asked mb ≠ .out .truncated b := by
  rw [passed]
  split_ifs <;> simp

theorem takeControl_lawful (ext : Mbuf → ℕ × Mbuf) (asked : Bool) (sb : Sockbuf) (t : Chain) :
    Lawful pr (takeControl pr ext asked sb t).log := by
  induction t generalizing sb with
  | null => exact .of_ne fun b => List.not_mem_nil
  | mbuf mb next np ih _ =>
    rw [takeControl]
    have hone : Lawful pr [passed asked mb] :=
      .of_ne fun b hb => passed_ne asked mb b (List.mem_singleton.mp hb).symm
    by_cases hctl : mb.mType = .control
    · rw [if_pos hctl]
      dsimp only
      generalize (if asked ∧ pr.externalizes ∧ isRights mb then ext mb else (0, mb)) = got
      by_cases herr : got.1 ≠ 0
      · rw [if_pos herr]
        exact hone
      · rw [if_neg herr]
        exact hone.append (ih _)
    · rw [if_neg hctl]
      exact .of_ne fun b => List.not_mem_nil

theorem takeHead_lawful {ext : Mbuf → ℕ × Mbuf} {mb : Mbuf} {next : Chain} :
    Lawful pr (takeHead pr ext a so mb next np).2 := by
  have haddr : Lawful pr (takeAddr pr a.paddr so.rcv mb next np).2.2.2 := by
    rw [takeAddr]
    by_cases haddr : pr.addr = true
    · rw [if_pos haddr]
      exact .of_ne fun b hb => passed_ne a.paddr mb b (List.mem_singleton.mp hb).symm
    · rw [if_neg haddr]
      exact .of_ne fun b => List.not_mem_nil
  rw [takeHead]
  exact ((haddr.append (takeControl_lawful _ _ _ _)).append (done_lawful _)).append loopHead_lawful

theorem start_lawful {ext : Mbuf → ℕ × Mbuf} : Lawful pr (start pr ext a so).2 := by
  rw [start]
  split
  · exact .of_ne fun b => List.not_mem_nil
  · exact .of_ne fun b => List.not_mem_nil
  · split
    · exact .of_ne fun b => List.not_mem_nil
    · split_ifs
      · rw [peekHead]
        exact loopHead_lawful
      · exact takeHead_lawful

theorem arrive_lawful {sb : Sockbuf} {τ τ' : Log} (h : s.arrive sb τ = some (s', τ'))
    (hτ : ∀ b, .out .truncated b ∉ τ) : Lawful pr τ' := by
  have hlaw : Lawful pr τ := .of_ne hτ
  exact Lawful.log (r := (_, τ)) hlaw (arrive_eq h)

theorem step_lawful {act : Act} {τ : Log} (h : step pr s act = some (s', τ)) : Lawful pr τ := by
  cases act with
  | start ext a =>
    rw [step] at h
    split_ifs at h
    exact start_lawful.log (Option.some.inj h)
  | moved fail =>
    rw [step] at h
    split at h
    · exact moved_lawful.log (Option.some.inj h)
    · exact nomatch h
  | woke error =>
    rw [step] at h
    split at h
    · exact woke_lawful.log (Option.some.inj h)
    · exact nomatch h
  | append l =>
    apply arrive_lawful h
    intro b
    rw [appendLog]
    split_ifs <;> simp
  | appendrecord l =>
    apply arrive_lawful h
    intro b
    split_ifs <;> simp
  | insertoob l =>
    apply arrive_lawful h
    intro b
    split_ifs <;> simp
  | appendaddr asa m0 control got =>
    rw [step] at h
    split at h
    · apply arrive_lawful h
      intro b
      split_ifs <;> simp
    · exact nomatch h
  | appendcontrol m0 control =>
    rw [step] at h
    split at h
    · apply arrive_lawful h
      intro b
      split_ifs <;> simp
    · exact nomatch h
  | change so =>
    rw [step] at h
    split_ifs at h
    refine Lawful.log ?_ (Option.some.inj h)
    exact .of_ne fun b => List.not_mem_nil

/-! ## Every run -/

/-- The states of runs from an empty buffer, with what the steps did; every step is one that `P`
allows. -/
inductive Reached (pr : Proto) (P : St → Act → Prop) : St → Log → Prop where
  | init {so : Sock} (hmb : so.rcv.sbMb = .null) (hcc : so.rcv.sbCc = 0)
      (hcnt : so.rcv.sbMbcnt = 0) (hlock : so.rcv.sbLock = false) :
      Reached pr P ⟨so, .returned .none⟩ []
  | step {s s' : St} {τ τ' : Log} {act : Act} (h : Reached pr P s τ) (hp : P s act)
      (hstep : step pr s act = some (s', τ')) : Reached pr P s' (τ ++ τ')

theorem Reached.holds {τ : Log} (h : Reached pr (Kept pr) s τ) :
    Lawful pr τ ∧ Goes [] (s, τ) := by
  induction h with
  | init hmb hcc hcnt hlock =>
    refine ⟨.of_ne fun b => List.not_mem_nil, [], .nil _, [], ?_, rfl, trivial⟩
    exact ⟨hmb, List.forall_mem_nil _, hcc, hcnt, hlock⟩
  | step _ hp hstep ih =>
    obtain ⟨hlaw, q, hacc, hh⟩ := ih
    obtain ⟨q', hacc', hh'⟩ := step_goes hh hp hstep
    exact ⟨hlaw.append (step_lawful hstep), q', hacc.append hacc', hh'⟩

/-- A protocol without flags, and a call for `resid` bytes. -/
def stream : Proto := ⟨false, false, false, false⟩

/-- A connected socket with an empty buffer. -/
def newSock : Sock := ⟨newBuf, 1, 0, false, 0, false, true, false⟩

/-- Steps one after the other, with what they do. -/
def run (pr : Proto) : List Act → St → Option (St × Log)
  | [], s => some (s, [])
  | act :: acts, s =>
    (step pr s act).bind fun r => (run pr acts r.1).map fun r' => (r'.1, r.2 ++ r'.2)

/-- The call sleeps because of `MSG_WAITALL`. -/
def Pc.waits : Pc → Bool
  | .waiting _ _ => true
  | _ => false

end Soreceive
