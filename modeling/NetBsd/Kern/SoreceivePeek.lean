import Mathlib
import NetBsd.Kern.SoreceiveRuns

/-!
# Peeking

A call that peeks, and the same call without `MSG_PEEK` after it, while nothing is appended. The two
go over the data of a record in step, up to the out-of-band mark: there the one stops, and the other
goes on copying no bytes.

## Main definitions

* `Ends`: the call that is under way goes on to its end, or sleeps
* `Agrees`: a call that peeks leaves the buffer as it is, and gives what the same call then takes
* `past`: the mark is inside of what is copied

## Main results

* `both_loop`: the loops over the data end alike
* `past_differs`: behind the mark they do not
* `agrees_iff`: when peeking agrees
-/

namespace Soreceive

open Sockbuf Mbuf

variable {pr : Proto} {so so₁ so₂ : Sock} {s s' : St} {a : Args} {c c₁ c₂ : Locals}
  {r r₁ r₂ : Result} {m : Bool} {np : Chain} {len : ℕ} {fail : Option ℕ}
  {fails : List (Option ℕ)} {l : List Mbuf} {mb : Mbuf}

/-! ## Runs of one call -/

/-- The call goes on by itself to the end, or sleeps; `fails` says which of its copies fail. -/
inductive Ends (pr : Proto) : List (Option ℕ) → St → St → Prop where
  | done {fails : List (Option ℕ)} {s : St} (h : ∀ c len, s.pc ≠ .copying c len) :
      Ends pr fails s s
  | move {fails : List (Option ℕ)} {so : Sock} {c : Locals} {len : ℕ} {s' : St}
      (h : Ends pr fails.tail (moved pr so c len (fails.headD none)).1 s') :
      Ends pr fails ⟨so, .copying c len⟩ s'

/-- Whether a call has returned, and what it has then, or has so far. -/
def Pc.result : Pc → Bool × Result
  | .returned r => (true, r)
  | .blocked => (false, .none)
  | .copying c _ => (false, c.res)
  | .waiting c _ => (false, c.res)

/-- The same data, the same address, and the same control messages but for the rights. -/
structure SameRes (r₁ r₂ : Result) : Prop where
  data : r₁.data = r₂.data
  addr : r₁.addr = r₂.addr
  control : List.Forall₂ (fun m m' => m = m' ∨ isRights m = true) r₁.control r₂.control

/-- Both calls have returned, or both sleep, with the same result. -/
structure SameEnd (p t : Pc) : Prop where
  returned : p.result.1 = t.result.1
  res : SameRes p.result.2 t.result.2

/-- The socket as it was, but for `SS_RCVATMARK`. -/
def SameSock (so so' : Sock) : Prop := ∃ b, so' = { so with rcvatmark := b }

/-- A call that peeks comes to an end and leaves the socket as it is, but for `SS_RCVATMARK`; the
same call without `MSG_PEEK` after it comes to the same end. -/
def Agrees (pr : Proto) (a : Args) (so : Sock) : Prop :=
  ∀ (ext : Mbuf → ℕ × Mbuf) (fails : List (Option ℕ)), (∀ m, (ext m).1 = 0) →
    ∃ s₁ s₂, Ends pr fails (start pr ext { a with peek := true } so).1 s₁ ∧
      SameSock so s₁.so ∧
      Ends pr fails (start pr ext { a with peek := false } s₁.so).1 s₂ ∧ SameEnd s₁.pc s₂.pc

/-! ## Where the two differ -/

/-- The data is all out-of-band, or not at all. -/
def fits (type : MType) (m : Mbuf) : Bool := m.mType = .oobdata ↔ type = .oobdata

/-- The loop over the data comes to an mbuf that is not empty; `last` is for the end of the
record. -/
def goesOn (last : Bool) (type : MType) : List Mbuf → Bool
  | [] => last
  | m :: l =>
    if !fits type m then false
    else if m.data ≠ [] then true
    else if m.eor then false
    else goesOn last type l

/-- The mark is behind `k` bytes, and a call that peeks goes on there; `more` says whether more
bytes are wanted than those up to the mark, and `waits` whether the call would wait for them. -/
def past (waits more : Bool) (type : MType) : ℕ → List Mbuf → Bool
  | _, [] => false
  | k, m :: l =>
    if !fits type m then false
    else if k < m.data.length then more
    else if m.eor then false
    else if k = m.data.length then if more then goesOn waits type l else waits && l.isEmpty
    else past waits more type (k - m.data.length) l

/-- The data mbufs of a record. -/
def dataOf (pr : Proto) (l : List Mbuf) : List Mbuf :=
  (if pr.addr then l.tail else l).dropWhile (·.mType = .control)

/-- The type of the data. -/
def typeOf : List Mbuf → MType
  | [] => .data
  | m :: _ => m.mType

/-- A call with `MSG_WAITALL` would wait at the end of the record. -/
def waits (pr : Proto) (a : Args) (so : Sock) : Bool :=
  a.waitall ∧ !pr.atomic ∧ so.soError = 0 ∧ !so.cantrcvmore

/-- Over the data `l`, with `resid` bytes wanted and the mark behind `k`: no byte is to be passed
back in mbufs, and the mark does not matter. -/
structure Fine (waits mp : Bool) (type : MType) (resid k : ℕ) (l : List Mbuf) : Prop where
  mp : mp = true → 0 < resid → goesOn false type l = false
  mark : k = 0 ∨ resid < k ∨ past waits (decide (k < resid)) type k l = false

/-- The data of the first record does not come into it, or it is `Fine`. -/
def PeekFine (pr : Proto) (a : Args) (so : Sock) : Prop :=
  entry pr a so = .dontblock →
    Fine (waits pr a so) a.mp (typeOf (dataOf pr (mbufs so.rcv.sbMb))) a.resid so.oobmark.toNat
      (dataOf pr (mbufs so.rcv.sbMb))

/-! ## One step of the loop -/

theorem Ends.returned : Ends pr fails ⟨so, .returned r⟩ ⟨so, .returned r⟩ :=
  .done fun _ _ => Pc.noConfusion

theorem Ends.waiting : Ends pr fails ⟨so, .waiting c np⟩ ⟨so, .waiting c np⟩ :=
  .done fun _ _ => Pc.noConfusion

theorem SameRes.trunc (h : SameRes r₁ r₂) (t : Bool) : SameRes r₁ { r₂ with trunc := t } :=
  ⟨h.data, h.addr, h.control⟩

theorem finish_peek (ha : a.peek = true) :
    finish pr so a r m np = (⟨so, .returned r⟩, []) := by
  rw [finish, if_pos ha]

/-- A call that takes what it copies is at its end. -/
theorem finish_take (ha : a.peek = false) :
    ∃ so' t, (finish pr so a r m np).1 = ⟨so', .returned { r with trunc := t }⟩ := by
  rw [finish, if_neg (ne_true_of_eq_false ha)]
  split_ifs
  · exact ⟨_, r.trunc, rfl⟩
  · exact ⟨_, true, rfl⟩
  · exact ⟨_, r.trunc, rfl⟩

theorem loopHead_false : loopHead pr so c false np = finish pr so c.args c.res false np := by
  rw [loopHead]
  split
  · rw [if_neg fun h => Bool.false_ne_true h.1]
  · rfl

theorem loopHead_cons {next np' : Chain} (here : locate so c.recno c.pos = .mbuf mb next np') :
    loopHead pr so c true np =
      if 0 < c.resid ∧ c.res.error = 0 ∧ fits c.type mb then
        (⟨{ so with rcvatmark := false }, .copying c (lenOf so c mb)⟩, [])
      else finish pr so c.args c.res true np := by
  have hfits : fits c.type mb = true ↔ (mb.mType = .oobdata ↔ c.type = .oobdata) := by
    rw [fits, decide_eq_true_iff]
  rw [loopHead, here]
  simp only [hfits, true_and]

theorem waitHead_eq : waitHead pr so c m np =
    if waits pr c.args so = true ∧ m = false ∧ 0 < c.resid then (⟨so, .waiting c np⟩, [])
    else loopHead pr so c m np := by
  have hiff : (c.args.waitall = true ∧ m = false ∧ 0 < c.resid ∧ (!pr.atomic) = true ∧
      so.soError = 0 ∧ (!so.cantrcvmore) = true) ↔
      waits pr c.args so = true ∧ m = false ∧ 0 < c.resid := by
    rw [waits, decide_eq_true_iff]
    tauto
  rw [waitHead]
  simp only [hiff]

/-- The variables of a call that peeks, behind a copy. -/
def Locals.ahead (so : Sock) (c : Locals) (len : ℕ) : Locals :=
  { c with offset := if so.oobmark ≠ 0 then c.offset + len else c.offset }

theorem afterMove_peek (hc : c.args.peek = true) : afterMove pr so c len m np =
    if c.res.eor then (⟨so, .returned c.res⟩, [])
    else waitHead pr so (c.ahead so len) m np := by
  rw [afterMove, if_neg (by simp [hc]), Locals.ahead]
  by_cases hmark : so.oobmark ≠ 0
  · simp only [if_pos hmark, finish_peek hc]
  · simp only [if_neg hmark, finish_peek hc]

/-- The place of a call that peeks. -/
def Here (so : Sock) (c : Locals) (l : List Mbuf) : Prop :=
  ∃ np, locate so c.recno c.pos = setPkt np (.ofList l)

/-- There is an mbuf. -/
abbrev hasMbuf (l : List Mbuf) : Bool := decide (Chain.ofList l ≠ .null)

theorem nth_nth (i k : ℕ) (t : Chain) : nth i (nth k t) = nth (k + i) t := by
  induction k generalizing t with
  | zero => rw [Nat.zero_add]; rfl
  | succ k ih =>
    rw [Nat.succ_add]
    cases t with
    | null => cases i <;> rfl
    | mbuf mb next np => exact ih next

theorem Here.next (h : Here so c (mb :: l)) {c' : Locals} (hrec : c'.recno = c.recno)
    (hpos : c'.pos = c.pos + 1) : Here so c' l := by
  obtain ⟨np, h⟩ := h
  refine ⟨.null, ?_⟩
  rw [locate, hrec, hpos, ← nth_nth, setPkt_null]
  rw [locate] at h
  rw [h]
  rfl

/-- The variables of a call that has copied an mbuf. -/
def peekWhole (c : Locals) (mb : Mbuf) (fail : Option ℕ) : Locals :=
  { (c.move mb.data mb.data.length fail).setEor mb.eor with pos := c.pos + 1, moff := 0 }

def takeWhole (c : Locals) (mb : Mbuf) (fail : Option ℕ) : Locals :=
  { (c.move mb.data mb.data.length fail).setEor mb.eor with recno := 0, pos := 0 }

/-- The socket without the mbuf. -/
def freeFirst (so : Sock) (mb : Mbuf) (l : List Mbuf) (np : Chain) : Sock :=
  { so with rcv := { sbfree so.rcv mb with sbMb := setPkt np (.ofList l) } }

/-- A call that peeks has copied an mbuf. -/
theorem moved_peek (hpeek : c.args.peek = true) (here : Here so c (mb :: l)) (hmoff : c.moff = 0) :
    (moved pr so c mb.data.length fail).1 =
      (afterMove pr so (peekWhole c mb fail) mb.data.length (hasMbuf l) .null).1 := by
  obtain ⟨np, here⟩ := here
  rw [Chain.ofList, setPkt] at here
  rw [moved, here]
  dsimp only
  rw [hmoff, Nat.sub_zero, if_pos rfl, if_pos hpeek, List.drop_zero, List.take_length]
  rfl

/-- A call that takes what it copies has copied an mbuf. -/
theorem moved_take (hc : Front c) (front : so.rcv.sbMb = setPkt np (.ofList (mb :: l))) :
    (moved pr so c mb.data.length fail).1 = (afterMove pr (freeFirst so mb l np)
      (takeWhole c mb fail) mb.data.length (hasMbuf l) np).1 := by
  have hpeek : ¬ c.args.peek = true := ne_true_of_eq_false hc.peek
  rw [moved, locate_front hc, front, Chain.ofList, setPkt]
  dsimp only
  rw [hc.moff, Nat.sub_zero, if_pos rfl, if_neg hpeek, List.drop_zero, List.take_length]
  rfl

/-! ## The end of the loop -/

theorem loopHead_stop (h : c.resid = 0 ∨ c.res.error ≠ 0) :
    loopHead pr so c m np = finish pr so c.args c.res m np := by
  rw [loopHead]
  split
  · rw [if_neg]
    rintro ⟨-, hpos, herr, -⟩
    exact h.elim hpos.ne' fun hne => hne herr
  · rfl

theorem waitHead_true : waitHead pr so c true np = loopHead pr so c true np := by
  rw [waitHead_eq, if_neg]
  rintro ⟨-, hm, -⟩
  exact nomatch hm

variable (fail) in
/-- A copy of all that is wanted ends the loop: it succeeds, or it fails. -/
theorem move_stops (b : List UInt8) (hlen : len = c.resid) :
    (c.move b len fail).resid = 0 ∨ (c.move b len fail).res.error ≠ 0 := by
  by_cases hmp : c.args.mp = true
  · left
    simp only [Locals.move, reach, hmp, if_true, hlen, Nat.sub_self]
  · cases fail with
    | none =>
      left
      simp [Locals.move, reach, hmp, hlen]
    | some k =>
      right
      simp [Locals.move, hmp, EFAULT]

theorem afterMove_stop_peek (hc : c.args.peek = true) (h : c.resid = 0 ∨ c.res.error ≠ 0) :
    (afterMove pr so c len true np).1 = ⟨so, .returned c.res⟩ := by
  rw [afterMove_peek hc]
  split_ifs
  · rfl
  · rw [waitHead_true, loopHead_stop (by exact h), finish_peek (by exact hc)]
    rfl

variable (pr so np len) in
theorem afterMove_stop_take (hc : c.args.peek = false) (h : c.resid = 0 ∨ c.res.error ≠ 0) :
    ∃ so' t, (afterMove pr so c len true np).1 = ⟨so', .returned { c.res with trunc := t }⟩ := by
  have hstop (so' : Sock) (c' : Locals) (hc' : c'.args = c.args) (hr : c'.res = c.res)
      (h' : c'.resid = 0 ∨ c'.res.error ≠ 0) : ∃ so'' t, (waitHead pr so' c' true np).1 =
        ⟨so'', .returned { c.res with trunc := t }⟩ := by
    rw [waitHead_true, loopHead_stop h', hc', hr]
    exact finish_take hc
  rw [afterMove]
  dsimp only
  split_ifs
  · exact finish_take hc
  · exact finish_take hc
  · exact hstop _ c rfl rfl h
  · exact finish_take hc
  · exact hstop _ _ rfl rfl h
  · exact finish_take hc
  · exact hstop _ c rfl rfl h

variable (pr so m np) in
/-- A call that takes what it copies stops at the mark. -/
theorem afterMove_mark (hc : c.args.peek = false) (hmark : so.oobmark ≠ 0)
    (hlen : so.oobmark.toNat = len) :
    ∃ so' t, (afterMove pr so c len m np).1 = ⟨so', .returned { c.res with trunc := t }⟩ := by
  have hzero : so.oobmark - BitVec.ofNat 32 len = 0 := by
    rw [← hlen, BitVec.ofNat_toNat, BitVec.setWidth_eq, BitVec.sub_self]
    rfl
  rw [afterMove, if_pos ⟨hmark, by simp [hc]⟩]
  dsimp only
  rw [if_pos hzero]
  exact finish_take hc

variable (pr so m np len) in
/-- Before the mark it goes on. -/
theorem afterMove_take (hc : c.args.peek = false) (h : so.oobmark = 0 ∨ len < so.oobmark.toNat) :
    ∃ mark : BitVec 32, mark.toNat = so.oobmark.toNat - len ∧ (mark = 0 → so.oobmark = 0) ∧
      afterMove pr so c len m np =
        if c.res.eor then finish pr { so with oobmark := mark } c.args c.res m np
        else waitHead pr { so with oobmark := mark } c m np := by
  by_cases hmark : so.oobmark = 0
  · refine ⟨0, ?_, fun _ => hmark, ?_⟩
    · simp [hmark]
    · have hso : { so with oobmark := 0 } = so := by rw [← hmark]
      rw [hso, afterMove]
      simp only [hmark, ne_eq, not_true_eq_false, false_and, if_false]
  · have hlt := h.resolve_left hmark
    have hnat : (so.oobmark - BitVec.ofNat 32 len).toNat = so.oobmark.toNat - len := by
      have hbound := so.oobmark.isLt
      rw [BitVec.toNat_sub_of_le]
      · rw [BitVec.toNat_ofNat, Nat.mod_eq_of_lt (by omega)]
      · rw [BitVec.le_def, BitVec.toNat_ofNat, Nat.mod_eq_of_lt (by omega)]
        omega
    have hne : so.oobmark - BitVec.ofNat 32 len ≠ 0 := by
      intro hzero
      rw [hzero] at hnat
      change 0 = so.oobmark.toNat - len at hnat
      omega
    refine ⟨_, hnat, fun hzero => absurd hzero hne, ?_⟩
    rw [afterMove, if_pos ⟨hmark, by simp [hc]⟩]
    dsimp only
    rw [if_neg hne]

/-- Part of an mbuf is copied by a call that peeks. -/
theorem moved_peek_part (hpeek : c.args.peek = true) (here : Here so c (mb :: l))
    (hmoff : c.moff = 0) (hlen : len < mb.data.length) :
    (moved pr so c len fail).1 = (afterMove pr so
      { c.move (mb.data.take len) len fail with moff := len } len true .null).1 := by
  obtain ⟨np, here⟩ := here
  rw [Chain.ofList, setPkt] at here
  rw [moved, here]
  dsimp only
  rw [hmoff, Nat.sub_zero, if_neg hlen.ne, if_pos hpeek, List.drop_zero, Nat.zero_add]

variable (pr fail) in
/-- Part of an mbuf is copied, and cut off. -/
theorem moved_take_part (hc : Front c) (front : so.rcv.sbMb = setPkt np (.ofList (mb :: l)))
    (hlen : len < mb.data.length) : ∃ so',
      (moved pr so c len fail).1 =
        (afterMove pr so' (c.move (mb.data.take len) len fail) len true np).1 ∧
      so'.oobmark = so.oobmark := by
  have hpeek : ¬ c.args.peek = true := ne_true_of_eq_false hc.peek
  rw [moved, locate_front hc, front, Chain.ofList, setPkt]
  dsimp only
  rw [hc.moff, Nat.sub_zero, if_neg hlen.ne, if_neg hpeek, List.drop_zero]
  exact ⟨_, rfl, rfl⟩

/-! ## Behind the mark -/

theorem SameSock.refl (so : Sock) : SameSock so so := ⟨so.rcvatmark, rfl⟩

/-- A call that peeks returns, with what it has. -/
def Returns (pr : Proto) (fails : List (Option ℕ)) (so : Sock) (r : Result) (x : St) : Prop :=
  ∃ s r', Ends pr fails x s ∧ SameSock so s.so ∧ s.pc = .returned r' ∧ r'.data = r.data ∧
    r'.addr = r.addr ∧ r'.control = r.control

theorem Returns.now (so : Sock) (r : Result) : Returns pr fails so r ⟨so, .returned r⟩ :=
  ⟨_, r, .returned, .refl so, rfl, rfl, rfl, rfl⟩

theorem Returns.congr (h : Returns pr fails so r₁ s) (hso : SameSock so₁ so)
    (hd : r₁.data = r₂.data) (ha : r₁.addr = r₂.addr) (hc : r₁.control = r₂.control) :
    Returns pr fails so₁ r₂ s := by
  obtain ⟨s', r', hends, ⟨b, hb⟩, hpc, hd', ha', hc'⟩ := h
  obtain ⟨b', rfl⟩ := hso
  exact ⟨s', r', hends, ⟨b, hb⟩, hpc, hd'.trans hd, ha'.trans ha, hc'.trans hc⟩

theorem Returns.move (h : Returns pr fails.tail so r
    (moved pr so₁ c len (fails.headD none)).1) : Returns pr fails so r ⟨so₁, .copying c len⟩ := by
  obtain ⟨s', r', hends, hrest⟩ := h
  exact ⟨s', r', .move hends, hrest⟩

theorem move_nil (c : Locals) (len : ℕ) (fail : Option ℕ) :
    (c.move [] len fail).res.data = c.res.data := by
  simp [Locals.move]

theorem hasMbuf_nil : hasMbuf [] = false := rfl

theorem hasMbuf_cons (mb : Mbuf) (l : List Mbuf) : hasMbuf (mb :: l) = true := rfl

/-- Behind the mark, where `goesOn` stops, a call that peeks copies nothing and returns. -/
theorem beyond_returns (hpeek : c.args.peek = true) (hmark : so.oobmark ≠ 0)
    (hoff : c.offset = so.oobmark.toNat) (here : Here so c l) (hmoff : c.moff = 0)
    (heor : c.res.eor = false) (hgo : goesOn (waits pr c.args so) c.type l = false) :
    Returns pr fails so c.res (waitHead pr so c (hasMbuf l) .null).1 := by
  induction l generalizing so c fails with
  | nil =>
    rw [hasMbuf_nil, waitHead_eq, if_neg, loopHead_false, finish_peek hpeek]
    · exact .now so c.res
    · rintro ⟨hwaits, -⟩
      exact ne_true_of_eq_false hgo hwaits
  | cons mb l ih =>
    rw [hasMbuf_cons, waitHead_true]
    obtain ⟨np, hloc⟩ := id here
    rw [Chain.ofList, setPkt] at hloc
    rw [loopHead_cons hloc]
    split_ifs with hcopy
    · obtain ⟨hpos, herr, hfits⟩ := hcopy
      rw [goesOn, if_neg (by simp [hfits])] at hgo
      -- the mbuf is empty, so no byte is copied
      have hdata : mb.data = [] := by
        by_contra hne
        rw [if_pos hne] at hgo
        cases hgo
      have hlen : lenOf so c mb = mb.data.length := by
        have hle := lenOf_le so c mb
        rw [hdata, List.length_nil] at hle ⊢
        omega
      rw [if_neg (not_not_intro hdata)] at hgo
      have here' : Here { so with rcvatmark := false } c (mb :: l) := here
      rw [hlen]
      apply Returns.move
      have hres : (peekWhole c mb (fails.headD none)).res.data = c.res.data := by
        change (c.move mb.data _ _).res.data = c.res.data
        rw [hdata, move_nil]
      have heor' : (peekWhole c mb (fails.headD none)).res.eor = mb.eor := by
        change (c.res.eor || mb.eor) = mb.eor
        rw [heor, Bool.false_or]
      rw [moved_peek hpeek here' hmoff, afterMove_peek (by exact hpeek), heor']
      by_cases hend : mb.eor = true
      · rw [if_pos hend]
        exact (Returns.now _ _).congr ⟨false, rfl⟩ hres rfl rfl
      · rw [if_neg hend] at hgo ⊢
        refine (ih ?_ ?_ ?_ ?_ ?_ ?_ ?_).congr ⟨false, rfl⟩ hres rfl rfl
        · exact hpeek
        · exact hmark
        · rw [Locals.ahead, if_pos hmark, hdata]
          exact hoff
        · exact here'.next rfl rfl
        · rfl
        · exact heor'.trans (eq_false_of_ne_true hend)
        · exact hgo
    · rw [finish_peek hpeek]
      exact .now so c.res

/-! ## The two in step -/

/-- A call that peeks, and the same call that takes what it copies, in front of the same data. -/
structure Sync (so₁ so₂ : Sock) (c₁ c₂ : Locals) (np : Chain) (l : List Mbuf) : Prop where
  peek : c₁.args.peek = true
  args : c₂.args = { c₁.args with peek := false }
  here : Here so₁ c₁ l
  moff : c₁.moff = 0
  front : so₂.rcv.sbMb = setPkt np (.ofList l)
  first : Front c₂
  offset : c₂.offset = 0
  resid : c₁.resid = c₂.resid
  type : c₁.type = c₂.type
  error : c₁.res.error = c₂.res.error
  eor : c₁.res.eor = false ∧ c₂.res.eor = false
  res : SameRes c₁.res c₂.res
  soError : so₁.soError = so₂.soError
  cantrcvmore : so₁.cantrcvmore = so₂.cantrcvmore
  mark : so₁.oobmark.toNat = c₁.offset + so₂.oobmark.toNat
  zero : so₂.oobmark = 0 → so₁.oobmark = 0

/-- The two calls come to the same end. -/
def Both (pr : Proto) (fails : List (Option ℕ)) (so : Sock) (x₁ x₂ : St) : Prop :=
  ∃ s₁ s₂, Ends pr fails x₁ s₁ ∧ SameSock so s₁.so ∧ Ends pr fails x₂ s₂ ∧ SameEnd s₁.pc s₂.pc

theorem Both.move (h : Both pr fails.tail so (moved pr so₁ c₁ len (fails.headD none)).1
    (moved pr so₂ c₂ len (fails.headD none)).1) :
    Both pr fails so ⟨so₁, .copying c₁ len⟩ ⟨so₂, .copying c₂ len⟩ := by
  obtain ⟨s₁, s₂, h₁, hso, h₂, hend⟩ := h
  exact ⟨s₁, s₂, .move h₁, hso, .move h₂, hend⟩

theorem Both.sock {x₁ x₂ : St} (h : Both pr fails so x₁ x₂) (hso : SameSock so₁ so) :
    Both pr fails so₁ x₁ x₂ := by
  obtain ⟨s₁, s₂, h₁, ⟨b, hb⟩, hrest⟩ := h
  obtain ⟨b', rfl⟩ := hso
  exact ⟨s₁, s₂, h₁, ⟨b, hb⟩, hrest⟩

/-- Both calls return. -/
theorem Returns.both {x₁ x₂ : St} (h : Returns pr fails so r₁ x₁)
    (h₂ : ∃ so' t, x₂ = ⟨so', .returned { r₂ with trunc := t }⟩) (hr : SameRes r₁ r₂) :
    Both pr fails so x₁ x₂ := by
  obtain ⟨s, r, hends, hso, hpc, hd, ha, hc⟩ := h
  obtain ⟨so', t, rfl⟩ := h₂
  refine ⟨s, _, hends, hso, .returned, ?_, ?_⟩
  · rw [hpc]
    rfl
  · rw [hpc]
    exact ⟨hd.trans hr.data, ha.trans hr.addr, hc.symm ▸ hr.control⟩

theorem finish_both (ha : c₁.args.peek = true) (ha' : c₂.args.peek = false)
    (hr : SameRes c₁.res c₂.res) : Both pr fails so₁ (finish pr so₁ c₁.args c₁.res m .null).1
      (finish pr so₂ c₂.args c₂.res m np).1 := by
  rw [finish_peek ha]
  exact (Returns.now so₁ c₁.res).both (finish_take ha') hr

theorem lenOf_eq (hmark : so₁.oobmark.toNat = c₁.offset + so₂.oobmark.toNat)
    (hzero : so₂.oobmark = 0 → so₁.oobmark = 0) (hoff : c₂.offset = 0)
    (hresid : c₁.resid = c₂.resid) (hmoff : c₁.moff = c₂.moff) (mb : Mbuf) :
    lenOf so₁ c₁ mb = lenOf so₂ c₂ mb := by
  have hleft : (so₁.oobmark - BitVec.ofNat 32 c₁.offset).toNat = so₂.oobmark.toNat := by
    have hbound := so₁.oobmark.isLt
    have hnat : (BitVec.ofNat 32 c₁.offset).toNat = c₁.offset := by
      rw [BitVec.toNat_ofNat, Nat.mod_eq_of_lt (by omega)]
    rw [BitVec.toNat_sub_of_le, hnat]
    · omega
    · rw [BitVec.le_def, hnat]
      omega
  have hleft₂ : (so₂.oobmark - BitVec.ofNat 32 c₂.offset).toNat = so₂.oobmark.toNat := by
    rw [hoff]
    simp
  have hiff : so₁.oobmark ≠ 0 ↔ so₂.oobmark ≠ 0 := by
    refine not_congr ⟨?_, hzero⟩
    intro h
    rw [h] at hmark
    change 0 = c₁.offset + so₂.oobmark.toNat at hmark
    exact BitVec.eq_of_toNat_eq (by change _ = 0; omega)
  rw [lenOf, lenOf, hleft, hleft₂, hresid, hmoff]
  simp only [hiff]

/-- What the copies of a call leave wanted, when they succeed. -/
theorem move_resid (b : List UInt8) (herr : (c.move b len fail).res.error = 0) :
    (c.move b len fail).resid = c.resid - len := by
  by_cases hmp : c.args.mp = true
  · simp [Locals.move, reach, hmp]
  · cases fail with
    | none => simp [Locals.move, reach, hmp]
    | some k => simp [Locals.move, hmp, EFAULT] at herr

variable (len fail) in
theorem move_both (b : List UInt8) (hargs : c₂.args = { c₁.args with peek := false })
    (hpeek : c₁.args.peek = true) (hmp : c₁.args.mp = true → b = [])
    (hresid : c₁.resid = c₂.resid) (herr : c₁.res.error = c₂.res.error)
    (hr : SameRes c₁.res c₂.res) :
    SameRes (c₁.move b len fail).res (c₂.move b len fail).res ∧
      (c₁.move b len fail).resid = (c₂.move b len fail).resid ∧
      (c₁.move b len fail).res.error = (c₂.move b len fail).res.error := by
  have hreach : reach c₂.args len fail = reach c₁.args len fail := by
    rw [reach, reach, hargs]
  refine ⟨⟨?_, hr.addr, hr.control⟩, ?_, ?_⟩
  · simp only [Locals.move, hreach]
    rw [hargs, hpeek]
    by_cases hmp' : c₁.args.mp = true
    · simp [hmp', hmp hmp', hr.data]
    · simp [hmp', hr.data]
  · simp only [Locals.move, hreach, hresid]
  · simp only [Locals.move, hargs, herr]

variable (so) in
/-- The length of a copy of a call that takes what it copies. -/
theorem lenOf_cases (hc : Front c) (hoff : c.offset = 0) (mb : Mbuf) :
    (so.oobmark ≠ 0 → lenOf so c mb ≤ so.oobmark.toNat) ∧ lenOf so c mb ≤ c.resid ∧
      (lenOf so c mb = mb.data.length ∨ lenOf so c mb < mb.data.length ∧
        (lenOf so c mb = c.resid ∨ so.oobmark ≠ 0 ∧ lenOf so c mb = so.oobmark.toNat ∧
          so.oobmark.toNat < c.resid)) := by
  have hleft : (so.oobmark - BitVec.ofNat 32 c.offset).toNat = so.oobmark.toNat := by
    rw [hoff]
    simp
  rw [lenOf, hleft, hc.moff, Nat.sub_zero]
  by_cases hmark : so.oobmark ≠ 0 ∧ c.resid > so.oobmark.toNat
  · rw [if_pos hmark]
    have hlt := hmark.2
    split_ifs
    · refine ⟨fun _ => ?_, ?_, Or.inl rfl⟩
      · omega
      · omega
    · refine ⟨fun _ => le_rfl, ?_, ?_⟩
      · omega
      obtain heq | hlt := (Nat.not_lt.mp ‹_›).eq_or_lt
      · exact Or.inl heq
      · exact Or.inr ⟨hlt, Or.inr ⟨hmark.1, rfl, hmark.2⟩⟩
  · rw [if_neg hmark]
    have hle (h : so.oobmark ≠ 0) : c.resid ≤ so.oobmark.toNat :=
      Nat.not_lt.mp fun hlt => hmark ⟨h, hlt⟩
    split_ifs
    · refine ⟨fun h => ?_, ?_, Or.inl rfl⟩
      · have hle' := hle h
        omega
      · omega
    · refine ⟨hle, le_rfl, ?_⟩
      obtain heq | hlt := (Nat.not_lt.mp ‹_›).eq_or_lt
      · exact Or.inl heq
      · exact Or.inr ⟨hlt, Or.inl rfl⟩

/-- What is left of `Fine` behind an mbuf without an end of record and without the mark. -/
theorem Fine.tail {w mp : Bool} {type : MType} {resid k : ℕ}
    (h : Fine w mp type resid k (mb :: l)) (hfits : fits type mb = true) (hpos : 0 < resid)
    (hend : mb.eor = false) (hlen : mb.data.length ≤ resid)
    (hk : k = 0 ∨ mb.data.length < k) :
    Fine w mp type (resid - mb.data.length) (k - mb.data.length) l := by
  refine ⟨?_, ?_⟩
  · intro hmp _
    have hgo := h.mp hmp hpos
    rw [goesOn, if_neg (by simp [hfits])] at hgo
    split_ifs at hgo with hdata hend'
    · exact absurd hend (ne_false_of_eq_true hend')
    · exact hgo
  · obtain hzero | hlt | hpast := h.mark
    · left
      omega
    · right
      left
      omega
    · obtain hzero | hk := hk
      · left
        omega
      right
      right
      rw [past, if_neg (by simp [hfits]), if_neg (by omega), if_neg (by simp [hend]),
        if_neg (by omega)] at hpast
      have hmore : decide (k - mb.data.length < resid - mb.data.length) = decide (k < resid) := by
        congr 1
        apply propext
        omega
      rw [hmore]
      exact hpast

/-- Part of an mbuf is copied, which is all that is wanted. -/
theorem part_both (h : Sync so₁ so₂ c₁ c₂ np (mb :: l)) (hlen : len < mb.data.length)
    (hall : len = c₁.resid) (hmp : c₁.args.mp = false) :
    Both pr fails so₁ (moved pr so₁ c₁ len fail).1 (moved pr so₂ c₂ len fail).1 := by
  obtain ⟨so₂', htake, -⟩ := moved_take_part pr fail h.first h.front hlen
  obtain ⟨hres, hresid, herr⟩ := move_both len fail (mb.data.take len) h.args
    h.peek (fun hmp' => absurd hmp' (ne_true_of_eq_false hmp)) h.resid h.error h.res
  have hstop := move_stops fail (mb.data.take len) hall
  have hstop₂ := hstop
  rw [hresid, herr] at hstop₂
  rw [moved_peek_part h.peek h.here h.moff hlen, htake]
  rw [afterMove_stop_peek (by exact h.peek) (by exact hstop)]
  obtain ⟨so', t, heq⟩ := afterMove_stop_take pr so₂' np len
    (by exact h.first.peek) hstop₂
  exact (Returns.now _ _).both ⟨so', t, heq⟩ hres

variable (fail) in
/-- Behind an mbuf the two have the same. -/
theorem Sync.whole (h : Sync so₁ so₂ c₁ c₂ np (mb :: l)) (hmp : c₁.args.mp = true → mb.data = []) :
    SameRes (peekWhole c₁ mb fail).res (takeWhole c₂ mb fail).res ∧
      (peekWhole c₁ mb fail).resid = (takeWhole c₂ mb fail).resid ∧
      (peekWhole c₁ mb fail).res.error = (takeWhole c₂ mb fail).res.error := by
  obtain ⟨hres, hresid, herr⟩ := move_both mb.data.length fail mb.data h.args
    h.peek hmp h.resid h.error h.res
  exact ⟨⟨hres.data, hres.addr, hres.control⟩, hresid, herr⟩

variable (fail mb) in
theorem Sync.whole_eor (h : Sync so₁ so₂ c₁ c₂ np l) :
    (peekWhole c₁ mb fail).res.eor = mb.eor ∧ (takeWhole c₂ mb fail).res.eor = mb.eor := by
  change (c₁.res.eor || mb.eor) = mb.eor ∧ (c₂.res.eor || mb.eor) = mb.eor
  rw [h.eor.1, h.eor.2, Bool.false_or]
  exact ⟨rfl, rfl⟩

/-- The mark is at the end of an mbuf: the one call stops, and the other one soon after. -/
theorem mark_both (h : Sync so₁ so₂ c₁ c₂ np (mb :: l)) (hfits : fits c₁.type mb = true)
    (hfine : Fine (waits pr c₁.args so₁) c₁.args.mp c₁.type c₁.resid so₂.oobmark.toNat (mb :: l))
    (hmp : c₁.args.mp = true → mb.data = []) (hle : mb.data.length ≤ c₁.resid)
    (hmark : so₂.oobmark ≠ 0) (hat : so₂.oobmark.toNat = mb.data.length) :
    Both pr fails so₁ (moved pr so₁ c₁ mb.data.length fail).1
      (moved pr so₂ c₂ mb.data.length fail).1 := by
  have hmark₁ : so₁.oobmark ≠ 0 := by
    intro hzero
    have hsum := h.mark
    rw [hzero] at hsum
    change 0 = c₁.offset + so₂.oobmark.toNat at hsum
    exact hmark (BitVec.eq_of_toNat_eq (by change _ = 0; omega))
  have hpos₂ : 0 < so₂.oobmark.toNat :=
    Nat.pos_of_ne_zero fun hzero => hmark (BitVec.eq_of_toNat_eq hzero)
  obtain ⟨hres, -, -⟩ : _ ∧ _ ∧ (peekWhole c₁ mb fail).res.error = _ := h.whole fail hmp
  have heor : (peekWhole c₁ mb fail).res.eor = mb.eor := (h.whole_eor _ _).1
  have hpeek₁ : (peekWhole c₁ mb fail).args.peek = true := h.peek
  rw [moved_peek h.peek h.here h.moff, moved_take h.first h.front, afterMove_peek hpeek₁, heor]
  suffices hreturns : Returns pr fails so₁ (peekWhole c₁ mb fail).res _ from
    hreturns.both (afterMove_mark _ _ _ _ (by exact h.first.peek) hmark hat) hres
  by_cases hend : mb.eor = true
  · rw [if_pos hend]
    exact .now _ _
  rw [if_neg hend]
  have hpast : past (waits pr c₁.args so₁) (decide (so₂.oobmark.toNat < c₁.resid)) c₁.type
      so₂.oobmark.toNat (mb :: l) = false := by
    obtain hzero | hlt | hpast := hfine.mark
    · omega
    · omega
    · exact hpast
  rw [past, if_neg (by simp [hfits]), if_neg (by omega), if_neg hend, if_pos hat] at hpast
  by_cases hmore : so₂.oobmark.toNat < c₁.resid
  · -- more bytes are wanted: the call that peeks goes on behind the mark
    rw [if_pos (decide_eq_true hmore)] at hpast
    have hoff : ((peekWhole c₁ mb fail).ahead so₁ mb.data.length).offset =
        so₁.oobmark.toNat := by
      rw [Locals.ahead, if_pos hmark₁, h.mark, hat]
      rfl
    exact beyond_returns (c := (peekWhole c₁ mb fail).ahead so₁ mb.data.length) h.peek hmark₁ hoff
      (h.here.next rfl rfl) rfl (heor.trans (eq_false_of_ne_true hend)) hpast
  · rw [if_neg (by simpa using hmore)] at hpast
    have hstop := move_stops fail mb.data (show mb.data.length = c₁.resid by omega)
    cases l with
    | nil =>
      rw [hasMbuf_nil, waitHead_eq, if_neg, loopHead_false, finish_peek (by exact h.peek)]
      · exact .now _ _
      · rintro ⟨hwaits, -⟩
        rw [List.isEmpty_nil, Bool.and_true] at hpast
        exact ne_true_of_eq_false hpast hwaits
    | cons mb' l =>
      rw [hasMbuf_cons, waitHead_true, loopHead_stop (by exact hstop),
        finish_peek (by exact h.peek)]
      exact .now _ _

variable (fail) in
/-- Behind an mbuf that ends no record, with the mark still ahead. -/
theorem Sync.tail (h : Sync so₁ so₂ c₁ c₂ np (mb :: l)) (hmp : c₁.args.mp = true → mb.data = [])
    (hend : mb.eor = false) (hmark : so₂.oobmark = 0 ∨ mb.data.length < so₂.oobmark.toNat)
    {mark : BitVec 32} (hnat : mark.toNat = so₂.oobmark.toNat - mb.data.length)
    (hzero : mark = 0 → so₂.oobmark = 0) :
    Sync so₁ { freeFirst so₂ mb l np with oobmark := mark }
      ((peekWhole c₁ mb fail).ahead so₁ mb.data.length) (takeWhole c₂ mb fail) np l := by
  obtain ⟨hres, hresid, herr⟩ := h.whole fail hmp
  obtain ⟨heor₁, heor₂⟩ := h.whole_eor fail mb
  have hoff : so₁.oobmark.toNat =
      (if so₁.oobmark ≠ 0 then c₁.offset + mb.data.length else c₁.offset) + mark.toNat := by
    have hsum := h.mark
    rw [hnat]
    by_cases hmark₁ : so₁.oobmark = 0
    · rw [if_neg (not_not_intro hmark₁)]
      have hnat₁ : so₁.oobmark.toNat = 0 := congrArg BitVec.toNat hmark₁
      omega
    · have hlt := hmark.resolve_left fun h₂ => hmark₁ (h.zero h₂)
      rw [if_pos hmark₁]
      omega
  exact
    { peek := h.peek
      args := h.args
      here := h.here.next rfl rfl
      moff := rfl
      front := rfl
      first := ⟨h.first.peek, rfl, rfl, h.first.moff⟩
      offset := h.offset
      resid := hresid
      type := h.type
      error := herr
      eor := ⟨heor₁.trans hend, heor₂.trans hend⟩
      res := hres
      soError := h.soError
      cantrcvmore := h.cantrcvmore
      mark := hoff
      zero := fun hz => h.zero (hzero hz) }

/-- A whole mbuf is copied, and the mark is not reached. -/
theorem whole_both (h : Sync so₁ so₂ c₁ c₂ np (mb :: l)) (hpos : 0 < c₁.resid)
    (hfits : fits c₁.type mb = true)
    (hfine : Fine (waits pr c₁.args so₁) c₁.args.mp c₁.type c₁.resid so₂.oobmark.toNat (mb :: l))
    (hmp : c₁.args.mp = true → mb.data = []) (hle : mb.data.length ≤ c₁.resid)
    (hmark : so₂.oobmark = 0 ∨ mb.data.length < so₂.oobmark.toNat)
    (ih : ∀ {so₁ so₂ : Sock} {c₁ c₂ : Locals}, Sync so₁ so₂ c₁ c₂ np l →
      (c₁.res.error = 0 → Fine (waits pr c₁.args so₁) c₁.args.mp c₁.type c₁.resid
        so₂.oobmark.toNat l) →
      Both pr fails so₁ (loopHead pr so₁ c₁ (hasMbuf l) .null).1
        (loopHead pr so₂ c₂ (hasMbuf l) np).1) :
    Both pr fails so₁ (moved pr so₁ c₁ mb.data.length fail).1
      (moved pr so₂ c₂ mb.data.length fail).1 := by
  obtain ⟨hres, hresid, -⟩ := h.whole fail hmp
  obtain ⟨heor₁, heor₂⟩ := h.whole_eor fail mb
  have hpeek₁ : (peekWhole c₁ mb fail).args.peek = true := h.peek
  have hpeek₂ : (takeWhole c₂ mb fail).args.peek = false := h.first.peek
  obtain ⟨mark, hnat, hzero, htake⟩ := afterMove_take pr
    (freeFirst so₂ mb l np) (hasMbuf l) np mb.data.length hpeek₂ hmark
  rw [moved_peek h.peek h.here h.moff, moved_take h.first h.front, afterMove_peek hpeek₁, htake,
    heor₁, heor₂]
  by_cases hend : mb.eor = true
  · rw [if_pos hend, if_pos hend]
    exact (Returns.now so₁ _).both (finish_take hpeek₂) hres
  rw [if_neg hend, if_neg hend]
  have hsync := h.tail fail hmp (eq_false_of_ne_true hend) hmark hnat hzero
  rw [waitHead_eq, waitHead_eq]
  have hwaits : waits pr (takeWhole c₂ mb fail).args
      { freeFirst so₂ mb l np with oobmark := mark } = waits pr c₁.args so₁ := by
    change waits pr c₂.args { freeFirst so₂ mb l np with oobmark := mark } = _
    simp only [waits, h.args, freeFirst, h.soError, h.cantrcvmore]
  have hresid' : (takeWhole c₂ mb fail).resid =
      ((peekWhole c₁ mb fail).ahead so₁ mb.data.length).resid := hresid.symm
  have hwaits₁ : waits pr ((peekWhole c₁ mb fail).ahead so₁ mb.data.length).args so₁ =
      waits pr c₁.args so₁ := rfl
  rw [hwaits, hresid', hwaits₁]
  by_cases hwait : waits pr c₁.args so₁ = true ∧ hasMbuf l = false ∧
      0 < ((peekWhole c₁ mb fail).ahead so₁ mb.data.length).resid
  · rw [if_pos hwait, if_pos hwait]
    exact ⟨_, _, .waiting, .refl so₁, .waiting, rfl, hres⟩
  · rw [if_neg hwait, if_neg hwait]
    apply ih hsync
    intro herr
    have hleft : ((peekWhole c₁ mb fail).ahead so₁ mb.data.length).resid =
        c₁.resid - mb.data.length := move_resid mb.data herr
    rw [hleft]
    change Fine _ _ _ _ mark.toNat l
    rw [hnat]
    apply hfine.tail hfits hpos (eq_false_of_ne_true hend) hle
    exact hmark.imp_left fun hz => congrArg BitVec.toNat hz

/-- The loops of the two calls come to the same end. -/
theorem both_loop (h : Sync so₁ so₂ c₁ c₂ np l)
    (hfine : c₁.res.error = 0 → Fine (waits pr c₁.args so₁) c₁.args.mp c₁.type c₁.resid
      so₂.oobmark.toNat l) :
    Both pr fails so₁ (loopHead pr so₁ c₁ (hasMbuf l) .null).1
      (loopHead pr so₂ c₂ (hasMbuf l) np).1 := by
  induction l generalizing so₁ so₂ c₁ c₂ fails with
  | nil =>
    rw [hasMbuf_nil, loopHead_false, loopHead_false]
    exact finish_both h.peek h.first.peek h.res
  | cons mb l ih =>
    obtain ⟨np', hloc⟩ := id h.here
    have hloc₂ := locate_front h.first so₂
    rw [h.front] at hloc₂
    rw [Chain.ofList, setPkt] at hloc hloc₂
    rw [hasMbuf_cons, loopHead_cons hloc, loopHead_cons hloc₂]
    rw [← h.resid, ← h.error, ← h.type]
    by_cases hcopy : 0 < c₁.resid ∧ c₁.res.error = 0 ∧ fits c₁.type mb = true
    case neg =>
      rw [if_neg hcopy, if_neg hcopy]
      exact finish_both h.peek h.first.peek h.res
    rw [if_pos hcopy, if_pos hcopy]
    obtain ⟨hpos, herr, hfits⟩ := hcopy
    have hfine' := hfine herr
    have hmp (hmp : c₁.args.mp = true) : mb.data = [] := by
      have hgo := hfine'.mp hmp hpos
      rw [goesOn, if_neg (by simp [hfits])] at hgo
      by_contra hne
      rw [if_pos hne] at hgo
      cases hgo
    have hlens := lenOf_eq h.mark h.zero h.offset h.resid (h.moff.trans h.first.moff.symm) mb
    obtain ⟨hmark, hresid, hcases⟩ := lenOf_cases so₂ h.first h.offset mb
    rw [hlens]
    generalize lenOf so₂ c₂ mb = len at hmark hresid hcases
    rw [← h.resid] at hresid hcases
    apply Both.move
    have hsock : SameSock so₁ { so₁ with rcvatmark := false } := ⟨false, rfl⟩
    have hsync : Sync { so₁ with rcvatmark := false } { so₂ with rcvatmark := false } c₁ c₂ np
        (mb :: l) :=
      { h with }
    refine Both.sock ?_ ⟨false, rfl⟩
    obtain rfl | ⟨hlt, hpart⟩ := hcases
    · by_cases hat : so₂.oobmark ≠ 0 ∧ so₂.oobmark.toNat = mb.data.length
      · exact mark_both hsync hfits hfine' hmp hresid hat.1 hat.2
      · apply whole_both hsync hpos hfits hfine' hmp hresid
        · by_cases hz : so₂.oobmark = 0
          · exact Or.inl hz
          · exact Or.inr ((hmark hz).lt_of_ne fun heq => hat ⟨hz, heq.symm⟩)
        · exact ih
    · -- part of the mbuf: all that is wanted, for the mark is not inside
      have hne : mb.data ≠ [] := List.ne_nil_of_length_pos (by omega)
      have hmp' : c₁.args.mp = false := eq_false_of_ne_true fun htrue => hne (hmp htrue)
      obtain hall | ⟨hz, rfl, hless⟩ := hpart
      · exact part_both hsync hlt hall hmp'
      · exfalso
        have hpos₂ : 0 < so₂.oobmark.toNat :=
          Nat.pos_of_ne_zero fun hzero => hz (BitVec.eq_of_toNat_eq hzero)
        obtain hzero | hlt' | hpast := hfine'.mark
        · omega
        · omega
        · rw [past, if_neg (by simp [hfits]), if_pos hlt, decide_eq_true hless] at hpast
          cases hpast

/-! ## The head of a record, by both -/

theorem nth_setPkt (l : List Mbuf) (k : ℕ) (np : Chain) :
    ∃ np', nth k (setPkt np (.ofList l)) = setPkt np' (.ofList (l.drop k)) := by
  induction l generalizing k np with
  | nil => exact ⟨.null, by cases k <;> rfl⟩
  | cons mb l ih =>
    cases k with
    | zero => exact ⟨np, rfl⟩
    | succ k =>
      obtain ⟨np', h⟩ := ih k .null
      rw [setPkt_null] at h
      exact ⟨np', h⟩

theorem take_countControl (l : List Mbuf) :
    l.take (countControl l) = l.takeWhile (·.mType = .control) :=
  (List.prefix_iff_eq_take.mp (List.takeWhile_prefix _)).symm

theorem drop_countControl (l : List Mbuf) :
    l.drop (countControl l) = l.dropWhile (·.mType = .control) := by
  have h : l.takeWhile (·.mType = .control) ++ l.dropWhile (·.mType = .control) = l :=
    List.takeWhile_append_dropWhile
  exact (congrArg (List.drop _) h).symm.trans List.drop_left

variable (pr) in
/-- The control mbufs are taken, and with them the rights as they are inside of the receiver. -/
theorem takeControl_same {ext : Mbuf → ℕ × Mbuf} (hext : ∀ m, (ext m).1 = 0) (asked : Bool)
    (sb : Sockbuf) (l : List Mbuf) (np : Chain) :
    let h := takeControl pr ext asked sb (setPkt np (.ofList l))
    (∃ np', h.rest = setPkt np' (.ofList (l.dropWhile (·.mType = .control)))) ∧ h.error = 0 ∧
      List.Forall₂ (fun m m' => m = m' ∨ isRights m = true)
        (if asked then l.takeWhile (·.mType = .control) else []) h.control := by
  induction l generalizing sb np with
  | nil => exact ⟨⟨.null, rfl⟩, rfl, by cases asked <;> exact .nil⟩
  | cons mb l ih =>
    rw [Chain.ofList, setPkt, takeControl]
    by_cases hcontrol : mb.mType = .control
    · rw [if_pos hcontrol, List.dropWhile_cons_of_pos (by simpa using hcontrol),
        List.takeWhile_cons_of_pos (by simpa using hcontrol)]
      have hok : ¬ (if asked = true ∧ pr.externalizes = true ∧ isRights mb = true then ext mb
          else (0, mb)).1 ≠ 0 := by
        split_ifs
        · exact not_not_intro (hext mb)
        · exact not_not_intro rfl
      dsimp only
      rw [if_neg hok]
      obtain ⟨hrest, herr, hctl⟩ := ih (sbfree sb mb) .null
      rw [setPkt_null] at hrest herr hctl
      refine ⟨hrest, herr, ?_⟩
      cases asked with
      | false => exact .nil
      | true =>
        apply List.Forall₂.cons ?_ hctl
        split_ifs with hrights
        · exact Or.inr hrights.2.2
        · exact Or.inl rfl
    · rw [if_neg hcontrol, List.dropWhile_cons_of_neg (by simpa using hcontrol),
        List.takeWhile_cons_of_neg (by simpa using hcontrol)]
      exact ⟨⟨np, rfl⟩, rfl, by cases asked <;> exact .nil⟩

theorem hasMbuf_eq (l : List Mbuf) : decide (l ≠ []) = hasMbuf l := by
  cases l <;> rfl

/-- What a call has behind the address. -/
theorem takeAddr_same (pr : Proto) (asked : Bool) (sb : Sockbuf) (mb : Mbuf) (l : List Mbuf)
    (np : Chain) :
    let t := takeAddr pr asked sb mb (.ofList l) np
    (∃ np', t.2.1 = setPkt np' (.ofList (if pr.addr then l else mb :: l))) ∧
      t.2.2.1 = if pr.addr ∧ asked then some mb else none := by
  rw [takeAddr]
  cases haddr : pr.addr with
  | true =>
    simp only [if_true, true_and, and_true]
    exact ⟨.null, (setPkt_null l).symm⟩
  | false =>
    simp only [Bool.false_eq_true, if_false, false_and, and_true]
    exact ⟨np, rfl⟩

theorem typeOf_setPkt (l : List Mbuf) (np : Chain) :
    (match setPkt np (.ofList l) with
      | .null => MType.data
      | .mbuf m _ _ => m.mType) = typeOf l := by
  cases l <;> rfl

variable (pr) in
/-- Behind the head of the first record the two calls are in front of its data. -/
theorem head_sync {ext : Mbuf → ℕ × Mbuf} (hext : ∀ m, (ext m).1 = 0) (a : Args)
    (hmb : so.rcv.sbMb = .mbuf mb (.ofList l) np) :
    ∃ so₂ c₁ c₂,
      (peekHead pr { a with peek := true } so mb (.ofList l)).1 =
        (loopHead pr so c₁ (hasMbuf (dataOf pr (mb :: l))) .null).1 ∧
      (∀ b, (takeHead pr ext { a with peek := false } { so with rcvatmark := b } mb (.ofList l)
          np).1 =
        (loopHead pr { so₂ with rcvatmark := b } c₂ (hasMbuf (dataOf pr (mb :: l))) np).1) ∧
      Sync so so₂ c₁ c₂ np (dataOf pr (mb :: l)) ∧ c₁.args = { a with peek := true } ∧
      c₁.resid = a.resid ∧ c₁.type = typeOf (dataOf pr (mb :: l)) ∧ c₁.res.error = 0 ∧
      so₂.oobmark = so.oobmark := by
  have hdata : dataOf pr (mb :: l) =
      (if pr.addr then l else mb :: l).dropWhile (·.mType = .control) := rfl
  obtain ⟨⟨np₁, htail⟩, haddr⟩ := takeAddr_same pr a.paddr so.rcv mb l np
  obtain ⟨⟨np₂, hrest⟩, herr, hctl⟩ := takeControl_same pr hext a.controlp
    (takeAddr pr a.paddr so.rcv mb (.ofList l) np).1 (if pr.addr then l else mb :: l) np₁
  rw [← htail] at hrest herr hctl
  rw [← hdata] at hrest
  -- the place of the call that peeks
  have hhere : ∃ np', locate so 0 (if pr.addr then
      countControl (if pr.addr then l else mb :: l) + 1
      else countControl (if pr.addr then l else mb :: l)) =
      setPkt np' (.ofList (dataOf pr (mb :: l))) := by
    rw [locate, hmb, hdata, ← drop_countControl]
    cases pr.addr with
    | true => exact nth_setPkt (mb :: l) (countControl l + 1) np
    | false => exact nth_setPkt (mb :: l) (countControl (mb :: l)) np
  generalize ht : takeAddr pr a.paddr so.rcv mb (.ofList l) np = t at htail haddr hrest herr hctl
  generalize hh : takeControl pr ext a.controlp t.1 t.2.1 = h at hrest herr hctl
  have hmbuf : decide (setPkt np₂ (.ofList (dataOf pr (mb :: l))) ≠ .null) =
      hasMbuf (dataOf pr (mb :: l)) := by
    simp only [ne_eq, setPkt_eq_null]
  let so₂ : Sock :=
    { so with rcv := { h.sb with sbMb := setPkt np (.ofList (dataOf pr (mb :: l))) } }
  let type := match setPkt np₂ (.ofList (dataOf pr (mb :: l))) with
    | .null => MType.data
    | .mbuf m _ _ => m.mType
  let res : Result :=
    { Result.none with
      error := h.error
      addr := t.2.2.1
      control := h.control
      oob := type = .oobdata }
  have htake (b : Bool) : (takeHead pr ext { a with peek := false } { so with rcvatmark := b } mb
      (.ofList l) np).1 = (loopHead pr { so₂ with rcvatmark := b }
        ⟨{ a with peek := false }, a.resid, res, type, 0, 0, 0, 0⟩
        (hasMbuf (dataOf pr (mb :: l))) np).1 := by
    rw [takeHead]
    dsimp only
    rw [ht, hh, hrest, setPkt_setPkt, hmbuf]
    all_goals rfl
  rw [peekHead, mbufs_ofList]
  dsimp only
  rw [drop_countControl, take_countControl, ← hdata, hasMbuf_eq]
  refine ⟨so₂, _, _, rfl, htake, ?_, rfl, rfl, rfl, rfl, rfl⟩
  exact
    { peek := rfl
      args := rfl
      here := hhere
      moff := rfl
      front := rfl
      first := ⟨rfl, rfl, rfl, rfl⟩
      offset := rfl
      resid := rfl
      type := (typeOf_setPkt _ np₂).symm
      error := herr.symm
      eor := ⟨rfl, rfl⟩
      res := ⟨rfl, haddr.symm, hctl⟩
      soError := rfl
      cantrcvmore := rfl
      mark := (Nat.zero_add _).symm
      zero := id }

/-- A call that does not wait, where there is a record. -/
theorem start_head {ext : Mbuf → ℕ × Mbuf} {next : Chain} (hent : entry pr a so = .dontblock)
    (hmb : so.rcv.sbMb = .mbuf mb next np) :
    start pr ext a so =
      if a.peek then peekHead pr a so mb next else takeHead pr ext a so mb next np := by
  rw [start, hent]
  dsimp only
  rw [hmb]

/-- A call and the same call that takes what it copies, where peeking is fine. -/
theorem start_both {rs : List (List Mbuf)} {ext : Mbuf → ℕ × Mbuf} (hext : ∀ m, (ext m).1 = 0)
    (hrep : Rep so.rcv rs) (hso : SameSock so so₁) (hfine : PeekFine pr a so) :
    Both pr fails so (start pr ext { a with peek := true } so).1
      (start pr ext { a with peek := false } so₁).1 := by
  have hnone (error : ℕ) : SameRes { Result.none with error } { Result.none with error } :=
    ⟨rfl, rfl, .nil⟩
  have hentry₁ : entry pr { a with peek := false } so₁ = entry pr a so := by
    obtain ⟨b, rfl⟩ := hso
    rfl
  have hentry : entry pr { a with peek := true } so = entry pr a so := rfl
  have hrcv : so₁.rcv = so.rcv := by
    obtain ⟨b, rfl⟩ := hso
    rfl
  rw [start, start, hentry, hentry₁, hrcv]
  cases hent : entry pr a so with
  | wait => exact ⟨_, _, .done fun _ _ => Pc.noConfusion, .refl so, .done fun _ _ => Pc.noConfusion,
      rfl, hnone 0⟩
  | release error =>
    exact ⟨_, _, .returned, by simpa using SameSock.refl so, .returned, rfl, hnone error⟩
  | dontblock =>
    have hdata := hfine hent
    have hmb := hrep.mb
    cases rs with
    | nil =>
      rw [ofRecords] at hmb
      rw [hmb]
      exact ⟨_, _, .returned, .refl so, .returned, rfl, hnone 0⟩
    | cons r rest =>
      obtain ⟨mb, l, rfl⟩ := List.exists_cons_of_ne_nil (hrep.ne r List.mem_cons_self)
      rw [ofRecords, attach] at hmb
      rw [hmb, mbufs, mbufs_ofList] at hdata
      obtain ⟨b, rfl⟩ := hso
      obtain ⟨so₂, c₁, c₂, hp, ht, hsync, hargs, hresid, htype, herr, hmark⟩ :=
        head_sync pr hext a hmb
      have hsync' : Sync so { so₂ with rcvatmark := b } c₁ c₂ (ofRecords rest)
          (dataOf pr (mb :: l)) :=
        { hsync with }
      rw [hmb]
      change Both pr fails so (peekHead pr { a with peek := true } so mb (.ofList l)).1
        (takeHead pr ext { a with peek := false } { so with rcvatmark := b } mb (.ofList l)
          (ofRecords rest)).1
      rw [hp, ht]
      apply both_loop hsync'
      intro _
      change Fine _ _ _ _ so₂.oobmark.toNat _
      rw [hargs, htype, hresid, hmark]
      exact hdata

theorem Ends.unique {x x₁ x₂ : St} (h₁ : Ends pr fails x x₁) (h₂ : Ends pr fails x x₂) :
    x₁ = x₂ := by
  induction h₁ with
  | done h =>
    cases h₂ with
    | done => rfl
    | move => exact absurd rfl (h _ _)
  | move _ ih =>
    cases h₂ with
    | done h => exact absurd rfl (h _ _)
    | move h => exact ih h

theorem agrees_of_fine {rs : List (List Mbuf)} (hrep : Rep so.rcv rs) (hfine : PeekFine pr a so) :
    Agrees pr a so := by
  intro ext fails hext
  obtain ⟨s₁, -, hends, hsock, -⟩ : Both pr fails so _ (start pr ext _ so).1 :=
    start_both hext hrep (.refl so) hfine
  -- the call that takes starts from the socket as the other one leaves it
  obtain ⟨s₁', s₂, hends', -, htake, hend⟩ : Both pr fails so _ (start pr ext _ s₁.so).1 :=
    start_both hext hrep hsock hfine
  obtain rfl := hends.unique hends'
  exact ⟨s₁, s₂, hends, hsock, htake, hend⟩

/-! ## Where the two do differ -/

/-- The two calls do not come to the same end. -/
def Differ (pr : Proto) (fails : List (Option ℕ)) (x₁ x₂ : St) : Prop :=
  ∀ s₁ s₂, Ends pr fails x₁ s₁ → Ends pr fails x₂ s₂ → ¬ SameEnd s₁.pc s₂.pc

theorem Differ.move (h : Differ pr fails.tail (moved pr so₁ c₁ len (fails.headD none)).1
    (moved pr so₂ c₂ len (fails.headD none)).1) :
    Differ pr fails ⟨so₁, .copying c₁ len⟩ ⟨so₂, .copying c₂ len⟩ := by
  intro s₁ s₂ h₁ h₂
  cases h₁ with
  | done hd => exact absurd rfl (hd _ _)
  | move h₁ =>
    cases h₂ with
    | done hd => exact absurd rfl (hd _ _)
    | move h₂ => exact h s₁ s₂ h₁ h₂

/-- The call does not return: it sleeps, or it goes on for ever. -/
def Stays (pr : Proto) (fails : List (Option ℕ)) (x : St) : Prop :=
  ∀ s, Ends pr fails x s → s.pc.result.1 = false

theorem Stays.differ {x₁ : St} {so' : Sock} {r : Result} (h : Stays pr fails x₁) :
    Differ pr fails x₁ ⟨so', .returned r⟩ := by
  intro s₁ s₂ h₁ h₂ hend
  cases h₂ with
  | done =>
    have hreturned := hend.returned
    rw [h s₁ h₁] at hreturned
    exact nomatch hreturned

/-- A call that peeks at the mark, in front of a byte behind it. -/
structure Spins (so : Sock) (c : Locals) : Prop where
  peek : c.args.peek = true
  mark : so.oobmark ≠ 0
  offset : c.offset = so.oobmark.toNat
  here : ∃ mb next np, locate so c.recno c.pos = .mbuf mb next np ∧ c.moff < mb.data.length ∧
    fits c.type mb = true
  resid : 0 < c.resid
  error : c.res.error = 0
  eor : c.res.eor = false

theorem Spins.lenOf_zero (h : Spins so c) : lenOf so c mb = 0 := by
  have hleft : (so.oobmark - BitVec.ofNat 32 c.offset).toNat = 0 := by
    rw [h.offset, BitVec.ofNat_toNat, BitVec.setWidth_eq, BitVec.sub_self]
    rfl
  have hlen : (if so.oobmark ≠ 0 ∧ c.resid > 0 then 0 else c.resid) = 0 :=
    if_pos ⟨h.mark, h.resid⟩
  rw [lenOf, hleft, hlen]
  exact if_neg (Nat.not_lt_zero _)

theorem Spins.loopHead (h : Spins so c) :
    (loopHead pr so c true np).1 = ⟨{ so with rcvatmark := false }, .copying c 0⟩ := by
  obtain ⟨mb, next, np', hloc, -, hfits⟩ := h.here
  rw [loopHead_cons hloc, if_pos ⟨h.resid, h.error, hfits⟩, h.lenOf_zero]

variable (pr) in
/-- Each time round it copies no bytes. -/
theorem Spins.moved (h : Spins so c) : ∃ c', Spins { so with rcvatmark := false } c' ∧
    (moved pr so c 0 none).1 = ⟨{ so with rcvatmark := false }, .copying c' 0⟩ := by
  obtain ⟨mb, next, np', hloc, hmoff, hfits⟩ := h.here
  have hspins : Spins so (({ c.move [] 0 none with moff := c.moff + 0 } : Locals).ahead so 0) :=
    { peek := h.peek
      mark := h.mark
      offset := by
        rw [Locals.ahead, if_pos h.mark]
        exact h.offset
      here := ⟨mb, next, np', hloc, hmoff, hfits⟩
      resid := by
        simp only [Locals.ahead, Locals.move, reach, Option.getD_none, Nat.min_self, ite_self,
          Nat.sub_zero]
        exact h.resid
      error := by simpa [Locals.ahead, Locals.move] using h.error
      eor := h.eor }
  refine ⟨_, { hspins with }, ?_⟩
  rw [Soreceive.moved, hloc]
  dsimp only
  rw [if_neg (by omega), if_pos h.peek, List.take_zero, afterMove_peek (by exact h.peek)]
  rw [if_neg (by exact ne_true_of_eq_false h.eor), waitHead_true, hspins.loopHead]

/-- The call does not come to an end. -/
theorem Spins.endless (h : Spins so c) : ¬ Ends pr [] ⟨so, .copying c 0⟩ s := by
  intro hends
  generalize hf : ([] : List (Option ℕ)) = fails, hx : (⟨so, .copying c 0⟩ : St) = x at hends
  induction hends generalizing so c with
  | done hd => exact hd c 0 (hx ▸ rfl)
  | move _ ih =>
    cases hf
    cases hx
    obtain ⟨c', hspins, heq⟩ := h.moved pr
    exact ih hspins rfl heq.symm

theorem Spins.stays (h : Spins so c) : Stays pr [] ⟨so, .copying c 0⟩ :=
  fun _ hends => absurd hends h.endless

/-- Behind the mark, where `goesOn` says so, a call that peeks does not return. -/
theorem beyond_stays (hpeek : c.args.peek = true) (hmark : so.oobmark ≠ 0)
    (hoff : c.offset = so.oobmark.toNat) (here : Here so c l) (hmoff : c.moff = 0)
    (heor : c.res.eor = false) (hpos : 0 < c.resid) (herr : c.res.error = 0)
    (hgo : goesOn (waits pr c.args so) c.type l = true) :
    Stays pr [] (waitHead pr so c (hasMbuf l) .null).1 := by
  induction l generalizing so c with
  | nil =>
    rw [hasMbuf_nil, waitHead_eq, if_pos ⟨hgo, rfl, hpos⟩]
    intro s hends
    cases hends
    rfl
  | cons mb l ih =>
    rw [hasMbuf_cons, waitHead_true]
    obtain ⟨np, hloc⟩ := id here
    rw [Chain.ofList, setPkt] at hloc
    have hfits : fits c.type mb = true := by
      by_contra hno
      rw [goesOn, if_pos (by simpa using hno)] at hgo
      cases hgo
    rw [goesOn, if_neg (by simp [hfits])] at hgo
    by_cases hdata : mb.data ≠ []
    · have hspins : Spins so c :=
        { peek := hpeek
          mark := hmark
          offset := hoff
          here := ⟨mb, _, np, hloc, hmoff ▸ List.length_pos_of_ne_nil hdata, hfits⟩
          resid := hpos
          error := herr
          eor := heor }
      rw [hspins.loopHead]
      exact Spins.stays { hspins with }
    · rw [if_neg hdata] at hgo
      have hempty : mb.data = [] := not_not.mp hdata
      have hlen : lenOf so c mb = mb.data.length := by
        have hle := lenOf_le so c mb
        rw [hempty, List.length_nil] at hle ⊢
        omega
      have hend : mb.eor = false := by
        by_contra hend
        rw [if_pos (eq_true_of_ne_false hend)] at hgo
        cases hgo
      rw [if_neg (ne_true_of_eq_false hend)] at hgo
      rw [loopHead_cons hloc, if_pos ⟨hpos, herr, hfits⟩, hlen]
      intro s hends
      cases hends with
      | done hd => exact absurd rfl (hd _ _)
      | move hends =>
        have here' : Here { so with rcvatmark := false } c (mb :: l) := here
        rw [List.headD_nil, List.tail_nil, moved_peek hpeek here' hmoff,
          afterMove_peek (by exact hpeek), if_neg] at hends
        · refine ih ?_ ?_ ?_ ?_ ?_ ?_ ?_ ?_ ?_ s hends
          · exact hpeek
          · exact hmark
          · rw [Locals.ahead, if_pos (by exact hmark), hempty]
            exact hoff
          · exact here'.next rfl rfl
          · rfl
          · change (c.res.eor || mb.eor) = false
            rw [heor, hend, Bool.or_self]
          · change 0 < (c.move mb.data mb.data.length none).resid
            rw [hempty]
            simpa [Locals.move, reach] using hpos
          · change (c.move mb.data mb.data.length none).res.error = 0
            simpa [Locals.move] using herr
          · exact hgo
        · change ¬ (c.res.eor || mb.eor) = true
          rw [heor, hend, Bool.or_self]
          exact Bool.false_ne_true

theorem toNat_pos {mark : BitVec 32} (h : mark ≠ 0) : 0 < mark.toNat :=
  Nat.pos_of_ne_zero fun hzero => h (BitVec.eq_of_toNat_eq hzero)

theorem Sync.mark_ne (h : Sync so₁ so₂ c₁ c₂ np l) (hmark : so₂.oobmark ≠ 0) :
    so₁.oobmark ≠ 0 := by
  intro hzero
  have hsum := h.mark
  have hpos := toNat_pos hmark
  rw [hzero] at hsum
  change 0 = c₁.offset + so₂.oobmark.toNat at hsum
  omega

/-- Behind a copy that succeeds. -/
theorem move_none (c : Locals) (b : List UInt8) (len : ℕ) :
    (c.move b len none).resid = c.resid - len ∧ (c.move b len none).res.error = c.res.error := by
  simp [Locals.move, reach]

/-- The mark is inside of an mbuf, and more is wanted. -/
theorem inside_differ (h : Sync so₁ so₂ c₁ c₂ np (mb :: l)) (herr : c₁.res.error = 0)
    (hfits : fits c₁.type mb = true) (hmark : so₂.oobmark ≠ 0)
    (hin : so₂.oobmark.toNat < mb.data.length) (hmore : so₂.oobmark.toNat < c₁.resid) :
    Differ pr [] (moved pr so₁ c₁ so₂.oobmark.toNat none).1
      (moved pr so₂ c₂ so₂.oobmark.toNat none).1 := by
  obtain ⟨so₂', htake, hoob⟩ := moved_take_part pr none h.first h.front hin
  rw [moved_peek_part h.peek h.here h.moff hin, htake, afterMove_peek (by exact h.peek),
    if_neg (by exact ne_true_of_eq_false h.eor.1), waitHead_true]
  obtain ⟨so', t, heq⟩ := afterMove_mark pr so₂' true np (c := c₂.move _ _ none)
    h.first.peek (hoob ▸ hmark) (congrArg BitVec.toNat hoob)
  rw [heq]
  apply Stays.differ
  obtain ⟨np', hhere⟩ := h.here
  obtain ⟨hresid, herr'⟩ := move_none c₁ (mb.data.take so₂.oobmark.toNat) so₂.oobmark.toNat
  have hspins : Spins so₁ (Locals.ahead so₁
      { c₁.move (mb.data.take so₂.oobmark.toNat) so₂.oobmark.toNat none with
        moff := so₂.oobmark.toNat } so₂.oobmark.toNat) :=
    { peek := h.peek
      mark := h.mark_ne hmark
      offset := by
        rw [Locals.ahead, if_pos (h.mark_ne hmark), h.mark]
        rfl
      here := ⟨mb, _, np', hhere, hin, hfits⟩
      resid := by
        change 0 < (c₁.move (mb.data.take so₂.oobmark.toNat) so₂.oobmark.toNat none).resid
        omega
      error := herr'.trans herr
      eor := h.eor.1 }
  rw [hspins.loopHead]
  exact Spins.stays { hspins with }

/-- The mark is at the end of an mbuf, and a call that peeks goes on behind it. -/
theorem at_differ (h : Sync so₁ so₂ c₁ c₂ np (mb :: l)) (herr : c₁.res.error = 0)
    (hmark : so₂.oobmark ≠ 0) (hat : so₂.oobmark.toNat = mb.data.length) (hend : mb.eor = false)
    (hmore : so₂.oobmark.toNat < c₁.resid)
    (hgo : goesOn (waits pr c₁.args so₁) c₁.type l = true) :
    Differ pr [] (moved pr so₁ c₁ mb.data.length none).1
      (moved pr so₂ c₂ mb.data.length none).1 := by
  have heor : (peekWhole c₁ mb none).res.eor = false := (h.whole_eor _ _).1.trans hend
  obtain ⟨hresid, herr'⟩ := move_none c₁ mb.data mb.data.length
  obtain ⟨so', t, heq⟩ := afterMove_mark pr (freeFirst so₂ mb l np) (hasMbuf l) np
    (c := takeWhole c₂ mb none) h.first.peek hmark hat
  rw [moved_peek h.peek h.here h.moff, moved_take h.first h.front, heq,
    afterMove_peek (by exact h.peek), if_neg (ne_true_of_eq_false heor)]
  apply Stays.differ
  apply beyond_stays
  · exact h.peek
  · exact h.mark_ne hmark
  · rw [Locals.ahead, if_pos (h.mark_ne hmark), h.mark, hat]
    rfl
  · exact h.here.next rfl rfl
  · rfl
  · exact heor
  · change 0 < (c₁.move mb.data mb.data.length none).resid
    omega
  · exact herr'.trans herr
  · exact hgo

/-- The mark is at the end of the record and of what is wanted: behind a copy that fails, a call
that peeks waits. -/
theorem all_differ (h : Sync so₁ so₂ c₁ c₂ np [mb]) (hmp : c₁.args.mp = false)
    (hpos : 0 < c₁.resid) (hmark : so₂.oobmark ≠ 0) (hat : so₂.oobmark.toNat = mb.data.length)
    (hend : mb.eor = false) (hwaits : waits pr c₁.args so₁ = true) :
    Differ pr [] (moved pr so₁ c₁ mb.data.length (some 0)).1
      (moved pr so₂ c₂ mb.data.length (some 0)).1 := by
  have heor : (peekWhole c₁ mb (some 0)).res.eor = false := (h.whole_eor _ _).1.trans hend
  have hresid : (peekWhole c₁ mb (some 0)).resid = c₁.resid := by
    change (c₁.move mb.data mb.data.length (some 0)).resid = c₁.resid
    simp [Locals.move, reach, hmp]
  obtain ⟨so', t, heq⟩ := afterMove_mark pr (freeFirst so₂ mb [] np) (hasMbuf []) np
    (c := takeWhole c₂ mb (some 0)) h.first.peek hmark hat
  rw [moved_peek h.peek h.here h.moff, moved_take h.first h.front, heq,
    afterMove_peek (by exact h.peek), if_neg (ne_true_of_eq_false heor)]
  rw [hasMbuf_nil, waitHead_eq, if_pos ⟨hwaits, rfl, hresid.symm ▸ hpos⟩]
  apply Stays.differ
  intro s hends
  cases hends
  rfl

variable (pr) in
/-- A whole mbuf that ends nothing is copied, and there is another one. -/
theorem whole_step (h : Sync so₁ so₂ c₁ c₂ np (mb :: l)) (hmp : c₁.args.mp = true → mb.data = [])
    (hend : mb.eor = false) (hmark : so₂.oobmark = 0 ∨ mb.data.length < so₂.oobmark.toNat)
    (hl : l ≠ []) :
    ∃ mark : BitVec 32, mark.toNat = so₂.oobmark.toNat - mb.data.length ∧
      (mark = 0 → so₂.oobmark = 0) ∧
      (moved pr so₁ c₁ mb.data.length none).1 = (loopHead pr so₁
        ((peekWhole c₁ mb none).ahead so₁ mb.data.length) (hasMbuf l) .null).1 ∧
      (moved pr so₂ c₂ mb.data.length none).1 = (loopHead pr
        { freeFirst so₂ mb l np with oobmark := mark } (takeWhole c₂ mb none) (hasMbuf l) np).1 ∧
      Sync so₁ { freeFirst so₂ mb l np with oobmark := mark }
        ((peekWhole c₁ mb none).ahead so₁ mb.data.length) (takeWhole c₂ mb none) np l := by
  obtain ⟨heor₁, heor₂⟩ := h.whole_eor none mb
  obtain ⟨mb', l', rfl⟩ := List.exists_cons_of_ne_nil hl
  obtain ⟨mark, hnat, hzero, htake⟩ := afterMove_take pr
    (freeFirst so₂ mb (mb' :: l') np) (hasMbuf (mb' :: l')) np mb.data.length (c := takeWhole c₂ mb none)
    h.first.peek hmark
  have hsync := h.tail none hmp hend hmark hnat hzero
  refine ⟨mark, hnat, hzero, ?_, ?_, hsync⟩
  · rw [moved_peek h.peek h.here h.moff, afterMove_peek (by exact h.peek),
      if_neg (ne_true_of_eq_false (heor₁.trans hend)), hasMbuf_cons, waitHead_true]
  · rw [moved_take h.first h.front, htake, if_neg (ne_true_of_eq_false (heor₂.trans hend)),
      hasMbuf_cons, waitHead_true]

variable (pr) in
/-- Where `past` says so, the two calls differ. -/
theorem past_differs (h : Sync so₁ so₂ c₁ c₂ np l) (hmp : c₁.args.mp = false)
    (herr : c₁.res.error = 0) (hmark : so₂.oobmark ≠ 0) (hle : so₂.oobmark.toNat ≤ c₁.resid)
    (hpast : past (waits pr c₁.args so₁) (decide (so₂.oobmark.toNat < c₁.resid)) c₁.type
      so₂.oobmark.toNat l = true) :
    ∃ fails, ∀ b, Differ pr fails (loopHead pr so₁ c₁ (hasMbuf l) .null).1
      (loopHead pr { so₂ with rcvatmark := b } c₂ (hasMbuf l) np).1 := by
  induction l generalizing so₁ so₂ c₁ c₂ with
  | nil => exact absurd hpast Bool.false_ne_true
  | cons mb l ih =>
    have hpos₂ := toNat_pos hmark
    have hpos : 0 < c₁.resid := by omega
    have hfits : fits c₁.type mb = true := by
      by_contra hno
      rw [past, if_pos (by simpa using hno)] at hpast
      cases hpast
    rw [past, if_neg (by simp [hfits])] at hpast
    obtain ⟨np', hloc⟩ := id h.here
    have hloc₂ := locate_front h.first so₂
    rw [h.front] at hloc₂
    rw [Chain.ofList, setPkt] at hloc hloc₂
    -- the copy turns `SS_RCVATMARK` off
    have hhead (b : Bool) : loopHead pr { so₂ with rcvatmark := b } c₂ true np =
        (⟨{ so₂ with rcvatmark := false }, .copying c₂ (lenOf so₂ c₂ mb)⟩, []) := by
      rw [loopHead_cons (by exact hloc₂), ← h.resid, ← h.error, ← h.type,
        if_pos ⟨hpos, herr, hfits⟩]
      rfl
    rw [hasMbuf_cons, loopHead_cons hloc, if_pos ⟨hpos, herr, hfits⟩]
    simp only [hhead]
    rw [lenOf_eq h.mark h.zero h.offset h.resid (h.moff.trans h.first.moff.symm) mb]
    obtain ⟨hlenmark, -, hcases⟩ := lenOf_cases so₂ h.first h.offset mb
    replace hlenmark := hlenmark hmark
    generalize lenOf so₂ c₂ mb = len at hlenmark hcases
    rw [← h.resid] at hcases
    have hsync : Sync { so₁ with rcvatmark := false } { so₂ with rcvatmark := false } c₁ c₂ np
        (mb :: l) :=
      { h with }
    by_cases hin : so₂.oobmark.toNat < mb.data.length
    · rw [if_pos hin, decide_eq_true_iff] at hpast
      have hlen : len = so₂.oobmark.toNat := by omega
      rw [hlen]
      exact ⟨[none], fun _ => .move (inside_differ hsync herr hfits hmark hin hpast)⟩
    rw [if_neg hin] at hpast
    have hend : mb.eor = false := by
      by_contra hend
      rw [if_pos (eq_true_of_ne_false hend)] at hpast
      cases hpast
    rw [if_neg (ne_true_of_eq_false hend)] at hpast
    have hlen : len = mb.data.length := by omega
    rw [hlen]
    by_cases hat : so₂.oobmark.toNat = mb.data.length
    · rw [if_pos hat] at hpast
      by_cases hmore : so₂.oobmark.toNat < c₁.resid
      · rw [if_pos (decide_eq_true hmore)] at hpast
        exact ⟨[none], fun _ => .move (at_differ hsync herr hmark hat hend hmore hpast)⟩
      · rw [if_neg (by simpa using hmore), Bool.and_eq_true, List.isEmpty_iff] at hpast
        obtain ⟨hwaits, rfl⟩ := hpast
        exact ⟨[some 0], fun _ => .move (all_differ hsync hmp hpos hmark hat hend hwaits)⟩
    · rw [if_neg hat] at hpast
      have hl : l ≠ [] := by
        rintro rfl
        exact absurd hpast Bool.false_ne_true
      have hmark' : so₂.oobmark = 0 ∨ mb.data.length < so₂.oobmark.toNat := Or.inr (by omega)
      obtain ⟨mark, hnat, -, h₁, h₂, htail⟩ := whole_step pr hsync
        (fun hmp' => absurd hmp' (ne_true_of_eq_false hmp)) hend hmark' hl
      obtain ⟨hresid, herr'⟩ := move_none c₁ mb.data mb.data.length
      change mark.toNat = so₂.oobmark.toNat - mb.data.length at hnat
      have hmore : decide (mark.toNat < (c₁.move mb.data mb.data.length none).resid) =
          decide (so₂.oobmark.toNat < c₁.resid) := by
        congr 1
        apply propext
        omega
      have hex := ih htail hmp (herr'.trans herr) ?_ ?_ ?_
      · obtain ⟨fails, hdiffer⟩ := hex
        have hdiffer' := hdiffer false
        rw [← h₁] at hdiffer'
        refine ⟨none :: fails, fun _ => .move ?_⟩
        rw [List.headD_cons, h₂]
        exact hdiffer'
      · intro hzero
        change mark = 0 at hzero
        rw [hzero] at hnat
        change 0 = so₂.oobmark.toNat - mb.data.length at hnat
        omega
      · change mark.toNat ≤ (c₁.move mb.data mb.data.length none).resid
        omega
      · change past _ (decide (mark.toNat < (c₁.move mb.data mb.data.length none).resid)) c₁.type
          mark.toNat l = true
        rw [hmore, hnat]
        exact hpast

/-- Up to the mark there is an mbuf that is not empty. -/
theorem goesOn_of_past {w more : Bool} {type : MType} {k : ℕ} (hk : 0 < k)
    (h : past w more type k l = true) : goesOn false type l = true := by
  induction l generalizing k with
  | nil => exact nomatch h
  | cons mb l ih =>
    by_cases hfits : (!fits type mb) = true
    · rw [past, if_pos hfits] at h
      exact nomatch h
    rw [past, if_neg hfits] at h
    rw [goesOn, if_neg hfits]
    by_cases hdata : mb.data = []
    · have hlen : mb.data.length = 0 := by rw [hdata, List.length_nil]
      rw [if_neg (by omega)] at h
      rw [if_neg (not_not_intro hdata)]
      by_cases hend : mb.eor = true
      · rw [if_pos hend] at h
        exact nomatch h
      · rw [if_neg hend, if_neg (by omega), hlen, Nat.sub_zero] at h
        rw [if_neg hend]
        exact ih hk h
    · rw [if_pos hdata]

/-! ## Data that is passed back in mbufs -/

/-- A call has the data `d`, and if it goes on, then with the arguments `a`. -/
structure Carries (a : Args) (d : List UInt8) (x : St) : Prop where
  data : x.pc.result.2.data = d
  args : ∀ c len, x.pc = .copying c len → c.args = a

theorem Carries.returned (so : Sock) (a : Args) (r : Result) :
    Carries a r.data ⟨so, .returned r⟩ :=
  ⟨rfl, fun _ _ h => Pc.noConfusion h⟩

theorem finish_carries : Carries a r.data (finish pr so a r m np).1 := by
  rw [finish]
  split_ifs
  · exact .returned _ _ _
  · exact .returned _ _ _
  · exact ⟨rfl, fun _ _ h => Pc.noConfusion h⟩
  · exact .returned _ _ _

theorem loopHead_carries : Carries c.args c.res.data (loopHead pr so c m np).1 := by
  rw [loopHead]
  split
  · split_ifs
    · refine ⟨rfl, ?_⟩
      rintro _ _ ⟨⟩
      rfl
    · exact finish_carries
  · exact finish_carries

theorem waitHead_carries : Carries c.args c.res.data (waitHead pr so c m np).1 := by
  rw [waitHead]
  split_ifs
  · exact ⟨rfl, fun _ _ h => Pc.noConfusion h⟩
  · exact loopHead_carries

theorem afterMove_carries {d : List UInt8} (hargs : c.args = a) (hdata : c.res.data = d) :
    Carries a d (afterMove pr so c len m np).1 := by
  subst hargs hdata
  rw [afterMove]
  dsimp only
  split_ifs
  · exact finish_carries
  · exact finish_carries
  · exact waitHead_carries
  · exact finish_carries (r := c.res)
  · exact waitHead_carries (c := { c with offset := c.offset + len })
  · exact finish_carries
  · exact waitHead_carries

/-- A copy adds to the data of a call. -/
theorem moved_carries {next np' : Chain} (hloc : locate so c.recno c.pos = .mbuf mb next np') :
    Carries c.args (c.move ((mb.data.drop c.moff).take len) len fail).res.data
      (moved pr so c len fail).1 := by
  rw [moved, hloc]
  dsimp only
  split_ifs <;> exact afterMove_carries rfl rfl

variable (pr so c len fail) in
theorem moved_carries_some :
    ∃ b, Carries c.args (c.move b len fail).res.data (moved pr so c len fail).1 := by
  cases hloc : locate so c.recno c.pos with
  | null =>
    refine ⟨[], ?_⟩
    rw [moved, hloc, move_nil]
    exact .returned _ _ _
  | mbuf mb next np' => exact ⟨_, moved_carries hloc⟩

/-- A call that peeks passes no mbufs back. -/
theorem Ends.peek_data {x x' : St} {d : List UInt8} (h : Ends pr fails x x')
    (hx : Carries a d x) (hpeek : a.peek = true) (hmp : a.mp = true) :
    x'.pc.result.2.data = d := by
  induction h with
  | done => exact hx.data
  | @move fails so c len s' _ ih =>
    obtain ⟨b, hmoved⟩ := moved_carries_some pr so c len (fails.headD none)
    have hargs := hx.args c len rfl
    have hdata : (c.move b len (fails.headD none)).res.data = d := by
      rw [← hx.data]
      simp [Locals.move, Pc.result, hargs, hpeek, hmp]
    rw [hargs, hdata] at hmoved
    exact ih hmoved

theorem Ends.data_le {x x' : St} (h : Ends pr fails x x') :
    x.pc.result.2.data.length ≤ x'.pc.result.2.data.length := by
  induction h with
  | done => exact Nat.le_refl _
  | @move fails so c len s' _ ih =>
    obtain ⟨b, hmoved⟩ := moved_carries_some pr so c len (fails.headD none)
    refine Nat.le_trans ?_ ih
    rw [hmoved.data]
    change c.res.data.length ≤ (c.move b len _).res.data.length
    rw [Locals.move]
    dsimp only
    split_ifs
    · exact Nat.le_refl _
    · rw [List.length_append]
      exact Nat.le_add_right _ _

/-- Where bytes are to be passed back in mbufs, the two calls differ. -/
theorem mp_differs (h : Sync so₁ so₂ c₁ c₂ np l) (hmp : c₁.args.mp = true) (hpos : 0 < c₁.resid)
    (herr : c₁.res.error = 0) (hgo : goesOn false c₁.type l = true) :
    Differ pr [] (loopHead pr so₁ c₁ (hasMbuf l) .null).1
      (loopHead pr so₂ c₂ (hasMbuf l) np).1 := by
  induction l generalizing so₁ so₂ c₁ c₂ with
  | nil => exact nomatch hgo
  | cons mb l ih =>
    have hfits : fits c₁.type mb = true := by
      by_contra hno
      rw [goesOn, if_pos (by simpa using hno)] at hgo
      exact nomatch hgo
    rw [goesOn, if_neg (by simp [hfits])] at hgo
    obtain ⟨np', hloc⟩ := id h.here
    have hloc₂ := locate_front h.first so₂
    rw [h.front] at hloc₂
    rw [Chain.ofList, setPkt] at hloc hloc₂
    rw [hasMbuf_cons, loopHead_cons hloc, loopHead_cons hloc₂, ← h.resid, ← h.error, ← h.type,
      if_pos ⟨hpos, herr, hfits⟩, if_pos ⟨hpos, herr, hfits⟩]
    rw [lenOf_eq h.mark h.zero h.offset h.resid (h.moff.trans h.first.moff.symm) mb]
    obtain ⟨-, -, hcases⟩ := lenOf_cases so₂ h.first h.offset mb
    generalize lenOf so₂ c₂ mb = len at hcases
    rw [← h.resid] at hcases
    have hsync : Sync { so₁ with rcvatmark := false } { so₂ with rcvatmark := false } c₁ c₂ np
        (mb :: l) :=
      { h with }
    have hmp₂ : c₂.args.mp = true ∧ c₂.args.peek = false := by
      rw [h.args]
      exact ⟨hmp, rfl⟩
    by_cases hdata : mb.data = []
    · -- an empty mbuf: both go on
      rw [if_neg (not_not_intro hdata)] at hgo
      have hend : mb.eor = false := by
        by_contra hend
        rw [if_pos (eq_true_of_ne_false hend)] at hgo
        exact nomatch hgo
      rw [if_neg (ne_true_of_eq_false hend)] at hgo
      have hlen : len = mb.data.length := by
        rw [hdata, List.length_nil] at hcases ⊢
        omega
      rw [hlen]
      have hl : l ≠ [] := by
        rintro rfl
        exact nomatch hgo
      have hmark : so₂.oobmark = 0 ∨ mb.data.length < so₂.oobmark.toNat := by
        rw [hdata, List.length_nil]
        exact or_iff_not_imp_left.mpr toNat_pos
      obtain ⟨mark, -, -, h₁, h₂, htail⟩ := whole_step pr hsync (fun _ => hdata) hend
        hmark hl
      obtain ⟨hresid, herr'⟩ := move_none c₁ mb.data mb.data.length
      have hpos' : 0 < (c₁.move mb.data mb.data.length none).resid := by
        rw [hdata, List.length_nil] at hresid ⊢
        omega
      have hdiffer := ih htail hmp hpos' (herr'.trans herr) hgo
      rw [← h₁, ← h₂] at hdiffer
      exact .move hdiffer
    · intro s₁ s₂ h₁ h₂ hend
      have hpeeked : s₁.pc.result.2.data = c₁.res.data := by
        refine h₁.peek_data (a := c₁.args) ⟨rfl, ?_⟩ h.peek hmp
        rintro _ _ ⟨⟩
        rfl
      cases h₂ with
      | done hd => exact absurd rfl (hd _ _)
      | move h₂ =>
        have hloc₂' : locate { so₂ with rcvatmark := false } c₂.recno c₂.pos =
          .mbuf mb (.ofList l) np := hloc₂
        have hle := h₂.data_le
        rw [(moved_carries hloc₂').data, ← hend.res.data, hpeeked, h.res.data] at hle
        have hpos₁ := List.length_pos_of_ne_nil hdata
        have hlen : 0 < len ∧ len ≤ mb.data.length := by
          obtain rfl | ⟨hlt, rfl | ⟨hmark, rfl, -⟩⟩ := hcases
          · exact ⟨hpos₁, Nat.le_refl _⟩
          · exact ⟨hpos, hlt.le⟩
          · exact ⟨toNat_pos hmark, hlt.le⟩
        simp only [Locals.move, reach, hmp₂.1, hmp₂.2, Bool.false_eq_true, false_and, if_false,
          if_true, List.length_append, List.length_take, List.length_drop, h.first.moff] at hle
        omega

theorem fine_of_agrees {rs : List (List Mbuf)} (hrep : Rep so.rcv rs) (hagrees : Agrees pr a so) :
    PeekFine pr a so := by
  intro hent
  have hmb := hrep.mb
  cases rs with
  | nil =>
    rw [ofRecords] at hmb
    have hdata : dataOf pr (mbufs .null) = [] := by
      rw [mbufs, dataOf]
      split_ifs <;> rfl
    rw [hmb, hdata]
    exact ⟨fun _ _ => rfl, Or.inr (Or.inr rfl)⟩
  | cons r rest =>
    obtain ⟨mb, l, rfl⟩ := List.exists_cons_of_ne_nil (hrep.ne r List.mem_cons_self)
    rw [ofRecords, attach] at hmb
    rw [hmb, mbufs, mbufs_ofList]
    -- the calls whose rights can be passed, behind the head of the record
    have hext : ∀ m : Mbuf, ((0, m) : ℕ × Mbuf).1 = 0 := fun _ => rfl
    obtain ⟨so₂, c₁, c₂, hp, ht, hsync, hargs, hresid, htype, herr, hmark⟩ :=
      head_sync pr hext a hmb
    have hagree (fails : List (Option ℕ)) : ∃ b, ¬ Differ pr fails
        (loopHead pr so c₁ (hasMbuf (dataOf pr (mb :: l))) .null).1
        (loopHead pr { so₂ with rcvatmark := b } c₂ (hasMbuf (dataOf pr (mb :: l)))
          (ofRecords rest)).1 := by
      obtain ⟨s₁, s₂, h₁, ⟨b, hb⟩, h₂, hend⟩ := hagrees _ fails hext
      rw [hb, start_head (by exact hent) (by exact hmb), if_neg (by exact Bool.false_ne_true),
        ht b] at h₂
      rw [start_head (by exact hent) (by exact hmb), if_pos (by rfl), hp] at h₁
      exact ⟨b, fun hdiffer => hdiffer s₁ s₂ h₁ h₂ hend⟩
    have hpass (hmp : a.mp = true) (hpos : 0 < a.resid) :
        goesOn false (typeOf (dataOf pr (mb :: l))) (dataOf pr (mb :: l)) = false := by
      by_contra hgo
      obtain ⟨b, hb⟩ := hagree []
      have hsync' : Sync so { so₂ with rcvatmark := b } c₁ c₂ (ofRecords rest)
          (dataOf pr (mb :: l)) :=
        { hsync with }
      apply hb
      apply mp_differs hsync'
      · rw [hargs]
        exact hmp
      · rw [hresid]
        exact hpos
      · exact herr
      · rw [htype]
        exact eq_true_of_ne_false hgo
    refine ⟨hpass, ?_⟩
    by_contra hmarked
    rw [not_or, not_or, Nat.not_lt] at hmarked
    obtain ⟨hne, hle, hpast⟩ := hmarked
    replace hpast := eq_true_of_ne_false hpast
    have hpos : 0 < so.oobmark.toNat := Nat.pos_of_ne_zero hne
    have hmp : a.mp = false := by
      by_contra hmp
      have hgo := hpass (eq_true_of_ne_false hmp) (hpos.trans_le hle)
      exact ne_false_of_eq_true (goesOn_of_past hpos hpast) hgo
    have hne₂ : so₂.oobmark ≠ 0 := by
      intro hzero
      rw [hmark] at hzero
      exact hne (congrArg BitVec.toNat hzero)
    obtain ⟨fails, hdiffer⟩ := past_differs pr hsync (by rw [hargs]; exact hmp) herr hne₂
      (by rw [hmark, hresid]; exact hle) (by rw [hmark, hresid, htype, hargs]; exact hpast)
    obtain ⟨b, hb⟩ := hagree fails
    exact hb (hdiffer b)

/-- Peeking agrees with taking if and only if it is fine. -/
theorem agrees_iff {rs : List (List Mbuf)} (hrep : Rep so.rcv rs) (pr : Proto) (a : Args) :
    Agrees pr a so ↔ PeekFine pr a so :=
  ⟨fine_of_agrees hrep, agrees_of_fine hrep⟩

/-! ## A socket with a mark -/

/-- Ten bytes, and the mark behind five of them. -/
def marked : Sock :=
  { newSock with
    rcv := sbappend newBuf [dataBuf [0, 1, 2, 3, 4, 5, 6, 7, 8, 9]]
    oobmark := 5 }

def wanted (resid : ℕ) : Args := ⟨true, false, false, false, false, resid⟩

theorem marked_rep : Rep marked.rcv [[dataBuf [0, 1, 2, 3, 4, 5, 6, 7, 8, 9]]] := by
  refine ⟨?_, ?_, ?_, ?_, ?_⟩ <;> decide +kernel

theorem agrees_iff_marked : Agrees stream (wanted 4) marked :=
  (agrees_iff marked_rep stream (wanted 4)).mpr fun _ => ⟨nofun, Or.inr (Or.inl (by decide))⟩

/-- A call for ten bytes that peeks, behind the bytes `data`. -/
def peeked (data : List UInt8) : Locals :=
  ⟨wanted 10, 10 - data.length, { Result.none with data }, .data, 0, 0, data.length, data.length⟩

/-- Peeking at ten bytes does not come to an end behind the mark. -/
theorem not_agrees_iff : (∀ ext s, ¬ Ends stream [] (start stream ext (wanted 10) marked).1 s) ∧
    ¬ ∀ so rs, Rep so.rcv rs → ∀ pr a, Agrees pr a so := by
  have hends (ext : Mbuf → ℕ × Mbuf) (s : St) :
      ¬ Ends stream [] (start stream ext (wanted 10) marked).1 s := by
    have hstart : (start stream ext (wanted 10) marked).1 = ⟨marked, .copying (peeked []) 5⟩ := rfl
    have hmoved : (moved stream marked (peeked []) 5 none).1 =
        ⟨marked, .copying (peeked [0, 1, 2, 3, 4]) 0⟩ := rfl
    have hspins : Spins marked (peeked [0, 1, 2, 3, 4]) :=
      { peek := rfl
        mark := by decide
        offset := by decide
        here := ⟨_, _, _, rfl, by decide, by decide⟩
        resid := by decide
        error := rfl
        eor := rfl }
    rw [hstart]
    rintro (h | h)
    · exact absurd rfl (h (peeked []) 5)
    · rw [List.tail_nil, List.headD_nil, hmoved] at h
      exact hspins.endless h
  refine ⟨hends, ?_⟩
  intro hall
  obtain ⟨s, -, h, -⟩ := hall marked _ marked_rep stream (wanted 10) (fun m => (0, m)) []
    fun _ => rfl
  exact hends _ s h

end Soreceive
