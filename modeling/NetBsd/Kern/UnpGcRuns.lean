import Mathlib.Data.Finset.Lattice.Lemmas
import NetBsd.Kern.UnpGc

/-!
# What a collection does

The marking loop of `unp_gc` ends, with the mark on the files that descriptors reach. The last loop
then either finds nothing to discard, or discards the last right to a file, frees the file, and
follows its link: so the collection of rights in flight is right exactly when every right is held by
a socket that is reached.

## Main definitions

* `Marking s x t`: the marks of `t` on the files of `s`, all scanned but `x` and the deferred ones
* `Garbage`: a file that the last loop discards

## Main results

* `markLoop_spec`: the marks are those of the files reached
* `discardAll_fails`: the last right to a file is not discarded in peace
* `collects_iff`: when a collection does what it has to
-/

namespace UnpGc

variable {s t u : State} {desc : ℕ → ℕ} {fp g : ℕ} {f : File}

/-- The rights held by the socket of a file. -/
def heldBy (s : State) (fp : ℕ) : List ℕ :=
  match s.file fp with
  | none => []
  | some f => f.fData.elim [] (rightsOf s)

theorem Reach.held (h : Reach s fp) (hg : g ∈ heldBy s fp) : Reach s g := by
  unfold heldBy at hg
  cases hf : s.file fp with
  | none => simp [hf] at hg
  | some f =>
    cases hd : f.fData with
    | none => simp [hf, hd] at hg
    | some so => exact h.right hf hd (by simpa [hf, hd] using hg)

/-- A file that is reached is referenced. -/
theorem Reach.alive (hx : Exact desc s) (h : Reach s fp) :
    ∃ f, s.file fp = some f ∧ 0 < f.fCount := by
  induction h with
  | @root fp f hf hne =>
    have hc := hx.count fp f hf
    have hm := hx.msgcount fp f hf
    exact ⟨f, hf, by omega⟩
  | @right fp f so g _ hf hd hg _ =>
    have hin : g ∈ inFlight s :=
      List.mem_flatMap.mpr ⟨so, hx.mem_sockets so (hx.data fp f so hf hd), hg⟩
    obtain ⟨f', hf'⟩ := Option.ne_none_iff_exists'.mp ((hx.mem_filehead g).mp (hx.alive g hin))
    have hc := hx.count g f' hf'
    have hm := hx.msgcount g f' hf'
    have hpos := List.count_pos_iff.mpr hin
    exact ⟨f', hf', by omega⟩

/-! ## Marking -/

/-- The states differ in marks only. -/
structure Same (s t : State) : Prop where
  filehead : t.filehead = s.filehead
  file : t.file = s.file
  sockets : t.sockets = s.sockets
  socket : t.socket = s.socket
  unpRights : t.unpRights = s.unpRights

/-- The deferred files. -/
def deferred (s : State) (fdefer : ℕ → Bool) : Finset ℕ :=
  {fp ∈ s.filehead.toFinset | fdefer fp = true}

/-- The marks of `t` on the files of `s`: what is marked is reached, and what is held by the socket
of a marked file is marked too, unless the file is deferred or is `x`. -/
structure Marking (s : State) (x : Option ℕ) (t : State) : Prop where
  same : Same s t
  sound : ∀ {fp}, t.fmark fp = true → Reach s fp
  defer : ∀ {fp}, t.fdefer fp = true → t.fmark fp = true ∧ fp ∈ s.filehead
  scanned : ∀ {fp}, t.fmark fp = true → t.fdefer fp = false → x ≠ some fp →
    ∀ g ∈ heldBy s fp, t.fmark g = true
  count : t.unpDefer = (deferred s t.fdefer).card

/-- What marking leaves: marks stay, and a file deferred afterwards was deferred, or not marked. -/
structure Grows (t u : State) : Prop where
  mono : ∀ {fp}, t.fmark fp = true → u.fmark fp = true
  newly : ∀ {fp}, u.fdefer fp = true → t.fdefer fp = true ∨ t.fmark fp = false

theorem Grows.refl (t : State) : Grows t t := ⟨id, .inl⟩

theorem Grows.trans {v : State} (h : Grows t u) (h' : Grows u v) : Grows t v where
  mono := fun hm => h'.mono (h.mono hm)
  newly := by
    intro fp hd
    rcases h'.newly hd with hd | hm
    · exact h.newly hd
    · right
      by_contra hne
      rw [h.mono (Bool.eq_true_of_not_eq_false hne)] at hm
      cases hm

theorem unpMark_spec {x : Option ℕ} (hx : Exact desc s) (h : Marking s x t) (hg : Reach s g) :
    ∃ u, unpMark g t = .ok u ∧ Marking s x u ∧ Grows t u ∧ u.fmark g = true := by
  obtain ⟨f, hf, -⟩ := hg.alive hx
  have hmem : g ∈ s.filehead := (hx.mem_filehead g).mpr (by simp [hf])
  have hft : t.file g = some f := by rw [h.same.file, hf]
  simp only [unpMark, hft]
  by_cases hm : t.fmark g = true
  · rw [if_pos hm]
    exact ⟨t, rfl, h, .refl t, hm⟩
  rw [if_neg hm]
  have hnd : t.fdefer g ≠ true := fun hd => hm (h.defer hd).1
  refine ⟨_, rfl, ⟨⟨h.same.1, h.same.2, h.same.3, h.same.4, h.same.5⟩, ?_, ?_, ?_, ?_⟩,
    ⟨?_, ?_⟩, Function.update_self ..⟩
  · intro fp hfp
    by_cases heq : fp = g
    · exact heq ▸ hg
    · exact h.sound (by simpa [heq] using hfp)
  · intro fp hfp
    by_cases heq : fp = g
    · subst heq
      exact ⟨Function.update_self .., hmem⟩
    · have := h.defer (by simpa [heq] using hfp)
      simpa [heq] using this
  · intro fp hfp hd hxp y hy
    by_cases heq : fp = g
    · simp [heq] at hd
    · have hy' := h.scanned (by simpa [heq] using hfp) (by simpa [heq] using hd) hxp y hy
      by_cases hyg : y = g
      · simp [hyg]
      · simpa [hyg] using hy'
  · have hset : deferred s (Function.update t.fdefer g true) =
        insert g (deferred s t.fdefer) := by
      ext y
      by_cases hyg : y = g
      · simp [deferred, hyg, hmem]
      · simp [deferred, hyg]
    have hnot : g ∉ deferred s t.fdefer := by simp [deferred, hnd]
    have hcount := h.count
    dsimp only
    rw [hset, Finset.card_insert_of_notMem hnot]
    push_cast
    omega
  · intro fp hfp
    by_cases heq : fp = g
    · simp [heq]
    · simpa [heq] using hfp
  · intro fp hfp
    by_cases heq : fp = g
    · subst heq
      exact .inr (Bool.eq_false_of_not_eq_true hm)
    · exact .inl (by simpa [heq] using hfp)

theorem markRights_spec {x : Option ℕ} (hx : Exact desc s) {l : List ℕ} (h : Marking s x t)
    (hl : ∀ g ∈ l, Reach s g) :
    ∃ u, l.foldlM (fun s fp => unpMark fp s) t = .ok u ∧ Marking s x u ∧ Grows t u ∧
      ∀ g ∈ l, u.fmark g = true := by
  induction l generalizing t with
  | nil => exact ⟨t, rfl, h, .refl t, by simp⟩
  | cons g rest ih =>
    obtain ⟨v, hv, hmv, hgv, hg⟩ := unpMark_spec hx h (hl g List.mem_cons_self)
    obtain ⟨u, hu, hmu, hgu, hrest⟩ := ih hmv fun y hy => hl y (List.mem_cons_of_mem _ hy)
    refine ⟨u, ?_, hmu, hgv.trans hgu, ?_⟩
    · rw [List.foldlM_cons, hv]
      exact hu
    · intro y hy
      rcases List.mem_cons.mp hy with rfl | hy
      · exact hgu.mono hg
      · exact hrest y hy

/-- The scan of a file marks what its socket holds. -/
theorem scanFile_spec (hx : Exact desc s) (h : Marking s (some fp) t) (hf : s.file fp = some f)
    (hr : Reach s fp) : ∃ u, scanFile f t = .ok u ∧ Marking s none u ∧ Grows t u := by
  have hheld : ∃ u, scanFile f t = .ok u ∧ Marking s (some fp) u ∧ Grows t u ∧
      ∀ g ∈ heldBy s fp, u.fmark g = true := by
    unfold scanFile
    cases hd : f.fData with
    | none => exact ⟨t, rfl, h, .refl t, by simp [heldBy, hf, hd]⟩
    | some so =>
      obtain ⟨sk, hsk⟩ := Option.ne_none_iff_exists'.mp (hx.data fp f so hf hd)
      simp only [h.same.socket, hsk]
      by_cases hp : sk.passesRights = true
      · have heq : heldBy s fp = scan sk.soRcv := by simp [heldBy, hf, hd, rightsOf, hsk, hp]
        rw [if_pos hp, heq]
        exact markRights_spec hx h fun g hg => hr.held (by rw [heq]; exact hg)
      · have heq : heldBy s fp = [] := by simp [heldBy, hf, hd, rightsOf, hsk, hp]
        rw [if_neg hp, heq]
        exact ⟨t, rfl, h, .refl t, by simp⟩
  obtain ⟨u, hu, hm, hg, hall⟩ := hheld
  refine ⟨u, hu, ⟨hm.same, hm.sound, hm.defer, ?_, hm.count⟩, hg⟩
  intro y hy hd _ z hz
  by_cases heq : y = fp
  · exact hall z (heq ▸ hz)
  · exact hm.scanned hy hd (fun hsome => heq (Option.some.inj hsome).symm) z hz

/-- A file is visited: it is no longer deferred, and marked when it has a reference that is not a
right. -/
theorem visit_spec (hx : Exact desc s) (h : Marking s none t) (hmem : fp ∈ s.filehead) :
    ∃ u, visit t fp = .ok u ∧ Marking s none u ∧ (∀ {y}, t.fmark y = true → u.fmark y = true) ∧
      (∀ {y}, u.fdefer y = true → (t.fdefer y = true ∧ y ≠ fp) ∨ t.fmark y = false) ∧
      (∀ f, s.file fp = some f → f.fCount ≠ f.fMsgcount → u.fmark fp = true) := by
  obtain ⟨f, hf⟩ := Option.ne_none_iff_exists'.mp ((hx.mem_filehead fp).mp hmem)
  have hft : t.file fp = some f := by rw [h.same.file, hf]
  have hroot : Reach s fp → f.fCount ≠ 0 := by
    intro hr
    obtain ⟨f', hf', hpos⟩ := hr.alive hx
    obtain rfl := Option.some.inj (hf.symm.trans hf')
    omega
  simp only [visit, hft]
  by_cases hz : f.fCount = 0
  · rw [if_pos hz]
    refine ⟨t, rfl, h, id, ?_, ?_⟩
    · intro y hy
      refine .inl ⟨hy, ?_⟩
      rintro rfl
      exact hroot (h.sound (h.defer hy).1) hz
    · intro f' hf' hne
      obtain rfl := Option.some.inj (hf.symm.trans hf')
      exact absurd hz (hroot (.root hf hne))
  rw [if_neg hz]
  by_cases hd : t.fdefer fp = true
  · -- a deferred file is scanned now
    rw [if_pos hd]
    obtain ⟨hm, -⟩ := h.defer hd
    have hset : insert fp (deferred s (Function.update t.fdefer fp false)) =
        deferred s t.fdefer := by
      ext y
      by_cases hy : y = fp
      · simp [deferred, hy, hmem, hd]
      · simp [deferred, hy]
    have hnot : fp ∉ deferred s (Function.update t.fdefer fp false) := by simp [deferred]
    have hmark : Marking s (some fp) { t with
        fdefer := Function.update t.fdefer fp false, unpDefer := t.unpDefer - 1 } := by
      refine ⟨⟨h.same.1, h.same.2, h.same.3, h.same.4, h.same.5⟩, h.sound, ?_, ?_, ?_⟩
      · intro y hy
        by_cases hyf : y = fp
        · simp [hyf] at hy
        · exact h.defer (by simpa [hyf] using hy)
      · intro y hy hyd hne z hz
        have hyf : y ≠ fp := fun heq => hne (by rw [heq])
        exact h.scanned hy (by simpa [hyf] using hyd) (by simp) z hz
      · have hcount := h.count
        rw [← hset, Finset.card_insert_of_notMem hnot] at hcount
        dsimp only
        omega
    obtain ⟨u, hu, hmu, hg⟩ := scanFile_spec hx hmark hf (h.sound hm)
    refine ⟨u, hu, hmu, fun hy => hg.mono hy, ?_, fun _ _ _ => hg.mono hm⟩
    intro y hy
    rcases hg.newly hy with hy | hy
    · by_cases hyf : y = fp
      · simp [hyf] at hy
      · exact .inl ⟨by simpa [hyf] using hy, hyf⟩
    · exact .inr hy
  rw [if_neg hd]
  have hold {y} (hy : t.fdefer y = true) : t.fdefer y = true ∧ y ≠ fp :=
    ⟨hy, fun heq => hd (heq ▸ hy)⟩
  by_cases hm : t.fmark fp = true
  · rw [if_pos hm]
    exact ⟨t, rfl, h, id, fun hy => .inl (hold hy), fun _ _ _ => hm⟩
  rw [if_neg hm]
  by_cases heq : f.fCount = f.fMsgcount
  · rw [if_pos heq]
    refine ⟨t, rfl, h, id, fun hy => .inl (hold hy), fun f' hf' hne => ?_⟩
    obtain rfl := Option.some.inj (hf.symm.trans hf')
    exact absurd heq hne
  · -- a file with a descriptor is marked and scanned
    rw [if_neg heq]
    have hr : Reach s fp := .root hf heq
    have hmark : Marking s (some fp) { t with fmark := Function.update t.fmark fp true } := by
      refine ⟨⟨h.same.1, h.same.2, h.same.3, h.same.4, h.same.5⟩, ?_, ?_, ?_, h.count⟩
      · intro y hy
        by_cases hyf : y = fp
        · exact hyf ▸ hr
        · exact h.sound (by simpa [hyf] using hy)
      · intro y hy
        by_cases hyf : y = fp
        · exact absurd (hyf ▸ hy) hd
        · have := h.defer hy
          simpa [hyf] using this
      · intro y hy hyd hne z hz
        have hyf : y ≠ fp := fun heq => hne (by rw [heq])
        have hz' := h.scanned (by simpa [hyf] using hy) hyd (by simp) z hz
        by_cases hzf : z = fp
        · simp [hzf]
        · simpa [hzf] using hz'
    obtain ⟨u, hu, hmu, hg⟩ := scanFile_spec hx hmark hf hr
    refine ⟨u, hu, hmu, ?_, ?_, fun _ _ _ => hg.mono (Function.update_self ..)⟩
    · intro y hy
      apply hg.mono
      by_cases hyf : y = fp
      · simp [hyf]
      · simpa [hyf] using hy
    · intro y hy
      rcases hg.newly hy with hy | hy
      · exact .inl (hold hy)
      · right
        by_cases hyf : y = fp
        · simp [hyf] at hy
        · simpa [hyf] using hy

/-- One turn of the marking loop over a part of the list. -/
theorem turn_spec (hx : Exact desc s) {l : List ℕ} (h : Marking s none t)
    (hl : ∀ y ∈ l, y ∈ s.filehead) :
    ∃ u, l.foldlM visit t = .ok u ∧ Marking s none u ∧ (∀ {y}, t.fmark y = true → u.fmark y = true) ∧
      (∀ {y}, u.fdefer y = true → (t.fdefer y = true ∧ y ∉ l) ∨ t.fmark y = false) ∧
      (∀ y ∈ l, ∀ f, s.file y = some f → f.fCount ≠ f.fMsgcount → u.fmark y = true) := by
  induction l generalizing t with
  | nil => exact ⟨t, rfl, h, id, fun hy => .inl ⟨hy, List.not_mem_nil⟩, by simp⟩
  | cons fp rest ih =>
    obtain ⟨v, hv, hmv, hmono, hnew, hroot⟩ := visit_spec hx h (hl fp List.mem_cons_self)
    obtain ⟨u, hu, hmu, hmono', hnew', hroot'⟩ := ih hmv fun y hy => hl y (List.mem_cons_of_mem _ hy)
    refine ⟨u, ?_, hmu, fun hy => hmono' (hmono hy), ?_, ?_⟩
    · rw [List.foldlM_cons, hv]
      exact hu
    · intro y hy
      rcases hnew' hy with ⟨hd, hrest⟩ | hm
      · rcases hnew hd with ⟨hd, hne⟩ | hm
        · exact .inl ⟨hd, by simp [hne, hrest]⟩
        · exact .inr hm
      · right
        by_contra hne
        rw [hmono (Bool.eq_true_of_not_eq_false hne)] at hm
        cases hm
    · intro y hy f hf hne
      rcases List.mem_cons.mp hy with rfl | hy
      · exact hmono' (hroot f hf hne)
      · exact hroot' y hy f hf hne

/-- The files without a mark. -/
def unmarked (s : State) (fmark : ℕ → Bool) : Finset ℕ :=
  {fp ∈ s.filehead.toFinset | fmark fp = false}

/-- The marking loop ends, after at most one turn for each file without a mark and one more, with
the mark on the files that are reached. -/
theorem markLoop_spec (hx : Exact desc s) (n : ℕ) (h : Marking s none t) :
    (markLoop n t = .error .loop ∧ n ≤ (unmarked s t.fmark).card) ∨
      ∃ u, markLoop n t = .ok u ∧ Same s u ∧ ∀ fp, u.fmark fp = true ↔ Reach s fp := by
  induction n generalizing t with
  | zero => exact .inl ⟨rfl, Nat.zero_le _⟩
  | succ n ih =>
    obtain ⟨u, hu, hmu, hmono, hnew, hroot⟩ := turn_spec hx h fun y hy => hy
    have hstep : markLoop (n + 1) t = if u.unpDefer ≠ 0 then markLoop n u else .ok u := by
      rw [markLoop, h.same.filehead, hu]
      rfl
    rw [hstep]
    by_cases hz : u.unpDefer ≠ 0
    · rw [if_pos hz]
      refine (ih hmu).imp ?_ id
      rintro ⟨hloop, hle⟩
      refine ⟨hloop, ?_⟩
      -- a file that is still deferred has got its mark in this turn
      have hpos : 0 < (deferred s u.fdefer).card := by
        have hcount := hmu.count
        omega
      obtain ⟨y, hy⟩ := Finset.card_pos.mp hpos
      simp only [deferred, Finset.mem_filter, List.mem_toFinset] at hy
      obtain ⟨hmem, hd⟩ := hy
      have hty : t.fmark y = false := by
        rcases hnew hd with ⟨-, hno⟩ | hm
        · exact absurd hmem hno
        · exact hm
      have hlt : (unmarked s u.fmark).card < (unmarked s t.fmark).card := by
        apply Finset.card_lt_card
        rw [Finset.ssubset_iff_of_subset]
        · refine ⟨y, by simp [unmarked, hmem, hty], ?_⟩
          simp [unmarked, (hmu.defer hd).1]
        · intro z hz
          simp only [unmarked, Finset.mem_filter, List.mem_toFinset] at hz ⊢
          refine ⟨hz.1, ?_⟩
          by_contra hne
          rw [hmono (Bool.eq_true_of_not_eq_false hne)] at hz
          exact absurd hz.2 (by decide)
      omega
    · rw [if_neg hz]
      refine .inr ⟨u, rfl, hmu.same, fun fp => ⟨hmu.sound, fun hr => ?_⟩⟩
      have hnone : deferred s u.fdefer = ∅ := by
        apply Finset.card_eq_zero.mp
        have hcount := hmu.count
        omega
      have hclear (y : ℕ) : u.fdefer y = false := by
        by_contra hne
        have hd := Bool.eq_true_of_not_eq_false hne
        have hin : y ∈ deferred s u.fdefer := by simp [deferred, (hmu.defer hd).2, hd]
        rw [hnone] at hin
        cases hin
      -- the marks contain the roots and are closed
      induction hr with
      | @root fp f hf hne =>
        have hmem : fp ∈ s.filehead := (hx.mem_filehead fp).mpr (by simp [hf])
        exact hroot fp hmem f hf hne
      | @right fp f so g _ hf hd hg ihr =>
        exact hmu.scanned ihr (hclear fp) (by simp) g (by simpa [heldBy, hf, hd] using hg)

/-! ## The last loop -/

/-- A file that the last loop discards. -/
def Garbage (s : State) (fp : ℕ) : Prop :=
  ∃ f, s.file fp = some f ∧ f.fCount ≠ 0 ∧ f.fCount = f.fMsgcount ∧ ¬Reach s fp

/-- The last right to a file is not discarded in peace: the file is freed with it, and then read. -/
theorem discardAll_fails (m k : ℕ) (hf : s.file fp = some f) (heq : f.fCount = f.fMsgcount)
    (hpos : 0 < f.fMsgcount) : ∀ v, discardAll (unpDiscard m) fp k s ≠ .ok v := by
  intro v hv
  induction k generalizing s f with
  | zero => cases hv
  | succ k ih =>
    simp only [discardAll, hf, if_pos (ne_of_gt hpos)] at hv
    cases m with
    | zero => cases hv
    | succ m =>
      cases hd : unpDiscard (m + 1) fp s with
      | error e =>
        rw [hd] at hv
        cases hv
      | ok u =>
        rw [hd] at hv
        replace hv : discardAll (unpDiscard (m + 1)) fp k u = .ok v := hv
        simp only [unpDiscard, hf, closef, State.setFile, Function.update_self] at hd
        split at hd
        next hmore =>
          -- further rights are left
          have hu : u.file fp = some ⟨f.fCount - 1, f.fMsgcount - 1, f.fData⟩ := by
            cases hd
            exact Function.update_self ..
          exact ih hu (by dsimp only; omega) (by dsimp only at hmore ⊢; omega) hv
        next =>
          split at hd
          · cases hd
          · have hgone : u.file fp = none := by
              obtain ⟨w, -, hw⟩ := Fault.bind_eq_ok.mp hd
              cases hw
              exact Function.update_self ..
            cases k with
            | zero => cases hv
            | succ k =>
              simp only [discardAll, hgone] at hv
              cases hv

theorem nextFile_append {pre rest : List ℕ} (hn : (pre ++ fp :: rest).Nodup) :
    nextFile fp (pre ++ fp :: rest) = rest.head? := by
  induction pre with
  | nil => simp [nextFile]
  | cons x pre ih =>
    have hne : x ≠ fp := by
      rintro rfl
      simp at hn
    rw [List.cons_append, nextFile, if_neg hne]
    exact ih (List.nodup_cons.mp hn).2

/-- What the last loop does with a file whose mark is right. -/
theorem sweep_spec (hx : Exact desc s) (hs : Same s u)
    (hmark : ∀ fp, u.fmark fp = true ↔ Reach s fp) (m : ℕ) (hf : s.file fp = some f) :
    (¬Garbage s fp → sweep m fp f u = .ok u) ∧ (Garbage s fp → ∀ v, sweep m fp f u ≠ .ok v) := by
  have hunmarked : u.fmark fp = false ↔ ¬Reach s fp := by
    rw [← hmark fp]
    simp
  have hfu : u.file fp = some f := by rw [hs.file, hf]
  constructor
  · intro hno
    apply if_neg
    rintro ⟨hz, heq, hm⟩
    exact hno ⟨f, hf, hz, heq, hunmarked.mp hm⟩
  · rintro ⟨f', hf', hz, heq, hr⟩ v
    obtain rfl := Option.some.inj (hf.symm.trans hf')
    rw [sweep, if_pos ⟨hz, heq, hunmarked.mpr hr⟩]
    have hm := hx.msgcount fp f hf
    exact discardAll_fails m m hfu heq (by omega) v

/-- The last loop over the rest of the list. -/
theorem sweepFrom_spec (hx : Exact desc s) (hs : Same s u)
    (hmark : ∀ fp, u.fmark fp = true ↔ Reach s fp) (m n : ℕ) {pre rest : List ℕ}
    (hl : s.filehead = pre ++ rest) :
    ((∀ fp ∈ rest, ¬Garbage s fp) → sweepFrom m n rest.head? u = .ok u ∨
      sweepFrom m n rest.head? u = .error .loop ∧ n < rest.length) ∧
    ((∃ fp ∈ rest, Garbage s fp) → ∀ v, sweepFrom m n rest.head? u ≠ .ok v) := by
  induction rest generalizing pre n with
  | nil => exact ⟨fun _ => .inl (by cases n <;> rfl), by simp⟩
  | cons fp rest ih =>
    have hmem : fp ∈ s.filehead := by rw [hl]; simp
    obtain ⟨f, hf⟩ := Option.ne_none_iff_exists'.mp ((hx.mem_filehead fp).mp hmem)
    have hfu : u.file fp = some f := by rw [hs.file, hf]
    obtain ⟨hkeep, hfail⟩ := sweep_spec hx hs hmark m hf
    have hnodup : (pre ++ fp :: rest).Nodup := hl ▸ hx.nodup
    cases n with
    | zero =>
      refine ⟨fun _ => .inr ⟨rfl, by simp⟩, fun _ v hv => ?_⟩
      cases hv
    | succ n =>
      have hnext : nextFile fp u.filehead = rest.head? := by
        rw [hs.filehead, hl, nextFile_append hnodup]
      obtain ⟨ihkeep, ihfail⟩ := @ih n (pre ++ [fp]) (by rw [hl]; simp)
      simp only [List.head?_cons, sweepFrom, hfu]
      constructor
      · intro hno
        rw [hkeep (hno fp List.mem_cons_self)]
        simp only [bind, Except.bind, hfu, hnext]
        exact (ihkeep fun y hy => hno y (List.mem_cons_of_mem _ hy)).imp id fun ⟨hloop, hlt⟩ =>
          ⟨hloop, by simpa using hlt⟩
      · rintro ⟨y, hy, hgy⟩ v hv
        obtain ⟨w, hw, hv⟩ := Fault.bind_eq_ok.mp hv
        by_cases hg : Garbage s fp
        · exact hfail hg w hw
        · rw [hkeep hg] at hw
          cases hw
          simp only [hfu, hnext] at hv
          have hrest : y ∈ rest := by
            rcases List.mem_cons.mp hy with rfl | hy
            · exact absurd hgy hg
            · exact hy
          exact ihfail ⟨y, hrest, hgy⟩ v hv

/-- The state in which the marking loop begins. -/
def started (s : State) : State :=
  { s with unpGcing := true, unpDefer := 0, fmark := fun _ => false, fdefer := fun _ => false }

theorem marking_started (s : State) : Marking s none (started s) := by
  refine ⟨⟨rfl, rfl, rfl, rfl, rfl⟩, by simp [started], by simp [started], by simp [started], ?_⟩
  simp [started, deferred]

theorem unpGc_eq (hx : Exact desc s) (n : ℕ) : unpGc n s = (do
    let t ← markLoop n (started s)
    let t ← sweepFrom n n t.filehead.head? t
    .ok { t with unpGcing := false }) := by
  rw [unpGc, hx.idle]
  rfl

/-- With garbage, a collection does not return. -/
theorem unpGc_fails (hx : Exact desc s) (hg : Garbage s fp) (n : ℕ) (v : State) :
    unpGc n s ≠ .ok v := by
  rw [unpGc_eq hx]
  intro hv
  obtain ⟨u, hu, hv⟩ := Fault.bind_eq_ok.mp hv
  obtain ⟨w, hw, -⟩ := Fault.bind_eq_ok.mp hv
  rcases markLoop_spec hx n (marking_started s) with ⟨hloop, -⟩ | ⟨u', hu', hs, hmark⟩
  · rw [hu] at hloop
    cases hloop
  · rw [hu] at hu'
    cases hu'
    rw [hs.filehead] at hw
    obtain ⟨f, hf, -⟩ := id hg
    have hmem : fp ∈ s.filehead := (hx.mem_filehead fp).mpr (by simp [hf])
    exact (sweepFrom_spec hx hs hmark n n (List.nil_append _).symm).2 ⟨fp, hmem, hg⟩ w hw

/-- Without garbage, a collection returns and changes nothing but marks. -/
theorem unpGc_keeps (hx : Exact desc s) (hg : ∀ fp, ¬Garbage s fp) :
    (∃ n v, unpGc n s = .ok v) ∧ ∀ n v, unpGc n s = .ok v → Same s v := by
  constructor
  · refine ⟨s.filehead.length + 1, ?_⟩
    rw [unpGc_eq hx]
    have hcard : (unmarked s (started s).fmark).card ≤ s.filehead.length :=
      (Finset.card_filter_le _ _).trans (List.toFinset_card_le _)
    rcases markLoop_spec hx (s.filehead.length + 1) (marking_started s) with
      ⟨-, hle⟩ | ⟨u, hu, hs, hmark⟩
    · omega
    · rcases (sweepFrom_spec hx hs hmark (s.filehead.length + 1) (s.filehead.length + 1)
        (List.nil_append _).symm).1 fun fp _ => hg fp with hok | ⟨-, hlt⟩
      · exact ⟨_, by rw [hu]; simp only [bind, Except.bind, hs.filehead, hok]; rfl⟩
      · omega
  · intro n v hv
    rw [unpGc_eq hx] at hv
    obtain ⟨u, hu, hv⟩ := Fault.bind_eq_ok.mp hv
    obtain ⟨w, hw, hv⟩ := Fault.bind_eq_ok.mp hv
    rcases markLoop_spec hx n (marking_started s) with ⟨hloop, -⟩ | ⟨u', hu', hs, hmark⟩
    · rw [hu] at hloop
      cases hloop
    · rw [hu] at hu'
      cases hu'
      rw [hs.filehead] at hw
      rcases (sweepFrom_spec hx hs hmark n n (List.nil_append _).symm).1 fun fp _ => hg fp with
        hok | ⟨hloop, -⟩
      · rw [hok] at hw
        cases hw
        cases hv
        exact ⟨hs.1, hs.2, hs.3, hs.4, hs.5⟩
      · rw [hloop] at hw
        cases hw

theorem Same.rightsOf (h : Same s t) (so : ℕ) : rightsOf t so = rightsOf s so := by
  rw [UnpGc.rightsOf, UnpGc.rightsOf, h.socket]

theorem Same.inFlight (h : Same s t) : inFlight t = inFlight s := by
  rw [UnpGc.inFlight, UnpGc.inFlight, h.sockets]
  congr 1
  funext so
  exact h.rightsOf so

/-- A file without descriptors, with rights in flight, is held by some socket. -/
theorem held_iff : fp ∈ inFlight s ↔ ∃ so ∈ s.sockets, fp ∈ rightsOf s so := List.mem_flatMap

theorem Garbage.held (hx : Exact desc s) (h : Garbage s fp) :
    ∃ so, fp ∈ rightsOf s so ∧ ¬ReachSocket s so := by
  obtain ⟨f, hf, hz, heq, hr⟩ := h
  have hc := hx.count fp f hf
  have hm := hx.msgcount fp f hf
  have hin : fp ∈ inFlight s := List.count_pos_iff.mp (by omega)
  obtain ⟨so, -, hso⟩ := held_iff.mp hin
  refine ⟨so, hso, ?_⟩
  rintro ⟨x, fx, hrx, hfx, hd⟩
  exact hr (hrx.right hfx hd hso)

/-- A collection of rights in flight does what it has to exactly when it has nothing to do: every
socket that holds rights is reached from a descriptor. -/
theorem collects_iff (hx : Exact desc s) :
    Collects desc s ↔ ∀ so, rightsOf s so ≠ [] → ReachSocket s so := by
  constructor
  · rintro ⟨n, v, hv, -, hnone, -⟩ so hso
    by_contra hno
    by_cases hg : ∃ fp, Garbage s fp
    · obtain ⟨fp, hg⟩ := hg
      exact unpGc_fails hx hg n v hv
    · have hsame := (unpGc_keeps hx (not_exists.mp hg)).2 n v hv
      exact hso ((hsame.rightsOf so).symm.trans (hnone so hno))
  · intro hall
    have hg : ∀ fp, ¬Garbage s fp := by
      intro fp hg
      obtain ⟨so, hso, hno⟩ := hg.held hx
      exact hno (hall so (List.ne_nil_of_mem hso))
    obtain ⟨⟨n, v, hv⟩, hkeep⟩ := unpGc_keeps hx hg
    have hsame := hkeep n v hv
    refine ⟨n, v, hv, fun so _ => hsame.rightsOf so, ?_, ?_, ?_, ?_⟩
    · intro so hno
      rw [hsame.rightsOf]
      by_contra hne
      exact hno (hall so hne)
    · intro fp hmem
      obtain ⟨f, hf⟩ := Option.ne_none_iff_exists'.mp ((hx.mem_filehead fp).mp hmem)
      rw [hsame.file, hf]
      refine ⟨(fun h => by cases h), ?_⟩
      rintro ⟨hz, hin, hr⟩
      have hc := hx.count fp f hf
      have hm := hx.msgcount fp f hf
      have hpos := List.count_pos_iff.mpr hin
      exact absurd ⟨f, hf, by omega, by omega, hr⟩ (hg fp)
    · rw [hsame.unpRights, hx.rights, hsame.inFlight]
    · intro fp f hf
      rw [hsame.file] at hf
      have hc := hx.count fp f hf
      have hm := hx.msgcount fp f hf
      omega

/-! ## Two graphs -/

/-- A record that holds the right to file 0. -/
def rightToZero : List Mbuf := [⟨true, true, [0]⟩]

/-- File 0 is in flight in the socket of file 1, which has a descriptor. -/
def sent : State where
  filehead := [0, 1]
  file fp := if fp = 0 then some ⟨1, 1, none⟩ else if fp = 1 then some ⟨1, 0, some 0⟩ else none
  fmark _ := false
  fdefer _ := false
  sockets := [0]
  socket so := if so = 0 then some ⟨true, [rightToZero], [], []⟩ else none
  unpRights := 1
  unpDefer := 0
  unpGcing := false

theorem sent_exact : Exact (fun fp => if fp = 1 then 1 else 0) sent where
  nodup := by decide
  mem_filehead := by
    intro fp
    by_cases h0 : fp = 0
    · simp [sent, h0]
    · by_cases h1 : fp = 1 <;> simp [sent, h0, h1]
  mem_sockets := by simp [sent]
  data := by
    intro fp f so hf hd
    by_cases h0 : fp = 0
    · simp [sent, h0] at hf
      simp [← hf] at hd
    · by_cases h1 : fp = 1
      · simp [sent, h1] at hf
        simp [← hf] at hd
        simp [sent, ← hd]
      · simp [sent, h0, h1] at hf
  alive := by decide
  msgcount := by
    intro fp f hf
    by_cases h0 : fp = 0
    · subst h0
      obtain rfl := Option.some.inj hf
      rfl
    · by_cases h1 : fp = 1
      · subst h1
        obtain rfl := Option.some.inj hf
        rfl
      · simp [sent, h0, h1] at hf
  count := by
    intro fp f hf
    by_cases h0 : fp = 0
    · subst h0
      obtain rfl := Option.some.inj hf
      rfl
    · by_cases h1 : fp = 1
      · subst h1
        obtain rfl := Option.some.inj hf
        rfl
      · simp [sent, h0, h1] at hf
  rights := rfl
  idle := rfl

/-- The right is kept. -/
theorem collects_iff_sent : Collects (fun fp => if fp = 1 then 1 else 0) sent := by
  refine (collects_iff sent_exact).mpr fun so hso => ?_
  by_cases h0 : so = 0
  · have hroot : Reach sent 1 := @Reach.root sent 1 ⟨1, 0, some 0⟩ rfl (by decide)
    exact ⟨1, ⟨1, 0, some 0⟩, hroot, rfl, by rw [h0]⟩
  · simp [rightsOf, sent, h0] at hso

/-- The socket of file 0 holds the only right to file 0. -/
def cycle : State where
  filehead := [0]
  file fp := if fp = 0 then some ⟨1, 1, some 0⟩ else none
  fmark _ := false
  fdefer _ := false
  sockets := [0]
  socket so := if so = 0 then some ⟨true, [rightToZero], [], []⟩ else none
  unpRights := 1
  unpDefer := 0
  unpGcing := false

theorem cycle_exact : Exact (fun _ => 0) cycle where
  nodup := by decide
  mem_filehead := by
    intro fp
    by_cases h0 : fp = 0 <;> simp [cycle, h0]
  mem_sockets := by simp [cycle]
  data := by
    intro fp f so hf hd
    by_cases h0 : fp = 0
    · simp [cycle, h0] at hf
      simp [← hf] at hd
      simp [cycle, ← hd]
    · simp [cycle, h0] at hf
  alive := by decide
  msgcount := by
    intro fp f hf
    by_cases h0 : fp = 0
    · subst h0
      obtain rfl := Option.some.inj hf
      rfl
    · simp [cycle, h0] at hf
  count := by
    intro fp f hf
    by_cases h0 : fp = 0
    · subst h0
      obtain rfl := Option.some.inj hf
      rfl
    · simp [cycle, h0] at hf
  rights := rfl
  idle := rfl

/-- Disposing of the buffer of a socket that is closed by the collection discards rights that the
collection has discarded: `closef` panics. -/
theorem not_collects : Exact (fun _ => 0) cycle ∧ unpGc 3 cycle = .error .panic ∧
    ¬Collects (fun _ => 0) cycle := by
  refine ⟨cycle_exact, rfl, ?_⟩
  rintro ⟨n, v, hv, -⟩
  suffices hr : ¬Reach cycle 0 from
    unpGc_fails cycle_exact ⟨⟨1, 1, some 0⟩, rfl, by decide, rfl, hr⟩ n v hv
  intro hr
  -- nothing is reached
  have hno : ∀ x, Reach cycle x → False := by
    intro x hx
    induction hx with
    | @root fp f hf hne =>
      by_cases h0 : fp = 0
      · subst h0
        obtain rfl := Option.some.inj hf
        exact hne rfl
      · simp [cycle, h0] at hf
    | right _ _ _ _ ih => exact ih
  exact hno 0 hr

end UnpGc
