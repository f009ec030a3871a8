import Mathlib
import NetBsd.Kern.ProcGroup

/-!
# The counts for job control

What `fixjobc` does to the counts, and the number that a count stands for: the members of the group
that are no zombies and have their parent in another group of the session. Moving a process to
another group changes what the process and its children contribute to these numbers, and nothing
else.

## Main definitions

* `State.qualifies`, `State.number`: the members that count for their group, and how many there are
* `State.shift`: a change of the counts alone
* `targets`: the groups that `fixjobc` adjusts

## Main results

* `fixjobc_enter`, `fixjobc_leave`: `fixjobc` shifts the counts by its targets
* `number_eq`: the number of a group is made up of the targets of a process and a rest
-/

namespace ProcGroup

open Function

namespace State

variable (s : State)

/-- The session of a group. -/
def sess (g : ℕ) : Option ℕ := (s.pgrp g).map (·.session)

/-- The members of a group. -/
def mem (g : ℕ) : List ℕ := (s.pgrp g).elim [] (·.mem)

/-- The count of a group. -/
def jobc (g : ℕ) : ℤ := (s.pgrp g).elim 0 (·.jobc)

/-- The group of a process. -/
def grp (c : ℕ) : ℕ := (s.proc c).elim 0 (·.pgrp)

/-- Different groups of one session. -/
def Across (a b : ℕ) : Prop := a ≠ b ∧ s.sess a = s.sess b

instance (a b : ℕ) : Decidable (s.Across a b) := inferInstanceAs (Decidable (_ ∧ _))

/-- The process is no zombie, and counts for its group if its parent is in the group `x`. -/
def joins (x c : ℕ) : Bool :=
  match s.proc c with
  | none => false
  | some r => !r.zombie && decide (s.Across x r.pgrp)

/-- The process counts for its group. -/
def qualifies (c : ℕ) : Bool :=
  match (s.proc c).bind fun r => r.pptr.bind s.proc with
  | none => false
  | some q => s.joins q.pgrp c

/-- How many members count for the group. -/
def number (g : ℕ) : ℕ := (s.mem g).countP s.qualifies

/-- Change the counts, and the log of `orphanpg`. -/
def shift (d : ℕ → ℤ) (log : List ℕ) : State :=
  { s with
    pgrp := fun g => (s.pgrp g).map fun r => { r with jobc := r.jobc + d g }
    orphaned := log }

section Shift

variable {s} (d : ℕ → ℤ) (log : List ℕ)

@[simp] theorem shift_proc : (s.shift d log).proc = s.proc := rfl

@[simp] theorem shift_session : (s.shift d log).session = s.session := rfl

@[simp] theorem shift_pgrphash : (s.shift d log).pgrphash = s.pgrphash := rfl

@[simp] theorem shift_orphaned : (s.shift d log).orphaned = log := rfl

@[simp] theorem shift_sess : (s.shift d log).sess = s.sess := by
  funext g
  simp only [sess, shift, Option.map_map]
  rfl

@[simp] theorem shift_mem : (s.shift d log).mem = s.mem := by
  funext g
  simp only [mem, shift]
  cases s.pgrp g <;> rfl

@[simp] theorem shift_grp : (s.shift d log).grp = s.grp := rfl

@[simp] theorem shift_across : (s.shift d log).Across = s.Across := by
  funext a b
  simp only [Across, shift_sess]

@[simp] theorem shift_joins : (s.shift d log).joins = s.joins := by
  funext x c
  unfold joins
  rw [shift_proc]
  cases s.proc c with
  | none => rfl
  | some r => simp only [shift_across]

@[simp] theorem shift_qualifies : (s.shift d log).qualifies = s.qualifies := by
  funext c
  simp only [qualifies, shift_joins, shift_proc]

theorem shift_shift (d' : ℕ → ℤ) (log' : List ℕ) :
    (s.shift d log).shift d' log' = s.shift (d + d') log' := by
  simp only [shift, Option.map_map]
  congr 1
  funext g
  congr 1
  funext r
  simp [Int.add_assoc]

theorem shift_zero : s.shift 0 s.orphaned = s := by
  simp [shift]

theorem shift_jobc {g : ℕ} (hd : s.sess g = none → d g = 0) :
    (s.shift d log).jobc g = s.jobc g + d g := by
  cases h : s.pgrp g with
  | none =>
    have hz : d g = 0 := hd (by simp [sess, h])
    simp [jobc, shift, h, hz]
  | some r => simp [jobc, shift, h]

end Shift

end State

/-! ## The adjustments -/

variable {s : State}

/-- The adjustments of a list of groups. -/
def adjustAll (entering : Bool) : List ℕ → State → Option State
  | [], s => some s
  | g :: gs, s => (adjust s g entering).bind (adjustAll entering gs)

theorem adjust_enter {g : ℕ} (hg : (s.sess g).isSome) :
    adjust s g true = some (s.shift (Pi.single g 1) s.orphaned) := by
  obtain ⟨r, hr⟩ : ∃ r, s.pgrp g = some r := by simpa [State.sess, Option.isSome_iff_exists] using hg
  simp only [adjust, hr, Option.bind_eq_bind, Option.bind_some, if_true, State.setPgrp, State.shift]
  congr 2
  funext g'
  by_cases h : g' = g
  · subst h
    simp [hr]
  · simp [h]

theorem adjust_leave {g : ℕ} (hg : (s.sess g).isSome) :
    adjust s g false = some (s.shift (Pi.single g (-1))
      (if s.jobc g = 1 then g :: s.orphaned else s.orphaned)) := by
  obtain ⟨r, hr⟩ : ∃ r, s.pgrp g = some r := by simpa [State.sess, Option.isSome_iff_exists] using hg
  have hset : update s.pgrp g (some { r with jobc := r.jobc - 1 }) =
      fun g' => (s.pgrp g').map fun v => { v with jobc := v.jobc + (Pi.single g (-1) : ℕ → ℤ) g' } := by
    funext g'
    by_cases h : g' = g
    · subst h
      simp [hr, Int.sub_eq_add_neg]
    · simp [h]
  have hjobc : s.jobc g = r.jobc := by simp [State.jobc, hr]
  have hone : r.jobc - 1 = 0 ↔ r.jobc = 1 := by omega
  simp only [adjust, hr, Option.bind_eq_bind, Option.bind_some, Bool.false_eq_true, if_false, hjobc]
  split_ifs with h₁ h₂ h₂
  · simp only [orphanpg, State.setPgrp, State.shift, hset]
  · exact absurd (hone.mp h₁) h₂
  · exact absurd (hone.mpr h₂) h₁
  · simp only [State.setPgrp, State.shift, hset]

theorem adjustAll_enter {gs : List ℕ} (hgs : ∀ g ∈ gs, (s.sess g).isSome) :
    adjustAll true gs s = some (s.shift (fun g => (gs.count g : ℤ)) s.orphaned) := by
  induction gs generalizing s with
  | nil => exact congrArg some State.shift_zero.symm
  | cons g gs ih =>
    have hrest : ∀ g' ∈ gs, ((s.shift (Pi.single g 1) s.orphaned).sess g').isSome := by
      intro g' hg'
      rw [State.shift_sess]
      exact hgs g' (List.mem_cons_of_mem g hg')
    rw [adjustAll, adjust_enter (hgs g List.mem_cons_self), Option.bind_some, ih hrest,
      State.shift_shift]
    congr 2
    funext g'
    by_cases h : g' = g
    · subst h
      simp [Int.add_comm]
    · simp [h, Ne.symm h]

/-- Taken out of all groups of the list, where no count falls below zero: a count that reaches
zero is noted once. -/
theorem adjustAll_leave (gs : List ℕ) (hgs : ∀ g ∈ gs, (s.sess g).isSome)
    (hle : ∀ g, (gs.count g : ℤ) ≤ s.jobc g) :
    ∃ log, adjustAll false gs s = some (s.shift (fun g => -(gs.count g : ℤ)) log) ∧
      ∀ g, log.count g = s.orphaned.count g +
        if 0 < gs.count g ∧ s.jobc g = gs.count g then 1 else 0 := by
  induction gs generalizing s with
  | nil =>
    refine ⟨s.orphaned, ?_, ?_⟩
    · exact congrArg some (State.shift_zero (s := s)).symm
    · intro g
      simp
  | cons g gs ih =>
    have hg := hgs g List.mem_cons_self
    have hjobc : ∀ (log : List ℕ) (g' : ℕ), (s.shift (Pi.single g (-1)) log).jobc g' =
        s.jobc g' + (Pi.single g (-1) : ℕ → ℤ) g' := by
      intro log g'
      apply State.shift_jobc
      intro hnone
      have hne : g' ≠ g := by
        rintro rfl
        rw [hnone] at hg
        cases hg
      exact Pi.single_eq_of_ne hne _
    rw [adjustAll, adjust_leave hg, Option.bind_some]
    generalize hlog : (if s.jobc g = 1 then g :: s.orphaned else s.orphaned) = log₀
    have hrest : ∀ g' ∈ gs, ((s.shift (Pi.single g (-1)) log₀).sess g').isSome := by
      intro g' hg'
      rw [State.shift_sess]
      exact hgs g' (List.mem_cons_of_mem g hg')
    have hle' : ∀ g', (gs.count g' : ℤ) ≤ (s.shift (Pi.single g (-1)) log₀).jobc g' := by
      intro g'
      have h := hle g'
      rw [hjobc]
      by_cases he : g' = g
      · subst he
        simp only [List.count_cons_self, Pi.single_eq_same] at h ⊢
        omega
      · rw [List.count_cons_of_ne (Ne.symm he)] at h
        simpa [he] using h
    obtain ⟨log, hrun, hcount⟩ := ih hrest hle'
    refine ⟨log, ?_, ?_⟩
    · rw [hrun, State.shift_shift]
      congr 2
      funext g'
      by_cases he : g' = g
      · subst he
        simp only [Pi.add_apply, Pi.single_eq_same, List.count_cons_self]
        omega
      · simp [he, List.count_cons_of_ne (Ne.symm he)]
    · intro g'
      rw [hcount g', hjobc, State.shift_orphaned]
      have h := hle g'
      by_cases he : g' = g
      · subst he
        simp only [List.count_cons_self, Pi.single_eq_same] at h ⊢
        subst hlog
        by_cases hone : s.jobc g' = 1
        · -- the last one: nothing of the group is left in the list
          have hzero : gs.count g' = 0 := by omega
          simp [hone, hzero]
        · have hiff : (0 < gs.count g' ∧ s.jobc g' + -1 = (gs.count g' : ℤ)) ↔
              (0 < gs.count g' + 1 ∧ s.jobc g' = ((gs.count g' + 1 : ℕ) : ℤ)) := by omega
          rw [if_neg hone]
          simp only [hiff]
      · subst hlog
        rw [List.count_cons_of_ne (Ne.symm he)]
        have hc : (if s.jobc g = 1 then g :: s.orphaned else s.orphaned).count g' =
            s.orphaned.count g' := by
          split_ifs
          · exact List.count_cons_of_ne (Ne.symm he)
          · rfl
        simp [he, hc]

/-! ## The targets -/

/-- The groups that `fixjobc` adjusts for a process in the group `x`, with its parent in the group
`y` and with the children `kids`. -/
def targets (s : State) (y x : ℕ) (kids : List ℕ) : List ℕ :=
  (if s.Across y x then [x] else []) ++ (kids.filter (s.joins x)).map s.grp

theorem sess_of_pgrp {g : ℕ} {r : Pgrp} (h : s.pgrp g = some r) : s.sess g = some r.session := by
  simp [State.sess, h]

theorem pgrp_of_sess {g k : ℕ} (h : s.sess g = some k) :
    ∃ r, s.pgrp g = some r ∧ r.session = k := by
  simpa [State.sess] using h

/-- `adjust` leaves everything but the counts. -/
theorem adjust_shift {g : ℕ} (entering : Bool) (hg : (s.sess g).isSome) :
    ∃ d log, adjust s g entering = some (s.shift d log) := by
  cases entering with
  | true => exact ⟨_, _, adjust_enter hg⟩
  | false => exact ⟨_, _, adjust_leave hg⟩

theorem fixChildren_eq {x k : ℕ} {kids : List ℕ} {entering : Bool} (hx : s.sess x = some k)
    (hkids : ∀ c ∈ kids, ∃ r, s.proc c = some r ∧ (s.sess r.pgrp).isSome) :
    fixChildren x k entering kids s =
      adjustAll entering ((kids.filter (s.joins x)).map s.grp) s := by
  induction kids generalizing s with
  | nil => rfl
  | cons c cs ih =>
    obtain ⟨r, hr, hsome⟩ := hkids c List.mem_cons_self
    obtain ⟨k', hk'⟩ := Option.isSome_iff_exists.mp hsome
    obtain ⟨h, hh, hhk⟩ := pgrp_of_sess hk'
    have hrest : ∀ c' ∈ cs, ∃ r, s.proc c' = some r ∧ (s.sess r.pgrp).isSome :=
      fun c' hc' => hkids c' (List.mem_cons_of_mem c hc')
    have hcond : s.joins x c = true ↔ r.pgrp ≠ x ∧ h.session = k ∧ r.zombie = false := by
      simp only [State.joins, hr, Bool.and_eq_true, Bool.not_eq_true', decide_eq_true_eq,
        State.Across, hx, hk', hhk, Option.some.injEq]
      tauto
    simp only [fixChildren, hr, hh, Option.bind_eq_bind, Option.bind_some]
    by_cases hj : s.joins x c = true
    · have hgrp : s.grp c = r.pgrp := by simp [State.grp, hr]
      rw [if_pos (hcond.mp hj), List.filter_cons_of_pos hj, List.map_cons, adjustAll, hgrp]
      obtain ⟨d, log, hadj⟩ := adjust_shift entering hsome
      rw [hadj, Option.bind_some, Option.bind_some, ih]
      · simp
      · simpa using hx
      · simpa using hrest
    · rw [if_neg (mt hcond.mpr hj), List.filter_cons_of_neg hj]
      exact ih hx hrest

theorem fixjobc_eq {p x q : ℕ} {pr qr : Proc} {entering : Bool} (hp : s.proc p = some pr)
    (hpq : pr.pptr = some q) (hq : s.proc q = some qr) (hx : (s.sess x).isSome)
    (hqs : (s.sess qr.pgrp).isSome)
    (hkids : ∀ c ∈ pr.children, ∃ r, s.proc c = some r ∧ (s.sess r.pgrp).isSome) :
    fixjobc s p x entering = adjustAll entering (targets s qr.pgrp x pr.children) s := by
  obtain ⟨k, hk⟩ := Option.isSome_iff_exists.mp hx
  obtain ⟨g, hg, hgk⟩ := pgrp_of_sess hk
  obtain ⟨k', hk'⟩ := Option.isSome_iff_exists.mp hqs
  obtain ⟨h, hh, hhk⟩ := pgrp_of_sess hk'
  have hcond : s.Across qr.pgrp x ↔ qr.pgrp ≠ x ∧ h.session = g.session := by
    simp only [State.Across, hk, hk', hgk, hhk, Option.some.injEq]
  simp only [fixjobc, hg, hp, hpq, hq, hh, Option.bind_eq_bind, Option.bind_some, targets, hgk]
  rw [hgk] at hcond
  by_cases hown : s.Across qr.pgrp x
  · rw [if_pos (hcond.mp hown), if_pos hown, List.singleton_append, adjustAll]
    obtain ⟨d, log, hadj⟩ := adjust_shift entering hx
    rw [hadj, Option.bind_some, Option.bind_some, fixChildren_eq]
    · simp
    · simpa using hk
    · simpa using hkids
  · rw [if_neg (mt hcond.mpr hown), if_neg hown, List.nil_append]
    exact fixChildren_eq hk hkids

/-! ## The number of a group -/

/-- Two lists without repetitions have the same members in common. -/
theorem countP_mem_comm {l m : List ℕ} (hl : l.Nodup) (hm : m.Nodup) (q : ℕ → Bool) :
    l.countP (fun c => decide (c ∈ m) && q c) = m.countP (fun c => decide (c ∈ l) && q c) := by
  rw [List.countP_eq_length_filter, List.countP_eq_length_filter]
  apply List.Perm.length_eq
  rw [List.perm_ext_iff_of_nodup (hl.filter _) (hm.filter _)]
  intro c
  simp only [List.mem_filter, Bool.and_eq_true, decide_eq_true_eq]
  tauto

/-- A count split at one member and at the members of another list. -/
theorem countP_split (l kids : List ℕ) {p : ℕ} (hp : p ∉ kids) (q : ℕ → Bool) :
    l.countP q = l.countP (fun c => decide (c = p) && q c) +
      l.countP (fun c => decide (c ∈ kids) && q c) +
      l.countP (fun c => decide (c ≠ p ∧ c ∉ kids) && q c) := by
  induction l with
  | nil => rfl
  | cons c l ih =>
    simp only [List.countP_cons, ih]
    by_cases hc : c = p
    · subst hc
      cases q c <;> simp [hp]
      omega
    · by_cases hk : c ∈ kids <;> cases q c <;> simp [hc, hk] <;> omega

/-- The links between processes and groups, and between groups and sessions. -/
structure Groups (s : State) : Prop where
  member : ∀ {p pr}, s.proc p = some pr → p ∈ s.mem pr.pgrp
  mem : ∀ {g p}, p ∈ s.mem g → ∃ pr, s.proc p = some pr ∧ pr.pgrp = g
  nodup : ∀ g, (s.mem g).Nodup
  hash : s.pgrphash.Nodup
  hashed : ∀ g, g ∈ s.pgrphash ↔ (s.sess g).isSome
  session : ∀ {g k}, s.sess g = some k → (s.session k).isSome
  count : ∀ {k v}, s.session k = some v →
    v.count = s.pgrphash.countP fun g => decide (s.sess g = some k)

theorem sess_of_mem {g p : ℕ} (h : p ∈ s.mem g) : (s.sess g).isSome := by
  cases hg : s.pgrp g with
  | none => simp [State.mem, hg] at h
  | some r => simp [State.sess, hg]

theorem Groups.isSome (hg : Groups s) {p : ℕ} {pr : Proc} (hp : s.proc p = some pr) :
    (s.sess pr.pgrp).isSome :=
  sess_of_mem (hg.member hp)

theorem Groups.mem_iff (hg : Groups s) {p g : ℕ} {pr : Proc} (hp : s.proc p = some pr) :
    p ∈ s.mem g ↔ pr.pgrp = g := by
  constructor
  · intro h
    obtain ⟨pr', hp', hpg⟩ := hg.mem h
    rw [hp] at hp'
    cases hp'
    exact hpg
  · rintro rfl
    exact hg.member hp

/-- The members of a group, without a process and its children, that count for it. -/
def restOf (s : State) (p : ℕ) (kids : List ℕ) (g : ℕ) : ℕ :=
  (s.mem g).countP fun c => decide (c ≠ p ∧ c ∉ kids) && s.qualifies c

/-- What the process and its children add to a group is what `fixjobc` counts. -/
theorem number_eq (hg : Groups s) {p q : ℕ} {pr qr : Proc} (hp : s.proc p = some pr)
    (hlive : pr.zombie = false) (hpq : pr.pptr = some q) (hq : s.proc q = some qr)
    (hself : p ∉ pr.children) (hnodup : pr.children.Nodup)
    (hkids : ∀ c ∈ pr.children, ∃ r, s.proc c = some r ∧ r.pptr = some p) (g : ℕ) :
    s.number g = (targets s qr.pgrp pr.pgrp pr.children).count g + restOf s p pr.children g := by
  have hown : (s.mem g).countP (fun c => decide (c = p) && s.qualifies c) =
      if s.Across qr.pgrp pr.pgrp then [pr.pgrp].count g else 0 := by
    have hqual : s.qualifies p = decide (s.Across qr.pgrp pr.pgrp) := by
      simp [State.qualifies, State.joins, hp, hpq, hq, hlive]
    have hcount : (s.mem g).countP (fun c => decide (c = p) && s.qualifies c) =
        if s.qualifies p then (s.mem g).count p else 0 := by
      rw [List.count_eq_countP]
      split_ifs with hyes
      · apply List.countP_congr
        intro c _
        by_cases hc : c = p <;> simp [hc, hyes]
      · apply List.countP_eq_zero.mpr
        intro c _
        by_cases hc : c = p <;> simp [hc, hyes]
    rw [hcount, hqual]
    simp only [decide_eq_true_eq]
    congr 1
    by_cases he : pr.pgrp = g
    · rw [List.count_eq_one_of_mem (hg.nodup g) ((hg.mem_iff hp).mpr he), he]
      simp
    · rw [List.count_eq_zero.mpr (mt (hg.mem_iff hp).mp he)]
      simp [he]
  have hkid : (s.mem g).countP (fun c => decide (c ∈ pr.children) && s.qualifies c) =
      (((pr.children.filter (s.joins pr.pgrp)).map s.grp)).count g := by
    rw [countP_mem_comm (hg.nodup g) hnodup, List.count_eq_countP, List.countP_map,
      List.countP_filter]
    apply List.countP_congr
    intro c hc
    obtain ⟨r, hr, hrp⟩ := hkids c hc
    have hqual : s.qualifies c = s.joins pr.pgrp c := by
      simp [State.qualifies, hr, hrp, hp]
    simp only [hg.mem_iff hr, hqual, State.grp, hr, Function.comp, Option.elim_some, beq_iff_eq,
      Bool.and_eq_true, decide_eq_true_eq]
  rw [State.number, countP_split (s.mem g) pr.children hself, hown, hkid, targets,
    List.count_append, restOf]
  congr 2
  split_ifs <;> simp

/-! ## What the number depends on -/

/-- What the groups see of a process. -/
def Proc.face (r : Proc) : Bool × ℕ × Option ℕ := (r.zombie, r.pgrp, r.pptr)

variable {s' : State}

theorem joins_congr (hproc : s'.proc = s.proc) (hsess : s'.sess = s.sess) :
    s'.joins = s.joins := by
  have hac : s'.Across = s.Across := by
    funext a b
    rw [State.Across, State.Across, hsess]
  funext x c
  unfold State.joins
  rw [hproc]
  cases s.proc c with
  | none => rfl
  | some r => simp only [hac]

/-- A process counts as before if it looks as before, its parent is in the group it was in, and the
sessions of groups with members are the same. -/
theorem qualifies_congr (hg : Groups s) {c : ℕ}
    (hc : (s'.proc c).map Proc.face = (s.proc c).map Proc.face)
    (hpar : ∀ {cr q}, s.proc c = some cr → cr.pptr = some q →
      (s'.proc q).map Proc.pgrp = (s.proc q).map Proc.pgrp)
    (hsess : ∀ g, s.mem g ≠ [] → s'.sess g = s.sess g) : s'.qualifies c = s.qualifies c := by
  cases hr : s.proc c with
  | none =>
    have hr' : s'.proc c = none := by simpa [hr] using hc
    simp [State.qualifies, hr, hr']
  | some r =>
    rw [hr] at hc
    obtain ⟨r', hr', hface⟩ : ∃ r', s'.proc c = some r' ∧ r'.face = r.face := by simpa using hc
    simp only [Proc.face, Prod.mk.injEq] at hface
    obtain ⟨hz, hgrp, hp⟩ := hface
    have hmem : ∀ {p pr}, s.proc p = some pr → s'.sess pr.pgrp = s.sess pr.pgrp :=
      fun hp => hsess _ (List.ne_nil_of_mem (hg.member hp))
    cases hq : r.pptr with
    | none => simp [State.qualifies, hr, hr', hp, hq]
    | some q =>
      have hpg := hpar hr hq
      cases hqr : s.proc q with
      | none =>
        have hqr' : s'.proc q = none := by simpa [hqr] using hpg
        simp [State.qualifies, hr, hr', hp, hq, hqr, hqr']
      | some qr =>
        rw [hqr] at hpg
        obtain ⟨qr', hqr', hpg'⟩ : ∃ qr', s'.proc q = some qr' ∧ qr'.pgrp = qr.pgrp := by
          simpa using hpg
        have hac : s'.Across qr.pgrp r.pgrp ↔ s.Across qr.pgrp r.pgrp := by
          simp only [State.Across, hmem hr, hmem hqr]
        simp [State.qualifies, State.joins, hr, hr', hp, hq, hqr, hqr', hpg', hgrp, hz, hac]

/-- Processes and members as before, and sessions too of the groups with members. -/
theorem number_congr (hg : Groups s) (hproc : s'.proc = s.proc) (hmem : s'.mem = s.mem)
    (hsess : ∀ g, s.mem g ≠ [] → s'.sess g = s.sess g) : s'.number = s.number := by
  funext g
  have hqual : s'.qualifies = s.qualifies := by
    funext c
    exact qualifies_congr hg (by rw [hproc]) (fun _ _ => by rw [hproc]) hsess
  rw [State.number, State.number, hmem, hqual]

section Set

variable {g : ℕ} {r : Pgrp} (m : List ℕ)

theorem setPgrp_sess (hr : s.pgrp g = some r) :
    (s.setPgrp g { r with mem := m }).sess = s.sess := by
  funext g'
  by_cases h : g' = g
  · subst h
    simp [State.sess, State.setPgrp, hr]
  · simp [State.sess, State.setPgrp, h]

theorem setPgrp_jobc (hr : s.pgrp g = some r) :
    (s.setPgrp g { r with mem := m }).jobc = s.jobc := by
  funext g'
  by_cases h : g' = g
  · subst h
    simp [State.jobc, State.setPgrp, hr]
  · simp [State.jobc, State.setPgrp, h]

theorem setPgrp_mem : (s.setPgrp g { r with mem := m }).mem = update s.mem g m := by
  funext g'
  by_cases h : g' = g
  · subst h
    simp [State.mem, State.setPgrp]
  · simp [State.mem, State.setPgrp, h]

theorem mem_of_pgrp (hr : s.pgrp g = some r) : s.mem g = r.mem := by
  simp [State.mem, hr]

end Set

end ProcGroup
