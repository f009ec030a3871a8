import NetBsd.Kern.ProcGroupCounts

/-!
# Moves between process groups

The invariant of the process groups, and `enterpgrp`: it adjusts the counts by what the process and
its children add to the new group and to the old one, moves the process, and makes or deletes
groups without members.

## Main definitions

* `Family`, `Inv`: the process tree, and the invariant of runs
* `Moved`, `Dropped`, `Created`: the parts of a change of group
* `Noted`: `orphanpg` is called when and only when a number drops to zero

## Main results

* `regroup_spec`, `enterpgrp_spec`: a change of group keeps the invariant and notes what drops
-/

namespace ProcGroup

open Function

/-- The process tree. The parent of init has no parent. -/
structure Family (initproc : ℕ) (s : State) : Prop where
  child : ∀ {q qr c}, s.proc q = some qr → c ∈ qr.children →
    ∃ cr, s.proc c = some cr ∧ cr.pptr = some q
  parent : ∀ {c cr q}, s.proc c = some cr → cr.pptr = some q →
    ∃ qr, s.proc q = some qr ∧ c ∈ qr.children
  nodup : ∀ {q qr}, s.proc q = some qr → qr.children.Nodup
  self : ∀ {c cr}, s.proc c = some cr → cr.pptr ≠ some c
  zombie : ∀ {q qr}, s.proc q = some qr → qr.zombie = true → qr.children = []
  init : ∃ ir, s.proc initproc = some ir ∧ ir.zombie = false ∧ ir.pid = 1
  root : ∀ {ir q qr}, s.proc initproc = some ir → ir.pptr = some q → s.proc q = some qr →
    qr.pptr = none

/-- The processes form a tree, the groups and the sessions are linked, and every count is the
number of the members that count for the group. -/
structure Inv (initproc : ℕ) (s : State) : Prop where
  family : Family initproc s
  groups : Groups s
  counted : ∀ g, s.jobc g = s.number g

variable {initproc : ℕ} {s s' : State}

theorem Family.self_not_mem (hf : Family initproc s) {p : ℕ} {pr : Proc}
    (hp : s.proc p = some pr) : p ∉ pr.children := by
  intro h
  obtain ⟨pr', hp', hpp⟩ := hf.child hp h
  exact hf.self hp' hpp

theorem Family.init_not_mem (hf : Family initproc s) {p q : ℕ} {pr : Proc}
    (hp : s.proc p = some pr) (hpq : pr.pptr = some q) : initproc ∉ pr.children := by
  intro h
  obtain ⟨ir, hi, hip⟩ := hf.child hp h
  have hnone := hf.root hi hip hp
  rw [hpq] at hnone
  cases hnone

/-! ## The two adjustments -/

theorem parent_of_fixjobc {p x : ℕ} {pr : Proc} {entering : Bool} (hp : s.proc p = some pr)
    (h : fixjobc s p x entering = some s') : ∃ q, pr.pptr = some q := by
  simp only [fixjobc, hp, Option.bind_eq_bind, Option.bind_some, Option.bind_eq_some_iff] at h
  obtain ⟨_, _, q, hq, _⟩ := h
  exact ⟨q, hq⟩

/-- A process with its parent, as `fixjobc` finds them. -/
structure Seen (s : State) (p : ℕ) (pr : Proc) (q : ℕ) (qr : Proc) : Prop where
  proc : s.proc p = some pr
  live : pr.zombie = false
  pptr : pr.pptr = some q
  parent : s.proc q = some qr

section Seen

variable {p q x : ℕ} {pr qr : Proc}

theorem Seen.fixjobc (h : Seen s p pr q qr) (hf : Family initproc s) (hg : Groups s)
    (hx : (s.sess x).isSome) (entering : Bool) :
    fixjobc s p x entering = adjustAll entering (targets s qr.pgrp x pr.children) s := by
  refine fixjobc_eq h.proc h.pptr h.parent hx (hg.isSome h.parent) ?_
  intro c hc
  obtain ⟨cr, hcr, _⟩ := hf.child h.proc hc
  exact ⟨cr, hcr, hg.isSome hcr⟩

theorem Seen.targets_isSome (h : Seen s p pr q qr) (hf : Family initproc s) (hg : Groups s)
    (hx : (s.sess x).isSome) : ∀ g ∈ targets s qr.pgrp x pr.children, (s.sess g).isSome := by
  intro g hmem
  rw [targets, List.mem_append] at hmem
  obtain hmem | hmem := hmem
  · split_ifs at hmem
    · obtain rfl := List.mem_singleton.mp hmem
      exact hx
    · cases hmem
  · obtain ⟨c, hc, rfl⟩ := List.mem_map.mp hmem
    obtain ⟨cr, hcr, _⟩ := hf.child h.proc (List.mem_of_mem_filter hc)
    simpa [State.grp, hcr] using hg.isSome hcr

theorem Seen.number_eq (h : Seen s p pr q qr) (hf : Family initproc s) (hg : Groups s) (g : ℕ) :
    s.number g = (targets s qr.pgrp pr.pgrp pr.children).count g + restOf s p pr.children g := by
  refine ProcGroup.number_eq hg h.proc h.live h.pptr h.parent (hf.self_not_mem h.proc)
    (hf.nodup h.proc) ?_ g
  intro c hc
  exact hf.child h.proc hc

theorem targets_shift (d : ℕ → ℤ) (log : List ℕ) (y x : ℕ) (kids : List ℕ) :
    targets (s.shift d log) y x kids = targets s y x kids := by
  simp [targets]

theorem Groups.shift (hg : Groups s) (d : ℕ → ℤ) (log : List ℕ) : Groups (s.shift d log) := by
  obtain ⟨hmember, hmem, hnodup, hhash, hhashed, hsession, hcount⟩ := hg
  constructor <;> simpa

theorem Family.shift (hf : Family initproc s) (d : ℕ → ℤ) (log : List ℕ) :
    Family initproc (s.shift d log) := by
  obtain ⟨hchild, hparent, hnodup, hself, hzombie, hinit, hroot⟩ := hf
  constructor <;> simpa

/-- The process leaves its group for the count: what is left in each count is the rest, with what
was added before; a group whose count drops to zero is noted once. -/
theorem Seen.leave (h : Seen s p pr q qr) (hi : Inv initproc s) (add : ℕ → ℕ)
    (hadd : ∀ g, s.sess g = none → add g = 0) :
    ∃ log, ProcGroup.fixjobc (s.shift (fun g => (add g : ℤ)) s.orphaned) p pr.pgrp false =
        some (s.shift (fun g => (add g : ℤ) -
          ((targets s qr.pgrp pr.pgrp pr.children).count g : ℤ)) log) ∧
      ∀ g, log.count g = s.orphaned.count g +
        if 0 < s.number g ∧ add g + restOf s p pr.children g = 0 then 1 else 0 := by
  obtain ⟨hf, hg, hcounted⟩ := hi
  have hold := hg.isSome h.proc
  have hseen : Seen (s.shift (fun g => (add g : ℤ)) s.orphaned) p pr q qr := by
    obtain ⟨h₁, h₂, h₃, h₄⟩ := h
    exact ⟨h₁, h₂, h₃, h₄⟩
  have hrun := hseen.fixjobc (hf.shift _ _) (hg.shift (fun g => (add g : ℤ)) s.orphaned)
    (x := pr.pgrp) (by simpa using hold) false
  rw [targets_shift] at hrun
  have hjobc : ∀ g, (s.shift (fun g => (add g : ℤ)) s.orphaned).jobc g = s.number g + add g := by
    intro g
    rw [State.shift_jobc, hcounted g]
    intro hnone
    exact_mod_cast hadd g hnone
  have hnum := h.number_eq hf hg
  obtain ⟨log, hlog, hcount⟩ := adjustAll_leave
    (s := s.shift (fun g => (add g : ℤ)) s.orphaned) (targets s qr.pgrp pr.pgrp pr.children)
    (by simpa using h.targets_isSome hf hg hold) (by
      intro g
      rw [hjobc, hnum g]
      omega)
  refine ⟨log, ?_, ?_⟩
  · rw [hrun, hlog, State.shift_shift]
    congr 2
  · intro g
    rw [hcount g, hjobc, hnum g]
    simp only [State.shift_orphaned]
    congr 1
    have hiff : (0 < (targets s qr.pgrp pr.pgrp pr.children).count g ∧
        (((targets s qr.pgrp pr.pgrp pr.children).count g + restOf s p pr.children g : ℕ) : ℤ) +
          add g = (targets s qr.pgrp pr.pgrp pr.children).count g) ↔
        (0 < (targets s qr.pgrp pr.pgrp pr.children).count g + restOf s p pr.children g ∧
          add g + restOf s p pr.children g = 0) := by
      omega
    simp only [hiff]

end Seen

/-! ## A process in another group -/

/-- What the family sees of a process. -/
def Proc.kin (r : Proc) : ℕ × Bool × Option ℕ × List ℕ := (r.pid, r.zombie, r.pptr, r.children)

theorem Family.congr (hf : Family initproc s)
    (h : ∀ c, (s'.proc c).map Proc.kin = (s.proc c).map Proc.kin) : Family initproc s' := by
  have hback : ∀ {c r'}, s'.proc c = some r' → ∃ r, s.proc c = some r ∧ r.kin = r'.kin := by
    intro c r' hr'
    have hc := (h c).symm
    rw [hr'] at hc
    exact Option.map_eq_some_iff.mp hc
  have hforth : ∀ {c r}, s.proc c = some r → ∃ r', s'.proc c = some r' ∧ r'.kin = r.kin := by
    intro c r hr
    simpa [hr] using h c
  simp only [Proc.kin, Prod.mk.injEq] at hback hforth
  constructor
  · intro q qr' c hq hc
    obtain ⟨qr, hqr, _, _, _, hk⟩ := hback hq
    obtain ⟨cr, hcr, hp⟩ := hf.child hqr (hk ▸ hc)
    obtain ⟨cr', hcr', _, _, hp', _⟩ := hforth hcr
    exact ⟨cr', hcr', hp'.trans hp⟩
  · intro c cr' q hc hq
    obtain ⟨cr, hcr, _, _, hp, _⟩ := hback hc
    obtain ⟨qr, hqr, hmem⟩ := hf.parent hcr (hp.trans hq)
    obtain ⟨qr', hqr', _, _, _, hk⟩ := hforth hqr
    exact ⟨qr', hqr', hk ▸ hmem⟩
  · intro q qr' hq
    obtain ⟨qr, hqr, _, _, _, hk⟩ := hback hq
    exact hk ▸ hf.nodup hqr
  · intro c cr' hc
    obtain ⟨cr, hcr, _, _, hp, _⟩ := hback hc
    exact hp ▸ hf.self hcr
  · intro q qr' hq hz
    obtain ⟨qr, hqr, _, hz', _, hk⟩ := hback hq
    exact hk ▸ hf.zombie hqr (hz'.trans hz)
  · obtain ⟨ir, hir, hz, hpid⟩ := hf.init
    obtain ⟨ir', hir', hpid', hz', _⟩ := hforth hir
    exact ⟨ir', hir', hz'.trans hz, hpid'.trans hpid⟩
  · intro ir' q qr' hir hq hqr
    obtain ⟨ir, hir', _, _, hp, _⟩ := hback hir
    obtain ⟨qr, hqr', _, _, hp', _⟩ := hback hqr
    exact hp'.symm.trans (hf.root hir' (hp.trans hq) hqr')

/-- The process is moved to the group `x`. -/
structure Moved (s s' : State) (p : ℕ) (pr : Proc) (x : ℕ) : Prop where
  proc : s'.proc = update s.proc p (some { pr with pgrp := x })
  sess : s'.sess = s.sess
  mem : s'.mem = update (update s.mem pr.pgrp ((s.mem pr.pgrp).erase p)) x (p :: s.mem x)
  session : s'.session = s.session
  hash : s'.pgrphash = s.pgrphash

section Moved

variable {p q x : ℕ} {pr qr : Proc}

theorem Moved.proc_ne (h : Moved s s' p pr x) {c : ℕ} (hc : c ≠ p) : s'.proc c = s.proc c := by
  rw [h.proc, update_of_ne hc]

theorem Moved.family (h : Moved s s' p pr x) (hp : s.proc p = some pr)
    (hf : Family initproc s) : Family initproc s' := by
  refine hf.congr ?_
  intro c
  by_cases hc : c = p
  · subst hc
    rw [h.proc, update_self, hp]
    rfl
  · rw [h.proc_ne hc]

theorem Moved.groups (h : Moved s s' p pr x) (hp : s.proc p = some pr) (hx : x ≠ pr.pgrp)
    (hg : Groups s) : Groups s' := by
  have hpx : p ∉ s.mem x := mt (hg.mem_iff hp).mp (Ne.symm hx)
  constructor
  · intro c cr hc
    by_cases hcp : c = p
    · subst hcp
      rw [h.proc, update_self] at hc
      cases hc
      rw [h.mem, update_self]
      exact List.mem_cons_self
    · rw [h.proc_ne hcp] at hc
      have hmem := hg.member hc
      rw [h.mem]
      by_cases hgx : cr.pgrp = x
      · rw [hgx, update_self]
        exact List.mem_cons_of_mem p (hgx ▸ hmem)
      · rw [update_of_ne hgx]
        by_cases hgo : cr.pgrp = pr.pgrp
        · rw [hgo, update_self, List.mem_erase_of_ne hcp]
          exact hgo ▸ hmem
        · rwa [update_of_ne hgo]
  · intro g c hc
    rw [h.mem] at hc
    by_cases hgx : g = x
    · subst hgx
      rw [update_self, List.mem_cons] at hc
      obtain rfl | hc := hc
      · exact ⟨_, by rw [h.proc, update_self], rfl⟩
      · obtain ⟨cr, hcr, hcg⟩ := hg.mem hc
        have hcp : c ≠ p := fun he => hpx (he ▸ hc)
        exact ⟨cr, (h.proc_ne hcp).trans hcr, hcg⟩
    · rw [update_of_ne hgx] at hc
      by_cases hgo : g = pr.pgrp
      · subst hgo
        rw [update_self, (hg.nodup _).mem_erase_iff] at hc
        obtain ⟨cr, hcr, hcg⟩ := hg.mem hc.2
        exact ⟨cr, (h.proc_ne hc.1).trans hcr, hcg⟩
      · rw [update_of_ne hgo] at hc
        obtain ⟨cr, hcr, hcg⟩ := hg.mem hc
        have hcp : c ≠ p := by
          rintro rfl
          rw [hp] at hcr
          cases hcr
          exact hgo hcg.symm
        exact ⟨cr, (h.proc_ne hcp).trans hcr, hcg⟩
  · intro g
    rw [h.mem]
    by_cases hgx : g = x
    · subst hgx
      rw [update_self]
      exact List.nodup_cons.mpr ⟨hpx, hg.nodup g⟩
    · rw [update_of_ne hgx]
      by_cases hgo : g = pr.pgrp
      · subst hgo
        rw [update_self]
        exact (hg.nodup _).erase p
      · rw [update_of_ne hgo]
        exact hg.nodup g
  · rw [h.hash]
    exact hg.hash
  · rw [h.hash, h.sess]
    exact hg.hashed
  · rw [h.sess, h.session]
    exact hg.session
  · rw [h.sess, h.session, h.hash]
    exact hg.count

theorem countP_erase_of_not {l : List ℕ} {f : ℕ → Bool} (h : f p = false) :
    (l.erase p).countP f = l.countP f := by
  by_cases hp : p ∈ l
  · rw [(List.perm_cons_erase hp).countP_eq, List.countP_cons_of_neg (by simp [h])]
  · rw [List.erase_of_not_mem hp]

theorem Moved.restOf (h : Moved s s' p pr x) (hp : s.proc p = some pr) (hf : Family initproc s)
    (hg : Groups s) (g : ℕ) : restOf s' p pr.children g = restOf s p pr.children g := by
  have hmem : ∀ f : ℕ → Bool, f p = false → (s'.mem g).countP f = (s.mem g).countP f := by
    intro f hfp
    rw [h.mem]
    by_cases hgx : g = x
    · subst hgx
      rw [update_self, List.countP_cons_of_neg (by simp [hfp])]
    · rw [update_of_ne hgx]
      by_cases hgo : g = pr.pgrp
      · subst hgo
        rw [update_self, countP_erase_of_not hfp]
      · rw [update_of_ne hgo]
  rw [ProcGroup.restOf, hmem _ (by simp), ProcGroup.restOf]
  apply List.countP_congr
  intro c _
  by_cases hc : c ≠ p ∧ c ∉ pr.children
  · -- neither the process nor its parent is the one that moves
    have hqual : s'.qualifies c = s.qualifies c := by
      refine qualifies_congr hg (by rw [h.proc_ne hc.1]) ?_ (fun g _ => by rw [h.sess])
      intro cr q hcr hq
      obtain ⟨qr, hqr, hmem⟩ := hf.parent hcr hq
      have hqp : q ≠ p := by
        rintro rfl
        rw [hp] at hqr
        cases hqr
        exact hc.2 hmem
      rw [h.proc_ne hqp]
    rw [hqual]
  · simp [hc]

theorem Moved.number (h : Moved s s' p pr x) (hs : Seen s p pr q qr) (hx : x ≠ pr.pgrp)
    (hf : Family initproc s) (hg : Groups s) (g : ℕ) :
    s'.number g = (targets s qr.pgrp x pr.children).count g + ProcGroup.restOf s p pr.children g := by
  have hqp : q ≠ p := fun he => hf.self hs.proc (he ▸ hs.pptr)
  have hs' : Seen s' p { pr with pgrp := x } q qr := by
    refine ⟨?_, hs.live, hs.pptr, ?_⟩
    · rw [h.proc, update_self]
    · rw [h.proc_ne hqp]
      exact hs.parent
  rw [hs'.number_eq (h.family hs.proc hf) (h.groups hs.proc hx hg)]
  congr 1
  · congr 1
    have hac : ∀ a b, s'.Across a b ↔ s.Across a b := by
      intro a b
      rw [State.Across, State.Across, h.sess]
    have hkid : ∀ c ∈ pr.children, s'.joins x c = s.joins x c ∧ s'.grp c = s.grp c := by
      intro c hc
      have hcp : c ≠ p := fun he => hf.self_not_mem hs.proc (he ▸ hc)
      simp only [State.joins, State.grp, h.proc_ne hcp, hac, and_self]
    simp only [targets, hac]
    congr 1
    rw [List.filter_congr fun c hc => (hkid c hc).1]
    apply List.map_congr_left
    intro c hc
    exact (hkid c (List.mem_of_mem_filter hc)).2
  · exact h.restOf hs.proc hf hg g

end Moved

/-! ## Empty groups -/

/-- The empty group `g` is deleted; `n` is how many groups its session had. -/
structure Dropped (s s' : State) (g : ℕ) : Prop where
  proc : s'.proc = s.proc
  mem : s'.mem = s.mem
  jobc : ∀ g', g' ≠ g → s'.jobc g' = s.jobc g'
  gone : s'.jobc g = 0
  sess : s'.sess = update s.sess g none
  hash : s'.pgrphash = s.pgrphash.erase g
  orphaned : s'.orphaned = s.orphaned
  empty : s.mem g = []
  session : ∃ k v, s.sess g = some k ∧ s.session k = some v ∧
    s'.session = update s.session k
      (if v.count - 1 = 0 then none else some { v with count := v.count - 1 })

theorem Dropped.number {g : ℕ} (h : Dropped s s' g) (hg : Groups s) : s'.number = s.number := by
  refine number_congr hg h.proc h.mem ?_
  intro g' hne
  have hgg : g' ≠ g := fun he => hne (he ▸ h.empty)
  rw [h.sess, update_of_ne hgg]

theorem countP_update_erase {l : List ℕ} {g k : ℕ} {f : ℕ → Option ℕ} (hl : g ∈ l)
    (hnd : l.Nodup) (k' : ℕ) (hk : f g = some k) :
    (l.erase g).countP (fun g' => decide (update f g none g' = some k')) +
      (if k' = k then 1 else 0) = l.countP fun g' => decide (f g' = some k') := by
  rw [(List.perm_cons_erase hl).countP_eq (fun g' => decide (f g' = some k')), List.countP_cons]
  congr 1
  · apply List.countP_congr
    intro g' hg'
    have hne : g' ≠ g := fun he => (hnd.not_mem_erase) (he ▸ hg')
    rw [update_of_ne hne]
  · simp [hk, eq_comm]

theorem Dropped.groups {g : ℕ} (h : Dropped s s' g) (hg : Groups s) : Groups s' := by
  obtain ⟨k, v, hk, hv, hsession⟩ := h.session
  have hgh : g ∈ s.pgrphash := (hg.hashed g).mpr (by simp [hk])
  have hcountP := fun k' => countP_update_erase hgh hg.hash k' hk
  constructor
  · rw [h.proc, h.mem]
    exact hg.member
  · rw [h.proc, h.mem]
    exact hg.mem
  · rw [h.mem]
    exact hg.nodup
  · rw [h.hash]
    exact hg.hash.erase g
  · intro g'
    rw [h.hash, h.sess, hg.hash.mem_erase_iff, hg.hashed]
    by_cases hgg : g' = g
    · subst hgg
      simp
    · simp [hgg]
  · intro g' k' hk'
    rw [h.sess] at hk'
    have hgg : g' ≠ g := by
      rintro rfl
      rw [update_self] at hk'
      cases hk'
    rw [update_of_ne hgg] at hk'
    rw [hsession]
    by_cases hkk : k' = k
    · -- another group of the session is left
      subst hkk
      have hpos : 0 < (s.pgrphash.erase g).countP
          fun g' => decide (update s.sess g none g' = some k') := by
        rw [List.countP_pos_iff]
        refine ⟨g', (hg.hash.mem_erase_iff).mpr ⟨hgg, ?_⟩, ?_⟩
        · exact (hg.hashed g').mpr (by simp [hk'])
        · simp [hgg, hk']
      have hc := hcountP k'
      have hv' := hg.count hv
      rw [if_pos rfl] at hc
      rw [update_self, if_neg (by omega)]
      rfl
    · rw [update_of_ne hkk]
      exact hg.session hk'
  · intro k' v' hv'
    have hc := hcountP k'
    rw [hsession] at hv'
    rw [h.hash, h.sess]
    by_cases hkk : k' = k
    · subst hkk
      rw [update_self] at hv'
      split_ifs at hv' with hz
      · cases hv'
        have hcount := hg.count hv
        rw [if_pos rfl] at hc
        simp only
        omega
    · rw [update_of_ne hkk] at hv'
      rw [if_neg hkk, Nat.add_zero] at hc
      rw [hc]
      exact hg.count hv'

theorem Dropped.inv {g : ℕ} (h : Dropped s s' g) (hi : Inv initproc s) : Inv initproc s' where
  family := hi.family.congr (by rw [h.proc]; exact fun _ => rfl)
  groups := h.groups hi.groups
  counted g' := by
    rw [h.number hi.groups]
    by_cases hgg : g' = g
    · subst hgg
      rw [h.gone, State.number, h.empty]
      rfl
    · rw [h.jobc g' hgg]
      exact hi.counted g'

/-- The empty group `g` is made, in a session that it has already been counted for. -/
structure Created (s s' : State) (g : ℕ) : Prop where
  proc : s'.proc = s.proc
  mem : s'.mem = s.mem
  jobc : s'.jobc = s.jobc
  fresh : s.sess g = none
  hash : s'.pgrphash = g :: s.pgrphash
  orphaned : s'.orphaned = s.orphaned
  session : ∃ k v, s'.sess = update s.sess g (some k) ∧ s'.session = update s.session k (some v) ∧
    v.count = 1 + s.pgrphash.countP fun g' => decide (s.sess g' = some k)

theorem Created.number {g : ℕ} (h : Created s s' g) (hg : Groups s) : s'.number = s.number := by
  obtain ⟨k, v, hsess, -, -⟩ := h.session
  refine number_congr hg h.proc h.mem ?_
  intro g' hne
  have hgg : g' ≠ g := by
    rintro rfl
    obtain ⟨c, hc⟩ := List.exists_mem_of_ne_nil _ hne
    have hsome := sess_of_mem hc
    rw [h.fresh] at hsome
    cases hsome
  rw [hsess, update_of_ne hgg]

theorem Created.inv {g : ℕ} (h : Created s s' g) (hi : Inv initproc s) : Inv initproc s' := by
  have hg := hi.groups
  have hnum := h.number hg
  obtain ⟨k, v, hsess, hsession, hcount⟩ := h.session
  have hgh : g ∉ s.pgrphash := by
    rw [hg.hashed, h.fresh]
    exact Bool.false_ne_true
  have hcountP : ∀ k', s'.pgrphash.countP (fun g' => decide (s'.sess g' = some k')) =
      (if k = k' then 1 else 0) + s.pgrphash.countP fun g' => decide (s.sess g' = some k') := by
    intro k'
    rw [h.hash, hsess, List.countP_cons, update_self, Nat.add_comm]
    congr 1
    · simp
    · apply List.countP_congr
      intro g' hg'
      have hne : g' ≠ g := fun he => hgh (he ▸ hg')
      rw [update_of_ne hne]
  refine ⟨hi.family.congr (by rw [h.proc]; exact fun _ => rfl), ?_, ?_⟩
  · constructor
    · rw [h.proc, h.mem]
      exact hg.member
    · rw [h.proc, h.mem]
      exact hg.mem
    · rw [h.mem]
      exact hg.nodup
    · rw [h.hash]
      exact List.nodup_cons.mpr ⟨hgh, hg.hash⟩
    · intro g'
      rw [h.hash, hsess, List.mem_cons, hg.hashed]
      by_cases hgg : g' = g
      · subst hgg
        simp
      · simp [hgg]
    · intro g' k' hk'
      rw [hsession]
      by_cases hkk : k' = k
      · subst hkk
        rw [update_self]
        rfl
      · rw [update_of_ne hkk]
        rw [hsess] at hk'
        by_cases hgg : g' = g
        · subst hgg
          rw [update_self] at hk'
          cases hk'
          exact absurd rfl hkk
        · rw [update_of_ne hgg] at hk'
          exact hg.session hk'
    · intro k' v' hv'
      rw [hcountP]
      rw [hsession] at hv'
      by_cases hkk : k' = k
      · subst hkk
        rw [update_self] at hv'
        cases hv'
        rw [hcount, if_pos rfl]
        rfl
      · rw [update_of_ne hkk] at hv'
        rw [if_neg (Ne.symm hkk), Nat.zero_add]
        exact hg.count hv'
  · intro g'
    rw [h.jobc, hnum]
    exact hi.counted g'

/-- The process is off the list of the group `g`. -/
structure Unlinked (s s' : State) (p g : ℕ) : Prop where
  proc : s'.proc = s.proc
  sess : s'.sess = s.sess
  mem : s'.mem = update s.mem g ((s.mem g).erase p)
  jobc : s'.jobc = s.jobc
  session : s'.session = s.session
  hash : s'.pgrphash = s.pgrphash
  orphaned : s'.orphaned = s.orphaned

theorem pgdelete_spec {g : ℕ} (h : pgdelete s g = some s') (he : s.mem g = []) :
    Dropped s s' g := by
  simp only [pgdelete, Option.bind_eq_bind, Option.bind_eq_some_iff] at h
  obtain ⟨r, hr, v, hv, h⟩ := h
  have hmem : g ∈ s.pgrphash := by
    by_contra hmem
    rw [if_neg hmem] at h
    cases h
  rw [if_pos hmem] at h
  cases h
  refine ⟨rfl, ?_, ?_, ?_, ?_, rfl, rfl, he, r.session, v, sess_of_pgrp hr, hv, rfl⟩
  · funext g'
    by_cases hg : g' = g
    · subst hg
      rw [he]
      simp [State.mem]
    · simp [State.mem, hg]
  · intro g' hg
    simp [State.jobc, hg]
  · simp [State.jobc]
  · funext g'
    by_cases hg : g' = g
    · subst hg
      simp [State.sess]
    · simp [State.sess, hg]

theorem unlink_spec {p : ℕ} {pr : Proc} (hp : s.proc p = some pr) (h : unlink s p = some s') :
    ∃ m, Unlinked s m p pr.pgrp ∧ (s' = m ∨ Dropped m s' pr.pgrp) := by
  simp only [unlink, hp, Option.bind_eq_bind, Option.bind_some, Option.bind_eq_some_iff] at h
  obtain ⟨r, hr, h⟩ := h
  have hmem : s.mem pr.pgrp = r.mem := mem_of_pgrp hr
  split_ifs at h with hin hempty
  · refine ⟨s.setPgrp pr.pgrp { r with mem := r.mem.erase p }, ?_, ?_⟩
    · exact ⟨rfl, setPgrp_sess _ hr, by rw [hmem, setPgrp_mem], setPgrp_jobc _ hr, rfl, rfl, rfl⟩
    · right
      apply pgdelete_spec h
      rw [setPgrp_mem, update_self, hempty]
  · refine ⟨s.setPgrp pr.pgrp { r with mem := r.mem.erase p }, ?_, .inl (Option.some.inj h).symm⟩
    exact ⟨rfl, setPgrp_sess _ hr, by rw [hmem, setPgrp_mem], setPgrp_jobc _ hr, rfl, rfl, rfl⟩

/-- The link into the group `x`. -/
structure Linked (s s' : State) (p x : ℕ) (v : Proc) : Prop where
  proc : s'.proc = update s.proc p (some v)
  sess : s'.sess = s.sess
  mem : s'.mem = update s.mem x (p :: s.mem x)
  jobc : s'.jobc = s.jobc
  session : s'.session = s.session
  hash : s'.pgrphash = s.pgrphash
  orphaned : s'.orphaned = s.orphaned

theorem link_spec {p x : ℕ} {v : Proc} {r : Pgrp} (hr : s.pgrp x = some r) :
    Linked s ((s.setProc p v).setPgrp x { r with mem := p :: r.mem }) p x v := by
  have hr' : (s.setProc p v).pgrp x = some r := hr
  refine ⟨rfl, setPgrp_sess _ hr', ?_, setPgrp_jobc _ hr', rfl, rfl, rfl⟩
  rw [mem_of_pgrp hr]
  exact setPgrp_mem _

theorem exists_linked {x : ℕ} (p : ℕ) (v : Proc) (hx : (s.sess x).isSome) :
    ∃ s', Linked s s' p x v := by
  obtain ⟨k, hk⟩ := Option.isSome_iff_exists.mp hx
  obtain ⟨r, hr, -⟩ := pgrp_of_sess hk
  exact ⟨_, link_spec hr⟩

/-- The deletion of the old group and the link into another one do not meet. -/
theorem Dropped.linked {m t : State} {g p x : ℕ} {v : Proc} (hd : Dropped m s g) (hx : x ≠ g)
    (ht : Linked m t p x v) (hl : Linked s s' p x v) : Dropped t s' g := by
  obtain ⟨k, w, hk, hw, hsession⟩ := hd.session
  refine ⟨?_, ?_, ?_, ?_, ?_, ?_, ?_, ?_, k, w, ?_, ?_, ?_⟩
  · rw [hl.proc, ht.proc, hd.proc]
  · rw [hl.mem, ht.mem, hd.mem]
  · intro g' hg'
    rw [hl.jobc, ht.jobc, hd.jobc g' hg']
  · rw [hl.jobc, hd.gone]
  · rw [hl.sess, ht.sess, hd.sess]
  · rw [hl.hash, ht.hash, hd.hash]
  · rw [hl.orphaned, ht.orphaned, hd.orphaned]
  · rw [ht.mem, update_of_ne (Ne.symm hx), hd.empty]
  · rw [ht.sess, hk]
  · rw [ht.session, hw]
  · rw [hl.session, ht.session, hsession]

/-- `orphanpg` was called once more for every group whose number has dropped to zero, and for no
other. -/
def Noted (s s' : State) : Prop :=
  ∀ g, s'.orphaned.count g = s.orphaned.count g +
    if 0 < s.number g ∧ s'.number g = 0 then 1 else 0

theorem Noted.refl_of (ho : s'.orphaned = s.orphaned) (hn : s'.number = s.number) :
    Noted s s' := by
  intro g
  rw [ho, hn, if_neg (by omega), Nat.add_zero]

theorem regroup_spec (hi : Inv initproc s) {p x : ℕ} {pr : Proc} (hp : s.proc p = some pr)
    (hlive : pr.zombie = false) (hx : (s.sess x).isSome) (hne : x ≠ pr.pgrp)
    (h : regroup s p x = some s') : Inv initproc s' ∧ Noted s s' := by
  obtain ⟨hf, hg, hcounted⟩ := id hi
  simp only [regroup, Option.bind_eq_bind, Option.bind_eq_some_iff] at h
  obtain ⟨s₁, h₁, pr', hp', s₂, h₂, s₃, h₃, rx, hrx, h⟩ := h
  obtain ⟨q, hpq⟩ := parent_of_fixjobc hp h₁
  obtain ⟨qr, hq, -⟩ := hf.parent hp hpq
  have hseen : Seen s p pr q qr := ⟨hp, hlive, hpq, hq⟩
  -- the counts, entering first
  have htargets := hseen.targets_isSome hf hg hx
  have hadd : ∀ g, s.sess g = none → (targets s qr.pgrp x pr.children).count g = 0 := by
    intro g hnone
    apply List.count_eq_zero.mpr
    intro hmem
    have hsome := htargets g hmem
    rw [hnone] at hsome
    cases hsome
  rw [hseen.fixjobc hf hg hx, adjustAll_enter htargets] at h₁
  cases h₁
  have hpr : pr' = pr := by
    rw [State.shift_proc, hp] at hp'
    cases hp'
    rfl
  subst hpr
  obtain ⟨log, hleave, hlog⟩ := hseen.leave hi _ hadd
  rw [hleave] at h₂
  cases h₂
  -- the process moves, and the old group goes if it is empty
  obtain ⟨m, hm, hdrop⟩ := unlink_spec (show (s.shift _ log).proc p = some pr' from hp) h₃
  have hxm : (m.sess x).isSome := by
    rw [hm.sess, State.shift_sess]
    exact hx
  obtain ⟨t, ht⟩ := exists_linked p { pr' with pgrp := x } hxm
  have hmoved : Moved s t p pr' x := by
    refine ⟨?_, ?_, ?_, ?_, ?_⟩
    · rw [ht.proc, hm.proc, State.shift_proc]
    · rw [ht.sess, hm.sess, State.shift_sess]
    · rw [ht.mem, hm.mem, State.shift_mem, update_of_ne hne]
    · rw [ht.session, hm.session, State.shift_session]
    · rw [ht.hash, hm.hash, State.shift_pgrphash]
  have hnumber := hmoved.number hseen hne hf hg
  have hinv : Inv initproc t := by
    refine ⟨hmoved.family hp hf, hmoved.groups hp hne hg, ?_⟩
    intro g
    have hnum := hseen.number_eq hf hg g
    rw [ht.jobc, hm.jobc, State.shift_jobc, hcounted g, hnumber g, hnum]
    · omega
    · intro hnone
      rw [hadd g hnone]
      have hz : s.number g = 0 := by
        rw [State.number, List.countP_eq_zero]
        intro c hc
        have hsome := sess_of_mem hc
        rw [hnone] at hsome
        cases hsome
      omega
  have hnoted : Noted s t := by
    intro g
    rw [ht.orphaned, hm.orphaned, State.shift_orphaned, hlog g, hnumber g]
  have hlinked : Linked s₃ s' p x { pr' with pgrp := x } := by
    cases h
    exact link_spec hrx
  obtain rfl | hd := hdrop
  · -- the old group has members left
    have heq : s'.number = t.number := by
      refine number_congr hinv.groups ?_ ?_ ?_
      · rw [hlinked.proc, ht.proc]
      · rw [hlinked.mem, ht.mem]
      · intro g _
        rw [hlinked.sess, ht.sess]
    refine ⟨⟨?_, ?_, ?_⟩, ?_⟩
    · exact hinv.family.congr (by rw [hlinked.proc, ht.proc]; exact fun _ => rfl)
    · obtain ⟨hmember, hmem, hnodup, hhash, hhashed, hsession, hcount⟩ := hinv.groups
      constructor <;> simpa only [hlinked.proc, hlinked.mem, hlinked.hash, hlinked.sess,
        hlinked.session, ← ht.proc, ← ht.mem, ← ht.hash, ← ht.sess, ← ht.session]
    · intro g
      rw [hlinked.jobc, ← ht.jobc, heq]
      exact hinv.counted g
    · intro g
      rw [heq, hlinked.orphaned, ← ht.orphaned]
      exact hnoted g
  · have hd' := hd.linked hne ht hlinked
    refine ⟨hd'.inv hinv, ?_⟩
    intro g
    rw [hd'.number hinv.groups, hd'.orphaned]
    exact hnoted g

/-! ## `enterpgrp` -/

theorem created_spec {g k id : ℕ} {v : Session} (hg : s.pgrp g = none)
    (hv : v.count = 1 + s.pgrphash.countP fun g' => decide (s.sess g' = some k)) :
    Created s { (s.setSession k v).setPgrp g ⟨id, k, 0, []⟩ with
      pgrphash := g :: s.pgrphash } g := by
  refine ⟨rfl, ?_, ?_, ?_, rfl, rfl, k, v, ?_, rfl, hv⟩
  · funext g'
    by_cases h : g' = g
    · subst h
      simp [State.mem, State.setPgrp, hg]
    · simp [State.mem, State.setPgrp, State.setSession, h]
  · funext g'
    by_cases h : g' = g
    · subst h
      simp [State.jobc, State.setPgrp, hg]
    · simp [State.jobc, State.setPgrp, State.setSession, h]
  · simp [State.sess, hg]
  · funext g'
    by_cases h : g' = g
    · subst h
      simp [State.sess, State.setPgrp]
    · simp [State.sess, State.setPgrp, State.setSession, h]

theorem Created.regroup {t : State} {g p : ℕ} {pr : Proc} (hc : Created s t g)
    (hi : Inv initproc s) (hp : s.proc p = some pr) (hlive : pr.zombie = false)
    (h : regroup t p g = some s') : Inv initproc s' ∧ Noted s s' := by
  obtain ⟨k, v, hsess, -, -⟩ := hc.session
  have hne : g ≠ pr.pgrp := by
    rintro rfl
    have hsome := hi.groups.isSome hp
    rw [hc.fresh] at hsome
    cases hsome
  have hx : (t.sess g).isSome := by
    rw [hsess, update_self]
    rfl
  obtain ⟨hinv, hnoted⟩ := regroup_spec (hc.inv hi) (hc.proc ▸ hp) hlive hx hne h
  refine ⟨hinv, ?_⟩
  intro g'
  rw [hnoted g', hc.number hi.groups, hc.orphaned]

theorem enterpgrp_spec (hi : Inv initproc s) {curproc newpgrp newsess p pgid : ℕ} {mksess : Bool}
    (hlive : ∃ pr, s.proc p = some pr ∧ pr.zombie = false) (hpgrp : s.pgrp newpgrp = none)
    (hsess : s.session newsess = none)
    (h : enterpgrp s curproc newpgrp newsess p pgid mksess = some s') :
    Inv initproc s' ∧ Noted s s' := by
  obtain ⟨pr, hp, hz⟩ := hlive
  simp only [enterpgrp, hp, Option.bind_eq_bind, Option.bind_some, Option.bind_eq_some_iff] at h
  obtain ⟨old, hold, v, hv, h⟩ := h
  by_cases hleader : v.leader = some p
  · rw [if_pos hleader] at h
    cases h
  · rw [if_neg hleader] at h
    cases hfind : pgfind s pgid with
    | some g =>
      simp only [hfind] at h
      have hg : (s.sess g).isSome := (hi.groups.hashed g).mp (List.mem_of_find?_eq_some hfind)
      split_ifs at h with hmk hown
      · cases h
        exact ⟨hi, .refl_of rfl rfl⟩
      · exact regroup_spec hi hp hz hg hown h
    | none =>
      simp only [hfind] at h
      split_ifs at h with hpid hmk hcur
      · -- a new session
        refine (created_spec hpgrp ?_).regroup hi hp hz h
        have hnone : s.pgrphash.countP (fun g' => decide (s.sess g' = some newsess)) = 0 := by
          apply List.countP_eq_zero.mpr
          intro g' _
          rw [decide_eq_true_eq]
          intro hg'
          have hsome := hi.groups.session hg'
          rw [hsess] at hsome
          cases hsome
        rw [hnone]
        rfl
      · refine (created_spec hpgrp ?_).regroup hi hp hz h
        have hcount := hi.groups.count hv
        simp only [hcount]
        omega

end ProcGroup
